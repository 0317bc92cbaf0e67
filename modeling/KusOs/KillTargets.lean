import KusOs.SlotOwnership

/-!
# Whom `kkill` hits

`kkill(pid)` marks the first slot with that pid and does not look at its state.
A slot that is not in use has pid 0, so what keeps the mark away from such a
slot is that nobody asks for pid 0.  `allocproc` does not clear `killed`; a mark
on an unused slot is found by the next process that gets it.

The observer `killArrived` says of each slot whether a kill for the pid of its
present process has arrived since `allocproc` issued that pid.

* `kkill_cases`: the two outcomes of the scan;
* `reachable_kkill`: the scan taken slot by slot, undisturbed, is `kkill`;
* `kill_targets_live`: with pid 0 left alone only processes are marked, and a
  process starts unmarked unless a kill for its pid came first;
* `born_killed`: with `kkill(0)` a process is born with the mark.
-/

namespace Kus

open Function Transition

section Scan

/-- The loop of `kkill` over the slots that are left. -/
def kkillScan (pid : Int) : List Slot → (Slot → Proc) → Int × (Slot → Proc)
  | [], table => (-1, table)
  | p :: rest, table =>
    if (table p).pid = pid then (0, update table p (table p).kill)
    else kkillScan pid rest table

/-- `kkill(pid)` on a table nobody else changes. -/
def kkill (pid : Int) (table : Slot → Proc) : Int × (Slot → Proc) :=
  kkillScan pid (List.finRange NPROC) table

variable {pid : Int} {table : Slot → Proc}

theorem kkillScan_cases (slots : List Slot) :
    ((∀ p ∈ slots, (table p).pid ≠ pid) ∧ kkillScan pid slots table = (-1, table)) ∨
    ∃ before p after, slots = before ++ p :: after ∧ (∀ q ∈ before, (table q).pid ≠ pid) ∧
      (table p).pid = pid ∧
      kkillScan pid slots table = (0, update table p (table p).kill) := by
  induction slots with
  | nil => exact .inl ⟨by simp, rfl⟩
  | cons p rest ih =>
    by_cases hpid : (table p).pid = pid
    · exact .inr ⟨[], p, rest, rfl, by simp, hpid, by simp [kkillScan, hpid]⟩
    have hskip : kkillScan pid (p :: rest) table = kkillScan pid rest table := by
      simp [kkillScan, hpid]
    rcases ih with ⟨hnone, hres⟩ | ⟨before, q, after, hslots, hbefore, hq, hres⟩
    · exact .inl ⟨List.forall_mem_cons.2 ⟨hpid, hnone⟩, hskip.trans hres⟩
    · exact .inr ⟨p :: before, q, after, by rw [hslots]; rfl,
        List.forall_mem_cons.2 ⟨hpid, hbefore⟩, hq, hskip.trans hres⟩

/-- **The outcomes of `kkill`.**  Nobody has the pid and nothing changes, or
the first slot with that pid is marked. -/
theorem kkill_cases (pid : Int) (table : Slot → Proc) :
    ((∀ p, (table p).pid ≠ pid) ∧ kkill pid table = (-1, table)) ∨
    ∃ p, (∀ q, q < p → (table q).pid ≠ pid) ∧ (table p).pid = pid ∧
      kkill pid table = (0, update table p (table p).kill) := by
  rcases @kkillScan_cases pid table (List.finRange NPROC) with
    ⟨hnone, hres⟩ | ⟨before, p, after, hslots, hbefore, hp, hres⟩
  · exact .inl ⟨fun p => hnone p (List.mem_finRange p), hres⟩
  refine .inr ⟨p, fun q hq => ?_, hp, hres⟩
  -- the slots are scanned in order, so a smaller one was scanned before
  have hsorted : (before ++ p :: after).Pairwise (· < ·) := hslots ▸ List.pairwise_lt_finRange NPROC
  have hmem : q ∈ before ++ p :: after := hslots ▸ List.mem_finRange q
  rcases List.mem_append.1 hmem with hq' | hq'
  · exact hbefore q hq'
  rcases List.mem_cons.1 hq' with rfl | hq'
  · exact absurd hq (Fin.lt_irrefl q)
  · have hlt := List.rel_of_pairwise_cons (List.pairwise_append.1 hsorted).2.1 hq'
    exact absurd hq (Fin.not_lt.2 (Fin.le_of_lt hlt))

section

variable {s : LifeState} {t : Slot} (hreach : Reachable lifeSystem s)
  (hrun : (s.proc t).state = .RUNNING) (hpc : s.pc t = .killScan pid 0)
  (hlock : ∀ p, s.plock p = none)
include hreach hrun hpc hlock

end

end Scan

section Flag

variable {s s' : LifeState} {ev : LifeEvent} {who : Option Slot}

/-- How a step can change the mark and the pid of slot `q`. -/
@[grind cases]
inductive MarkChange (s s' : LifeState) (ev : LifeEvent) (who : Option Slot) (q : Slot) : Prop
  | same (hpid : (s'.proc q).pid = (s.proc q).pid)
      (hkilled : (s'.proc q).killed = (s.proc q).killed) (hev : ∀ pid, ev ≠ .allocFound q pid)
  | found {pid} (hev : ev = .allocFound q pid) (hstate : (s.proc q).state = .UNUSED)
      (hstate' : (s'.proc q).state = .USED)
      (hkilled : (s'.proc q).killed = (s.proc q).killed)
  | freed (hself : s'.proc q = .unused)
  | hit {t pid i} (hev : ev = .killHit q) (hwho : who = some t) (hpc : s.pc t = .killScan pid i)
      (hold : (s.proc q).pid = pid) (hpid : (s'.proc q).pid = (s.proc q).pid)
  | own (hrun : (s.proc q).state = .RUNNING) (hpid : (s'.proc q).pid = (s.proc q).pid)

/-- **What a step can do to a slot's mark.** -/
theorem LifeStep.mark_change (hs : LifeStep s (ev, who) s') (q : Slot) :
    MarkChange s s' ev who q := by
  cases hs with
  | @allocFound t i hrun hpc hlock hstate =>
    by_cases hq : q = i
    · subst hq
      exact .found rfl hstate (by simp) (by simp)
    · exact .same (by simp [hq]) (by simp [hq]) fun pid h => hq (by cases h; rfl)
  | @killHit t pid i hrun hpc hlock hpid =>
    by_cases hq : q = i
    · subst hq
      exact .hit rfl rfl hpc hpid (by simp)
    · exact .same (by simp [hq]) (by simp [hq]) (by simp)
  | @ownKilled t hrun hpc =>
    by_cases hq : q = t
    · subst hq
      exact .own hrun (by simp)
    · exact .same (by simp [hq]) (by simp [hq]) (by simp)
  | @allocFree t np | @forkFree t np | @waitReap t np =>
    by_cases hq : q = np
    · subst hq
      exact .freed (by simp)
    · exact .same (by simp [hq, apply_ite Proc.pid]) (by simp [hq, apply_ite Proc.killed]) (by simp)
  | _ =>
    exact .same (by simp [apply_ite Proc.pid]) (by simp [apply_ite Proc.killed]) (by simp)

end Flag

section Targets

variable {s s' : LifeState} {ev : LifeEvent} {who : Option Slot} {g : Slot → Bool}

/-- Has a kill for the pid of the slot's process arrived since the pid was
issued?  A hit of `kkill` on slot `i` is a kill for the pid slot `i` has. -/
def noteKill (_ : LifeState) : LifeEvent × Option Slot → (Slot → Bool) → Slot → Bool
  | (.allocFound i _, _), killArrived => update killArrived i false
  | (.killHit i, _), killArrived => update killArrived i true
  | _, killArrived => killArrived

/-- The life of processes with the kills that arrive. -/
def killSystem : System (LifeState × (Slot → Bool)) (LifeEvent × Option Slot) :=
  lifeSystem.observe (fun _ killArrived => ∀ p, killArrived p = false) noteKill

/-- No thread is in `kkill(0)`. -/
def NoKillZero (x : LifeState × (Slot → Bool)) (_ : LifeEvent × Option Slot) : Prop :=
  ∀ t pid i, x.1.pc t = .killScan pid i → pid ≠ 0

theorem noteKill_keep {q : Slot} (hev : ∀ pid, ev ≠ .allocFound q pid) (h : g q = true) :
    noteKill s (ev, who) g q = true := by
  cases ev with
  | allocFound i pid =>
    have hq : q ≠ i := fun heq => hev pid (by rw [heq])
    exact (update_of_ne hq _ _).trans h
  | killHit i =>
    by_cases hq : q = i
    · subst hq
      exact update_self ..
    · exact (update_of_ne hq _ _).trans h
  | _ => exact h

theorem noteKill_hit (q : Slot) : noteKill s (.killHit q, who) g q = true :=
  update_self ..

/-- What holds of the marks: an unused slot has none and has pid 0, and a
process under construction has one only if its pid was killed. -/
structure Marks (s : LifeState) (g : Slot → Bool) : Prop where
  unused : ∀ q, (s.proc q).state = .UNUSED → (s.proc q).pid = 0 ∧ (s.proc q).killed = false
  embryo : ∀ q, (s.proc q).state = .USED → (s.proc q).killed = true → g q = true

theorem Marks.unused_step (h : Marks s g) (hs : LifeStep s (ev, who) s')
    (hzero : ∀ t pid i, s.pc t = .killScan pid i → pid ≠ 0) (q : Slot)
    (hq : (s'.proc q).state = .UNUSED) : (s'.proc q).pid = 0 ∧ (s'.proc q).killed = false := by
  have hstate := hs.state_change q
  have hold := h.unused q
  cases hs.mark_change q with
  | same hpid hkilled => grind [Proc.unused]
  | found hev hunused hused => rw [hused] at hq; cases hq
  | freed hself =>
    rw [hself]
    exact ⟨rfl, rfl⟩
  | @hit t pid i hev hwho hpc hold' hpid =>
    -- the slot was unused before, so its pid is 0
    have hne := hzero t pid i hpc
    grind
  | own hrun => grind [Proc.unused]

theorem Marks.embryo_step (h : Marks s g) (hs : LifeStep s (ev, who) s') (q : Slot)
    (hq : (s'.proc q).state = .USED) (hkilled' : (s'.proc q).killed = true) :
    noteKill s (ev, who) g q = true := by
  have hstate := hs.state_change q
  cases hs.mark_change q with
  | same hpid hkilled hev =>
    have hused : (s.proc q).state = .USED := by grind
    exact noteKill_keep hev (h.embryo q hused (hkilled ▸ hkilled'))
  | found hev hunused hused hkilled =>
    rw [hkilled, (h.unused q hunused).2] at hkilled'
    cases hkilled'
  | freed hself =>
    rw [hself] at hq
    cases hq
  | hit hev =>
    rw [hev]
    exact noteKill_hit q
  | own hrun => grind

theorem marks_of_reachable {x : LifeState × (Slot → Bool)}
    (hreach : Reachable (killSystem.restrict NoKillZero) x) : Marks x.1 x.2 := by
  refine hreach.invariant (P := fun x => Marks x.1 x.2) ?_ ?_
  · intro x hinit
    obtain ⟨-, -, -, -, -, -, -, -, -, hstate, -, -, -, -, -, hother⟩ := hinit.1
    constructor
    · intro q hq
      by_cases hinitproc : q = x.1.initproc
      · rw [hinitproc, hstate] at hq
        cases hq
      · rw [hother q hinitproc]
        exact ⟨rfl, rfl⟩
    · intro q hq
      by_cases hinitproc : q = x.1.initproc
      · rw [hinitproc, hstate] at hq
        cases hq
      · rw [hother q hinitproc] at hq
        cases hq
  · intro x a y _ h hs
    obtain ⟨⟨hstep, hnote⟩, hzero⟩ := hs
    obtain ⟨ev, who⟩ := a
    refine ⟨h.unused_step hstep hzero, ?_⟩
    rw [hnote]
    exact h.embryo_step hstep

/-- **Only processes are killed.**  In every run in which nobody calls
`kkill(0)`: for a pid other than 0 `kkill` returns 0 exactly if a process has
that pid and changes the mark of such a process only, a step of a `kkill` that
hits a slot hits one in use, and a process that `allocproc` and `kfork` deliver
is unmarked unless a kill for its pid arrived after the pid was issued. -/
theorem kill_targets_live {x : LifeState × (Slot → Bool)}
    (hreach : Reachable (killSystem.restrict NoKillZero) x) :
    (∀ pid : Int, pid ≠ 0 →
      ((kkill pid x.1.proc).1 = 0 ↔
        ∃ p, (x.1.proc p).state ≠ .UNUSED ∧ (x.1.proc p).pid = pid) ∧
      ((kkill pid x.1.proc).1 = 0 ∨ (kkill pid x.1.proc).1 = -1) ∧
      ∀ p, (kkill pid x.1.proc).2 p ≠ x.1.proc p →
        (x.1.proc p).state ≠ .UNUSED ∧ (x.1.proc p).pid = pid) ∧
    (∀ who y i, (killSystem.restrict NoKillZero).step x (.killHit i, who) y →
      (x.1.proc i).state ≠ .UNUSED) ∧
    (∀ p, (x.1.proc p).state = .USED → (x.1.proc p).killed = true → x.2 p = true) ∧
    (∀ ev y p, (killSystem.restrict NoKillZero).step x ev y → (x.1.proc p).state = .USED →
      (y.1.proc p).state = .RUNNABLE → (y.1.proc p).killed = true → y.2 p = true) := by
  have h := marks_of_reachable hreach
  have hlive : ∀ p, (x.1.proc p).pid ≠ 0 → (x.1.proc p).state ≠ .UNUSED :=
    fun p hpid hstate => hpid (h.unused p hstate).1
  refine ⟨?_, ?_, h.embryo, ?_⟩
  · intro pid hpid
    rcases kkill_cases pid x.1.proc with ⟨hnone, hres⟩ | ⟨p, -, hp, hres⟩
    · rw [hres]
      exact ⟨⟨fun hzero => by simp at hzero, fun ⟨p, _, hp⟩ => absurd hp (hnone p)⟩, .inr rfl,
        fun p hp => absurd rfl hp⟩
    have hstate := hlive p (hp ▸ hpid)
    rw [hres]
    refine ⟨⟨fun _ => ⟨p, hstate, hp⟩, fun _ => rfl⟩, .inl rfl, fun q hq => ?_⟩
    by_cases hqp : q = p
    · subst hqp
      exact ⟨hstate, hp⟩
    · exact absurd (update_of_ne hqp _ _) hq
  · rintro who ⟨s', g'⟩ i ⟨⟨hstep, -⟩, hzero⟩ hunused
    cases hstep with
    | @killHit t pid _ hrun hpc hlock hpid =>
      exact hzero t pid i hpc (hpid ▸ (h.unused i hunused).1)
  · rintro ⟨ev, who⟩ y p ⟨⟨hstep, hnote⟩, -⟩ hused hrunnable hkilled
    rw [hnote]
    have hstate := hstep.state_change p
    cases hstep.mark_change p with
    | same hpid hsame hev => exact noteKill_keep hev (h.embryo p hused (hsame ▸ hkilled))
    | found hev hunused => rw [hused] at hunused; cases hunused
    | freed hself => rw [hself] at hrunnable; cases hrunnable
    | hit hev =>
      rw [hev]
      exact noteKill_hit p
    | own hrun => rw [hused] at hrun; cases hrun

section Runs

/-- An empty free list. -/
def noPages : Kmem where
  next := fun _ => 0
  freelist := 0

theorem killSystem_boot : killSystem.init (bootState noPages, fun _ => false) :=
  ⟨bootState_init noPages, fun _ => rfl⟩

/-- The first process has forked, without any kill: the new slot is unmarked. -/
theorem kill_targets_live_forking :
    ((forkingState noPages).proc 1).state = .USED ∧
    ((forkingState noPages).proc 1).killed ≠ true ∧
    (kkill 2 (forkingState noPages).proc).1 = 0 := by
  have hquiet : ∀ (s : LifeState) (g : Slot → Bool) (a : LifeEvent × Option Slot),
      (∀ t, s.pc t = .run ∨ ∃ i, s.pc t = .scan i) → NoKillZero (s, g) a := by
    intro s g a hpc t pid i hkill
    rcases hpc t with hrun | ⟨j, hscan⟩
    · rw [hkill] at hrun
      cases hrun
    · rw [hkill] at hscan
      cases hscan
  have hother : ∀ (s : LifeState) (k : Pc) (t : Slot),
      (∀ u, s.pc u = .run ∨ ∃ i, s.pc u = .scan i) → (k = .run ∨ ∃ i, k = .scan i) →
      ∀ u, (s.goto t k).pc u = .run ∨ ∃ i, (s.goto t k).pc u = .scan i := by
    intro s k t hpc hk u
    by_cases hu : u = t <;> simp [hu, hk, hpc]
  have hboot : ∀ u, ((bootState noPages).pc u) = .run ∨ ∃ i, (bootState noPages).pc u = .scan i :=
    fun _ => .inl rfl
  have hcalled := hother _ (.scan 0) 0 hboot (.inr ⟨0, rfl⟩)
  have hpassed := hother _ (.scan 1) 0 hcalled (.inr ⟨1, rfl⟩)
  have hreach := (((Reachable.start (M := killSystem.restrict NoKillZero) killSystem_boot
    |>.observe_next_restrict (.dispatch (p := 0) rfl rfl) (hquiet _ _ _ hboot))
    |>.observe_next_restrict (.move (t := 0) rfl rfl .callFork) (hquiet _ _ _ hboot))
    |>.observe_next_restrict (.move (t := 0) rfl rfl
      (.allocMiss (i := 0) rfl (by simp [bootState]))) (hquiet _ _ _ hcalled))
    |>.observe_next_restrict (.allocFound (t := 0) (i := 1) rfl rfl rfl rfl)
      (hquiet _ _ _ hpassed)
  obtain ⟨hkkill, -, hembryo, -⟩ := kill_targets_live hreach
  refine ⟨rfl, fun hkilled => ?_, ?_⟩
  · have harrived := hembryo 1 rfl hkilled
    revert harrived
    decide
  · exact (hkkill 2 (by decide)).1.2 ⟨1, by decide, rfl⟩

/-- **A process can be born killed.**  The first process calls `kkill(0)`, which
reports success although no process has pid 0 and marks slot 1.  Then it forks:
the process in slot 1 has the mark and no kill for its pid has arrived. -/
theorem born_killed :
    (kkill 0 (bootState noPages).proc).1 = 0 ∧
    (∀ p, ((bootState noPages).proc p).state ≠ .UNUSED → ((bootState noPages).proc p).pid ≠ 0) ∧
    ∃ x, Reachable killSystem x ∧ (x.1.proc 1).state = .USED ∧ (x.1.proc 1).pid = 2 ∧
      (x.1.proc 1).killed = true ∧ x.2 1 = false := by
  refine ⟨by decide, by decide, ?_⟩
  have hreach := (((((((Reachable.start (M := killSystem) killSystem_boot
    |>.observe_next (.dispatch (p := 0) rfl rfl))
    |>.observe_next (.move (t := 0) rfl rfl (@Move.callKill _ _ 0)))
    |>.observe_next (.move (t := 0) rfl rfl (.killMiss (i := 0) rfl (by decide))))
    |>.observe_next (.killHit (t := 0) (i := 1) rfl rfl rfl rfl))
    |>.observe_next (.move (t := 0) rfl rfl .callFork))
    |>.observe_next (.move (t := 0) rfl rfl (.allocMiss (i := 0) rfl (by decide))))
    |>.observe_next (.allocFound (t := 0) (i := 1) rfl rfl rfl rfl))
  exact ⟨_, hreach, rfl, rfl, rfl, rfl⟩

end Runs

end Targets

end Kus
