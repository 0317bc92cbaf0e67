import KusOs.LifecycleSteps

/-!
# A slot under construction belongs to its creator

`allocproc` and `kfork` drop the new slot's lock before they call `kalloc`, which
may sleep for any length of time.  What keeps the slot theirs is its state:
every other operation that walks the process table looks for `UNUSED`,
`SLEEPING`, `RUNNABLE` or `ZOMBIE` slots, or for slots with a parent, and a slot
under construction is `USED` with no parent but its creator.

* `Control` — the invariant that ties positions, states and locks together;
* `Pids` — the pids issued so far, and who carries them;
* `creator_owns_slot` — the result.
-/

namespace Kus

open Transition

variable {s s' : LifeState} {ev : LifeEvent} {who : Option Slot}

/-- A process that can be scheduled. -/
@[grind]
def ProcState.live : ProcState → Bool
  | .SLEEPING | .RUNNABLE | .RUNNING => true
  | _ => false

/-- Which thread may touch what: creators own slots in state `USED`, alone; the
locks are held by the threads whose position says so. -/
structure Control (s : LifeState) : Prop where
  used : ∀ t np, (s.pc t).creates = some np → (s.proc np).state = .USED
  unique : ∀ t u np, (s.pc t).creates = some np → (s.pc u).creates = some np → t = u
  owned : ∀ np, (s.proc np).state = .USED → ∃ t, (s.pc t).creates = some np
  idle : ∀ q, (s.proc q).state.live = false → s.pc q = .run
  waitLock : ∀ t, s.waitLock = some t ↔ (s.pc t).holdsWait = true
  waitRun : ∀ t, (s.pc t).holdsWait = true → (s.proc t).state = .RUNNING
  slotLock : ∀ t q, s.plock q = some t ↔ (s.pc t).holdsSlot = some q
  found : ∀ t i, s.pc t = .waitFound i → (s.proc i).state = .ZOMBIE ∧ (s.proc i).parent = some t
  unusedParent : ∀ q, (s.proc q).state = .UNUSED → (s.proc q).parent = none
  embryo : ∀ t np, (s.pc t).creates = some np →
    (s.proc np).parent = none ∨ (s.proc np).parent = some t

section Control

@[grind .] theorem creates_of_forkRunnable {k : Pc} {np : Slot} (h : k = .forkRunnable np) :
    k.creates = some np := by
  rw [h]
  rfl

@[grind .] theorem creates_of_fail {k : Pc} {np : Slot} {c : FreeCaller} (h : k = .fail np c) :
    k.creates = some np := by
  rw [h]
  rfl

@[grind =] theorem creates_run : Pc.run.creates = none := rfl

@[grind =] theorem creates_trapframe (np : Slot) :
    (Pc.kalloc (.trapframe np)).creates = some np := rfl

section

variable (h : Control s) (hs : LifeStep s (ev, who) s')
include h hs

theorem Control.used_step (t np : Slot) (hnp : (s'.pc t).creates = some np) :
    (s'.proc np).state = .USED := by
  have hcreates := hs.creates_change t
  have hstate := hs.state_change np
  obtain ⟨hused, hunique, -, -, -, -, -, hfound, -, -⟩ := h
  grind

theorem Control.unique_step (t u np : Slot) (ht : (s'.pc t).creates = some np)
    (hu : (s'.pc u).creates = some np) : t = u := by
  have htcreates := hs.creates_change t
  have hucreates := hs.creates_change u
  obtain ⟨hused, hunique, -, -, -, -, -, -, -, -⟩ := h
  grind

theorem Control.owned_step (np : Slot) (hnp : (s'.proc np).state = .USED) :
    ∃ t, (s'.pc t).creates = some np := by
  have hstate := hs.state_change np
  rw [hnp] at hstate
  generalize ha : (s.proc np).state = a at hstate
  cases hstate with
  | same =>
    obtain ⟨t, ht⟩ := h.owned np ha
    have hcreates := hs.creates_change t
    exact ⟨t, by grind⟩
  | found hev hwho hpc hpc' => exact ⟨_, by rw [hpc']; rfl⟩

theorem Control.idle_step (q : Slot) (hq : (s'.proc q).state.live = false) : s'.pc q = .run := by
  have hstate := hs.state_change q
  have hother := fun hne => hs.pc_other (u := q) hne
  have hactor := fun t => hs.actor_running (t := t)
  obtain ⟨hused, -, -, hidle, -, -, -, hfound, -, -⟩ := h
  grind

theorem Control.waitLock_step (t : Slot) : s'.waitLock = some t ↔ (s'.pc t).holdsWait = true := by
  have hlock := hs.waitLock_change
  have hother := fun u hne => hs.pc_other (u := u) hne
  have hwait := h.waitLock
  grind

theorem Control.waitRun_step (t : Slot) (ht : (s'.pc t).holdsWait = true) :
    (s'.proc t).state = .RUNNING := by
  have hlock := hs.waitLock_change
  have hstate := hs.state_change t
  have hother := fun u hne => hs.pc_other (u := u) hne
  have hactor := fun t => hs.actor_running (t := t)
  obtain ⟨hused, -, -, -, -, hrun, -, hfound, -, -⟩ := h
  grind [Pc.holdsWait]

theorem Control.slotLock_step (t q : Slot) :
    s'.plock q = some t ↔ (s'.pc t).holdsSlot = some q := by
  have hother := fun u hne => hs.pc_other (u := u) hne
  have hslot := h.slotLock
  cases hs.slotLock_change with
  | same hlock hpc =>
    rw [hlock, hpc]
    exact hslot t q
  | @acquired u p hwho hfree hlock hpc hpc' =>
    by_cases ht : t = u
    · have hnone : s.plock q ≠ some u := by simp [hslot, hpc]
      grind
    have hpc : s'.pc t = s.pc t := hother t (by grind)
    have hne : s.plock p ≠ some t := by simp [hfree]
    grind
  | @released u p hwho hlock hpc hpc' =>
    have hp : s.plock p = some u := (hslot u p).mpr hpc
    by_cases ht : t = u
    · have hq : s.plock q = some u → q = p := by
        intro hq
        have := (hslot u q).mp hq
        grind
      grind
    have hpc : s'.pc t = s.pc t := hother t (by grind)
    have hq : s.plock p ≠ some t := by grind
    grind

theorem Control.found_step (t i : Slot) (ht : s'.pc t = .waitFound i) :
    (s'.proc i).state = .ZOMBIE ∧ (s'.proc i).parent = some t := by
  have hmove := hs.wait_move (t := t) (by rw [ht]; rfl)
  have hstate := hs.state_change i
  have hparent := hs.parent_change i
  obtain ⟨hused, hunique, -, hidle, hwait, hrun, hslot, hfound, -, -⟩ := h
  grind [Pc.holdsWait]

end

@[grind .] theorem creates_of_forkParent {k : Pc} {np : Slot} (h : k = .forkParent np) :
    k.creates = some np := by
  rw [h]
  rfl

theorem creates_of_exitScan {k : Pc} {st : Int} {i : Nat} (h : k = .exitScan st i) :
    k.creates = none := by
  rw [h]
  rfl

section

variable (h : Control s) (hs : LifeStep s (ev, who) s')
include h hs

theorem Control.unusedParent_step (q : Slot) (hq : (s'.proc q).state = .UNUSED) :
    (s'.proc q).parent = none := by
  have hstate := hs.state_change q
  have hparent := hs.parent_change q
  obtain ⟨hused, -, -, -, -, -, -, -, hunused, -⟩ := h
  grind [Proc.unused]

theorem Control.embryo_step (t np : Slot) (hnp : (s'.pc t).creates = some np) :
    (s'.proc np).parent = none ∨ (s'.proc np).parent = some t := by
  have hcreates := hs.creates_change t
  have hparent := hs.parent_change np
  obtain ⟨hused, hunique, -, -, -, -, -, -, hunused, hembryo⟩ := h
  grind [creates_of_exitScan]

theorem Control.step : Control s' where
  used := h.used_step hs
  unique := h.unique_step hs
  owned := h.owned_step hs
  idle := h.idle_step hs
  waitLock := h.waitLock_step hs
  waitRun := h.waitRun_step hs
  slotLock := h.slotLock_step hs
  found := h.found_step hs
  unusedParent := h.unusedParent_step hs
  embryo := h.embryo_step hs

end

theorem control_of_reachable (hreach : Reachable lifeSystem s) : Control s := by
  refine hreach.invariant (P := Control) ?_ ?_
  · intro s hinit
    obtain ⟨-, hwait, hplock, hpc, -, -, -, -, -, hstate, -, hparent, -, -, -, hother⟩ := hinit
    have hcreates : ∀ t, (s.pc t).creates = none := fun t => by rw [hpc]; rfl
    have hholds : ∀ t, (s.pc t).holdsWait = false := fun t => by rw [hpc]; rfl
    have hslot : ∀ t, (s.pc t).holdsSlot = none := fun t => by rw [hpc]; rfl
    constructor <;> grind [Proc.unused]
  · intro s ev s' _ h hs
    exact h.step hs

end Control

section Pids

/-- The pids issued so far are distinct until the counter wraps, and so are
those carried by slots in use. -/
structure Pids (s : LifeState) : Prop where
  next : s.issued.length < 2 ^ 31 - 1 → s.nextpid = s.issued.length + 1
  nodup : s.issued.length < 2 ^ 31 → s.issued.Nodup
  bound : s.issued.length < 2 ^ 31 → ∀ x ∈ s.issued, x ≤ s.issued.length
  carried : ∀ q, (s.proc q).state ≠ .UNUSED → (s.proc q).pid ∈ s.issued
  distinct : s.issued.length < 2 ^ 31 → ∀ p q, (s.proc p).state ≠ .UNUSED →
    (s.proc q).state ≠ .UNUSED → (s.proc p).pid = (s.proc q).pid → p = q

/-- A slot comes into use only in `allocproc`. -/
theorem Control.inUse_of_step (hc : Control s) (hs : LifeStep s (ev, who) s') {q : Slot}
    (hq : (s'.proc q).state ≠ .UNUSED) :
    (s.proc q).state ≠ .UNUSED ∨ ∃ pid, ev = .allocFound q pid := by
  have hstate := hs.state_change q
  have hused := hc.used
  grind

private theorem Pids.of_same (h : Pids s) (hnext : s'.nextpid = s.nextpid)
    (hissued : s'.issued = s.issued) (hsame : ∀ q, (s'.proc q).state ≠ .UNUSED →
      (s.proc q).state ≠ .UNUSED ∧ (s'.proc q).pid = (s.proc q).pid) : Pids s' where
  next := by
    rw [hissued, hnext]
    exact h.next
  nodup := by
    rw [hissued]
    exact h.nodup
  bound := by
    rw [hissued]
    exact h.bound
  carried := by
    intro q hq
    obtain ⟨hq', hpid⟩ := hsame q hq
    rw [hissued, hpid]
    exact h.carried q hq'
  distinct := by
    intro hlt p q hp hq hpq
    obtain ⟨hp', hppid⟩ := hsame p hp
    obtain ⟨hq', hqpid⟩ := hsame q hq
    rw [hissued] at hlt
    rw [hppid, hqpid] at hpq
    exact h.distinct hlt p q hp' hq' hpq

theorem Pids.step (h : Pids s) (hc : Control s) (hs : LifeStep s (ev, who) s') : Pids s' := by
  have hinUse := fun q => hc.inUse_of_step hs (q := q)
  have hof := @Pids.of_same s s' h
  obtain ⟨hnext, hnodup, hbound, hcarried, hdistinct⟩ := h
  cases hs.history_change with
  | same hfound _ _ hnext' hissued => exact hof hnext' hissued (by grind)
  | @found t np hwho hstate hnext' hissued _ _ _ _ hnp hproc =>
    have hfresh : s'.issued.length < 2 ^ 31 → s.nextpid = s.issued.length + 1 := by
      rw [hissued, List.length_cons]
      intro hlt
      exact hnext (by omega)
    -- the new pid is larger than every pid issued before
    have hnew : s'.issued.length < 2 ^ 31 → s.nextpid ∉ s.issued := by
      intro hlt hmem
      have hle := hbound (by simp [hissued] at hlt; omega) _ hmem
      have heq := hfresh hlt
      omega
    constructor
    · rw [hissued, List.length_cons, hnext']
      intro hlt
      rw [hnext (by omega)]
      rw [Int.bmod_eq_of_le_mul_two] <;> omega
    · intro hlt
      have hnew := hnew hlt
      rw [hissued, List.length_cons] at hlt
      rw [hissued]
      exact List.nodup_cons.mpr ⟨hnew, hnodup (by omega)⟩
    · intro hlt x hx
      have heq := hfresh hlt
      rw [hissued, List.length_cons] at hlt ⊢
      rw [hissued] at hx
      rcases List.mem_cons.mp hx with rfl | hx
      · omega
      · have := hbound (by omega) x hx
        omega
    · grind
    · intro hlt p q hp hq hpq
      have hnew := hnew hlt
      rw [hissued, List.length_cons] at hlt
      have hold := hdistinct (by omega) p q
      grind
  | exited hwho hnext' hissued => exact hof hnext' hissued (by grind)
  | reaped hwho hpc hnext' hissued => exact hof hnext' hissued (by grind [Proc.unused])

theorem pids_of_reachable (hreach : Reachable lifeSystem s) : Pids s := by
  refine hreach.invariant (P := Pids) ?_ ?_
  · intro s hinit
    obtain ⟨hnext, -, -, -, hissued, -, -, -, -, -, hpid, -, -, -, -, hother⟩ := hinit
    constructor <;> grind [Proc.unused]
  · intro s ev s' hreach h hs
    exact h.step (control_of_reachable hreach) hs

end Pids

section Ownership

/-- The fields of a slot that its creator relies on are the same. -/
def Proc.SameSlot (x y : Proc) : Prop :=
  x.state = y.state ∧ x.pid = y.pid ∧ x.trapframe = y.trapframe ∧ x.pagetable = y.pagetable ∧
    x.sz = y.sz ∧ x.parent = y.parent

/-- A step leaves the private fields of a `USED` slot alone unless its thread is
the slot's creator. -/
theorem LifeStep.private_same (hs : LifeStep s (ev, who) s') {np : Slot}
    (hused : (s.proc np).state = .USED) (hfound : ∀ t, s.pc t ≠ .waitFound np)
    (hcreates : ∀ t, who = some t → (s.pc t).creates ≠ some np) :
    (s'.proc np).pid = (s.proc np).pid ∧ (s'.proc np).trapframe = (s.proc np).trapframe ∧
    (s'.proc np).pagetable = (s.proc np).pagetable ∧ (s'.proc np).sz = (s.proc np).sz := by
  have hrunning : ∀ t, (s.proc t).state = .RUNNING → np ≠ t := by
    intro t ht hnp
    rw [← hnp, hused] at ht
    cases ht
  have hother : ∀ t q, who = some t → (s.pc t).creates = some q → np ≠ q := by
    intro t q hwho hq hnp
    exact hcreates t hwho (hnp ▸ hq)
  have hsite : ∀ t site, who = some t → (s.proc t).state = .RUNNING →
      (s.pc t).creates = site.creates → np ≠ Option.getD (Site.creates site) t := by
    intro t site hwho hrun hpc
    cases hsite : site.creates with
    | none => exact hrunning t hrun
    | some q => exact hother t q hwho (hpc.trans hsite)
  cases hs with
  | @allocFound t i hrun hpc hlock hstate =>
    have hi : np ≠ i := by
      intro hnp
      rw [← hnp, hused] at hstate
      cases hstate
    simp [hi]
  | @kallocTake t site r hrun hpc =>
    have hnp := hsite t site rfl hrun (by rw [hpc]; rfl)
    simp [hnp]
  | @kallocKilled t site hrun hpc | @kallocWoken t site r hrun hpc =>
    have hnp := hsite t site rfl hrun (by rw [hpc]; rfl)
    simp [hnp, hrunning t hrun]
  | @tableDone t q _ _ _ hrun hpc | @allocFree t q hrun hpc | @copyUndo t q _ hrun hpc
  | @forkFree t q hrun hpc | @forkSz t q hrun hpc | @forkParent t q hrun hpc
  | @forkRunnable t q hrun hpc =>
    have hnp := hother t q rfl (by rw [hpc]; rfl)
    simp [hnp, apply_ite Proc.pid, apply_ite Proc.trapframe, apply_ite Proc.pagetable,
      apply_ite Proc.sz]
  | @waitReap t i hrun hpc =>
    have hnp : np ≠ i := fun h => hfound t (h ▸ hpc)
    simp [hnp, apply_ite Proc.pid, apply_ite Proc.trapframe, apply_ite Proc.pagetable,
      apply_ite Proc.sz]
  | @ownKfree t _ hrun | @ownSz t _ hrun | @ownExec t _ _ hrun | @ownKilled t hrun
  | @ownSleep t _ hrun | @ownWoken t hrun | @kallocStall t _ hrun | @kallocRetry t _ hrun
  | @exitZombie t _ hrun | @waitSleep t hrun | @waitWoken t hrun | @preempt t hrun =>
    simp [hrunning t hrun]
  | _ =>
    simp [apply_ite Proc.pid, apply_ite Proc.trapframe, apply_ite Proc.pagetable,
      apply_ite Proc.sz]

/-- **A slot under construction belongs to its creator.**  In every reachable
state: no two threads create the same slot; a slot is `USED` exactly while some
thread creates it; the pids issued are pairwise distinct until the counter
wraps; no step but the creator's changes the slot's state, pid, trapframe, page
table, size or parent; and when `allocproc` has returned, its caller holds the
slot's lock if it succeeded and no slot's lock if it did not. -/
theorem creator_owns_slot (hreach : Reachable lifeSystem s) :
    (∀ t u np, (s.pc t).creates = some np → (s.pc u).creates = some np → t = u) ∧
    (∀ np, (s.proc np).state = .USED ↔ ∃ t, (s.pc t).creates = some np) ∧
    (s.issued.length < 2 ^ 31 → s.issued.Nodup ∧
      ∀ t u np nq, (s.pc t).creates = some np → (s.pc u).creates = some nq →
        (s.proc np).pid = (s.proc nq).pid → t = u ∧ np = nq) ∧
    (∀ t np ev who s', (s.pc t).creates = some np → LifeStep s (ev, who) s' → who ≠ some t →
      (s'.proc np).SameSlot (s.proc np)) ∧
    (∀ t r, s.pc t = .allocReturn r → ∀ q, s.plock q = some t ↔ r = some q) := by
  have hc := control_of_reachable hreach
  have hp := pids_of_reachable hreach
  refine ⟨hc.unique, fun np => ⟨hc.owned np, fun ⟨t, ht⟩ => hc.used t np ht⟩, ?_, ?_, ?_⟩
  · intro hlt
    refine ⟨hp.nodup hlt, ?_⟩
    intro t u np nq ht hu hpid
    have hne : ∀ t np, (s.pc t).creates = some np → (s.proc np).state ≠ .UNUSED := by
      intro t np hnp
      rw [hc.used t np hnp]
      decide
    have hslot : np = nq := hp.distinct hlt np nq (hne t np ht) (hne u nq hu) hpid
    subst hslot
    exact ⟨hc.unique t u np ht hu, rfl⟩
  · intro t np ev who s' ht hs hwho
    have hused := hc.used t np ht
    have hfound : ∀ u, s.pc u ≠ .waitFound np := by
      intro u hu
      have hzombie := (hc.found u np hu).1
      rw [hused] at hzombie
      cases hzombie
    have hcreates : ∀ u, who = some u → (s.pc u).creates ≠ some np := by
      intro u hu hunp
      exact hwho (hc.unique t u np ht hunp ▸ hu)
    obtain ⟨hpid, htrapframe, hpagetable, hsz⟩ := hs.private_same hused hfound hcreates
    refine ⟨?_, hpid, htrapframe, hpagetable, hsz, ?_⟩
    · have hstate := hs.state_change np
      grind
    · have hparent := hs.parent_change np
      have hembryo := hc.embryo t np ht
      have hunused := hs.state_change np
      grind
  · intro t r hr q
    rw [hc.slotLock, hr]
    rfl

/-- The first process has called `fork`, and `allocproc` has claimed slot 1. -/
def forkingState (m : Kmem) : LifeState :=
  let running := (bootState m).setProc 0 fun q => { q with state := .RUNNING }
  let scanned := (running.goto 0 (.scan 0)).goto 0 (.scan 1)
  { (scanned.setProc 1 fun q => { q with pid := 2, state := .USED }).goto 0
      (.kalloc (.trapframe 1)) with
    nextpid := Int.bmod 3 (2 ^ 32)
    issued := [2, 1]
    births := 2
    inc := Function.update (fun _ => 0) 1 1 }

theorem forkingState_reachable (m : Kmem) : Reachable lifeSystem (forkingState m) := by
  refine .next (.next (.next (.next
    (.start (bootState_init m))
    (.dispatch (p := 0) rfl rfl))
    (.move (t := 0) rfl rfl .callFork))
    (.move (t := 0) rfl rfl (.allocMiss (i := 0) rfl ?_)))
    (.allocFound (t := 0) (i := 1) rfl rfl rfl rfl)
  simp [bootState]

/-- Slot 1 is safe from every thread but that of slot 0. -/
theorem creator_owns_slot_forking :
    let s := forkingState { next := fun _ => 0, freelist := 0 }
    (s.proc 1).state = .USED ∧
    ∀ ev who s', LifeStep s (ev, who) s' → who ≠ some 0 → (s'.proc 1).SameSlot (s.proc 1) := by
  intro s
  obtain ⟨-, -, -, hframe, -⟩ := creator_owns_slot (forkingState_reachable _)
  exact ⟨rfl, fun ev who s' hs hwho => hframe 0 1 ev who s' rfl hs hwho⟩

end Ownership

end Kus
