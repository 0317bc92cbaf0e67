import KusOs.WaitProtocol

/-!
# Stall accounting

`kalloc` notes the tick count when a stall begins and adds the difference to
`p->mem_stall_ticks` when it gets a page.  The tick count is a `uint`, the two
fields are `uint64`, and the fields live in a slot that `freeproc` and
`allocproc` leave as they are.

The life of processes is observed with these fields and, beside them, what they
are meant to say: the number of ticks since boot, when the present stall began
in that count, and the ticks the present process of a slot has spent in stalls
that have ended.  The clock interrupt is the step `updatePsi`.

* `StallChange`: what a step can do to the stalls;
* `stall_ticks_counted`: the field is right in every run in which no slot is
  given out with an old count, the tick counter does not wrap during a stall, and
  no stall of positive length ends by a kill;
* `stall_ticks_wrap`: when the counter wraps during a stall the field is wrong.
-/

namespace Kus

open Function Transition

/-- The fields of the source, then the history they are compared with. -/
structure StallClock where
  ticks : UInt32
  mem_stall_ticks : Slot → UInt64
  last_stall_start : Slot → UInt64
  /-- ticks since boot -/
  clock : Nat
  /-- when the slot's last stall began -/
  began : Slot → Nat
  /-- ticks the slot's process has spent in stalls that have ended -/
  total : Slot → Nat

/-- `last_stall_start = ticks`. -/
def StallClock.begin (c : StallClock) (t : Slot) : StallClock :=
  { c with
    last_stall_start := update c.last_stall_start t c.ticks.toUInt64
    began := update c.began t c.clock }

/-- A stall ends. -/
def StallClock.close (c : StallClock) (t : Slot) : StallClock :=
  { c with total := update c.total t (c.total t + (c.clock - c.began t)) }

/-- `mem_stall_ticks += (ticks - last_stall_start)`, with `ticks` converted to
`uint64` for the subtraction. -/
def StallClock.charge (c : StallClock) (t : Slot) : StallClock :=
  { c with
    mem_stall_ticks := update c.mem_stall_ticks t
      (c.mem_stall_ticks t + (c.ticks.toUInt64 - c.last_stall_start t)) }

/-- What each step does to the fields.  Only a successful `kalloc` charges the
stall; `allocproc` starts a new process without touching the fields. -/
def noteStall (_ : LifeState) : LifeEvent × Option Slot → StallClock → StallClock
  | (.updatePsi, _), c => { c with ticks := c.ticks + 1, clock := c.clock + 1 }
  | (.kallocStall, some t), c => c.begin t
  | (.kallocWoken, some t), c => (c.charge t).close t
  | (.kallocKilled, some t), c => c.close t
  | (.allocFound i _, _), c => { c with total := update c.total i 0 }
  | _, c => c

/-- The fields at boot. -/
def StallClock.boot : StallClock where
  ticks := 0
  mem_stall_ticks := fun _ => 0
  last_stall_start := fun _ => 0
  clock := 0
  began := fun _ => 0
  total := fun _ => 0

/-- The life of processes with its stalls. -/
def stallClockSystem : System (LifeState × StallClock) (LifeEvent × Option Slot) :=
  lifeSystem.observe (fun _ c => c = .boot) noteStall

/-- A slot is given out with its count at 0, the tick counter does not wrap
during a stall, and a stall that a kill ends has taken no tick. -/
def CountsStalls (x : LifeState × StallClock) : LifeEvent × Option Slot → Prop
  | (.allocFound i _, _) => x.2.mem_stall_ticks i = 0
  | (.updatePsi, _) => x.2.ticks.toNat + 1 = 2 ^ 32 → ∀ p site, x.1.pc p ≠ .stalled site
  | (.kallocKilled, some t) => x.2.ticks.toUInt64 = x.2.last_stall_start t
  | _ => True

section Steps

variable {s s' : LifeState} {ev : LifeEvent} {who : Option Slot}

/-- What a step can do to the stalls. -/
inductive StallChange (s s' : LifeState) : LifeEvent → Option Slot → Prop
  | none {e w} (hnote : ∀ c, noteStall s (e, w) c = c)
      (hpc : ∀ p site, s'.pc p = .stalled site → s.pc p = .stalled site)
      (hstate : ∀ p, (s'.proc p).state ≠ .UNUSED → (s.proc p).state ≠ .UNUSED) :
      StallChange s s' e w
  | tick {w} (hsame : s' = s) : StallChange s s' .updatePsi w
  | stall {t} (hlive : (s.proc t).state ≠ .UNUSED) (hpc : ∀ p, p ≠ t → s'.pc p = s.pc p)
      (hstate : ∀ p, (s'.proc p).state ≠ .UNUSED → (s.proc p).state ≠ .UNUSED) :
      StallChange s s' .kallocStall (some t)
  | woken {t site} (hlive : (s.proc t).state ≠ .UNUSED) (hpc : s.pc t = .stalled site)
      (hpc' : ∀ p site, s'.pc p = .stalled site → p ≠ t ∧ s.pc p = .stalled site)
      (hstate : ∀ p, (s'.proc p).state ≠ .UNUSED → (s.proc p).state ≠ .UNUSED) :
      StallChange s s' .kallocWoken (some t)
  | killed {t site} (hlive : (s.proc t).state ≠ .UNUSED) (hpc : s.pc t = .stalled site)
      (hpc' : ∀ p site, s'.pc p = .stalled site → p ≠ t ∧ s.pc p = .stalled site)
      (hstate : ∀ p, (s'.proc p).state ≠ .UNUSED → (s.proc p).state ≠ .UNUSED) :
      StallChange s s' .kallocKilled (some t)
  | found {i pid t} (hunused : (s.proc i).state = .UNUSED)
      (hpc : ∀ p site, s'.pc p = .stalled site → s.pc p = .stalled site)
      (hstate : ∀ p, p ≠ i → (s'.proc p).state ≠ .UNUSED → (s.proc p).state ≠ .UNUSED) :
      StallChange s s' (.allocFound i pid) (some t)

theorem Site.next_not_stalled (r : Nat) (site site' : Site) : site.next r ≠ .stalled site' := by
  cases site <;> simp [Site.next]

theorem Site.failed_not_stalled (site site' : Site) : site.failed ≠ .stalled site' := by
  cases site <;> simp [Site.failed]

/-- A thread at `k` is in no stall that it was not in before. -/
theorem goto_stalled {t p : Slot} {k : Pc} {site : Site} (hk : ∀ site, k ≠ .stalled site)
    (h : (s.goto t k).pc p = .stalled site) : p ≠ t ∧ s.pc p = .stalled site := by
  by_cases hp : p = t
  · subst hp
    exact absurd (by simpa using h) (hk site)
  · exact ⟨hp, by simpa [hp] using h⟩

theorem LifeStep.stall_change (hs : LifeStep s (ev, who) s') (hc : Control s) :
    StallChange s s' ev who := by
  have hlive : (∀ i pid, ev ≠ .allocFound i pid) →
      ∀ p, (s'.proc p).state ≠ .UNUSED → (s.proc p).state ≠ .UNUSED := by
    intro hev p hp
    rcases hc.inUse_of_step hs hp with h | ⟨pid, h⟩
    · exact h
    · exact absurd h (hev p pid)
  cases hs with
  | updatePsi => exact .tick rfl
  | @kallocStall t site hrun hpc hout hlock =>
    exact .stall (by simp [hrun]) (fun p hp => by simp [hp]) (hlive (by simp))
  | @kallocWoken t site r hrun hpc hout =>
    exact .woken (by simp [hrun]) hpc
      (fun p site' h => goto_stalled (site.next_not_stalled r) h) (hlive (by simp))
  | @kallocKilled t site hrun hpc hout =>
    exact .killed (by simp [hrun]) hpc
      (fun p site' h => goto_stalled site.failed_not_stalled h) (hlive (by simp))
  | @allocFound t i hrun hpc hlock hstate =>
    exact .found hstate (fun p site h => (goto_stalled (by simp) h).2) (fun p hp h => by
      simpa [hp] using h)
  | @move t k k' hrun hpc hmove =>
    exact .none (fun _ => rfl) (fun p site h => (goto_stalled (by cases hmove <;> simp) h).2)
      (hlive (by simp))
  | @kallocTake t site r hrun hpc hout =>
    exact .none (fun _ => rfl)
      (fun p site' h => (goto_stalled (site.next_not_stalled r) h).2) (hlive (by simp))
  | ownKfree | ownSz | ownExec | ownKilled | kallocRetry | copyUndo | dispatch | preempt
  | wakeOther =>
    exact .none (fun _ => rfl) (fun p site h => h) (hlive (by simp))
  | allocFree | forkFree | waitReap =>
    exact .none (fun _ => rfl) (fun p site h => by simpa using (goto_stalled (by simp) h).2)
      (hlive (by simp))
  | _ =>
    exact .none (fun _ => rfl) (fun p site h => (goto_stalled (by simp) h).2) (hlive (by simp))

end Steps

section Counted

variable {s s' : LifeState} {c : StallClock} {ev : LifeEvent} {who : Option Slot}

/-- A counter that has not wrapped since `start` gives the time elapsed. -/
theorem elapsed_eq {ticks : UInt32} {start : UInt64} {d : Nat}
    (h : start.toNat + d = ticks.toNat) : ticks.toUInt64 - start = UInt64.ofNat d := by
  have hlt := ticks.toNat_lt
  have hd : (UInt64.ofNat d).toNat = d := UInt64.toNat_ofNat_of_lt' (by
    change d < 2 ^ 64
    omega)
  have hsum : ticks.toUInt64 = UInt64.ofNat d + start := by
    apply UInt64.toNat_inj.1
    rw [UInt64.toNat_add, hd, UInt32.toNat_toUInt64, Nat.mod_eq_of_lt (by omega)]
    omega
  rw [hsum, UInt64.add_sub_cancel]

/-- What the fields say: the count of every process, the open stalls, and that
nobody has waited longer than the system has run. -/
structure Accounts (s : LifeState) (c : StallClock) : Prop where
  counted : ∀ p, (s.proc p).state ≠ .UNUSED → c.mem_stall_ticks p = UInt64.ofNat (c.total p)
  waiting : ∀ p site, s.pc p = .stalled site → c.began p ≤ c.clock ∧ c.total p ≤ c.began p ∧
    (c.last_stall_start p).toNat + (c.clock - c.began p) = c.ticks.toNat
  bounded : ∀ p, c.total p ≤ c.clock

section

variable (h : Accounts s c)
include h

/-- A tick that does not wrap the counter during a stall. -/
theorem Accounts.tick (hwrap : c.ticks.toNat + 1 = 2 ^ 32 → ∀ p site, s.pc p ≠ .stalled site) :
    Accounts s { c with ticks := c.ticks + 1, clock := c.clock + 1 } where
  counted := h.counted
  waiting := by
    intro p site hpc
    obtain ⟨hbegan, htotal, hticks⟩ := h.waiting p site hpc
    have hlt := c.ticks.toNat_lt
    have hne : c.ticks.toNat + 1 ≠ 2 ^ 32 := fun heq => hwrap heq p site hpc
    have hnext : (c.ticks + 1).toNat = c.ticks.toNat + 1 := by
      rw [UInt32.toNat_add]
      exact Nat.mod_eq_of_lt (by simp; omega)
    refine ⟨by simp; omega, htotal, ?_⟩
    change (c.last_stall_start p).toNat + (c.clock + 1 - c.began p) = (c.ticks + 1).toNat
    rw [hnext]
    omega
  bounded p := Nat.le_succ_of_le (h.bounded p)

/-- A stall begins. -/
theorem Accounts.begin {t : Slot} (hpc : ∀ p, p ≠ t → s'.pc p = s.pc p)
    (hstate : ∀ p, (s'.proc p).state ≠ .UNUSED → (s.proc p).state ≠ .UNUSED) :
    Accounts s' (c.begin t) where
  counted p hp := h.counted p (hstate p hp)
  waiting := by
    intro p site hstalled
    by_cases hp : p = t
    · subst hp
      have hbound := h.bounded p
      simp only [StallClock.begin, update_self, Nat.sub_self, Nat.add_zero]
      exact ⟨Nat.le_refl _, hbound, UInt32.toNat_toUInt64 _⟩
    · simp only [StallClock.begin, update_of_ne hp]
      exact h.waiting p site (hpc p hp ▸ hstalled)
  bounded := h.bounded

/-- A stall ends, and the field was charged if it took any tick. -/
theorem Accounts.close {t : Slot} {site : Site} {m : UInt64} (hlive : (s.proc t).state ≠ .UNUSED)
    (hpc : s.pc t = .stalled site)
    (hpc' : ∀ p site, s'.pc p = .stalled site → p ≠ t ∧ s.pc p = .stalled site)
    (hstate : ∀ p, (s'.proc p).state ≠ .UNUSED → (s.proc p).state ≠ .UNUSED)
    (hm : m = c.mem_stall_ticks t + UInt64.ofNat (c.clock - c.began t)) : Accounts s' ({ c with
      mem_stall_ticks := update c.mem_stall_ticks t m }.close t) where
  counted := by
    intro p hp
    by_cases hpt : p = t
    · subst hpt
      simp only [StallClock.close, update_self]
      rw [hm, h.counted p hlive, UInt64.ofNat_add]
    · simp only [StallClock.close, update_of_ne hpt]
      exact h.counted p (hstate p hp)
  waiting := by
    intro p site' hstalled
    obtain ⟨hpt, hold⟩ := hpc' p site' hstalled
    simp only [StallClock.close, update_of_ne hpt]
    exact h.waiting p site' hold
  bounded := by
    intro p
    by_cases hpt : p = t
    · subst hpt
      obtain ⟨hbegan, htotal, -⟩ := h.waiting p site hpc
      simp only [StallClock.close, update_self]
      omega
    · simp only [StallClock.close, update_of_ne hpt]
      exact h.bounded p

/-- A slot is given out with its count at 0. -/
theorem Accounts.found {i : Slot} (hc : Control s) (hunused : (s.proc i).state = .UNUSED)
    (hpc : ∀ p site, s'.pc p = .stalled site → s.pc p = .stalled site)
    (hstate : ∀ p, p ≠ i → (s'.proc p).state ≠ .UNUSED → (s.proc p).state ≠ .UNUSED)
    (hzero : c.mem_stall_ticks i = 0) : Accounts s' { c with total := update c.total i 0 } where
  counted := by
    intro p hp
    by_cases hpi : p = i
    · subst hpi
      simp only [update_self]
      rw [hzero]
      rfl
    · simp only [update_of_ne hpi]
      exact h.counted p (hstate p hpi hp)
  waiting := by
    intro p site hstalled
    have hold := hpc p site hstalled
    have hpi : p ≠ i := by
      rintro rfl
      have hidle := hc.idle p (by rw [hunused]; rfl)
      rw [hidle] at hold
      cases hold
    simp only [update_of_ne hpi]
    exact h.waiting p site hold
  bounded := by
    intro p
    by_cases hpi : p = i
    · subst hpi
      simp
    · simp only [update_of_ne hpi]
      exact h.bounded p

theorem Accounts.step (hc : Control s) (hs : LifeStep s (ev, who) s')
    (hcond : CountsStalls (s, c) (ev, who)) : Accounts s' (noteStall s (ev, who) c) := by
  cases hs.stall_change hc with
  | none hnote hpc hstate =>
    rw [hnote]
    exact ⟨fun p hp => h.counted p (hstate p hp), fun p site hp => h.waiting p site (hpc p site hp),
      h.bounded⟩
  | tick hsame =>
    rw [hsame]
    exact h.tick hcond
  | stall hlive hpc hstate => exact h.begin hpc hstate
  | @woken t site hlive hpc hpc' hstate =>
    have helapsed := elapsed_eq (h.waiting t site hpc).2.2
    exact h.close hlive hpc hpc' hstate (by rw [helapsed])
  | @killed t site hlive hpc hpc' hstate =>
    -- the stall took no tick, so there is nothing to charge
    have hticks := (h.waiting t site hpc).2.2
    have hstart : (c.last_stall_start t).toNat = c.ticks.toNat := by
      have hcond : c.ticks.toUInt64 = c.last_stall_start t := hcond
      rw [← hcond, UInt32.toNat_toUInt64]
    have hzero : c.clock - c.began t = 0 := by omega
    have hclose := h.close hlive hpc hpc' hstate (m := c.mem_stall_ticks t) (by rw [hzero]; simp)
    rwa [update_eq_self] at hclose
  | found hunused hpc hstate => exact h.found hc hunused hpc hstate hcond

end

theorem accounts_of_reachable {x : LifeState × StallClock}
    (hreach : Reachable (stallClockSystem.restrict CountsStalls) x) : Accounts x.1 x.2 := by
  refine hreach.invariant (P := fun x => Accounts x.1 x.2) ?_ ?_
  · rintro ⟨s, c⟩ ⟨hinit, hboot⟩
    obtain ⟨-, -, -, hpc, -⟩ := hinit
    have hboot : c = .boot := hboot
    subst hboot
    refine ⟨fun p _ => rfl, fun p site hp => ?_, fun p => Nat.le_refl 0⟩
    rw [hpc p] at hp
    cases hp
  · rintro ⟨s, c⟩ ⟨ev, who⟩ ⟨s', c'⟩ hreach h ⟨⟨hstep, hnote⟩, hcond⟩
    have hnote : c' = noteStall s (ev, who) c := hnote
    subst hnote
    exact h.step (control_of_reachable hreach.of_restrict.observed) hstep hcond

/-- **Stalls are counted.**  In every run in which a slot is given out with its
count at 0, the tick counter does not wrap during a stall and a stall that a kill
ends has taken no tick: the count of every process is the number of ticks it has
spent in stalls that have ended, as a 64-bit number, hence as a number for the
first 2^64 ticks. -/
theorem stall_ticks_counted {x : LifeState × StallClock}
    (hreach : Reachable (stallClockSystem.restrict CountsStalls) x) {p : Slot}
    (hlive : (x.1.proc p).state ≠ .UNUSED) :
    (x.2.mem_stall_ticks p).toNat = x.2.total p % 2 ^ 64 ∧
    (x.2.clock < 2 ^ 64 → (x.2.mem_stall_ticks p).toNat = x.2.total p) := by
  have h := accounts_of_reachable hreach
  have hcount : (x.2.mem_stall_ticks p).toNat = x.2.total p % 2 ^ 64 := by
    rw [h.counted p hlive, UInt64.toNat_ofNat']
  refine ⟨hcount, fun hclock => ?_⟩
  have hbound := h.bounded p
  rw [hcount, Nat.mod_eq_of_lt (by omega)]

end Counted

section Runs

/-- The fields when the first process has forked. -/
def forkedClock : StallClock := { StallClock.boot with total := update (fun _ => 0) 1 0 }

theorem forkedClock_reachable :
    Reachable (stallClockSystem.restrict CountsStalls) (forkedState, forkedClock) := by
  have hforking := Reachable.start (M := stallClockSystem.restrict CountsStalls)
      (s := (bootState fourPages, .boot)) ⟨bootState_init fourPages, rfl⟩
    |>.observe_next_restrict (.dispatch (p := 0) rfl rfl) trivial
    |>.observe_next_restrict (.move (t := 0) rfl rfl .callFork) trivial
    |>.observe_next_restrict (.move (t := 0) rfl rfl
      (.allocMiss (i := 0) rfl (by simp [bootState]))) trivial
    |>.observe_next_restrict (.allocFound (t := 0) (i := 1) rfl rfl rfl rfl) rfl
  have hpages := hforking
    |>.observe_next_restrict (.kallocTake (t := 0) (r := PHYSTOP - 3 * PGSIZE) rfl rfl
      (by decide)) trivial
    |>.observe_next_restrict (.kallocTake (t := 0) (r := PHYSTOP - 4 * PGSIZE) rfl rfl
      (by decide)) trivial
    |>.observe_next_restrict (.kallocTake (t := 0) (r := PHYSTOP - 5 * PGSIZE) rfl rfl
      (by decide)) trivial
    |>.observe_next_restrict (.kallocTake (t := 0) (r := PHYSTOP - 6 * PGSIZE) rfl rfl
      (by decide)) trivial
  exact hpages
    |>.observe_next_restrict (.tableDone (t := 0) rfl rfl) trivial
    |>.observe_next_restrict (.lockNew (t := 0) rfl rfl rfl) trivial
    |>.observe_next_restrict (.forkRelease (t := 0) rfl rfl) trivial
    |>.observe_next_restrict (.move (t := 0) rfl rfl .copyDone) trivial
    |>.observe_next_restrict (.forkSz (t := 0) rfl rfl) trivial
    |>.observe_next_restrict (.move (t := 0) rfl rfl (.forkRegs rfl)) trivial
    |>.observe_next_restrict (.forkParent (t := 0) rfl rfl rfl) trivial
    |>.observe_next_restrict (.forkRunnable (t := 0) rfl rfl rfl) trivial

/-- Any number of ticks may pass while nobody is stalled. -/
theorem reachable_ticks {s : LifeState} {c : StallClock}
    (hreach : Reachable (stallClockSystem.restrict CountsStalls) (s, c))
    (hpc : ∀ p site, s.pc p ≠ .stalled site) (n : Nat) :
    Reachable (stallClockSystem.restrict CountsStalls)
      (s, { c with ticks := c.ticks + UInt32.ofNat n, clock := c.clock + n }) := by
  induction n with
  | zero => simpa using hreach
  | succ n ih =>
    have hnext := ih.observe_next_restrict LifeStep.updatePsi fun _ => hpc
    have hticks : c.ticks + UInt32.ofNat (n + 1) = c.ticks + UInt32.ofNat n + 1 := by
      rw [UInt32.ofNat_add, UInt32.add_assoc]
      rfl
    rw [hticks]
    exact hnext

/-- The first process has stalled; its child has freed a page and the first
process has taken it. -/
def servedState : LifeState :=
  let stalled := ((forkedState.goto 0 (.kalloc .own)).sleep 0 .kmem).goto 0 (.stalled .own)
  let child := stalled.setProc 1 fun q => { q with state := .RUNNING }
  let freed := (child.kfree 1 (PHYSTOP - 6 * PGSIZE)).setProc 1 fun q =>
    { q with pages := q.pages.erase (PHYSTOP - 6 * PGSIZE) }
  let resumed := freed.setProc 0 fun q => { q with state := .RUNNING }
  (resumed.setProc 0 fun q => { q with chan := .null }).deliver 0 .own (PHYSTOP - 6 * PGSIZE)

/-- The fields after a stall of the first process that one tick falls into. -/
def StallClock.served (c : StallClock) : StallClock :=
  let stalled := c.begin 0
  ({ stalled with ticks := c.ticks + 1, clock := c.clock + 1 }.charge 0).close 0

/-- A stall of one tick, in any run whose condition it meets. -/
theorem served_reachable {C : LifeState × StallClock → LifeEvent × Option Slot → Prop}
    {c : StallClock} (hreach : Reachable (stallClockSystem.restrict C) (forkedState, c))
    (hC : ∀ x ev who, (∀ i pid, ev ≠ .allocFound i pid) → ev ≠ .updatePsi → ev ≠ .kallocKilled →
      C x (ev, who)) (htick : ∀ s, C (s, c.begin 0) (.updatePsi, none)) :
    Reachable (stallClockSystem.restrict C) (servedState, c.served) :=
  hreach
    |>.observe_next_restrict (.move (t := 0) rfl rfl .callKalloc)
      (hC _ _ _ (by simp) (by simp) (by simp))
    |>.observe_next_restrict (@LifeStep.kallocStall _ 0 .own rfl rfl (by decide) rfl)
      (hC _ _ _ (by simp) (by simp) (by simp))
    |>.observe_next_restrict LifeStep.updatePsi (htick _)
    |>.observe_next_restrict (.dispatch (p := 1) rfl rfl)
      (hC _ _ _ (by simp) (by simp) (by simp))
    |>.observe_next_restrict (@LifeStep.ownKfree _ 1 (PHYSTOP - 6 * PGSIZE) rfl rfl
      (by decide)) (hC _ _ _ (by simp) (by simp) (by simp))
    |>.observe_next_restrict (.dispatch (p := 0) rfl rfl)
      (hC _ _ _ (by simp) (by simp) (by simp))
    |>.observe_next_restrict (@LifeStep.kallocWoken _ 0 .own
      (PHYSTOP - 6 * PGSIZE) rfl rfl (by decide)) (hC _ _ _ (by simp) (by simp) (by simp))

/-- A stall of one tick soon after boot counts as one. -/
theorem stall_ticks_counted_served :
    (servedState.proc 0).state ≠ .UNUSED ∧ (forkedClock.served.mem_stall_ticks 0).toNat = 1 := by
  have hreach := served_reachable forkedClock_reachable
    (by
      intro x ev who hfound htick hkilled
      cases ev <;> simp [CountsStalls] at hfound htick hkilled ⊢)
    (by
      intro s hwrap
      have hfirst : forkedClock.ticks.toNat + 1 ≠ 2 ^ 32 := by decide
      exact absurd hwrap hfirst)
  have hlive : (servedState.proc 0).state ≠ .UNUSED := by decide
  exact ⟨hlive, (stall_ticks_counted hreach hlive).2 (by decide)⟩

/-- **The count is wrong when the tick counter wraps during a stall.**  A stall
of one tick that begins at the last value of the counter is charged as
2^64 - 2^32 + 1 ticks. -/
theorem stall_ticks_wrap :
    ∃ x, Reachable stallClockSystem x ∧ (x.1.proc 0).state ≠ .UNUSED ∧ x.2.total 0 = 1 ∧
      (x.2.mem_stall_ticks 0).toNat = 2 ^ 64 - 2 ^ 32 + 1 := by
  have hnone : ∀ p site, forkedState.pc p ≠ .stalled site := by
    intro p site
    have hrun : ∀ p, forkedState.pc p = .run := by decide
    rw [hrun p]
    simp
  have hlate := reachable_ticks forkedClock_reachable hnone (2 ^ 32 - 1)
  have hreach := served_reachable
    (hlate.restrict_mono (D := fun _ _ => True) fun _ _ _ => trivial)
    (fun _ _ _ _ _ _ => trivial) (fun _ => trivial)
  exact ⟨_, hreach.of_restrict, by decide, by decide, by decide⟩

end Runs

end Kus
