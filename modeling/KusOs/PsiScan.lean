import KusOs.Psi
import KusOs.StallProtocol

/-!
# The scan of `update_psi` among running processes

`update_psi` takes one `p->lock` at a time, so the counts it ends with mix the
states of different moments.  Here its scan runs among the steps of the stall
protocol; `seen` keeps the process table of every moment since the scan began.

A FULL sample is right as long as no slot the scan has passed becomes runnable
again before the scan ends: then the table at the end of the scan is itself a
full stall (`full_sample_real`).  Without that it can be invented
(`full_sample_invented`): the only runner wakes a process the scan has passed
and stalls before the scan reaches it.
-/

namespace Kus

open Transition

/-- `RUNNABLE` or `RUNNING`. -/
def StallProc.Active (q : StallProc) : Prop := q.state = .RUNNABLE ∨ q.state = .RUNNING

instance (q : StallProc) : Decidable q.Active :=
  inferInstanceAs (Decidable (q.state = .RUNNABLE ∨ q.state = .RUNNING))

/-- A process is stalled and nobody can run. -/
def FullStall (table : Slot → StallProc) : Prop :=
  (∃ p, (table p).state = .SLEEPING ∧ (table p).chan = .kmem) ∧ ∀ p, ¬ (table p).Active

/-- The protocol and a scan: the next slot while one is under way, the
counters, and the process tables since it began, the present one first. -/
structure ScanState where
  sys : StallState
  pos : Option Nat
  counts : PsiCounts
  seen : List (Slot → StallProc)

/-- A step of another CPU, with the process table it leads to, or a step of the
scan. -/
inductive ScanEvent
  | other (ev : StallEvent × Slot) (table : Slot → StallProc)
  | start
  | read (i : Slot)
  | finish

inductive ScanStep : ScanState → ScanEvent → ScanState → Prop
  | other {x ev sys'} (hs : StallStep x.sys ev sys') :
      ScanStep x (.other ev sys'.proc) { x with sys := sys', seen := sys'.proc :: x.seen }
  | start {x} (hpos : x.pos = none) :
      ScanStep x .start { x with pos := some 0, counts := .zero, seen := [x.sys.proc] }
  | read {x} {i : Slot} (hpos : x.pos = some i.val) (hlock : x.sys.plock i = none) :
      ScanStep x (.read i)
        { x with
          pos := some (i + 1)
          counts := x.counts.read (x.sys.proc i).state (x.sys.proc i).chan }
  | finish {x} (hpos : x.pos = some NPROC) : ScanStep x .finish { x with pos := none }

/-- The protocol with `update_psi` called now and then. -/
def psiSystem : System ScanState ScanEvent where
  init x := stallSystem.init x.sys ∧ x.pos = none
  step := ScanStep

/-- While a scan is under way, no slot it has passed becomes `RUNNABLE` or
`RUNNING`. -/
def NoneRevived (x : ScanState) : ScanEvent → Prop
  | .other _ table => ∀ i q, x.pos = some i → q.val < i → (table q).Active → (x.sys.proc q).Active
  | _ => True

section Counts

variable {c : PsiCounts} {q : StallProc}

/-- The scan misses no runner. -/
theorem PsiCounts.read_running (h : (c.read q.state q.chan).runnable_or_running = 0) :
    c.runnable_or_running = 0 ∧ ¬ q.Active := by
  unfold PsiCounts.read at h
  unfold StallProc.Active
  cases hstate : q.state <;> simp [hstate] at h ⊢
  all_goals first | exact h | (split at h <;> exact h)

/-- The scan counts nobody as stalled who is not. -/
theorem PsiCounts.read_stalled (h : 0 < (c.read q.state q.chan).stalled) :
    0 < c.stalled ∨ q.state = .SLEEPING ∧ q.chan = .kmem := by
  unfold PsiCounts.read at h
  by_cases hq : q.state = .SLEEPING ∧ q.chan = .kmem
  · exact .inr hq
  left
  rw [if_neg hq] at h
  split at h
  · split at h <;> exact h
  · exact h

theorem PsiCounts.read_unused (chan : Chan) : c.read .UNUSED chan = c := by
  simp [PsiCounts.read]

end Counts

section Invariant

variable {x : ScanState}

theorem sys_reachable (hreach : Reachable psiSystem x) : Reachable stallSystem x.sys := by
  induction hreach with
  | start hinit => exact .start hinit.1
  | next _ hs ih =>
    cases hs with
    | other hs => exact .next ih hs
    | start | read | finish => exact ih

/-- A process asleep on `&kmem` stays so until it is made runnable. -/
theorem StallInv.asleep_step {s s' : StallState} {ev : StallEvent × Slot} {p : Slot}
    (h : StallInv s) (hs : StallStep s ev s') (hp : s.Asleep p) :
    s'.Asleep p ∨ (s'.proc p).Active := by
  have hpc := h.asleep_pc p hp
  unfold StallState.Asleep at hp ⊢
  unfold StallProc.Active
  cases hs with
  | _ => grind [StallProc.wake, StallProc.kill]

/-- What the counters say about the present table while a scan is under way. -/
structure ScanInv (x : ScanState) : Prop where
  now : ∀ i, x.pos = some i → x.sys.proc ∈ x.seen
  quiet : ∀ i, x.pos = some i → x.counts.runnable_or_running = 0 →
    ∀ q : Slot, q.val < i → ¬ (x.sys.proc q).Active
  stalled : ∀ i, x.pos = some i → 0 < x.counts.stalled →
    ∃ q : Slot, q.val < i ∧ x.sys.Asleep q

theorem ScanInv.other_step (h : ScanInv x) (hinv : StallInv x.sys) {ev : StallEvent × Slot}
    {sys' : StallState} (hs : StallStep x.sys ev sys')
    (hnone : NoneRevived x (.other ev sys'.proc)) :
    ScanInv { x with sys := sys', seen := sys'.proc :: x.seen } where
  now _ _ := List.mem_cons_self
  quiet := by
    intro i hpos hzero q hq hactive
    exact h.quiet i hpos hzero q hq (hnone i q hpos hq hactive)
  stalled := by
    intro i hpos hcount
    obtain ⟨q, hq, hasleep⟩ := h.stalled i hpos hcount
    rcases hinv.asleep_step hs hasleep with hstill | hactive
    · exact ⟨q, hq, hstill⟩
    -- a sleeper is not active, so the scan would have seen it revived
    have hold := hnone i q hpos hq hactive
    rw [StallProc.Active, hasleep.1] at hold
    simp at hold

theorem ScanInv.read_step (h : ScanInv x) {i : Slot} (hpos : x.pos = some i.val) :
    ScanInv { x with
      pos := some (i + 1)
      counts := x.counts.read (x.sys.proc i).state (x.sys.proc i).chan } where
  now _ _ := h.now i hpos
  quiet := by
    intro j hj hzero q hq
    cases hj
    obtain ⟨hold, hidle⟩ := PsiCounts.read_running hzero
    by_cases hqi : q = i
    · subst hqi
      exact hidle
    · have hne : q.val ≠ i.val := fun heq => hqi (Fin.ext heq)
      exact h.quiet i hpos hold q (by omega)
  stalled := by
    intro j hj hcount
    cases hj
    rcases PsiCounts.read_stalled hcount with hold | hasleep
    · obtain ⟨q, hq, hq'⟩ := h.stalled i hpos hold
      exact ⟨q, by omega, hq'⟩
    · exact ⟨i, by omega, hasleep⟩

theorem scanInv_of_reachable (hreach : Reachable (psiSystem.restrict NoneRevived) x) :
    ScanInv x := by
  refine hreach.invariant (P := ScanInv) ?_ ?_
  · intro x hinit
    have hpos : ∀ i, x.pos ≠ some i := by
      intro i
      rw [hinit.2]
      simp
    exact ⟨fun i h => absurd h (hpos i), fun i h => absurd h (hpos i), fun i h => absurd h (hpos i)⟩
  · rintro x ev x' hreach h ⟨hs, hnone⟩
    cases hs with
    | other hs =>
      exact h.other_step (stallInv_of_reachable (sys_reachable hreach.of_restrict)) hs hnone
    | start hpos =>
      refine ⟨fun _ _ => List.mem_singleton_self _, ?_, ?_⟩
      · rintro i hi - q hq
        cases hi
        exact absurd hq (Nat.not_lt_zero _)
      · intro i _ hcount
        exact absurd hcount (Nat.lt_irrefl 0)
    | read hpos => exact h.read_step hpos
    | finish hpos => constructor <;> (intro i hi; cases hi)

/-- **A FULL sample is real while nobody is revived behind the scan.**  If the
scan has passed every slot and computes FULL, then at some moment since it began
a process was asleep on `&kmem` and nobody was `RUNNABLE` or `RUNNING`. -/
theorem full_sample_real (hreach : Reachable (psiSystem.restrict NoneRevived) x)
    (hpos : x.pos = some NPROC) (hfull : x.counts.full = true) :
    ∃ table ∈ x.seen, FullStall table := by
  have h := scanInv_of_reachable hreach
  simp only [PsiCounts.full, Bool.and_eq_true, decide_eq_true_eq] at hfull
  obtain ⟨q, -, hasleep⟩ := h.stalled _ hpos hfull.1
  exact ⟨x.sys.proc, h.now _ hpos, ⟨q, hasleep⟩, fun p => h.quiet _ hpos hfull.2 p p.isLt⟩

end Invariant

section Runs

/-- The scan gets to the end of the table over slots that are not in use. -/
theorem reachable_reads {C : ScanState → ScanEvent → Prop} {x : ScanState}
    (hC : ∀ y i, C y (.read i)) (hreach : Reachable (psiSystem.restrict C) x) {i : Nat}
    (hpos : x.pos = some i) (hi : i ≤ NPROC)
    (hfree : ∀ j : Slot, i ≤ j → x.sys.plock j = none ∧ (x.sys.proc j).state = .UNUSED) :
    Reachable (psiSystem.restrict C) { x with pos := some NPROC } := by
  obtain ⟨left, hleft⟩ := Nat.exists_eq_add_of_le hi
  induction left generalizing i x with
  | zero =>
    have heq : i = NPROC := by omega
    have hsame : { x with pos := some NPROC } = x := by
      rw [heq] at hpos
      rw [← hpos]
    rw [hsame]
    exact hreach
  | succ left ih =>
    have hlt : i < NPROC := by omega
    obtain ⟨hlock, hstate⟩ := hfree ⟨i, hlt⟩ (Nat.le_refl i)
    have hread := Reachable.next hreach ⟨ScanStep.read (i := ⟨i, hlt⟩) hpos hlock, hC x _⟩
    rw [hstate, PsiCounts.read_unused] at hread
    exact @ih { x with pos := some (i + 1) } hread (i + 1) rfl hlt
      (fun j hj => hfree j (by omega)) (by omega)

/-- Slot 0 sleeps on a pipe and slot 1 runs, with nothing on the free list. -/
def sleeperAndRunner : StallState where
  kmem := { next := fun _ => 0, freelist := 0 }
  kmemLock := none
  plock := fun _ => none
  proc := fun p =>
    if p = 0 then { state := .SLEEPING, chan := .other 8, killed := false, pid := 1 }
    else if p = 1 then { state := .RUNNING, chan := .null, killed := false, pid := 2 }
    else { state := .UNUSED, chan := .null, killed := false, pid := 0 }
  pc := fun _ => .out

theorem sleeperAndRunner_init : stallSystem.init sleeperAndRunner := by
  have hchan : ∀ p, (sleeperAndRunner.proc p).chan ≠ .kmem := by decide
  exact ⟨rfl, fun p => ⟨rfl, rfl, hchan p⟩⟩

/-- The same before the first scan. -/
def beforeScan : ScanState where
  sys := sleeperAndRunner
  pos := none
  counts := .zero
  seen := []

/-- The runner has stalled before the scan began, and the sample is right. -/
theorem full_sample_real_alone :
    ∃ x, Reachable (psiSystem.restrict NoneRevived) x ∧ x.pos = some NPROC ∧
      x.counts.full = true ∧ ∃ table ∈ x.seen, FullStall table := by
  have hidle : ∀ (x : ScanState) (a : ScanEvent), x.pos = none → NoneRevived x a := by
    intro x a hpos
    cases a with
    | other ev table =>
      intro i q hi
      rw [hpos] at hi
      cases hi
    | start | read | finish => trivial
  have hstalled := Reachable.next (Reachable.next (Reachable.next (Reachable.next (Reachable.next
    (.start (M := psiSystem.restrict NoneRevived) (s := beforeScan)
      ⟨sleeperAndRunner_init, rfl⟩)
    ⟨.other (.kallocAcquire (p := 1) rfl rfl rfl), hidle _ _ rfl⟩)
    ⟨.other (.kallocSleep (p := 1) rfl rfl rfl), hidle _ _ rfl⟩)
    ⟨.other (.sleepRelease (p := 1) rfl), hidle _ _ rfl⟩)
    ⟨.other (.sleepSet (p := 1) rfl), hidle _ _ rfl⟩)
    ⟨.other (.sched (p := 1) rfl), hidle _ _ rfl⟩
  have hread := Reachable.next (Reachable.next (Reachable.next hstalled
    ⟨.start rfl, trivial⟩)
    ⟨.read (i := 0) rfl rfl, trivial⟩)
    ⟨.read (i := 1) rfl rfl, trivial⟩
  have hend := reachable_reads (fun _ _ => trivial) hread (i := 2) rfl (by decide) (by decide)
  exact ⟨_, hend, rfl, rfl, full_sample_real hend rfl rfl⟩

theorem not_fullStall_of_active {tables : List (Slot → StallProc)}
    (h : ∀ table ∈ tables, (table 0).Active ∨ (table 1).Active) :
    ∀ table ∈ tables, ¬ FullStall table := by
  intro table hmem hfull
  rcases h table hmem with hactive | hactive
  · exact hfull.2 0 hactive
  · exact hfull.2 1 hactive

/-- **A FULL sample can be invented.**  The scan passes slot 0, asleep on a
pipe.  Slot 1 wakes it and then stalls in `kalloc`; now the scan passes slot 1.
At every moment one of the two could run. -/
theorem full_sample_invented :
    ∃ x, Reachable psiSystem x ∧ x.pos = some NPROC ∧ x.counts.full = true ∧
      ∀ table ∈ x.seen, ¬ FullStall table := by
  have hwoken := Reachable.next (Reachable.next (Reachable.next
    (.start (M := psiSystem.restrict fun _ _ => True) (s := beforeScan)
      ⟨sleeperAndRunner_init, rfl⟩)
    ⟨.start rfl, trivial⟩)
    ⟨.read (i := 0) rfl rfl, trivial⟩)
    ⟨.other (@StallStep.wakeVisit _ 0 (.other 8) rfl), trivial⟩
  have hstalled := Reachable.next (Reachable.next (Reachable.next (Reachable.next (Reachable.next
    hwoken
    ⟨.other (.kallocAcquire (p := 1) rfl rfl rfl), trivial⟩)
    ⟨.other (.kallocSleep (p := 1) rfl rfl rfl), trivial⟩)
    ⟨.other (.sleepRelease (p := 1) rfl), trivial⟩)
    ⟨.other (.sleepSet (p := 1) rfl), trivial⟩)
    ⟨.other (.sched (p := 1) rfl), trivial⟩
  have hread := Reachable.next hstalled ⟨ScanStep.read (i := 1) rfl rfl, trivial⟩
  have hend := reachable_reads (fun _ _ => trivial) hread (i := 2) rfl (by decide) (by decide)
  exact ⟨_, hend.of_restrict, rfl, rfl, not_fullStall_of_active (by decide)⟩

end Runs

end Kus
