import KusOs.Kmem
import KusOs.Proc
import KusOs.TransitionSystem

/-!
# The stall protocol of `kalloc`, lock by lock

`kalloc` sleeps on `&kmem` when the list is empty and `kfree` wakes every
sleeper.  Here the two run interleaved with `sleep`, `wakeup`, `kkill` and the
scheduler, one lock operation at a time: `sleep` takes `p->lock`, only then
drops `kmem.lock`, and only then sets `p->state`, each in a step of its own;
`wakeup` visits the slots one by one and needs each slot's lock.

A thread's position in the source is its `StallPc`.  Locks record the thread
they are held for, so that the hand-over of `p->lock` through the scheduler is
a change of the program counter.  Any number of threads may be running, hence
any number of CPUs.  What a process does outside the allocator (other sleeps,
fork, exit) is one unconstrained step, which may not use the channel `&kmem`.
-/

namespace Kus

open Function Transition

/-- Where a thread stands in `kalloc`, `sleep`, `kfree` or `kkill`. -/
inductive StallPc
  | out
  /-- `kalloc` after `acquire(&kmem.lock)`, the head not yet tested -/
  | kallocLocked
  /-- `sleep` after `acquire(&p->lock)`, both locks held -/
  | sleepLocked
  /-- `sleep` after `release(lk)`, only `p->lock` held -/
  | sleepReleased
  /-- `sleep` after `p->state = SLEEPING`, about to enter `sched` -/
  | sleepSet
  /-- switched away inside `sched` -/
  | parked
  /-- `sleep` after `sched` returned, `p->lock` held -/
  | resumed
  /-- `sleep` after `release(&p->lock)`, about to take `kmem.lock` again -/
  | relock
  /-- `kalloc`'s loop body after `sleep`, `kmem.lock` held -/
  | kallocWoken
  /-- `kfree` inside `wakeup(&kmem)`, next slot `i` -/
  | kfreeScan (i : Nat)
  /-- `kkill(pid)`, next slot `i` -/
  | killScan (pid : Int) (i : Nat)
deriving DecidableEq, Repr

/-- The positions at which a thread holds `kmem.lock`. -/
def StallPc.holdsKmem : StallPc → Bool
  | .kallocLocked | .sleepLocked | .kallocWoken | .kfreeScan _ => true
  | _ => false

/-- The positions at which a thread holds its own `p->lock`. -/
def StallPc.holdsOwn : StallPc → Bool
  | .sleepLocked | .sleepReleased | .sleepSet | .resumed => true
  | _ => false

/-- The positions inside the stall loop of `kalloc`. -/
def StallPc.inStall : StallPc → Bool
  | .sleepLocked | .sleepReleased | .sleepSet | .parked | .resumed | .relock
  | .kallocWoken => true
  | _ => false

/-- The fields of `struct proc` the protocol reads and writes. -/
structure StallProc where
  state : ProcState
  chan : Chan
  killed : Bool
  pid : Int

/-- The allocator, its lock, the slots with their locks, and every thread. -/
structure StallState where
  kmem : Kmem
  kmemLock : Option Slot
  plock : Slot → Option Slot
  proc : Slot → StallProc
  pc : Slot → StallPc

/-- Move the thread of `p` to `k`. -/
def StallState.goto (s : StallState) (p : Slot) (k : StallPc) : StallState :=
  { s with pc := update s.pc p k }

/-- Change the slot `p`. -/
def StallState.setProc (s : StallState) (p : Slot) (f : StallProc → StallProc) :
    StallState :=
  { s with proc := update s.proc p (f (s.proc p)) }

/-- Hold or drop `p->lock`. -/
def StallState.setPlock (s : StallState) (p : Slot) (o : Option Slot) : StallState :=
  { s with plock := update s.plock p o }

section Fields

variable (s : StallState) (p q : Slot)

@[simp, grind =] theorem StallState.goto_pc (k : StallPc) :
    (s.goto p k).pc q = if q = p then k else s.pc q := update_apply ..

@[simp, grind =] theorem StallState.goto_proc (k : StallPc) :
    (s.goto p k).proc q = s.proc q := rfl

@[simp, grind =] theorem StallState.goto_plock (k : StallPc) :
    (s.goto p k).plock q = s.plock q := rfl

@[simp, grind =] theorem StallState.goto_kmemLock (k : StallPc) :
    (s.goto p k).kmemLock = s.kmemLock := rfl

@[simp, grind =] theorem StallState.goto_kmem (k : StallPc) : (s.goto p k).kmem = s.kmem := rfl

variable (f : StallProc → StallProc)

@[simp, grind =] theorem StallState.setProc_proc :
    (s.setProc p f).proc q = if q = p then f (s.proc p) else s.proc q := update_apply ..

@[simp, grind =] theorem StallState.setProc_pc : (s.setProc p f).pc q = s.pc q := rfl

@[simp, grind =] theorem StallState.setProc_plock : (s.setProc p f).plock q = s.plock q := rfl

@[simp, grind =] theorem StallState.setProc_kmemLock :
    (s.setProc p f).kmemLock = s.kmemLock := rfl

@[simp, grind =] theorem StallState.setProc_kmem : (s.setProc p f).kmem = s.kmem := rfl

variable (o : Option Slot)

@[simp, grind =] theorem StallState.setPlock_plock :
    (s.setPlock p o).plock q = if q = p then o else s.plock q := update_apply ..

@[simp, grind =] theorem StallState.setPlock_pc : (s.setPlock p o).pc q = s.pc q := rfl

@[simp, grind =] theorem StallState.setPlock_proc : (s.setPlock p o).proc q = s.proc q := rfl

@[simp, grind =] theorem StallState.setPlock_kmemLock :
    (s.setPlock p o).kmemLock = s.kmemLock := rfl

@[simp, grind =] theorem StallState.setPlock_kmem : (s.setPlock p o).kmem = s.kmem := rfl

end Fields

/-- The loop body of `wakeup(chan)` at one slot. -/
def StallProc.wake (chan : Chan) (q : StallProc) : StallProc :=
  if q.state = .SLEEPING ∧ q.chan = chan then { q with state := .RUNNABLE } else q

/-- The loop body of `kkill` at the slot whose pid matched. -/
def StallProc.kill (q : StallProc) : StallProc :=
  if q.state = .SLEEPING then { q with killed := true, state := .RUNNABLE }
  else { q with killed := true }

/-- What a step of the protocol was, with the slot it belongs to. -/
inductive StallEvent
  | kallocAcquire | kallocTake | kallocSleep
  | sleepRelease | sleepSet | sched | resume | dispatch | sleepTidy | relock
  | wokenKilled | wokenTake | wokenSleep
  | kfreePush | kfreeVisit | kfreeSkip | kfreeDone
  | killStart | killHit | killMiss | killDone
  | preempt | wakeVisit | outside
deriving DecidableEq, Repr

/-- One lock-protected step of the thread of `p` (or, for the last three
constructors, of the scheduler and of code outside the allocator). -/
inductive StallStep : StallState → StallEvent × Slot → StallState → Prop
  | kallocAcquire {s p} (hpc : s.pc p = .out) (hrun : (s.proc p).state = .RUNNING)
      (hlock : s.kmemLock = none) :
      StallStep s (.kallocAcquire, p) { s.goto p .kallocLocked with kmemLock := some p }
  | kallocTake {s p r} (hpc : s.pc p = .kallocLocked)
      (hout : kallocEnter true s.kmem = .page r) :
      StallStep s (.kallocTake, p)
        { s.goto p .out with kmem := s.kmem.pop, kmemLock := none }
  | kallocSleep {s p} (hpc : s.pc p = .kallocLocked)
      (hout : kallocEnter true s.kmem = .stall) (hlock : s.plock p = none) :
      StallStep s (.kallocSleep, p) ((s.setPlock p (some p)).goto p .sleepLocked)
  | sleepRelease {s p} (hpc : s.pc p = .sleepLocked) :
      StallStep s (.sleepRelease, p) { s.goto p .sleepReleased with kmemLock := none }
  | sleepSet {s p} (hpc : s.pc p = .sleepReleased) :
      StallStep s (.sleepSet, p)
        ((s.setProc p fun q => { q with chan := .kmem, state := .SLEEPING }).goto p .sleepSet)
  | sched {s p} (hpc : s.pc p = .sleepSet) :
      StallStep s (.sched, p) ((s.setPlock p none).goto p .parked)
  | resume {s p} (hpc : s.pc p = .parked) (hstate : (s.proc p).state = .RUNNABLE)
      (hlock : s.plock p = none) :
      StallStep s (.resume, p)
        (((s.setProc p fun q => { q with state := .RUNNING }).setPlock p (some p)).goto p
          .resumed)
  | dispatch {s p} (hpc : s.pc p ≠ .parked) (hstate : (s.proc p).state = .RUNNABLE)
      (hlock : s.plock p = none) :
      StallStep s (.dispatch, p) (s.setProc p fun q => { q with state := .RUNNING })
  | sleepTidy {s p} (hpc : s.pc p = .resumed) :
      StallStep s (.sleepTidy, p)
        (((s.setProc p fun q => { q with chan := .null }).setPlock p none).goto p .relock)
  | relock {s p} (hpc : s.pc p = .relock) (hrun : (s.proc p).state = .RUNNING)
      (hlock : s.kmemLock = none) :
      StallStep s (.relock, p) { s.goto p .kallocWoken with kmemLock := some p }
  | wokenKilled {s p} (hpc : s.pc p = .kallocWoken)
      (hout : kallocResume (s.proc p).killed s.kmem = .null) :
      StallStep s (.wokenKilled, p) { s.goto p .out with kmemLock := none }
  | wokenTake {s p r} (hpc : s.pc p = .kallocWoken)
      (hout : kallocResume (s.proc p).killed s.kmem = .page r) :
      StallStep s (.wokenTake, p)
        { s.goto p .out with kmem := s.kmem.pop, kmemLock := none }
  | wokenSleep {s p} (hpc : s.pc p = .kallocWoken)
      (hout : kallocResume (s.proc p).killed s.kmem = .stall) (hlock : s.plock p = none) :
      StallStep s (.wokenSleep, p) ((s.setPlock p (some p)).goto p .sleepLocked)
  | kfreePush {s p pa} (hpc : s.pc p = .out) (hrun : (s.proc p).state = .RUNNING)
      (hlock : s.kmemLock = none) (hpa : pa ≠ 0) :
      StallStep s (.kfreePush, p)
        { s.goto p (.kfreeScan 0) with kmem := s.kmem.push pa, kmemLock := some p }
  | kfreeVisit {s p} {i : Slot} (hpc : s.pc p = .kfreeScan i) (hne : i ≠ p)
      (hlock : s.plock i = none) :
      StallStep s (.kfreeVisit, p)
        ((s.setProc i (StallProc.wake .kmem)).goto p (.kfreeScan (i + 1)))
  | kfreeSkip {s p} (hpc : s.pc p = .kfreeScan p) :
      StallStep s (.kfreeSkip, p) (s.goto p (.kfreeScan (p + 1)))
  | kfreeDone {s p} (hpc : s.pc p = .kfreeScan NPROC) :
      StallStep s (.kfreeDone, p) { s.goto p .out with kmemLock := none }
  | killStart {s p pid} (hpc : s.pc p = .out) (hrun : (s.proc p).state = .RUNNING) :
      StallStep s (.killStart, p) (s.goto p (.killScan pid 0))
  | killHit {s p pid} {i : Slot} (hpc : s.pc p = .killScan pid i)
      (hpid : (s.proc i).pid = pid) (hlock : s.plock i = none) :
      StallStep s (.killHit, p) ((s.setProc i StallProc.kill).goto p .out)
  | killMiss {s p pid} {i : Slot} (hpc : s.pc p = .killScan pid i)
      (hpid : (s.proc i).pid ≠ pid) (hlock : s.plock i = none) :
      StallStep s (.killMiss, p) (s.goto p (.killScan pid (i + 1)))
  | killDone {s p pid} (hpc : s.pc p = .killScan pid NPROC) :
      StallStep s (.killDone, p) (s.goto p .out)
  | preempt {s p} (hpc : s.pc p = .out ∨ s.pc p = .relock ∨ ∃ pid i, s.pc p = .killScan pid i)
      (hrun : (s.proc p).state = .RUNNING) (hlock : s.plock p = none) :
      StallStep s (.preempt, p) (s.setProc p fun q => { q with state := .RUNNABLE })
  | wakeVisit {s i chan} (hlock : s.plock i = none) :
      StallStep s (.wakeVisit, i) (s.setProc i (StallProc.wake chan))
  | outside {s p} {q : StallProc} (hpc : s.pc p = .out) (hlock : s.plock p = none)
      (hchan : q.chan ≠ .kmem) :
      StallStep s (.outside, p) (s.setProc p fun _ => q)

/-- The protocol from any moment at which no thread is inside the allocator
and no lock is held. -/
def stallSystem : System StallState (StallEvent × Slot) where
  init s := s.kmemLock = none ∧ ∀ p, s.plock p = none ∧ s.pc p = .out ∧
    (s.proc p).chan ≠ .kmem
  step := StallStep

section Invariant

variable {s s' : StallState} {ev : StallEvent × Slot} {p : Slot}

/-- The process is `SLEEPING` on `&kmem`. -/
def StallState.Asleep (s : StallState) (p : Slot) : Prop :=
  (s.proc p).state = .SLEEPING ∧ (s.proc p).chan = .kmem

/-- The process is asleep on `&kmem` or bound to fall asleep on it. -/
def StallState.Waiting (s : StallState) (p : Slot) : Prop :=
  s.pc p = .sleepReleased ∨ s.Asleep p

/-- What links the locks, the program counters and the list.  `covered` is
the heart of it: a waiting process either faces an empty list, or a `kfree` is
under way whose scan has not passed its slot yet. -/
structure StallInv (s : StallState) : Prop where
  kmem_owner : ∀ p, s.kmemLock = some p ↔ (s.pc p).holdsKmem = true
  own_lock : ∀ p, (s.pc p).holdsOwn = true → s.plock p = some p
  asleep_pc : ∀ p, s.Asleep p → s.pc p = .sleepSet ∨ s.pc p = .parked
  stall_empty : ∀ p, s.pc p = .sleepLocked → s.kmem.freelist = 0
  covered : ∀ p, s.Waiting p →
    s.kmem.freelist = 0 ∨ ∃ q i, s.pc q = .kfreeScan i ∧ i ≤ p.val

private theorem kmem_owner_step (h : ∀ p, s.kmemLock = some p ↔ (s.pc p).holdsKmem = true)
    (hs : StallStep s ev s') (p : Slot) : s'.kmemLock = some p ↔ (s'.pc p).holdsKmem = true := by
  have hp := h p
  cases hs with
  | _ => grind [StallPc.holdsKmem]

private theorem own_lock_step (h : ∀ p, (s.pc p).holdsOwn = true → s.plock p = some p)
    (hs : StallStep s ev s') (p : Slot) : (s'.pc p).holdsOwn = true → s'.plock p = some p := by
  have hp := h p
  cases hs with
  | _ => grind [StallPc.holdsOwn]

section

variable (h : StallInv s)
include h

private theorem asleep_pc_step (hs : StallStep s ev s') (p : Slot) :
    s'.Asleep p → s'.pc p = .sleepSet ∨ s'.pc p = .parked := by
  have hp := h.asleep_pc p
  have hown := h.own_lock
  cases hs with
  | _ => grind [StallState.Asleep, StallPc.holdsOwn, StallProc.wake, StallProc.kill]

/-- Two threads never hold `kmem.lock` at once. -/
theorem StallInv.holder_unique {q : Slot} (hp : (s.pc p).holdsKmem = true)
    (hq : (s.pc q).holdsKmem = true) : p = q := by
  have hlock := (h.kmem_owner p).mpr hp
  rw [(h.kmem_owner q).mpr hq] at hlock
  exact (Option.some.inj hlock).symm

/-- While a thread other than a scanning `kfree` holds `kmem.lock`, a waiting
process faces an empty list. -/
theorem StallInv.empty_of_waiting {q : Slot} (hq : (s.pc q).holdsKmem = true)
    (hscan : ∀ i, s.pc q ≠ .kfreeScan i) (hwait : s.Waiting p) : s.kmem.freelist = 0 := by
  rcases h.covered p hwait with hempty | ⟨q', i, hpc, _⟩
  · exact hempty
  have heq : q' = q := h.holder_unique (by rw [hpc]; rfl) hq
  subst heq
  exact absurd hpc (hscan i)

/-- With `kmem.lock` free, a waiting process faces an empty list. -/
theorem StallInv.empty_of_free (hlock : s.kmemLock = none) (hwait : s.Waiting p) :
    s.kmem.freelist = 0 := by
  rcases h.covered p hwait with hempty | ⟨q, i, hpc, _⟩
  · exact hempty
  have howner := (h.kmem_owner q).mpr (by rw [hpc]; rfl)
  rw [hlock] at howner
  cases howner

/-- A running scan has not yet reached a process that waits on a filled list. -/
theorem StallInv.ahead_of_scan {q : Slot} {i : Nat} (hpc : s.pc q = .kfreeScan i)
    (hwait : s.Waiting p) : s.kmem.freelist = 0 ∨ i ≤ p.val := by
  rcases h.covered p hwait with hempty | ⟨q', j, hpc', hj⟩
  · exact .inl hempty
  obtain rfl : q' = q := h.holder_unique (by rw [hpc']; rfl) (by rw [hpc]; rfl)
  grind

private theorem stall_empty_step (hs : StallStep s ev s') (p : Slot) :
    s'.pc p = .sleepLocked → s'.kmem.freelist = 0 := by
  have hp := h.stall_empty p
  have howner := h.kmem_owner p
  cases hs with
  | _ => grind [StallPc.holdsKmem, kallocEnter, kallocResume]

/-- A step that leaves the list and every running scan alone, and makes nobody
wait who did not wait before, keeps the sleepers covered. -/
theorem StallInv.covered_frame (hkmem : s'.kmem = s.kmem)
    (hscan : ∀ q i, s.pc q = .kfreeScan i → s'.pc q = .kfreeScan i)
    (hwait : s'.Waiting p → s.Waiting p) (hp : s'.Waiting p) :
    s'.kmem.freelist = 0 ∨ ∃ q i, s'.pc q = .kfreeScan i ∧ i ≤ p.val := by
  rcases h.covered p (hwait hp) with hempty | ⟨q, i, hpc, hi⟩
  · exact .inl (hkmem ▸ hempty)
  · exact .inr ⟨q, i, hscan q i hpc, hi⟩

private theorem covered_step (hs : StallStep s ev s') (p : Slot) (hp : s'.Waiting p) :
    s'.kmem.freelist = 0 ∨ ∃ q i, s'.pc q = .kfreeScan i ∧ i ≤ p.val := by
  have hasleep := h.asleep_pc
  have hown := h.own_lock p
  cases hs with
  | @kallocTake q r hpc hout =>
    -- The head was not null, so nobody can have been waiting.
    have hq : (s.pc q).holdsKmem = true := by rw [hpc]; rfl
    have hempty := h.empty_of_waiting (p := p) hq (by simp [hpc])
      (by grind [StallState.Waiting, StallState.Asleep])
    simp [kallocEnter, hempty] at hout
  | @wokenTake q r hpc hout =>
    have hq : (s.pc q).holdsKmem = true := by rw [hpc]; rfl
    have hempty := h.empty_of_waiting (p := p) hq (by simp [hpc])
      (by grind [StallState.Waiting, StallState.Asleep])
    simp [kallocResume, hempty] at hout
    split at hout <;> cases hout
  | @sleepRelease q hpc => exact .inl (h.stall_empty q hpc)
  | @kfreePush q pa hpc hrun hlock hpa =>
    exact .inr ⟨q, 0, by simp, Nat.zero_le _⟩
  | @kfreeVisit q i hpc hne hlock =>
    -- The visited slot cannot be waiting any more; the others are still ahead.
    have hwait : s.Waiting p := by
      grind [StallState.Waiting, StallState.Asleep, StallProc.wake]
    refine (h.ahead_of_scan hpc hwait).imp_right fun hle => ?_
    have hpi : p ≠ i := by
      rintro rfl
      grind [StallState.Waiting, StallState.Asleep, StallProc.wake, StallPc.holdsOwn]
    exact ⟨q, i + 1, by simp, by grind⟩
  | @kfreeSkip q hpc =>
    have hwait : s.Waiting p := by grind [StallState.Waiting, StallState.Asleep]
    refine (h.ahead_of_scan hpc hwait).imp_right fun hle => ?_
    have hpq : p ≠ q := by
      rintro rfl
      grind [StallState.Waiting]
    exact ⟨q, q + 1, by simp, by grind⟩
  | @kfreeDone q hpc =>
    -- The scan has passed every slot, so only an empty list is left.
    have hwait : s.Waiting p := by grind [StallState.Waiting, StallState.Asleep]
    refine (h.ahead_of_scan hpc hwait).imp_right fun hle => ?_
    exact absurd p.isLt (by omega)
  | _ =>
    refine h.covered_frame (by rfl) (fun q i hq => ?_) ?_ hp
    · simp only [StallState.goto_pc, StallState.setProc_pc, StallState.setPlock_pc]
      grind
    · grind [StallState.Waiting, StallState.Asleep, StallProc.wake, StallProc.kill]

end

/-- The invariant holds in every reachable state. -/
theorem stallInv_of_reachable (hreach : Reachable stallSystem s) : StallInv s := by
  refine hreach.invariant (P := StallInv) ?_ ?_
  · intro s hinit
    obtain ⟨hkmem, hall⟩ := hinit
    refine ⟨?_, ?_, ?_, ?_, ?_⟩ <;> intro p <;> obtain ⟨hplock, hpc, hchan⟩ := hall p
    · simp [hkmem, hpc, StallPc.holdsKmem]
    · simp [hpc, StallPc.holdsOwn]
    · intro hasleep
      exact absurd hasleep.2 hchan
    · simp [hpc]
    · intro hwait
      rcases hwait with hrel | hasleep
      · simp [hpc] at hrel
      · exact absurd hasleep.2 hchan
  · intro s ev s' _ h hs
    exact ⟨kmem_owner_step h.kmem_owner hs, own_lock_step h.own_lock hs,
      asleep_pc_step h hs, stall_empty_step h hs, covered_step h hs⟩

/-- The process is between dropping `kmem.lock` inside `sleep` and entering
the scheduler. -/
def StallState.Entering (s : StallState) (p : Slot) : Prop :=
  s.pc p = .sleepReleased ∨ s.pc p = .sleepSet

/-- **No lost wakeup.**  When nobody holds `kmem.lock` and no process is on
its way from that lock into the scheduler, a non-empty list means that no
process sleeps on `&kmem`.  And whenever a step takes a process out of the
stall loop, the process was killed or it took the head of the list. -/
theorem no_lost_wakeup (hreach : Reachable stallSystem s) :
    (s.kmemLock = none → (∀ p, ¬ s.Entering p) → s.kmem.freelist ≠ 0 →
      ∀ p, ¬ ((s.proc p).state = .SLEEPING ∧ (s.proc p).chan = .kmem)) ∧
    (∀ ev s' p, StallStep s ev s' → (s.pc p).inStall = true → (s'.pc p).inStall = false →
      ((s.proc p).killed = true ∧ s'.kmem = s.kmem) ∨
      (s.kmem.freelist ≠ 0 ∧ s'.kmem = s.kmem.pop ∧ ev = (.wokenTake, p))) := by
  have h := stallInv_of_reachable hreach
  constructor
  · intro hlock _ hne p hasleep
    exact hne (h.empty_of_free hlock (.inr hasleep))
  · intro ev s' p hs hin hout
    cases hs with
    | wokenKilled hpc hnull => grind [StallPc.inStall, kallocResume]
    | wokenTake hpc hpage => grind [StallPc.inStall, kallocResume]
    | _ => grind [StallPc.inStall]

/-- Slot 0 runs with nothing on the free list. -/
def emptyListState : StallState where
  kmem := { next := fun _ => 0, freelist := 0 }
  kmemLock := none
  plock := fun _ => none
  proc := fun p =>
    if p = 0 then { state := .RUNNING, chan := .null, killed := false, pid := 1 }
    else { state := .UNUSED, chan := .null, killed := false, pid := 0 }
  pc := fun _ => .out

/-- The same after slot 0 has called `kalloc` and gone to sleep. -/
def stalledState : StallState :=
  let locked := { emptyListState.goto 0 .kallocLocked with kmemLock := some 0 }
  let both := (locked.setPlock 0 (some 0)).goto 0 .sleepLocked
  let released := { both.goto 0 .sleepReleased with kmemLock := none }
  let sleeping := (released.setProc 0 fun q => { q with chan := .kmem, state := .SLEEPING }).goto 0
    .sleepSet
  (sleeping.setPlock 0 none).goto 0 .parked

/-- The stalled process is asleep on `&kmem`, so nothing can be free. -/
theorem no_lost_wakeup_one_sleeper :
    (stalledState.proc 0).state = .SLEEPING ∧ (stalledState.proc 0).chan = .kmem ∧
    stalledState.kmem.freelist = 0 := by
  have hreach : Reachable stallSystem stalledState := by
    refine .next (.next (.next (.next (.next
      (.start (s := emptyListState) ?_)
      (.kallocAcquire (p := 0) rfl rfl rfl))
      (.kallocSleep (p := 0) rfl rfl rfl))
      (.sleepRelease (p := 0) rfl))
      (.sleepSet (p := 0) rfl))
      (.sched (p := 0) rfl)
    refine ⟨rfl, fun p => ⟨rfl, rfl, ?_⟩⟩
    by_cases hp : p = 0 <;> simp [emptyListState, hp]
  have hentering : ∀ p, ¬ stalledState.Entering p := by
    intro p
    by_cases hp : p = 0
    · subst hp
      simp [StallState.Entering, stalledState]
    · simp [StallState.Entering, stalledState, emptyListState, hp]
  refine ⟨rfl, rfl, ?_⟩
  by_contra hne
  exact (no_lost_wakeup hreach).1 rfl hentering hne 0 ⟨rfl, rfl⟩

end Invariant

end Kus
