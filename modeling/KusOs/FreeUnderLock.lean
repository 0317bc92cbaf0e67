import KusOs.KernelPaths
import KusOs.WaitProtocol

/-!
# `freeproc` under the lock of the slot it frees

`freeproc(pp)` runs with `pp->lock` held.  It calls `kfree`, and `kfree` calls
`wakeup(&kmem)`, which takes the lock of every slot but the caller's own: also
`pp->lock`.  So the first page `freeproc` gives back makes `acquire` panic.

* `freeproc_locked` — the exact outcome, in any state of memory and whatever the
  other CPUs do;
* `acquire_panic_iff` — the outcome of the three callers in every reachable
  process table.
-/

namespace Kus

open Hoare Transition

/-- The pages `freeproc(q)` gives back, in this order. -/
def Kernel.owned (m : Kernel) (q : Slot) : List Nat :=
  let slot := m.world.table q
  (if slot.trapframe = 0 then [] else [slot.trapframe]) ++
    if slot.pagetable = 0 then [] else (m.space slot.pagetable).pages ++ [slot.pagetable]

namespace Thread

variable {p q : Slot} {H : List Lock} {m : Kernel}

/-- What `kfree` of a page stops with when another slot's lock is held. -/
def kfreeStop (img : Image) (pa : Nat) : Stop := if kfreeRejects img pa then .kfree else .acquire

section

variable (h : At p H m) (hq : q ≠ p) (hheld : .proc q ∈ H)
include h hq hheld

theorem kfree_locked (pa : Nat) : kfree pa m = .error (kfreeStop m.img pa) := by
  have hR := Stable.true p
  show (if kfreeRejects m.img pa = true then throw .kfree else _ : K Unit) m = _
  by_cases hrej : kfreeRejects m.img pa = true
  · rw [if_pos hrej, kfreeStop, if_pos hrej]
    rfl
  rw [if_neg hrej, kfreeStop, if_neg hrej]
  refine Stops.right (P := At p H) (Q := fun _ => On p H fun _ => True)
    (.modify fun m hm => ?_) (fun _ => ?_) m h
  · exact ⟨hm.of_cpu rfl, trivial⟩
  by_cases hkmem : Lock.kmem ∈ H
  · exact fun m hm => run_bind_error (acquire_stops hkmem m hm.1)
  refine .right ((acquire_spec hR .kmem).weaken fun e he => hkmem he.2) fun _ => ?_
  refine .right (Q := fun _ => At p (.kmem :: H)) (.modify fun m hm => hm.1.of_cpu rfl) fun _ => ?_
  exact (wakeup_stops hq (List.mem_cons_of_mem _ hheld) .kmem).left

/-- A list of pages is given back up to its first page. -/
theorem forM_kfree_locked {pa : Nat} {rest : List Nat} :
    (pa :: rest).forM kfree m = .error (kfreeStop m.img pa) :=
  run_bind_error (kfree_locked h hq hheld pa)

theorem freePagetable_locked {root pa : Nat} {rest : List Nat}
    (hpages : (m.space root).pages ++ [root] = pa :: rest) :
    freePagetable root m = .error (kfreeStop m.img pa) := by
  show ((m.space root).pages.forM kfree >>= fun _ => kfree root : K Unit) m = _
  cases hlist : (m.space root).pages with
  | nil =>
    rw [hlist] at hpages
    obtain rfl : root = pa := (List.cons.inj hpages).1
    exact kfree_locked h hq hheld root
  | cons pa' more =>
    rw [hlist] at hpages
    obtain rfl : pa' = pa := (List.cons.inj hpages).1
    exact run_bind_error (forM_kfree_locked h hq hheld)

end

/-- The slot after a `freeproc` that had nothing to give back. -/
def cleared (q : Slot) (m : Kernel) : Kernel :=
  (m.setProc q fun x => { x with trapframe := 0 }).setProc q fun _ => .unused

/-- **The outcome of `freeproc`.**  With the slot's lock held it returns only
when there is nothing to give back. -/
theorem freeproc_locked (h : At p H m) (hq : q ≠ p) (hheld : .proc q ∈ H) :
    freeproc q m =
      match m.owned q with
      | [] => .ok ((), cleared q m)
      | pa :: _ => .error (kfreeStop m.img pa) := by
  show (when ((m.world.table q).trapframe ≠ 0) (kfree (m.world.table q).trapframe) >>= fun _ =>
    modify (fun m => m.setProc q fun x => { x with trapframe := 0 }) >>= fun _ =>
    when ((m.world.table q).pagetable ≠ 0) (freePagetable (m.world.table q).pagetable) >>=
      fun _ => modify (fun m => m.setProc q fun _ => .unused) : K Unit) m = _
  simp only [Kernel.owned]
  by_cases htf : (m.world.table q).trapframe = 0
  · have hskip : when ((m.world.table q).trapframe ≠ 0) (kfree (m.world.table q).trapframe) m =
        .ok ((), m) := by
      rw [when, if_neg (not_not_intro htf)]
      rfl
    rw [if_pos htf, List.nil_append, run_bind_ok hskip]
    refine (run_bind_ok (a := ()) rfl).trans ?_
    by_cases hpt : (m.world.table q).pagetable = 0
    · rw [if_pos hpt, when, if_neg (not_not_intro hpt)]
      rfl
    rw [if_neg hpt, when, if_pos hpt]
    have hat : At p H (m.setProc q fun x => { x with trapframe := 0 }) := h.of_cpu rfl
    cases hlist : (m.space (m.world.table q).pagetable).pages ++ [(m.world.table q).pagetable] with
    | nil => exact absurd hlist (by simp)
    | cons pa rest => exact run_bind_error (freePagetable_locked hat hq hheld hlist)
  · rw [if_neg htf, when, if_pos htf]
    exact run_bind_error (kfree_locked h hq hheld _)

/-- What a caller of `freeproc(q)` runs into: a stop at the first page that is
given back, or a freed slot if there is none. -/
def FreeOutcome (m : Kernel) (q : Slot) (r : Except Stop (Unit × Kernel)) : Prop :=
  match m.owned q with
  | [] => ∃ m', r = .ok ((), m') ∧ m'.world.table q = .unused
  | pa :: _ => r = .error (kfreeStop m.img pa)

/-- `kwait` from `freeproc` on. -/
theorem reap_outcome (h : At p H m) (hq : q ≠ p) (hheld : .proc q ∈ H) (hwait : .wait ∈ H) :
    FreeOutcome m q (reap q m) := by
  have hfree := freeproc_locked h hq hheld
  unfold FreeOutcome
  cases howned : m.owned q with
  | cons pa rest =>
    rw [howned] at hfree
    exact run_bind_error hfree
  | nil =>
    rw [howned] at hfree
    have hat : At p H (cleared q m) := h.of_cpu rfl
    have hleft : Lock.wait ∈ H.erase (.proc q) := (List.mem_erase_of_ne (by simp)).mpr hwait
    have hrun : reap q m = .ok ((), released .wait (released (.proc q) (cleared q m))) := by
      rw [reap, run_bind_ok hfree, run_bind_ok (release_run hat hheld)]
      exact release_run (hat.released hheld) hleft
    exact ⟨_, hrun, Function.update_self ..⟩

/-- The lock of a slot this thread creates is free to take, and what the slot
owns is as the thread left it. -/
theorem owned_acquired (hbuild : m.building = some q) (l : Lock) :
    (acquired l m).owned q = m.owned q := by
  have hslot : ((acquired l m).world.table q).trapframe = (m.world.table q).trapframe ∧
      ((acquired l m).world.table q).pagetable = (m.world.table q).pagetable := by
    simp only [acquired, Kernel.interfere, Kernel.slotAfter, Cpu.push, hbuild, or_true, if_true]
    by_cases hheld : .proc q ∈ m.cpu.held
    · rw [if_pos hheld]
      exact ⟨rfl, rfl⟩
    · rw [if_neg hheld]
      exact ⟨rfl, rfl⟩
  have hspace : (acquired l m).space = m.space := rfl
  simp only [Kernel.owned, hslot, hspace]

/-- The failure paths of `allocproc` and `kfork`. -/
theorem giveUp_outcome (h : At p H m) (hq : q ≠ p) (hfree : .proc q ∉ H)
    (hbuild : m.building = some q) : FreeOutcome m q (giveUp q m) := by
  have hacquire : acquire (.proc q) m = .ok ((), acquired (.proc q) m) := by
    rw [acquire_run, h.held, if_neg hfree]
  have hat := h.acquired (.proc q)
  have hfreeproc := freeproc_locked hat hq List.mem_cons_self
  rw [owned_acquired hbuild] at hfreeproc
  unfold FreeOutcome
  rw [giveUp, run_bind_ok hacquire]
  cases howned : m.owned q with
  | cons pa rest =>
    rw [howned] at hfreeproc
    exact run_bind_error hfreeproc
  | nil =>
    rw [howned] at hfreeproc
    have hdrop := release_run (m := cleared q (acquired (.proc q) m)) (hat.of_cpu rfl)
      List.mem_cons_self
    exact ⟨_, (run_bind_ok hfreeproc).trans hdrop, Function.update_self ..⟩

end Thread

section Callers

open Thread

variable {s : LifeState} {m : Kernel} {t i : Slot} {path : K Unit}

theorem Represents.owned (hm : Represents m s t) (q : Slot) : m.owned q = (s.proc q).owned := by
  unfold Kernel.owned Proc.owned
  rw [hm.table]
  by_cases hpt : (s.proc q).pagetable = 0
  · simp only [hpt, if_true]
  · simp only [hpt, if_false, hm.pages q hpt]

/-- The paths that call `freeproc(pp)` with `pp->lock` held, and the slot they
free: `kwait` at a zombie child, and the failure paths of `allocproc` and
`kfork`. -/
def freeing : Pc → Option (Slot × K Unit)
  | .waitFound i => some (i, reap i)
  | .fail np _ => some (np, giveUp np)
  | _ => none

/-- The outcome of these paths in a reachable process table. -/
theorem freeing_outcome (hreach : Reachable lifeSystem s)
    (hpath : freeing (s.pc t) = some (i, path)) (hm : Represents m s t) :
    FreeOutcome m i (path m) := by
  have hc := control_of_reachable hreach
  cases hpc : s.pc t with
  | waitFound pp =>
    rw [hpc] at hpath
    obtain ⟨rfl, rfl⟩ := Prod.mk.inj (Option.some.inj hpath)
    have hzombie := (hc.found t pp hpc).1
    have hwait := (hc.waitLock t).mpr (by rw [hpc]; rfl)
    have hlock := (hc.slotLock t pp).mpr (by rw [hpc]; rfl)
    have hrun := hc.waitRun t (by rw [hpc]; rfl)
    have hne : pp ≠ t := by
      rintro rfl
      rw [hzombie] at hrun
      cases hrun
    exact reap_outcome hm.at hne ((hm.held _).mpr (.inl ⟨pp, rfl, hlock⟩))
      ((hm.held _).mpr (.inr ⟨rfl, hwait⟩))
  | fail np caller =>
    rw [hpc] at hpath
    obtain ⟨rfl, rfl⟩ := Prod.mk.inj (Option.some.inj hpath)
    have hused := hc.used t np (by rw [hpc]; rfl)
    have hne : np ≠ t := by
      rintro rfl
      have hidle := hc.idle np (by rw [hused]; rfl)
      rw [hpc] at hidle
      cases hidle
    have hfree : Lock.proc np ∉ m.cpu.held := by
      intro hheld
      rcases (hm.held _).mp hheld with ⟨q, hq, hlock⟩ | ⟨hwait, -⟩
      · rw [hc.slotLock, hpc] at hlock
        cases hlock
      · cases hwait
    exact giveUp_outcome hm.at hne hfree (by rw [hm.building, hpc]; rfl)
  | _ =>
    rw [hpc] at hpath
    cases hpath

/-- **When the lock is taken twice.**  In every reachable process table, and
whatever the other CPUs do meanwhile, a path that frees a slot under its lock
reaches `panic("acquire")` exactly when the slot owns a page (and the first one
is no page that `kfree` refuses).  If the slot owns none the path returns and
the slot is free. -/
theorem acquire_panic_iff (hreach : Reachable lifeSystem s)
    (hpath : freeing (s.pc t) = some (i, path)) (hm : Represents m s t) :
    (path m ≠ .error .acquire ↔
      ∀ pa, (s.proc i).owned.head? = some pa → kfreeRejects m.img pa = true) ∧
    ((s.proc i).owned = [] → ∃ m', path m = .ok ((), m') ∧ m'.world.table i = .unused) := by
  have hout := freeing_outcome hreach hpath hm
  unfold FreeOutcome at hout
  rw [hm.owned i] at hout
  cases howned : (s.proc i).owned with
  | nil =>
    rw [howned] at hout
    obtain ⟨m', hrun, htable⟩ := hout
    refine ⟨?_, fun _ => ⟨m', hrun, htable⟩⟩
    rw [hrun]
    simp
  | cons pa rest =>
    rw [howned] at hout
    refine ⟨?_, fun hnil => by cases hnil⟩
    rw [hout, kfreeStop]
    by_cases hrej : kfreeRejects m.img pa = true
    · rw [if_pos hrej]
      simp [hrej]
    · rw [if_neg hrej]
      simp [hrej]

/-- The child of the first process has exited. -/
def exitedState : LifeState :=
  let started := (forkedState.setProc 1 fun q => { q with state := .RUNNING }).goto 1
    (.exitStart 0)
  let scanning : LifeState := { started.goto 1 (.exitScan 0 0) with waitLock := some 1 }
  let woken := ((scanning.goto 1 (.exitScan 0 NPROC)).wakeup 1 (.proc 0)).goto 1 (.exitZombie 0)
  { (woken.setProc 1 fun q => { q with xstate := 0, state := .ZOMBIE }).goto 1 .run with
    waitLock := none
    exits := woken.exitRecord 1 0 :: woken.exits }

/-- The first process has called `wait` and found the child. -/
def zombieState : LifeState :=
  let started : LifeState :=
    { (exitedState.goto 0 .waitStart).goto 0 (.waitScan 0 false) with waitLock := some 0 }
  ((started.goto 0 (.waitScan 1 false)).setPlock 1 (some 0)).goto 0 (.waitFound 1)

theorem exitedState_reachable : Reachable lifeSystem exitedState := by
  have hstart := Reachable.next (Reachable.next (Reachable.next forkedState_reachable
    (.dispatch (p := 1) rfl rfl))
    (.move (t := 1) rfl rfl (@Move.callExit _ 1 0 (by decide))))
    (.exitLock (t := 1) rfl rfl rfl)
  have hscan := reachable_scan (t := 1) (fun j => .exitScan 0 j) hstart rfl (i := 0) rfl
    (by decide) fun s' j hproc _ => .exitSkip (by rw [hproc]; revert j; decide)
  exact .next (.next hscan
    (.exitWake (t := 1) rfl rfl rfl))
    (.exitZombie (t := 1) rfl rfl rfl)

theorem zombieState_reachable : Reachable lifeSystem zombieState :=
  Reachable.next (.next (.next (.next exitedState_reachable
    (.move (t := 0) rfl rfl .callWait))
    (.waitLock (t := 0) rfl rfl rfl))
    (.move (t := 0) rfl rfl (.waitSkip (i := 0) (by decide))))
    (.waitFound (t := 0) (i := 1) rfl rfl rfl rfl rfl)

/-- Memory in that state, with nobody else running. -/
def zombieWorld : World where
  kmem := zombieState.kmem
  table := zombieState.proc
  nextpid := zombieState.nextpid
  pipe := { nread := 0, nwrite := 0, readopen := false, writeopen := false }
  cons := { buf := fun _ => 0, r := 0, w := 0 }

/-- The CPU of the first process in that state. -/
def reapingKernel : Kernel where
  cpu := { held := [.proc 1, .wait], noff := 2, intr := false, intena := true, proc := some 0 }
  world := zombieWorld
  space := fun root =>
    { AddressSpace.empty with
      pages := if root = PHYSTOP - 4 * PGSIZE then
        [PHYSTOP - 6 * PGSIZE, PHYSTOP - 5 * PGSIZE] else [] }
  building := none
  others := fun _ => zombieWorld
  clock := 0
  rounds := 0
  img := ⟨KERNBASE, Nat.le_refl _⟩
  trampoline := KERNBASE

theorem reapingKernel_represents : Represents reapingKernel zombieState 0 where
  proc := rfl
  held := by
    have hplock : ∀ q, zombieState.plock q = some 0 ↔ q = 1 := by decide
    intro l
    simp only [reapingKernel, hplock, exists_eq_right, List.mem_cons, List.not_mem_nil, or_false]
    exact or_congr_right ⟨fun h => ⟨h, rfl⟩, fun h => h.1⟩
  noff := rfl
  intr := fun _ => rfl
  table := rfl
  kmem := rfl
  pages := by decide
  building := rfl

/-- The zombie's trapframe is the first page that `freeproc` gives back. -/
theorem zombieState_owned : (zombieState.proc 1).owned.head? = some (PHYSTOP - 3 * PGSIZE) := rfl

/-- **A reap panics.**  The first process forked a child, the child exited, and
the first process reaps it. -/
theorem reap_zombie_panics :
    Reachable lifeSystem zombieState ∧ Represents reapingKernel zombieState 0 ∧
    freeing (zombieState.pc 0) = some (1, reap 1) ∧
    reap 1 reapingKernel = .error .acquire := by
  refine ⟨zombieState_reachable, reapingKernel_represents, rfl, ?_⟩
  exact freeing_outcome zombieState_reachable (t := 0) rfl reapingKernel_represents

/-- There the slot that is freed owns a page. -/
theorem acquire_panic_iff_zombie :
    kfreeRejects reapingKernel.img (PHYSTOP - 3 * PGSIZE) = false ∧
    reap 1 reapingKernel = .error .acquire := by
  have hpage : kfreeRejects reapingKernel.img (PHYSTOP - 3 * PGSIZE) = false := by decide
  refine ⟨hpage, ?_⟩
  obtain ⟨hiff, -⟩ := acquire_panic_iff (t := 0) (i := 1) zombieState_reachable rfl
    reapingKernel_represents
  by_contra hne
  have hrej := hiff.mp hne _ zombieState_owned
  rw [hpage] at hrej
  cases hrej

end Callers

end Kus
