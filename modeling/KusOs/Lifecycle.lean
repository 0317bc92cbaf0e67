import KusOs.Kmem
import KusOs.Proc
import KusOs.TransitionSystem

/-!
# The life of a process

`allocproc`, `kfork`, `kexit`, `kwait`, `kkill`, `kalloc`'s stall and the
scheduler as one transition system over the process table.  A step is a
critical section of the source; where a function drops a lock in its middle
(`allocproc` before `kalloc`, `kfork` before `uvmcopy`) there is a step
boundary, and the two long sections under `wait_lock` (`kwait`'s scan, `kexit`
from `reparent` on) are taken slot by slot, with `wait_lock` in the state.

Every process has a position `Pc` in the kernel; a step of a thread needs its
process to be `RUNNING`.  The position of a slot without a live process is where
its next process will start: `kexit` leaves it at `run`, which is also what
`allocproc` sets the new context to.  Steps of the scheduler and of interrupt handlers
carry no thread.  A process slot's lock is in the state where the source keeps
it across a step boundary: from `allocproc`'s return to `kfork`'s `release`, and
in `kwait` between finding a zombie and reaping it.  That `freeproc` calls
`kfree`, hence `wakeup`, with a slot's lock held is not a matter of this file:
here `freeproc` is one step.

The pages of a page table are a list; which of them are interior tables is not
tracked.  The last four fields of `LifeState` are history the kernel does not
keep: pids issued, the incarnation each slot holds, exits and reaps.
-/

namespace Kus

open Transition

/-- `struct proc` without its lock, its kernel stack and its open files. -/
structure Proc where
  state : ProcState
  chan : Chan
  killed : Bool
  xstate : Int
  pid : Int
  parent : Option Slot
  sz : Nat
  trapframe : Nat
  pagetable : Nat
  /-- the pages reachable from the root `pagetable`, the root apart -/
  pages : List Nat
deriving DecidableEq

/-- A zeroed slot, as in the kernel's BSS. -/
@[simp]
def Proc.unused : Proc where
  state := .UNUSED
  chan := .null
  killed := false
  xstate := 0
  pid := 0
  parent := none
  sz := 0
  trapframe := 0
  pagetable := 0
  pages := []

/-- The loop body of `wakeup(chan)` at one slot. -/
@[simp]
def Proc.wake (chan : Chan) (q : Proc) : Proc :=
  { q with state := if q.state = .SLEEPING ∧ q.chan = chan then .RUNNABLE else q.state }

/-- The loop body of `kkill` at the slot whose pid matched. -/
@[simp]
def Proc.kill (q : Proc) : Proc :=
  { q with killed := true, state := if q.state = .SLEEPING then .RUNNABLE else q.state }

/-- The pages `freeproc` gives back: the trapframe if there is one, and the
page table with everything below it if there is one. -/
def Proc.owned (q : Proc) : List Nat :=
  (if q.trapframe = 0 then [] else [q.trapframe]) ++
    if q.pagetable = 0 then [] else q.pages ++ [q.pagetable]

/-- Which call of `kalloc` a thread is in. -/
inductive Site
  /-- the trapframe page in `allocproc` -/
  | trapframe (np : Slot)
  /-- `uvmcreate` in `proc_pagetable` -/
  | root (np : Slot)
  /-- the middle table for the trampoline, in `proc_pagetable` -/
  | mid (np : Slot) (pt2 : Nat)
  /-- the last-level table for the trampoline, in `proc_pagetable` -/
  | leaf (np : Slot) (pt2 pt1 : Nat)
  /-- `uvmcopy`, for the child's memory or its page table -/
  | copy (np : Slot)
  /-- the process's own memory (`growproc`, `vmfault`, `kexec`, ...) -/
  | own
deriving DecidableEq

/-- The slot under construction, if the call is part of creating one. -/
def Site.creates : Site → Option Slot
  | .trapframe np | .root np | .mid np _ | .leaf np _ _ | .copy np => some np
  | .own => none

/-- Which caller's failure path runs `freeproc`. -/
inductive FreeCaller
  | allocproc | kfork
deriving DecidableEq

/-- Where a thread stands in the kernel. -/
inductive Pc
  /-- user mode, or kernel code outside the functions modelled here -/
  | run
  /-- `sleep` on a channel of other code -/
  | asleep
  /-- `allocproc`'s scan for an `UNUSED` slot, next slot `i` -/
  | scan (i : Nat)
  /-- about to call `kalloc` -/
  | kalloc (site : Site)
  /-- inside `kalloc`'s `sleep(&kmem, &kmem.lock)` -/
  | stalled (site : Site)
  /-- `proc_pagetable` has all its pages -/
  | tableDone (np : Slot) (pt2 pt1 pt0 : Nat)
  /-- `proc_pagetable` gives back what it has -/
  | dropTable (np : Slot) (got : List Nat)
  /-- `allocproc` before its last `acquire(&p->lock)` -/
  | lockNew (np : Slot)
  /-- `allocproc` has returned to `kfork` -/
  | allocReturn (r : Option Slot)
  /-- in `uvmcopy` -/
  | copy (np : Slot)
  /-- `uvmcopy`'s error path -/
  | copyUndo (np : Slot)
  /-- before `freeproc` on a failure path -/
  | fail (np : Slot) (caller : FreeCaller)
  /-- `kfork` before `np->sz = p->sz` -/
  | forkSz (np : Slot)
  /-- `kfork` before copying registers, files and name -/
  | forkRegs (np : Slot)
  /-- `kfork` before `np->parent = p` -/
  | forkParent (np : Slot)
  /-- `kfork` before `np->state = RUNNABLE` -/
  | forkRunnable (np : Slot)
  /-- `kexit` before `acquire(&wait_lock)` -/
  | exitStart (status : Int)
  /-- `reparent`, next slot `i` -/
  | exitScan (status : Int) (i : Nat)
  /-- `kexit` after `wakeup(p->parent)` -/
  | exitZombie (status : Int)
  /-- `kwait` before `acquire(&wait_lock)` -/
  | waitStart
  /-- `kwait`'s scan, next slot `i` -/
  | waitScan (i : Nat) (havekids : Bool)
  /-- `kwait` with a zombie child's lock held -/
  | waitFound (i : Slot)
  /-- `kwait` before `sleep(p, &wait_lock)` -/
  | waitGo
  /-- inside that `sleep` -/
  | waitAsleep
  /-- `kkill(pid)`, next slot `i` -/
  | killScan (pid : Int) (i : Nat)
deriving DecidableEq

/-- The slot a thread is in the middle of creating. -/
def Pc.creates : Pc → Option Slot
  | .kalloc site | .stalled site => site.creates
  | .allocReturn r => r
  | .tableDone np _ _ _ | .dropTable np _ | .lockNew np | .copy np | .copyUndo np | .fail np _
  | .forkSz np | .forkRegs np | .forkParent np | .forkRunnable np => some np
  | _ => none

/-- Where a thread goes on when `kalloc` has returned the page `r`. -/
def Site.next (r : Nat) : Site → Pc
  | .trapframe np => .kalloc (.root np)
  | .root np => .kalloc (.mid np r)
  | .mid np pt2 => .kalloc (.leaf np pt2 r)
  | .leaf np pt2 pt1 => .tableDone np pt2 pt1 r
  | .copy np => .copy np
  | .own => .run

/-- Where it goes on when `kalloc` has returned 0.  `proc_pagetable` first
gives back what it has, and so does `uvmcopy`. -/
def Site.failed : Site → Pc
  | .trapframe np => .fail np .allocproc
  | .root np => .fail np .allocproc
  | .mid np pt2 => .dropTable np [pt2]
  | .leaf np pt2 pt1 => .dropTable np [pt1, pt2]
  | .copy np => .copyUndo np
  | .own => .run

/-- The field of a slot that receives the page `r`, if any. -/
@[simp]
def Site.store (site : Site) (r : Nat) (q : Proc) : Proc :=
  { q with
    trapframe := match site with
      | .trapframe _ => r
      | _ => q.trapframe
    pages := match site with
      | .copy _ | .own => r :: q.pages
      | _ => q.pages }

/-- Only `allocproc` stores the null pointer it got. -/
@[simp]
def Site.storeNull (site : Site) (q : Proc) : Proc :=
  { q with
    trapframe := match site with
      | .trapframe _ => 0
      | _ => q.trapframe }

/-- The positions at which a thread holds `wait_lock`. -/
def Pc.holdsWait : Pc → Bool
  | .exitScan _ _ | .exitZombie _ | .waitScan _ _ | .waitFound _ | .waitGo => true
  | _ => false

/-- The slot whose lock a thread holds across a step boundary. -/
def Pc.holdsSlot : Pc → Option Slot
  | .allocReturn r => r
  | .waitFound i => some i
  | _ => none

/-- An exit, recorded when the process becomes a zombie. -/
structure Exit where
  inc : Nat
  slot : Slot
  pid : Int
  status : Int
  parent : Option Slot
deriving DecidableEq

/-- What a successful `kwait` handed out, and to whom. -/
structure Reap where
  inc : Nat
  pid : Int
  status : Int
  caller : Slot
deriving DecidableEq

/-- The process table with its locks, the allocator, and every thread. -/
structure LifeState where
  kmem : Kmem
  nextpid : Int
  initproc : Slot
  waitLock : Option Slot
  plock : Slot → Option Slot
  proc : Slot → Proc
  pc : Slot → Pc
  issued : List Int
  births : Nat
  inc : Slot → Nat
  exits : List Exit
  reaps : List Reap

section Updates

/-- Move the thread of `t` to `k`. -/
@[simp]
def LifeState.goto (s : LifeState) (t : Slot) (k : Pc) : LifeState :=
  { s with pc := fun q => if q = t then k else s.pc q }

/-- Change the slot `p`. -/
@[simp]
def LifeState.setProc (s : LifeState) (p : Slot) (f : Proc → Proc) : LifeState :=
  { s with proc := fun q => if q = p then f (s.proc q) else s.proc q }

/-- Hold or drop `p->lock`. -/
@[simp]
def LifeState.setPlock (s : LifeState) (p : Slot) (o : Option Slot) : LifeState :=
  { s with plock := fun q => if q = p then o else s.plock q }

/-- `wakeup(chan)` called by the process `t`. -/
@[simp]
def LifeState.wakeup (s : LifeState) (t : Slot) (chan : Chan) : LifeState :=
  { s with proc := fun q => if q = t then s.proc q else (s.proc q).wake chan }

/-- `kfree(pa)` called by the process `t`. -/
@[simp]
def LifeState.kfree (s : LifeState) (t : Slot) (pa : Nat) : LifeState :=
  { s.wakeup t .kmem with kmem := s.kmem.push pa }

/-- `freeproc(p)` called by the process `t`. -/
def LifeState.freeproc (s : LifeState) (t p : Slot) : LifeState :=
  ((s.proc p).owned.foldl (fun s pa => s.kfree t pa) s).setProc p fun _ => .unused

theorem Proc.wake_wake (q : Proc) (chan : Chan) : (q.wake chan).wake chan = q.wake chan := by
  by_cases h : q.state = .SLEEPING ∧ q.chan = chan <;> simp [Proc.wake, h]

/-- Any number of `kfree`s wake the sleepers once. -/
theorem LifeState.foldl_kfree (s : LifeState) (t : Slot) (l : List Nat) :
    l.foldl (fun s pa => s.kfree t pa) s =
      { s with
        kmem := l.foldl Kmem.push s.kmem
        proc := fun q => if q = t ∨ l = [] then s.proc q else (s.proc q).wake .kmem } := by
  induction l generalizing s with
  | nil => simp
  | cons pa l ih =>
    rw [List.foldl_cons, ih]
    have hproc : ∀ q, (if q = t ∨ l = [] then (s.kfree t pa).proc q
        else ((s.kfree t pa).proc q).wake .kmem) =
        if q = t then s.proc q else (s.proc q).wake .kmem := by
      intro q
      by_cases hq : q = t
      · simp [hq]
      · by_cases hl : l = [] <;> simp only [hq, hl, LifeState.kfree, LifeState.wakeup, if_neg,
          if_pos, false_or, not_false_eq_true, Proc.wake_wake]
    simp only [hproc, List.foldl_cons, reduceCtorEq, or_false]
    simp

/-- The slots after `freeproc`: the freed one is zeroed, and if a page was
given back, the others have seen `wakeup(&kmem)`. -/
@[simp]
theorem LifeState.freeproc_eq (s : LifeState) (t p : Slot) :
    s.freeproc t p =
      { s with
        kmem := (s.proc p).owned.foldl Kmem.push s.kmem
        proc := fun q => if q = p then .unused
          else if q = t ∨ (s.proc p).owned = [] then s.proc q else (s.proc q).wake .kmem } := by
  rw [LifeState.freeproc, LifeState.foldl_kfree]
  rfl

/-- `kalloc` returned the page `r` to the thread `t`. -/
@[simp]
def LifeState.deliver (s : LifeState) (t : Slot) (site : Site) (r : Nat) : LifeState :=
  (({ s with kmem := s.kmem.pop }).setProc (site.creates.getD t) (site.store r)).goto t
    (site.next r)

/-- `kalloc` returned 0 to the thread `t`. -/
@[simp]
def LifeState.refuse (s : LifeState) (t : Slot) (site : Site) : LifeState :=
  (s.setProc (site.creates.getD t) site.storeNull).goto t site.failed

/-- `sleep(chan, lk)` up to the switch away. -/
@[simp]
def LifeState.sleep (s : LifeState) (t : Slot) (chan : Chan) : LifeState :=
  s.setProc t fun q => { q with chan := chan, state := .SLEEPING }

/-- The record of the exit of `t`. -/
def LifeState.exitRecord (s : LifeState) (t : Slot) (status : Int) : Exit where
  inc := s.inc t
  slot := t
  pid := (s.proc t).pid
  status := status
  parent := (s.proc t).parent

/-- The record of `t` reaping the zombie `i`. -/
def LifeState.reapRecord (s : LifeState) (t i : Slot) : Reap where
  inc := s.inc i
  pid := (s.proc i).pid
  status := (s.proc i).xstate
  caller := t

end Updates

/-- What a step of the system was. -/
inductive LifeEvent
  | move
  | ownKfree | ownSz | ownExec | ownKilled | ownSleep | ownWoken
  | allocFound (np : Slot) (pid : Int)
  | kallocTake | kallocStall | kallocKilled | kallocWoken | kallocRetry
  | tableDone | dropTable | lockNew | copyUndo
  | freeproc (np : Slot)
  | forkRelease | forkSz | forkParent | forkRunnable
  | exitLock | exitAdopt | exitWake | exitZombie (status : Int)
  | waitLock | waitFound
  | waitCopyFail (i : Slot)
  | waitReap (i : Slot) (pid status : Int)
  | waitNone (havekids : Bool)
  | waitSleep | waitWoken
  | killHit (i : Slot)
  | dispatch | preempt | wakeOther | updatePsi
deriving DecidableEq

/-- The steps of a thread that only move it on: calls, tests, and reads of a
slot under its lock that find nothing to do. -/
inductive Move (s : LifeState) (t : Slot) : Pc → Pc → Prop
  | callKalloc : Move s t .run (.kalloc .own)
  | callFork : Move s t .run (.scan 0)
  | callExit {status} (hinit : t ≠ s.initproc) : Move s t .run (.exitStart status)
  | callWait : Move s t .run .waitStart
  | callKill {pid} : Move s t .run (.killScan pid 0)
  | allocMiss {i : Slot} (hlock : s.plock i = none) (hstate : (s.proc i).state ≠ .UNUSED) :
      Move s t (.scan i) (.scan (i + 1))
  | allocNone : Move s t (.scan NPROC) (.allocReturn none)
  | forkNone : Move s t (.allocReturn none) .run
  | dropDone {np} : Move s t (.dropTable np []) (.fail np .allocproc)
  | copyMore {np} : Move s t (.copy np) (.kalloc (.copy np))
  | copyDone {np} : Move s t (.copy np) (.forkSz np)
  | undoDone {np} : Move s t (.copyUndo np) (.fail np .kfork)
  | forkRegs {np} (hlock : s.plock np = none) : Move s t (.forkRegs np) (.forkParent np)
  | exitSkip {status} {i : Slot} (hparent : (s.proc i).parent ≠ some t) :
      Move s t (.exitScan status i) (.exitScan status (i + 1))
  | waitSkip {i : Slot} {havekids} (hparent : (s.proc i).parent ≠ some t) :
      Move s t (.waitScan i havekids) (.waitScan (i + 1) havekids)
  | waitChild {i : Slot} {havekids} (hparent : (s.proc i).parent = some t)
      (hlock : s.plock i = none) (hstate : (s.proc i).state ≠ .ZOMBIE) :
      Move s t (.waitScan i havekids) (.waitScan (i + 1) true)
  | waitGo (hkilled : (s.proc t).killed = false) : Move s t (.waitScan NPROC true) .waitGo
  | killMiss {pid} {i : Slot} (hlock : s.plock i = none) (hpid : (s.proc i).pid ≠ pid) :
      Move s t (.killScan pid i) (.killScan pid (i + 1))
  | killNone {pid} : Move s t (.killScan pid NPROC) .run

/-- One step: of the thread of a process, or (`none`) of the scheduler or an
interrupt handler. -/
inductive LifeStep : LifeState → LifeEvent × Option Slot → LifeState → Prop
  | move {s t k k'} (hrun : (s.proc t).state = .RUNNING) (hpc : s.pc t = k)
      (hmove : Move s t k k') : LifeStep s (.move, some t) (s.goto t k')
  -- the process's own memory, flags and sleeps
  | ownKfree {s t pa} (hrun : (s.proc t).state = .RUNNING) (hpc : s.pc t = .run)
      (hpa : pa ∈ (s.proc t).pages) :
      LifeStep s (.ownKfree, some t)
        ((s.kfree t pa).setProc t fun q => { q with pages := q.pages.erase pa })
  | ownSz {s t sz} (hrun : (s.proc t).state = .RUNNING) (hpc : s.pc t = .run) :
      LifeStep s (.ownSz, some t) (s.setProc t fun q => { q with sz := sz })
  | ownExec {s t root sz} (hrun : (s.proc t).state = .RUNNING) (hpc : s.pc t = .run)
      (hroot : root ∈ (s.proc t).pages) (hne : root ≠ 0) :
      LifeStep s (.ownExec, some t)
        (s.setProc t fun q =>
          { q with pagetable := root, pages := q.pagetable :: q.pages.erase root, sz := sz })
  | ownKilled {s t} (hrun : (s.proc t).state = .RUNNING) (hpc : s.pc t = .run) :
      LifeStep s (.ownKilled, some t) (s.setProc t fun q => { q with killed := true })
  | ownSleep {s t addr} (hrun : (s.proc t).state = .RUNNING) (hpc : s.pc t = .run)
      (hlock : s.plock t = none) :
      LifeStep s (.ownSleep, some t) ((s.sleep t (.other addr)).goto t .asleep)
  | ownWoken {s t} (hrun : (s.proc t).state = .RUNNING) (hpc : s.pc t = .asleep) :
      LifeStep s (.ownWoken, some t)
        ((s.setProc t fun q => { q with chan := .null }).goto t .run)
  -- allocproc
  | allocFound {s t} {i : Slot} (hrun : (s.proc t).state = .RUNNING) (hpc : s.pc t = .scan i)
      (hlock : s.plock i = none) (hstate : (s.proc i).state = .UNUSED) :
      LifeStep s (.allocFound i s.nextpid, some t)
        { (s.setProc i fun q => { q with pid := s.nextpid, state := .USED }).goto t
            (.kalloc (.trapframe i)) with
          nextpid := Int.bmod (s.nextpid + 1) (2 ^ 32)
          issued := s.nextpid :: s.issued
          births := s.births + 1
          inc := Function.update s.inc i s.births }
  -- kalloc
  | kallocTake {s t site r} (hrun : (s.proc t).state = .RUNNING) (hpc : s.pc t = .kalloc site)
      (hout : kallocEnter true s.kmem = .page r) :
      LifeStep s (.kallocTake, some t) (s.deliver t site r)
  | kallocStall {s t site} (hrun : (s.proc t).state = .RUNNING) (hpc : s.pc t = .kalloc site)
      (hout : kallocEnter true s.kmem = .stall) (hlock : s.plock t = none) :
      LifeStep s (.kallocStall, some t) ((s.sleep t .kmem).goto t (.stalled site))
  | kallocKilled {s t site} (hrun : (s.proc t).state = .RUNNING) (hpc : s.pc t = .stalled site)
      (hout : kallocResume (s.proc t).killed s.kmem = .null) :
      LifeStep s (.kallocKilled, some t)
        ((s.setProc t fun q => { q with chan := .null }).refuse t site)
  | kallocWoken {s t site r} (hrun : (s.proc t).state = .RUNNING) (hpc : s.pc t = .stalled site)
      (hout : kallocResume (s.proc t).killed s.kmem = .page r) :
      LifeStep s (.kallocWoken, some t)
        ((s.setProc t fun q => { q with chan := .null }).deliver t site r)
  | kallocRetry {s t site} (hrun : (s.proc t).state = .RUNNING) (hpc : s.pc t = .stalled site)
      (hout : kallocResume (s.proc t).killed s.kmem = .stall) (hlock : s.plock t = none) :
      LifeStep s (.kallocRetry, some t) (s.sleep t .kmem)
  -- the rest of allocproc
  | tableDone {s t np pt2 pt1 pt0} (hrun : (s.proc t).state = .RUNNING)
      (hpc : s.pc t = .tableDone np pt2 pt1 pt0) :
      LifeStep s (.tableDone, some t)
        ((s.setProc np fun q => { q with pagetable := pt2, pages := [pt0, pt1] }).goto t
          (.lockNew np))
  | dropTable {s t np pa got} (hrun : (s.proc t).state = .RUNNING)
      (hpc : s.pc t = .dropTable np (pa :: got)) :
      LifeStep s (.dropTable, some t) ((s.kfree t pa).goto t (.dropTable np got))
  | lockNew {s t np} (hrun : (s.proc t).state = .RUNNING) (hpc : s.pc t = .lockNew np)
      (hlock : s.plock np = none) :
      LifeStep s (.lockNew, some t)
        ((s.setPlock np (some t)).goto t (.allocReturn (some np)))
  | allocFree {s t np} (hrun : (s.proc t).state = .RUNNING) (hpc : s.pc t = .fail np .allocproc)
      (hlock : s.plock np = none) :
      LifeStep s (.freeproc np, some t) ((s.freeproc t np).goto t (.allocReturn none))
  -- kfork
  | forkRelease {s t np} (hrun : (s.proc t).state = .RUNNING)
      (hpc : s.pc t = .allocReturn (some np)) :
      LifeStep s (.forkRelease, some t) ((s.setPlock np none).goto t (.copy np))
  | copyUndo {s t np pa} (hrun : (s.proc t).state = .RUNNING) (hpc : s.pc t = .copyUndo np)
      (hpa : pa ∈ (s.proc np).pages) :
      LifeStep s (.copyUndo, some t)
        ((s.kfree t pa).setProc np fun q => { q with pages := q.pages.erase pa })
  | forkFree {s t np} (hrun : (s.proc t).state = .RUNNING) (hpc : s.pc t = .fail np .kfork)
      (hlock : s.plock np = none) :
      LifeStep s (.freeproc np, some t) ((s.freeproc t np).goto t .run)
  | forkSz {s t np} (hrun : (s.proc t).state = .RUNNING) (hpc : s.pc t = .forkSz np) :
      LifeStep s (.forkSz, some t)
        ((s.setProc np fun q => { q with sz := (s.proc t).sz }).goto t (.forkRegs np))
  | forkParent {s t np} (hrun : (s.proc t).state = .RUNNING) (hpc : s.pc t = .forkParent np)
      (hlock : s.waitLock = none) :
      LifeStep s (.forkParent, some t)
        ((s.setProc np fun q => { q with parent := some t }).goto t (.forkRunnable np))
  | forkRunnable {s t np} (hrun : (s.proc t).state = .RUNNING) (hpc : s.pc t = .forkRunnable np)
      (hlock : s.plock np = none) :
      LifeStep s (.forkRunnable, some t)
        ((s.setProc np fun q => { q with state := .RUNNABLE }).goto t .run)
  -- kexit
  | exitLock {s t status} (hrun : (s.proc t).state = .RUNNING) (hpc : s.pc t = .exitStart status)
      (hlock : s.waitLock = none) :
      LifeStep s (.exitLock, some t)
        { s.goto t (.exitScan status 0) with waitLock := some t }
  | exitAdopt {s t status} {i : Slot} (hrun : (s.proc t).state = .RUNNING)
      (hpc : s.pc t = .exitScan status i) (hparent : (s.proc i).parent = some t) :
      LifeStep s (.exitAdopt, some t)
        (((s.setProc i fun q => { q with parent := some s.initproc }).wakeup t
          (.proc s.initproc)).goto t (.exitScan status (i + 1)))
  | exitWake {s t status chan} (hrun : (s.proc t).state = .RUNNING)
      (hpc : s.pc t = .exitScan status NPROC)
      (hchan : chan = (s.proc t).parent.elim .null .proc) :
      LifeStep s (.exitWake, some t) ((s.wakeup t chan).goto t (.exitZombie status))
  | exitZombie {s t status} (hrun : (s.proc t).state = .RUNNING)
      (hpc : s.pc t = .exitZombie status) (hlock : s.plock t = none) :
      LifeStep s (.exitZombie status, some t)
        { (s.setProc t fun q => { q with xstate := status, state := .ZOMBIE }).goto t .run with
          waitLock := none
          exits := s.exitRecord t status :: s.exits }
  -- kwait
  | waitLock {s t} (hrun : (s.proc t).state = .RUNNING) (hpc : s.pc t = .waitStart)
      (hlock : s.waitLock = none) :
      LifeStep s (.waitLock, some t) { s.goto t (.waitScan 0 false) with waitLock := some t }
  | waitFound {s t havekids} {i : Slot} (hrun : (s.proc t).state = .RUNNING)
      (hpc : s.pc t = .waitScan i havekids) (hparent : (s.proc i).parent = some t)
      (hlock : s.plock i = none) (hstate : (s.proc i).state = .ZOMBIE) :
      LifeStep s (.waitFound, some t) ((s.setPlock i (some t)).goto t (.waitFound i))
  | waitCopyFail {s t i} (hrun : (s.proc t).state = .RUNNING) (hpc : s.pc t = .waitFound i) :
      LifeStep s (.waitCopyFail i, some t)
        { (s.setPlock i none).goto t .run with waitLock := none }
  | waitReap {s t i} (hrun : (s.proc t).state = .RUNNING) (hpc : s.pc t = .waitFound i) :
      LifeStep s (.waitReap i (s.proc i).pid (s.proc i).xstate, some t)
        { ((s.freeproc t i).setPlock i none).goto t .run with
          waitLock := none
          reaps := s.reapRecord t i :: s.reaps }
  | waitNone {s t havekids} (hrun : (s.proc t).state = .RUNNING)
      (hpc : s.pc t = .waitScan NPROC havekids)
      (hnone : havekids = false ∨ (s.proc t).killed = true) :
      LifeStep s (.waitNone havekids, some t) { s.goto t .run with waitLock := none }
  | waitSleep {s t} (hrun : (s.proc t).state = .RUNNING) (hpc : s.pc t = .waitGo)
      (hlock : s.plock t = none) :
      LifeStep s (.waitSleep, some t)
        { (s.sleep t (.proc t)).goto t .waitAsleep with waitLock := none }
  | waitWoken {s t} (hrun : (s.proc t).state = .RUNNING) (hpc : s.pc t = .waitAsleep) :
      LifeStep s (.waitWoken, some t)
        ((s.setProc t fun q => { q with chan := .null }).goto t .waitStart)
  -- kkill
  | killHit {s t pid} {i : Slot} (hrun : (s.proc t).state = .RUNNING)
      (hpc : s.pc t = .killScan pid i) (hlock : s.plock i = none)
      (hpid : (s.proc i).pid = pid) :
      LifeStep s (.killHit i, some t) ((s.setProc i Proc.kill).goto t .run)
  -- the scheduler, the timer and device interrupts
  | dispatch {s p} (hstate : (s.proc p).state = .RUNNABLE) (hlock : s.plock p = none) :
      LifeStep s (.dispatch, none) (s.setProc p fun q => { q with state := .RUNNING })
  | preempt {s t} (hrun : (s.proc t).state = .RUNNING) (hlock : s.plock t = none)
      (hwait : (s.pc t).holdsWait = false) (hslot : (s.pc t).holdsSlot = none) :
      LifeStep s (.preempt, some t) (s.setProc t fun q => { q with state := .RUNNABLE })
  | wakeOther {s addr} :
      LifeStep s (.wakeOther, none) { s with proc := fun q => (s.proc q).wake (.other addr) }
  | updatePsi {s} : LifeStep s (.updatePsi, none) s

/-- The system from the moment `userinit` has made the first process runnable:
every other slot is zeroed. -/
def lifeSystem : System LifeState (LifeEvent × Option Slot) where
  init s := s.nextpid = 2 ∧ s.waitLock = none ∧ (∀ p, s.plock p = none) ∧
    (∀ p, s.pc p = .run) ∧ s.issued = [1] ∧ s.births = 1 ∧ s.inc s.initproc = 0 ∧
    s.exits = [] ∧ s.reaps = [] ∧
    (s.proc s.initproc).state = .RUNNABLE ∧ (s.proc s.initproc).pid = 1 ∧
    (s.proc s.initproc).parent = none ∧ (s.proc s.initproc).chan = .null ∧
    (s.proc s.initproc).trapframe ≠ 0 ∧ (s.proc s.initproc).pagetable ≠ 0 ∧
    ∀ p, p ≠ s.initproc → s.proc p = .unused
  step := LifeStep

/-- The first process in slot 0, its trapframe and page table on the two pages
below `PHYSTOP`, and the allocator as given. -/
def bootState (m : Kmem) : LifeState where
  kmem := m
  nextpid := 2
  initproc := 0
  waitLock := none
  plock := fun _ => none
  proc := fun p =>
    if p = 0 then
      { Proc.unused with
        state := .RUNNABLE, pid := 1, trapframe := PHYSTOP - PGSIZE
        pagetable := PHYSTOP - 2 * PGSIZE }
    else .unused
  pc := fun _ => .run
  issued := [1]
  births := 1
  inc := fun _ => 0
  exits := []
  reaps := []

theorem bootState_init (m : Kmem) : lifeSystem.init (bootState m) := by
  have hpages : PHYSTOP - PGSIZE ≠ 0 ∧ PHYSTOP - 2 * PGSIZE ≠ 0 := by decide
  simp +contextual [lifeSystem, bootState, hpages]

theorem LifeState.goto_goto (s : LifeState) (t : Slot) (k k' : Pc) :
    (s.goto t k).goto t k' = s.goto t k' := by
  simp only [LifeState.goto]
  congr 1
  funext q
  by_cases hq : q = t
  · rw [if_pos hq, if_pos hq]
  · rw [if_neg hq, if_neg hq, if_neg hq]

theorem LifeState.goto_self {s : LifeState} {t : Slot} {k : Pc} (h : s.pc t = k) :
    s.goto t k = s := by
  have hpcs : (fun q => if q = t then k else s.pc q) = s.pc := by
    funext q
    by_cases hq : q = t
    · rw [if_pos hq, hq, h]
    · rw [if_neg hq]
  simp only [LifeState.goto, hpcs]

/-- A thread gets to the end of a scan of the process table when it can pass
every slot that is left. -/
theorem reachable_scan {s : LifeState} {t : Slot} (k : Nat → Pc) (hreach : Reachable lifeSystem s)
    (hrun : (s.proc t).state = .RUNNING) {i : Nat} (hpc : s.pc t = k i) (hi : i ≤ NPROC)
    (hmove : ∀ (s' : LifeState) (j : Slot), s'.proc = s.proc → i ≤ j →
      Move s' t (k j) (k (j + 1))) : Reachable lifeSystem (s.goto t (k NPROC)) := by
  obtain ⟨left, hleft⟩ := Nat.exists_eq_add_of_le hi
  induction left generalizing i s with
  | zero =>
    rw [LifeState.goto_self (by rw [hpc, hleft, Nat.add_zero])]
    exact hreach
  | succ left ih =>
    have hlt : i < NPROC := by omega
    have hpass := hmove s ⟨i, hlt⟩ rfl (Nat.le_refl i)
    have hnext := ih (i := i + 1) (.next hreach (.move hrun hpc hpass)) hrun
      (by simp) hlt (fun s' j hproc hj => hmove s' j hproc (by omega)) (by omega)
    rwa [LifeState.goto_goto] at hnext

end Kus
