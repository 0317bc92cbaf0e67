import Mathlib
import KusOs.Lifecycle

/-!
# The scheduler and the process locks

`scheduler`, `sched`, `yield`, `sleep`, `wakeup`, `kkill` and the parts of
`kfork`, `kexit` and `kwait` that write `p->state`, for any number of CPUs.  A
process's lock is taken by one thread and dropped by another across `swtch`, so
the steps here are finer than in the model of process lives: taking a slot's
lock, writing its state, each half of a context switch and dropping the lock
are steps of their own.

A CPU is in its scheduler loop or runs the kernel thread of a process.  While a
thread runs, the frame of the scheduler on that CPU waits at the slot it
switched to.  The loops of `wakeup`, `kkill`, `allocproc` and `kwait` over the
process table are taken one visit at a time and in any order.  What `allocproc`
and `kfork` do to the new slot without its lock, the pages, is left out, and so
is `wait_lock`.  `freeproc` calls `kfree`, hence `wakeup(&kmem)`, with the slot's
lock held: those wakeups are steps here (`freeWake`), and the visit may also end
without having met its own slot, which `kfree` would stop at with a panic, so
that the runs here include every run of the source.  `acquire` of a lock that is
held, and a `panic`, are the absence of a step.
-/

namespace Kus

open Function Transition

/-- How a process gives up its CPU. -/
inductive Parting
  | yield
  | sleep (chan : Chan)
  | exit (status : Int)
deriving DecidableEq

/-- Where a saved context goes on. -/
inductive Frame
  | yield | sleep | exit | forkret
deriving DecidableEq

/-- The frame that `sched` saves. -/
def Parting.frame : Parting → Frame
  | .yield => .yield
  | .sleep _ => .sleep
  | .exit _ => .exit

/-- What `p->state` is set to, with the fields written along with it. -/
def Parting.write : Parting → Proc → Proc
  | .yield, q => { q with state := .RUNNABLE }
  | .sleep chan, q => { q with chan := chan, state := .SLEEPING }
  | .exit status, q => { q with xstate := status, state := .ZOMBIE }

/-- What a thread takes a slot's lock for. -/
inductive Visit
  | wakeup (chan : Chan)
  | kill (pid : Int)
  /-- `killed`, `setkilled`, or copying registers and files in `kfork` -/
  | peek
  /-- the test for `UNUSED` in `allocproc` -/
  | alloc
  /-- the end of `allocproc`, which sets the new context up -/
  | context
  /-- `np->state = RUNNABLE` in `kfork` -/
  | publish
  /-- `freeproc` on a failure path of `allocproc` or `kfork` -/
  | undo
  /-- the test for `ZOMBIE` in `kwait` -/
  | reap
deriving DecidableEq

/-- How far the thread is in creating a process. -/
inductive Making
  | none
  /-- in `allocproc` after the slot was found -/
  | pages (np : Slot)
  /-- in `kfork` after `allocproc` returned -/
  | copy (np : Slot)
  /-- after `np->parent` is set -/
  | ready (np : Slot)
deriving DecidableEq

/-- The slot under construction. -/
def Making.slot : Making → Option Slot
  | .none => .none
  | .pages np | .copy np | .ready np => some np

/-- The position of a process's kernel thread. -/
inductive ThreadPos
  /-- anywhere with no slot's lock held -/
  | run
  /-- in `yield`, `sleep` or `kexit`, with `p->lock` held -/
  | leave (how : Parting)
  /-- the same after `p->state` is written, up to the `swtch` in `sched` -/
  | leaving (how : Parting)
  /-- not on a CPU -/
  | saved (frame : Frame)
  /-- back from `swtch`, with `p->lock` still held -/
  | resumed (frame : Frame)
  /-- with the lock of the slot `q` held -/
  | visit (q : Slot) (op : Visit)
deriving DecidableEq

/-- What a CPU does. -/
inductive CpuPos
  /-- the scheduler's loop, next slot `i` -/
  | scan (i : Nat)
  /-- `p->lock` is held, `p->state` not looked at -/
  | check (p : Slot)
  /-- `p->state = RUNNING` is done -/
  | chosen (p : Slot)
  /-- `c->proc = p` is done -/
  | going (p : Slot)
  /-- the thread of `p` runs -/
  | thread (p : Slot)
  /-- `swtch` has returned to the scheduler -/
  | back (p : Slot)
  /-- `c->proc = 0` is done -/
  | done (p : Slot)
  /-- in an interrupt handler's `wakeup(chan)`, with the lock of `q` held -/
  | irq (q : Slot) (chan : Chan) (i : Nat)
deriving DecidableEq

/-- The process table and the CPUs. -/
structure SchedState (κ : Type) where
  proc : Slot → Proc
  nextpid : Int
  initproc : Slot
  /-- the CPU that holds `p->lock` -/
  lock : Slot → Option κ
  cpu : κ → CpuPos
  /-- `c->proc` -/
  cpuProc : κ → Option Slot
  pos : Slot → ThreadPos
  making : Slot → Making

/-- May the thread of `t`, running as process `p`, go and visit `q`? -/
def Visit.Allowed (op : Visit) (p q : Slot) (make : Making) (slot : Proc) : Prop :=
  match op with
  | .wakeup _ => q ≠ p
  | .kill _ | .peek => True
  | .alloc => make = .none
  | .context => make = .pages q
  | .publish => make = .ready q
  | .undo => make = .pages q ∨ make = .copy q
  | .reap => slot.parent = some p

/-- What the visit does to the slot. -/
def Visit.update (nextpid : Int) : Visit → Proc → Proc
  | .wakeup chan, q => q.wake chan
  | .kill pid, q => if q.pid = pid then q.kill else q
  | .peek, q => q
  | .alloc, q => if q.state = .UNUSED then { q with pid := nextpid, state := .USED } else q
  | .context, q => q
  | .publish, q => { q with state := .RUNNABLE }
  | .undo, _ => .unused
  | .reap, q => if q.state = .ZOMBIE then .unused else q

/-- How the visit of `q` advances the creation of a process. -/
def Visit.advance (q : Slot) (slot : Proc) : Visit → Making → Making
  | .alloc, make => if slot.state = .UNUSED then .pages q else make
  | .context, _ => .copy q
  | .publish, _ | .undo, _ => .none
  | _, make => make

/-- `allocpid`, called when the slot is `UNUSED`. -/
def Visit.pids (slot : Proc) : Visit → Int → Int
  | .alloc, n => if slot.state = .UNUSED then Int.bmod (n + 1) (2 ^ 32) else n
  | _, n => n

/-- `allocproc` sets the context of a new process to `forkret`. -/
def Visit.target : Visit → ThreadPos → ThreadPos
  | .context, _ => .saved .forkret
  | _, k => k

/-- What `swtch` finds in a saved context. -/
def ThreadPos.resume : ThreadPos → ThreadPos
  | .saved frame => .resumed frame
  | k => k

/-- The end of `sleep` clears `p->chan`; `yield` and `forkret` do not. -/
def Frame.tidy : Frame → Proc → Proc
  | .sleep, q => { q with chan := .null }
  | _, q => q

/-- What a step was, as far as the results speak of it. -/
inductive SchedEvent
  | swtch (p : Slot)
  | other
deriving DecidableEq

section System

variable {κ : Type} [DecidableEq κ]

namespace SchedState

/-- Change the slot `p`. -/
@[simps]
def setProc (s : SchedState κ) (p : Slot) (x : Proc) : SchedState κ :=
  { s with proc := update s.proc p x }

/-- Move the CPU `c`. -/
@[simps]
def moveCpu (s : SchedState κ) (c : κ) (k : CpuPos) : SchedState κ :=
  { s with cpu := update s.cpu c k }

/-- Move the thread of `t`. -/
@[simps]
def moveThread (s : SchedState κ) (t : Slot) (k : ThreadPos) : SchedState κ :=
  { s with pos := update s.pos t k }

/-- Set `c->proc`. -/
@[simps]
def setCpuProc (s : SchedState κ) (c : κ) (o : Option Slot) : SchedState κ :=
  { s with cpuProc := update s.cpuProc c o }

/-- Take or drop the lock of `q`. -/
@[simps]
def setLock (s : SchedState κ) (q : Slot) (o : Option κ) : SchedState κ :=
  { s with lock := update s.lock q o }

/-- Advance the creation of a process by the thread of `t`. -/
@[simps]
def setMaking (s : SchedState κ) (t : Slot) (k : Making) : SchedState κ :=
  { s with making := update s.making t k }

/-- What the visit of `q` by the thread of `t` does, and the `release` after it. -/
@[simps]
def endVisit (s : SchedState κ) (t q : Slot) (op : Visit) : SchedState κ :=
  { s with
    proc := update s.proc q (op.update s.nextpid (s.proc q))
    nextpid := op.pids (s.proc q) s.nextpid
    lock := update s.lock q none
    pos := update (update s.pos q (op.target (s.pos q))) t .run
    making := update s.making t (op.advance q (s.proc q) (s.making t)) }

end SchedState

/-- One step of some CPU `c`.  The thread that runs on it calls `myproc()`,
which is `c->proc`. -/
inductive SchedStep : SchedState κ → SchedEvent → SchedState κ → Prop
  -- scheduler
  | acquire {s c} {p : Slot} (hcpu : s.cpu c = .scan p) (hlock : s.lock p = none) :
      SchedStep s .other ((s.setLock p (some c)).moveCpu c (.check p))
  | wrap {s c} (hcpu : s.cpu c = .scan NPROC) : SchedStep s .other (s.moveCpu c (.scan 0))
  | skip {s c p} (hcpu : s.cpu c = .check p) (hstate : (s.proc p).state ≠ .RUNNABLE) :
      SchedStep s .other ((s.setLock p none).moveCpu c (.scan (p + 1)))
  | choose {s c p} (hcpu : s.cpu c = .check p) (hstate : (s.proc p).state = .RUNNABLE) :
      SchedStep s .other
        ((s.setProc p { s.proc p with state := .RUNNING }).moveCpu c (.chosen p))
  | setProc {s c p} (hcpu : s.cpu c = .chosen p) :
      SchedStep s .other ((s.setCpuProc c (some p)).moveCpu c (.going p))
  | swtch {s c p} (hcpu : s.cpu c = .going p) :
      SchedStep s (.swtch p) ((s.moveThread p (s.pos p).resume).moveCpu c (.thread p))
  | clearProc {s c p} (hcpu : s.cpu c = .back p) :
      SchedStep s .other ((s.setCpuProc c none).moveCpu c (.done p))
  | release {s c p} (hcpu : s.cpu c = .done p) :
      SchedStep s .other ((s.setLock p none).moveCpu c (.scan (p + 1)))
  -- an interrupt in the scheduler's loop
  | irqAcquire {s c i q chan} (hcpu : s.cpu c = .scan i) (hq : s.cpuProc c ≠ some q)
      (hlock : s.lock q = none) :
      SchedStep s .other ((s.setLock q (some c)).moveCpu c (.irq q chan i))
  | irqRelease {s c i q chan} (hcpu : s.cpu c = .irq q chan i) :
      SchedStep s .other
        (((s.setProc q ((s.proc q).wake chan)).setLock q none).moveCpu c (.scan i))
  -- yield, sleep and kexit
  | leave {s c t p} {how : Parting} (hcpu : s.cpu c = .thread t) (hpos : s.pos t = .run)
      (hp : s.cpuProc c = some p) (hlock : s.lock p = none)
      (hexit : ∀ status, how = .exit status → p ≠ s.initproc ∧ s.making t = .none) :
      SchedStep s .other ((s.setLock p (some c)).moveThread t (.leave how))
  | write {s c t p how} (hcpu : s.cpu c = .thread t) (hpos : s.pos t = .leave how)
      (hp : s.cpuProc c = some p) :
      SchedStep s .other
        ((s.setProc p (how.write (s.proc p))).moveThread t (.leaving how))
  | sched {s c t p how} (hcpu : s.cpu c = .thread t) (hpos : s.pos t = .leaving how)
      (hp : s.cpuProc c = some p) (hlock : s.lock p = some c)
      (hstate : (s.proc p).state ≠ .RUNNING) :
      SchedStep s .other ((s.moveThread t (.saved how.frame)).moveCpu c (.back t))
  | resume {s c t p frame} (hcpu : s.cpu c = .thread t) (hpos : s.pos t = .resumed frame)
      (hp : s.cpuProc c = some p) (hframe : frame ≠ .exit) :
      SchedStep s .other
        (((s.setProc p (frame.tidy (s.proc p))).setLock p none).moveThread t .run)
  -- visits
  | visit {s c t p q} {op : Visit} (hcpu : s.cpu c = .thread t) (hpos : s.pos t = .run)
      (hp : s.cpuProc c = some p) (hlock : s.lock q = none)
      (hop : op.Allowed p q (s.making t) (s.proc q)) :
      SchedStep s .other ((s.setLock q (some c)).moveThread t (.visit q op))
  | endVisit {s c t q op} (hcpu : s.cpu c = .thread t) (hpos : s.pos t = .visit q op) :
      SchedStep s .other (s.endVisit t q op)
  | freeWake {s c t p q r op} (hcpu : s.cpu c = .thread t) (hpos : s.pos t = .visit q op)
      (hop : op = .undo ∨ op = .reap) (hp : s.cpuProc c = some p) (hr : r ≠ p)
      (hlock : s.lock r = none) :
      SchedStep s .other (s.setProc r ((s.proc r).wake .kmem))
  -- p->parent, which is written under wait_lock
  | setParent {s c t p np} (hcpu : s.cpu c = .thread t) (hpos : s.pos t = .run)
      (hp : s.cpuProc c = some p) (hmake : s.making t = .copy np) :
      SchedStep s .other
        ((s.setProc np { s.proc np with parent := some p }).setMaking t (.ready np))
  | reparent {s c t p q} (hcpu : s.cpu c = .thread t) (hpos : s.pos t = .run)
      (hp : s.cpuProc c = some p) (hparent : (s.proc q).parent = some p) :
      SchedStep s .other (s.setProc q { s.proc q with parent := some s.initproc })

/-- From the moment `userinit` has made the first process runnable and the CPUs
enter `scheduler`. -/
def schedSystem (κ : Type) [DecidableEq κ] : System (SchedState κ) SchedEvent where
  init s := (∀ c, s.cpu c = .scan 0) ∧ (∀ c, s.cpuProc c = none) ∧ (∀ p, s.lock p = none) ∧
    (∀ p, s.making p = .none) ∧ (∀ p, s.pos p = .saved .forkret) ∧
    (s.proc s.initproc).state = .RUNNABLE ∧ ∀ p, p ≠ s.initproc → s.proc p = .unused
  step := SchedStep

/-- The changes of `p->state` there are. -/
inductive StateArrow : ProcState → ProcState → Prop
  | alloc : StateArrow .UNUSED .USED
  | publish : StateArrow .USED .RUNNABLE
  | undo : StateArrow .USED .UNUSED
  | dispatch : StateArrow .RUNNABLE .RUNNING
  | yield : StateArrow .RUNNING .RUNNABLE
  | sleep : StateArrow .RUNNING .SLEEPING
  | wake : StateArrow .SLEEPING .RUNNABLE
  | exit : StateArrow .RUNNING .ZOMBIE
  | reap : StateArrow .ZOMBIE .UNUSED

end System

end Kus
