import Mathlib
import KusOs.TransitionSystem
import KusOs.WrappingRing

/-!
# Pipes

`pipewrite`, `piperead` and `pipeclose` on one pipe, called by any processes.
Each turn of a loop is a step, with `pi->lock` in the state, so that the steps
of two calls interleave exactly where the source releases the lock or sleeps.
Whether `copyin` or `copyout` faults, and which byte `copyin` finds, is free at
every turn; a process may be killed at any moment.

One end may be closed at any moment.  The second `pipeclose`, which frees the
page, needs that no call is in progress: `fileclose` calls it when the last
reference to the open file is gone, and a call has one.  After it there are no
steps.

`accepted`, `consumed` and `returned` are history the kernel does not keep: the
bytes stored, the bytes counted off by `nread++`, and the bytes of finished
reads, each in its order.
-/

namespace Kus.Stream

open Function Transition

def PIPESIZE : Nat := 512

instance : NeZero PIPESIZE := ⟨by decide⟩

/-- `struct pipe` without its lock. -/
structure Pipe where
  data : Fin PIPESIZE → UInt8
  nread : UInt32
  nwrite : UInt32
  readopen : Bool
  writeopen : Bool

/-- The channels of a pipe, which are the addresses of its counters. -/
inductive PipeChan
  | nread | nwrite
deriving DecidableEq

/-- Where a process is in a call on the pipe.  `i` counts the bytes written,
`got` holds the bytes read. -/
inductive PipeCall
  | idle
  /-- before `acquire`, on entry -/
  | writeEntry (n : Int)
  | readEntry (n : Int)
  /-- at the head of the `while` of `pipewrite`, with the lock -/
  | writeLoop (n : Int) (i : Nat)
  | writeAsleep (n : Int) (i : Nat)
  /-- woken, before `sleep` takes the lock again -/
  | writeWoken (n : Int) (i : Nat)
  /-- at the head of the `while` of `piperead`, with the lock -/
  | readWait (n : Int)
  | readAsleep (n : Int)
  | readWoken (n : Int)
  /-- at the head of the `for` of `piperead`, with the lock -/
  | readCopy (n : Int) (got : List UInt8)
deriving DecidableEq

/-- Does a call at this position hold `pi->lock`? -/
def PipeCall.locked : PipeCall → Bool
  | .writeLoop _ _ | .readWait _ | .readCopy _ _ => true
  | _ => false

@[simp]
theorem PipeCall.locked_idle : PipeCall.idle.locked = false := rfl

@[simp]
theorem PipeCall.locked_writeLoop (n : Int) (i : Nat) : (writeLoop n i).locked = true := rfl

@[simp]
theorem PipeCall.locked_readWait (n : Int) : (readWait n).locked = true := rfl

@[simp]
theorem PipeCall.locked_readCopy (n : Int) (got : List UInt8) :
    (readCopy n got).locked = true := rfl

/-- `wakeup(chan)` as a sleeper sees it. -/
def PipeCall.wake : PipeChan → PipeCall → PipeCall
  | .nwrite, .writeAsleep n i => .writeWoken n i
  | .nread, .readAsleep n => .readWoken n
  | _, k => k

/-- `kkill` wakes a sleeper on either channel. -/
def PipeCall.wakeKilled : PipeCall → PipeCall
  | .writeAsleep n i => .writeWoken n i
  | .readAsleep n => .readWoken n
  | k => k

/-- The position after `acquire(&pi->lock)`, on entry or at the end of `sleep`. -/
def PipeCall.acquired : PipeCall → Option PipeCall
  | .writeEntry n => some (.writeLoop n 0)
  | .writeWoken n i => some (.writeLoop n i)
  | .readEntry n | .readWoken n => some (.readWait n)
  | _ => none

/-- The pipe, its lock, the calls on it, and the history. -/
structure PipeState (κ : Type) where
  pipe : Pipe
  lock : Option κ
  call : κ → PipeCall
  killed : κ → Bool
  freed : Bool
  accepted : List UInt8
  consumed : List UInt8
  returned : List UInt8

/-- What a step was: a call that returned, with its argument and result and, for
a read, the bytes it put in the user's buffer. -/
inductive PipeEvent
  | other
  | wrote (n r : Int)
  | read (n r : Int) (got : List UInt8)
deriving DecidableEq

section System

variable {κ : Type} [DecidableEq κ]

namespace PipeState

/-- Move the call of `k`. -/
@[simps]
def goto (s : PipeState κ) (k : κ) (pos : PipeCall) : PipeState κ :=
  { s with call := update s.call k pos }

/-- `wakeup(chan)`. -/
@[simps]
def wakeup (s : PipeState κ) (chan : PipeChan) : PipeState κ :=
  { s with call := fun k => (s.call k).wake chan }

/-- `release(&pi->lock)` and on to `pos`: the end of a call, or the part of
`sleep` up to the switch. -/
@[simps]
def leave (s : PipeState κ) (k : κ) (pos : PipeCall) : PipeState κ :=
  { s with lock := none, call := update s.call k pos }

/-- `pi->data[pi->nwrite++ % PIPESIZE] = ch`. -/
@[simps]
def store (s : PipeState κ) (ch : UInt8) : PipeState κ :=
  { s with
    pipe := { s.pipe with
      data := update s.pipe.data (Ring.cell PIPESIZE s.pipe.nwrite.toNat) ch
      nwrite := s.pipe.nwrite + 1 }
    accepted := s.accepted ++ [ch] }

/-- `pi->data[pi->nread % PIPESIZE]`. -/
def front (s : PipeState κ) : UInt8 :=
  s.pipe.data (Ring.cell PIPESIZE s.pipe.nread.toNat)

/-- `pi->nread++` after a `copyout` that worked. -/
@[simps]
def advance (s : PipeState κ) : PipeState κ :=
  { s with
    pipe := { s.pipe with nread := s.pipe.nread + 1 }
    consumed := s.consumed ++ [s.front] }

/-- The return of a read that got these bytes. -/
@[simps]
def deliver (s : PipeState κ) (got : List UInt8) : PipeState κ :=
  { s with returned := s.returned ++ got }

/-- `pipeclose`. -/
@[simps]
def close (s : PipeState κ) (writable : Bool) : PipeState κ :=
  let s := if writable then
      { s.wakeup .nread with pipe := { s.pipe with writeopen := false } }
    else
      { s.wakeup .nwrite with pipe := { s.pipe with readopen := false } }
  { s with freed := !s.pipe.readopen && !s.pipe.writeopen }

/-- `pi->nwrite == pi->nread + PIPESIZE`. -/
def Full (s : PipeState κ) : Prop :=
  s.pipe.nwrite = s.pipe.nread + UInt32.ofNat PIPESIZE

end PipeState

/-- One step of some process `k`. -/
inductive PipeStep : PipeState κ → PipeEvent → PipeState κ → Prop
  | callWrite {s k n} (hcall : s.call k = .idle) (hfreed : s.freed = false) :
      PipeStep s .other (s.goto k (.writeEntry n))
  | callRead {s k n} (hcall : s.call k = .idle) (hfreed : s.freed = false) :
      PipeStep s .other (s.goto k (.readEntry n))
  | acquire {s k pos} (hcall : (s.call k).acquired = some pos) (hlock : s.lock = none) :
      PipeStep s .other { s.goto k pos with lock := some k }
  -- pipewrite
  | writeStop {s k} {n : Int} {i : Nat} (hcall : s.call k = .writeLoop n i) (hi : i < n)
      (hstop : s.pipe.readopen = false ∨ s.killed k = true) :
      PipeStep s (.wrote n (-1)) (s.leave k .idle)
  | writeSleep {s k} {n : Int} {i : Nat} (hcall : s.call k = .writeLoop n i) (hi : i < n)
      (hopen : s.pipe.readopen = true) (hkilled : s.killed k = false) (hfull : s.Full) :
      PipeStep s .other ((s.wakeup .nread).leave k (.writeAsleep n i))
  | writeFault {s k} {n : Int} {i : Nat} (hcall : s.call k = .writeLoop n i) (hi : i < n)
      (hopen : s.pipe.readopen = true) (hkilled : s.killed k = false) (hroom : ¬ s.Full) :
      PipeStep s (.wrote n i) ((s.wakeup .nread).leave k .idle)
  | writeByte {s k} {n : Int} {i : Nat} {ch} (hcall : s.call k = .writeLoop n i) (hi : i < n)
      (hopen : s.pipe.readopen = true) (hkilled : s.killed k = false) (hroom : ¬ s.Full) :
      PipeStep s .other ((s.store ch).goto k (.writeLoop n (i + 1)))
  | writeDone {s k} {n : Int} {i : Nat} (hcall : s.call k = .writeLoop n i) (hi : ¬ (i < n)) :
      PipeStep s (.wrote n i) ((s.wakeup .nread).leave k .idle)
  -- piperead
  | readKilled {s k n} (hcall : s.call k = .readWait n) (hempty : s.pipe.nread = s.pipe.nwrite)
      (hopen : s.pipe.writeopen = true) (hkilled : s.killed k = true) :
      PipeStep s (.read n (-1) []) (s.leave k .idle)
  | readSleep {s k n} (hcall : s.call k = .readWait n) (hempty : s.pipe.nread = s.pipe.nwrite)
      (hopen : s.pipe.writeopen = true) (hkilled : s.killed k = false) :
      PipeStep s .other (s.leave k (.readAsleep n))
  | readStart {s k n} (hcall : s.call k = .readWait n)
      (hgo : s.pipe.nread ≠ s.pipe.nwrite ∨ s.pipe.writeopen = false) :
      PipeStep s .other (s.goto k (.readCopy n []))
  | readByte {s k} {n : Int} {got} (hcall : s.call k = .readCopy n got) (hi : got.length < n)
      (hsome : s.pipe.nread ≠ s.pipe.nwrite) :
      PipeStep s .other (s.advance.goto k (.readCopy n (got ++ [s.front])))
  | readFault {s k} {n : Int} {got} (hcall : s.call k = .readCopy n got) (hi : got.length < n)
      (hsome : s.pipe.nread ≠ s.pipe.nwrite) :
      PipeStep s (.read n (if got.length = 0 then -1 else got.length) got)
        (((s.deliver got).wakeup .nwrite).leave k .idle)
  | readDone {s k} {n : Int} {got} (hcall : s.call k = .readCopy n got)
      (hend : ¬ (got.length < n) ∨ s.pipe.nread = s.pipe.nwrite) :
      PipeStep s (.read n got.length got)
        (((s.deliver got).wakeup .nwrite).leave k .idle)
  -- pipeclose and kkill
  | close {s writable} (hlock : s.lock = none) (hfreed : s.freed = false)
      (hlast : (s.close writable).freed = true → ∀ k, s.call k = .idle) :
      PipeStep s .other (s.close writable)
  | kill {s k} :
      PipeStep s .other
        { s.goto k (s.call k).wakeKilled with killed := update s.killed k true }

/-- A pipe as `pipealloc` makes it; `kalloc` leaves junk in the page. -/
def pipeSystem (κ : Type) [DecidableEq κ] : System (PipeState κ) PipeEvent where
  init s := s.pipe.nread = 0 ∧ s.pipe.nwrite = 0 ∧ s.pipe.readopen = true ∧
    s.pipe.writeopen = true ∧ s.lock = none ∧ (∀ k, s.call k = .idle) ∧ s.freed = false ∧
    s.accepted = [] ∧ s.consumed = [] ∧ s.returned = []
  step := PipeStep

end System

end Kus.Stream
