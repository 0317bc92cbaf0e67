import Mathlib
import KusOs.WrappingRing

/-!
# Console input

`consoleintr` and `consoleread` of `kernel/console.c` on the buffer `cons`.  Both run
under `cons.lock`, which `consoleread` gives up only in `sleep`, so an event is a whole
`consoleintr` or the part of a `consoleread` from taking the lock until it returns or
sleeps.

* A character is a byte: `uartgetc` returns what the receive register holds.
* The destinations of reads are valid, so `either_copyout` succeeds.
* A process may be killed at any moment; `kkill` wakes it.
* The echo is part of the output of an event.
-/

namespace Kus.Console

open Function

def INPUT_BUF_SIZE : Nat := 128

instance : NeZero INPUT_BUF_SIZE := ⟨by decide⟩

/-- `C('D')`, `C('H')`, `C('P')` and `C('U')`. -/
def ctrlD : UInt8 := 4
def ctrlH : UInt8 := 8
def ctrlP : UInt8 := 16
def ctrlU : UInt8 := 21
def delete : UInt8 := 127
def newline : UInt8 := 10
def carriageReturn : UInt8 := 13

/-- `cons` without its lock. -/
structure Cons where
  buf : Fin INPUT_BUF_SIZE → UInt8
  r : UInt32
  w : UInt32
  e : UInt32

/-- `cons.buf[i % INPUT_BUF_SIZE]`. -/
def Cons.at (s : Cons) (i : UInt32) : UInt8 := s.buf (Ring.cell INPUT_BUF_SIZE i.toNat)

/-- What `consputc` sends. -/
inductive Echo
  | char (c : UInt8)
  | backspace
deriving DecidableEq, Repr

/-- The loop of `^U`.  It ends when `e` has come down to `w`, if not before. -/
def killLine : Nat → Cons → Cons × List Echo
  | 0, s => (s, [])
  | rounds + 1, s =>
    if s.e ≠ s.w ∧ s.at (s.e - 1) ≠ newline then
      let (s, out) := killLine rounds { s with e := s.e - 1 }
      (s, .backspace :: out)
    else (s, [])

/-- The outcome of a `consoleintr`: the buffer, the echo, and whether it called
`wakeup(&cons.r)`. -/
structure Handled where
  cons : Cons
  echo : List Echo
  woke : Bool

def consoleintr (c : UInt8) (s : Cons) : Handled :=
  if c = ctrlP then ⟨s, [], false⟩
  else if c = ctrlU then
    let (s, out) := killLine (s.e - s.w).toNat s
    ⟨s, out, false⟩
  else if c = ctrlH ∨ c = delete then
    if s.e ≠ s.w then ⟨{ s with e := s.e - 1 }, [.backspace], false⟩ else ⟨s, [], false⟩
  else if c ≠ 0 ∧ (s.e - s.r).toNat < INPUT_BUF_SIZE then
    let c := if c = carriageReturn then newline else c
    let s := { s with
      buf := update s.buf (Ring.cell INPUT_BUF_SIZE s.e.toNat) c
      e := s.e + 1 }
    if c = newline ∨ c = ctrlD ∨ (s.e - s.r).toNat = INPUT_BUF_SIZE then
      ⟨{ s with w := s.e }, [.char c], true⟩
    else ⟨s, [.char c], false⟩
  else ⟨s, [], false⟩

/-- How a part of a `consoleread` ends; `got` is what the call has copied out. -/
inductive Outcome
  | returned (value : Nat) (got : List UInt8)
  /-- returned -1 -/
  | killed (got : List UInt8)
  | asleep (got : List UInt8)
deriving DecidableEq, Repr

/-- The loop of `consoleread`, from the moment it has the lock.  The argument counts the
bytes that are still wanted, the `n` of the source. -/
def readLoop (killed : Bool) (target : Nat) : Nat → List UInt8 → Cons → Outcome × Cons
  | 0, got, s => (.returned target got, s)
  | n + 1, got, s =>
    if s.r = s.w then
      if killed then (.killed got, s) else (.asleep got, s)
    else
      let c := s.at s.r
      let s := { s with r := s.r + 1 }
      if c = ctrlD then
        -- save ^D for next time, to make sure the caller gets a 0-byte result
        let s := if n + 1 < target then { s with r := s.r - 1 } else s
        (.returned (target - (n + 1)) got, s)
      else
        let got := got ++ [c]
        if c = newline then (.returned (target - n) got, s)
        else readLoop killed target n got s

/-- Where a process is in a call of `consoleread` that wants `target` bytes. -/
inductive Call
  | idle
  /-- about to take the lock, on entry or woken -/
  | ready (target : Nat) (got : List UInt8)
  | asleep (target : Nat) (got : List UInt8)
deriving DecidableEq, Repr

/-- `wakeup(&cons.r)`, or `kkill`, as a process sees it. -/
def Call.wake : Call → Call
  | .asleep target got => .ready target got
  | c => c

structure State (κ : Type) where
  cons : Cons
  call : κ → Call
  killed : κ → Bool

/-- Boot: everything is zero. -/
def State.init (κ : Type) : State κ where
  cons := ⟨fun _ => 0, 0, 0, 0⟩
  call := fun _ => .idle
  killed := fun _ => false

inductive Event (κ : Type)
  /-- the UART delivers a character -/
  | key (c : UInt8)
  /-- a process calls `consoleread`; a count that is not positive wants no bytes -/
  | read (k : κ) (n : Int)
  /-- a process in `consoleread` gets the lock -/
  | run (k : κ)
  | kill (k : κ)

inductive Output (κ : Type)
  | echo (e : Echo)
  /-- a read returns `value`, having copied `got` -/
  | returned (k : κ) (value : Nat) (got : List UInt8)
  /-- a read returns -1 -/
  | failed (k : κ) (got : List UInt8)

variable {κ : Type} [DecidableEq κ]

/-- One event. -/
def step (s : State κ) : Event κ → State κ × List (Output κ)
  | .key c =>
    let h := consoleintr c s.cons
    ({ s with
      cons := h.cons
      call := if h.woke then fun k => (s.call k).wake else s.call }, h.echo.map .echo)
  | .read k n =>
    match s.call k with
    | .idle => ({ s with call := update s.call k (.ready n.toNat []) }, [])
    | _ => (s, [])
  | .run k =>
    match s.call k with
    | .ready target got =>
      match readLoop (s.killed k) target (target - got.length) got s.cons with
      | (.returned value got, cons) =>
        ({ s with cons := cons, call := update s.call k .idle }, [.returned k value got])
      | (.killed got, cons) =>
        ({ s with cons := cons, call := update s.call k .idle }, [.failed k got])
      | (.asleep got, cons) =>
        ({ s with cons := cons, call := update s.call k (.asleep target got) }, [])
    | _ => (s, [])
  | .kill k =>
    ({ s with
      killed := update s.killed k true
      call := update s.call k (s.call k).wake }, [])

/-- A run of events, with the outputs in their order. -/
def run (s : State κ) : List (Event κ) → State κ × List (Output κ)
  | [] => (s, [])
  | e :: events =>
    let (s, out) := step s e
    let (s, rest) := run s events
    (s, out ++ rest)

end Kus.Console
