import Mathlib

/-!
# Process slots, states and sleep channels

The parts of `kernel/proc.h` and `kernel/param.h` that every model of the
process table shares.  A process is named by its slot in `proc[NPROC]`.  A
sleep channel is an address in the source; the addresses the source sleeps on
are told apart by what they are the address of.
-/

namespace Kus

/-- Maximum number of processes (`param.h`). -/
def NPROC : Nat := 64

instance : NeZero NPROC := ⟨by decide⟩

/-- A process, as an index into `proc[NPROC]`. -/
abbrev Slot := Fin NPROC

/-- `enum procstate`. -/
inductive ProcState
  | UNUSED | USED | SLEEPING | RUNNABLE | RUNNING | ZOMBIE
deriving DecidableEq, Repr

/-- `p->chan`: null, `&kmem`, the address of a `struct proc` (the channel of
`kwait`), or any other address. -/
inductive Chan
  | null
  | kmem
  | proc (p : Slot)
  | other (addr : Nat)
deriving DecidableEq, Repr

end Kus
