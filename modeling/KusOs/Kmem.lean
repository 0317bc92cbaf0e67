import Mathlib

/-!
# The physical page allocator, one critical section at a time

`kernel/kalloc.c` keeps the free pages on a singly linked list threaded
through the pages themselves: the first word of a free page is `r->next` and
`kmem.freelist` is its head.  `Kmem` keeps exactly that: the word at the start
of every page, and the head pointer.  Address `0` is the null pointer.

`kallocEnter` and `kallocResume` are the two critical sections of `kalloc`
(before the stall loop, and after a return from `sleep`), `Kmem.push` is the
one of `kfree`.  `freerange` is the boot-time loop that frees every page of
`[PGROUNDUP(end), PHYSTOP)`.
-/

namespace Kus

/-- Bytes per page (`riscv.h`). -/
def PGSIZE : Nat := 4096

/-- Where the boot ROM loads the kernel (`memlayout.h`). -/
def KERNBASE : Nat := 0x80000000

/-- End of the RAM the kernel uses (`memlayout.h`). -/
def PHYSTOP : Nat := KERNBASE + 128 * 1024 * 1024

/-- `PGROUNDUP` of `riscv.h`. -/
def PGROUNDUP (sz : Nat) : Nat := (sz + PGSIZE - 1) / PGSIZE * PGSIZE

/-- One past the highest virtual address, `1L << (9 + 9 + 9 + 12 - 1)`. -/
def Vm.MAXVA : Nat := 2 ^ 38

def Vm.TRAMPOLINE : Nat := MAXVA - PGSIZE

def Vm.TRAPFRAME : Nat := TRAMPOLINE - PGSIZE

/-- The linked kernel image.  The linker script places it at `KERNBASE` and
defines `end` as the first address after it. -/
structure Image where
  kernelEnd : Nat
  kernbase_le : KERNBASE ≤ kernelEnd

/-- The allocator's memory: `next pa` is the first word of the page at `pa`. -/
@[ext]
structure Kmem where
  next : Nat → Nat
  freelist : Nat

/-- The first word of a page after `memset(pa, c, PGSIZE)`. -/
def junkWord (c : Nat) : Nat := c * 0x0101010101010101

/-- Store a word at the start of the page `pa`. -/
def Kmem.store (m : Kmem) (pa : Nat) (w : Nat) : Kmem :=
  { m with next := Function.update m.next pa w }

/-- `r->next = kmem.freelist; kmem.freelist = r;` -/
def Kmem.push (m : Kmem) (r : Nat) : Kmem :=
  { next := Function.update m.next r m.freelist, freelist := r }

/-- `kmem.freelist = r->next;` for the current head `r`. -/
def Kmem.pop (m : Kmem) : Kmem :=
  { m with freelist := m.next m.freelist }

/-- What a pass through `kalloc`'s critical section decides. -/
inductive KallocOutcome
  /-- leave with the page `r` -/
  | page (r : Nat)
  /-- leave with the null pointer -/
  | null
  /-- `sleep(&kmem, &kmem.lock)` -/
  | stall
deriving DecidableEq, Repr

/-- `kalloc` up to its stall loop: only a caller with a process stalls. -/
def kallocEnter (hasProc : Bool) (m : Kmem) : KallocOutcome :=
  if m.freelist = 0 then
    if hasProc then .stall else .null
  else .page m.freelist

/-- The body of the stall loop after `sleep` returned: the head is read again
and the `killed` exit is taken before the head is looked at. -/
def kallocResume (killed : Bool) (m : Kmem) : KallocOutcome :=
  if killed then .null
  else if m.freelist = 0 then .stall
  else .page m.freelist

/-- The test `kfree` panics on. -/
def kfreeRejects (img : Image) (pa : Nat) : Bool :=
  pa % PGSIZE != 0 || decide (pa < img.kernelEnd) || decide (PHYSTOP ≤ pa)

/-- `kfree`: junk the page, then put it on the list. -/
def kfree (img : Image) (m : Kmem) (pa : Nat) : Except String Kmem :=
  if kfreeRejects img pa then .error "kfree"
  else .ok ((m.store pa (junkWord 1)).push pa)

/-- The loop of `freerange`, from the page pointer `p`. -/
def freerangeFrom (img : Image) (paEnd p : Nat) (m : Kmem) : Except String Kmem :=
  if p + PGSIZE ≤ paEnd then
    match kfree img m p with
    | .error e => .error e
    | .ok m' => freerangeFrom img paEnd (p + PGSIZE) m'
  else .ok m
termination_by paEnd - p
decreasing_by
  unfold PGSIZE at *
  omega

/-- `freerange(pa_start, pa_end)`. -/
def freerange (img : Image) (paStart paEnd : Nat) (m : Kmem) : Except String Kmem :=
  freerangeFrom img paEnd (PGROUNDUP paStart) m

/-- `kinit`: the list starts empty and `freerange` fills it. -/
def kinit (img : Image) (words : Nat → Nat) : Except String Kmem :=
  freerange img img.kernelEnd PHYSTOP { next := words, freelist := 0 }

end Kus
