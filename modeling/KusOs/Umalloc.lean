import KusOs.Hoare
import KusOs.IntervalCover
import KusOs.PointerRing

/-!
# The user allocator

`user/umalloc.c` as functions on the headers in memory: `ptr` and `size` of the header at
an address, the address `base` of the static header, and the pointer `freep`, which is
`0` before the first call.  A header is `16` bytes, so a pointer to a header moves by
`16` bytes for each unit.

* `join` — both halves of `free`'s coalescing have this form: take in the next block if
  it starts where this one ends, else point to it;
* `free`, `morecore`, `mallocLoop`, `malloc` — the source's functions.  The two search
  loops follow the pointers for at most `fuel` nodes and stop with `searching` when they
  have not ended by then;
* `Break`, `sbrk` — an operating system that answers each call with an error or with a
  new region above all it gave before;
* `Op`, `step`, `run` — a program that calls `malloc`, frees what it holds and writes to
  what it holds.
-/

namespace Kus.Umalloc

open Function IntervalCover PointerRing

/-- `sizeof(Header)`. -/
def headerSize : Nat := 16

/-- The allocator's memory, over an operating system with state `σ`. -/
structure Heap (σ : Type) where
  ptr : Nat → Nat
  size : Nat → UInt32
  base : Nat
  freep : Nat
  os : σ

/-- A search that has not ended within its fuel. -/
inductive Unfinished where
  | searching
deriving DecidableEq

abbrev HeapM (σ : Type) := StateT (Heap σ) (Except Unfinished)

variable {σ : Type}

/-- `p + p->s.size`. -/
def Heap.after (h : Heap σ) (p : Nat) : Nat := p + headerSize * (h.size p).toNat

/-- The loop of `free` ends at `p`: `bp` lies between `p` and the next block, or `p` is
the last block and `bp` lies outside the list's range. -/
def Heap.endsAt (h : Heap σ) (bp p : Nat) : Bool :=
  (p < bp && bp < h.ptr p) || (h.ptr p ≤ p && (p < bp || bp < h.ptr p))

/-- `if(a + a->s.size == b){ a->s.size += b->s.size; a->s.ptr = b->s.ptr; }
else a->s.ptr = b;` -/
def Heap.join (a b : Nat) (h : Heap σ) : Heap σ :=
  if h.after a = b then
    { h with
      size := update h.size a (h.size a + h.size b)
      ptr := update h.ptr a (h.ptr b) }
  else { h with ptr := update h.ptr a b }

def free (fuel ap : Nat) : HeapM σ Unit := do
  let h ← get
  let bp := ap - headerSize
  match search h.ptr (h.endsAt bp) fuel h.freep with
  | none => throw .searching
  | some p => set { (h.join bp (h.ptr p)).join p bp with freep := p }

/-- The `int` that `sbrk` receives for `nu * sizeof(Header)`. -/
def sbrkArg (nu : UInt32) : Int := (BitVec.ofNat 32 (nu.toNat * headerSize)).toInt

/-- `morecore` asks for at least `4096` units. -/
def coreUnits (nu : UInt32) : UInt32 := if nu < 4096 then 4096 else nu

def morecore (sbrk : Int → σ → Option Nat × σ) (fuel : Nat) (nu : UInt32) :
    HeapM σ (Option Nat) := do
  let nu := coreUnits nu
  let h ← get
  match sbrk (sbrkArg nu) h.os with
  | (none, os) =>
    set { h with os }
    return none
  | (some p, os) =>
    set { h with os, size := update h.size p nu }
    free fuel (p + headerSize)
    let h ← get
    return some h.freep

/-- The units of a request, its header included. -/
def nunits (nbytes : UInt32) : UInt32 :=
  UInt32.ofNat ((nbytes.toNat + headerSize - 1) / headerSize + 1)

/-- `p` is large enough: unlink it after `prevp`, or cut the request from its end. -/
def Heap.take (n : UInt32) (prevp p : Nat) (h : Heap σ) : Nat × Heap σ :=
  if h.size p = n then
    (p + headerSize, { h with ptr := update h.ptr prevp (h.ptr p), freep := prevp })
  else
    let left := h.size p - n
    let tail := p + headerSize * left.toNat
    (tail + headerSize,
      { h with size := update (update h.size p left) tail n, freep := prevp })

/-- The loop of `malloc`; `limit` is the fuel of the `free` in `morecore`. -/
def mallocLoop (sbrk : Int → σ → Option Nat × σ) (limit : Nat) (n : UInt32) :
    Nat → Nat → Nat → HeapM σ Nat
  | 0, _, _ => throw .searching
  | fuel + 1, prevp, p => do
      let h ← get
      if n ≤ h.size p then
        let (ap, h) := h.take n prevp p
        set h
        return ap
      else if p = h.freep then
        match ← morecore sbrk limit n with
        | none => return 0
        | some p => do
            let h ← get
            mallocLoop sbrk limit n fuel p (h.ptr p)
      else mallocLoop sbrk limit n fuel p (h.ptr p)

/-- The list of only the static header. -/
def Heap.init (h : Heap σ) : Heap σ :=
  { h with
    ptr := update h.ptr h.base h.base
    size := update h.size h.base 0
    freep := h.base }

def malloc (sbrk : Int → σ → Option Nat × σ) (fuel : Nat) (nbytes : UInt32) : HeapM σ Nat := do
  modify fun h => if h.freep = 0 then h.init else h
  let h ← get
  mallocLoop sbrk fuel (nunits nbytes) fuel h.freep (h.ptr h.freep)

/-- An operating system that hands out regions upwards.  Call number `k` fails if
`gap k = none`, and else starts its region `gap k` bytes above the last one; `room` bytes
are left to give. -/
structure Break where
  top : Nat
  gap : Nat → Option Nat
  calls : Nat
  room : Nat
  regions : List Interval

/-- A region of `len` bytes, `g` bytes above the last one. -/
def Break.grow (b : Break) (g len : Nat) : Break :=
  { b with
    top := b.top + g + len
    calls := b.calls + 1
    room := b.room - len
    regions := ⟨b.top + g, len⟩ :: b.regions }

def sbrk (n : Int) (b : Break) : Option Nat × Break :=
  match b.gap b.calls with
  | none => (none, { b with calls := b.calls + 1 })
  | some g =>
    if 0 < n ∧ n.toNat ≤ b.room then (some (b.top + g), b.grow g n.toNat)
    else (none, { b with calls := b.calls + 1 })

/-- A result of `malloc` that has not been freed: the address of its header and the bytes
asked for. -/
structure Alloc where
  addr : Nat
  nbytes : Nat

structure Program where
  heap : Heap Break
  live : List Alloc

/-- What a program does with the allocator. -/
inductive Op where
  | malloc (nbytes : UInt32)
  | free (ap : Nat)
  /-- Write the byte at `y`: the headers that hold this byte then read as any pointer and
  any size. -/
  | write (y : Nat) (ptr : Nat → Nat) (size : Nat → UInt32)

def Alloc.isAt (ap : Nat) (l : Alloc) : Bool := l.addr + headerSize == ap

def Alloc.holds (y : Nat) (l : Alloc) : Bool :=
  l.addr + headerSize ≤ y && y < l.addr + headerSize + l.nbytes

/-- The header at `a` holds the byte `y`. -/
def Touches (y a : Nat) : Prop := a ≤ y ∧ y < a + headerSize

instance (y a : Nat) : Decidable (Touches y a) :=
  inferInstanceAs (Decidable (a ≤ y ∧ y < a + headerSize))

def Heap.write (y : Nat) (ptr : Nat → Nat) (size : Nat → UInt32) (h : Heap σ) : Heap σ :=
  { h with
    ptr := fun a => if Touches y a then ptr a else h.ptr a
    size := fun a => if Touches y a then size a else h.size a }

/-- One action.  A program frees and writes only what it holds: other addresses are
passed over. -/
def step (fuel : Nat) (s : Program) : Op → Except Unfinished Program
  | .malloc nbytes => do
      let (ap, heap) ← malloc sbrk fuel nbytes s.heap
      if ap = 0 then return { s with heap }
      else return { heap, live := ⟨ap - headerSize, nbytes.toNat⟩ :: s.live }
  | .free ap =>
    if s.live.any (Alloc.isAt ap) then do
      let (_, heap) ← free fuel ap s.heap
      return { heap, live := s.live.eraseP (Alloc.isAt ap) }
    else return s
  | .write y ptr size =>
    if s.live.any (Alloc.holds y) then return { s with heap := s.heap.write y ptr size }
    else return s

def run (fuel : Nat) : List Op → Program → Except Unfinished Program
  | [], s => return s
  | op :: ops, s => do
      let s ← step fuel s op
      run fuel ops s

/-- Before the first call: `freep` is null and the headers read as anything. -/
def Program.start (ptr : Nat → Nat) (size : Nat → UInt32) (base : Nat) (os : Break) : Program :=
  { heap := { ptr, size, base, freep := 0, os }, live := [] }

end Kus.Umalloc
