import Mathlib
import KusOs.FsFormat
import KusOs.TransitionSystem

/-!
# The inode table

`itable` of `fs.c` over the dinodes as they are seen through the buffer cache.
A step is a section under `itable.lock`, an `acquiresleep` or `releasesleep` of
an entry, or one access to the buffer of a dinode.

References to entries are kept by open files, working directories and calls in
progress; several threads may use one of them at a time.  So the state has the
references held (`held`), the threads between `ilock` and `iunlock` (`users`),
the calls of `iput` that free an inode (`puts`) and the calls of `ialloc`
(`allocs`).  What callers keep to is written into the steps:

* a reference is not given up while it is the one a user relies on;
* a user changes fields other than the type, and calls `iupdate` before `iunlock`;
* `iget` is called for an inode that has links, that is referenced already, or
  that `ialloc` or `ireclaim` has just chosen.
-/

namespace Kus.Itable

open Function Transition

def NINODE : Nat := 50

instance : NeZero NINODE := ⟨by decide⟩

abbrev Slot := Fin NINODE

/-- A device and an inode number. -/
abbrev Key := Nat × Nat

/-- `struct inode`; `lock` says whether its sleep-lock is taken. -/
structure Inode where
  dev : Nat
  inum : Nat
  ref : Nat
  lock : Bool
  valid : Bool
  d : Dinode

/-- How far a thread is that has called `ilock`: before `acquiresleep`, with the
lock but before the test of `valid`, or back from `ilock`.  `dirty` is set from
a change of a field to the `iupdate` of it. -/
inductive UsePos
  | waiting
  | locked
  | ready (dirty : Bool)
deriving DecidableEq

/-- How far an `iput` is that frees the inode: about to call `itrunc`, to clear
`type`, to call `iupdate`, to clear `valid`, to release the sleep-lock, and to
decrement `ref`. -/
inductive PutPos
  | trunc | clear | write | invalidate | unlock | drop
deriving DecidableEq

/-- An `ialloc` at inode `inum`, or with a dinode it has marked. -/
inductive AllocPos
  | scan (dev : Nat) (type : Int16) (inum : Nat)
  | chosen (key : Key)
deriving DecidableEq

/-- The panics of `iget`, `ilock` and `iunlock`; `iputBlocks` is an `iput` that
would sleep for the entry's lock with `itable.lock` held. -/
inductive ItPanic
  | noInodes | ilock | noType | iunlock | iputBlocks
deriving DecidableEq

structure ItState where
  inode : Slot → Inode
  disk : Key → Dinode
  held : Multiset Slot
  users : Multiset (Slot × UsePos)
  puts : Multiset (Slot × PutPos)
  allocs : Multiset AllocPos
  panic : Option ItPanic

/-- The inode an entry stands for. -/
def ItState.key (s : ItState) (i : Slot) : Key := ((s.inode i).dev, (s.inode i).inum)

namespace ItState

/-- The loop of `iget`: is the inode already in the table? -/
def lookup (s : ItState) (k : Key) : Option Slot :=
  (List.finRange NINODE).find? fun i => 0 < (s.inode i).ref ∧ s.key i = k

/-- The first empty entry. -/
def empty (s : ItState) : Option Slot :=
  (List.finRange NINODE).find? fun i => (s.inode i).ref = 0

/-- Replace an entry. -/
@[simps]
def set (s : ItState) (i : Slot) (ip : Inode) : ItState :=
  { s with inode := update s.inode i ip }

/-- One more reference to an entry in use: `ip->ref++`. -/
@[simps!]
def dup (s : ItState) (i : Slot) : ItState :=
  { s.set i { s.inode i with ref := (s.inode i).ref + 1 } with held := i ::ₘ s.held }

/-- Recycle an entry for the inode `k`. -/
@[simps!]
def recycle (s : ItState) (k : Key) (i : Slot) : ItState :=
  { s.set i { s.inode i with dev := k.1, inum := k.2, ref := 1, valid := false } with
    held := i ::ₘ s.held }

def iget (s : ItState) (k : Key) : ItState :=
  match s.lookup k with
  | some i => s.dup i
  | none =>
    match s.empty with
    | some i => s.recycle k i
    | none => { s with panic := some .noInodes }

/-- `iupdate`: copy the entry to its dinode. -/
@[simps]
def iupdate (s : ItState) (i : Slot) : ItState :=
  { s with disk := update s.disk (s.key i) (s.inode i).d }

/-- May `iget` be called for the inode? -/
def MayGet (s : ItState) (k : Key) : Prop :=
  0 < (s.disk k).nlink ∨
  (∃ i, 0 < (s.inode i).ref ∧ s.key i = k ∧ (s.inode i).valid = true ∧ 0 < (s.inode i).d.nlink) ∨
  ∃ i ∈ s.held, s.key i = k

end ItState

/-- What a step was, as far as conditions on runs speak of it. -/
inductive ItEvent
  | reclaim (k : Key)
  | other

/-- One step on a device with `ninodes` dinodes. -/
inductive ItStep (ninodes : Nat) : ItState → ItEvent → ItState → Prop
  | iget {s k} (hmay : s.MayGet k) : ItStep ninodes s .other (s.iget k)
  | idup {s i} (hheld : i ∈ s.held) : ItStep ninodes s .other (s.dup i)
  -- ialloc
  | ialloc {s dev type} (htype : type ≠ 0) :
      ItStep ninodes s .other { s with allocs := .scan dev type 1 ::ₘ s.allocs }
  | mark {s dev type inum rest} (halloc : s.allocs = .scan dev type inum ::ₘ rest)
      (hlt : inum < ninodes) (hfree : (s.disk (dev, inum)).type = 0) :
      ItStep ninodes s .other
        { s with
          disk := update s.disk (dev, inum) { Dinode.zero with type := type }
          allocs := .chosen (dev, inum) ::ₘ rest }
  | skip {s dev type inum rest} (halloc : s.allocs = .scan dev type inum ::ₘ rest)
      (hlt : inum < ninodes) (hused : (s.disk (dev, inum)).type ≠ 0) :
      ItStep ninodes s .other { s with allocs := .scan dev type (inum + 1) ::ₘ rest }
  | noInode {s dev type inum rest} (halloc : s.allocs = .scan dev type inum ::ₘ rest)
      (hge : ninodes ≤ inum) : ItStep ninodes s .other { s with allocs := rest }
  | allocGet {s k rest} (halloc : s.allocs = .chosen k ::ₘ rest) :
      ItStep ninodes s .other ({ s with allocs := rest }.iget k)
  -- ireclaim finds an orphan; the buffer is locked until `iget` is back
  | reclaim {s k} (hinum : 1 ≤ k.2 ∧ k.2 < ninodes) (htype : (s.disk k).type ≠ 0)
      (hnlink : (s.disk k).nlink = 0) : ItStep ninodes s (.reclaim k) (s.iget k)
  -- ilock
  | ilock {s i} (hheld : i ∈ s.held) (href : ¬ (s.inode i).ref < 1) :
      ItStep ninodes s .other { s with users := (i, .waiting) ::ₘ s.users }
  | ilockPanic {s i} (hheld : i ∈ s.held) (href : (s.inode i).ref < 1) :
      ItStep ninodes s .other { s with panic := some .ilock }
  | acquire {s i rest} (huser : s.users = (i, .waiting) ::ₘ rest)
      (hfree : (s.inode i).lock = false) :
      ItStep ninodes s .other
        { s.set i { s.inode i with lock := true } with users := (i, .locked) ::ₘ rest }
  | current {s i rest} (huser : s.users = (i, .locked) ::ₘ rest)
      (hvalid : (s.inode i).valid = true) :
      ItStep ninodes s .other { s with users := (i, .ready false) ::ₘ rest }
  | load {s i rest} (huser : s.users = (i, .locked) ::ₘ rest)
      (hvalid : (s.inode i).valid = false) (htype : (s.disk (s.key i)).type ≠ 0) :
      ItStep ninodes s .other
        { s.set i { s.inode i with d := s.disk (s.key i), valid := true } with
          users := (i, .ready false) ::ₘ rest }
  | loadPanic {s i rest} (huser : s.users = (i, .locked) ::ₘ rest)
      (hvalid : (s.inode i).valid = false) (htype : (s.disk (s.key i)).type = 0) :
      ItStep ninodes s .other
        { s.set i { s.inode i with d := s.disk (s.key i), valid := true } with
          panic := some .noType }
  -- what a user does
  | modify {s i dirty rest d} (huser : s.users = (i, .ready dirty) ::ₘ rest)
      (htype : d.type = (s.inode i).d.type) :
      ItStep ninodes s .other
        { s.set i { s.inode i with d := d } with users := (i, .ready true) ::ₘ rest }
  | iupdate {s i dirty rest} (huser : s.users = (i, .ready dirty) ::ₘ rest) :
      ItStep ninodes s .other { s.iupdate i with users := (i, .ready false) ::ₘ rest }
  | iunlock {s i rest} (huser : s.users = (i, .ready false) ::ₘ rest)
      (href : ¬ (s.inode i).ref < 1) :
      ItStep ninodes s .other { s.set i { s.inode i with lock := false } with users := rest }
  | iunlockPanic {s i rest} (huser : s.users = (i, .ready false) ::ₘ rest)
      (href : (s.inode i).ref < 1) :
      ItStep ninodes s .other { s with panic := some .iunlock }
  -- iput
  | iput {s i rest} (hheld : s.held = i ::ₘ rest) (husers : ∀ u ∈ s.users, u.1 = i → i ∈ rest)
      (hkeep : ¬ ((s.inode i).ref = 1 ∧ (s.inode i).valid = true ∧ (s.inode i).d.nlink = 0)) :
      ItStep ninodes s .other
        { s.set i { s.inode i with ref := (s.inode i).ref - 1 } with held := rest }
  | iputFree {s i rest} (hheld : s.held = i ::ₘ rest)
      (husers : ∀ u ∈ s.users, u.1 = i → i ∈ rest)
      (hlast : (s.inode i).ref = 1 ∧ (s.inode i).valid = true ∧ (s.inode i).d.nlink = 0)
      (hfree : (s.inode i).lock = false) :
      ItStep ninodes s .other
        { s.set i { s.inode i with lock := true } with
          held := rest
          puts := (i, .trunc) ::ₘ s.puts }
  | iputBlocks {s i rest} (hheld : s.held = i ::ₘ rest)
      (husers : ∀ u ∈ s.users, u.1 = i → i ∈ rest)
      (hlast : (s.inode i).ref = 1 ∧ (s.inode i).valid = true ∧ (s.inode i).d.nlink = 0)
      (hlock : (s.inode i).lock = true) :
      ItStep ninodes s .other { s with panic := some .iputBlocks }
  | putTrunc {s i rest} (hput : s.puts = (i, .trunc) ::ₘ rest) :
      ItStep ninodes s .other
        { (s.set i { s.inode i with
            d := { (s.inode i).d with size := 0, addrs := fun _ => 0 } }).iupdate i with
          puts := (i, .clear) ::ₘ rest }
  | putClear {s i rest} (hput : s.puts = (i, .clear) ::ₘ rest) :
      ItStep ninodes s .other
        { s.set i { s.inode i with d := { (s.inode i).d with type := 0 } } with
          puts := (i, .write) ::ₘ rest }
  | putWrite {s i rest} (hput : s.puts = (i, .write) ::ₘ rest) :
      ItStep ninodes s .other { s.iupdate i with puts := (i, .invalidate) ::ₘ rest }
  | putInvalidate {s i rest} (hput : s.puts = (i, .invalidate) ::ₘ rest) :
      ItStep ninodes s .other
        { s.set i { s.inode i with valid := false } with puts := (i, .unlock) ::ₘ rest }
  | putUnlock {s i rest} (hput : s.puts = (i, .unlock) ::ₘ rest) :
      ItStep ninodes s .other
        { s.set i { s.inode i with lock := false } with puts := (i, .drop) ::ₘ rest }
  | putDrop {s i rest} (hput : s.puts = (i, .drop) ::ₘ rest) :
      ItStep ninodes s .other
        { s.set i { s.inode i with ref := (s.inode i).ref - 1 } with puts := rest }

/-- The table after `iinit`. -/
def emptyTable (disk : Key → Dinode) : ItState where
  inode _ := { dev := 0, inum := 0, ref := 0, lock := false, valid := false, d := Dinode.zero }
  disk := disk
  held := 0
  users := 0
  puts := 0
  allocs := 0
  panic := none

def itableSystem (ninodes : Nat) (disk : Key → Dinode) : System ItState ItEvent where
  init s := s = emptyTable disk
  step s a s' := s.panic = none ∧ ItStep ninodes s a s'

/-- `ireclaim` takes an inode only if nobody has a reference to it and no `ialloc`
is about to get one.  At boot, where it runs, there is no other user at all. -/
def Alone (s : ItState) : ItEvent → Prop
  | .reclaim k => (∀ i, 0 < (s.inode i).ref → s.key i ≠ k) ∧ AllocPos.chosen k ∉ s.allocs
  | .other => True

end Kus.Itable
