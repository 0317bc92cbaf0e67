import Mathlib
import KusOs.FsFormat
import KusOs.Hoare

/-!
# Blocks and files

The allocation of disk blocks and the functions of `fs.c` and `sysfile.c` that
change which blocks a file has, as programs over the free bitmap, the blocks, the
dinodes and the valid entries of the inode table, run one call after another.

Blocks are arrays of words, which is how indirect blocks are read.  What a call
copies into a data block, whether the copy faults, what a directory holds and
whether an `iput` is of the last reference are parameters of the calls.
`handed` is history: the blocks `balloc` has returned, with the state it found.
-/

namespace Kus.Fs

open Function Hoare

abbrev Words := Fin NINDIRECT → Nat

/-- The disk as it is seen through the buffer cache, and the valid entries of the
inode table. -/
structure Store where
  bitmap : Nat → Bool
  words : Nat → Words
  dinode : Nat → Dinode
  inode : Nat → Option Dinode

structure FsState extends Store where
  handed : List (Nat × Store)

inductive FsPanic
  | freeingFreeBlock | bmapRange | noType | notDir | dirRead | unlinkNlink | unlinkWritei
deriving DecidableEq

abbrev FsM := StateT FsState (Except FsPanic)

def when (c : Prop) [Decidable c] (x : FsM Unit) : FsM Unit := if c then x else pure ()

/-- The fields of inode `i` as its user sees them. -/
def Store.ip (s : Store) (i : Nat) : Dinode := (s.inode i).getD (s.dinode i)

namespace FsState

/-- Change the fields of inode `i` in memory. -/
def setIp (s : FsState) (i : Nat) (d : Dinode) : FsState :=
  { s with inode := update s.inode i (some d) }

/-- `ip->addrs[k] = b`. -/
def setAddr (s : FsState) (i : Nat) (k : Fin (NDIRECT + 1)) (b : Nat) : FsState :=
  s.setIp i { s.ip i with addrs := update (s.ip i).addrs k b }

/-- Mark block `b` and zero it. -/
def take (s : FsState) (b : Nat) : FsState :=
  { s with
    bitmap := update s.bitmap b true
    words := update s.words b fun _ => 0
    handed := (b, s.toStore) :: s.handed }

/-- `a[j] = b` in the indirect block `a`. -/
def setWord (s : FsState) (a : Nat) (j : Fin NINDIRECT) (b : Nat) : FsState :=
  { s with words := update s.words a (update (s.words a) j b) }

end FsState

section Blocks

variable (sb : Superblock)

/-- The first block that is not in use, zeroed, or `0`. -/
def balloc : FsM Nat := do
  let s ← get
  match (List.range sb.size).find? fun b => !s.bitmap b with
  | some b =>
    set (s.take b)
    pure b
  | none => pure 0

def bfree (b : Nat) : FsM Unit := do
  let s ← get
  if s.bitmap b = false then throw .freeingFreeBlock
  else set { s with bitmap := update s.bitmap b false }

/-- `bmap` for the address `ip->addrs[k]`: allocate the block if there is none. -/
def mapAddr (i : Nat) (k : Fin (NDIRECT + 1)) : FsM Nat := do
  let s ← get
  if (s.ip i).addrs k = 0 then
    let addr ← balloc sb
    if addr = 0 then pure 0
    else
      modify fun s => s.setAddr i k addr
      pure addr
  else pure ((s.ip i).addrs k)

/-- `bmap` for entry `j` of the indirect block `a`. -/
def mapEntry (a : Nat) (j : Fin NINDIRECT) : FsM Nat := do
  let s ← get
  if s.words a j = 0 then
    let addr ← balloc sb
    if addr = 0 then pure 0
    else
      modify fun s => s.setWord a j addr
      pure addr
  else pure (s.words a j)

/-- The address of block `bn` of inode `i`, or `0` if the disk is full. -/
def bmap (i bn : Nat) : FsM Nat :=
  if h : bn < NDIRECT then mapAddr sb i ⟨bn, Nat.lt_succ_of_lt h⟩
  else if h : bn - NDIRECT < NINDIRECT then do
    let a ← mapAddr sb i (Fin.last NDIRECT)
    if a = 0 then pure 0
    else mapEntry sb a ⟨bn - NDIRECT, h⟩
  else throw .bmapRange

end Blocks

/-- Copy inode `i` to its dinode. -/
def iupdate (i : Nat) : FsM Unit :=
  modify fun s => { s with dinode := update s.dinode i (s.ip i) }

def ilock (i : Nat) : FsM Unit := do
  let s ← get
  match s.inode i with
  | some _ => pure ()
  | none =>
    set (s.setIp i (s.dinode i))
    when ((s.dinode i).type = 0) (throw .noType)

/-- One round of the first loop of `itrunc`. -/
def freeDirect (i : Nat) (k : Fin NDIRECT) : FsM Unit := do
  let s ← get
  when ((s.ip i).addrs k.castSucc ≠ 0) do
    bfree ((s.ip i).addrs k.castSucc)
    modify fun s => s.setAddr i k.castSucc 0

/-- One round of the loop over the indirect block `a`. -/
def freeEntry (a : Nat) (j : Fin NINDIRECT) : FsM Unit := do
  let s ← get
  when (s.words a j ≠ 0) (bfree (s.words a j))

def freeIndirect (i : Nat) : FsM Unit := do
  let s ← get
  when ((s.ip i).addrs (Fin.last NDIRECT) ≠ 0) do
    (List.finRange NINDIRECT).forM (freeEntry ((s.ip i).addrs (Fin.last NDIRECT)))
    bfree ((s.ip i).addrs (Fin.last NDIRECT))
    modify fun s => s.setAddr i (Fin.last NDIRECT) 0

def itrunc (i : Nat) : FsM Unit := do
  (List.finRange NDIRECT).forM (freeDirect i)
  freeIndirect i
  modify fun s => s.setIp i { s.ip i with size := 0 }
  iupdate i

/-- What the rounds of a copy do, by the bytes copied before: whether it faults,
and what it leaves in the block. -/
structure Copy where
  fault : Nat → Bool
  data : Nat → Words

section Files

variable (sb : Superblock)

/-- The loop of `readi` and `writei` over the blocks of a file.  A round copies at
least one byte, so `n` rounds are enough.  The result is `off`, `tot` and whether
no copy has faulted. -/
def blockLoop (i n : Nat) (copy : Nat → Nat → FsM Bool) : Nat → Nat → Nat → FsM (Nat × Nat × Bool)
  | 0, off, tot => pure (off, tot, true)
  | rounds + 1, off, tot =>
    if tot < n then do
      let addr ← bmap sb i (off / BSIZE)
      if addr = 0 then pure (off, tot, true)
      else
        let m := min (n - tot) (BSIZE - off % BSIZE)
        if ← copy addr tot then blockLoop i n copy rounds (off + m) (tot + m)
        else pure (off, tot, false)
    else pure (off, tot, true)

/-- `either_copyin` to a block and `log_write`; a copy that faults may have changed
part of the block. -/
def copyIn (c : Copy) (addr tot : Nat) : FsM Bool := do
  modify fun s => { s with words := update s.words addr (c.data tot) }
  pure (!c.fault tot)

def readi (i off n : Nat) (fault : Nat → Bool) : FsM Int := do
  let s ← get
  if (s.ip i).size < off ∨ (off + n) % 2 ^ 32 < off then pure 0
  else
    let n := if (s.ip i).size < off + n then (s.ip i).size - off else n
    let (_, tot, ok) ← blockLoop sb i n (fun _ tot => pure (!fault tot)) n off 0
    pure (if ok then tot else -1)

def writei (i off n : Nat) (c : Copy) : FsM Int := do
  let s ← get
  if (s.ip i).size < off ∨ (off + n) % 2 ^ 32 < off then pure (-1)
  else if MAXFILE * BSIZE < (off + n) % 2 ^ 32 then pure (-1)
  else
    let (off, tot, _) ← blockLoop sb i n (copyIn c) n off 0
    modify fun s => if (s.ip i).size < off then s.setIp i { s.ip i with size := off } else s
    iupdate i
    pure tot

/-- The first free dinode, marked, and the empty entry `iget` gives it. -/
def ialloc (type : Int16) : FsM (Option Nat) := do
  let s ← get
  match (List.range' 1 (sb.ninodes - 1)).find? fun i => (s.dinode i).type = 0 with
  | some i =>
    set { s with
      dinode := update s.dinode i { Dinode.zero with type := type }
      inode := update s.inode i none }
    pure (some i)
  | none => pure none

/-- `iput`; `last` says whether it is of the last reference. -/
def iput (i : Nat) (last : Bool) : FsM Unit := do
  let s ← get
  when (last = true ∧ (s.inode i).isSome = true ∧ (s.ip i).nlink = 0) do
    itrunc i
    modify fun s => s.setIp i { s.ip i with type := 0 }
    iupdate i
    modify fun s => { s with inode := update s.inode i none }

/-- Is an `iput` of `i` of the last reference, if its caller still has references
to the inodes `held`? -/
def lastRef (last : Nat → Bool) (held : List Nat) (i : Nat) : Bool :=
  last i && decide (i ∉ held)

/-- Change link count and device numbers of an inode and write it back. -/
def setFields (i : Nat) (major minor nlink : Int16) : FsM Unit := do
  modify fun s => s.setIp i { s.ip i with major := major, minor := minor, nlink := nlink }
  iupdate i

def setNlink (i : Nat) (f : Int16 → Int16) : FsM Unit := do
  modify fun s => s.setIp i { s.ip i with nlink := f (s.ip i).nlink }
  iupdate i

/-- `sizeof(struct dirent)`. -/
def direntSize : Nat := 16

/-- Read `count` entries of a directory, from entry `first` on. -/
def readDirents (i first count : Nat) : FsM Unit :=
  (List.range' first count).forM fun k => do
    let r ← readi sb i (direntSize * k) direntSize fun _ => false
    when (r ≠ direntSize) (throw .dirRead)

/-- What a directory holds, as far as a lookup is concerned: the number of entries
read and the inode found. -/
structure Lookup where
  count : Nat
  found : Option Nat

def dirlookup (i : Nat) (l : Lookup) : FsM (Option Nat) := do
  let s ← get
  when ((s.ip i).type ≠ T_DIR) (throw .notDir)
  readDirents sb i 0 l.count
  pure l.found

/-- What a `dirlink` finds: its lookup, the number of entries before the one it
writes, and the contents of the block then. -/
structure Link where
  lookup : Lookup
  count : Nat
  data : Words

/-- `dirlink` by a caller with references to the inodes `held`. -/
def dirlink (i : Nat) (l : Link) (last : Nat → Bool) (held : List Nat) : FsM Bool := do
  match ← dirlookup sb i l.lookup with
  | some j =>
    iput j (lastRef last held j)
    pure false
  | none =>
    readDirents sb i 0 l.count
    let r ← writei sb i (direntSize * l.count) direntSize ⟨fun _ => false, fun _ => l.data⟩
    pure (r = direntSize)

/-- What the calls of one `create` or `unlink` find. -/
structure Finds where
  name : Lookup
  dot : Link
  dotdot : Link
  link : Link
  last : Nat → Bool
  isEmpty : Bool
  count : Nat

/-- The entries a new inode needs. -/
def linkNew (dp ip : Nat) (type : Int16) (f : Finds) : FsM Bool := do
  let made ←
    if type = T_DIR then do
      if ← dirlink sb ip f.dot f.last [dp, ip] then dirlink sb ip f.dotdot f.last [dp, ip]
      else pure false
    else pure true
  if made then dirlink sb dp f.link f.last [dp, ip] else pure false

/-- `create` in the directory `dp`. -/
def create (dp : Nat) (type major minor : Int16) (f : Finds) : FsM (Option Nat) := do
  ilock dp
  match ← dirlookup sb dp f.name with
  | some ip =>
    iput dp (lastRef f.last [ip] dp)
    ilock ip
    let s ← get
    if type = T_FILE ∧ ((s.ip ip).type = T_FILE ∨ (s.ip ip).type = T_DEVICE) then pure (some ip)
    else
      iput ip (f.last ip)
      pure none
  | none =>
    match ← ialloc sb type with
    | none =>
      iput dp (f.last dp)
      pure none
    | some ip =>
      ilock ip
      setFields ip major minor 1
      if ← linkNew sb dp ip type f then
        when (type = T_DIR) (setNlink dp (· + 1))
        iput dp (lastRef f.last [ip] dp)
        pure (some ip)
      else
        setNlink ip fun _ => 0
        iput ip (lastRef (fun _ => true) [dp] ip)
        iput dp (f.last dp)
        pure none

/-- `sys_unlink` in the directory `dp`, of an entry other than `.` and `..`. -/
def unlink (dp : Nat) (f : Finds) : FsM Int := do
  ilock dp
  match ← dirlookup sb dp f.name with
  | none =>
    iput dp (f.last dp)
    pure (-1)
  | some ip =>
    ilock ip
    let s ← get
    when ((s.ip ip).nlink < 1) (throw .unlinkNlink)
    when ((s.ip ip).type = T_DIR) (readDirents sb ip 2 f.count)
    if (s.ip ip).type = T_DIR ∧ f.isEmpty = false then
      iput ip (lastRef f.last [dp] ip)
      iput dp (f.last dp)
      pure (-1)
    else
      let r ← writei sb dp (direntSize * f.link.count) direntSize
        ⟨fun _ => false, fun _ => f.link.data⟩
      when (r ≠ direntSize) (throw .unlinkWritei)
      when ((s.ip ip).type = T_DIR) (setNlink dp (· - 1))
      iput dp (lastRef f.last [ip] dp)
      setNlink ip (· - 1)
      iput ip (f.last ip)
      pure 0

end Files

/-- The calls on files; those on an inode lock it first. -/
inductive FsOp
  | ialloc (type : Int16)
  | ilock (i : Nat)
  | readi (i : Nat) (off n : UInt32) (fault : Nat → Bool)
  | writei (i : Nat) (off n : UInt32) (c : Copy)
  | itrunc (i : Nat)
  | iput (i : Nat) (last : Bool)
  | create (dp : Nat) (type major minor : Int16) (f : Finds)
  | unlink (dp : Nat) (f : Finds)
  /-- `iget` of another inode takes the entry of `i`, which nobody refers to -/
  | recycle (i : Nat)

def FsOp.run (sb : Superblock) : FsOp → FsM Unit
  | .ialloc type => do
    let _ ← Fs.ialloc sb type
  | .ilock i => Fs.ilock i
  | .readi i off n fault => do
    Fs.ilock i
    let _ ← Fs.readi sb i off.toNat n.toNat fault
  | .writei i off n c => do
    Fs.ilock i
    let _ ← Fs.writei sb i off.toNat n.toNat c
  | .itrunc i => do
    Fs.ilock i
    Fs.itrunc i
  | .iput i last => Fs.iput i last
  | .create dp type major minor f => do
    let _ ← Fs.create sb dp type major minor f
  | .unlink dp f => do
    let _ ← Fs.unlink sb dp f
  | .recycle i => modify fun s => { s with inode := update s.inode i none }

/-- A sequence of calls. -/
def runOps (sb : Superblock) (ops : List FsOp) : FsM Unit := ops.forM (FsOp.run sb)

end Kus.Fs
