import KusOs.BlockLayer
import KusOs.Mkfs

/-!
# Files as bytes

The functions of `fs.c` that read and change the contents of a file, over the bytes
of the blocks.  A block is read through the buffer cache: what it holds is the cached
copy, if there is one, and otherwise what is on the disk.

* `logWrite` puts a block into the log of the open transaction; `commit` copies the
  blocks of the log from the cache to the disk;
* `evict` drops a cached copy, which for a block of the log is not possible;
* `reboot` starts again from the disk, after the transaction has been committed;
* a copy from or to user memory stops at the first byte that is not accessible, and
  what it has copied by then stays where it is.

The bitmap and the dinodes are always logged together with their change, so they are
kept as the cache shows them.
-/

namespace Kus.Volume

open Function Hoare LittleEndian
open Fs (FsPanic Words Store)
open Mkfs (BPB IPB zeroes slice)

/-- A block of the log: of the bitmap, of inodes, or of files. -/
inductive LogBlock
  | bitmap (n : Nat)
  | inode (n : Nat)
  | data (b : Nat)
deriving DecidableEq

structure Vol where
  bitmap : Nat → Bool
  dinode : Nat → Dinode
  /-- the valid entries of the inode table -/
  inode : Nat → Option Dinode
  disk : Nat → Buffer
  cache : Nat → Option Buffer
  log : List LogBlock

abbrev VolM := StateT Vol (Except FsPanic)

/-- What block `b` holds, as `bread` finds it. -/
def Vol.view (v : Vol) (b : Nat) : Buffer := (v.cache b).getD (v.disk b)

/-- The fields of inode `i` as its user sees them. -/
def Vol.ip (v : Vol) (i : Nat) : Dinode := (v.inode i).getD (v.dinode i)

/-- Word `j` of block `b`. -/
def Vol.word (v : Vol) (b : Nat) (j : Nat) : Nat := getLE (v.view b) (4 * j) 4

/-- Change the fields of inode `i` in memory. -/
def Vol.setIp (v : Vol) (i : Nat) (d : Dinode) : Vol :=
  { v with inode := update v.inode i (some d) }

/-- `ip->addrs[k] = b`. -/
def Vol.setAddr (v : Vol) (i : Nat) (k : Fin (NDIRECT + 1)) (b : Nat) : Vol :=
  v.setIp i { v.ip i with addrs := update (v.ip i).addrs k b }

/-- Change the cached copy of block `b`. -/
def Vol.edit (v : Vol) (b : Nat) (f : Buffer → Buffer) : Vol :=
  { v with cache := update v.cache b (some (f (v.view b))) }

/-- A block that is in the log already is absorbed. -/
def Vol.logWrite (v : Vol) (x : LogBlock) : Vol :=
  { v with log := if x ∈ v.log then v.log else v.log ++ [x] }

def edit (b : Nat) (f : Buffer → Buffer) : VolM Unit := modify fun v => v.edit b f

def logWrite (x : LogBlock) : VolM Unit := modify fun v => v.logWrite x

def bzero (b : Nat) : VolM Unit := do
  edit b fun _ => zeroes
  logWrite (.data b)

section Blocks

variable (sb : Superblock)

/-- The first block that is not in use, zeroed, or `0`. -/
def balloc : VolM Nat := do
  let v ← get
  match (List.range sb.size).find? fun b => !v.bitmap b with
  | some b =>
    set { v with bitmap := update v.bitmap b true }
    logWrite (.bitmap (b / BPB))
    bzero b
    pure b
  | none => pure 0

def bfree (b : Nat) : VolM Unit := do
  let v ← get
  if v.bitmap b = false then throw .freeingFreeBlock
  else
    set { v with bitmap := update v.bitmap b false }
    logWrite (.bitmap (b / BPB))

/-- `bmap` for the address `ip->addrs[k]`: allocate the block if there is none. -/
def mapAddr (i : Nat) (k : Fin (NDIRECT + 1)) : VolM Nat := do
  let v ← get
  if (v.ip i).addrs k = 0 then
    let addr ← balloc sb
    if addr = 0 then pure 0
    else
      modify fun v => v.setAddr i k addr
      pure addr
  else pure ((v.ip i).addrs k)

/-- `bmap` for entry `j` of the indirect block `a`. -/
def mapEntry (a : Nat) (j : Fin NINDIRECT) : VolM Nat := do
  let v ← get
  if v.word a j = 0 then
    let addr ← balloc sb
    if addr = 0 then pure 0
    else
      edit a fun buf => putLE buf (4 * j) 4 addr
      logWrite (.data a)
      pure addr
  else pure (v.word a j)

/-- The address of block `bn` of inode `i`, or `0` if the disk is full. -/
def bmap (i bn : Nat) : VolM Nat :=
  if h : bn < NDIRECT then mapAddr sb i ⟨bn, Nat.lt_succ_of_lt h⟩
  else if h : bn - NDIRECT < NINDIRECT then do
    let a ← mapAddr sb i (Fin.last NDIRECT)
    if a = 0 then pure 0
    else mapEntry sb a ⟨bn - NDIRECT, h⟩
  else throw .bmapRange

end Blocks

/-- Copy inode `i` to its dinode. -/
def iupdate (i : Nat) : VolM Unit := do
  modify fun v => { v with dinode := update v.dinode i (v.ip i) }
  logWrite (.inode (i / IPB))

def ilock (i : Nat) : VolM Unit := do
  let v ← get
  match v.inode i with
  | some _ => pure ()
  | none =>
    set (v.setIp i (v.dinode i))
    if (v.dinode i).type = 0 then throw .noType else pure ()

/-- One round of the first loop of `itrunc`. -/
def freeDirect (i : Nat) (k : Fin NDIRECT) : VolM Unit := do
  let v ← get
  if (v.ip i).addrs k.castSucc ≠ 0 then
    bfree ((v.ip i).addrs k.castSucc)
    modify fun v => v.setAddr i k.castSucc 0
  else pure ()

/-- One round of the loop over the indirect block `a`. -/
def freeEntry (a : Nat) (j : Fin NINDIRECT) : VolM Unit := do
  let v ← get
  if v.word a j ≠ 0 then bfree (v.word a j) else pure ()

def freeIndirect (i : Nat) : VolM Unit := do
  let v ← get
  if (v.ip i).addrs (Fin.last NDIRECT) ≠ 0 then
    (List.finRange NINDIRECT).forM (freeEntry ((v.ip i).addrs (Fin.last NDIRECT)))
    bfree ((v.ip i).addrs (Fin.last NDIRECT))
    modify fun v => v.setAddr i (Fin.last NDIRECT) 0
  else pure ()

def itrunc (i : Nat) : VolM Unit := do
  (List.finRange NDIRECT).forM (freeDirect i)
  freeIndirect i
  modify fun v => v.setIp i { v.ip i with size := 0 }
  iupdate i

/-- What a write copies from; only the first `limit` bytes are accessible. -/
structure Source where
  byte : Nat → UInt8
  limit : Nat

/-- The `n` bytes from place `k`. -/
def Source.bytes (src : Source) (k n : Nat) : List UInt8 :=
  (List.range n).map fun j => src.byte (k + j)

/-- Copy `m` bytes of the source, from its byte `tot` on, to offset `o` of block `b`;
the result is whether all of them could be copied. -/
def eitherCopyin (b o : Nat) (src : Source) (tot m : Nat) : VolM Bool := do
  edit b fun buf => blit buf o (src.bytes tot (min m (src.limit - tot)))
  pure (decide (tot + m ≤ src.limit))

section Files

variable (sb : Superblock)

/-- The loop of `writei`; it returns `off` and `tot`.  A round copies at least one
byte, so `n` rounds are enough. -/
def writeLoop (i n : Nat) (src : Source) : Nat → Nat → Nat → VolM (Nat × Nat)
  | 0, off, tot => pure (off, tot)
  | rounds + 1, off, tot =>
    if tot < n then do
      let addr ← bmap sb i (off / BSIZE)
      if addr = 0 then pure (off, tot)
      else
        let m := min (n - tot) (BSIZE - off % BSIZE)
        if ← eitherCopyin addr (off % BSIZE) src tot m then
          logWrite (.data addr)
          writeLoop i n src rounds (off + m) (tot + m)
        else pure (off, tot)
    else pure (off, tot)

def writei (i off n : Nat) (src : Source) : VolM Int := do
  let v ← get
  if (v.ip i).size < off ∨ (off + n) % 2 ^ 32 < off then pure (-1)
  else if MAXFILE * BSIZE < (off + n) % 2 ^ 32 then pure (-1)
  else
    let (off, tot) ← writeLoop sb i n src n off 0
    modify fun v => if (v.ip i).size < off then v.setIp i { v.ip i with size := off } else v
    iupdate i
    pure tot

/-- The loop of `readi`, with the bytes stored so far, of which the destination takes
`limit`; it returns what is stored and whether no copy has failed. -/
def readLoop (i n limit : Nat) : Nat → Nat → List UInt8 → VolM (List UInt8 × Bool)
  | 0, _, got => pure (got, true)
  | rounds + 1, off, got =>
    if got.length < n then do
      let addr ← bmap sb i (off / BSIZE)
      if addr = 0 then pure (got, true)
      else
        let v ← get
        let m := min (n - got.length) (BSIZE - off % BSIZE)
        let part := slice (v.view addr) (off % BSIZE) (min m (limit - got.length))
        if got.length + m ≤ limit then readLoop i n limit rounds (off + m) (got ++ part)
        else pure (got ++ part, false)
    else pure (got, true)

/-- The result of `readi`, and the bytes it stores. -/
def readi (i off n limit : Nat) : VolM (Int × List UInt8) := do
  let v ← get
  if (v.ip i).size < off ∨ (off + n) % 2 ^ 32 < off then pure (0, [])
  else
    let n := if (v.ip i).size < off + n then (v.ip i).size - off else n
    let (got, ok) ← readLoop sb i n limit n off []
    pure (if ok then (got.length, got) else (-1, got))

end Files

namespace Vol

/-- Blocks of the log go to their place on the disk. -/
def commit (v : Vol) : Vol :=
  { v with
    disk := fun b => if .data b ∈ v.log then v.view b else v.disk b
    log := [] }

/-- The buffer of block `b` is taken for another block. -/
def evict (v : Vol) (b : Nat) : Vol :=
  if .data b ∈ v.log then v else { v with cache := update v.cache b none }

def reboot (v : Vol) : Vol :=
  { v.commit with
    cache := fun _ => none
    inode := fun _ => none }

end Vol

end Kus.Volume
