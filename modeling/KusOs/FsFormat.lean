import Mathlib

/-!
# On-disk format of the file system

`fs.h` and `stat.h`: the superblock and the dinode as the inode layer reads and
writes them.  The fields of type `short` are 16-bit integers; block addresses and
sizes are natural numbers, on which the inode layer does no arithmetic that could
wrap.
-/

namespace Kus

def BSIZE : Nat := 1024

def NDIRECT : Nat := 12

/-- Block addresses in an indirect block. -/
def NINDIRECT : Nat := BSIZE / 4

def MAXFILE : Nat := NDIRECT + NINDIRECT

def T_DIR : Int16 := 1
def T_FILE : Int16 := 2
def T_DEVICE : Int16 := 3

/-- The fields of `struct superblock` that say where data blocks and inodes are. -/
structure Superblock where
  size : Nat
  nblocks : Nat
  ninodes : Nat

/-- The first data block; the blocks before it are metadata. -/
def Superblock.dataStart (sb : Superblock) : Nat := sb.size - sb.nblocks

/-- `struct dinode`, and the copy of it in `struct inode`. -/
structure Dinode where
  type : Int16
  major : Int16
  minor : Int16
  nlink : Int16
  size : Nat
  addrs : Fin (NDIRECT + 1) → Nat
deriving DecidableEq

/-- `memset(dip, 0, sizeof(*dip))`. -/
def Dinode.zero : Dinode := ⟨0, 0, 0, 0, 0, fun _ => 0⟩

end Kus
