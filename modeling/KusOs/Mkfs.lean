import KusOs.DirTree
import KusOs.LittleEndian

/-!
# mkfs, and how the kernel reads what it wrote

`mkfs/mkfs.c` writes the image block by block, down to the bytes of a `struct
dinode`, a `struct dirent` and the bitmap; `readsb`, `ilock`, `bmap`, `readi`,
`dirlookup` and `namei` of `kernel/fs.c` read it.  The two sides share the layout of
the structures and nothing else.

* An input file is its argument of `main` and what the successive calls of `read`
  return, or the failure of `open`.
* The image is a host file: `rsect` fails beyond its end, `wsect` extends it.
* Numbers are stored in RISC-V byte order, which is what `xint` and `xshort` see to.
  A block number times `BSIZE` does not reach `2 ^ 32`: `rsect` fails long before.
* The kernel allocates a block where `bmap` meets a zero address.  The functions
  that read the image stop there instead.
-/

namespace Kus.Mkfs

open Function LittleEndian Kus.Dir

/-! ### The layout -/

def FSSIZE : Nat := 2000
def LOGBLOCKS : Nat := 30
def FSMAGIC : Nat := 0x10203040

/-- `sizeof(struct dinode)`. -/
def dinodeSize : Nat := 64

/-- Inodes per block. -/
def IPB : Nat := BSIZE / dinodeSize

/-- Bitmap bits per block. -/
def BPB : Nat := BSIZE * 8

def nbitmap : Nat := FSSIZE / BPB + 1
def ninodeblocks : Nat := NINODES / IPB + 1
def nlog : Nat := LOGBLOCKS + 1

/-- Number of meta blocks (boot, sb, nlog, inode, bitmap). -/
def nmeta : Nat := 2 + nlog + ninodeblocks + nbitmap

/-- `struct superblock`. -/
structure Super where
  magic : Nat
  size : Nat
  nblocks : Nat
  ninodes : Nat
  nlog : Nat
  logstart : Nat
  inodestart : Nat
  bmapstart : Nat
deriving DecidableEq, Repr

/-- The superblock `main` fills in. -/
def sb : Super where
  magic := FSMAGIC
  size := FSSIZE
  nblocks := FSSIZE - nmeta
  ninodes := NINODES
  nlog := nlog
  logstart := 2
  inodestart := 2 + nlog
  bmapstart := 2 + nlog + ninodeblocks

/-- Block containing inode `i`. -/
def IBLOCK (i : Nat) (sb : Super) : Nat := i / IPB + sb.inodestart

/-- Block of free map containing bit for block `b`. -/
def BBLOCK (b : Nat) (sb : Super) : Nat := b / BPB + sb.bmapstart

/-- A `short` in memory. -/
def getShort (buf : Buffer) (off : Nat) : Int16 := (UInt16.ofNat (getLE buf off 2)).toInt16

def putShort (buf : Buffer) (off : Nat) (v : Int16) : Buffer := putLE buf off 2 v.toUInt16.toNat

/-- The `struct dinode` at an offset. -/
def getDinode (buf : Buffer) (o : Nat) : Dinode where
  type := getShort buf o
  major := getShort buf (o + 2)
  minor := getShort buf (o + 4)
  nlink := getShort buf (o + 6)
  size := getLE buf (o + 8) 4
  addrs k := getLE buf (o + 12 + 4 * k) 4

/-- The addresses of a dinode as an array of words. -/
def addrWords (d : Dinode) (k : Nat) : Nat :=
  if h : k < NDIRECT + 1 then d.addrs ⟨k, h⟩ else 0

def putDinode (buf : Buffer) (o : Nat) (d : Dinode) : Buffer :=
  let buf := putShort buf o d.type
  let buf := putShort buf (o + 2) d.major
  let buf := putShort buf (o + 4) d.minor
  let buf := putShort buf (o + 6) d.nlink
  let buf := putLE buf (o + 8) 4 d.size
  putWords buf (o + 12) (NDIRECT + 1) (addrWords d)

/-- The `struct dirent` of a name: `strncpy` pads the name with zeros. -/
def direntBytes (inum : Nat) (name : Name) : List UInt8 :=
  [byteAt inum 0, byteAt inum 1] ++ name.take DIRSIZ ++
    List.replicate (DIRSIZ - name.length) 0

/-- The words of a superblock. -/
def superWords (sb : Super) (k : Nat) : Nat :=
  [sb.magic, sb.size, sb.nblocks, sb.ninodes, sb.nlog, sb.logstart, sb.inodestart,
    sb.bmapstart].getD k 0

/-! ### mkfs -/

inductive Die
  | assertion | openFile | read
deriving DecidableEq, Repr

structure Mk where
  /-- the blocks of the image -/
  img : Nat → Buffer
  /-- its length in blocks -/
  size : Nat
  freeinode : Nat
  freeblock : Nat

abbrev MkM := StateT Mk (Except Die)

def zeroes : Buffer := fun _ => 0

def wsect (sec : Nat) (buf : Buffer) : MkM Unit :=
  modify fun s => { s with
    img := update s.img sec buf
    size := max s.size (sec + 1) }

def rsect (sec : Nat) : MkM Buffer := do
  let s ← get
  if sec < s.size then pure (s.img sec) else throw .read

def winode (inum : Nat) (d : Dinode) : MkM Unit := do
  let bn := IBLOCK inum sb
  let buf ← rsect bn
  wsect bn (putDinode buf (dinodeSize * (inum % IPB)) d)

def rinode (inum : Nat) : MkM Dinode := do
  let buf ← rsect (IBLOCK inum sb)
  pure (getDinode buf (dinodeSize * (inum % IPB)))

/-- The dinode of a new inode. -/
def newDinode (type : Int16) : Dinode := { Dinode.zero with type := type, nlink := 1 }

def ialloc (type : Int16) : MkM Nat := do
  let inum := (← get).freeinode
  modify fun s => { s with freeinode := s.freeinode + 1 }
  winode inum (newDinode type)
  pure inum

/-- `freeblock++`. -/
def nextBlock : MkM Nat := do
  let b := (← get).freeblock
  modify fun s => { s with freeblock := s.freeblock + 1 }
  pure b

def setAddr (d : Dinode) (k : Fin (NDIRECT + 1)) (b : Nat) : Dinode :=
  { d with addrs := update d.addrs k b }

/-- The index of the indirect block. -/
def indirect : Fin (NDIRECT + 1) := ⟨NDIRECT, by omega⟩

/-- An address of the dinode in memory, allocated if it is zero. -/
def addrFor (d : Dinode) (k : Fin (NDIRECT + 1)) : MkM Dinode := do
  if d.addrs k = 0 then do
    let b ← nextBlock
    pure (setAddr d k b)
  else pure d

/-- The block of `iappend` for the file's block `fbn`. -/
def blockFor (d : Dinode) (fbn : Nat) : MkM (Dinode × Nat) := do
  if h : fbn < NDIRECT then
    let k : Fin (NDIRECT + 1) := ⟨fbn, by omega⟩
    let d ← addrFor d k
    pure (d, d.addrs k)
  else
    let d ← addrFor d indirect
    let buf ← rsect (d.addrs indirect)
    let off := 4 * (fbn - NDIRECT)
    if getLE buf off 4 = 0 then
      let b ← nextBlock
      wsect (d.addrs indirect) (putLE buf off 4 b)
      pure (d, b)
    else pure (d, getLE buf off 4)

/-- The loop of `iappend`.  A round takes at least one byte, so as many rounds as there
are bytes are enough. -/
def iappendLoop : Nat → Dinode → Nat → List UInt8 → MkM (Dinode × Nat)
  | 0, d, off, _ => pure (d, off)
  | rounds + 1, d, off, p => do
    if p = [] then pure (d, off)
    else
      let fbn := off / BSIZE
      if fbn < MAXFILE then
        let (d, x) ← blockFor d fbn
        let n1 := min p.length ((fbn + 1) * BSIZE - off)
        let buf ← rsect x
        wsect x (blit buf (off - fbn * BSIZE) (p.take n1))
        iappendLoop rounds d (off + n1) (p.drop n1)
      else throw .assertion

def iappend (inum : Nat) (p : List UInt8) : MkM Unit := do
  let d ← rinode inum
  let (d, off) ← iappendLoop p.length d d.size p
  winode inum { d with size := off }

/-- The bitmap block with the first `used` bits set. -/
def bitmapBuf (used : Nat) : Buffer :=
  (List.range used).foldl
    (fun buf i => update buf (i / 8) (buf (i / 8) ||| 1 <<< UInt8.ofNat (i % 8))) zeroes

def balloc (used : Nat) : MkM Unit := do
  if used < BPB then wsect sb.bmapstart (bitmapBuf used)
  else throw .assertion

/-- An input file: the argument, and what `read` returns until it returns no more;
`none` if the file cannot be opened. -/
structure HostFile where
  arg : List UInt8
  no_nul : ∀ b ∈ arg, b ≠ 0
  chunks : Option (List (List UInt8))

/-- The bytes of the file. -/
def HostFile.bytes (f : HostFile) : List UInt8 := (f.chunks.getD []).flatten

/-- `"user/"`. -/
def userDir : List UInt8 := [117, 115, 101, 114, 47]

/-- The argument without `user/`. -/
def HostFile.base (f : HostFile) : List UInt8 :=
  if userDir <+: f.arg then f.arg.drop 5 else f.arg

/-- The name in the file system, without a leading `_`. -/
def HostFile.shortname (f : HostFile) : Name :=
  match f.base with
  | 95 :: rest => rest
  | base => base

/-- One round of the loop of `main`. -/
def addFile (rootino : Nat) (f : HostFile) : MkM Unit := do
  if slash ∈ f.base then throw .assertion
  else
    match f.chunks with
    | none => throw .openFile
    | some chunks =>
      if f.shortname.length ≤ DIRSIZ then
        let inum ← ialloc T_FILE
        iappend rootino (direntBytes inum f.shortname)
        chunks.forM (iappend inum)
      else throw .assertion

/-- The first `n` blocks are zeroed.  Irreducible, since unfolding it for `FSSIZE` is too
much for the elaborator. -/
@[irreducible] def zeroImage (n : Nat) : MkM Unit := (List.range n).forM fun i => wsect i zeroes

/-- `main`, after the image was opened. -/
def mainProgram (files : List HostFile) : MkM Unit := do
  zeroImage FSSIZE
  wsect 1 (putWords zeroes 0 8 (superWords sb))
  let rootino ← ialloc T_DIR
  if rootino = ROOTINO then
    iappend rootino (direntBytes rootino dot)
    iappend rootino (direntBytes rootino dotdot)
    files.forM (addFile rootino)
    -- fix size of root inode dir
    let din ← rinode rootino
    winode rootino { din with size := (din.size / BSIZE + 1) * BSIZE }
    balloc (← get).freeblock
  else throw .assertion

/-- An empty image file. -/
def Mk.start : Mk := ⟨fun _ => zeroes, 0, 1, nmeta⟩

/-- `mkfs fs.img files...`. -/
def mkfs (files : List HostFile) : Except Die Mk :=
  (mainProgram files Mk.start).map Prod.snd

/-! ### The kernel -/

inductive Trouble
  /-- `bmap` would allocate a block -/
  | alloc
  | bmapRange | dirlookupNotDir | dirlookupRead | ilockNoType
deriving DecidableEq, Repr

def readsb (img : Nat → Buffer) : Super where
  magic := getLE (img 1) 0 4
  size := getLE (img 1) 4 4
  nblocks := getLE (img 1) 8 4
  ninodes := getLE (img 1) 12 4
  nlog := getLE (img 1) 16 4
  logstart := getLE (img 1) 20 4
  inodestart := getLE (img 1) 24 4
  bmapstart := getLE (img 1) 28 4

/-- The dinode of an inode, where the superblock of the image says it is. -/
def dinodeOf (img : Nat → Buffer) (inum : Nat) : Dinode :=
  getDinode (img (IBLOCK inum (readsb img))) (dinodeSize * (inum % IPB))

def ilock (img : Nat → Buffer) (inum : Nat) : Except Trouble Dinode :=
  let ip := dinodeOf img inum
  if ip.type = 0 then throw .ilockNoType else pure ip

/-- The word `j` of the indirect block of a dinode. -/
def indirectWord (img : Nat → Buffer) (ip : Dinode) (j : Nat) : Nat :=
  getLE (img (ip.addrs indirect)) (4 * j) 4

def bmap (img : Nat → Buffer) (ip : Dinode) (bn : Nat) : Except Trouble Nat :=
  if h : bn < NDIRECT then
    let addr := ip.addrs ⟨bn, by omega⟩
    if addr = 0 then throw .alloc else pure addr
  else if bn - NDIRECT < NINDIRECT then
    if ip.addrs indirect = 0 then throw .alloc
    else
      let addr := indirectWord img ip (bn - NDIRECT)
      if addr = 0 then throw .alloc else pure addr
  else throw .bmapRange

/-- The bytes `off`, ..., `off + m - 1` of a block. -/
def slice (buf : Buffer) (off m : Nat) : List UInt8 := (List.range m).map fun k => buf (off + k)

/-- The loop of `readi`, with a round for every byte that is left at most. -/
def readiLoop (img : Nat → Buffer) (ip : Dinode) : Nat → Nat → Nat → Except Trouble (List UInt8)
  | 0, _, _ => pure []
  | rounds + 1, off, n => do
    if n = 0 then pure []
    else
      let addr ← bmap img ip (off / BSIZE)
      let m := min n (BSIZE - off % BSIZE)
      let rest ← readiLoop img ip rounds (off + m) (n - m)
      pure (slice (img addr) (off % BSIZE) m ++ rest)

def readi (img : Nat → Buffer) (ip : Dinode) (off n : Nat) : Except Trouble (List UInt8) :=
  if ip.size < off ∨ 2 ^ 32 ≤ off + n then pure []
  else
    let n := min n (ip.size - off)
    readiLoop img ip n off n

/-- `strncmp(s, t, n) == 0`; a list that is over stands for its NUL. -/
def strncmpEq : Nat → List UInt8 → List UInt8 → Bool
  | 0, _, _ => true
  | n + 1, s, t =>
    if s.headD 0 ≠ t.headD 0 then false
    else if s.headD 0 = 0 then true
    else strncmpEq n s.tail t.tail

/-- The loop of `dirlookup`, with a round for every entry that is left at most. -/
def dirlookupLoop (img : Nat → Buffer) (dp : Dinode) (name : Name) :
    Nat → Nat → Except Trouble (Option Nat)
  | 0, _ => pure none
  | rounds + 1, off => do
    if off < dp.size then
      let de ← readi img dp off 16
      if de.length = 16 then
        let inum := (de.getD 0 0).toNat + 256 * (de.getD 1 0).toNat
        if inum = 0 then dirlookupLoop img dp name rounds (off + 16)
        else if strncmpEq DIRSIZ name (de.drop 2) then pure (some inum)
        else dirlookupLoop img dp name rounds (off + 16)
      else throw .dirlookupRead
    else pure none

def dirlookup (img : Nat → Buffer) (dp : Dinode) (name : Name) : Except Trouble (Option Nat) :=
  if dp.type = T_DIR then dirlookupLoop img dp name dp.size 0
  else throw .dirlookupNotDir

/-- The loop of `namex`, with a round for every byte of the path at most. -/
def namexLoop (img : Nat → Buffer) : Nat → Nat → Path → Except Trouble (Option Nat)
  | 0, ip, _ => pure (some ip)
  | rounds + 1, ip, path =>
    match skipelem path with
    | none => pure (some ip)
    | some (name, path) => do
      let dp ← ilock img ip
      if dp.type = T_DIR then
        match ← dirlookup img dp name with
        | none => pure none
        | some next => namexLoop img rounds next path
      else pure none

/-- `namei` of a path from the root. -/
def namei (img : Nat → Buffer) (path : Path) : Except Trouble (Option Nat) :=
  namexLoop img (path.length + 1) ROOTINO path

/-! ### Consistency -/

/-- The bit of the free map for block `b`. -/
def bitOf (img : Nat → Buffer) (b : Nat) : Bool :=
  (img (BBLOCK b (readsb img)) (b % BPB / 8) &&& 1 <<< UInt8.ofNat (b % BPB % 8)) != 0

/-- The address of a block of a file, zero if it has none. -/
def blockAddr (img : Nat → Buffer) (ip : Dinode) (bn : Nat) : Nat :=
  if h : bn < NDIRECT then ip.addrs ⟨bn, by omega⟩
  else if ip.addrs indirect = 0 then 0
  else indirectWord img ip (bn - NDIRECT)

/-- The dinode refers to the block `b`, for data or as its indirect block. -/
def RefersTo (img : Nat → Buffer) (ip : Dinode) (b : Nat) : Prop :=
  b ≠ 0 ∧ (ip.addrs indirect = b ∨ ∃ bn, bn < MAXFILE ∧ blockAddr img ip bn = b)

/-- The image is a file system with these files. -/
structure Consistent (m : Mk) (files : List HostFile) : Prop where
  /-- `namei("/name")` and `readi` yield the bytes of each file -/
  content : ∀ f ∈ files, ∃ inum ip, namei m.img (slash :: f.shortname) = .ok (some inum) ∧
    ilock m.img inum = .ok ip ∧ readi m.img ip 0 ip.size = .ok f.bytes
  /-- every inode used is one of the superblock's -/
  inums : ∀ i, 1 ≤ i → i < m.freeinode → i < sb.ninodes
  /-- no holes -/
  mapped : ∀ i, 1 ≤ i → i < m.freeinode → ∀ bn, bn * BSIZE < (dinodeOf m.img i).size →
    blockAddr m.img (dinodeOf m.img i) bn ≠ 0
  /-- no two inodes share a block -/
  disjoint : ∀ i j, 1 ≤ i → i < m.freeinode → 1 ≤ j → j < m.freeinode → i ≠ j → ∀ b,
    RefersTo m.img (dinodeOf m.img i) b → ¬ RefersTo m.img (dinodeOf m.img j) b
  /-- the bitmap marks the metadata and the blocks referred to -/
  bitmap : ∀ b, b < (readsb m.img).size → (bitOf m.img b = true ↔
    b < nmeta ∨ ∃ i, 1 ≤ i ∧ i < m.freeinode ∧ RefersTo m.img (dinodeOf m.img i) b)

end Kus.Mkfs
