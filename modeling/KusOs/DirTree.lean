import Mathlib
import KusOs.FsFormat
import KusOs.Proc
import KusOs.Hoare
import KusOs.TransitionSystem

/-!
# Directories and the calls that change them

The tree of names of `fs.c` and `sysfile.c`: inodes with their link counts,
directories as arrays of entries, path lookup, and the system calls that make,
remove and hold names, run one call after another.

A process holds its working directory and the inodes of its open files.  Whether
`writei` finds room for an entry and whether a file descriptor is left are
parameters of the calls.  The generation of an inode number counts how often it has
been allocated; an entry remembers the generation it was made for.
-/

namespace Kus.Dir

open Function Hoare

/-- The bytes of a C string. -/
abbrev Path := List UInt8

/-- A name in a directory, up to its NUL. -/
abbrev Name := List UInt8

def DIRSIZ : Nat := 14

def slash : UInt8 := 47

def dot : Name := [46]

def dotdot : Name := [46, 46]

def ROOTINO : Nat := 1

/-- The number of inodes of an image that `mkfs` makes. -/
def NINODES : Nat := 200

def NDEV : Int16 := 10

def NOFILE : Nat := 16

def O_CREATE : UInt32 := 0x200

/-- The first element of a path and what follows it. -/
def skipelem (path : Path) : Option (Name × Path) :=
  let s := path.dropWhile (· == slash)
  if s = [] then none
  else some ((s.takeWhile (· != slash)).take DIRSIZ,
    (s.dropWhile (· != slash)).dropWhile (· == slash))

structure Dirent where
  inum : Nat
  name : Name
  gen : Nat
deriving DecidableEq

/-- A cleared entry. -/
def Dirent.empty : Dirent := ⟨0, [], 0⟩

structure Inode where
  type : Int16
  major : Int16
  nlink : Int16
  dirents : List Dirent
  gen : Nat
deriving DecidableEq

@[simps]
def Inode.withDirents (x : Inode) (ds : List Dirent) : Inode := { x with dirents := ds }

@[simps]
def Inode.withNlink (x : Inode) (n : Int16) : Inode := { x with nlink := n }

/-- The references of a process: its working directory and the inodes of its open
files. -/
structure Proc where
  cwd : Nat
  ofile : Fin NOFILE → Option Nat

structure DirState where
  inode : Nat → Inode
  proc : Fin NPROC → Option Proc

inductive DirPanic
  | noType | notDir | unlinkNlink
deriving DecidableEq

abbrev DirM := StateT DirState (Except DirPanic)

def when (c : Prop) [Decidable c] (x : DirM Unit) : DirM Unit := if c then x else pure ()

def Proc.refers (pr : Proc) (i : Nat) : Bool := pr.cwd == i || decide (∃ fd, pr.ofile fd = some i)

namespace DirState

/-- A process refers to inode `i`. -/
def Referenced (s : DirState) (i : Nat) : Prop :=
  ∃ p, (s.proc p).any (·.refers i) = true

instance (s : DirState) (i : Nat) : Decidable (s.Referenced i) :=
  inferInstanceAs (Decidable (∃ p, (s.proc p).any (·.refers i) = true))

def setInode (s : DirState) (i : Nat) (d : Inode) : DirState :=
  { s with inode := update s.inode i d }

def setDirents (s : DirState) (i : Nat) (ds : List Dirent) : DirState :=
  s.setInode i ((s.inode i).withDirents ds)

def setNlink (s : DirState) (i : Nat) (n : Int16) : DirState :=
  s.setInode i ((s.inode i).withNlink n)

def setProc (s : DirState) (p : Fin NPROC) (pr : Option Proc) : DirState :=
  { s with proc := update s.proc p pr }

/-- `p->ofile[fd] = r`. -/
def setFile (s : DirState) (p : Fin NPROC) (fd : Fin NOFILE) (r : Option Nat) : DirState :=
  s.setProc p ((s.proc p).map fun pr => { pr with ofile := update pr.ofile fd r })

/-- `p->cwd = ip`. -/
def setCwd (s : DirState) (p : Fin NPROC) (ip : Nat) : DirState :=
  s.setProc p ((s.proc p).map fun pr => { pr with cwd := ip })

/-- What `iput` leaves of an inode it frees. -/
def free (s : DirState) (i : Nat) : DirState :=
  s.setInode i { s.inode i with type := 0, dirents := [] }

end DirState

section Inodes

def ilock (i : Nat) : DirM Unit := do
  let s ← get
  when ((s.inode i).type = 0) (throw .noType)

/-- `iput` by a call that still has references to the inodes `held`.  An entry of the
inode table with a type is valid, and it is there as long as it is referred to. -/
def iput (i : Nat) (held : List Nat) : DirM Unit := do
  let s ← get
  when ((s.inode i).type ≠ 0 ∧ (s.inode i).nlink = 0 ∧ ¬ s.Referenced i ∧ i ∉ held)
    (set (s.free i))

/-- The first free inode, with its fields cleared. -/
def ialloc (type : Int16) : DirM (Option Nat) := do
  let s ← get
  match (List.range' 1 (NINODES - 1)).find? fun i => (s.inode i).type = 0 with
  | some i =>
    set (s.setInode i ⟨type, 0, 0, [], (s.inode i).gen + 1⟩)
    pure (some i)
  | none => pure none

end Inodes

section Entries

/-- The first entry with a name: its place and its inode. -/
def lookup (name : Name) : List Dirent → Option (Nat × Nat)
  | [] => none
  | e :: ds =>
    if e.inum ≠ 0 ∧ e.name = name then some (0, e.inum)
    else (lookup name ds).map fun r => (r.1 + 1, r.2)

/-- Write an entry over the first cleared one, or at the end. -/
def insertEntry (e : Dirent) : List Dirent → List Dirent
  | [] => [e]
  | d :: ds => if d.inum = 0 then e :: ds else d :: insertEntry e ds

def dirlookup (dp : Nat) (name : Name) : DirM (Option (Nat × Nat)) := do
  let s ← get
  when ((s.inode dp).type ≠ T_DIR) (throw .notDir)
  pure (lookup name (s.inode dp).dirents)

/-- `dirlink`; `room` says whether `writei` can write the entry. -/
def dirlink (dp : Nat) (name : Name) (inum : Nat) (room : Bool) (held : List Nat) : DirM Bool := do
  match ← dirlookup dp name with
  | some (_, j) =>
    iput j held
    pure false
  | none =>
    if room then
      modify fun s => s.setDirents dp
        (insertEntry ⟨inum, name, (s.inode inum).gen⟩ (s.inode dp).dirents)
      pure true
    else pure false

/-- No entries but the first two. -/
def isdirempty (ds : List Dirent) : Bool := (ds.drop 2).all fun e => e.inum == 0

end Entries

section Paths

/-- The loop of `namex`.  Every round takes at least one byte of the path, so as many
rounds as it has bytes are enough. -/
def namexLoop (nameiparent : Bool) (held : List Nat) :
    Nat → Nat → Path → DirM (Option (Nat × Name))
  | 0, _, _ => pure none
  | rounds + 1, ip, path =>
    match skipelem path with
    | none =>
      if nameiparent then do
        iput ip held
        pure none
      else pure (some (ip, []))
    | some (name, path) => do
      ilock ip
      let s ← get
      if (s.inode ip).type ≠ T_DIR then
        iput ip held
        pure none
      else if nameiparent ∧ path = [] then pure (some (ip, name))
      else
        match ← dirlookup ip name with
        | none =>
          iput ip held
          pure none
        | some (_, next) =>
          iput ip (next :: held)
          namexLoop nameiparent held rounds next path

/-- Where a path starts. -/
def pathStart (cwd : Nat) (path : Path) : Nat :=
  if path.head? = some slash then ROOTINO else cwd

def namei (cwd : Nat) (path : Path) (held : List Nat) : DirM (Option Nat) := do
  let r ← namexLoop false held (path.length + 1) (pathStart cwd path) path
  pure (r.map Prod.fst)

def nameiparent (cwd : Nat) (path : Path) (held : List Nat) : DirM (Option (Nat × Name)) :=
  namexLoop true held (path.length + 1) (pathStart cwd path) path

end Paths

/-- Whether there is room for the entries a call makes. -/
structure Room where
  dot : Bool
  dotdot : Bool
  name : Bool

section Calls

/-- The entries a new inode needs. -/
def linkNew (dp ip : Nat) (name : Name) (type : Int16) (room : Room) : DirM Bool := do
  if type = T_DIR then
    if ← dirlink ip dot ip room.dot [dp, ip] then
      if ← dirlink ip dotdot dp room.dotdot [dp, ip] then
        dirlink dp name ip room.name [dp, ip]
      else pure false
    else pure false
  else dirlink dp name ip room.name [dp, ip]

/-- `create` of a name that is not in `dp`. -/
def createNew (dp : Nat) (name : Name) (type major : Int16) (room : Room) :
    DirM (Option Nat) := do
  match ← ialloc type with
  | none =>
    iput dp []
    pure none
  | some ip =>
    ilock ip
    modify fun s => s.setInode ip { s.inode ip with major := major, nlink := 1 }
    if ← linkNew dp ip name type room then
      when (type = T_DIR) (modify fun s => s.setNlink dp ((s.inode dp).nlink + 1))
      iput dp [ip]
      pure (some ip)
    else
      modify fun s => s.setNlink ip 0
      iput ip [dp]
      iput dp []
      pure none

/-- The inode that `create` returns stays referred to by the call. -/
def create (cwd : Nat) (path : Path) (type major : Int16) (room : Room) : DirM (Option Nat) := do
  match ← nameiparent cwd path [] with
  | none => pure none
  | some (dp, name) =>
    ilock dp
    match ← dirlookup dp name with
    | some (_, ip) =>
      iput dp [ip]
      ilock ip
      let s ← get
      if type = T_FILE ∧ ((s.inode ip).type = T_FILE ∨ (s.inode ip).type = T_DEVICE) then
        pure (some ip)
      else
        iput ip []
        pure none
    | none => createNew dp name type major room

/-- The way out of `sys_link` that takes the new link back. -/
def linkBad (ip : Nat) : DirM Int := do
  ilock ip
  modify fun s => s.setNlink ip ((s.inode ip).nlink - 1)
  iput ip []
  pure (-1)

def sys_link (cwd : Nat) (old new : Path) (room : Bool) : DirM Int := do
  match ← namei cwd old [] with
  | none => pure (-1)
  | some ip =>
    ilock ip
    let s ← get
    if (s.inode ip).type = T_DIR then
      iput ip []
      pure (-1)
    else
      modify fun s => s.setNlink ip ((s.inode ip).nlink + 1)
      match ← nameiparent cwd new [ip] with
      | none => linkBad ip
      | some (dp, name) =>
        ilock dp
        if ← dirlink dp name ip room [dp, ip] then
          iput dp [ip]
          iput ip []
          pure 0
        else
          iput dp [ip]
          linkBad ip

def sys_unlink (cwd : Nat) (path : Path) : DirM Int := do
  match ← nameiparent cwd path [] with
  | none => pure (-1)
  | some (dp, name) =>
    ilock dp
    if name = dot ∨ name = dotdot then
      iput dp []
      pure (-1)
    else
      match ← dirlookup dp name with
      | none =>
        iput dp []
        pure (-1)
      | some (off, ip) =>
        ilock ip
        let s ← get
        when ((s.inode ip).nlink < 1) (throw .unlinkNlink)
        if (s.inode ip).type = T_DIR ∧ isdirempty (s.inode ip).dirents = false then
          iput ip [dp]
          iput dp []
          pure (-1)
        else
          modify fun s => s.setDirents dp ((s.inode dp).dirents.set off Dirent.empty)
          when ((s.inode ip).type = T_DIR)
            (modify fun s => s.setNlink dp ((s.inode dp).nlink - 1))
          iput dp [ip]
          modify fun s => s.setNlink ip ((s.inode ip).nlink - 1)
          iput ip []
          pure 0

/-- The inode `sys_open` opens; `O_TRUNC` changes no directory. -/
def openInode (cwd : Nat) (path : Path) (omode : UInt32) (room : Room) : DirM (Option Nat) := do
  if omode &&& O_CREATE ≠ 0 then create cwd path T_FILE 0 room
  else
    match ← namei cwd path [] with
    | none => pure none
    | some ip =>
      ilock ip
      let s ← get
      if (s.inode ip).type = T_DIR ∧ omode ≠ 0 then
        iput ip []
        pure none
      else pure (some ip)

/-- The first free descriptor. -/
def fdalloc (pr : Proc) : Option (Fin NOFILE) :=
  (List.finRange NOFILE).find? fun fd => (pr.ofile fd).isNone

/-- `sys_open` of process `p`; `noFile` says that `filealloc` fails. -/
def sys_open (p : Fin NPROC) (pr : Proc) (path : Path) (omode : UInt32) (room : Room)
    (noFile : Bool) : DirM Int := do
  match ← openInode pr.cwd path omode room with
  | none => pure (-1)
  | some ip =>
    let s ← get
    if (s.inode ip).type = T_DEVICE ∧ ((s.inode ip).major < 0 ∨ NDEV ≤ (s.inode ip).major) then
      iput ip []
      pure (-1)
    else
      match if noFile then none else fdalloc pr with
      | none =>
        iput ip []
        pure (-1)
      | some fd =>
        modify fun s => s.setFile p fd (some ip)
        pure fd

/-- `sys_mkdir` and `sys_mknod`. -/
def makeNode (cwd : Nat) (path : Path) (type major : Int16) (room : Room) : DirM Int := do
  match ← create cwd path type major room with
  | none => pure (-1)
  | some ip =>
    iput ip []
    pure 0

def sys_chdir (p : Fin NPROC) (pr : Proc) (path : Path) : DirM Int := do
  match ← namei pr.cwd path [] with
  | none => pure (-1)
  | some ip =>
    ilock ip
    let s ← get
    if (s.inode ip).type ≠ T_DIR then
      iput ip []
      pure (-1)
    else
      modify fun s => s.setCwd p ip
      iput pr.cwd []
      pure 0

/-- `fileclose` of a descriptor of process `p`, if it is open. -/
def closeFile (p : Fin NPROC) (fd : Fin NOFILE) : DirM Unit := do
  let s ← get
  match (s.proc p).bind fun pr => pr.ofile fd with
  | none => pure ()
  | some ip =>
    set (s.setFile p fd none)
    iput ip []

def kexit (p : Fin NPROC) (pr : Proc) : DirM Unit := do
  (List.finRange NOFILE).forM (closeFile p)
  modify fun s => s.setProc p none
  iput pr.cwd []

end Calls

inductive Call
  | open (path : Path) (omode : UInt32) (room : Room) (noFile : Bool)
  | mkdir (path : Path) (room : Room)
  | mknod (path : Path) (major : Int16) (room : Room)
  | link (old new : Path) (room : Bool)
  | unlink (path : Path)
  | chdir (path : Path)
  | close (fd : Fin NOFILE)
  | exit
  /-- a child in a free slot, with the same references -/
  | fork (child : Fin NPROC)

/-- A call of process `p`, whose references are `pr`. -/
def Call.run (p : Fin NPROC) (pr : Proc) : Call → DirM Unit
  | .open path omode room noFile => do
    let _ ← sys_open p pr path omode room noFile
  | .mkdir path room => do
    let _ ← makeNode pr.cwd path T_DIR 0 room
  | .mknod path major room => do
    let _ ← makeNode pr.cwd path T_DEVICE major room
  | .link old new room => do
    let _ ← sys_link pr.cwd old new room
  | .unlink path => do
    let _ ← sys_unlink pr.cwd path
  | .chdir path => do
    let _ ← sys_chdir p pr path
  | .close fd => closeFile p fd
  | .exit => kexit p pr
  | .fork child => do
    let s ← get
    when (s.proc child = none) (set (s.setProc child (some pr)))

/-- The files in an image: their short names. -/
structure Image where
  files : List Name
  fits : files.length + 2 ≤ NINODES
  plain : ∀ name ∈ files, name ≠ dot ∧ name ≠ dotdot

/-- The root directory of an image, padded to whole blocks. -/
def Image.rootDirents (img : Image) : List Dirent :=
  let ds := ⟨ROOTINO, dot, 0⟩ :: ⟨ROOTINO, dotdot, 0⟩ ::
    img.files.mapIdx fun k name => ⟨k + 2, name, 0⟩
  ds ++ List.replicate ((ds.length / 64 + 1) * 64 - ds.length) Dirent.empty

/-- What `mkfs` makes, with the first process in its root directory. -/
def mkfs (img : Image) : DirState where
  inode i :=
    if i = ROOTINO then ⟨T_DIR, 0, 1, img.rootDirents, 0⟩
    else if 2 ≤ i ∧ i < img.files.length + 2 then ⟨T_FILE, 0, 1, [], 0⟩
    else ⟨0, 0, 0, [], 0⟩
  proc p := if p = ⟨0, by decide⟩ then some ⟨ROOTINO, fun _ => none⟩ else none

/-- The file system between two calls, or the panic that has stopped the kernel. -/
structure World where
  fs : DirState
  panic : Option DirPanic

/-- The outcome of a call of process `p`. -/
def World.call (w : World) (p : Fin NPROC) (c : Call) : World :=
  match w.fs.proc p with
  | none => w
  | some pr =>
    match c.run p pr w.fs with
    | .ok (_, s) => ⟨s, none⟩
    | .error e => ⟨w.fs, some e⟩

end Kus.Dir
