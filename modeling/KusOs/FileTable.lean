import Mathlib
import KusOs.Hoare
import KusOs.Proc
import KusOs.TransitionSystem

/-!
# Open files

The file table (`kernel/file.c`), the descriptors of every process and the calls
that make and drop references to files: `sys_open`, `sys_pipe`, `sys_dup`,
`sys_close`, `kfork`, `kexec` and `kexit`, each run to its end.

Two kinds of things are held by a file as long as it is open: a reference to an
inode, and one end of a pipe.  Inode references and pipe pages are numbered in
the order in which they are taken, so that a thing that is dropped twice, or used
after it was dropped, can be told from a new one at the same address.  The last
four fields of `FileState` record what was taken and what was given back.

Whether a path leads to an inode, whether `kalloc` has a page and whether
`copyout` can store the descriptors are arguments of the calls.  The `ofile` of a
slot that is not in use are as `kexit` left them: neither `freeproc` nor
`allocproc` looks at them.
-/

namespace Kus.Files

open Function Transition

/-- Open files per system. -/
def NFILE : Nat := 100

/-- Open files per process. -/
def NOFILE : Nat := 16

/-- Maximum major device number. -/
def NDEV : Int := 10

def O_RDONLY : UInt32 := 0x000
def O_WRONLY : UInt32 := 0x001
def O_RDWR : UInt32 := 0x002
def O_CREATE : UInt32 := 0x200

/-- The type of an inode, as far as `sys_open` looks at it. -/
inductive InodeType
  | T_DIR | T_FILE | T_DEVICE
deriving DecidableEq, Repr

/-- `enum { FD_NONE, FD_PIPE, FD_INODE, FD_DEVICE }`. -/
inductive FdType
  | FD_NONE | FD_PIPE | FD_INODE | FD_DEVICE
deriving DecidableEq, Repr

/-- A thing a file holds: an inode reference or an end of a pipe. -/
inductive Held
  | inode (r : Nat)
  | pipeEnd (pi : Nat) (writable : Bool)
deriving DecidableEq, Repr

/-- `struct file`; `iref` is the number of the reference behind `ip`. -/
structure File where
  type : FdType
  ref : Nat
  readable : Bool
  writable : Bool
  pipe : Nat
  ip : Nat
  iref : Nat
  off : Nat
  major : Int
deriving DecidableEq, Repr

/-- A zeroed `struct file`, as in the kernel's BSS. -/
def File.zero : File where
  type := .FD_NONE
  ref := 0
  readable := false
  writable := false
  pipe := 0
  ip := 0
  iref := 0
  off := 0
  major := 0

/-- What `fileclose` gives back with the last reference to a file. -/
def File.holds (f : File) : Option Held :=
  match f.type with
  | .FD_NONE => none
  | .FD_PIPE => some (.pipeEnd f.pipe f.writable)
  | .FD_INODE | .FD_DEVICE => some (.inode f.iref)

/-- `readopen` and `writeopen` of a `struct pipe`. -/
structure PipeEnds where
  readopen : Bool
  writeopen : Bool
deriving DecidableEq, Repr

/-- An index into the file table, and a descriptor of a process. -/
abbrev FileIdx := Fin NFILE
abbrev Fd := Slot × Fin NOFILE

structure FileState where
  file : FileIdx → File
  ofile : Fd → Option FileIdx
  live : Slot → Bool
  /-- the pipe pages that are allocated -/
  pipe : Nat → Option PipeEnds
  /-- inode references taken for files -/
  irefs : Nat
  /-- pipe pages allocated -/
  pipes : Nat
  /-- what was given back, latest first -/
  dropped : List Held
  /-- the pipe pages passed to `kfree` -/
  freed : List Nat

inductive FilePanic
  | filedup | fileclose
  /-- a pipe that is not allocated was used -/
  | deadPipe
deriving DecidableEq, Repr

abbrev FileM := StateT FileState (Except FilePanic)

/-- Change the file `f`. -/
@[simps]
def FileState.setFile (s : FileState) (f : FileIdx) (v : File) : FileState :=
  { s with file := update s.file f v }

/-- Set a descriptor. -/
@[simps]
def FileState.setFd (s : FileState) (x : Fd) (o : Option FileIdx) : FileState :=
  { s with ofile := update s.ofile x o }

/-- `filealloc`: the first file without references. -/
def filealloc : FileM (Option FileIdx) := do
  let s ← get
  match (List.finRange NFILE).find? fun f => (s.file f).ref == 0 with
  | none => pure none
  | some f =>
    set (s.setFile f { s.file f with ref := 1 })
    pure (some f)

def filedup (f : FileIdx) : FileM Unit := do
  let s ← get
  if (s.file f).ref < 1 then throw .filedup
  else set (s.setFile f { s.file f with ref := (s.file f).ref + 1 })

/-- `iput` of the inode reference number `r`. -/
def iput (r : Nat) : FileM Unit :=
  modify fun s => { s with dropped := .inode r :: s.dropped }

/-- `pipeclose(pi, writable)`. -/
def pipeclose (pi : Nat) (writable : Bool) : FileM Unit := do
  let s ← get
  match s.pipe pi with
  | none => throw .deadPipe
  | some ends =>
    let ends :=
      if writable then { ends with writeopen := false } else { ends with readopen := false }
    let s := { s with dropped := .pipeEnd pi writable :: s.dropped }
    if ends.readopen = false ∧ ends.writeopen = false then
      set { s with pipe := update s.pipe pi none, freed := pi :: s.freed }
    else set { s with pipe := update s.pipe pi (some ends) }

/-- `fileclose`. -/
def fileclose (f : FileIdx) : FileM Unit := do
  let s ← get
  let ff := s.file f
  if ff.ref < 1 then throw .fileclose
  else if 1 < ff.ref then set (s.setFile f { ff with ref := ff.ref - 1 })
  else
    set (s.setFile f { ff with ref := 0, type := .FD_NONE })
    match ff.type with
    | .FD_PIPE => pipeclose ff.pipe ff.writable
    | .FD_INODE | .FD_DEVICE => iput ff.iref
    | .FD_NONE => pure ()

/-- `fdalloc(f)` in process `p`: the first free descriptor. -/
def fdalloc (p : Slot) (f : FileIdx) : FileM (Option (Fin NOFILE)) := do
  let s ← get
  match (List.finRange NOFILE).find? fun fd => (s.ofile (p, fd)).isNone with
  | none => pure none
  | some fd =>
    set (s.setFd (p, fd) (some f))
    pure (some fd)

/-- `argfd`: the open file behind a descriptor. -/
def argfd (p : Slot) (fd : Int) (s : FileState) : Option (Fin NOFILE × FileIdx) :=
  if h : 0 ≤ fd ∧ fd < NOFILE then
    (s.ofile (p, ⟨fd.toNat, by omega⟩)).map fun f => (⟨fd.toNat, by omega⟩, f)
  else none

def sys_dup (p : Slot) (fd : Int) : FileM Int := do
  match argfd p fd (← get) with
  | none => pure (-1)
  | some (_, f) =>
    match ← fdalloc p f with
    | none => pure (-1)
    | some fd =>
      filedup f
      pure fd

def sys_close (p : Slot) (fd : Int) : FileM Int := do
  match argfd p fd (← get) with
  | none => pure (-1)
  | some (fd, f) =>
    modify fun s => s.setFd (p, fd) none
    fileclose f
    pure 0

/-- The locked inode `create` or `namei` has found. -/
structure Opened where
  ip : Nat
  type : InodeType
  major : Int
deriving DecidableEq, Repr

/-- `sys_open`; `found` is what the path leads to.  Opening it takes a reference
to the inode, which every error exit drops. -/
def sys_open (p : Slot) (found : Option Opened) (omode : UInt32) : FileM Int := do
  match found with
  | none => pure (-1)
  | some ip =>
    let r := (← get).irefs
    modify fun s => { s with irefs := s.irefs + 1 }
    if omode &&& O_CREATE = 0 ∧ ip.type = .T_DIR ∧ omode ≠ O_RDONLY then
      iput r
      pure (-1)
    else if ip.type = .T_DEVICE ∧ (ip.major < 0 ∨ NDEV ≤ ip.major) then
      iput r
      pure (-1)
    else
      match ← filealloc with
      | none =>
        iput r
        pure (-1)
      | some f =>
        match ← fdalloc p f with
        | none =>
          fileclose f
          iput r
          pure (-1)
        | some fd =>
          modify fun s => s.setFile f
            { s.file f with
              type := if ip.type = .T_DEVICE then .FD_DEVICE else .FD_INODE
              major := if ip.type = .T_DEVICE then ip.major else (s.file f).major
              off := if ip.type = .T_DEVICE then (s.file f).off else 0
              ip := ip.ip
              iref := r
              readable := omode &&& O_WRONLY == 0
              writable := omode &&& O_WRONLY != 0 || omode &&& O_RDWR != 0 }
          pure fd

/-- `pipealloc`; `page` says that `kalloc` has a page. -/
def pipealloc (page : Bool) : FileM (Option (FileIdx × FileIdx)) := do
  match ← filealloc with
  | none => pure none
  | some f0 =>
    match ← filealloc with
    | none =>
      fileclose f0
      pure none
    | some f1 =>
      if page then
        modify fun s =>
          let pi := s.pipes
          let t := { s with pipe := update s.pipe pi (some ⟨true, true⟩), pipes := pi + 1 }
          (t.setFile f0
            { s.file f0 with
              type := .FD_PIPE, readable := true, writable := false, pipe := pi }).setFile f1
            { s.file f1 with type := .FD_PIPE, readable := false, writable := true, pipe := pi }
        pure (some (f0, f1))
      else
        fileclose f0
        fileclose f1
        pure none

/-- `sys_pipe`; `copied` says that both descriptors could be stored. -/
def sys_pipe (p : Slot) (page copied : Bool) : FileM Int := do
  match ← pipealloc page with
  | none => pure (-1)
  | some (rf, wf) =>
    match ← fdalloc p rf with
    | none =>
      fileclose rf
      fileclose wf
      pure (-1)
    | some fd0 =>
      match ← fdalloc p wf with
      | none =>
        modify fun s => s.setFd (p, fd0) none
        fileclose rf
        fileclose wf
        pure (-1)
      | some fd1 =>
        if copied then pure 0
        else
          modify fun s => s.setFd (p, fd0) none
          modify fun s => s.setFd (p, fd1) none
          fileclose rf
          fileclose wf
          pure (-1)

/-- The child `np` gets the parent's descriptor `fd`. -/
def forkFd (p np : Slot) (fd : Fin NOFILE) : FileM PUnit := do
  match (← get).ofile (p, fd) with
  | none => pure ()
  | some f =>
    filedup f
    modify fun s => s.setFd (np, fd) (some f)

/-- `kfork` into the slot `np`, or its failure before any file is looked at. -/
def kfork (p np : Slot) (ok : Bool) : FileM Unit := do
  if ok then
    modify fun s => { s with live := update s.live np true }
    (List.finRange NOFILE).forM (forkFd p np)
  else pure ()

/-- `kexit` closes the descriptor `fd`. -/
def exitFd (p : Slot) (fd : Fin NOFILE) : FileM PUnit := do
  match (← get).ofile (p, fd) with
  | none => pure ()
  | some f =>
    fileclose f
    modify fun s => s.setFd (p, fd) none

/-- `kexit`, up to where the slot is no longer in use. -/
def kexit (p : Slot) : FileM Unit := do
  (List.finRange NOFILE).forM (exitFd p)
  modify fun s => { s with live := update s.live p false }

/-- A call with what it meets. -/
inductive FileCall
  | open (found : Option Opened) (omode : UInt32)
  | pipe (page copied : Bool)
  | dup (fd : Int)
  | close (fd : Int)
  | fork (np : Slot) (ok : Bool)
  /-- `kexec` keeps the descriptors -/
  | exec
  | exit
deriving DecidableEq, Repr

/-- The call of process `p`; the result is left out. -/
def FileCall.run (p : Slot) : FileCall → FileM Unit
  | .open found omode => do let _ ← sys_open p found omode
  | .pipe page copied => do let _ ← sys_pipe p page copied
  | .dup fd => do let _ ← sys_dup p fd
  | .close fd => do let _ ← sys_close p fd
  | .fork np ok => kfork p np ok
  | .exec => pure ()
  | .exit => kexit p

/-- The processes that may call, and the slots `allocproc` may give out. -/
def FileCall.Enabled (s : FileState) (p : Slot) (c : FileCall) : Prop :=
  s.live p = true ∧ ∀ np, c = .fork np true → s.live np = false

/-- One call after the other, from a table without open files. -/
def fileSystem : System FileState (Slot × FileCall) where
  init s := (∀ f, s.file f = .zero) ∧ (∀ x, s.ofile x = none) ∧ (∀ k, s.pipe k = none) ∧
    s.irefs = 0 ∧ s.pipes = 0 ∧ s.dropped = [] ∧ s.freed = []
  step s a s' := a.2.Enabled s a.1 ∧ a.2.run a.1 s = .ok ((), s')

end Kus.Files
