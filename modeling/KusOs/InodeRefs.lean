import Mathlib
import KusOs.FileNodes
import KusOs.InodeTable

/-!
# References to inodes

The inode table as one call sees it that runs alone: which inodes are referred to, how
often, and which of them are locked.  A valid entry is a copy of the dinode in the
volume.

* `iget`, `idup`, `ilock`, `iunlock`, `iput` — the functions of `fs.c`;
* `At` — the volume up to which of its entries are valid, the references and the locks;
* `iput_keep` and `iput_free` — **`iput` takes a reference back, and frees the
  inode only if it has no link and no other reference**.

A call that waits for a lock it holds itself never returns; here it stops.
-/

namespace Kus.Names

open Hoare
open Fs (FsPanic)
open Itable (NINODE)
open Volume (Vol VolM Held Same Quiet Logs freeInode)

structure Mount where
  vol : Vol
  /-- one element for every reference -/
  refs : Multiset Nat
  locked : List Nat

inductive Stop
  | fs (e : FsPanic)
  | igetNone | ilock | iunlock | asleep
  | dirlookupRead | dirlinkRead | isdiremptyRead
  | tooBig
deriving DecidableEq

abbrev MountM := StateT Mount (Except Stop)

/-- A part of a call that works on the volume. -/
def onVol {α : Type} (x : VolM α) : MountM α := fun m =>
  match x m.vol with
  | .ok (a, v) => .ok (a, { m with vol := v })
  | .error e => .error (.fs e)

def when (c : Prop) [Decidable c] (x : MountM Unit) : MountM Unit := if c then x else pure ()

def iget (i : Nat) : MountM Unit := do
  let m ← get
  if i ∈ m.refs then set { m with refs := i ::ₘ m.refs }
  else if m.refs.dedup.card < NINODE then
    set { m with vol := m.vol.drop i, refs := i ::ₘ m.refs }
  else throw .igetNone

def idup (i : Nat) : MountM Unit := modify fun m => { m with refs := i ::ₘ m.refs }

def ilock (i : Nat) : MountM Unit := do
  let m ← get
  if i ∉ m.refs then throw .ilock
  else if i ∈ m.locked then throw .asleep
  else
    onVol (Volume.ilock i)
    modify fun m => { m with locked := i :: m.locked }

def iunlock (i : Nat) : MountM Unit := do
  let m ← get
  if i ∉ m.locked ∨ i ∉ m.refs then throw .iunlock
  else set { m with locked := m.locked.erase i }

def iput (i : Nat) : MountM Unit := do
  let m ← get
  when (m.refs.count i = 1 ∧ (m.vol.inode i).isSome = true ∧ (m.vol.ip i).nlink = 0) do
    when (i ∈ m.locked) (throw .asleep)
    onVol (freeInode i)
  modify fun m => { m with refs := m.refs.erase i }

def iunlockput (i : Nat) : MountM Unit := do
  iunlock i
  iput i

/-- The state of a call: the volume is `v` but for the entries that are valid, `R` are
the references and `L` the locks. -/
structure At (sb : Superblock) (v : Vol) (R : Multiset Nat) (L : List Nat) (m : Mount) :
    Prop where
  same : Same v m.vol
  held : Held sb L m.vol
  refs : m.refs = R
  locked : m.locked = L
  backed : ∀ i ∈ L, i ∈ R

/-- Inode `i` may be without a link only if it is one of `R`. -/
def Kept (v : Vol) (R : Multiset Nat) : Prop :=
  ∀ i nd, v.node i = some nd → nd.nlink = 0 → i ∈ R

section Steps

variable {sb : Superblock} {v w : Vol} {R : Multiset Nat} {L : List Nat} {m : Mount} {i : Nat}
  {E : Stop → Prop}

theorem onVol_ok {α : Type} {x : VolM α} {a : α} (h : x m.vol = .ok (a, w)) :
    onVol x m = .ok (a, { m with vol := w }) := by
  unfold onVol
  rw [h]

theorem At.node (h : At sb v R L m) : m.vol.node = v.node := h.same.node

theorem At.ip (h : At sb v R L m) : m.vol.ip = v.ip := h.same.ip

/-- A change of the volume by a part of the call. -/
theorem At.change (h : At sb v R L m) (hw : Held sb L w) : At sb w R L { m with vol := w } :=
  ⟨.refl _, hw, h.refs, h.locked, h.backed⟩

/-- The entry of an inode that was not referred to is not valid after `iget`. -/
theorem iget_fresh (hE : NINODE ≤ R.dedup.card → E .igetNone) :
    Triple (At sb v R L) (iget i)
      (fun _ m => At sb v (i ::ₘ R) L m ∧ (i ∉ R → m.vol.inode i = none)) E := by
  apply Triple.get_bind
  intro m h
  have hbacked : ∀ j ∈ L, j ∈ i ::ₘ R := fun j hj => Multiset.mem_cons_of_mem (h.backed j hj)
  apply Triple.ite
  · intro hin _ _
    refine ⟨⟨h.same, h.held, congrArg _ h.refs, h.locked, hbacked⟩, ?_⟩
    intro hout
    exact absurd (h.refs ▸ hin) hout
  intro hout
  apply Triple.ite
  · intro _ _ _
    have hi : i ∉ L := fun hi => hout (h.refs ▸ h.backed i hi)
    obtain ⟨hheld, hsame⟩ := h.held.drop hi
    refine ⟨⟨h.same.trans hsame, hheld, congrArg _ h.refs, h.locked, hbacked⟩, ?_⟩
    intro _
    change Function.update m.vol.inode i none i = none
    exact Function.update_self ..
  intro hfull
  apply Triple.throw
  intro _ _
  apply hE
  rw [← h.refs]
  omega

theorem iget_spec (hE : NINODE ≤ R.dedup.card → E .igetNone) :
    Triple (At sb v R L) (iget i) (fun _ => At sb v (i ::ₘ R) L) E :=
  Triple.conseq (iget_fresh hE) (fun _ h => h) (fun _ _ h => h.1) fun _ h => h

/-- `ilock` of an inode that is in use and not locked. -/
theorem ilock_spec (hi : i ∈ R) (hfree : i ∉ L) (hnode : v.node i ≠ none) :
    Triple (At sb v R L) (ilock i) (fun _ => At sb v R (i :: L)) E := by
  apply Triple.get_bind
  intro m h
  rw [if_neg (by rw [h.refs]; exact not_not.2 hi), if_neg (by rw [h.locked]; exact hfree)]
  have hused : m.vol.Allocated i := by
    intro hzero
    rw [h.ip] at hzero
    exact hnode (Volume.node_eq_none.2 hzero)
  obtain ⟨w, hrun, hheld, hsame⟩ := Volume.ilock_spec h.held hused
  apply Triple.bind_ok (onVol_ok hrun)
  apply Triple.modify
  intro _ hm
  rw [hm]
  refine ⟨h.same.trans hsame, hheld, h.refs, congrArg _ h.locked, ?_⟩
  intro j hj
  rcases List.mem_cons.1 hj with hj | hj
  · exact hj ▸ hi
  · exact h.backed j hj

theorem iunlock_spec (hi : i ∈ L) :
    Triple (At sb v R L) (iunlock i)
      (fun _ m => At sb v R (L.erase i) m ∧ (m.vol.inode i).isSome = true) E := by
  apply Triple.get_bind
  intro m h
  have hboth : ¬ (i ∉ m.locked ∨ i ∉ m.refs) := by
    rw [h.locked, h.refs]
    exact fun hout => hout.elim (fun h' => h' hi) fun h' => h' (h.backed i hi)
  rw [if_neg hboth]
  intro _ _
  refine ⟨⟨h.same, h.held.unlock List.erase_subset, h.refs, by rw [h.locked], ?_⟩,
    h.held.locked i hi⟩
  exact fun j hj => h.backed j (List.mem_of_mem_erase hj)

/-- An `iput` of another reference, or of an inode that is not valid or has a link. -/
theorem iput_other (hback : ∀ j ∈ L, j ∈ R) :
    Triple (fun m => At sb v (i ::ₘ R) L m ∧
        (i ∉ R → (m.vol.inode i).isSome = true → (m.vol.ip i).nlink ≠ 0)) (iput i)
      (fun _ => At sb v R L) E := by
  apply Triple.get_bind
  intro m hm
  obtain ⟨h, hother⟩ := hm
  have hnot : ¬ (m.refs.count i = 1 ∧ (m.vol.inode i).isSome = true ∧
      (m.vol.ip i).nlink = 0) := by
    intro hlast
    obtain ⟨hcount, hvalid, hlink⟩ := hlast
    rw [h.refs, Multiset.count_cons_self] at hcount
    have hout : i ∉ R := Multiset.count_eq_zero.1 (by omega)
    exact hother hout hvalid hlink
  rw [when, if_neg hnot]
  apply Triple.bind_ok (a := ()) (t := m) rfl
  apply Triple.modify
  intro _ hm
  rw [hm]
  refine ⟨h.same, h.held, ?_, h.locked, hback⟩
  change m.refs.erase i = R
  rw [h.refs, Multiset.erase_cons_head]

/-- **`iput` of a reference that keeps nothing alive.** -/
theorem iput_keep (hkept : Kept v R) (hback : ∀ j ∈ L, j ∈ R) :
    Triple (At sb v (i ::ₘ R) L) (iput i) (fun _ => At sb v R L) E := by
  apply Triple.pre (iput_other hback)
  intro m h
  refine ⟨h, ?_⟩
  intro hout hvalid hlink
  have hused : m.vol.Allocated i := by
    intro hzero
    rw [h.held.invalid hzero] at hvalid
    cases hvalid
  have hnode := Volume.node_of_allocated hused
  rw [h.node] at hnode
  exact hout (hkept i _ hnode hlink)

/-- A reference that `iget` has just given is taken back. -/
theorem iput_fresh (hback : ∀ j ∈ L, j ∈ R) :
    Triple (fun m => At sb v (i ::ₘ R) L m ∧ (i ∉ R → m.vol.inode i = none)) (iput i)
      (fun _ => At sb v R L) E := by
  apply Triple.pre (iput_other hback)
  intro m h
  refine ⟨h.1, ?_⟩
  intro hout hvalid
  rw [h.2 hout] at hvalid
  cases hvalid

theorem iunlockput_keep (hi : i ∈ L) (hkept : Kept v R) (hback : ∀ j ∈ L.erase i, j ∈ R) :
    Triple (At sb v (i ::ₘ R) L) (iunlockput i) (fun _ => At sb v R (L.erase i)) E := by
  apply Triple.bind (iunlock_spec hi)
  intro _
  exact .pre (iput_keep hkept hback) fun _ h => h.1

/-- From `v` to `w` inode `i` has been freed. -/
def Freed (i : Nat) (v w : Vol) : Prop :=
  ∃ u, Same v u ∧ Quiet i u w ∧ Logs i u w ∧ (w.ip i).type = 0

/-- **The last reference to an inode without a link.** -/
theorem iput_free (hi : i ∉ R) (hback : ∀ j ∈ L, j ∈ R) (hlink : (v.ip i).nlink = 0) :
    Triple (fun m => At sb v (i ::ₘ R) L m ∧ (m.vol.inode i).isSome = true) (iput i)
      (fun _ m => ∃ w, At sb w R L m ∧ Freed i v w) E := by
  apply Triple.get_bind
  intro m hm
  obtain ⟨h, hvalid⟩ := hm
  have hlast : m.refs.count i = 1 ∧ (m.vol.inode i).isSome = true ∧ (m.vol.ip i).nlink = 0 := by
    refine ⟨?_, hvalid, ?_⟩
    · rw [h.refs, Multiset.count_cons_self, Multiset.count_eq_zero_of_notMem hi]
    · rw [h.ip]
      exact hlink
  have hfree : i ∉ L := fun hi' => hi (hback i hi')
  have hlocked : Held sb (i :: L) m.vol := by
    refine ⟨h.held.consistent, ?_⟩
    intro j hj
    rcases List.mem_cons.1 hj with hj | hj
    · exact hj ▸ hvalid
    · exact h.held.locked j hj
  obtain ⟨w, hrun, hheld, hquiet, hlogs, htype⟩ := Volume.freeInode_spec hlocked hfree
  have hput : when (i ∈ m.locked) (throw .asleep) m = .ok ((), m) := by
    rw [when, if_neg (by rw [h.locked]; exact hfree)]
    rfl
  rw [when, if_pos hlast]
  apply Triple.bind_ok ((run_bind_ok hput).trans (onVol_ok hrun))
  apply Triple.modify
  intro _ hm
  rw [hm]
  refine ⟨w, ⟨.refl _, hheld, ?_, h.locked, hback⟩, m.vol, h.same, hquiet, hlogs, htype⟩
  change m.refs.erase i = R
  rw [h.refs, Multiset.erase_cons_head]

end Steps

end Kus.Names
