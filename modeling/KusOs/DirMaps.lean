import KusOs.ByteArrays
import KusOs.DirBytes

/-!
# Directories as finite maps

A directory binds names to inode numbers.  It is made with `.` and `..` and then changed
by `dirlink` and by the part of `sys_unlink` that clears an entry; between two changes
anything may happen to other files.

* `Binds` — the map: a name is bound by a live entry;
* `Reached` — the directories that can be reached;
* `Slots` — `.` and `..` stay in the first two entries, and no two live entries have
  one name;
* `directories_are_finite_maps` — **lookup, insertion and removal are those of a finite
  map on names of 14 bytes**.
-/

namespace Kus.Names

open Hoare
open Dir (Name Dirent lookup insertEntry dot dotdot)
open Fs (direntSize)
open Itable (NINODE)
open Volume (Vol Held Node)

section Lists

variable {ds : List Dirent} {d e : Dirent} {n : Name} {i j k : Nat}

/-- Name `n` is bound to inode `i`. -/
def Binds (ds : List Dirent) (n : Name) (i : Nat) : Prop :=
  i ≠ 0 ∧ ∃ e ∈ ds, e.inum = i ∧ e.name = n

/-- No two live entries have one name. -/
def Unique (ds : List Dirent) : Prop :=
  ∀ (j k : Nat) (d e : Dirent), ds[j]? = some d → ds[k]? = some e → d.inum ≠ 0 → e.inum ≠ 0 →
    d.name = e.name → j = k

theorem lookup_eq_none_iff : lookup n ds = none ↔ ∀ i, ¬ Binds ds n i := by
  constructor
  · intro h i hbinds
    obtain ⟨hi, e, he, hinum, hname⟩ := hbinds
    exact Dir.lookup_none h he (hinum ▸ hi) hname
  · intro h
    cases hlook : lookup n ds with
    | none => rfl
    | some r =>
      obtain ⟨e, he, hinum, hne, hname⟩ := Dir.lookup_some hlook
      exact absurd ⟨hne, e, List.mem_of_getElem? he, hinum, hname⟩ (h r.2)

/-- With unique names a lookup finds the one entry there is. -/
theorem lookup_eq_some_iff (hu : Unique ds) : lookup n ds = some (k, i) ↔
    i ≠ 0 ∧ ∃ e, ds[k]? = some e ∧ e.inum = i ∧ e.name = n := by
  constructor
  · intro h
    obtain ⟨e, he, hinum, hne, hname⟩ := Dir.lookup_some h
    exact ⟨hne, e, he, hinum, hname⟩
  · intro ⟨hne, e, he, hinum, hname⟩
    cases hlook : lookup n ds with
    | none =>
      exact absurd ⟨hne, e, List.mem_of_getElem? he, hinum, hname⟩ (lookup_eq_none_iff.1 hlook i)
    | some r =>
      obtain ⟨k', i'⟩ := r
      obtain ⟨d, hd, hdinum, hdne, hdname⟩ := Dir.lookup_some hlook
      have hplace : k' = k :=
        hu k' k d e hd he (hdinum ▸ hdne) (hinum ▸ hne) (hdname.trans hname.symm)
      rw [hplace] at hd ⊢
      have hsame : d = e := Option.some.inj (hd.symm.trans he)
      rw [← hdinum, hsame, hinum]

theorem Unique.functional (hu : Unique ds) (hi : Binds ds n i) (hj : Binds ds n j) : i = j := by
  obtain ⟨hi0, d, hd, hdi, hdn⟩ := hi
  obtain ⟨hj0, e, he, hej, hen⟩ := hj
  obtain ⟨p, hp⟩ := List.getElem?_of_mem hd
  obtain ⟨q, hq⟩ := List.getElem?_of_mem he
  have hplace := hu p q d e hp hq (hdi ▸ hi0) (hej ▸ hj0) (hdn.trans hen.symm)
  rw [hplace] at hp
  have hsame : d = e := Option.some.inj (hp.symm.trans hq)
  rw [← hdi, hsame, hej]

/-- The entry at a place after an insertion: an old one, or the new one at an empty place. -/
theorem getElem?_insertEntry (h : (insertEntry e ds)[k]? = some d) :
    (k = slot ds ∧ d = e) ∨ (k ≠ slot ds ∧ ds[k]? = some d) := by
  rw [insertEntry_eq] at h
  by_cases hlt : slot ds < ds.length
  · rw [if_pos hlt, List.getElem?_set] at h
    by_cases hk : slot ds = k
    · rw [if_pos hk, if_pos hlt] at h
      exact .inl ⟨hk.symm, (Option.some.inj h).symm⟩
    · rw [if_neg hk] at h
      exact .inr ⟨Ne.symm hk, h⟩
  have hslot : slot ds = ds.length := le_antisymm (slot_le ds) (Nat.le_of_not_lt hlt)
  rw [if_neg hlt] at h
  by_cases hk : k < ds.length
  · rw [List.getElem?_append_left hk] at h
    exact .inr ⟨by omega, h⟩
  rw [List.getElem?_append_right (Nat.le_of_not_lt hk)] at h
  have hzero : k - ds.length = 0 := by
    by_contra hne
    rw [List.getElem?_eq_none (by simp; omega)] at h
    cases h
  rw [hzero] at h
  exact .inl ⟨by omega, (Option.some.inj h).symm⟩

/-- The place of an insertion holds no live entry. -/
theorem slot_empty (h : ds[slot ds]? = some d) : d.inum = 0 := by
  have hlt : slot ds < ds.length := by
    by_contra hge
    rw [List.getElem?_eq_none (Nat.le_of_not_lt hge)] at h
    cases h
  have hfound := @List.findIdx_getElem _ (fun e : Dirent => e.inum == 0) ds hlt
  have hd : ds[slot ds] = d := by
    rw [List.getElem?_eq_getElem hlt] at h
    exact Option.some.inj h
  change ((ds[slot ds]).inum == 0) = true at hfound
  rw [hd] at hfound
  exact beq_iff_eq.1 hfound

theorem insertEntry_new (e : Dirent) (ds : List Dirent) :
    (insertEntry e ds)[slot ds]? = some e := by
  rw [insertEntry_eq]
  by_cases hlt : slot ds < ds.length
  · rw [if_pos hlt, List.getElem?_set_self hlt]
  have hslot : slot ds = ds.length := le_antisymm (slot_le ds) (Nat.le_of_not_lt hlt)
  rw [if_neg hlt, hslot, List.getElem?_append_right (le_refl _), Nat.sub_self]
  rfl

theorem insertEntry_old (h : ds[k]? = some d) (hd : d.inum ≠ 0) :
    (insertEntry e ds)[k]? = some d := by
  have hk : slot ds ≠ k := by
    intro heq
    rw [← heq] at h
    exact hd (slot_empty h)
  rw [insertEntry_eq]
  by_cases hlt : slot ds < ds.length
  · rw [if_pos hlt, List.getElem?_set_ne hk]
    exact h
  have hin : k < ds.length := by
    by_contra hge
    rw [List.getElem?_eq_none (Nat.le_of_not_lt hge)] at h
    cases h
  rw [if_neg hlt, List.getElem?_append_left hin]
  exact h

/-- **Insertion adds one binding.** -/
theorem binds_insertEntry (he : e.inum ≠ 0) :
    Binds (insertEntry e ds) n i ↔ Binds ds n i ∨ (n = e.name ∧ i = e.inum) := by
  constructor
  · intro ⟨hi, d, hd, hinum, hname⟩
    obtain ⟨k, hk⟩ := List.getElem?_of_mem hd
    rcases getElem?_insertEntry hk with hnew | hold
    · rw [hnew.2] at hinum hname
      exact .inr ⟨hname.symm, hinum.symm⟩
    · exact .inl ⟨hi, d, List.mem_of_getElem? hold.2, hinum, hname⟩
  · intro h
    rcases h with h | h
    · obtain ⟨hi, d, hd, hinum, hname⟩ := h
      obtain ⟨k, hk⟩ := List.getElem?_of_mem hd
      exact ⟨hi, d, List.mem_of_getElem? (insertEntry_old hk (hinum ▸ hi)), hinum, hname⟩
    · rw [h.1, h.2]
      exact ⟨he, e, List.mem_of_getElem? (insertEntry_new e ds), rfl, rfl⟩

theorem Unique.insertEntry (hu : Unique ds) (hnone : lookup e.name ds = none) :
    Unique (insertEntry e ds) := by
  have hfresh : ∀ {k : Nat} {d : Dirent}, ds[k]? = some d → d.inum ≠ 0 → d.name ≠ e.name := by
    intro k d hd hlive
    exact Dir.lookup_none hnone (List.mem_of_getElem? hd) hlive
  intro j k c d hc hd hclive hdlive hname
  rcases getElem?_insertEntry hc with hcnew | hcold
  · rcases getElem?_insertEntry hd with hdnew | hdold
    · rw [hcnew.1, hdnew.1]
    · rw [hcnew.2] at hname
      exact absurd hname.symm (hfresh hdold.2 hdlive)
  rcases getElem?_insertEntry hd with hdnew | hdold
  · rw [hdnew.2] at hname
    exact absurd hname (hfresh hcold.2 hclive)
  · exact hu j k c d hcold.2 hdold.2 hclive hdlive hname

/-- The entry at a place after another one has been cleared. -/
theorem getElem?_clear (h : (ds.set k Dirent.empty)[j]? = some d) (hd : d.inum ≠ 0) :
    j ≠ k ∧ ds[j]? = some d := by
  by_cases hjk : k = j
  · rw [List.getElem?_set, if_pos hjk] at h
    split at h
    · rw [← Option.some.inj h] at hd
      exact absurd rfl hd
    · cases h
  · rw [List.getElem?_set_ne hjk] at h
    exact ⟨Ne.symm hjk, h⟩

/-- **Removal deletes one binding.** -/
theorem binds_clear (hu : Unique ds) (hk : ds[k]? = some e) (he : e.inum ≠ 0) :
    Binds (ds.set k Dirent.empty) n i ↔ Binds ds n i ∧ n ≠ e.name := by
  constructor
  · intro ⟨hi, d, hd, hinum, hname⟩
    obtain ⟨j, hj⟩ := List.getElem?_of_mem hd
    obtain ⟨hjk, hold⟩ := getElem?_clear hj (hinum ▸ hi)
    refine ⟨⟨hi, d, List.mem_of_getElem? hold, hinum, hname⟩, ?_⟩
    intro hsame
    exact hjk (hu j k d e hold hk (hinum ▸ hi) he (hname.trans hsame))
  · intro ⟨⟨hi, d, hd, hinum, hname⟩, hne⟩
    obtain ⟨j, hj⟩ := List.getElem?_of_mem hd
    have hjk : k ≠ j := by
      intro heq
      rw [← heq] at hj
      have hsame : d = e := Option.some.inj (hj.symm.trans hk)
      exact hne (hname.symm.trans (congrArg _ hsame))
    refine ⟨hi, d, List.mem_of_getElem? (i := j) ?_, hinum, hname⟩
    rw [List.getElem?_set_ne hjk]
    exact hj

theorem Unique.clear (hu : Unique ds) : Unique (ds.set k Dirent.empty) := by
  intro j l c d hc hd hclive hdlive hname
  exact hu j l c d (getElem?_clear hc hclive).2 (getElem?_clear hd hdlive).2 hclive hdlive hname

/-- The entries of a directory with the inode `a` whose parent is `b`. -/
structure Slots (a b : Nat) (ds : List Dirent) : Prop where
  own : ∃ e, ds[0]? = some e ∧ e.inum = a ∧ e.name = dot
  parent : ∃ e, ds[1]? = some e ∧ e.inum = b ∧ e.name = dotdot
  live : a ≠ 0 ∧ b ≠ 0
  unique : Unique ds

variable {a b : Nat}

theorem Slots.insertEntry (h : Slots a b ds) (hnone : lookup e.name ds = none) :
    Slots a b (insertEntry e ds) := by
  obtain ⟨d₀, hd₀, ha, hdot⟩ := h.own
  obtain ⟨d₁, hd₁, hb, hdots⟩ := h.parent
  exact ⟨⟨d₀, insertEntry_old hd₀ (ha ▸ h.live.1), ha, hdot⟩,
    ⟨d₁, insertEntry_old hd₁ (hb ▸ h.live.2), hb, hdots⟩, h.live, h.unique.insertEntry hnone⟩

theorem Slots.clear (h : Slots a b ds) (hk : ds[k]? = some e) (hdot : e.name ≠ dot)
    (hdots : e.name ≠ dotdot) : Slots a b (ds.set k Dirent.empty) := by
  obtain ⟨d₀, hd₀, ha, hn₀⟩ := h.own
  obtain ⟨d₁, hd₁, hb, hn₁⟩ := h.parent
  have hk₀ : k ≠ 0 := by
    intro hzero
    rw [hzero] at hk
    have hsame : d₀ = e := Option.some.inj (hd₀.symm.trans hk)
    exact hdot (hsame ▸ hn₀)
  have hk₁ : k ≠ 1 := by
    intro hone
    rw [hone] at hk
    have hsame : d₁ = e := Option.some.inj (hd₁.symm.trans hk)
    exact hdots (hsame ▸ hn₁)
  refine ⟨⟨d₀, ?_, ha, hn₀⟩, ⟨d₁, ?_, hb, hn₁⟩, h.live, h.unique.clear⟩
  · rw [List.getElem?_set_ne hk₀]
    exact hd₀
  · rw [List.getElem?_set_ne hk₁]
    exact hd₁

/-- **The directory is empty iff nothing but `.` and `..` is bound.** -/
theorem Slots.isdirempty_iff (h : Slots a b ds) :
    Dir.isdirempty ds = true ↔ ∀ n i, Binds ds n i → n = dot ∨ n = dotdot := by
  obtain ⟨d₀, hd₀, ha, hn₀⟩ := h.own
  obtain ⟨d₁, hd₁, hb, hn₁⟩ := h.parent
  unfold Dir.isdirempty
  rw [List.all_eq_true]
  constructor
  · intro hall n i hbinds
    obtain ⟨hi, e, he, hinum, hname⟩ := hbinds
    obtain ⟨k, hk⟩ := List.getElem?_of_mem he
    by_cases hk₀ : k = 0
    · rw [hk₀] at hk
      have hsame : d₀ = e := Option.some.inj (hd₀.symm.trans hk)
      exact .inl (by rw [← hname, ← hsame, hn₀])
    by_cases hk₁ : k = 1
    · rw [hk₁] at hk
      have hsame : d₁ = e := Option.some.inj (hd₁.symm.trans hk)
      exact .inr (by rw [← hname, ← hsame, hn₁])
    have hlate : (ds.drop 2)[k - 2]? = some e := by
      rw [List.getElem?_drop]
      have hplace : 2 + (k - 2) = k := by omega
      rw [hplace]
      exact hk
    have hzero := hall e (List.mem_of_getElem? hlate)
    rw [beq_iff_eq] at hzero
    exact absurd (hinum.symm.trans hzero) hi
  · intro hnames e he
    obtain ⟨k, hk⟩ := List.getElem?_of_mem he
    rw [List.getElem?_drop] at hk
    by_contra hlive
    have hne : e.inum ≠ 0 := fun hzero => hlive (beq_iff_eq.2 hzero)
    rcases hnames e.name e.inum ⟨hne, e, List.mem_of_getElem? hk, rfl, rfl⟩ with hdot | hdots
    · have hplace := h.unique 0 (2 + k) d₀ e hd₀ hk (ha ▸ h.live.1) hne (hn₀.trans hdot.symm)
      omega
    · have hplace := h.unique 1 (2 + k) d₁ e hd₁ hk (hb ▸ h.live.2) hne (hn₁.trans hdots.symm)
      omega

end Lists

section Runs

variable (sb : Superblock) (dp : Nat)

/-- The entries of the directory `dp`. -/
def dirOf (m : Mount) (dp : Nat) : List Dirent :=
  match m.vol.node dp with
  | some nd => entries nd.content
  | none => []

/-- A call has the directory `dp` locked. -/
structure Opened (m : Mount) : Prop where
  held : Held sb m.locked m.vol
  backed : ∀ i ∈ m.locked, i ∈ m.refs
  locked : dp ∈ m.locked
  folder : ∃ nd, Folder m.vol dp nd

/-- `sys_unlink` up to the entry it clears; the reference that `dirlookup` gave stays with
the call. -/
def unlinkName (name : List UInt8) : MountM Int := do
  if namecmp name dot ∨ namecmp name dotdot then pure (-1)
  else
    match ← dirlookup sb dp name with
    | none => pure (-1)
    | some (_, off) =>
      clearEntry sb dp off
      pure 0

/-- The directories that can be reached from one with `.` and `..`. -/
inductive Reached (a b : Nat) : Mount → Prop
  | made {m : Mount} {g h : Nat} (hopen : Opened sb dp m) (hlive : a ≠ 0 ∧ b ≠ 0)
      (hnew : dirOf m dp = [⟨a, dot, g⟩, ⟨b, dotdot, h⟩]) : Reached a b m
  | link {m m' : Mount} {r : Int} (name : List UInt8) (inum : Nat) (h : Reached a b m)
      (hinum : 1 ≤ inum ∧ inum ≤ 65535) (hrun : dirlink sb dp name inum m = .ok (r, m')) :
      Reached a b m'
  | unlink {m m' : Mount} {r : Int} (name : List UInt8) (h : Reached a b m)
      (hrun : unlinkName sb dp name m = .ok (r, m')) : Reached a b m'
  /-- other files change, blocks are taken and freed, references come and go -/
  | other {m m' : Mount} (h : Reached a b m) (hopen : Opened sb dp m')
      (hsame : m'.vol.node dp = m.vol.node dp) : Reached a b m'

end Runs

section Maps

variable {sb : Superblock} {dp : Nat} {m m' : Mount} {nd : Node} {a b : Nat}

theorem dirOf_eq (h : m.vol.node dp = some nd) : dirOf m dp = entries nd.content := by
  unfold dirOf
  rw [h]

theorem dirOf_congr (h : m'.vol.node dp = m.vol.node dp) : dirOf m' dp = dirOf m dp := by
  unfold dirOf
  rw [h]

theorem Opened.at (h : Opened sb dp m) : At sb m.vol m.refs m.locked m :=
  ⟨.refl _, h.held, rfl, rfl, h.backed⟩

/-- A state whose directory has whole entries. -/
theorem Opened.of_at {v : Vol} {R : Multiset Nat} {L : List Nat} (hat : At sb v R L m)
    (hdp : dp ∈ L) (hf : Folder v dp nd) : Opened sb dp m := by
  refine ⟨?_, ?_, ?_, nd, ?_, hf.type, hf.whole⟩
  · rw [hat.locked]
    exact hat.held
  · rw [hat.locked, hat.refs]
    exact hat.backed
  · rw [hat.locked]
    exact hdp
  · rw [hat.node]
    exact hf.node

theorem Rewritten.folder {v w : Vol} {ds : List Dirent} (h : Rewritten dp nd ds v w)
    (htype : nd.type = T_DIR) : ∃ nd', Folder w dp nd' ∧ entries nd'.content = ds := by
  obtain ⟨c, hnode, hwhole, hentries⟩ := h
  refine ⟨{ nd with content := c }, ⟨?_, htype, hwhole⟩, hentries⟩
  rw [hnode, Function.update_self]

/-- The inode table had no entry left. -/
def Crowded (m : Mount) (e : Stop) : Prop := e = .igetNone ∧ NINODE ≤ m.refs.dedup.card

/-- `dirlookup` on the map. -/
def LooksUp (dp : Nat) (name : List UInt8) (m : Mount) (r : Option (Nat × Nat)) (m' : Mount) :
    Prop :=
  (∀ i off, r = some (i, off) ↔ i ≠ 0 ∧ ∃ k e, off = direntSize * k ∧
    (dirOf m dp)[k]? = some e ∧ e.inum = i ∧ e.name = key name) ∧
  (r = none ↔ ∀ i, ¬ Binds (dirOf m dp) (key name) i) ∧ dirOf m' dp = dirOf m dp

/-- `dirlink` on the map; an entry that is not written would have needed a block at the
end of the directory, and there was none. -/
def Inserts (sb : Superblock) (dp : Nat) (name : List UInt8) (inum : Nat) (m : Mount) (r : Int)
    (m' : Mount) : Prop :=
  (r = -1 ∧ dirOf m' dp = dirOf m dp ∧ ((∃ i, Binds (dirOf m dp) (key name) i) ∨
    ∃ nd, m.vol.node dp = some nd ∧ Stuck sb nd m'.vol)) ∨
  (r = 0 ∧ (∀ i, ¬ Binds (dirOf m dp) (key name) i) ∧
    ∀ n i, Binds (dirOf m' dp) n i ↔ Binds (dirOf m dp) n i ∨ (n = key name ∧ i = inum))

/-- `unlinkName` on the map. -/
def Removes (dp : Nat) (name : List UInt8) (m : Mount) (r : Int) (m' : Mount) : Prop :=
  (r = -1 ∧ dirOf m' dp = dirOf m dp ∧ (key name = dot ∨ key name = dotdot ∨
    ∀ i, ¬ Binds (dirOf m dp) (key name) i)) ∨
  (r = 0 ∧ (∃ i, Binds (dirOf m dp) (key name) i) ∧
    ∀ n i, Binds (dirOf m' dp) n i ↔ Binds (dirOf m dp) n i ∧ n ≠ key name)

/-- What holds of a directory that has been reached. -/
structure Fine (sb : Superblock) (dp a b : Nat) (m : Mount) : Prop extends Opened sb dp m where
  slots : Slots a b (dirOf m dp)

theorem dirlookup_maps (h : Fine sb dp a b m) (name : List UInt8) :
    Triple (fun s => s = m) (dirlookup sb dp name) (LooksUp dp name m) (Crowded m) := by
  obtain ⟨nd, hf⟩ := h.folder
  have hspec := @dirlookup_spec sb m.vol m.refs m.locked dp nd (Crowded m) h.locked hf name
    fun hfull => ⟨rfl, hfull⟩
  refine .conseq hspec (fun s hs => hs ▸ h.toOpened.at) ?_ fun _ he => he
  intro r m' hr
  have hds : dirOf m dp = entries nd.content := dirOf_eq hf.node
  have hu : Unique (entries nd.content) := hds ▸ h.slots.unique
  unfold LooksUp
  rw [hds]
  cases hlook : lookup (key name) (entries nd.content) with
  | none =>
    rw [hlook] at hr
    obtain ⟨hr, hat⟩ := hr
    have hno := lookup_eq_none_iff.1 hlook
    rw [hr]
    refine ⟨?_, ⟨fun _ => hno, fun _ => rfl⟩, (dirOf_congr (congrFun hat.node dp)).trans hds⟩
    intro i off
    constructor
    · intro hcontra
      cases hcontra
    · intro hfound
      obtain ⟨hi, k, e, _, he, hinum, hname⟩ := hfound
      exact absurd ⟨hi, e, List.mem_of_getElem? he, hinum, hname⟩ (hno i)
  | some found =>
    obtain ⟨k, i⟩ := found
    rw [hlook] at hr
    obtain ⟨hr, hat, _⟩ := hr
    obtain ⟨e, he, hinum, hne, hname⟩ := Dir.lookup_some hlook
    rw [hr]
    refine ⟨?_, ?_, (dirOf_congr (congrFun hat.node dp)).trans hds⟩
    · intro i' off
      constructor
      · intro heq
        cases heq
        exact ⟨hne, k, e, rfl, he, hinum, hname⟩
      · intro hfound
        obtain ⟨hi', k', e', hoff, he', hinum', hname'⟩ := hfound
        have hsame := (lookup_eq_some_iff hu).2 ⟨hi', e', he', hinum', hname'⟩
        rw [hlook] at hsame
        cases hsame
        rw [hoff]
    · constructor
      · intro hcontra
        cases hcontra
      · intro hno
        exact absurd ⟨hne, e, List.mem_of_getElem? he, hinum, hname⟩ (hno i)

theorem dirlink_maps (hsb : sb.size ≤ 2 ^ 32) (h : Fine sb dp a b m) (name : List UInt8)
    {inum : Nat} (hinum : 1 ≤ inum ∧ inum ≤ 65535) :
    Triple (fun s => s = m) (dirlink sb dp name inum)
      (fun r m' => Fine sb dp a b m' ∧ Inserts sb dp name inum m r m') (Crowded m) := by
  obtain ⟨nd, hf⟩ := h.folder
  have hspec := @dirlink_spec sb m.vol m.refs m.locked dp nd (Crowded m) hsb h.locked hf name inum
    (by omega) fun hfull => ⟨rfl, hfull⟩
  refine .conseq hspec (fun s hs => hs ▸ h.toOpened.at) ?_ fun _ he => he
  intro r m' hr
  have hds : dirOf m dp = entries nd.content := dirOf_eq hf.node
  cases hr with
  | present hname hat =>
    have hsame : dirOf m' dp = dirOf m dp := dirOf_congr (congrFun hat.node dp)
    refine ⟨⟨.of_at hat h.locked hf, hsame ▸ h.slots⟩, .inl ⟨rfl, hsame, .inl ?_⟩⟩
    by_contra hno
    rw [hds] at hno
    exact hname (lookup_eq_none_iff.2 fun i hi => hno ⟨i, hi⟩)
  | @stuck w m' hname hstuck hnode hat =>
    have hmnode : m'.vol.node dp = m.vol.node dp := by rw [hat.node, hnode]
    have hsame : dirOf m' dp = dirOf m dp := dirOf_congr hmnode
    have hfw : Folder w dp nd := ⟨by rw [hnode]; exact hf.node, hf.type, hf.whole⟩
    refine ⟨⟨.of_at hat h.locked hfw, hsame ▸ h.slots⟩,
      .inl ⟨rfl, hsame, .inr ⟨nd, hf.node, hstuck.1, ?_⟩⟩⟩
    rcases hstuck.2 with hlong | hfull
    · exact .inl hlong
    refine .inr ⟨hfull.1, ?_⟩
    intro x hx
    have hset := hfull.2 x hx
    change m'.vol.bitmap x = true
    rw [hat.same.bitmap]
    exact hset
  | added hname hadded hat =>
    obtain ⟨nd', hf', hentries⟩ := hadded.folder hf.type
    have hnew : dirOf m' dp = insertEntry ⟨inum, key name, 0⟩ (entries nd.content) := by
      rw [← hentries]
      apply dirOf_eq
      rw [hat.node]
      exact hf'.node
    refine ⟨⟨.of_at hat h.locked hf', ?_⟩, .inr ⟨rfl, ?_, ?_⟩⟩
    · rw [hnew]
      exact Slots.insertEntry (hds ▸ h.slots) hname
    · rw [hds]
      exact lookup_eq_none_iff.1 hname
    · intro n i
      rw [hnew, hds]
      exact binds_insertEntry (e := ⟨inum, key name, 0⟩) (by change inum ≠ 0; omega)

theorem key_dot : key dot = dot := by decide

theorem key_dotdot : key dotdot = dotdot := by decide

theorem unlinkName_maps (hsb : sb.size ≤ 2 ^ 32) (h : Fine sb dp a b m) (name : List UInt8) :
    Triple (fun s => s = m) (unlinkName sb dp name)
      (fun r m' => Fine sb dp a b m' ∧ Removes dp name m r m') (Crowded m) := by
  obtain ⟨nd, hf⟩ := h.folder
  have hds : dirOf m dp = entries nd.content := dirOf_eq hf.node
  have hu : Unique (entries nd.content) := hds ▸ h.slots.unique
  unfold unlinkName
  apply Triple.ite
  · intro hdots
    apply Triple.pure
    intro s hs
    rw [hs]
    refine ⟨h, .inl ⟨rfl, rfl, ?_⟩⟩
    rw [namecmp_iff, namecmp_iff, key_dot, key_dotdot] at hdots
    rcases hdots with hdot | hdotdot
    · exact .inl hdot
    · exact .inr (.inl hdotdot)
  intro hdots
  rw [namecmp_iff, namecmp_iff, key_dot, key_dotdot, not_or] at hdots
  have hspec := @dirlookup_spec sb m.vol m.refs m.locked dp nd (Crowded m) h.locked hf name
    fun hfull => ⟨rfl, hfull⟩
  apply Triple.bind (.here hspec h.toOpened.at)
  intro r
  apply Triple.fix
  intro m₁ hr
  cases hlook : lookup (key name) (entries nd.content) with
  | none =>
    rw [hlook] at hr
    obtain ⟨hr, hat⟩ := hr
    rw [hr]
    apply Triple.pure
    intro s hs
    rw [hs]
    have hsame : dirOf m₁ dp = dirOf m dp := dirOf_congr (congrFun hat.node dp)
    refine ⟨⟨.of_at hat h.locked hf, hsame ▸ h.slots⟩, .inl ⟨rfl, hsame, .inr (.inr ?_)⟩⟩
    rw [hds]
    exact lookup_eq_none_iff.1 hlook
  | some found =>
    obtain ⟨k, i⟩ := found
    rw [hlook] at hr
    obtain ⟨hr, hat, _⟩ := hr
    obtain ⟨e, he, hinum, hne, hname⟩ := Dir.lookup_some hlook
    have hk : k < (entries nd.content).length := by
      by_contra hge
      rw [List.getElem?_eq_none (Nat.le_of_not_lt hge)] at he
      cases he
    rw [hr]
    have hclear := @clearEntry_spec sb m.vol (i ::ₘ m.refs) m.locked dp nd (Crowded m) hsb
      h.locked hf k hk
    apply Triple.bind (.here hclear hat)
    intro _
    apply Triple.pure
    intro m' hm'
    obtain ⟨w, hatw, hw⟩ := hm'
    obtain ⟨nd', hf', hentries⟩ := hw.folder hf.type
    have hnew : dirOf m' dp = (entries nd.content).set k Dirent.empty := by
      rw [← hentries]
      apply dirOf_eq
      rw [hatw.node]
      exact hf'.node
    refine ⟨⟨.of_at hatw h.locked hf', ?_⟩, .inr ⟨rfl, ⟨i, ?_⟩, ?_⟩⟩
    · rw [hnew]
      exact Slots.clear (hds ▸ h.slots) he (hname ▸ hdots.1) (hname ▸ hdots.2)
    · rw [hds]
      exact ⟨hne, e, List.mem_of_getElem? he, hinum, hname⟩
    · intro n j
      rw [hnew, hds, ← hname]
      exact binds_clear hu he (hinum ▸ hne)

/-- A directory that has been reached is fine. -/
theorem Reached.fine (hsb : sb.size ≤ 2 ^ 32) (h : Reached sb dp a b m) : Fine sb dp a b m := by
  induction h with
  | made hopen hlive hnew =>
    refine ⟨hopen, ?_⟩
    rw [hnew]
    refine ⟨⟨_, rfl, rfl, rfl⟩, ⟨_, rfl, rfl, rfl⟩, hlive, ?_⟩
    intro j k d e hd he _ _ hname
    have hdots : dot ≠ dotdot := by decide
    match j, k with
    | 0, 0 => rfl
    | 1, 1 => rfl
    | 0, 1 =>
      cases hd
      cases he
      exact absurd hname hdots
    | 1, 0 =>
      cases hd
      cases he
      exact absurd hname.symm hdots
    | j + 2, _ => simp at hd
    | _, k + 2 => simp at he
  | link name inum _ hinum hrun ih =>
    exact (Triple.of_ok (dirlink_maps hsb ih name hinum) rfl hrun).1
  | unlink name _ hrun ih => exact (Triple.of_ok (unlinkName_maps hsb ih name) rfl hrun).1
  | other _ hopen hsame ih => exact ⟨hopen, dirOf_congr hsame ▸ ih.slots⟩

/-- **Directories are finite maps.**

In every directory that is reached, no two live entries have one name, and `.` and `..`
are the first two.  A lookup returns the inode and the offset of the entry that binds the
name, if there is one.  An insertion adds one binding, or leaves the map as it is if the
name is bound or its entry cannot be written; a removal deletes one binding.  The
directory is empty for `isdirempty` iff it binds nothing else. -/
theorem directories_are_finite_maps (hsb : sb.size ≤ 2 ^ 32) (h : Reached sb dp a b m) :
    Unique (dirOf m dp) ∧
    (∃ d e, (dirOf m dp)[0]? = some d ∧ d.inum = a ∧ d.name = dot ∧
      (dirOf m dp)[1]? = some e ∧ e.inum = b ∧ e.name = dotdot) ∧
    (∀ n i j, Binds (dirOf m dp) n i → Binds (dirOf m dp) n j → i = j) ∧
    (∀ name, Triple (fun s => s = m) (dirlookup sb dp name) (LooksUp dp name m) (Crowded m)) ∧
    (∀ name inum, 1 ≤ inum ∧ inum ≤ 65535 → Triple (fun s => s = m) (dirlink sb dp name inum)
      (Inserts sb dp name inum m) (Crowded m)) ∧
    (∀ name, Triple (fun s => s = m) (unlinkName sb dp name) (Removes dp name m) (Crowded m)) ∧
    ∃ empty, isdirempty sb dp m = .ok (empty, m) ∧
      (empty = true ↔ ∀ n i, Binds (dirOf m dp) n i → n = dot ∨ n = dotdot) := by
  have hfine := h.fine hsb
  obtain ⟨d, hd, ha, hdot⟩ := hfine.slots.own
  obtain ⟨e, he, hb, hdots⟩ := hfine.slots.parent
  refine ⟨hfine.slots.unique, ⟨d, e, hd, ha, hdot, he, hb, hdots⟩,
    fun n i j => hfine.slots.unique.functional, dirlookup_maps hfine, ?_, ?_, ?_⟩
  · intro name inum hinum
    exact .conseq (dirlink_maps hsb hfine name hinum) (fun _ hs => hs)
      (fun _ _ hr => hr.2) fun _ he => he
  · intro name
    exact .conseq (unlinkName_maps hsb hfine name) (fun _ hs => hs)
      (fun _ _ hr => hr.2) fun _ he => he
  · obtain ⟨nd, hf⟩ := hfine.folder
    refine ⟨_, isdirempty_run hfine.toOpened.at hfine.locked hf, ?_⟩
    have hempty := hfine.slots.isdirempty_iff
    rw [dirOf_eq hf.node] at hempty ⊢
    exact hempty

end Maps

/-- The root directory of the small volume, after `.` and `..` have been written into it. -/
theorem root_reached : ∃ m, Reached Fs.small 1 1 1 m := by
  have hheld : Held Fs.small [] Volume.smallVol := ⟨Volume.smallVol_consistent, by simp⟩
  obtain ⟨v, _, hv, hsame⟩ := Volume.ilock_spec hheld Volume.smallVol_allocated
  have hlen : (Volume.smallVol.content 1).length = 32 :=
    Volume.length_content Volume.smallVol_allocated
  obtain ⟨x, y, hxy⟩ : ∃ x y, entries (Volume.smallVol.content 1) = [x, y] := by
    apply List.length_eq_two.1
    rw [length_entries, hlen]
    rfl
  have hat : At Fs.small v {1} [1] ⟨v, {1}, [1]⟩ := ⟨.refl _, hv, rfl, rfl, by simp⟩
  have hf : Folder v 1 ⟨T_DIR, 0, 0, 1, Volume.smallVol.content 1⟩ := by
    refine ⟨?_, rfl, ?_⟩
    · rw [hsame.node]
      exact Volume.node_of_allocated Volume.smallVol_allocated
    · rw [hlen]
      decide
  obtain ⟨w, _, hw, hdot⟩ := writeEntry_old (by decide) hat (by simp) hf
    (k := 0) (by rw [hxy]; simp) (length_dirent 1 dot)
  obtain ⟨nd₁, hf₁, hentries₁⟩ := hdot.folder rfl
  rw [hxy, decode_dirent (by decide)] at hentries₁
  obtain ⟨w', _, hw', hdots⟩ := writeEntry_old (by decide) (hat.change hw) (by simp) hf₁
    (k := 1) (by rw [hentries₁]; simp) (length_dirent 1 dotdot)
  obtain ⟨nd₂, hf₂, hentries₂⟩ := hdots.folder hf₁.type
  rw [hentries₁, decode_dirent (by decide), key_dot, key_dotdot] at hentries₂
  have hat' := (hat.change hw).change hw'
  have hopen := Opened.of_at hat' (by simp) hf₂
  refine ⟨_, Reached.made (g := 0) (h := 0) hopen (by decide) ?_⟩
  rw [dirOf_eq hf₂.node, hentries₂]
  rfl

theorem directories_are_finite_maps_root : ∃ m, Reached Fs.small 1 1 1 m ∧
    Unique (dirOf m 1) ∧ ∃ d, (dirOf m 1)[0]? = some d ∧ d.inum = 1 ∧ d.name = dot := by
  obtain ⟨m, hm⟩ := root_reached
  obtain ⟨hunique, ⟨d, _, hd, hinum, hname, _⟩, _⟩ := directories_are_finite_maps (by decide) hm
  exact ⟨m, hm, hunique, d, hd, hinum, hname⟩

end Kus.Names
