import Mathlib
import KusOs.DirTree

/-!
# The tree of directories and its link counts

`links s i` counts the entries for inode `i` in directories that have a link,
without `.` and with one for the root.

* `Tree δ s` — the shape of directories, the tree of linked ones, and link counts
  that differ from `links` by `δ`, which is not zero in the middle of a call;
* `Tree.insert`, `Tree.clear`, `Tree.setLinks`, `Tree.unlinkEmpty`, `Tree.node`,
  `Tree.drop` — what the single writes of a call do to it.
-/

namespace Kus.Dir

attribute [local simp] DirState.setInode

section Links

variable {n : Int16}

theorem pos_iff_toInt : 0 < n ↔ 0 < n.toInt := by
  rw [Int16.lt_iff_toInt_lt]
  rfl

theorem eq_zero_iff_toInt : n = 0 ↔ n.toInt = 0 := by
  rw [← Int16.toInt_inj]
  rfl

theorem not_pos_zero : ¬ (0 : Int16) < 0 := by decide

theorem toInt_succ (h : n.toInt < 32767) : (n + 1).toInt = n.toInt + 1 := by
  have hlo := Int16.le_toInt n
  have hone : (1 : Int16).toInt = 1 := rfl
  rw [Int16.toInt_add, hone]
  apply Int.bmod_eq_of_le <;> omega

theorem toInt_pred (h : 0 < n.toInt) : (n - 1).toInt = n.toInt - 1 := by
  have hhi := Int16.toInt_lt n
  have hone : (1 : Int16).toInt = 1 := rfl
  rw [Int16.toInt_sub, hone]
  apply Int.bmod_eq_of_le <;> omega

end Links

section Entries

variable {e : Dirent} {ds : List Dirent} {name : Name} {k i : Nat}

/-- What a lookup finds. -/
theorem lookup_some {j : Nat} (h : lookup name ds = some (k, j)) :
    ∃ e, ds[k]? = some e ∧ e.inum = j ∧ j ≠ 0 ∧ e.name = name := by
  induction ds generalizing k j with
  | nil => cases h
  | cons d ds ih =>
    unfold lookup at h
    split at h
    · rename_i hd
      cases h
      exact ⟨d, rfl, rfl, hd.1, hd.2⟩
    · obtain ⟨⟨k', j'⟩, hr, heq⟩ := Option.map_eq_some_iff.1 h
      cases heq
      obtain ⟨e, he, hinum, hne, hname⟩ := ih hr
      exact ⟨e, by simpa using he, hinum, hne, hname⟩

theorem lookup_none (h : lookup name ds = none) (he : e ∈ ds) (hlive : e.inum ≠ 0) :
    e.name ≠ name := by
  induction ds with
  | nil => cases he
  | cons d ds ih =>
    unfold lookup at h
    split at h
    · cases h
    · rename_i hd
      rcases List.mem_cons.1 he with rfl | he
      · exact fun hname => hd ⟨hlive, hname⟩
      · exact ih (Option.map_eq_none_iff.1 h) he

theorem mem_insertEntry {d : Dirent} (h : d ∈ insertEntry e ds) : d = e ∨ d ∈ ds := by
  induction ds with
  | nil => exact .inl (List.mem_singleton.1 h)
  | cons d' ds ih =>
    unfold insertEntry at h
    split at h
    · rcases List.mem_cons.1 h with h | h
      · exact .inl h
      · exact .inr (List.mem_cons_of_mem _ h)
    · rcases List.mem_cons.1 h with h | h
      · exact .inr (h ▸ List.mem_cons_self)
      · exact (ih h).imp id (List.mem_cons_of_mem _)

/-- A new entry takes the place of a cleared one, which does not count. -/
theorem countP_insertEntry {P : Dirent → Bool} (hP : ∀ d, d.inum = 0 → P d = false) :
    (insertEntry e ds).countP P = ds.countP P + if P e then 1 else 0 := by
  induction ds with
  | nil => simp [insertEntry, List.countP_cons]
  | cons d ds ih =>
    unfold insertEntry
    split
    · rename_i hd
      simp [List.countP_cons, hP d hd]
    · rw [List.countP_cons, ih, List.countP_cons]
      omega

theorem countP_clear {P : Dirent → Bool} (hP : P Dirent.empty = false) (hk : ds[k]? = some e) :
    (ds.set k Dirent.empty).countP P + (if P e then 1 else 0) = ds.countP P := by
  induction ds generalizing k with
  | nil => simp at hk
  | cons d ds ih =>
    cases k with
    | zero =>
      have hd : d = e := by simpa using hk
      subst hd
      simp [List.countP_cons, hP]
    | succ k =>
      have hrest := ih (k := k) (by simpa using hk)
      rw [List.set_cons_succ, List.countP_cons, List.countP_cons]
      omega

end Entries

/-- Does entry `e` of directory `d` count as a link to inode `i`? -/
def counted (d i : Nat) (e : Dirent) : Bool :=
  e.inum == i && e.inum != 0 && e.name != dot && !(d == ROOTINO && e.name == dotdot)

/-- The links to `i` from directory `d`, whose inode is `x`. -/
def contrib (d : Nat) (x : Inode) (i : Nat) : Nat :=
  if 0 < x.nlink then x.dirents.countP (counted d i) else 0

/-- The entries for inode `i` in directories that have a link, `.` and the `..` of the
root not counted, and one for the root. -/
def links (s : DirState) (i : Nat) : Nat :=
  ∑ d ∈ Finset.range NINODES, contrib d (s.inode d) i + if i = ROOTINO then 1 else 0

/-- The entries for inode `c` after the first two. -/
def named (x : Inode) (c : Nat) : Nat := (x.dirents.drop 2).countP fun e => e.inum == c

/-- The inode that `..` refers to. -/
def parent (x : Inode) : Nat := (x.dirents.getD 1 Dirent.empty).inum

/-- A directory starts with `.` and `..`, which are no other entry's name. -/
structure Shape (d : Nat) (x : Inode) : Prop where
  split : ∃ g p g' rest, x.dirents = ⟨d, dot, g⟩ :: ⟨p, dotdot, g'⟩ :: rest
  self : d ≠ 0
  up : parent x ≠ 0
  plain : ∀ e ∈ x.dirents.drop 2, e.inum ≠ 0 → e.name ≠ dot ∧ e.name ≠ dotdot

section Contrib

variable {s : DirState} {d i : Nat} {x : Inode}

theorem contrib_eq_zero (h : x.dirents = [] ∨ ¬ 0 < x.nlink) : contrib d x i = 0 := by
  unfold contrib
  rcases h with h | h
  · simp [h]
  · rw [if_neg h]

@[simp] theorem contrib_zero (d : Nat) (x : Inode) : contrib d x 0 = 0 := by
  have hnone : ∀ e ∈ x.dirents, ¬ counted d 0 e = true := by
    intro e _
    simp only [counted]
    by_cases he : e.inum = 0 <;> simp [he]
  unfold contrib
  rw [List.countP_eq_zero.2 hnone, ite_self]

/-- A linked directory counts for its parent and for the entries in it. -/
theorem contrib_dir (h : Shape d x) (hlink : 0 < x.nlink) (hi : i ≠ 0) :
    contrib d x i = (if d ≠ ROOTINO ∧ parent x = i then 1 else 0) + named x i := by
  obtain ⟨g, p, g', rest, hds⟩ := h.split
  have hup : parent x = p := by simp [parent, hds]
  have hp : p ≠ 0 := hup ▸ h.up
  have hdots : dotdot ≠ dot := by decide
  have hrest : rest.countP (counted d i) = named x i := by
    unfold named
    rw [hds]
    apply List.countP_congr
    intro e he
    have hplain := h.plain e (by rw [hds]; exact he)
    simp only [counted]
    by_cases hei : e.inum = i
    · have hlive : e.inum ≠ 0 := by rw [hei]; exact hi
      obtain ⟨hdot, hdotdot⟩ := hplain hlive
      simp [hei, hi, hdot, hdotdot]
    · simp [hei]
  unfold contrib
  rw [if_pos hlink, hds, List.countP_cons, List.countP_cons, hrest, hup]
  have hself : counted d i ⟨d, dot, g⟩ = false := by simp [counted]
  have hparent : counted d i ⟨p, dotdot, g'⟩ = decide (d ≠ ROOTINO ∧ p = i) := by
    by_cases hr : d = ROOTINO <;> by_cases hpi : p = i <;> simp [counted, hr, hpi, hp, hdots]
    exact hpi ▸ hp
  rw [hself, hparent]
  simp only [decide_eq_true_eq, Bool.false_eq_true, if_false]
  omega

/-- What one inode contributes is replaced. -/
theorem links_set (hd : d < NINODES) :
    links (s.setInode d x) i + contrib d (s.inode d) i = links s i + contrib d x i := by
  have hmem : d ∈ Finset.range NINODES := Finset.mem_range.2 hd
  have hnew := Finset.sum_erase_add (Finset.range NINODES)
    (fun j => contrib j ((s.setInode d x).inode j) i) hmem
  have hold := Finset.sum_erase_add (Finset.range NINODES) (fun j => contrib j (s.inode j) i) hmem
  have hsame : ∑ j ∈ (Finset.range NINODES).erase d, contrib j ((s.setInode d x).inode j) i =
      ∑ j ∈ (Finset.range NINODES).erase d, contrib j (s.inode j) i := by
    apply Finset.sum_congr rfl
    intro j hj
    have hne := (Finset.mem_erase.1 hj).1
    simp [hne]
  have hself : (s.setInode d x).inode d = x := by simp
  rw [hself] at hnew
  unfold links
  omega

theorem contrib_le_links (hd : d < NINODES) : contrib d (s.inode d) i ≤ links s i := by
  have hle := Finset.single_le_sum (f := fun j => contrib j (s.inode j) i)
    (fun j _ => Nat.zero_le _) (Finset.mem_range.2 hd)
  unfold links
  omega

end Contrib

/-- The directories between two writes of a call.  Link counts differ from the
number of links by `δ`. -/
structure Tree (δ : Nat → Int) (s : DirState) : Prop where
  nonneg : ∀ i, 0 ≤ (s.inode i).nlink.toInt
  free : ∀ i, (s.inode i).type = 0 → (s.inode i).nlink = 0
  range : ∀ i, (s.inode i).type ≠ 0 → 0 < i ∧ i < NINODES
  plain : ∀ i, (s.inode i).type ≠ T_DIR → (s.inode i).dirents = []
  shape : ∀ d, (s.inode d).type = T_DIR → Shape d (s.inode d)
  /-- A directory without a link is empty. -/
  removed : ∀ d c, (s.inode d).nlink = 0 → c ≠ 0 → named (s.inode d) c = 0
  root : (s.inode ROOTINO).type = T_DIR ∧ 0 < (s.inode ROOTINO).nlink
  /-- A linked directory is named in its parent, which is linked. -/
  above : ∀ c, (s.inode c).type = T_DIR → 0 < (s.inode c).nlink → c ≠ ROOTINO →
    0 < (s.inode (parent (s.inode c))).nlink ∧ 0 < named (s.inode (parent (s.inode c))) c
  /-- A directory has no name but that. -/
  only : ∀ d c, 0 < named (s.inode d) c → (s.inode c).type = T_DIR →
    c ≠ ROOTINO ∧ parent (s.inode c) = d ∧ named (s.inode d) c = 1
  loop : ∀ d, d ≠ 0 → named (s.inode d) d = 0
  counts : ∀ i, (s.inode i).nlink.toInt + δ i = links s i
  used : ∀ i, s.Referenced i → (s.inode i).type ≠ 0

section Facts

variable {δ : Nat → Int} {s : DirState} {d c i : Nat} {x : Inode}

theorem named_plain (h : x.dirents = []) : named x c = 0 := by
  simp [named, h]

/-- A name is in a linked directory. -/
theorem Tree.of_named (h : Tree δ s) (hc : c ≠ 0) (hname : 0 < named (s.inode d) c) :
    (s.inode d).type = T_DIR ∧ 0 < (s.inode d).nlink := by
  constructor
  · by_contra htype
    rw [named_plain (h.plain d htype)] at hname
    exact absurd hname (lt_irrefl 0)
  · have hne : (s.inode d).nlink ≠ 0 := by
      intro hzero
      rw [h.removed d c hzero hc] at hname
      exact absurd hname (lt_irrefl 0)
    have hnn := h.nonneg d
    rw [pos_iff_toInt]
    have hne' : (s.inode d).nlink.toInt ≠ 0 := fun e => hne (eq_zero_iff_toInt.2 e)
    omega

theorem Tree.dir_range (h : Tree δ s) (htype : (s.inode d).type = T_DIR) : 0 < d ∧ d < NINODES := by
  apply h.range d
  rw [htype]
  decide

/-- Every name counts as a link. -/
theorem Tree.named_le (h : Tree δ s) (hc : c ≠ 0) : named (s.inode d) c ≤ links s c := by
  by_cases hname : 0 < named (s.inode d) c
  · obtain ⟨htype, hlink⟩ := h.of_named hc hname
    have hle := contrib_le_links (s := s) (i := c) (h.dir_range htype).2
    rw [contrib_dir (h.shape d htype) hlink hc] at hle
    omega
  · omega

end Facts

section Writes

variable {δ : Nat → Int} {s : DirState} {j : Nat} {x : Inode} {e : Dirent}

@[simp] theorem inode_setInode_self (s : DirState) (j : Nat) (x : Inode) :
    (s.setInode j x).inode j = x := by
  simp

theorem inode_setInode_ne (s : DirState) {i j : Nat} (x : Inode) (h : i ≠ j) :
    (s.setInode j x).inode i = s.inode i := by
  simp [h]

/-- What has to be shown of a new inode `x` at number `j` of a tree. -/
structure Fits (s : DirState) (j : Nat) (x : Inode) : Prop where
  range : 0 < j ∧ j < NINODES
  nonneg : 0 ≤ x.nlink.toInt
  free : x.type = 0 → x.nlink = 0
  plain : x.type ≠ T_DIR → x.dirents = []
  shape : x.type = T_DIR → Shape j x
  removed : ∀ c, x.nlink = 0 → c ≠ 0 → named x c = 0
  root : j = ROOTINO → x.type = T_DIR ∧ 0 < x.nlink
  above : x.type = T_DIR → 0 < x.nlink → j ≠ ROOTINO → parent x ≠ j ∧
    0 < (s.inode (parent x)).nlink ∧ 0 < named (s.inode (parent x)) j
  /-- its subdirectories -/
  below : ∀ c, c ≠ j → (s.inode c).type = T_DIR → 0 < (s.inode c).nlink → c ≠ ROOTINO →
    parent (s.inode c) = j → 0 < x.nlink ∧ 0 < named x c
  /-- the names in it -/
  names : ∀ c, c ≠ j → 0 < named x c → (s.inode c).type = T_DIR →
    c ≠ ROOTINO ∧ parent (s.inode c) = j ∧ named x c = 1
  loop : named x j = 0
  /-- its names -/
  named : ∀ d, d ≠ j → 0 < named (s.inode d) j → x.type = T_DIR →
    j ≠ ROOTINO ∧ parent x = d ∧ named (s.inode d) j = 1
  used : s.Referenced j → x.type ≠ 0

/-- One inode is written. -/
theorem Tree.set {δ' : Nat → Int} (h : Tree δ s) (hx : Fits s j x)
    (hδ : ∀ i, δ' i + (if i = j then x.nlink.toInt - (s.inode j).nlink.toInt else 0) +
      contrib j (s.inode j) i = δ i + contrib j x i) : Tree δ' (s.setInode j x) := by
  constructor
  · intro i
    by_cases e : i = j
    · subst e
      rw [inode_setInode_self]
      exact hx.nonneg
    · rw [inode_setInode_ne s x e]
      exact h.nonneg i
  · intro i
    by_cases e : i = j
    · subst e
      rw [inode_setInode_self]
      exact hx.free
    · rw [inode_setInode_ne s x e]
      exact h.free i
  · intro i
    by_cases e : i = j
    · subst e
      exact fun _ => hx.range
    · rw [inode_setInode_ne s x e]
      exact h.range i
  · intro i
    by_cases e : i = j
    · subst e
      rw [inode_setInode_self]
      exact hx.plain
    · rw [inode_setInode_ne s x e]
      exact h.plain i
  · intro d
    by_cases e : d = j
    · subst e
      rw [inode_setInode_self]
      exact hx.shape
    · rw [inode_setInode_ne s x e]
      exact h.shape d
  · intro d c
    by_cases e : d = j
    · subst e
      rw [inode_setInode_self]
      exact hx.removed c
    · rw [inode_setInode_ne s x e]
      exact h.removed d c
  · by_cases e : ROOTINO = j
    · rw [e, inode_setInode_self]
      exact hx.root e.symm
    · rw [inode_setInode_ne s x e]
      exact h.root
  · intro c htype hlink hroot
    by_cases e : c = j
    · subst e
      rw [inode_setInode_self] at htype hlink ⊢
      obtain ⟨hne, hup⟩ := hx.above htype hlink hroot
      rw [inode_setInode_ne s x hne]
      exact hup
    rw [inode_setInode_ne s x e] at htype hlink ⊢
    by_cases ep : parent (s.inode c) = j
    · rw [ep, inode_setInode_self]
      exact hx.below c e htype hlink hroot ep
    · rw [inode_setInode_ne s x ep]
      exact h.above c htype hlink hroot
  · intro d c hname htype
    by_cases ed : d = j
    · subst ed
      rw [inode_setInode_self] at hname ⊢
      by_cases ec : c = d
      · subst ec
        rw [hx.loop] at hname
        exact absurd hname (lt_irrefl 0)
      · rw [inode_setInode_ne s x ec] at htype ⊢
        exact hx.names c ec hname htype
    rw [inode_setInode_ne s x ed] at hname ⊢
    by_cases ec : c = j
    · subst ec
      rw [inode_setInode_self] at htype ⊢
      exact hx.named d ed hname htype
    · rw [inode_setInode_ne s x ec] at htype ⊢
      exact h.only d c hname htype
  · intro d hd
    by_cases e : d = j
    · subst e
      rw [inode_setInode_self]
      exact hx.loop
    · rw [inode_setInode_ne s x e]
      exact h.loop d hd
  · intro i
    have hlinks := links_set (s := s) (x := x) (i := i) hx.range.2
    have hold := h.counts i
    have hi := hδ i
    by_cases e : i = j
    · subst e
      rw [if_pos rfl] at hi
      rw [inode_setInode_self]
      omega
    rw [if_neg e] at hi
    rw [inode_setInode_ne s x e]
    omega
  · intro i href
    have href' : s.Referenced i := href
    by_cases e : i = j
    · subst e
      rw [inode_setInode_self]
      exact hx.used href'
    · rw [inode_setInode_ne s x e]
      exact h.used i href'

/-- Adding an entry to a directory. -/
theorem Shape.insert {d : Nat} (h : Shape d x) (hlive : e.inum ≠ 0)
    (hname : e.name ≠ dot ∧ e.name ≠ dotdot) :
    let x' := x.withDirents (insertEntry e x.dirents)
    Shape d x' ∧ parent x' = parent x ∧
      ∀ c, c ≠ 0 → named x' c = named x c + if e.inum = c then 1 else 0 := by
  obtain ⟨g, p, g', rest, hds⟩ := h.split
  have hp : p ≠ 0 := by
    have hup := h.up
    rw [parent, hds] at hup
    exact hup
  have hins : insertEntry e x.dirents = ⟨d, dot, g⟩ :: ⟨p, dotdot, g'⟩ :: insertEntry e rest := by
    rw [hds]
    simp [insertEntry, h.self, hp]
  intro x'
  have hds' : x'.dirents = ⟨d, dot, g⟩ :: ⟨p, dotdot, g'⟩ :: insertEntry e rest := hins
  have hparent : parent x' = parent x := by
    simp [parent, hds', hds]
  refine ⟨⟨⟨g, p, g', _, hds'⟩, h.self, ?_, ?_⟩, hparent, ?_⟩
  · rw [hparent]
    exact h.up
  · intro d' hd' hlive'
    have hmem : d' ∈ insertEntry e rest := by
      simpa [hds'] using hd'
    rcases mem_insertEntry hmem with rfl | hmem
    · exact hname
    · exact h.plain d' (by rw [hds]; exact hmem) hlive'
  · intro c hc
    have hcount := @countP_insertEntry e rest (fun e => e.inum == c)
      (fun d' hd' => by simp [hd', Ne.symm hc])
    simpa [named, hds', hds] using hcount

/-- Clearing an entry of a directory other than the first two. -/
theorem Shape.clear {d k : Nat} (h : Shape d x) (hk : x.dirents[k]? = some e)
    (hname : e.name ≠ dot ∧ e.name ≠ dotdot) :
    let x' := x.withDirents (x.dirents.set k Dirent.empty)
    Shape d x' ∧ parent x' = parent x ∧
      ∀ c, c ≠ 0 → named x' c + (if e.inum = c then 1 else 0) = named x c := by
  obtain ⟨g, p, g', rest, hds⟩ := h.split
  have hk2 : ∃ k', k = k' + 2 ∧ rest[k']? = some e := by
    rw [hds] at hk
    match k, hk with
    | 0, hk =>
      have he : ⟨d, dot, g⟩ = e := by simpa using hk
      exact absurd (he ▸ rfl) hname.1
    | 1, hk =>
      have he : ⟨p, dotdot, g'⟩ = e := by simpa using hk
      exact absurd (he ▸ rfl) hname.2
    | k' + 2, hk => exact ⟨k', rfl, by simpa using hk⟩
  obtain ⟨k', rfl, hk'⟩ := hk2
  intro x'
  have hds' : x'.dirents = ⟨d, dot, g⟩ :: ⟨p, dotdot, g'⟩ :: rest.set k' Dirent.empty := by
    change x.dirents.set (k' + 2) Dirent.empty = _
    rw [hds]
    rfl
  have hparent : parent x' = parent x := by
    simp [parent, hds', hds]
  refine ⟨⟨⟨g, p, g', _, hds'⟩, h.self, ?_, ?_⟩, hparent, ?_⟩
  · rw [hparent]
    exact h.up
  · intro d' hd' hlive'
    have hmem : d' ∈ rest.set k' Dirent.empty := by
      simpa [hds'] using hd'
    rcases List.mem_or_eq_of_mem_set hmem with hmem | rfl
    · exact h.plain d' (by rw [hds]; exact hmem) hlive'
    · exact absurd rfl hlive'
  · intro c hc
    have hcount := countP_clear (P := fun e => e.inum == c) (by simp [Dirent.empty, Ne.symm hc]) hk'
    simpa [named, hds', hds] using hcount

/-- The parent of a linked directory other than the root. -/
theorem Tree.parent_ne (h : Tree δ s) (htype : (s.inode j).type = T_DIR)
    (hlink : 0 < (s.inode j).nlink) (hroot : j ≠ ROOTINO) : parent (s.inode j) ≠ j := by
  intro e
  have hname := (h.above j htype hlink hroot).2
  rw [e, h.loop j (h.dir_range htype).1.ne'] at hname
  exact absurd hname (lt_irrefl 0)

section

variable (h : Tree δ s) (δ' : Nat → Int) (htype : (s.inode j).type = T_DIR)
  (hlink : 0 < (s.inode j).nlink)
include h δ' htype hlink

/-- A linked directory gets other entries.  Linked directories are named in it
as before, and no directory more often. -/
theorem Tree.setEntries {ds : List Dirent} (hshape : Shape j ((s.inode j).withDirents ds))
    (hparent : parent ((s.inode j).withDirents ds) = parent (s.inode j))
    (hle : ∀ c, (s.inode c).type = T_DIR →
      named ((s.inode j).withDirents ds) c ≤ named (s.inode j) c)
    (hkeep : ∀ c, (s.inode c).type = T_DIR → 0 < (s.inode c).nlink →
      named ((s.inode j).withDirents ds) c = named (s.inode j) c) (hzero : δ' 0 = δ 0)
    (hδ : ∀ i, i ≠ 0 → δ' i = δ i + named ((s.inode j).withDirents ds) i - named (s.inode j) i) :
    Tree δ' (s.setDirents j ds) := by
  have hj := h.dir_range htype
  refine h.set ⟨hj, h.nonneg j, h.free j, fun hn => absurd htype hn, fun _ => hshape, ?_, ?_, ?_,
    ?_, ?_, ?_, ?_, h.used j⟩ ?_
  · intro c hnone
    have hnone' : (s.inode j).nlink = 0 := hnone
    rw [hnone'] at hlink
    exact absurd hlink not_pos_zero
  · rintro rfl
    exact h.root
  · intro _ _ hroot
    rw [hparent]
    exact ⟨h.parent_ne htype hlink hroot, h.above j htype hlink hroot⟩
  · intro c _ hct hcl hroot hup
    have hold := (h.above c hct hcl hroot).2
    rw [hup] at hold
    rw [hkeep c hct hcl]
    exact ⟨hlink, hold⟩
  · intro c _ hc hct
    have hle' := hle c hct
    obtain ⟨hroot, hup, hone⟩ := h.only j c (by omega) hct
    exact ⟨hroot, hup, by omega⟩
  · have hle' := hle j htype
    rw [h.loop j hj.1.ne'] at hle'
    exact Nat.le_zero.1 hle'
  · intro d _ hd _
    rw [hparent]
    exact h.only d j hd htype
  · intro i
    by_cases hi : i = 0
    · subst hi
      simp [hzero]
    have hold := contrib_dir (h.shape j htype) hlink hi
    have hnew := contrib_dir hshape hlink hi
    have hδi := hδ i hi
    rw [hparent] at hnew
    simp only [Inode.withDirents_nlink, sub_self, ite_self]
    omega

/-- Writing an entry for an inode that is not a directory. -/
theorem Tree.insert (hlive : e.inum ≠ 0) (hname : e.name ≠ dot ∧ e.name ≠ dotdot)
    (hnew : (s.inode e.inum).type ≠ T_DIR) (hδ : ∀ i, δ' i = δ i + if e.inum = i then 1 else 0) :
    Tree δ' (s.setDirents j (insertEntry e (s.inode j).dirents)) := by
  obtain ⟨hshape, hparent, hnamed⟩ := (h.shape j htype).insert hlive hname
  have hsame : ∀ c, (s.inode c).type = T_DIR →
      named ((s.inode j).withDirents (insertEntry e (s.inode j).dirents)) c =
        named (s.inode j) c := by
    intro c hct
    have hec : e.inum ≠ c := fun e' => hnew (e' ▸ hct)
    rw [hnamed c (h.dir_range hct).1.ne', if_neg hec, Nat.add_zero]
  refine h.setEntries δ' htype hlink hshape hparent (fun c hct => (hsame c hct).le)
    (fun c hct _ => hsame c hct) (by simp [hδ, hlive]) fun i hi => ?_
  rw [hδ i, hnamed i hi]
  split <;> omega

/-- Clearing an entry for an inode that is not a linked directory. -/
theorem Tree.clear {k : Nat} (hk : (s.inode j).dirents[k]? = some e) (hlive : e.inum ≠ 0)
    (hname : e.name ≠ dot ∧ e.name ≠ dotdot)
    (hgone : (s.inode e.inum).type = T_DIR → ¬ 0 < (s.inode e.inum).nlink)
    (hδ : ∀ i, δ' i = δ i - if e.inum = i then 1 else 0) :
    Tree δ' (s.setDirents j ((s.inode j).dirents.set k Dirent.empty)) := by
  obtain ⟨hshape, hparent, hnamed⟩ := (h.shape j htype).clear hk hname
  refine h.setEntries δ' htype hlink hshape hparent (fun c hct => ?_) (fun c hct hcl => ?_)
    (by simp [hδ, hlive]) fun i hi => ?_
  · rw [← hnamed c (h.dir_range hct).1.ne']
    exact Nat.le_add_right _ _
  · have hec : e.inum ≠ c := fun e' => hgone (e' ▸ hct) (e' ▸ hcl)
    rw [← hnamed c (h.dir_range hct).1.ne', if_neg hec, Nat.add_zero]
  · have hcount := hnamed i hi
    rw [hδ i]
    split at hcount <;> omega

end

/-- Changing the link count of an inode that keeps its entries. -/
theorem Tree.setLinks (h : Tree δ s) (δ' : Nat → Int) {n : Int16} (hused : (s.inode j).type ≠ 0)
    (hn : 0 ≤ n.toInt) (hkeep : (s.inode j).type = T_DIR → 0 < (s.inode j).nlink ∧ 0 < n)
    (hδ : ∀ i, δ' i = δ i + if i = j then (s.inode j).nlink.toInt - n.toInt else 0) :
    Tree δ' (s.setNlink j n) := by
  refine h.set ⟨h.range j hused, hn, fun ht => absurd ht hused, h.plain j, ?_, ?_, ?_, ?_, ?_, ?_,
    h.loop j (h.range j hused).1.ne', ?_, h.used j⟩ ?_
  · intro htype
    obtain ⟨hsplit, hself, hup, hplain⟩ := h.shape j htype
    exact ⟨hsplit, hself, hup, hplain⟩
  · intro c hzero hc
    by_cases htype : (s.inode j).type = T_DIR
    · have hpos := (hkeep htype).2
      have hzero' : n = 0 := hzero
      rw [hzero'] at hpos
      exact absurd hpos not_pos_zero
    · exact named_plain (h.plain j htype)
  · rintro rfl
    exact ⟨h.root.1, (hkeep h.root.1).2⟩
  · intro htype _ hroot
    have hlink := (hkeep htype).1
    exact ⟨h.parent_ne htype hlink hroot, h.above j htype hlink hroot⟩
  · intro c _ hct hcl hroot hup
    have hold := h.above c hct hcl hroot
    rw [hup] at hold
    have hdir := (h.of_named (h.dir_range hct).1.ne' hold.2).1
    exact ⟨(hkeep hdir).2, hold.2⟩
  · intro c _ hc hct
    exact h.only j c hc hct
  · intro d _ hd htype
    exact h.only d j hd htype
  · intro i
    have hsame : contrib j ((s.inode j).withNlink n) i = contrib j (s.inode j) i := by
      by_cases htype : (s.inode j).type = T_DIR
      · obtain ⟨hold, hnew⟩ := hkeep htype
        unfold contrib
        rw [Inode.withNlink_nlink, if_pos hold, if_pos hnew, Inode.withNlink_dirents]
      · have hnone := h.plain j htype
        rw [contrib_eq_zero (x := (s.inode j).withNlink n) (.inl hnone),
          contrib_eq_zero (.inl hnone)]
    rw [hsame, hδ i, Inode.withNlink_nlink]
    split <;> omega

/-- The last link of an empty directory goes; it no longer counts for its parent. -/
theorem Tree.unlinkEmpty (h : Tree δ s) (δ' : Nat → Int) (htype : (s.inode j).type = T_DIR)
    (hlink : 0 < (s.inode j).nlink) (hroot : j ≠ ROOTINO)
    (hempty : ∀ c, c ≠ 0 → named (s.inode j) c = 0)
    (hδ : ∀ i, δ' i = δ i + (if i = j then (s.inode j).nlink.toInt else 0) -
      if parent (s.inode j) = i then 1 else 0) : Tree δ' (s.setNlink j 0) := by
  have hused : (s.inode j).type ≠ 0 := by
    rw [htype]
    decide
  have hshape := h.shape j htype
  refine h.set ⟨h.range j hused, le_refl _, fun ht => absurd ht hused, h.plain j, ?_, ?_, ?_, ?_,
    ?_, ?_, h.loop j (h.range j hused).1.ne', ?_, h.used j⟩ ?_
  · intro _
    obtain ⟨hsplit, hself, hup, hplain⟩ := hshape
    exact ⟨hsplit, hself, hup, hplain⟩
  · exact fun c _ hc => hempty c hc
  · exact fun e => absurd e hroot
  · exact fun _ hpos => absurd hpos not_pos_zero
  · -- a linked directory in it would be named in it
    intro c _ hct hcl hcr hup
    have hname := (h.above c hct hcl hcr).2
    rw [hup, hempty c (h.dir_range hct).1.ne'] at hname
    exact absurd hname (lt_irrefl 0)
  · intro c _ hc hct
    exact h.only j c hc hct
  · intro d _ hd _
    exact h.only d j hd htype
  · intro i
    have hzero : (0 : Int16).toInt = 0 := rfl
    have hnew : contrib j ((s.inode j).withNlink 0) i = 0 := contrib_eq_zero (.inr not_pos_zero)
    rw [hnew, hδ i, Inode.withNlink_nlink]
    by_cases hi : i = 0
    · subst hi
      have hup := hshape.up
      have hj := (h.dir_range htype).1.ne
      simp [hj, hup]
    rw [contrib_dir hshape hlink hi, hempty i hi]
    simp only [hzero, hroot, ne_eq, not_false_eq_true, true_and]
    push_cast
    split <;> split <;> omega

/-- A free inode gets its type and its first link.  A directory has a name already,
and counts for its parent. -/
theorem Tree.node (h : Tree δ s) (δ' : Nat → Int) (hrange : 0 < j ∧ j < NINODES)
    (hfree : (s.inode j).type = 0) (hused : x.type ≠ 0) (hlink : x.nlink = 1)
    (hplain : x.type ≠ T_DIR → x.dirents = [])
    (hdir : x.type = T_DIR → Shape j x ∧ (∀ c, c ≠ 0 → named x c = 0) ∧
      (s.inode (parent x)).type = T_DIR ∧ named (s.inode (parent x)) j = 1 ∧
      ∀ d, d ≠ parent x → named (s.inode d) j = 0)
    (hδ : ∀ i, δ' i = δ i - (if i = j then 1 else 0) +
      if x.type = T_DIR ∧ parent x = i then 1 else 0) :
    Tree δ' (s.setInode j x) := by
  have hroot : j ≠ ROOTINO := by
    rintro rfl
    rw [h.root.1] at hfree
    exact absurd hfree (by decide)
  have hone : (1 : Int16).toInt = 1 := rfl
  have hpos : 0 < x.nlink := by
    rw [hlink]
    decide
  have hempty : ∀ c, c ≠ 0 → named x c = 0 := by
    intro c hc
    by_cases htype : x.type = T_DIR
    · exact (hdir htype).2.1 c hc
    · exact named_plain (hplain htype)
  have hold : (s.inode j).nlink = 0 := h.free j hfree
  refine h.set ⟨hrange, ?_, fun ht => absurd ht hused, hplain, fun ht => (hdir ht).1, ?_, ?_, ?_,
    ?_, ?_, hempty j hrange.1.ne', ?_, fun _ => hused⟩ ?_
  · rw [hlink, hone]
    decide
  · exact fun c _ hc => hempty c hc
  · exact fun e => absurd e hroot
  · intro htype _ _
    obtain ⟨_, _, hup, hname, _⟩ := hdir htype
    refine ⟨?_, ?_, by omega⟩
    · intro e
      rw [e, hfree] at hup
      exact absurd hup (by decide)
    · exact (h.of_named hrange.1.ne' (by omega)).2
  · intro c _ hct hcl hcr hup
    have hup' := (h.above c hct hcl hcr).1
    rw [hup, hold] at hup'
    exact absurd hup' not_pos_zero
  · intro c _ hc hct
    rw [hempty c (h.dir_range hct).1.ne'] at hc
    exact absurd hc (lt_irrefl 0)
  · intro d _ hd htype
    obtain ⟨_, _, _, hname, hno⟩ := hdir htype
    have hd' : d = parent x := by
      by_contra hne
      rw [hno d hne] at hd
      exact absurd hd (lt_irrefl 0)
    rw [hd']
    exact ⟨hroot, rfl, hname⟩
  · intro i
    have hbefore : contrib j (s.inode j) i = 0 := by
      refine contrib_eq_zero (.inr ?_)
      rw [hold]
      exact not_pos_zero
    rw [hbefore, hδ i, hlink, hold, hone]
    have hzero : (0 : Int16).toInt = 0 := rfl
    rw [hzero]
    by_cases htype : x.type = T_DIR
    · by_cases hi : i = 0
      · subst hi
        have hup := (hdir htype).1.up
        simp [hup, hrange.1.ne]
      · rw [contrib_dir (hdir htype).1 hpos hi, hempty i hi]
        simp only [htype, hroot, ne_eq, not_false_eq_true, true_and]
        push_cast
        split <;> split <;> omega
    rw [contrib_eq_zero (.inl (hplain htype))]
    simp only [htype, false_and, if_false]
    split <;> omega

/-- An inode without a link or a reference is free. -/
theorem Tree.drop (h : Tree δ s) (hrange : 0 < j ∧ j < NINODES) (hlink : (s.inode j).nlink = 0)
    (href : ¬ s.Referenced j) (htype : x.type = 0) (hzero : x.nlink = 0) (hnone : x.dirents = []) :
    Tree δ (s.setInode j x) := by
  have hroot : j ≠ ROOTINO := by
    rintro rfl
    have hpos := h.root.2
    rw [hlink] at hpos
    exact absurd hpos not_pos_zero
  have hnotdir : x.type ≠ T_DIR := by
    rw [htype]
    decide
  refine h.set ⟨hrange, ?_, fun _ => hzero, fun _ => hnone, fun ht => absurd ht hnotdir, ?_, ?_, ?_,
    ?_, ?_, named_plain hnone, fun _ _ _ ht => absurd ht hnotdir, fun hr => absurd hr href⟩ ?_
  · rw [hzero]
    decide
  · exact fun c _ _ => named_plain hnone
  · exact fun e => absurd e hroot
  · exact fun ht => absurd ht hnotdir
  · intro c _ hct hcl hcr hup
    have hup' := (h.above c hct hcl hcr).1
    rw [hup, hlink] at hup'
    exact absurd hup' not_pos_zero
  · intro c _ hc
    rw [named_plain hnone] at hc
    exact absurd hc (lt_irrefl 0)
  · intro i
    have hbefore : contrib j (s.inode j) i = 0 := by
      refine contrib_eq_zero (.inr ?_)
      rw [hlink]
      exact not_pos_zero
    rw [hbefore, contrib_eq_zero (.inl hnone), hzero, hlink]
    simp

/-- Other references to inodes that are not free. -/
theorem Tree.refs (h : Tree δ s) {proc : Fin NPROC → Option Proc}
    (hused : ∀ i, DirState.Referenced { s with proc := proc } i → (s.inode i).type ≠ 0) :
    Tree δ { s with proc := proc } :=
  ⟨h.nonneg, h.free, h.range, h.plain, h.shape, h.removed, h.root, h.above, h.only, h.loop,
    h.counts, hused⟩

end Writes

end Kus.Dir
