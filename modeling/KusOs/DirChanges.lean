import Mathlib
import KusOs.DirTreeInvariant

/-!
# What a call can do to the tree

* `Change` — the changes of which every call is made up: references come and go, an
  inode is freed, a `create` fails, a name is made, added or removed;
* `Tree.change` — **each of them keeps the tree and its link counts**.

The link counts are wrong in the middle of a change, by the debt that `Tree` keeps;
the order of the writes here is the one in which the tree stays a tree.
-/

namespace Kus.Dir

/-- A link count at its largest value. -/
def maxLinks : Int16 := 32767

/-- A new inode `ip` of generation `g`, made in the directory `dp` of generation `up`. -/
def newInode (dp ip : Nat) (type major : Int16) (g up : Nat) : Inode :=
  ⟨type, major, 1, if type = T_DIR then [⟨ip, dot, g⟩, ⟨dp, dotdot, up⟩] else [], g⟩

namespace DirState

/-- A new inode `ip` with a name in `dp`. -/
def make (s : DirState) (dp ip : Nat) (name : Name) (type major : Int16) : DirState :=
  (s.setInode ip (newInode dp ip type major ((s.inode ip).gen + 1) (s.inode dp).gen)).setInode dp
    (((s.inode dp).withDirents
      (insertEntry ⟨ip, name, (s.inode ip).gen + 1⟩ (s.inode dp).dirents)).withNlink
      (if type = T_DIR then (s.inode dp).nlink + 1 else (s.inode dp).nlink))

/-- Another name for `ip` in `dp`. -/
def addName (s : DirState) (dp ip : Nat) (name : Name) : DirState :=
  (s.setNlink ip ((s.inode ip).nlink + 1)).setDirents dp
    (insertEntry ⟨ip, name, (s.inode ip).gen⟩ (s.inode dp).dirents)

/-- Entry `k` of `dp`, which names `ip`, is removed. -/
def removeName (s : DirState) (dp k ip : Nat) : DirState :=
  (s.setInode dp (((s.inode dp).withDirents ((s.inode dp).dirents.set k Dirent.empty)).withNlink
      (if (s.inode ip).type = T_DIR then (s.inode dp).nlink - 1 else (s.inode dp).nlink))).setNlink
    ip ((s.inode ip).nlink - 1)

end DirState

/-- Directory `dp` takes another entry called `name`. -/
structure Takes (s : DirState) (dp : Nat) (name : Name) : Prop where
  type : (s.inode dp).type = T_DIR
  link : 0 < (s.inode dp).nlink
  plain : name ≠ dot ∧ name ≠ dotdot

/-- Entry `k` of `dp` names `ip`. -/
structure Names (s : DirState) (dp k ip : Nat) (e : Dirent) : Prop where
  type : (s.inode dp).type = T_DIR
  entry : (s.inode dp).dirents[k]? = some e
  inum : e.inum = ip
  live : ip ≠ 0
  plain : e.name ≠ dot ∧ e.name ≠ dotdot

/-- The changes of the tree; `A` says which directories may be removed. -/
inductive Change (A : DirState → Nat → Prop) (s : DirState) : DirState → Prop
  | refs {proc : Fin NPROC → Option Proc}
      (hused : ∀ i, DirState.Referenced { s with proc := proc } i → (s.inode i).type ≠ 0) :
      Change A s { s with proc := proc }
  | free {i : Nat} (hused : (s.inode i).type ≠ 0) (hlink : (s.inode i).nlink = 0)
      (href : ¬ s.Referenced i) : Change A s (s.free i)
  | failed {i : Nat} {major : Int16} {gen : Nat} (hi : 0 < i ∧ i < NINODES)
      (hfree : (s.inode i).type = 0) : Change A s (s.setInode i ⟨0, major, 0, [], gen⟩)
  | make {dp ip : Nat} {name : Name} {type major : Int16} (hdp : Takes s dp name)
      (hip : 0 < ip ∧ ip < NINODES) (hfree : (s.inode ip).type = 0) (htype : type ≠ 0) :
      Change A s (s.make dp ip name type major)
  | addName {dp ip : Nat} {name : Name} (hdp : Takes s dp name)
      (hip : (s.inode ip).type ≠ 0 ∧ (s.inode ip).type ≠ T_DIR)
      (hmax : (s.inode ip).nlink ≠ maxLinks) : Change A s (s.addName dp ip name)
  | removeName {dp k ip : Nat} {e : Dirent} (hname : Names s dp k ip e)
      (hdir : (s.inode ip).type = T_DIR → isdirempty (s.inode ip).dirents = true ∧ A s ip) :
      Change A s (s.removeName dp k ip)

section Writes

variable {s : DirState}

theorem setInode_comm {i j : Nat} (x y : Inode) (h : i ≠ j) :
    (s.setInode i x).setInode j y = (s.setInode j y).setInode i x := by
  simp only [DirState.setInode]
  rw [Function.update_comm h]

theorem setInode_twice (i : Nat) (x y : Inode) :
    (s.setInode i x).setInode i y = s.setInode i y := by
  simp [DirState.setInode]

end Writes

section Trees

variable {δ : Nat → Int} {s : DirState} {dp ip k : Nat} {e : Dirent} {name : Name}

/-- An entry after the first two is a name. -/
theorem Names.named_pos (h : Names s dp k ip e) (hshape : Shape dp (s.inode dp)) :
    0 < named (s.inode dp) ip := by
  have hcount := (hshape.clear h.entry h.plain).2.2 ip h.live
  rw [h.inum, if_pos rfl] at hcount
  omega

theorem named_of_empty {x : Inode} (h : isdirempty x.dirents = true) :
    ∀ c, c ≠ 0 → named x c = 0 := by
  intro c hc
  apply List.countP_eq_zero.2
  intro e he
  have hzero := List.all_eq_true.1 h e he
  simp only [beq_iff_eq] at hzero ⊢
  rw [hzero]
  exact Ne.symm hc

/-- A named inode has a link. -/
theorem Tree.nlink_of_named (h : Tree (fun _ => 0) s) (hip : ip ≠ 0)
    (hname : 0 < named (s.inode dp) ip) : 0 < (s.inode ip).nlink.toInt := by
  have hle := h.named_le (d := dp) hip
  have hcount := h.counts ip
  omega

/-- No linked directory has an empty one as its parent. -/
theorem Tree.no_child (h : Tree δ s) (hempty : ∀ c, c ≠ 0 → named (s.inode ip) c = 0) {d : Nat}
    (htype : (s.inode d).type = T_DIR) (hlink : 0 < (s.inode d).nlink) (hroot : d ≠ ROOTINO) :
    parent (s.inode d) ≠ ip := by
  intro hup
  have hname := (h.above d htype hlink hroot).2
  rw [hup, hempty d (h.dir_range htype).1.ne'] at hname
  exact absurd hname (lt_irrefl 0)

/-- What a directory that is not a linked one contributes. -/
theorem Tree.contrib_cases (h : Tree δ s) {d i : Nat} (hi : i ≠ 0) :
    contrib d (s.inode d) i = 0 ∨ ((s.inode d).type = T_DIR ∧ 0 < (s.inode d).nlink ∧
      contrib d (s.inode d) i =
        (if d ≠ ROOTINO ∧ parent (s.inode d) = i then 1 else 0) + named (s.inode d) i) := by
  by_cases htype : (s.inode d).type = T_DIR
  · by_cases hlink : 0 < (s.inode d).nlink
    · exact .inr ⟨htype, hlink, contrib_dir (h.shape d htype) hlink hi⟩
    · exact .inl (contrib_eq_zero (.inr hlink))
  · exact .inl (contrib_eq_zero (.inl (h.plain d htype)))

section

variable (h : Tree (fun _ => 0) s)
include h

section

variable (hname : 0 < named (s.inode dp) ip) (htype : (s.inode ip).type = T_DIR)
  (hempty : ∀ c, c ≠ 0 → named (s.inode ip) c = 0)
include hname htype hempty

/-- An empty directory has one link, its name. -/
theorem Tree.nlink_empty : (s.inode ip).nlink.toInt = 1 := by
  have hip : ip ≠ 0 := (h.dir_range htype).1.ne'
  obtain ⟨hroot, hup, hone⟩ := h.only dp ip hname htype
  obtain ⟨hdt, hdl⟩ := h.of_named hip hname
  have hsum : ∑ d ∈ Finset.range NINODES, contrib d (s.inode d) ip =
      contrib dp (s.inode dp) ip := by
    refine Finset.sum_eq_single dp ?_ ?_
    · intro d _ hne
      rcases h.contrib_cases (d := d) hip with hzero | ⟨ht, hl, heq⟩
      · exact hzero
      have hnone : named (s.inode d) ip = 0 := by
        by_contra hn
        have hup' := (h.only d ip (Nat.pos_of_ne_zero hn) htype).2.1
        exact hne (hup'.symm.trans hup)
      have hno : ¬ (d ≠ ROOTINO ∧ parent (s.inode d) = ip) :=
        fun hp => h.no_child hempty ht hl hp.1 hp.2
      rw [heq, hnone, if_neg hno, Nat.add_zero]
    · intro hout
      exact absurd (Finset.mem_range.2 (h.dir_range hdt).2) hout
  have hself : contrib dp (s.inode dp) ip = 1 := by
    have hno : ¬ (dp ≠ ROOTINO ∧ parent (s.inode dp) = ip) :=
      fun hp => h.no_child hempty hdt hdl hp.1 hp.2
    rw [contrib_dir (h.shape dp hdt) hdl hip, hone, if_neg hno]
  have hcount := h.counts ip
  unfold links at hcount
  rw [hsum, hself, if_neg hroot] at hcount
  simpa using hcount

/-- A directory with a subdirectory has two links. -/
theorem Tree.nlink_parent : 2 ≤ (s.inode dp).nlink.toInt := by
  have hip := h.dir_range htype
  obtain ⟨hroot, hup, _⟩ := h.only dp ip hname htype
  obtain ⟨hdt, hdl⟩ := h.of_named hip.1.ne' hname
  have hdp := h.dir_range hdt
  have hlink : 0 < (s.inode ip).nlink := by
    rw [pos_iff_toInt, h.nlink_empty hname htype hempty]
    decide
  have hchild : 1 ≤ contrib ip (s.inode ip) dp := by
    rw [contrib_dir (h.shape ip htype) hlink hdp.1.ne', if_pos ⟨hroot, hup⟩]
    omega
  have hcount := h.counts dp
  unfold links at hcount
  by_cases hr : dp = ROOTINO
  · have hle := Finset.single_le_sum (f := fun d => contrib d (s.inode d) dp)
      (fun d _ => Nat.zero_le _) (Finset.mem_range.2 hip.2)
    rw [if_pos hr] at hcount
    rw [Int.natCast_add] at hcount
    omega
  -- its own name counts too, and is not in the empty directory
  obtain ⟨hul, hun⟩ := h.above dp hdt hdl hr
  have hut := (h.of_named hdp.1.ne' hun).1
  have hne : parent (s.inode dp) ≠ ip := h.no_child hempty hdt hdl hr
  have hown : 1 ≤ contrib (parent (s.inode dp)) (s.inode (parent (s.inode dp))) dp := by
    rw [contrib_dir (h.shape _ hut) hul hdp.1.ne']
    omega
  have hsub : ({parent (s.inode dp), ip} : Finset Nat) ⊆ Finset.range NINODES := by
    intro d hd
    rcases Finset.mem_insert.1 hd with rfl | hd
    · exact Finset.mem_range.2 (h.dir_range hut).2
    · rw [Finset.mem_singleton.1 hd]
      exact Finset.mem_range.2 hip.2
  have hle := Finset.sum_le_sum_of_subset (f := fun d => contrib d (s.inode d) dp) hsub
  rw [Finset.sum_pair hne] at hle
  rw [Int.natCast_add] at hcount
  omega

end

/-- A directory has few links, since there are few inodes. -/
theorem Tree.dir_links (htype : (s.inode dp).type = T_DIR) : (s.inode dp).nlink.toInt < 32767 := by
  have hdp := (h.dir_range htype).1.ne'
  have hle : ∀ d ∈ Finset.range NINODES, contrib d (s.inode d) dp ≤ 2 := by
    intro d _
    rcases h.contrib_cases (d := d) hdp with hzero | ⟨_, _, heq⟩
    · omega
    have hname : named (s.inode d) dp ≤ 1 := by
      by_cases hpos : 0 < named (s.inode d) dp
      · exact (h.only d dp hpos htype).2.2.le
      · omega
    rw [heq]
    split <;> omega
  have hsum := Finset.sum_le_card_nsmul _ _ 2 hle
  have hcount := h.counts dp
  unfold links at hcount
  simp only [Finset.card_range, NINODES, smul_eq_mul] at hsum
  simp only [NINODES] at hcount
  rw [Int.natCast_add] at hcount
  split at hcount <;> omega

/-- A free inode has no name. -/
theorem Tree.unnamed (hip : ip ≠ 0) (hfree : (s.inode ip).type = 0) (d : Nat) :
    named (s.inode d) ip = 0 := by
  have hle := h.named_le (d := d) hip
  have hcount := h.counts ip
  rw [h.free ip hfree] at hcount
  have hzero : (0 : Int16).toInt = 0 := rfl
  omega

theorem Tree.make {type major : Int16} (hdp : Takes s dp name) (hip : 0 < ip ∧ ip < NINODES)
    (hfree : (s.inode ip).type = 0) (htype : type ≠ 0) :
    Tree (fun _ => 0) (s.make dp ip name type major) := by
  have hne : ip ≠ dp := by
    rintro rfl
    rw [hdp.type] at hfree
    exact absurd hfree (by decide)
  have hdpr := h.dir_range hdp.type
  generalize hg : (s.inode ip).gen + 1 = g
  generalize hx : newInode dp ip type major g (s.inode dp).gen = x
  have hxt : x.type = type := by
    rw [← hx]
    rfl
  have hxl : x.nlink = 1 := by
    rw [← hx]
    rfl
  -- the name first: a free inode owes a link for it
  have h₁ := h.insert (fun i => if ip = i then 1 else 0) (e := ⟨ip, name, g⟩) hdp.type
    hdp.link hip.1.ne' hdp.plain (by rw [hfree]; decide) (by simp)
  generalize hs₁ : s.setDirents dp (insertEntry ⟨ip, name, g⟩ (s.inode dp).dirents) = s₁ at h₁
  have hdp₁ : s₁.inode dp =
      (s.inode dp).withDirents (insertEntry ⟨ip, name, g⟩ (s.inode dp).dirents) := by
    rw [← hs₁]
    exact inode_setInode_self ..
  have hother₁ : ∀ d, d ≠ dp → s₁.inode d = s.inode d := by
    intro d hd
    rw [← hs₁]
    exact inode_setInode_ne s _ hd
  have hname₁ : ∀ d, named (s₁.inode d) ip = if d = dp then 1 else 0 := by
    intro d
    by_cases hd : d = dp
    · have hcount := ((h.shape dp hdp.type).insert (e := ⟨ip, name, g⟩) hip.1.ne' hdp.plain).2.2 ip
        hip.1.ne'
      rw [hd, hdp₁, hcount, h.unnamed hip.1.ne' hfree, if_pos rfl, if_pos rfl]
    · rw [hother₁ d hd, h.unnamed hip.1.ne' hfree, if_neg hd]
  have hxup : type = T_DIR → x.dirents = [⟨ip, dot, g⟩, ⟨dp, dotdot, (s.inode dp).gen⟩] := by
    intro ht
    rw [← hx, newInode, if_pos ht]
  -- then the inode, which counts for its parent if it is a directory
  have h₂ := h₁.node (fun i => if type = T_DIR ∧ dp = i then 1 else 0) (x := x) hip
    (by rw [hother₁ ip hne]; exact hfree) (by rw [hxt]; exact htype) hxl ?_ ?_ ?_
  · by_cases ht : type = T_DIR
    · have hlinks := h.dir_links hdp.type
      have hdp₂ : (s₁.setInode ip x).inode dp = s₁.inode dp := inode_setInode_ne s₁ x hne.symm
      have hsucc := toInt_succ hlinks
      have hnn := h.nonneg dp
      have h₃ := h₂.setLinks (j := dp) (n := (s.inode dp).nlink + 1) (fun _ => 0)
        (by rw [hdp₂, hdp₁, Inode.withDirents_type, hdp.type]; decide) (by omega) ?_ ?_
      · have hfinal : (s₁.setInode ip x).setNlink dp ((s.inode dp).nlink + 1) =
            s.make dp ip name type major := by
          unfold DirState.setNlink DirState.make
          rw [hdp₂, hdp₁, ← hs₁, DirState.setDirents, hg, hx, if_pos ht,
            setInode_comm _ _ hne.symm, setInode_twice]
        rw [hfinal] at h₃
        exact h₃
      · intro _
        rw [hdp₂, hdp₁]
        refine ⟨hdp.link, ?_⟩
        rw [pos_iff_toInt]
        omega
      · intro i
        rw [hdp₂, hdp₁, Inode.withDirents_nlink, hsucc]
        by_cases hi : i = dp
        · simp [ht, hi]
        · simp [hi, Ne.symm hi]
    · have hfinal : s₁.setInode ip x = s.make dp ip name type major := by
        unfold DirState.make
        rw [← hs₁, DirState.setDirents, hg, hx, if_neg ht, setInode_comm _ _ hne.symm]
        rfl
      rw [hfinal] at h₂
      simpa [ht] using h₂
  · intro hn
    rw [hxt] at hn
    rw [← hx, newInode, if_neg hn]
  · intro ht
    have hds := hxup (hxt ▸ ht)
    have hup : parent x = dp := by simp [parent, hds]
    refine ⟨⟨⟨_, _, _, _, hds⟩, hip.1.ne', ?_, ?_⟩, ?_, ?_, ?_, ?_⟩
    · rw [hup]
      exact hdpr.1.ne'
    · simp [hds]
    · simp [named, hds]
    · rw [hup, hdp₁, Inode.withDirents_type]
      exact hdp.type
    · rw [hup, hname₁, if_pos rfl]
    · intro d hd
      rw [hup] at hd
      rw [hname₁, if_neg hd]
  · intro i
    by_cases ht : type = T_DIR
    · have hup : parent x = dp := by simp [parent, hxup ht]
      rw [hup, hxt]
      by_cases hi : ip = i
      · simp [hi]
      · simp [hi, Ne.symm hi]
    rw [hxt]
    by_cases hi : ip = i
    · simp [ht, hi]
    · simp [ht, hi, Ne.symm hi]

theorem Tree.addName (hdp : Takes s dp name)
    (hip : (s.inode ip).type ≠ 0 ∧ (s.inode ip).type ≠ T_DIR)
    (hmax : (s.inode ip).nlink ≠ maxLinks) : Tree (fun _ => 0) (s.addName dp ip name) := by
  have hne : ip ≠ dp := by
    rintro rfl
    exact hip.2 hdp.type
  have hlinks : (s.inode ip).nlink.toInt < 32767 := by
    have hlt := Int16.toInt_lt (s.inode ip).nlink
    have hne' : (s.inode ip).nlink.toInt ≠ 32767 := by
      intro heq
      apply hmax
      rw [← Int16.toInt_inj, heq]
      rfl
    omega
  have hsucc := toInt_succ hlinks
  have hnn := h.nonneg ip
  have h₁ := h.insert (fun i => if ip = i then 1 else 0)
    (e := ⟨ip, name, (s.inode ip).gen⟩) hdp.type hdp.link (h.range ip hip.1).1.ne' hdp.plain hip.2
    (by simp)
  generalize hs₁ : s.setDirents dp
    (insertEntry ⟨ip, name, (s.inode ip).gen⟩ (s.inode dp).dirents) = s₁ at h₁
  have hip₁ : s₁.inode ip = s.inode ip := by
    rw [← hs₁]
    exact inode_setInode_ne s _ hne
  have h₂ := h₁.setLinks (j := ip) (n := (s.inode ip).nlink + 1) (fun _ => 0)
    (by rw [hip₁]; exact hip.1) (by omega) ?_ ?_
  · have hfinal : s₁.setNlink ip ((s.inode ip).nlink + 1) = s.addName dp ip name := by
      unfold DirState.setNlink DirState.addName
      rw [hip₁, ← hs₁, DirState.setDirents, DirState.setDirents, setInode_comm _ _ hne.symm]
      unfold DirState.setNlink
      rw [inode_setInode_ne s _ hne.symm]
    rw [hfinal] at h₂
    exact h₂
  · intro ht
    rw [hip₁] at ht
    exact absurd ht hip.2
  · intro i
    rw [hip₁, hsucc]
    by_cases hi : ip = i
    · simp [hi]
    · simp [hi, Ne.symm hi]

theorem Tree.removeName (hname : Names s dp k ip e)
    (hdir : (s.inode ip).type = T_DIR → isdirempty (s.inode ip).dirents = true) :
    Tree (fun _ => 0) (s.removeName dp k ip) := by
  have hpos := hname.named_pos (h.shape dp hname.type)
  have hlink := (h.of_named hname.live hpos).2
  have hiplink := h.nlink_of_named hname.live hpos
  have hpred := toInt_pred hiplink
  have hipused : (s.inode ip).type ≠ 0 := by
    intro hfree
    rw [h.free ip hfree] at hiplink
    exact absurd hiplink (by decide)
  have hne : ip ≠ dp := by
    rintro rfl
    rw [h.loop ip hname.live] at hpos
    exact absurd hpos (lt_irrefl 0)
  have hlive : e.inum ≠ 0 := by
    rw [hname.inum]
    exact hname.live
  by_cases ht : (s.inode ip).type = T_DIR
  · have hempty := named_of_empty (hdir ht)
    obtain ⟨hroot, hup, _⟩ := h.only dp ip hpos ht
    have hone := h.nlink_empty hpos ht hempty
    have htwo := h.nlink_parent hpos ht hempty
    have hpred' := toInt_pred (n := (s.inode dp).nlink) (by omega)
    have hzero : (s.inode ip).nlink - 1 = 0 := by
      rw [eq_zero_iff_toInt, hpred, hone]
      rfl
    -- the directory goes first: a name may stay behind, a linked directory without one may not
    have h₁ := h.unlinkEmpty (j := ip) (fun i => (if i = ip then 1 else 0) -
      if dp = i then 1 else 0) ht (pos_iff_toInt.2 hiplink) hroot hempty
      (by intro i; rw [hone, hup]; simp)
    generalize hs₁ : s.setNlink ip 0 = s₁ at h₁
    have hip₁ : s₁.inode ip = (s.inode ip).withNlink 0 := by
      rw [← hs₁]
      exact inode_setInode_self ..
    have hdp₁ : s₁.inode dp = s.inode dp := by
      rw [← hs₁]
      exact inode_setInode_ne s _ hne.symm
    have h₂ := h₁.clear (j := dp) (k := k) (e := e) (fun i => - if dp = i then 1 else 0)
      (by rw [hdp₁]; exact hname.type) (by rw [hdp₁]; exact hlink)
      (by rw [hdp₁]; exact hname.entry) hlive hname.plain
      (by rw [hname.inum, hip₁]; exact fun _ => not_pos_zero) ?_
    · generalize hs₂ : s₁.setDirents dp ((s₁.inode dp).dirents.set k Dirent.empty) = s₂ at h₂
      have hdp₂ : s₂.inode dp =
          (s.inode dp).withDirents ((s.inode dp).dirents.set k Dirent.empty) := by
        rw [← hs₂, DirState.setDirents, inode_setInode_self, hdp₁]
      have h₃ := h₂.setLinks (j := dp) (n := (s.inode dp).nlink - 1) (fun _ => 0)
        (by rw [hdp₂, Inode.withDirents_type, hname.type]; decide) (by omega) ?_ ?_
      · have hfinal : s₂.setNlink dp ((s.inode dp).nlink - 1) = s.removeName dp k ip := by
          unfold DirState.setNlink DirState.removeName
          rw [hdp₂, if_pos ht, hzero, ← hs₂, DirState.setDirents, setInode_twice, ← hs₁,
            DirState.setNlink, setInode_comm _ _ hne, DirState.setNlink, inode_setInode_ne s _ hne]
        rw [hfinal] at h₃
        exact h₃
      · intro _
        rw [hdp₂]
        refine ⟨hlink, ?_⟩
        rw [pos_iff_toInt]
        omega
      · intro i
        rw [hdp₂, Inode.withDirents_nlink, hpred']
        by_cases hi : i = dp
        · simp [hi]
        · simp [hi, Ne.symm hi]
    · intro i
      rw [hname.inum]
      by_cases hi : ip = i
      · simp [hi]
      · simp [hi, Ne.symm hi]
  · have h₁ := h.clear (j := dp) (k := k) (e := e) (fun i => - if ip = i then 1 else 0)
      hname.type hlink hname.entry hlive hname.plain
      (by rw [hname.inum]; exact fun ht' => absurd ht' ht) (by simp [hname.inum])
    generalize hs₁ : s.setDirents dp ((s.inode dp).dirents.set k Dirent.empty) = s₁ at h₁
    have hip₁ : s₁.inode ip = s.inode ip := by
      rw [← hs₁]
      exact inode_setInode_ne s _ hne
    have h₂ := h₁.setLinks (j := ip) (n := (s.inode ip).nlink - 1) (fun _ => 0)
      (by rw [hip₁]; exact hipused) (by omega) ?_ ?_
    · have hfinal : s₁.setNlink ip ((s.inode ip).nlink - 1) = s.removeName dp k ip := by
        unfold DirState.removeName
        rw [if_neg ht, ← hs₁]
        rfl
      rw [hfinal] at h₂
      exact h₂
    · intro ht'
      rw [hip₁] at ht'
      exact absurd ht' ht
    · intro i
      rw [hip₁, hpred]
      by_cases hi : ip = i
      · simp [hi]
      · simp [hi, Ne.symm hi]

/-- **Every change keeps the tree.** -/
theorem Tree.change {A : DirState → Nat → Prop} {s' : DirState} (hchange : Change A s s') :
    Tree (fun _ => 0) s' := by
  cases hchange with
  | refs hused => exact h.refs hused
  | free hused hlink href =>
    exact h.drop (h.range _ hused) hlink href rfl hlink rfl
  | failed hi hfree =>
    exact h.drop hi (h.free _ hfree) (fun href => h.used _ href hfree) rfl rfl rfl
  | make hdp hip hfree htype => exact h.make hdp hip hfree htype
  | addName hdp hip hmax => exact h.addName hdp hip hmax
  | removeName hname hdir => exact h.removeName hname fun ht => (hdir ht).1

/-- So does a sequence of them. -/
theorem Tree.changes {A : DirState → Nat → Prop} {s' : DirState}
    (hchanges : Relation.ReflTransGen (Change A) s s') : Tree (fun _ => 0) s' := by
  induction hchanges with
  | refl => exact h
  | tail _ hchange ih => exact ih.change hchange

end

end Trees

end Kus.Dir
