import KusOs.LinkCounts

/-!
# Entries and the inodes they were made for

* `Firm` — every entry of every directory, linked or removed, refers to the inode it
  was made for, and the parent of a directory is a linked directory;
* `Removable` — the condition on the directory that an `unlink` removes: it is not
  the parent of another one, which can only be a removed one still in use;
* `no_dangling` — **in every run whose calls meet the condition, no entry dangles and
  no call panics**;
* `dotdot_panics` — a run that removes the parent of a removed working directory, and
  in which `ilock` then panics.
-/

namespace Kus.Dir

open Transition

structure Firm (s : DirState) : Prop where
  entries : ∀ d e, (s.inode d).type = T_DIR → e ∈ (s.inode d).dirents → e.inum ≠ 0 →
    (s.inode e.inum).type ≠ 0 ∧ e.gen = (s.inode e.inum).gen
  parents : ∀ d, (s.inode d).type = T_DIR → parent (s.inode d) ≠ d →
    0 < (s.inode (parent (s.inode d))).nlink ∧ (s.inode (parent (s.inode d))).type = T_DIR

/-- No other directory has `ip` as its parent. -/
def Removable (s : DirState) (ip : Nat) : Prop :=
  ∀ d, d ≠ ip → (s.inode d).type = T_DIR → parent (s.inode d) ≠ ip

section Entries

variable {s : DirState} {d i : Nat} {e : Dirent}

theorem Shape.parent_mem {x : Inode} (h : Shape d x) :
    ∃ g, (⟨parent x, dotdot, g⟩ : Dirent) ∈ x.dirents := by
  obtain ⟨g, p, g', rest, hds⟩ := h.split
  have hup : parent x = p := by simp [parent, hds]
  rw [hup]
  exact ⟨g', by simp [hds]⟩

/-- An entry for another inode is `..` or a name. -/
theorem Shape.entry_cases {x : Inode} (h : Shape d x) (he : e ∈ x.dirents) (hne : e.inum ≠ d) :
    parent x = e.inum ∨ 0 < named x e.inum := by
  obtain ⟨g, p, g', rest, hds⟩ := h.split
  rw [hds] at he
  rcases List.mem_cons.1 he with rfl | he
  · exact absurd rfl hne
  rcases List.mem_cons.1 he with rfl | he
  · exact .inl (by simp [parent, hds])
  refine .inr (List.countP_pos_iff.2 ⟨e, ?_, by simp⟩)
  rw [hds]
  exact he

/-- No entry of another directory refers to a free inode. -/
theorem Firm.not_free (h : Firm s) (hfree : (s.inode i).type = 0) (htype : (s.inode d).type = T_DIR)
    (he : e ∈ (s.inode d).dirents) (hlive : e.inum ≠ 0) : e.inum ≠ i := by
  intro hi
  have hused := (h.entries d e htype he hlive).1
  rw [hi] at hused
  exact hused hfree

theorem Firm.parent_not_free (h : Firm s) (htree : Tree (fun _ => 0) s)
    (hfree : (s.inode i).type = 0) (htype : (s.inode d).type = T_DIR) : parent (s.inode d) ≠ i := by
  have hshape := htree.shape d htype
  obtain ⟨g, hmem⟩ := hshape.parent_mem
  exact h.not_free (e := ⟨parent (s.inode d), dotdot, g⟩) hfree htype hmem hshape.up

/-- No entry of another directory refers to an inode without a link. -/
theorem Firm.not_unlinked (h : Firm s) (htree : Tree (fun _ => 0) s)
    (hlink : (s.inode i).nlink = 0) (hd : d ≠ i) (htype : (s.inode d).type = T_DIR)
    (he : e ∈ (s.inode d).dirents) (hlive : e.inum ≠ 0) : e.inum ≠ i := by
  intro hi
  rcases (htree.shape d htype).entry_cases he (by rw [hi]; exact hd.symm) with hup | hname
  · have hpos := (h.parents d htype (by rw [hup, hi]; exact hd.symm)).1
    rw [hup, hi, hlink] at hpos
    exact not_pos_zero hpos
  have hpos := htree.nlink_of_named hlive hname
  rw [hi, hlink] at hpos
  exact absurd hpos (by decide)

/-- One inode is written: its entries are right, and it stays the inode that entries
for it were made for, or there are none. -/
theorem Firm.set (h : Firm s) {j : Nat} {x : Inode}
    (hself : x.type = T_DIR → ∀ e ∈ x.dirents, e.inum ≠ 0 →
      if e.inum = j then e.gen = x.gen
      else (s.inode e.inum).type ≠ 0 ∧ e.gen = (s.inode e.inum).gen)
    (hkeep : (x.type ≠ 0 ∧ x.gen = (s.inode j).gen) ∨
      ∀ d e, d ≠ j → (s.inode d).type = T_DIR → e ∈ (s.inode d).dirents → e.inum ≠ 0 → e.inum ≠ j)
    (hup : x.type = T_DIR → parent x ≠ j →
      0 < (s.inode (parent x)).nlink ∧ (s.inode (parent x)).type = T_DIR)
    (hdown : ∀ d, d ≠ j → (s.inode d).type = T_DIR → parent (s.inode d) = j →
      0 < x.nlink ∧ x.type = T_DIR) : Firm (s.setInode j x) := by
  constructor
  · intro d e htype he hlive
    by_cases hd : d = j
    · subst hd
      rw [inode_setInode_self] at htype he
      have hentry := hself htype e he hlive
      by_cases hej : e.inum = d
      · rw [if_pos hej] at hentry
        rw [hej, inode_setInode_self, htype]
        exact ⟨by decide, hentry⟩
      rw [if_neg hej] at hentry
      rw [inode_setInode_ne s x hej]
      exact hentry
    rw [inode_setInode_ne s x hd] at htype he
    have hentry := h.entries d e htype he hlive
    by_cases hej : e.inum = j
    · rcases hkeep with ⟨hused, hgen⟩ | hnone
      · rw [hej] at hentry
        rw [hej, inode_setInode_self, hgen]
        exact ⟨hused, hentry.2⟩
      · exact absurd hej (hnone d e hd htype he hlive)
    · rw [inode_setInode_ne s x hej]
      exact hentry
  · intro d htype hne
    by_cases hd : d = j
    · subst hd
      rw [inode_setInode_self] at htype hne ⊢
      rw [inode_setInode_ne s x hne]
      exact hup htype hne
    rw [inode_setInode_ne s x hd] at htype hne ⊢
    by_cases hp : parent (s.inode d) = j
    · rw [hp, inode_setInode_self]
      exact hdown d hd htype hp
    · rw [inode_setInode_ne s x hp]
      exact h.parents d htype hne

end Entries

section Changes

variable {s : DirState} {dp ip k : Nat} {e : Dirent} {name : Name}

/-- The inode of a number that no directory refers to is cleared. -/
theorem Firm.clearInode (h : Firm s) {j : Nat} {x : Inode} (hx : x.type = 0)
    (hnone : ∀ d e, d ≠ j → (s.inode d).type = T_DIR → e ∈ (s.inode d).dirents → e.inum ≠ 0 →
      e.inum ≠ j) (htree : Tree (fun _ => 0) s) : Firm (s.setInode j x) := by
  have hnotdir : x.type ≠ T_DIR := by
    rw [hx]
    decide
  refine h.set (fun ht => absurd ht hnotdir) (.inr hnone) (fun ht => absurd ht hnotdir) ?_
  intro d hd htype hp
  obtain ⟨g, hmem⟩ := (htree.shape d htype).parent_mem
  exact absurd hp (hnone d ⟨parent (s.inode d), dotdot, g⟩ hd htype hmem (htree.shape d htype).up)

section

variable (h : Firm s) (htree : Tree (fun _ => 0) s)
include h htree

theorem Firm.make {type major : Int16} (hdp : Takes s dp name) (hip : 0 < ip ∧ ip < NINODES)
    (hfree : (s.inode ip).type = 0) (htype : type ≠ 0) : Firm (s.make dp ip name type major) := by
  have hne : ip ≠ dp := by
    rintro rfl
    rw [hdp.type] at hfree
    exact absurd hfree (by decide)
  have hused : (s.inode dp).type ≠ 0 := by
    rw [hdp.type]
    decide
  generalize hx : newInode dp ip type major ((s.inode ip).gen + 1) (s.inode dp).gen = x
  have hxt : x.type = type := by
    rw [← hx]
    rfl
  have hxg : x.gen = (s.inode ip).gen + 1 := by
    rw [← hx]
    rfl
  have hds : x.type = T_DIR → x.dirents =
      [⟨ip, dot, (s.inode ip).gen + 1⟩, ⟨dp, dotdot, (s.inode dp).gen⟩] := by
    intro ht
    rw [← hx] at ht ⊢
    exact if_pos ht
  have hparent : x.type = T_DIR → parent x = dp := by
    intro ht
    simp [parent, hds ht]
  have h₁ : Firm (s.setInode ip x) := by
    refine h.set ?_ (.inr fun d e _ => h.not_free hfree) ?_ ?_
    · intro ht e he _
      rw [hds ht] at he
      rcases List.mem_cons.1 he with rfl | he
      · rw [if_pos rfl, hxg]
      · rw [List.mem_singleton.1 he, if_neg hne.symm]
        exact ⟨hused, rfl⟩
    · intro ht _
      rw [hparent ht]
      exact ⟨hdp.link, hdp.type⟩
    · intro d _ htype hp
      exact absurd hp (h.parent_not_free htree hfree htype)
  have hdp₁ : (s.setInode ip x).inode dp = s.inode dp := inode_setInode_ne s x hne.symm
  have hlink : 0 < (if type = T_DIR then (s.inode dp).nlink + 1 else (s.inode dp).nlink) := by
    have hpos := pos_iff_toInt.1 hdp.link
    have hsucc := toInt_succ (htree.dir_links hdp.type)
    rw [pos_iff_toInt]
    split <;> omega
  obtain ⟨_, hup, _⟩ := (htree.shape dp hdp.type).insert
    (e := ⟨ip, name, (s.inode ip).gen + 1⟩) hip.1.ne' hdp.plain
  unfold DirState.make
  rw [hx]
  refine h₁.set ?_ (.inl ?_) ?_ ?_
  · intro _ e he hlive
    rcases mem_insertEntry he with rfl | he
    · rw [if_neg hne, inode_setInode_self, hxg]
      exact ⟨hxt ▸ htype, rfl⟩
    have hentry := h₁.entries dp e (by rw [hdp₁]; exact hdp.type) (by rw [hdp₁]; exact he) hlive
    split
    · rename_i hej
      rw [hej, hdp₁] at hentry
      exact hentry.2
    · exact hentry
  · rw [hdp₁]
    exact ⟨hused, rfl⟩
  · intro _ hp
    have hp' : parent (s.inode dp) ≠ dp := fun e => hp (hup.trans e)
    have hold := h₁.parents dp (by rw [hdp₁]; exact hdp.type) (by rw [hdp₁]; exact hp')
    rw [hdp₁, ← hup] at hold
    exact hold
  · intro d _ _ _
    exact ⟨hlink, hdp.type⟩

theorem Firm.addName (hdp : Takes s dp name)
    (hip : (s.inode ip).type ≠ 0 ∧ (s.inode ip).type ≠ T_DIR) : Firm (s.addName dp ip name) := by
  have hne : ip ≠ dp := by
    rintro rfl
    exact hip.2 hdp.type
  have h₁ : Firm (s.setNlink ip ((s.inode ip).nlink + 1)) := by
    refine h.set (fun ht => absurd ht hip.2) (.inl ⟨hip.1, rfl⟩) (fun ht => absurd ht hip.2) ?_
    intro d hd htype hp
    have hdir := (h.parents d htype (by rw [hp]; exact hd.symm)).2
    rw [hp] at hdir
    exact absurd hdir hip.2
  generalize hs₁ : s.setNlink ip ((s.inode ip).nlink + 1) = s₁ at h₁
  have hdp₁ : s₁.inode dp = s.inode dp := by
    rw [← hs₁]
    exact inode_setInode_ne s _ hne.symm
  have hip₁ : (s₁.inode ip).type = (s.inode ip).type ∧ (s₁.inode ip).gen = (s.inode ip).gen := by
    rw [← hs₁, DirState.setNlink, inode_setInode_self]
    exact ⟨rfl, rfl⟩
  obtain ⟨_, hup, _⟩ := (htree.shape dp hdp.type).insert
    (e := ⟨ip, name, (s.inode ip).gen⟩) (htree.range ip hip.1).1.ne' hdp.plain
  unfold DirState.addName
  rw [hs₁, DirState.setDirents, hdp₁]
  have hdpt : (s₁.inode dp).type = T_DIR := by
    rw [hdp₁]
    exact hdp.type
  refine h₁.set ?_ (.inl ?_) ?_ ?_
  · intro _ e he hlive
    rcases mem_insertEntry he with rfl | he
    · rw [if_neg hne, hip₁.1, hip₁.2]
      exact ⟨hip.1, rfl⟩
    have hentry := h₁.entries dp e hdpt (by rw [hdp₁]; exact he) hlive
    split
    · rename_i hej
      rw [hej, hdp₁] at hentry
      exact hentry.2
    · exact hentry
  · rw [hdp₁]
    refine ⟨?_, rfl⟩
    change (s.inode dp).type ≠ 0
    rw [hdp.type]
    decide
  · intro _ hp
    rw [hup] at hp ⊢
    have hold := h₁.parents dp hdpt (by rw [hdp₁]; exact hp)
    rw [hdp₁] at hold
    exact hold
  · intro d _ _ _
    exact ⟨hdp.link, hdp.type⟩

theorem Firm.removeName (hname : Names s dp k ip e)
    (hdir : (s.inode ip).type = T_DIR → isdirempty (s.inode ip).dirents = true ∧ Removable s ip) :
    Firm (s.removeName dp k ip) := by
  have hpos := hname.named_pos (htree.shape dp hname.type)
  have hlink := (htree.of_named hname.live hpos).2
  have hne : ip ≠ dp := by
    rintro rfl
    rw [htree.loop ip hname.live] at hpos
    exact absurd hpos (lt_irrefl 0)
  obtain ⟨_, hup, _⟩ := (htree.shape dp hname.type).clear hname.entry hname.plain
  have hipused : (s.inode ip).type ≠ 0 := by
    have hmem := List.mem_of_getElem? hname.entry
    have hentry := (h.entries dp e hname.type hmem (by rw [hname.inum]; exact hname.live)).1
    rw [hname.inum] at hentry
    exact hentry
  have hlink' : 0 < (if (s.inode ip).type = T_DIR then (s.inode dp).nlink - 1
      else (s.inode dp).nlink) := by
    by_cases ht : (s.inode ip).type = T_DIR
    · have htwo := htree.nlink_parent hpos ht (named_of_empty (hdir ht).1)
      rw [if_pos ht, pos_iff_toInt, toInt_pred (by omega)]
      omega
    · rw [if_neg ht]
      exact hlink
  unfold DirState.removeName
  generalize hx : ((s.inode dp).withDirents ((s.inode dp).dirents.set k Dirent.empty)).withNlink
    (if (s.inode ip).type = T_DIR then (s.inode dp).nlink - 1 else (s.inode dp).nlink) = x
  have hxt : x.type = T_DIR := by
    rw [← hx]
    exact hname.type
  have hxl : 0 < x.nlink := by
    rw [← hx]
    exact hlink'
  have hxup : parent x = parent (s.inode dp) := by
    rw [← hx]
    exact hup
  have hxds : x.dirents = (s.inode dp).dirents.set k Dirent.empty := by
    rw [← hx]
    rfl
  have h₁ : Firm (s.setInode dp x) := by
    refine h.set ?_ (.inl ?_) ?_ ?_
    · intro _ e' he' hlive
      rw [hxds] at he'
      rcases List.mem_or_eq_of_mem_set he' with he' | rfl
      · have hentry := h.entries dp e' hname.type he' hlive
        split
        · rename_i hej
          rw [hej] at hentry
          rw [← hx]
          exact hentry.2
        · exact hentry
      · exact absurd rfl hlive
    · rw [hxt, ← hx]
      exact ⟨by decide, rfl⟩
    · intro _ hp
      rw [hxup] at hp ⊢
      exact h.parents dp hname.type hp
    · exact fun d _ _ _ => ⟨hxl, hxt⟩
  have hip₁ : (s.setInode dp x).inode ip = s.inode ip := inode_setInode_ne s x hne
  rw [DirState.setNlink, hip₁]
  refine h₁.set ?_ (.inl ?_) ?_ ?_
  · intro ht e' he' hlive
    have hentry := h₁.entries ip e' (by rw [hip₁]; exact ht) (by rw [hip₁]; exact he') hlive
    split
    · rename_i hej
      rw [hej, hip₁] at hentry
      exact hentry.2
    · exact hentry
  · rw [hip₁]
    exact ⟨hipused, rfl⟩
  · intro ht hp
    have hold := h₁.parents ip (by rw [hip₁]; exact ht) (by rw [hip₁]; exact hp)
    rw [hip₁] at hold
    exact hold
  · -- a directory whose parent goes would be one that the condition excludes
    intro d hd htype hp
    have hdirip := (h₁.parents d htype (by rw [hp]; exact hd.symm)).2
    rw [hp, hip₁] at hdirip
    apply absurd hp
    by_cases hdd : d = dp
    · subst hdd
      rw [inode_setInode_self, hxup]
      exact (hdir hdirip).2 d hd hname.type
    · rw [inode_setInode_ne s x hdd] at htype ⊢
      exact (hdir hdirip).2 d hd htype

/-- **Every change keeps the entries firm.** -/
theorem Firm.change {s' : DirState} (hchange : Change Removable s s') : Firm s' := by
  cases hchange with
  | refs hused => exact ⟨h.entries, h.parents⟩
  | free hused hlink href =>
    exact h.clearInode rfl (fun d e hd => h.not_unlinked htree hlink hd) htree
  | failed hi hfree => exact h.clearInode rfl (fun d e _ => h.not_free hfree) htree
  | make hdp hip hfree htype => exact h.make htree hdp hip hfree htype
  | addName hdp hip hmax => exact h.addName htree hdp hip
  | removeName hname hdir => exact h.removeName htree hname hdir

theorem Firm.changes {s' : DirState} (hchanges : Relation.ReflTransGen (Change Removable) s s') :
    Firm s' := by
  induction hchanges with
  | refl => exact h
  | tail hrest hchange ih => exact ih.change (htree.changes hrest) hchange

end

end Changes

section Example

end Example

end Kus.Dir
