import KusOs.BlockOwnership

/-!
# Freeing files, and sequences of calls

* `itrunc_spec` — **`itrunc` gives back exactly the blocks of the file**; while it
  goes through an indirect block, the entries it has freed no longer count;
* `iput_spec`, `ialloc_spec`, `create_spec`, `unlink_spec` — the other calls;
* `block_ownership` — **every sequence of calls keeps the invariant**, and the
  panic of `bfree` is unreachable.
-/

namespace Kus.Fs

open Function Hoare Ownership

attribute [local simp] Store.ptr ptrOf FsState.setIp FsState.setAddr Dinode.zero T_DIR Other

section Freeing

variable {sb : Superblock} {L : List Nat} {i : Nat} {s : FsState} {E : FsPanic → Prop}

/-- `bfree` of a marked block. -/
theorem bfree_spec {b : Nat} (hbit : s.bitmap b = true) :
    Triple (fun t => t = s) (bfree b)
      (fun _ t => t = { s with bitmap := update s.bitmap b false }) E := by
  unfold bfree
  refine .get_bind ?_
  rintro t rfl
  rw [if_neg (by simp [hbit])]
  rintro t rfl
  rfl

/-- An address of inode `i` is cleared, and the bitmap is right for what is left. -/
theorem Mid.clearAddr (h : Mid sb L i s) {bits : Nat → Bool} {k : Fin (NDIRECT + 1)}
    (howned : Owned bits (s.setAddr i k 0).ptr sb.dataStart sb.size) :
    Mid sb L i (({ s with bitmap := bits } : FsState).setAddr i k 0) := by
  refine ⟨⟨howned, h.handed⟩, ?_, ⟨?_, ?_⟩, ?_⟩
  · intro j hj
    by_cases e : j = i
    · subst e
      simp
    · have hold := h.locked j hj
      simpa [e] using hold
  · simp
  · unfold FsState.setAddr
    rw [ip_setIp_self]
    exact h.self.2
  · intro j hj
    refine (h.others j hj).congr ?_ rfl (fun x => ptr_setIp_ne s _ x hj)
    simp [hj]

/-- The block at a direct address of inode `i` is marked, and can be given back. -/
theorem Mid.giveDirect (h : Mid sb L i s) {k : Fin (NDIRECT + 1)} (hk : k ≠ Fin.last NDIRECT)
    (hne : (s.ip i).addrs k ≠ 0) :
    s.bitmap ((s.ip i).addrs k) = true ∧
    Mid sb L i (({ s with bitmap := update s.bitmap ((s.ip i).addrs k) false } :
      FsState).setAddr i k 0) := by
  have hself : s.ptr (i, .inl k) = (s.ip i).addrs k := by
    simp [h.self.2]
  have hne' : s.ptr (i, .inl k) ≠ 0 := by
    rw [hself]
    exact hne
  have hbit := h.owned.bit_ptr hne'
  have hgiven := h.owned.give hne'
  rw [hself] at hbit hgiven
  refine ⟨hbit, h.clearAddr ?_⟩
  rw [ptr_setAddr s h.self.2 (fun e => absurd e hk)]
  exact hgiven

/-- The first loop of `itrunc`. -/
theorem freeDirects_spec :
    Triple (Mid sb L i) ((List.finRange NDIRECT).forM (freeDirect i))
      (fun _ s => Mid sb L i s ∧ ∀ k : Fin NDIRECT, (s.ip i).addrs k.castSucc = 0) E := by
  have hloop := Triple.forM_done (E := E) (f := freeDirect i)
    (I := fun done s => Mid sb L i s ∧ ∀ k ∈ done, (s.ip i).addrs (Fin.castSucc k) = 0)
    (l := List.finRange NDIRECT) ?_
  · refine .conseq hloop (fun s h => ⟨h, by simp⟩) ?_ (fun _ h => h)
    rintro _ s ⟨h, hall⟩
    exact ⟨h, fun k => hall k (List.mem_finRange k)⟩
  · intro done k rest _
    unfold freeDirect
    refine .get_bind ?_
    rintro s ⟨h, hdone⟩
    unfold when
    refine .ite ?_ ?_
    · intro hne
      obtain ⟨hbit, hgiven⟩ := h.giveDirect (Fin.castSucc_ne_last k) hne
      refine .bind (bfree_spec hbit) ?_
      intro _
      refine .modify ?_
      rintro t rfl
      refine ⟨hgiven, ?_⟩
      intro l hl
      unfold FsState.setAddr
      rw [ip_setIp_self]
      change update (s.ip i).addrs k.castSucc 0 l.castSucc = 0
      by_cases e : l = k
      · rw [e, update_self]
      rw [update_of_ne (by simpa using e)]
      rcases List.mem_append.1 hl with hl | hl
      · exact hdone l hl
      · exact absurd (List.mem_singleton.1 hl) e
    · rintro hzero t rfl
      refine ⟨h, ?_⟩
      intro l hl
      rcases List.mem_append.1 hl with hl | hl
      · exact hdone l hl
      · rw [List.mem_singleton.1 hl]
        exact not_not.1 hzero

/-- The places that count while the entries `done` of the indirect block of `i` are
freed. -/
def ptrExcept (s : Store) (i : Nat) (done : List (Fin NINDIRECT)) (p : Nat × Place) : Nat :=
  if ∃ j ∈ done, p = (i, .inr j) then 0 else s.ptr p

/-- One more entry no longer counts. -/
theorem ptrExcept_concat (s : Store) (i : Nat) (done : List (Fin NINDIRECT)) (j : Fin NINDIRECT) :
    ptrExcept s i (done ++ [j]) = update (ptrExcept s i done) (i, .inr j) 0 := by
  funext p
  by_cases e : p = (i, .inr j)
  · subst e
    rw [update_self, ptrExcept, if_pos ⟨j, by simp, rfl⟩]
  rw [update_of_ne e]
  unfold ptrExcept
  refine if_congr ?_ rfl rfl
  constructor
  · rintro ⟨l, hl, hp⟩
    rcases List.mem_append.1 hl with hl | hl
    · exact ⟨l, hl, hp⟩
    · rw [List.mem_singleton.1 hl] at hp
      exact absurd hp e
  · rintro ⟨l, hl, hp⟩
    exact ⟨l, List.mem_append_left _ hl, hp⟩

/-- The loop over the indirect block. -/
theorem freeEntries_spec {a : Nat} (h : Mid sb L i s)
    (ha : (s.ip i).addrs (Fin.last NDIRECT) = a) (hne : a ≠ 0) :
    Triple (fun t => t = s) ((List.finRange NINDIRECT).forM (freeEntry a))
      (fun _ t => ∃ bits, t = { s with bitmap := bits } ∧
        Owned bits (ptrExcept s.toStore i (List.finRange NINDIRECT)) sb.dataStart sb.size)
      E := by
  have hloop := Triple.forM_done (E := E) (f := freeEntry a)
    (I := fun done t => ∃ bits, t = { s with bitmap := bits } ∧
      Owned bits (ptrExcept s.toStore i done) sb.dataStart sb.size)
    (l := List.finRange NINDIRECT) ?_
  · refine .pre hloop ?_
    rintro t rfl
    refine ⟨t.bitmap, rfl, ?_⟩
    have hall : ptrExcept t.toStore i [] = t.ptr := by
      funext p
      simp [ptrExcept]
    rw [hall]
    exact h.owned
  · intro done j rest hl
    unfold freeEntry
    refine .get_bind ?_
    rintro _ ⟨bits, rfl, howned⟩
    have hentry : s.ptr (i, .inr j) = s.words a j := by
      simp [h.self.2, ha, hne]
    have hnot : j ∉ done := by
      have hnodup := List.nodup_finRange NINDIRECT
      rw [hl] at hnodup
      exact fun hj => (List.disjoint_of_nodup_append hnodup) hj List.mem_cons_self
    have hcounts : ptrExcept s.toStore i done (i, .inr j) = s.words a j := by
      rw [← hentry, ptrExcept, if_neg]
      rintro ⟨l, hl, e⟩
      simp only [Prod.mk.injEq, Sum.inr.injEq, true_and] at e
      exact hnot (e ▸ hl)
    unfold when
    refine .ite ?_ ?_
    · intro hw
      have hw' : ptrExcept s.toStore i done (i, .inr j) ≠ 0 := by
        rw [hcounts]
        exact hw
      have hbit := howned.bit_ptr hw'
      have hgiven := howned.give hw'
      rw [hcounts] at hbit hgiven
      refine .conseq (bfree_spec hbit) (fun _ ht => ht) ?_ (fun _ he => he)
      rintro _ t rfl
      refine ⟨_, rfl, ?_⟩
      rw [ptrExcept_concat]
      exact hgiven
    · rintro hzero _ rfl
      refine ⟨bits, rfl, ?_⟩
      have hsame : ptrExcept s.toStore i (done ++ [j]) = ptrExcept s.toStore i done := by
        rw [ptrExcept_concat]
        apply update_eq_self_iff.2
        rw [hcounts]
        exact (not_not.1 hzero).symm
      rw [hsame]
      exact howned

/-- Without its indirect block an inode has no entries. -/
theorem ptr_clearLast (h : (s.ip i).type ≠ 0) :
    (s.setAddr i (Fin.last NDIRECT) 0).ptr = update
      (ptrExcept s.toStore i (List.finRange NINDIRECT)) (i, .inl (Fin.last NDIRECT)) 0 := by
  funext ⟨j, x⟩
  by_cases ej : j = i
  · subst ej
    unfold Store.ptr FsState.setAddr
    rw [ip_setIp_self]
    cases x with
    | inl l =>
      by_cases el : l = Fin.last NDIRECT
      · subst el
        simp
      · rw [update_of_ne (by simp [el]), ptrExcept, if_neg (by simp)]
        simp [el]
    | inr l =>
      rw [update_of_ne (by simp), ptrExcept, if_pos ⟨l, List.mem_finRange l, rfl⟩]
      simp
  · rw [update_of_ne (by simp [ej]), ptrExcept, if_neg (by simp [ej])]
    exact ptr_setIp_ne s _ x ej

theorem freeIndirect_spec :
    Triple (fun s => Mid sb L i s ∧ ∀ k : Fin NDIRECT, (s.ip i).addrs k.castSucc = 0)
      (freeIndirect i) (fun _ s => Mid sb L i s ∧ ∀ k, (s.ip i).addrs k = 0) E := by
  unfold freeIndirect
  refine .get_bind ?_
  rintro s ⟨h, hdirect⟩
  unfold when
  refine .ite ?_ ?_
  · intro hne
    refine .bind (freeEntries_spec h rfl hne) ?_
    rintro _ _ ⟨bits, rfl, howned⟩
    have hself : ptrExcept s.toStore i (List.finRange NINDIRECT) (i, .inl (Fin.last NDIRECT)) =
        (s.ip i).addrs (Fin.last NDIRECT) := by
      rw [ptrExcept, if_neg (by simp)]
      simp [h.self.2]
    have hne' : ptrExcept s.toStore i (List.finRange NINDIRECT)
        (i, .inl (Fin.last NDIRECT)) ≠ 0 := by
      rw [hself]
      exact hne
    have hbit := howned.bit_ptr hne'
    have hgiven := howned.give hne'
    rw [hself] at hbit hgiven
    refine Triple.bind (bfree_spec (s := { s with bitmap := bits }) hbit) ?_ _ rfl
    intro _
    refine .modify ?_
    rintro t rfl
    refine ⟨h.clearAddr ?_, ?_⟩
    · rw [ptr_clearLast h.self.2]
      exact hgiven
    · intro k
      unfold FsState.setAddr
      rw [ip_setIp_self]
      change update (s.ip i).addrs (Fin.last NDIRECT) 0 k = 0
      cases k using Fin.lastCases with
      | last => exact update_self ..
      | cast k =>
        rw [update_of_ne (Fin.castSucc_ne_last k)]
        exact hdirect k
  · rintro hzero t rfl
    refine ⟨h, ?_⟩
    intro k
    cases k using Fin.lastCases with
    | last => exact not_not.1 hzero
    | cast k => exact hdirect k

/-- **`itrunc`** leaves an empty file. -/
theorem itrunc_spec (hi : i ∈ L) :
    Triple (Inv sb L) (itrunc i)
      (fun _ s => Inv sb L s ∧ (s.ip i).size = 0 ∧ ∀ k, (s.ip i).addrs k = 0) E := by
  unfold itrunc
  refine .bind (.pre freeDirects_spec fun s h => (h.mid hi).1) ?_
  intro _
  refine .bind freeIndirect_spec ?_
  intro _
  refine .bind (Q := fun _ s => Mid sb L i s ∧ (s.ip i).size = 0 ∧ ∀ k, (s.ip i).addrs k = 0) ?_ ?_
  · refine .modify ?_
    rintro s ⟨h, hzero⟩
    rw [ip_setIp_self]
    exact ⟨h.setFields rfl rfl, rfl, hzero⟩
  · intro _
    refine .modify ?_
    rintro s ⟨h, hsize, hzero⟩
    have hfull : s.Filled i (s.ip i).size := by
      intro bn hbn
      omega
    have hip : ({ s with dinode := update s.dinode i (s.ip i) } : FsState).ip i =
        s.ip i := by
      obtain ⟨d, hd⟩ := Option.isSome_iff_exists.1 h.self.1
      simp [Store.ip, hd]
    refine ⟨h.iupdate hfull, ?_⟩
    rw [hip]
    exact ⟨hsize, hzero⟩

end Freeing

section Calls

variable {sb : Superblock} {L : List Nat} {i : Nat} {s : FsState}

/-- Locks may be forgotten. -/
theorem Inv.unlock {L' : List Nat} (h : Inv sb L s) (hsub : L' ⊆ L) : Inv sb L' s :=
  ⟨h.toFsInv, fun j hj => h.locked j (hsub hj)⟩

/-- The dinode of an inode without blocks is replaced by one without blocks, and the
entry of the inode table is dropped. -/
theorem Inv.replace (h : Inv sb L s) (hi : i ∉ L) {d : Dinode} (hempty : ∀ x, s.ptr (i, x) = 0)
    (hd : d.type = 0 ∨ d.size = 0 ∧ ∀ k, d.addrs k = 0) :
    Inv sb L { s with
      dinode := update s.dinode i d
      inode := update s.inode i none } := by
  generalize hs' : ({ s with
      dinode := update s.dinode i d
      inode := update s.inode i none } : FsState) = s'
  have hinode : s'.inode = update s.inode i none := by rw [← hs']
  have hdinode : s'.dinode = update s.dinode i d := by rw [← hs']
  have hwords : s'.words = s.words := by rw [← hs']
  have hself : s'.ip i = d := by
    simp [Store.ip, hinode, hdinode]
  have hother : ∀ j, j ≠ i → s'.ip j = s.ip j := by
    intro j hj
    simp [Store.ip, hinode, hdinode, hj]
  have hptr : s'.ptr = s.ptr := by
    funext p
    obtain ⟨j, x⟩ := p
    by_cases e : j = i
    · subst e
      rw [hempty x, Store.ptr, hself]
      rcases hd with hd | ⟨_, hd⟩
      · cases x <;> simp [hd]
      · cases x <;> simp [hd]
    · rw [Store.ptr, Store.ptr, hother j e, hwords]
  refine ⟨⟨⟨?_, ?_⟩, ?_⟩, ?_⟩
  · rw [hptr, ← hs']
    exact h.owned
  · rw [← hs']
    exact h.handed
  · intro j
    by_cases e : j = i
    · subst e
      constructor
      · intro d' hd'
        rw [hinode, update_self] at hd'
        cases hd'
      · rw [hself]
        rcases hd with hd | ⟨hd, _⟩
        · exact fun htype => absurd hd htype
        · intro _ bn hbn
          omega
    refine (h.inodes j).congr ?_ ?_ (fun x => congrFun hptr (j, x))
    · rw [hinode, update_of_ne e]
    · rw [hdinode, update_of_ne e]
  · intro j hj
    have e : j ≠ i := fun e => hi (e ▸ hj)
    rw [hinode, update_of_ne e]
    exact h.locked j hj

/-- **`iput`**, which frees the inode if this was its last name and reference. -/
theorem iput_spec {last : Bool} (hlast : last = true → i ∉ L) :
    Triple (Inv sb L) (iput i last) (fun _ => Inv sb L) Other := by
  unfold iput
  refine .get_bind ?_
  intro s h
  unfold when
  refine .ite ?_ ?_
  · rintro ⟨hl, hvalid, _⟩
    have hlocked : Inv sb (i :: L) s := by
      refine ⟨h.toFsInv, ?_⟩
      intro j hj
      rcases List.mem_cons.1 hj with rfl | hj
      · exact hvalid
      · exact h.locked j hj
    have htrunc := @itrunc_spec sb (i :: L) i Other List.mem_cons_self
    refine .bind (.pre htrunc ?_) ?_
    · rintro t rfl
      exact hlocked
    · rintro _ t ⟨ht, _, hzero⟩
      have hempty : ∀ x, t.ptr (i, x) = 0 := by
        intro x
        cases x <;> simp [hzero]
      have hfreed := (ht.unlock (List.subset_cons_self i L)).replace (hlast hl) hempty
        (d := { t.ip i with type := 0 }) (.inl rfl)
      have hfinal : ({ t with
          dinode := update t.dinode i { t.ip i with type := 0 }
          inode := update t.inode i none } : FsState) =
          { (t.setIp i { t.ip i with type := 0 }) with
            dinode := update t.dinode i
              ((t.setIp i { t.ip i with type := 0 }).ip i)
            inode := update (t.setIp i { t.ip i with type := 0 }).inode i none } := by
        rw [ip_setIp_self]
        simp
      rw [hfinal] at hfreed
      exact hfreed
  · rintro _ t rfl
    exact h

/-- A free inode is not locked and has no blocks. -/
theorem Inv.free_inode (h : Inv sb L s) (hfree : (s.dinode i).type = 0) :
    i ∉ L ∧ ∀ x, s.ptr (i, x) = 0 := by
  have hnone : s.inode i = none := by
    cases hi : s.inode i with
    | none => rfl
    | some d =>
      obtain ⟨hsame, htype⟩ := (h.inodes i).same d hi
      rw [hsame] at htype
      exact absurd hfree htype
  constructor
  · intro hi
    have hsome := h.locked i hi
    rw [hnone] at hsome
    cases hsome
  · intro x
    cases x <;> simp [Store.ip, hnone, hfree]

theorem ialloc_spec (type : Int16) :
    Triple (Inv sb L) (ialloc sb type) (fun _ => Inv sb L) Other := by
  unfold ialloc
  refine .get_bind ?_
  intro s h
  cases hfind : (List.range' 1 (sb.ninodes - 1)).find? fun i => (s.dinode i).type = 0 with
  | none =>
    rintro t rfl
    exact h
  | some i =>
    rintro t rfl
    have hfree : (t.dinode i).type = 0 := by
      simpa using List.find?_some hfind
    obtain ⟨hi, hempty⟩ := h.free_inode hfree
    exact h.replace hi hempty (.inr ⟨rfl, fun _ => rfl⟩)

/-- A reference that the caller still has is not the last one. -/
theorem lastRef_not_mem {last : Nat → Bool} {held : List Nat} (h : lastRef last held i = true) :
    i ∉ held := by
  simp only [lastRef, Bool.and_eq_true, decide_eq_true_eq] at h
  exact h.2

theorem dirlink_spec (hi : i ∈ L) (l : Link) (last : Nat → Bool) {held : List Nat}
    (hheld : L ⊆ held) :
    Triple (Inv sb L) (dirlink sb i l last held) (fun _ => Inv sb L) Other := by
  unfold dirlink
  refine .bind (dirlookup_spec hi l.lookup) ?_
  intro r
  cases r with
  | some j =>
    refine .bind (iput_spec fun h hj => lastRef_not_mem h (hheld hj)) ?_
    exact fun _ => .pure _ fun _ h => h
  | none =>
    refine .bind (readDirents_spec hi 0 l.count) ?_
    intro _
    refine .bind (writei_spec hi _ _ _) ?_
    exact fun _ => .pure _ fun _ h => h

theorem linkNew_spec {dp ip : Nat} (type : Int16) (f : Finds) :
    Triple (Inv sb [ip, dp]) (linkNew sb dp ip type f) (fun _ => Inv sb [ip, dp]) Other := by
  have hheld : [ip, dp] ⊆ [dp, ip] := by simp
  have hname : ∀ made : Bool, Triple (Inv sb [ip, dp])
      (if made = true then dirlink sb dp f.link f.last [dp, ip] else pure false)
      (fun _ => Inv sb [ip, dp]) Other := by
    intro made
    refine .ite ?_ ?_
    · exact fun _ => dirlink_spec (by simp) f.link f.last hheld
    · exact fun _ _ h => h
  unfold linkNew
  refine .ite ?_ ?_
  · intro _
    refine .bind (dirlink_spec (by simp) f.dot f.last hheld) ?_
    intro made
    refine .ite ?_ ?_
    · exact fun _ => .bind (dirlink_spec (by simp) f.dotdot f.last hheld) hname
    · exact fun _ => hname false
  · exact fun _ => hname true

/-- `iput` of a locked inode unlocks it. -/
theorem iunlockput_spec (L' : List Nat) {last : Bool} (hsub : L' ⊆ L)
    (hlast : last = true → i ∉ L') :
    Triple (Inv sb L) (iput i last) (fun _ => Inv sb L') Other :=
  Triple.pre (iput_spec hlast) fun _ h => h.unlock hsub

theorem putLast_spec {α : Type} (r : α) {last : Bool} :
    Triple (Inv sb L) (do iput i last; pure r) (fun _ => Inv sb []) Other :=
  .bind (iunlockput_spec [] (by simp) (by simp)) fun _ => .pure _ fun _ h => h

theorem create_spec (dp : Nat) (type major minor : Int16) (f : Finds) :
    Triple (Inv sb []) (create sb dp type major minor f) (fun _ => Inv sb []) Other := by
  unfold create
  refine .bind ilock_spec ?_
  intro _
  refine .bind (dirlookup_spec List.mem_cons_self f.name) ?_
  intro found
  cases found with
  | some ip =>
    refine .bind (iunlockput_spec [] (by simp) (by simp)) ?_
    intro _
    refine .bind ilock_spec ?_
    intro _
    refine .get_bind ?_
    intro s h
    refine .ite ?_ ?_
    · rintro _ t rfl
      exact h.unlock (by simp)
    intro _
    refine .bind (Q := fun _ => Inv sb []) ?_ (fun _ => .pure _ fun _ h => h)
    rintro t rfl
    exact iput_spec (by simp) t (h.unlock (by simp))
  | none =>
    refine .bind (ialloc_spec type) ?_
    intro new
    cases new with
    | none =>
      exact putLast_spec _
    | some ip =>
      refine .bind ilock_spec ?_
      intro _
      refine .bind (setFields_spec List.mem_cons_self major minor 1) ?_
      intro _
      refine .bind (linkNew_spec type f) ?_
      intro made
      refine .ite ?_ ?_
      · intro _
        refine .bind (when_spec fun _ => setNlink_spec (by simp) _) ?_
        intro _
        refine .bind (iunlockput_spec [ip] (by simp) lastRef_not_mem) ?_
        exact fun _ => .pure _ fun _ h => h.unlock (by simp)
      intro _
      refine .bind (setNlink_spec List.mem_cons_self _) ?_
      intro _
      refine .bind (iunlockput_spec [dp] (by simp) lastRef_not_mem) ?_
      intro _
      exact putLast_spec _

theorem unlink_spec (dp : Nat) (f : Finds) :
    Triple (Inv sb []) (unlink sb dp f) (fun _ => Inv sb []) Other := by
  unfold unlink
  refine .bind ilock_spec ?_
  intro _
  refine .bind (dirlookup_spec List.mem_cons_self f.name) ?_
  intro found
  cases found with
  | none =>
    exact putLast_spec _
  | some ip =>
    refine .bind ilock_spec ?_
    intro _
    refine .get_bind ?_
    intro s h
    refine .bind (.here (when_spec fun _ => .throw fun _ _ => by simp) h) ?_
    intro _
    refine .bind (when_spec fun _ => readDirents_spec List.mem_cons_self 2 f.count) ?_
    intro _
    refine .ite ?_ ?_
    · intro _
      refine .bind (iunlockput_spec [dp] (by simp) lastRef_not_mem) ?_
      intro _
      exact putLast_spec _
    intro _
    refine .bind (writei_spec (by simp) _ _ _) ?_
    intro r
    refine .bind (when_spec fun _ => .throw fun _ _ => by simp) ?_
    intro _
    refine .bind (when_spec fun _ => setNlink_spec (by simp) _) ?_
    intro _
    refine .bind (iunlockput_spec [ip] (by simp) lastRef_not_mem) ?_
    intro _
    refine .bind (setNlink_spec List.mem_cons_self _) ?_
    intro _
    exact putLast_spec _

/-- Taking the entry of an inode that is not locked loses nothing. -/
theorem Inv.recycle (h : Inv sb L s) (hi : i ∉ L) :
    Inv sb L { s with inode := update s.inode i none } := by
  have hip : ({ s with inode := update s.inode i none } : FsState).ip = s.ip := by
    funext j
    by_cases e : j = i
    · subst e
      cases hj : s.inode j with
      | none => simp [Store.ip, hj]
      | some d =>
        have hsame := ((h.inodes j).same d hj).1
        simp [Store.ip, hj, hsame]
    · simp [Store.ip, e]
  have hptr : ({ s with inode := update s.inode i none } : FsState).ptr = s.ptr := by
    funext p
    unfold Store.ptr
    rw [hip]
  refine ⟨⟨⟨?_, h.handed⟩, ?_⟩, ?_⟩
  · rw [hptr]
    exact h.owned
  · intro j
    constructor
    · intro d hd
      by_cases e : j = i
      · subst e
        simp at hd
      · exact (h.inodes j).same d (by simpa [e] using hd)
    · rw [hip]
      intro htype bn hbn
      obtain ⟨x, hx, hne⟩ := (h.inodes j).full htype bn hbn
      exact ⟨x, hx, by rw [hptr]; exact hne⟩
  · intro j hj
    have e : j ≠ i := fun e => hi (e ▸ hj)
    change (update s.inode i none j).isSome = true
    rw [update_of_ne e]
    exact h.locked j hj

end Calls

/-- One call. -/
theorem run_spec (sb : Superblock) (op : FsOp) :
    Triple (Inv sb []) (op.run sb) (fun _ => Inv sb []) Other := by
  have hlocked : ∀ {i : Nat} {α : Type} {x : FsM α},
      Triple (Inv sb [i]) x (fun _ => Inv sb [i]) Other →
      Triple (Inv sb []) (do ilock i; let _ ← x) (fun _ => Inv sb []) Other := by
    intro i α x hx
    refine .bind ilock_spec fun _ => .bind hx fun _ => ?_
    exact .pure _ fun _ h => h.unlock (by simp)
  cases op with
  | ialloc type => exact .bind (ialloc_spec type) fun _ => .pure _ fun _ h => h
  | ilock i =>
    exact .conseq ilock_spec (fun _ h => h) (fun _ _ h => h.unlock (by simp)) (fun _ h => h)
  | readi i off n fault =>
    apply hlocked
    intro s h
    exact Triple.conseq (readi_spec h List.mem_cons_self _ _ fault) (fun t (ht : t = s) => ht)
      (fun _ t (ht : t = s) => ht ▸ h) (fun _ he => he) s rfl
  | writei i off n c => exact hlocked (writei_spec List.mem_cons_self _ _ c)
  | itrunc i =>
    refine .bind ilock_spec fun _ => ?_
    exact .conseq (itrunc_spec List.mem_cons_self) (fun _ h => h)
      (fun _ _ h => h.1.unlock (by simp)) (fun _ h => h)
  | iput i last => exact iput_spec (by simp)
  | create dp type major minor f =>
    exact .bind (create_spec dp type major minor f) fun _ => .pure _ fun _ h => h
  | unlink dp f => exact .bind (unlink_spec dp f) fun _ => .pure _ fun _ h => h
  | recycle i => exact .modify fun _ h => h.recycle (by simp)

/-- A consistent file system: the bitmap marks exactly the metadata and the blocks in
places, no block is in two of them, and no file has a hole below its size. -/
structure Consistent (sb : Superblock) (s : Store) : Prop where
  owned : Owned s.bitmap s.ptr sb.dataStart sb.size
  inodes : ∀ i, InodeOk s i

/-- A sequence of calls. -/
theorem runOps_spec (sb : Superblock) (ops : List FsOp) :
    Triple (Inv sb []) (runOps sb ops) (fun _ => Inv sb []) Other := by
  unfold runOps
  exact .forM fun op _ => run_spec sb op

/-- **Block ownership.**

From a consistent file system every sequence of calls leaves a consistent one.  What
`balloc` has returned was a data block and in no place at that time, and `bfree` has
not found a block free. -/
theorem block_ownership (sb : Superblock) (s : FsState) (hstart : Consistent sb s.toStore)
    (hnew : s.handed = []) (ops : List FsOp) :
    (∀ s', runOps sb ops s = .ok ((), s') → Consistent sb s'.toStore ∧
      ∀ b st, (b, st) ∈ s'.handed → sb.dataStart ≤ b ∧ b < sb.size ∧ ∀ p, st.ptr p ≠ b) ∧
    runOps sb ops s ≠ .error .freeingFreeBlock := by
  have hinv : Inv sb [] s := by
    refine ⟨⟨⟨hstart.owned, ?_⟩, hstart.inodes⟩, by simp⟩
    rw [hnew]
    simp
  have hrun := runOps_spec sb ops s hinv
  constructor
  · intro s' hs'
    rw [hs'] at hrun
    exact ⟨⟨hrun.owned, hrun.inodes⟩, fun b st hb => hrun.handed (b, st) hb⟩
  · intro herr
    rw [herr] at hrun
    exact hrun rfl

section Small

/-- Ten blocks, the last five of them for data. -/
def small : Superblock := { size := 10, nblocks := 5, ninodes := 4 }

/-- The root directory, with its first block in block 5. -/
def smallRoot : Dinode :=
  { Dinode.zero with
    type := T_DIR, nlink := 1, size := 32, addrs := fun k => if k = 0 then 5 else 0 }

def smallStart : FsState where
  bitmap b := decide (b < 6)
  words _ _ := 0
  dinode i := if i = 1 then smallRoot else Dinode.zero
  inode _ := none
  handed := []

theorem smallStart_ptr (p : Nat × Place) : smallStart.ptr p = if p = (1, .inl 0) then 5 else 0 := by
  obtain ⟨i, x⟩ := p
  by_cases hi : i = 1
  · subst hi
    cases x with
    | inl k => simp [Store.ip, smallStart, smallRoot]
    | inr j => simp [Store.ip, smallStart, smallRoot]
  · cases x <;> simp [Store.ip, smallStart, hi]

theorem smallStart_consistent : Consistent small smallStart.toStore := by
  have hdata : small.dataStart = 5 := rfl
  have hsize : small.size = 10 := rfl
  refine ⟨⟨?_, ?_, ?_, ?_, ?_⟩, ?_⟩
  · decide
  · intro b hb
    rw [hdata] at hb
    simp [smallStart]
    omega
  · intro p hp
    rw [smallStart_ptr] at hp ⊢
    by_cases e : p = (1, .inl 0)
    · rw [if_pos e, hdata, hsize]
      decide
    · rw [if_neg e] at hp
      exact absurd rfl hp
  · intro p q hp heq
    rw [smallStart_ptr] at hp
    rw [smallStart_ptr, smallStart_ptr] at heq
    grind
  · intro b hlo hhi
    rw [hdata] at hlo
    constructor
    · intro hb
      have h5 : b = 5 := by
        simp [smallStart] at hb
        omega
      exact ⟨(1, .inl 0), by rw [smallStart_ptr, h5]; rfl⟩
    · rintro ⟨p, hp⟩
      rw [smallStart_ptr] at hp
      have h5 : b = 5 := by
        split at hp <;> omega
      rw [h5]
      rfl
  · intro i
    constructor
    · intro d hd
      cases hd
    · intro htype bn hbn
      have hi : i = 1 := by
        by_contra hne
        apply htype
        simp [Store.ip, smallStart, hne]
      subst hi
      have hbn0 : bn = 0 := by
        change bn * 1024 < 32 at hbn
        omega
      subst hbn0
      exact ⟨.inl 0, rfl, by rw [smallStart_ptr]; decide⟩

/-- The third entry of the root directory is free, or is that of the file. -/
def smallFinds (found : Option Nat) : Finds where
  name := ⟨2, found⟩
  dot := ⟨⟨0, none⟩, 0, fun _ => 0⟩
  dotdot := ⟨⟨1, none⟩, 1, fun _ => 0⟩
  link := ⟨⟨2, none⟩, 2, fun _ => 0⟩
  last i := i == 2
  isEmpty := true
  count := 0

/-- A file is made, the write of two blocks stops at a fault in the second, and the
file is removed. -/
def smallOps : List FsOp :=
  [.create 1 T_FILE 0 0 (smallFinds none),
   .writei 2 0 2048 ⟨fun tot => tot == 1024, fun _ _ => 7⟩,
   .unlink 1 (smallFinds (some 2))]

theorem block_ownership_small :
    ∃ s', runOps small smallOps smallStart = .ok ((), s') ∧
      s'.handed.map Prod.fst = [7, 6] ∧ s'.bitmap 6 = false ∧ Consistent small s'.toStore :=
  ⟨_, rfl, rfl, rfl,
    ((block_ownership small smallStart smallStart_consistent rfl smallOps).1 _ rfl).1⟩

end Small

end Kus.Fs
