import KusOs.BlockLayer
import KusOs.OwnershipMap

/-!
# Who owns a disk block

A place for a block address is an address of an allocated inode or an entry of its
indirect block.

* `FsInv` — between two calls the bitmap marks exactly the metadata and the blocks
  in places, no block is in two of them, no file has a hole below its size, and a
  valid entry of the inode table is a copy of its dinode;
* `Mid` — what holds while a call works on one inode;
* `bmap_spec` — a call that maps blocks keeps `Mid` and the blocks already there;
* `writei_spec` and `readi_spec` — **`writei` keeps the invariant however far it
  comes, and `readi` changes nothing**.
-/

namespace Kus.Fs

open Function Hoare Ownership

attribute [local simp] FsState.setAddr FsState.take

/-- An address of an inode, or an entry of its indirect block. -/
abbrev Place := Fin (NDIRECT + 1) ⊕ Fin NINDIRECT

/-- The block in a place of the inode `d`, or `0`. -/
def ptrOf (words : Nat → Words) (d : Dinode) : Place → Nat
  | .inl k => if d.type = 0 then 0 else d.addrs k
  | .inr j => if d.type = 0 ∨ d.addrs (Fin.last NDIRECT) = 0 then 0
      else words (d.addrs (Fin.last NDIRECT)) j

def Store.ptr (s : Store) (p : Nat × Place) : Nat := ptrOf s.words (s.ip p.1) p.2

/-- The place of block `bn` of a file. -/
def dataPlace (bn : Nat) : Option Place :=
  if h : bn < NDIRECT then some (.inl ⟨bn, Nat.lt_succ_of_lt h⟩)
  else if h : bn - NDIRECT < NINDIRECT then some (.inr ⟨bn - NDIRECT, h⟩)
  else none

/-- The blocks of inode `i` up to `bound` bytes are there. -/
def Store.Filled (s : Store) (i bound : Nat) : Prop :=
  ∀ bn, bn * BSIZE < bound → ∃ x, dataPlace bn = some x ∧ s.ptr (i, x) ≠ 0

/-- Inode `i` between two calls. -/
structure InodeOk (s : Store) (i : Nat) : Prop where
  same : ∀ d, s.inode i = some d → d = s.dinode i ∧ d.type ≠ 0
  full : (s.ip i).type ≠ 0 → s.Filled i (s.ip i).size

/-- The bitmap and the places, and what `balloc` has returned so far. -/
structure Blocks (sb : Superblock) (s : FsState) : Prop where
  owned : Owned s.bitmap s.ptr sb.dataStart sb.size
  handed : ∀ e ∈ s.handed, sb.dataStart ≤ e.1 ∧ e.1 < sb.size ∧ ∀ p, e.2.ptr p ≠ e.1

/-- The invariant between two calls. -/
structure FsInv (sb : Superblock) (s : FsState) : Prop extends Blocks sb s where
  inodes : ∀ i, InodeOk s.toStore i

/-- The invariant inside a call that has the inodes `L` locked. -/
structure Inv (sb : Superblock) (L : List Nat) (s : FsState) : Prop extends FsInv sb s where
  locked : ∀ i ∈ L, (s.inode i).isSome = true

/-- The same while inode `i` differs from its dinode. -/
structure Mid (sb : Superblock) (L : List Nat) (i : Nat) (s : FsState) : Prop
    extends Blocks sb s where
  locked : ∀ j ∈ L, (s.inode j).isSome = true
  self : (s.inode i).isSome = true ∧ (s.ip i).type ≠ 0
  others : ∀ j, j ≠ i → InodeOk s.toStore j

section Places

variable {s s' : FsState} {i b i : Nat}

@[simp] theorem ip_setIp_self (s : FsState) (i : Nat) (d : Dinode) : (s.setIp i d).ip i = d := by
  simp [FsState.setIp, Store.ip]

theorem ip_setIp_ne (s : FsState) {j : Nat} (d : Dinode) (hne : j ≠ i) :
    (s.setIp i d).ip j = s.ip j := by
  simp [FsState.setIp, Store.ip, hne]

/-- Changing one inode changes its places only. -/
theorem ptr_setIp_ne (s : FsState) {j : Nat} (d : Dinode) (x : Place) (hne : j ≠ i) :
    (s.setIp i d).ptr (j, x) = s.ptr (j, x) := by
  unfold Store.ptr
  rw [ip_setIp_ne s d hne]
  rfl

/-- A block that is nobody's indirect block can be rewritten. -/
theorem ptr_words {words : Nat → Words} {d : Dinode} {a : Nat} {w : Words}
    (h : ptrOf words d (.inl (Fin.last NDIRECT)) ≠ a ∨ d.addrs (Fin.last NDIRECT) = 0) :
    ptrOf (update words a w) d = ptrOf words d := by
  funext x
  cases x with
  | inl k => rfl
  | inr j =>
    by_cases ht : d.type = 0
    · simp [ptrOf, ht]
    by_cases hz : d.addrs (Fin.last NDIRECT) = 0
    · simp [ptrOf, hz]
    have hne : d.addrs (Fin.last NDIRECT) ≠ a := by
      rcases h with h | h
      · simpa [ptrOf, ht] using h
      · exact absurd h hz
    simp [ptrOf, ht, hz, update_of_ne hne]

/-- An address of inode `i` changes; a new indirect block is empty. -/
theorem ptr_setAddr (s : FsState) {b : Nat} {k : Fin (NDIRECT + 1)} (htype : (s.ip i).type ≠ 0)
    (hlast : k = Fin.last NDIRECT →
      (s.ip i).addrs (Fin.last NDIRECT) = 0 ∧ ∀ j, s.words b j = 0) :
    (s.setAddr i k b).ptr = update s.ptr (i, .inl k) b := by
  funext ⟨j, x⟩
  by_cases ej : j = i
  · subst ej
    unfold Store.ptr FsState.setAddr
    rw [ip_setIp_self]
    cases x with
    | inl l =>
      by_cases el : l = k
      · subst el
        simp [ptrOf, htype]
      · simp [ptrOf, htype, el]
    | inr l =>
      rw [update_of_ne (by simp)]
      by_cases ek : k = Fin.last NDIRECT
      · obtain ⟨hzero, hempty⟩ := hlast ek
        subst ek
        simp [ptrOf, hzero, FsState.setIp, hempty]
      · simp [ptrOf, update_of_ne (Ne.symm ek), FsState.setIp]
  · rw [update_of_ne (by simp [ej])]
    exact ptr_setIp_ne s _ x ej

/-- An entry of the indirect block of `i`, which is no other inode's, changes. -/
theorem ptr_setWord (s : FsState) {a b : Nat} {j : Fin NINDIRECT} (htype : (s.ip i).type ≠ 0)
    (ha : (s.ip i).addrs (Fin.last NDIRECT) = a) (hne : a ≠ 0)
    (halone : ∀ i', i' ≠ i → s.ptr (i', .inl (Fin.last NDIRECT)) ≠ a) :
    (s.setWord a j b).ptr = update s.ptr (i, .inr j) b := by
  funext ⟨i', x⟩
  have hip : (s.setWord a j b).ip = s.ip := rfl
  by_cases ei : i' = i
  · subst ei
    unfold Store.ptr
    rw [hip]
    cases x with
    | inl l =>
      rw [update_of_ne (by simp)]
      rfl
    | inr l =>
      by_cases el : l = j
      · subst el
        simp [ptrOf, htype, ha, hne, FsState.setWord]
      · simp [ptrOf, htype, ha, hne, FsState.setWord, el]
  · rw [update_of_ne (by simp [ei])]
    unfold Store.ptr
    rw [hip]
    exact congrFun (ptr_words (.inl (halone i' ei))) x

/-- An inode is as it was if its copies and its places are. -/
theorem InodeOk.congr {s s' : Store} {j : Nat} (h : InodeOk s j) (hinode : s'.inode j = s.inode j)
    (hdinode : s'.dinode j = s.dinode j) (hptr : ∀ x, s'.ptr (j, x) = s.ptr (j, x)) :
    InodeOk s' j := by
  have hip : s'.ip j = s.ip j := by
    unfold Store.ip
    rw [hinode, hdinode]
  constructor
  · rw [hinode, hdinode]
    exact h.same
  · rw [hip]
    intro htype bn hbn
    obtain ⟨x, hx, hne⟩ := h.full htype bn hbn
    exact ⟨x, hx, by rw [hptr]; exact hne⟩

theorem Filled.mono {s s' : Store} {bound : Nat} (h : s.Filled i bound)
    (hptr : ∀ x, s.ptr (i, x) ≠ 0 → s'.ptr (i, x) ≠ 0) : s'.Filled i bound := by
  intro bn hbn
  obtain ⟨x, hx, hne⟩ := h bn hbn
  exact ⟨x, hx, hptr x hne⟩

end Places

section Taking

variable {sb : Superblock} {s : FsState} {i b : Nat} {L : List Nat}

/-- Nothing refers to a block that is not marked, so zeroing it changes no place. -/
theorem Blocks.ptr_take (h : Blocks sb s) (hbit : s.bitmap b = false) (hb : b < sb.size) :
    (s.take b).ptr = s.ptr := by
  funext p
  have hnone := (h.owned.of_clear hbit hb).2 (p.1, .inl (Fin.last NDIRECT))
  exact congrFun (ptr_words (.inl hnone)) p.2

theorem Blocks.handed_take (h : Blocks sb s) (hbit : s.bitmap b = false) (hb : b < sb.size) :
    ∀ e ∈ (s.take b).handed, sb.dataStart ≤ e.1 ∧ e.1 < sb.size ∧ ∀ p, e.2.ptr p ≠ e.1 := by
  intro e he
  obtain ⟨hlo, hnone⟩ := h.owned.of_clear hbit hb
  rcases List.mem_cons.1 he with rfl | he
  · exact ⟨hlo, hb, hnone⟩
  · exact h.handed e he

/-- `balloc` for an address of inode `i`. -/
theorem Mid.takeAddr (h : Mid sb L i s) {k : Fin (NDIRECT + 1)} (hbit : s.bitmap b = false)
    (hb : b < sb.size) (hzero : (s.ip i).addrs k = 0) :
    Mid sb L i ((s.take b).setAddr i k b) ∧
      ((s.take b).setAddr i k b).ptr = update s.ptr (i, .inl k) b := by
  have htaken := h.toBlocks.ptr_take hbit hb
  have hptr : ((s.take b).setAddr i k b).ptr = update s.ptr (i, .inl k) b := by
    rw [ptr_setAddr (s.take b) h.self.2, htaken]
    rintro rfl
    exact ⟨hzero, by simp⟩
  refine ⟨⟨⟨?_, h.toBlocks.handed_take hbit hb⟩, ?_, ?_, ?_⟩, hptr⟩
  · rw [hptr]
    apply h.owned.take hbit hb
    simp [Store.ptr, ptrOf, hzero]
  · intro j hj
    by_cases e : j = i
    · subst e
      simp [FsState.setIp]
    · have hold := h.locked j hj
      simpa [FsState.setIp, e] using hold
  · constructor
    · simp [FsState.setIp]
    · unfold FsState.setAddr
      rw [ip_setIp_self]
      exact h.self.2
  · intro j hj
    refine (h.others j hj).congr ?_ rfl ?_
    · simp [FsState.setIp, hj]
    · intro x
      rw [hptr, update_of_ne (by simp [hj])]

/-- `balloc` for an entry of the indirect block of inode `i`. -/
theorem Mid.takeWord (h : Mid sb L i s) {a : Nat} {j : Fin NINDIRECT} (hbit : s.bitmap b = false)
    (hb : b < sb.size) (ha : (s.ip i).addrs (Fin.last NDIRECT) = a) (hne : a ≠ 0)
    (hzero : s.words a j = 0) :
    Mid sb L i ((s.take b).setWord a j b) ∧
      ((s.take b).setWord a j b).ptr = update s.ptr (i, .inr j) b := by
  have htaken := h.toBlocks.ptr_take hbit hb
  have hself : s.ptr (i, .inl (Fin.last NDIRECT)) = a := by
    simp [Store.ptr, ptrOf, h.self.2, ha]
  have halone : ∀ i', i' ≠ i → (s.take b).ptr (i', .inl (Fin.last NDIRECT)) ≠ a := by
    intro i' hi' hsame
    rw [htaken] at hsame
    have e := h.owned.inj _ _ (by rw [hself]; exact hne) (hself.trans hsame.symm)
    simp at e
    exact hi' e.symm
  have hptr : ((s.take b).setWord a j b).ptr = update s.ptr (i, .inr j) b := by
    rw [ptr_setWord (s.take b) h.self.2 ha hne halone, htaken]
  refine ⟨⟨⟨?_, h.toBlocks.handed_take hbit hb⟩, h.locked, h.self, ?_⟩, hptr⟩
  · rw [hptr]
    apply h.owned.take hbit hb
    simp [Store.ptr, ptrOf, ha, hzero]
  · intro j' hj'
    refine (h.others j' hj').congr rfl rfl ?_
    intro x
    rw [hptr, update_of_ne (by simp [hj'])]

end Taking

/-- The panics other than that of `bfree`. -/
def Other (e : FsPanic) : Prop := e ≠ .freeingFreeBlock

theorem when_spec {P : FsState → Prop} {c : Prop} [Decidable c] {x : FsM Unit} {E : FsPanic → Prop}
    (hx : c → Triple P x (fun _ => P) E) : Triple P (when c x) (fun _ => P) E := by
  unfold when
  exact .ite hx fun _ _ h => h

section Mapping

variable {sb : Superblock} {L : List Nat} {i : Nat} {x : Place}

/-- Every block is marked. -/
def Full (sb : Superblock) (s : Store) : Prop := ∀ b, b < sb.size → s.bitmap b = true

/-- `balloc` finds nothing and changes nothing, or takes a block that is not marked. -/
theorem balloc_spec {E : FsPanic → Prop} (s : FsState) :
    Triple (fun t => t = s) (balloc sb)
      (fun r t => (r = 0 ∧ t = s ∧ Full sb s.toStore) ∨
        (s.bitmap r = false ∧ r < sb.size ∧ t = s.take r)) E := by
  unfold balloc
  refine .get_bind ?_
  rintro t rfl
  cases hfind : (List.range sb.size).find? fun b => !t.bitmap b with
  | none =>
    rintro _ rfl
    refine .inl ⟨rfl, rfl, ?_⟩
    intro b hb
    have hno := List.find?_eq_none.1 hfind b (List.mem_range.2 hb)
    simpa using hno
  | some b =>
    rintro _ rfl
    have hclear := List.find?_some hfind
    have hmem := List.mem_of_find?_eq_some hfind
    exact .inr ⟨by simpa using hclear, List.mem_range.1 hmem, rfl⟩

/-- What `bmap` does for a place with the address `old`, where `put` stores a new one:
the disk is full, or there is a block already, or a block is taken. -/
inductive Mapped (sb : Superblock) (s : FsState) (old : Nat) (put : Nat → FsState → FsState) :
    Nat → FsState → Prop
  | full (hold : old = 0) (hfull : Full sb s.toStore) : Mapped sb s old put 0 s
  | found (hold : old ≠ 0) : Mapped sb s old put old s
  | taken {b : Nat} (hold : old = 0) (hbit : s.bitmap b = false) (hb : b < sb.size)
      (hne : b ≠ 0) : Mapped sb s old put b (put b (s.take b))

theorem mapPlace_spec {E : FsPanic → Prop} {s : FsState} (h : Blocks sb s) (old : Nat)
    (put : Nat → FsState → FsState) :
    Triple (fun t => t = s)
      (if old = 0 then do
        let addr ← balloc sb
        if addr = 0 then pure 0
        else
          modify (put addr)
          pure addr
      else pure old)
      (Mapped sb s old put) E := by
  refine .ite ?_ ?_
  · intro hold
    refine .bind (balloc_spec s) ?_
    intro b
    refine .ite ?_ ?_
    · intro hzero t ht
      rcases ht with ⟨_, ht, hfull⟩ | ⟨hbit, hb, _⟩
      · rw [ht]
        exact .full hold hfull
      -- block 0 is metadata
      have hlo := (h.owned.of_clear hbit hb).1
      have hpos := h.owned.lo_pos
      omega
    intro hne t ht
    rcases ht with ⟨hzero, _⟩ | ⟨hbit, hb, ht⟩
    · exact absurd hzero hne
    · rw [ht]
      exact .taken hold hbit hb hne
  · intro hold t ht
    rw [ht]
    exact .found hold

/-- From `s` on, inode `i` has only gained blocks. -/
structure Grown (i : Nat) (s t : FsState) : Prop where
  ptr : ∀ p, s.ptr p ≠ 0 → t.ptr p = s.ptr p
  marked : ∀ b, s.bitmap b = true → t.bitmap b = true
  inode : ∀ j, j ≠ i → t.inode j = s.inode j
  dinode : t.dinode = s.dinode

theorem Grown.refl (i : Nat) (s : FsState) : Grown i s s :=
  ⟨fun _ _ => rfl, fun _ h => h, fun _ _ => rfl, rfl⟩

theorem Grown.trans {s t u : FsState} (hst : Grown i s t) (htu : Grown i t u) : Grown i s u := by
  constructor
  · intro p hp
    have hsame := hst.ptr p hp
    rw [htu.ptr p (by rwa [hsame]), hsame]
  · intro b hb
    exact htu.marked b (hst.marked b hb)
  · intro j hj
    rw [htu.inode j hj, hst.inode j hj]
  · rw [htu.dinode, hst.dinode]

/-- A block has been taken for an empty place of inode `i`. -/
theorem Grown.of_take {s t : FsState} {b : Nat} (hzero : s.ptr (i, x) = 0)
    (hptr : t.ptr = update s.ptr (i, x) b) (hbitmap : t.bitmap = update s.bitmap b true)
    (hinode : ∀ j, j ≠ i → t.inode j = s.inode j) (hdinode : t.dinode = s.dinode) :
    Grown i s t := by
  refine ⟨?_, ?_, hinode, hdinode⟩
  · intro p hp
    have hne : p ≠ (i, x) := fun e => hp (e ▸ hzero)
    rw [hptr, update_of_ne hne]
  · intro c hc
    rw [hbitmap]
    by_cases e : c = b
    · rw [e, update_self]
    · rwa [update_of_ne e]

/-- What a call keeps that maps blocks of inode `i`, whose size is `size` and whose
blocks up to `bound` bytes are there. -/
structure Mapping (sb : Superblock) (L : List Nat) (i bound size : Nat) (s : FsState) : Prop
    extends Mid sb L i s where
  filled : s.Filled i bound
  sized : (s.ip i).size = size

variable {bound size : Nat}

/-- A block has been taken for a place of inode `i`. -/
theorem Mapping.of_take {s s' : FsState} {b : Nat} (h : Mapping sb L i bound size s)
    (hmid : Mid sb L i s') (hptr : s'.ptr = update s.ptr (i, x) b) (hb : b ≠ 0)
    (hsize : (s'.ip i).size = (s.ip i).size) : Mapping sb L i bound size s' := by
  refine ⟨hmid, ?_, hsize.trans h.sized⟩
  apply Filled.mono h.filled
  intro y hy
  rw [hptr]
  by_cases e : y = x
  · subst e
    rw [update_self]
    exact hb
  · rw [update_of_ne (by simp [e])]
    exact hy

/-- What a step of `bmap` for inode `i` keeps, and what its result means. -/
def MapsTo (sb : Superblock) (L : List Nat) (i bound size : Nat) (s : FsState)
    (place : FsState → Nat) (r : Nat) (t : FsState) : Prop :=
  Mapping sb L i bound size t ∧ Grown i s t ∧ (r ≠ 0 → place t = r) ∧ (r = 0 → Full sb t.toStore)

section

variable {E : FsPanic → Prop} {s : FsState} (h : Mapping sb L i bound size s)
include h

theorem mapAddr_spec (k : Fin (NDIRECT + 1)) : Triple (fun t => t = s) (mapAddr sb i k)
      (MapsTo sb L i bound size s fun t => (t.ip i).addrs k) E := by
  unfold mapAddr
  refine .get_bind ?_
  rintro t rfl
  refine .conseq (mapPlace_spec h.toBlocks ((t.ip i).addrs k) _) (fun _ ht => ht) ?_
    (fun _ he => he)
  intro r u hr
  cases hr with
  | full hold hfull => exact ⟨h, .refl i t, fun hn => absurd rfl hn, fun _ => hfull⟩
  | found hold => exact ⟨h, .refl i t, fun _ => rfl, fun hz => absurd hz hold⟩
  | taken hold hbit hb hne =>
    obtain ⟨hmid, hptr⟩ := h.toMid.takeAddr hbit hb hold
    have hempty : t.ptr (i, .inl k) = 0 := by simp [Store.ptr, ptrOf, hold]
    refine ⟨h.of_take hmid hptr hne ?_, .of_take hempty hptr rfl ?_ rfl, ?_,
      fun hz => absurd hz hne⟩
    · unfold FsState.setAddr
      rw [ip_setIp_self]
      rfl
    · intro j hj
      simp [FsState.setIp, hj]
    · intro _
      simp

theorem mapEntry_spec {a : Nat} (ha : (s.ip i).addrs (Fin.last NDIRECT) = a) (hne : a ≠ 0)
    (j : Fin NINDIRECT) : Triple (fun t => t = s) (mapEntry sb a j)
      (MapsTo sb L i bound size s fun t => t.ptr (i, .inr j)) E := by
  have hentry : s.ptr (i, .inr j) = s.words a j := by
    simp [Store.ptr, ptrOf, h.self.2, ha, hne]
  unfold mapEntry
  refine .get_bind ?_
  rintro t rfl
  refine .conseq (mapPlace_spec h.toBlocks (t.words a j) _) (fun _ ht => ht) ?_ (fun _ he => he)
  intro r u hr
  cases hr with
  | full hold hfull => exact ⟨h, .refl i t, fun hn => absurd rfl hn, fun _ => hfull⟩
  | found hold => exact ⟨h, .refl i t, fun _ => hentry, fun hz => absurd hz hold⟩
  | taken hold hbit hb hb0 =>
    obtain ⟨hmid, hptr⟩ := h.toMid.takeWord hbit hb ha hne hold
    refine ⟨h.of_take hmid hptr hb0 rfl, .of_take (hentry.trans hold) hptr rfl (fun _ _ => rfl) rfl,
      ?_, fun hz => absurd hz hb0⟩
    intro _
    change ((t.take r).setWord a j r).ptr (i, .inr j) = r
    rw [hptr, update_self]

/-- `bmap` returns the block in the place of block `bn`, or `0` if the disk is full. -/
theorem bmap_mapsTo {bn : Nat} (hx : dataPlace bn = some x) : Triple (fun t => t = s) (bmap sb i bn)
      (MapsTo sb L i bound size s fun t => t.ptr (i, x)) E := by
  unfold bmap
  unfold dataPlace at hx
  by_cases hd : bn < NDIRECT
  · rw [dif_pos hd] at hx ⊢
    cases hx
    refine .conseq (mapAddr_spec h _) (fun _ ht => ht) ?_ (fun _ he => he)
    intro r t hr
    obtain ⟨ht, hgrown, hplace, hfull⟩ := hr
    refine ⟨ht, hgrown, ?_, hfull⟩
    intro hne
    simp [Store.ptr, ptrOf, ht.self.2, hplace hne]
  rw [dif_neg hd] at hx ⊢
  by_cases hi : bn - NDIRECT < NINDIRECT
  · rw [dif_pos hi] at hx ⊢
    cases hx
    refine .bind (mapAddr_spec h (Fin.last NDIRECT)) ?_
    intro a
    refine .ite ?_ ?_
    · intro hzero t ht
      obtain ⟨ht, hgrown, _, hfull⟩ := ht
      exact ⟨ht, hgrown, fun hn => absurd rfl hn, fun _ => hfull hzero⟩
    intro hne t ht
    obtain ⟨ht, hgrown, hplace, _⟩ := ht
    have hentry := @mapEntry_spec sb L i bound size E t ht a (hplace hne) hne ⟨bn - NDIRECT, hi⟩
    refine Triple.conseq hentry (fun _ hu => hu) ?_ (fun _ he => he) t rfl
    intro r u hr
    exact ⟨hr.1, hgrown.trans hr.2.1, hr.2.2⟩
  · rw [dif_neg hi] at hx
    cases hx

end

/-- `bmap`, with any block number. -/
theorem bmap_spec (bn : Nat) :
    Triple (Mapping sb L i bound size) (bmap sb i bn)
      (fun r s => Mapping sb L i bound size s ∧
        (r ≠ 0 → ∃ x, dataPlace bn = some x ∧ s.ptr (i, x) = r)) Other := by
  cases hx : dataPlace bn with
  | some x =>
    intro s h
    refine Triple.conseq (bmap_mapsTo h hx) (fun _ ht => ht) ?_ (fun _ he => he) s rfl
    intro r t hr
    exact ⟨hr.1, fun hne => ⟨x, rfl, hr.2.2.1 hne⟩⟩
  | none =>
    have hd : ¬ bn < NDIRECT := by
      intro hd
      simp [dataPlace, hd] at hx
    have hi : ¬ bn - NDIRECT < NINDIRECT := by
      intro hi
      simp [dataPlace, hd, hi] at hx
    unfold bmap
    rw [dif_neg hd, dif_neg hi]
    exact .throw fun _ _ => by simp [Other]

theorem dataPlace_ne_last {bn : Nat} (hx : dataPlace bn = some x) :
    x ≠ .inl (Fin.last NDIRECT) := by
  rintro rfl
  unfold dataPlace at hx
  split at hx
  · simp only [Option.some.injEq, Sum.inl.injEq] at hx
    have hval := congrArg Fin.val hx
    simp at hval
    omega
  · split at hx <;> simp at hx

/-- A data block, which is nobody's indirect block, can be rewritten. -/
theorem Blocks.ptr_rewrite {s : FsState} (h : Blocks sb s) {bn addr : Nat}
    (hx : dataPlace bn = some x) (hptr : s.ptr (i, x) = addr) (hne : addr ≠ 0) (w : Words) :
    ({ s with words := update s.words addr w } : FsState).ptr = s.ptr := by
  funext p
  refine congrFun (ptr_words (.inl ?_)) p.2
  intro hsame
  have hother : s.ptr (p.1, .inl (Fin.last NDIRECT)) = addr := hsame
  have e := h.owned.inj _ _ (by rw [hptr]; exact hne) (hptr.trans hother.symm)
  simp at e
  exact dataPlace_ne_last hx e.2

theorem Mapping.rewrite {s : FsState} (h : Mapping sb L i bound size s) {bn addr : Nat}
    (hx : dataPlace bn = some x) (hptr : s.ptr (i, x) = addr) (hne : addr ≠ 0) (w : Words) :
    Mapping sb L i bound size { s with words := update s.words addr w } := by
  have hkeep := h.toBlocks.ptr_rewrite hx hptr hne w
  refine ⟨⟨⟨?_, h.handed⟩, h.locked, h.self, ?_⟩, ?_, h.sized⟩
  · rw [hkeep]
    exact h.owned
  · intro j hj
    refine (h.others j hj).congr rfl rfl ?_
    intro y
    rw [hkeep]
  · apply Filled.mono h.filled
    intro y hy
    rw [hkeep]
    exact hy

/-- A copy changes a data block. -/
theorem copyIn_spec (c : Copy) {addr tot bn : Nat} (hne : addr ≠ 0) :
    Triple (fun s => Mapping sb L i bound size s ∧ ∃ x, dataPlace bn = some x ∧ s.ptr (i, x) = addr)
      (copyIn c addr tot)
      (fun _ s => Mapping sb L i bound size s ∧
        ∃ x, dataPlace bn = some x ∧ s.ptr (i, x) = addr) Other := by
  intro s hs
  obtain ⟨h, x, hx, hptr⟩ := hs
  refine ⟨h.rewrite hx hptr hne _, x, hx, ?_⟩
  rw [h.toBlocks.ptr_rewrite hx hptr hne]
  exact hptr

/-- One more block of the file is there. -/
theorem Mapping.extend {s : FsState} {bound' bn : Nat} (h : Mapping sb L i bound size s)
    (hx : dataPlace bn = some x) (hne : s.ptr (i, x) ≠ 0)
    (hbound : ∀ m, m * BSIZE < bound' → m * BSIZE < bound ∨ m = bn) :
    Mapping sb L i bound' size s := by
  refine ⟨h.toMid, ?_, h.sized⟩
  intro m hm
  rcases hbound m hm with hold | rfl
  · exact h.filled m hold
  · exact ⟨x, hx, hne⟩

/-- The loop of `writei`: the blocks up to `off` are there. -/
theorem writeLoop_spec (c : Copy) (n rounds off tot : Nat) :
    Triple (Mapping sb L i (max size off) size) (blockLoop sb i n (copyIn c) rounds off tot)
      (fun r s => Mapping sb L i (max size r.1) size s) Other := by
  induction rounds generalizing off tot with
  | zero => exact fun _ h => h
  | succ rounds ih =>
    unfold blockLoop
    refine .ite ?_ ?_
    · intro _
      refine .bind (bmap_spec (off / BSIZE)) ?_
      intro addr
      refine .ite ?_ ?_
      · rintro _ s ⟨h, _⟩
        exact h
      intro hne
      have hcopy := @copyIn_spec sb L i (max size off) size c addr tot (off / BSIZE) hne
      refine .bind (.pre hcopy fun s h => ⟨h.1, h.2 hne⟩) ?_
      intro ok
      refine .ite ?_ ?_
      · intro _
        refine .pre (ih _ _) ?_
        rintro s ⟨h, x, hx, hptr⟩
        apply h.extend hx (by rw [hptr]; exact hne)
        intro m hm
        simp only [BSIZE] at hm ⊢
        omega
      · rintro _ s ⟨h, _⟩
        exact h
    · exact fun _ _ h => h

end Mapping

section Finishing

variable {sb : Superblock} {L : List Nat} {i : Nat} {s : FsState}

/-- The places of an inode depend on its type and its addresses. -/
theorem ptr_setIp_same {d : Dinode} (htype : d.type = (s.ip i).type)
    (haddrs : d.addrs = (s.ip i).addrs) : (s.setIp i d).ptr = s.ptr := by
  funext ⟨j, x⟩
  by_cases e : j = i
  · subst e
    unfold Store.ptr
    rw [ip_setIp_self]
    cases x with
    | inl k => simp [ptrOf, htype, haddrs]
    | inr k => simp [ptrOf, htype, haddrs, FsState.setIp]
  · exact ptr_setIp_ne s d x e

theorem Inv.mid (h : Inv sb L s) (hi : i ∈ L) : Mid sb L i s ∧ s.Filled i (s.ip i).size := by
  have hsome := h.locked i hi
  obtain ⟨d, hd⟩ := Option.isSome_iff_exists.1 hsome
  have htype : (s.ip i).type ≠ 0 := by
    have hip : s.ip i = d := by
      unfold Store.ip
      rw [hd]
      rfl
    rw [hip]
    exact ((h.inodes i).same d hd).2
  exact ⟨⟨h.toBlocks, h.locked, ⟨hsome, htype⟩, fun j _ => h.inodes j⟩, (h.inodes i).full htype⟩

/-- Other fields of inode `i` change. -/
theorem Mid.setFields (h : Mid sb L i s) {d : Dinode} (htype : d.type = (s.ip i).type)
    (haddrs : d.addrs = (s.ip i).addrs) : Mid sb L i (s.setIp i d) := by
  have hptr := ptr_setIp_same (s := s) htype haddrs
  refine ⟨⟨?_, h.handed⟩, ?_, ?_, ?_⟩
  · rw [hptr]
    exact h.owned
  · intro j hj
    by_cases e : j = i
    · subst e
      simp [FsState.setIp]
    · simpa [FsState.setIp, e] using h.locked j hj
  · rw [ip_setIp_self, htype]
    exact ⟨by simp [FsState.setIp], h.self.2⟩
  · intro j hj
    refine (h.others j hj).congr (by simp [FsState.setIp, hj]) rfl ?_
    intro x
    rw [hptr]

/-- `iupdate` ends the work on inode `i`. -/
theorem Mid.iupdate (h : Mid sb L i s) (hfull : s.Filled i (s.ip i).size) :
    Inv sb L { s with dinode := update s.dinode i (s.ip i) } := by
  obtain ⟨d, hd⟩ := Option.isSome_iff_exists.1 h.self.1
  have hself : s.ip i = d := by
    unfold Store.ip
    rw [hd]
    rfl
  have hip : ({ s with dinode := update s.dinode i (s.ip i) } : FsState).ip = s.ip := by
    funext j
    by_cases e : j = i
    · subst e
      simp [Store.ip, hd]
    · simp [Store.ip, e]
  have hptr : ({ s with dinode := update s.dinode i (s.ip i) } : FsState).ptr = s.ptr := by
    funext p
    unfold Store.ptr
    rw [hip]
  refine ⟨⟨⟨?_, h.handed⟩, ?_⟩, h.locked⟩
  · rw [hptr]
    exact h.owned
  · intro j
    by_cases e : j = i
    · subst e
      constructor
      · intro d' hd'
        change d' = update s.dinode j (s.ip j) j ∧ d'.type ≠ 0
        rw [update_self]
        have hdd : d' = s.ip j := by
          rw [hself]
          exact Option.some.inj (hd'.symm.trans hd)
        rw [hdd]
        exact ⟨rfl, h.self.2⟩
      · intro _
        rw [hip]
        apply Filled.mono hfull
        intro x hx
        rw [hptr]
        exact hx
    · refine (h.others j e).congr rfl (update_of_ne e _ _) ?_
      intro x
      rw [hptr]

theorem iupdate_spec {E : FsPanic → Prop} :
    Triple (fun s => Mid sb L i s ∧ s.Filled i (s.ip i).size) (iupdate i) (fun _ => Inv sb L) E :=
  Triple.modify fun _ h => h.1.iupdate h.2

/-- The end of `writei`: the size covers what has been written. -/
theorem Mapping.resize {off size : Nat} (h : Mapping sb L i (max size off) size s) {t : FsState}
    (ht : t = if (s.ip i).size < off then s.setIp i { s.ip i with size := off } else s) :
    Mid sb L i t ∧ t.Filled i (t.ip i).size ∧ (t.ip i).size = max size off ∧ t.ptr = s.ptr := by
  have hbig := h.filled
  have hsized := h.sized
  by_cases hlt : (s.ip i).size < off
  · rw [if_pos hlt] at ht
    have hptr : t.ptr = s.ptr := by
      rw [ht]
      exact ptr_setIp_same (by rfl) (by rfl)
    have hsize : (t.ip i).size = off := by
      rw [ht, ip_setIp_self]
    refine ⟨ht ▸ h.toMid.setFields rfl rfl, ?_, ?_, hptr⟩
    · intro bn hbn
      obtain ⟨x, hx, hne⟩ := hbig bn (by omega)
      exact ⟨x, hx, by rwa [hptr]⟩
    · omega
  · rw [if_neg hlt] at ht
    rw [ht]
    refine ⟨h.toMid, ?_, by omega, rfl⟩
    intro bn hbn
    exact hbig bn (by omega)

/-- **`writei`**, however far it comes. -/
theorem writei_spec (hi : i ∈ L) (off n : Nat) (c : Copy) :
    Triple (Inv sb L) (writei sb i off n c) (fun _ => Inv sb L) Other := by
  unfold writei
  refine .get_bind ?_
  intro s h
  refine .ite ?_ ?_
  · rintro _ t rfl
    exact h
  intro hoff
  refine .ite ?_ ?_
  · rintro _ t rfl
    exact h
  intro _
  obtain ⟨hmid, hfull⟩ := h.mid hi
  have hstart : Mapping sb L i (max (s.ip i).size off) (s.ip i).size s := by
    refine ⟨hmid, ?_, rfl⟩
    rw [Nat.max_eq_left (by omega)]
    exact hfull
  have hloop := @writeLoop_spec sb L i (s.ip i).size c n n off 0
  refine .bind (.pre hloop ?_) ?_
  · rintro t rfl
    exact hstart
  · rintro ⟨off', tot, ok⟩
    refine .bind (Q := fun _ t => Mid sb L i t ∧ t.Filled i (t.ip i).size) ?_ ?_
    · refine .modify ?_
      intro t ht
      obtain ⟨hmid, hfilled, _⟩ := ht.resize rfl
      exact ⟨hmid, hfilled⟩
    · intro _
      exact .bind iupdate_spec fun _ => .pure _ fun _ h => h

/-- Changing link count and device numbers. -/
theorem setFields_spec (hi : i ∈ L) (major minor nlink : Int16) :
    Triple (Inv sb L) (setFields i major minor nlink) (fun _ => Inv sb L) Other := by
  unfold setFields
  refine .bind (Q := fun _ t => Mid sb L i t ∧ t.Filled i (t.ip i).size) ?_ ?_
  · refine .modify ?_
    intro s h
    obtain ⟨hmid, hfull⟩ := h.mid hi
    refine ⟨hmid.setFields rfl rfl, ?_⟩
    rw [ip_setIp_self]
    apply Filled.mono hfull
    intro x hx
    rw [ptr_setIp_same (by rfl) (by rfl)]
    exact hx
  · exact fun _ => iupdate_spec

theorem setNlink_spec (hi : i ∈ L) (f : Int16 → Int16) :
    Triple (Inv sb L) (setNlink i f) (fun _ => Inv sb L) Other := by
  intro s h
  exact setFields_spec hi (s.ip i).major (s.ip i).minor (f (s.ip i).nlink) s h

/-- `ilock` reads the inode from disk. -/
theorem Inv.load (h : Inv sb L s) (hi : s.inode i = none) (htype : (s.dinode i).type ≠ 0) :
    Inv sb (i :: L) (s.setIp i (s.dinode i)) := by
  have hip : s.ip i = s.dinode i := by
    simp [Store.ip, hi]
  have hptr : (s.setIp i (s.dinode i)).ptr = s.ptr := ptr_setIp_same (by rw [hip]) (by rw [hip])
  refine ⟨⟨⟨?_, h.handed⟩, ?_⟩, ?_⟩
  · rw [hptr]
    exact h.owned
  · intro j
    by_cases e : j = i
    · subst e
      constructor
      · intro d hd
        have hdd : d = s.dinode j := by
          simpa [FsState.setIp] using hd.symm
        rw [hdd]
        exact ⟨rfl, htype⟩
      · intro _
        have hfull := (h.inodes j).full (by rw [hip]; exact htype)
        rw [ip_setIp_self, ← hip]
        apply Filled.mono hfull
        intro x hx
        rw [hip, hptr]
        exact hx
    · refine (h.inodes j).congr (update_of_ne e _ _) rfl ?_
      intro x
      exact congrFun hptr (j, x)
  · intro j hj
    change ((update s.inode i (some (s.dinode i))) j).isSome = true
    by_cases e : j = i
    · subst e
      simp
    rcases List.mem_cons.1 hj with rfl | hj
    · exact absurd rfl e
    · rw [update_of_ne e]
      exact h.locked j hj

theorem ilock_spec : Triple (Inv sb L) (ilock i) (fun _ => Inv sb (i :: L)) Other := by
  unfold ilock
  refine .get_bind ?_
  intro s h
  cases hi : s.inode i with
  | some d =>
    rintro t rfl
    refine ⟨h.toFsInv, ?_⟩
    intro j hj
    rcases List.mem_cons.1 hj with rfl | hj
    · simp [hi]
    · exact h.locked j hj
  | none =>
    refine .bind (Q := fun _ t => t = s.setIp i (s.dinode i)) ?_ ?_
    · rintro t rfl
      rfl
    · intro _
      unfold when
      refine .ite ?_ ?_
      · intro _
        exact .throw fun _ _ => by simp [Other]
      · rintro htype t rfl
        exact h.load hi htype

end Finishing

section Reading

variable {sb : Superblock} {L : List Nat} {i : Nat} {s : FsState}

/-- `bmap` of a block that is there changes nothing. -/
theorem bmap_found {bn : Nat} {x : Place} (hx : dataPlace bn = some x) (hne : s.ptr (i, x) ≠ 0) :
    Triple (fun t => t = s) (bmap sb i bn) (fun _ t => t = s) Other := by
  have hkeep : ∀ k : Fin (NDIRECT + 1), (s.ip i).addrs k ≠ 0 →
      Triple (fun t => t = s) (mapAddr sb i k) (fun r t => t = s ∧ r = (s.ip i).addrs k) Other := by
    intro k hk
    unfold mapAddr
    refine .get_bind ?_
    rintro t rfl
    rw [if_neg hk]
    rintro t rfl
    exact ⟨rfl, rfl⟩
  unfold bmap
  unfold dataPlace at hx
  by_cases hd : bn < NDIRECT
  · rw [dif_pos hd] at hx ⊢
    cases hx
    refine .conseq (hkeep _ ?_) (fun _ h => h) (fun _ _ h => h.1) (fun _ h => h)
    intro hzero
    apply hne
    simp [Store.ptr, ptrOf, hzero]
  rw [dif_neg hd] at hx ⊢
  by_cases hi : bn - NDIRECT < NINDIRECT
  · rw [dif_pos hi] at hx ⊢
    cases hx
    have hlast : (s.ip i).addrs (Fin.last NDIRECT) ≠ 0 := by
      intro hzero
      apply hne
      simp [Store.ptr, ptrOf, hzero]
    refine .bind (hkeep _ hlast) ?_
    intro a
    refine .ite ?_ ?_
    · rintro rfl t ⟨rfl, _⟩
      rfl
    intro _
    unfold mapEntry
    refine .get_bind ?_
    rintro t ⟨rfl, rfl⟩
    rw [if_neg]
    · rintro _ rfl
      rfl
    · intro hzero
      apply hne
      simp [Store.ptr, ptrOf, hzero]
  · rw [dif_neg hi] at hx
    cases hx

theorem readLoop_spec {bound : Nat} (hfull : s.Filled i bound) (fault : Nat → Bool)
    (n rounds off tot : Nat) (hoff : off + (n - tot) ≤ bound) :
    Triple (fun t => t = s) (blockLoop sb i n (fun _ tot => pure (!fault tot)) rounds off tot)
      (fun _ t => t = s) Other := by
  induction rounds generalizing off tot with
  | zero => exact fun _ h => h
  | succ rounds ih =>
    unfold blockLoop
    refine .ite ?_ ?_
    · intro hlt
      have hbn : off / BSIZE * BSIZE < bound := by
        simp only [BSIZE]
        omega
      obtain ⟨x, hx, hne⟩ := hfull (off / BSIZE) hbn
      refine .bind (bmap_found hx hne) ?_
      intro addr
      refine .ite ?_ ?_
      · exact fun _ _ h => h
      intro _
      refine .bind (Q := fun _ t => t = s) (fun _ h => h) ?_
      intro ok
      refine .ite ?_ ?_
      · intro _
        apply ih
        omega
      · exact fun _ _ h => h
    · exact fun _ _ h => h

/-- **`readi` changes nothing**, for a file without holes. -/
theorem readi_spec (h : Inv sb L s) (hi : i ∈ L) (off n : Nat) (fault : Nat → Bool) :
    Triple (fun t => t = s) (readi sb i off n fault) (fun _ t => t = s) Other := by
  unfold readi
  refine .get_bind ?_
  rintro t rfl
  refine .ite ?_ ?_
  · exact fun _ _ ht => ht
  intro hoff
  obtain ⟨_, hfull⟩ := h.mid hi
  refine .bind (readLoop_spec hfull fault _ _ off 0 ?_) ?_
  · split <;> omega
  · rintro ⟨off', tot, ok⟩
    exact fun _ ht => ht

theorem readDirents_spec (hi : i ∈ L) (first count : Nat) :
    Triple (Inv sb L) (readDirents sb i first count) (fun _ => Inv sb L) Other := by
  unfold readDirents
  refine .forM ?_
  intro k _ s h
  refine Triple.conseq
    (.bind (readi_spec h hi (direntSize * k) direntSize fun _ => false) ?_)
    (fun t (ht : t = s) => ht) (fun _ t (ht : t = s) => ht ▸ h) (fun _ he => he) s rfl
  intro r
  exact when_spec fun _ => .throw fun _ _ => by simp [Other]

theorem dirlookup_spec (hi : i ∈ L) (l : Lookup) :
    Triple (Inv sb L) (dirlookup sb i l) (fun _ => Inv sb L) Other := by
  unfold dirlookup
  refine .get_bind ?_
  intro s h
  refine .bind (when_spec fun _ => .throw fun _ _ => by simp [Other]) ?_
  intro _
  exact .bind (.here (readDirents_spec hi 0 l.count) h) fun _ => .pure _ fun _ h => h

end Reading

end Kus.Fs
