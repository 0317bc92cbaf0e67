import Mathlib
import KusOs.Umalloc

/-!
# The allocator's blocks and its free list

The blocks of the allocator — the free ones, on a ring through the static header, and the
live ones — cover the regions obtained from the operating system.

* `Tiles` — the blocks at given headers cover the regions exactly, with the same total;
  two adjacent blocks may be merged (`Tiles.merge`), one may be cut (`Tiles.split`), and a
  new region is a new block (`Tiles.grow`);
* `Ring` — the free list: sorted by address with a hole after each block, so that the
  only pointer to a lower address leads back to the static header;
* `join_spec` — what each half of `free`'s coalescing does to the rest of the list;
* `Ring.search_ends` — the search of `free` ends, at the block's place;
* `insert_spec` — inserted there, a live block becomes part of the free list.
-/

namespace Kus.Umalloc

open Function Hoare IntervalCover PointerRing

/-- The bytes of the block whose header is at `a`. -/
def block (size : Nat → UInt32) (a : Nat) : Interval := ⟨a, headerSize * (size a).toNat⟩

def blocks (size : Nat → UInt32) (ns : List Nat) : List Interval := ns.map (block size)

/-- The blocks at `ns` cover the regions. -/
structure Tiles (size : Nat → UInt32) (ns : List Nat) (regions : List Interval) : Prop where
  cover : ∀ x, cover (blocks size ns) x = cover regions x
  total : total (blocks size ns) = total regions
  aligned : ∀ a ∈ ns, ∀ x, (block size a).Has x → ∀ r ∈ regions, r.Has x →
    a % headerSize = r.lo % headerSize
  once : ∀ x, IntervalCover.cover regions x ≤ 1

section Tiles

variable {size size' : Nat → UInt32} {ns ms : List Nat} {regions : List Interval} {a b : Nat}

theorem blocks_congr (h : ∀ c ∈ ns, size' c = size c) : blocks size' ns = blocks size ns := by
  apply List.map_congr_left
  intro c hc
  rw [block, block, h c hc]

theorem block_has_self (h : 0 < (size a).toNat) : (block size a).Has a := by
  constructor
  · exact Nat.le_refl a
  · simp only [block, headerSize]
    omega

theorem Tiles.perm (h : Tiles size ns regions) (hp : ns.Perm ms) : Tiles size ms regions where
  cover := by
    intro x
    rw [← h.cover x]
    exact (cover_perm (hp.map _) x).symm
  total := by
    rw [← h.total]
    exact (total_perm (hp.map _)).symm
  aligned := by
    intro a ha
    exact h.aligned a (hp.mem_iff.2 ha)
  once := h.once

theorem Tiles.congr (h : Tiles size ns regions) (hsame : ∀ c ∈ ns, size' c = size c) :
    Tiles size' ns regions where
  cover := by
    rw [blocks_congr hsame]
    exact h.cover
  total := by
    rw [blocks_congr hsame]
    exact h.total
  aligned := by
    intro a ha x hx
    rw [block, hsame a ha] at hx
    exact h.aligned a ha x hx
  once := h.once

section

variable (h : Tiles size (a :: ns) regions)
include h a

/-- No byte is in two blocks. -/
theorem Tiles.apart (hb : b ∈ ns) : Apart (block size a) (block size b) := by
  have hle : ∀ x, IntervalCover.cover (blocks size (a :: ns)) x ≤ 1 := by
    intro x
    rw [h.cover x]
    exact h.once x
  have hpair := disjoint_of_cover hle
  rw [blocks, List.map_cons, List.pairwise_cons] at hpair
  exact hpair.1 (block size b) (List.mem_map_of_mem hb)

/-- A header inside a block is that block's own. -/
theorem Tiles.ne_inside (hb : b ∈ ns) (hpos : 0 < (size b).toNat) : ¬ (block size a).Has b := by
  intro hin
  exact h.apart hb b hin (block_has_self hpos)

theorem Tiles.not_mem (hpos : 0 < (size a).toNat) : a ∉ ns := by
  intro ha
  exact h.ne_inside ha hpos (block_has_self hpos)

/-- A block ends before the next one starts. -/
theorem Tiles.end_le (hb : b ∈ ns) (hlt : a < b) (hpos : 0 < (size b).toNat) :
    a + headerSize * (size a).toNat ≤ b := by
  have hout := h.ne_inside hb hpos
  simp only [Interval.Has, block] at hout
  omega

end

/-- Every byte of a block is in a region. -/
theorem Tiles.inside (h : Tiles size ns regions) (ha : a ∈ ns) {x : Nat}
    (hx : (block size a).Has x) : ∃ r ∈ regions, r.Has x := by
  apply has_of_cover
  rw [← h.cover x]
  exact cover_pos (List.mem_map_of_mem ha) hx

/-- Two blocks of which one starts where the other ends, as one. -/
theorem Tiles.merge (h : Tiles size (a :: b :: ns) regions)
    (hnext : a + headerSize * (size a).toNat = b)
    (hsum : (size' a).toNat = (size a).toNat + (size b).toNat)
    (hsame : ∀ c ∈ ns, size' c = size c) : Tiles size' (a :: ns) regions := by
  have hblock : block size' a =
      ⟨a, headerSize * (size a).toNat + headerSize * (size b).toNat⟩ := by
    rw [block, hsum, Nat.mul_add]
  constructor
  · intro x
    have hx := h.cover x
    simp only [blocks, List.map_cons, cover_cons] at hx ⊢
    rw [hblock, count_split, hnext, ← hx, ← blocks, blocks_congr hsame]
    simp only [block, blocks, Nat.add_assoc]
  · have htotal := h.total
    simp only [blocks, List.map_cons, total_cons] at htotal ⊢
    rw [hblock, ← htotal, ← blocks, blocks_congr hsame]
    simp only [block, blocks, Nat.add_assoc]
  · intro c hc x hx r hr hrx
    rcases List.mem_cons.1 hc with hc | hc
    · rw [hc, hblock] at hx
      rw [hc]
      by_cases hlow : x < b
      · refine h.aligned a List.mem_cons_self x ⟨hx.1, ?_⟩ r hr hrx
        simp only [block]
        omega
      have hb := h.aligned b (List.mem_cons_of_mem a List.mem_cons_self) x
        ⟨by simp only [block]; omega, by simp only [block]; have := hx.2; simp only at this; omega⟩
        r hr hrx
      rw [← hb, ← hnext]
      simp only [headerSize]
      omega
    · rw [block, hsame c hc] at hx
      exact h.aligned c (by simp only [List.mem_cons]; exact .inr (.inr hc)) x hx r hr hrx
  · exact h.once

/-- One block cut in two. -/
theorem Tiles.split (h : Tiles size (a :: ns) regions)
    (hsum : (size a).toNat = (size' a).toNat + (size' b).toNat)
    (hb : a + headerSize * (size' a).toNat = b)
    (hsame : ∀ c ∈ ns, size' c = size c) : Tiles size' (a :: b :: ns) regions := by
  have hblock : block size a =
      ⟨a, headerSize * (size' a).toNat + headerSize * (size' b).toNat⟩ := by
    rw [block, hsum, Nat.mul_add]
  constructor
  · intro x
    have hx := h.cover x
    simp only [blocks, List.map_cons, cover_cons] at hx ⊢
    rw [← hx, hblock, count_split, hb, ← blocks, ← blocks, blocks_congr hsame]
    simp only [block, Nat.add_assoc]
  · have htotal := h.total
    simp only [blocks, List.map_cons, total_cons] at htotal ⊢
    rw [← htotal, hblock, ← blocks, ← blocks, blocks_congr hsame]
    simp only [block, Nat.add_assoc]
  · intro c hc x hx r hr hrx
    have hwhole : ∀ y, (block size a).Has y → r.Has y → a % headerSize = r.lo % headerSize :=
      fun y hy => h.aligned a List.mem_cons_self y hy r hr
    rw [hblock] at hwhole
    simp only [List.mem_cons] at hc
    rcases hc with hc | hc | hc
    · rw [hc] at hx ⊢
      simp only [block, Interval.Has] at hx hwhole
      exact hwhole x ⟨hx.1, by omega⟩ hrx
    · rw [hc] at hx ⊢
      simp only [block, Interval.Has] at hx hwhole
      rw [← hwhole x ⟨by omega, by omega⟩ hrx, ← hb]
      simp only [headerSize]
      omega
    · rw [block, hsame c hc] at hx
      exact h.aligned c (List.mem_cons_of_mem a hc) x hx r hr hrx
  · exact h.once

/-- A new region above the others is a new block. -/
theorem Tiles.grow (h : Tiles size ns regions) (habove : ∀ r ∈ regions, r.lo + r.len ≤ a)
    (hsame : ∀ c ∈ ns, size' c = size c) : Tiles size' (a :: ns) (block size' a :: regions) := by
  have hfresh : ∀ x, (block size' a).Has x → ∀ r ∈ regions, ¬ r.Has x := by
    intro x hx r hr hrx
    have hend := habove r hr
    simp only [Interval.Has, block] at hx hrx
    omega
  constructor
  · intro x
    simp only [blocks, List.map_cons, cover_cons]
    rw [← blocks, blocks_congr hsame, h.cover x]
  · simp only [blocks, List.map_cons, total_cons]
    rw [← blocks, blocks_congr hsame, h.total]
  · intro c hc x hx r hr hrx
    rcases List.mem_cons.1 hc with hc | hc
    · rw [hc] at hx ⊢
      rcases List.mem_cons.1 hr with hr | hr
      · rw [hr]
        rfl
      · exact absurd hrx (hfresh x hx r hr)
    rw [block, hsame c hc] at hx
    rcases List.mem_cons.1 hr with hr | hr
    · rw [hr] at hrx
      obtain ⟨q, hq, hqx⟩ := h.inside hc hx
      exact absurd hqx (hfresh x hrx q hq)
    · exact h.aligned c hc x hx r hr hrx
  · intro x
    rw [cover_cons]
    by_cases hx : (block size' a).Has x
    · have hzero : IntervalCover.cover regions x = 0 := by
        by_contra hne
        obtain ⟨r, hr, hrx⟩ := has_of_cover (Nat.pos_of_ne_zero hne)
        exact hfresh x hx r hr hrx
      rw [count_has hx, hzero]
    have hnone : (block size' a).count x = 0 := if_neg hx
    rw [hnone, Nat.zero_add]
    exact h.once x

/-- Two blocks are together no larger than what was obtained. -/
theorem Tiles.pair_le (h : Tiles size (a :: b :: ns) regions) :
    headerSize * ((size a).toNat + (size b).toNat) ≤ IntervalCover.total regions := by
  rw [← h.total]
  simp only [blocks, List.map_cons, total_cons, block, Nat.mul_add]
  omega

end Tiles

/-- Each block ends before the next one starts. -/
def Spaced (stop : Nat → Nat) (l : List Nat) : Prop := l.IsChain fun a b => stop a < b

section Spaced

variable {stop stop' : Nat → Nat} {l xs ys : List Nat} {a b p : Nat}

theorem Spaced.mono (h : Spaced stop l) (hle : ∀ a ∈ l, stop' a ≤ stop a) : Spaced stop' l := by
  apply List.IsChain.imp_of_mem_imp _ h
  intro a b ha _ hlt
  exact Nat.lt_of_le_of_lt (hle a ha) hlt

theorem Spaced.congr (h : Spaced stop l) (hsame : ∀ a ∈ l, stop' a = stop a) : Spaced stop' l :=
  h.mono fun a ha => Nat.le_of_eq (hsame a ha)

/-- The list without one of its blocks. -/
theorem Spaced.skip (hstop : ∀ x, x ≤ stop x) (h : Spaced stop (a :: b :: l)) :
    Spaced stop (a :: l) := by
  have hchain := List.isChain_cons_cons.1 h
  refine List.isChain_cons.2 ⟨?_, List.IsChain.tail hchain.2⟩
  intro c hc
  have hbc := (List.isChain_cons.1 hchain.2).1 c hc
  exact Nat.lt_trans (Nat.lt_of_lt_of_le hchain.1 (hstop b)) hbc

/-- The blocks behind one of a spaced list are higher. -/
theorem Spaced.lt (hstop : ∀ x, x ≤ stop x) (h : Spaced stop (a :: l)) : ∀ b ∈ l, a < b := by
  induction l generalizing a with
  | nil =>
    intro b hb
    cases hb
  | cons c l ih =>
    intro b hb
    have hchain := List.isChain_cons_cons.1 h
    have hac : a < c := Nat.lt_of_le_of_lt (hstop a) hchain.1
    rcases List.mem_cons.1 hb with hb | hb
    · rw [hb]
      exact hac
    · exact Nat.lt_trans hac (ih hchain.2 b hb)

/-- The blocks from `p` on exchanged for others. -/
theorem Spaced.reroute (h : Spaced stop (xs ++ p :: ys)) (hsame : ∀ a ∈ xs, stop' a = stop a)
    (hrest : Spaced stop' (p :: l)) : Spaced stop' (xs ++ p :: l) := by
  induction xs with
  | nil => exact hrest
  | cons a xs ih =>
    have hlater := ih (List.IsChain.tail h) fun c hc => hsame c (List.mem_cons_of_mem a hc)
    refine List.isChain_cons.2 ⟨?_, hlater⟩
    intro y hy
    rw [hsame a List.mem_cons_self]
    apply (List.isChain_cons.1 h).1 y
    cases xs with
    | nil => exact hy
    | cons b xs => exact hy

theorem Spaced.nodup (hstop : ∀ x, x ≤ stop x) (h : Spaced stop l) : l.Nodup := by
  induction l with
  | nil => exact List.nodup_nil
  | cons a l ih =>
    refine List.nodup_cons.2 ⟨?_, ih (List.IsChain.tail h)⟩
    intro ha
    exact Nat.lt_irrefl a (Spaced.lt hstop h a ha)

end Spaced

section Join

variable {σ : Type} {h : Heap σ} {a b c e : Nat} {l rest : List Nat} {regions : List Interval}

theorem Heap.le_after (h : Heap σ) (a : Nat) : a ≤ h.after a := Nat.le_add_right _ _

theorem join_ptr_of_ne (hc : c ≠ a) : (h.join a b).ptr c = h.ptr c := by
  unfold Heap.join
  split
  · exact update_of_ne hc _ _
  · exact update_of_ne hc _ _

theorem join_size_of_ne (hc : c ≠ a) : (h.join a b).size c = h.size c := by
  unfold Heap.join
  split
  · exact update_of_ne hc _ _
  · rfl

theorem join_after_of_ne (hc : c ≠ a) : (h.join a b).after c = h.after c := by
  rw [Heap.after, Heap.after, join_size_of_ne hc]

@[simp] theorem join_base : (h.join a b).base = h.base := by
  unfold Heap.join
  split <;> rfl

@[simp] theorem join_os : (h.join a b).os = h.os := by
  unfold Heap.join
  split <;> rfl

theorem join_merge_size (heq : h.after a = b) : (h.join a b).size a = h.size a + h.size b := by
  rw [Heap.join, if_pos heq]
  exact update_self _ _ _

theorem join_merge_ptr (heq : h.after a = b) : (h.join a b).ptr a = h.ptr b := by
  rw [Heap.join, if_pos heq]
  exact update_self _ _ _

theorem join_link_size (hne : h.after a ≠ b) : (h.join a b).size = h.size := by
  rw [Heap.join, if_neg hne]

theorem join_link_ptr (hne : h.after a ≠ b) : (h.join a b).ptr a = b := by
  rw [Heap.join, if_neg hne]
  exact update_self _ _ _

/-- **Coalescing.**  Joined to a list that starts at or after its end, a block either takes
in the first block of the list or becomes its predecessor. -/
theorem join_spec (hpath : Path h.ptr b l e) (hspaced : Spaced h.after (b :: l))
    (hle : h.after a ≤ b) (hfresh : a ∉ b :: (l ++ rest))
    (htiles : Tiles h.size (a :: b :: (l ++ rest)) regions)
    (hlimit : total regions < headerSize * 2 ^ 32) :
    ∃ l', Path (h.join a b).ptr a l' e ∧ Spaced (h.join a b).after (a :: l') ∧
      Tiles (h.join a b).size (a :: (l' ++ rest)) regions ∧
      ((l' = l ∧ ((h.join a b).size a).toNat = (h.size a).toNat + (h.size b).toNat ∧
          h.after a = b) ∨
        (l' = b :: l ∧ (h.join a b).size = h.size)) := by
  have hother : ∀ c ∈ b :: (l ++ rest), c ≠ a := by
    intro c hc hca
    rw [hca] at hc
    exact hfresh hc
  have hlist : ∀ c ∈ b :: l, c ≠ a := by
    intro c hc
    apply hother c
    rcases List.mem_cons.1 hc with hc | hc
    · exact List.mem_cons.2 (.inl hc)
    · exact List.mem_cons_of_mem b (List.mem_append_left rest hc)
  by_cases heq : h.after a = b
  · have hsum : ((h.join a b).size a).toNat = (h.size a).toNat + (h.size b).toNat := by
      have hpair := htiles.pair_le
      rw [join_merge_size heq, UInt32.toNat_add]
      simp only [headerSize] at hpair hlimit
      omega
    have hend : (h.join a b).after a = h.after b := by
      rw [← heq] at hsum ⊢
      simp only [Heap.after] at hsum ⊢
      rw [hsum, Nat.mul_add, Nat.add_assoc]
    refine ⟨l, ?_, ?_, ?_, .inl ⟨rfl, hsum, heq⟩⟩
    · apply Path.restart hpath (join_merge_ptr heq)
      intro c hc
      exact join_ptr_of_ne (hlist c (List.mem_cons_of_mem b hc))
    · cases l with
      | nil => exact List.IsChain.singleton a
      | cons c l =>
        have hchain := List.isChain_cons_cons.1 hspaced
        refine List.isChain_cons_cons.2 ⟨?_, Spaced.congr hchain.2 ?_⟩
        · rw [hend]
          exact hchain.1
        · intro d hd
          exact join_after_of_ne (hlist d (List.mem_cons_of_mem b hd))
    · apply htiles.merge heq hsum
      intro c hc
      exact join_size_of_ne (hother c (List.mem_cons_of_mem b hc))
  · have hsize := join_link_size heq
    have hafter : (h.join a b).after = h.after := by
      funext c
      rw [Heap.after, Heap.after, hsize]
    refine ⟨b :: l, ⟨join_link_ptr heq, ?_⟩, ?_, ?_, .inr ⟨rfl, hsize⟩⟩
    · apply Path.frame hpath
      intro c hc
      exact join_ptr_of_ne (hlist c hc)
    · rw [hafter]
      exact List.isChain_cons_cons.2 ⟨Nat.lt_of_le_of_ne hle heq, hspaced⟩
    · rw [hsize]
      exact htiles

end Join

/-- The free list: from the static header through `fs` and back. -/
structure Ring {σ : Type} (h : Heap σ) (fs : List Nat) : Prop where
  path : Path h.ptr h.base fs h.base
  spaced : Spaced h.after (h.base :: fs)
  anchor : h.size h.base = 0
  start : h.freep ∈ h.base :: fs
  pos : ∀ a ∈ fs, 0 < (h.size a).toNat

section Ring

variable {σ : Type} {h : Heap σ} {fs post : List Nat} {bp p : Nat}

theorem Ring.base_lt (hr : Ring h fs) : ∀ a ∈ fs, h.base < a := Spaced.lt h.le_after hr.spaced

/-- Above the static header, the search of `free` has a place to end. -/
theorem exists_endsAt {a : Nat} {xs : List Nat} (hpath : Path h.ptr a xs h.base)
    (hlow : h.base ≤ a) (hspaced : Spaced h.after (a :: xs)) (hlt : a < bp) (hnew : bp ∉ xs) :
    ∃ p ∈ a :: xs, h.endsAt bp p = true := by
  induction xs generalizing a with
  | nil =>
    have hptr : h.ptr a = h.base := hpath
    refine ⟨a, List.mem_cons_self, ?_⟩
    simp only [Heap.endsAt, hptr, Bool.or_eq_true, Bool.and_eq_true, decide_eq_true_eq]
    exact .inr ⟨hlow, .inl hlt⟩
  | cons x xs ih =>
    obtain ⟨hx, hrest⟩ := hpath
    by_cases hbx : bp < x
    · refine ⟨a, List.mem_cons_self, ?_⟩
      simp only [Heap.endsAt, hx, Bool.or_eq_true, Bool.and_eq_true, decide_eq_true_eq]
      exact .inl ⟨hlt, hbx⟩
    have hne : bp ≠ x := fun heq => hnew (heq ▸ List.mem_cons_self)
    have hax : a < x := Spaced.lt h.le_after hspaced x List.mem_cons_self
    obtain ⟨p, hp, hends⟩ := ih hrest (by omega) (List.IsChain.tail hspaced) (by omega)
      fun hmem => hnew (List.mem_cons_of_mem x hmem)
    exact ⟨p, List.mem_cons_of_mem a hp, hends⟩

/-- Where the search ends, the block belongs: above `p` and below what follows. -/
theorem endsAt_place (hends : h.endsAt bp p = true) (hpath : Path h.ptr p post h.base)
    (hspaced : Spaced h.after (p :: post)) (hbase : h.base < bp) : p < bp ∧ ∀ q ∈ post, bp < q := by
  simp only [Heap.endsAt, Bool.or_eq_true, Bool.and_eq_true, decide_eq_true_eq] at hends
  cases post with
  | nil =>
    have hptr : h.ptr p = h.base := hpath
    rw [hptr] at hends
    refine ⟨by omega, ?_⟩
    intro q hq
    cases hq
  | cons q post =>
    have hptr : h.ptr p = q := hpath.1
    have hpq : p < q := Spaced.lt h.le_after hspaced q List.mem_cons_self
    rw [hptr] at hends
    refine ⟨by omega, ?_⟩
    intro r hr
    rcases List.mem_cons.1 hr with hr | hr
    · omega
    · have hqr := Spaced.lt h.le_after (List.IsChain.tail hspaced) r hr
      omega

/-- **The search of `free` ends**, with fuel for one round of the list. -/
theorem Ring.search_ends (hr : Ring h fs) (hbase : h.base < bp) (hnew : bp ∉ fs) :
    ∃ pre p post, h.base :: fs = pre ++ p :: post ∧ Path h.ptr p post h.base ∧ p < bp ∧
      (∀ q ∈ post, bp < q) ∧
      ∀ fuel, fs.length < fuel → search h.ptr (h.endsAt bp) fuel h.freep = some p := by
  obtain ⟨ys, hys, hperm⟩ := Path.rotate hr.path hr.start
  have hlen : ys.length = fs.length := by
    have := hperm.length_eq
    simpa using this
  obtain ⟨q, hq, hqends⟩ := exists_endsAt hr.path (Nat.le_refl _) hr.spaced hbase hnew
  obtain ⟨p, hp, hends, hfound⟩ := search_path hys ⟨q, hperm.mem_iff.2 hq, hqends⟩
  obtain ⟨pre, post, hsplit⟩ := List.append_of_mem (hperm.mem_iff.1 hp)
  have hpost : Path h.ptr p post h.base := Path.rest hr.path hsplit
  have hspaced : Spaced h.after (p :: post) := by
    have hall := hr.spaced
    rw [hsplit] at hall
    exact (List.isChain_append.1 hall).2.1
  have hplace := endsAt_place hends hpost hspaced hbase
  exact ⟨pre, p, post, hsplit, hpost, hplace.1, hplace.2, hlen ▸ hfound⟩

/-- The nodes of the free list are not live. -/
theorem Ring.not_live {live : List Nat} {regions : List Interval} (hr : Ring h fs)
    (htiles : Tiles h.size (h.base :: (fs ++ live)) regions)
    (hbase : ∀ a ∈ live, h.base < a) : ∀ p ∈ h.base :: fs, p ∉ live := by
  intro p hp hlive
  rcases List.mem_cons.1 hp with heq | hfs
  · have hlt := hbase p hlive
    omega
  obtain ⟨xs, ys, hxy⟩ := List.append_of_mem hfs
  have hfirst : (h.base :: (fs ++ live)).Perm (p :: (h.base :: (xs ++ (ys ++ live)))) := by
    rw [hxy]
    apply List.perm_iff_count.2
    intro x
    simp only [List.count_append, List.count_cons]
    omega
  apply (htiles.perm hfirst).not_mem (hr.pos p hfs)
  simp only [List.mem_cons, List.mem_append]
  exact .inr (.inr (.inr hlive))

end Ring

section Insert

variable {σ : Type} {h : Heap σ} {fs pre post rest live : List Nat} {bp p : Nat}
  {regions : List Interval}

/-- The first half of the coalescing: the freed block and what follows it in the list. -/
theorem join_rest (hpos : 0 < (h.size bp).toNat)
    (htiles : Tiles h.size (bp :: (post ++ rest)) regions)
    (hlimit : total regions < headerSize * 2 ^ 32) (hpath : Path h.ptr p post h.base)
    (hspaced : Spaced h.after post) (hfree : ∀ q ∈ post, 0 < (h.size q).toNat)
    (hbase : h.base < bp) (habove : ∀ q ∈ post, bp < q) :
    ∃ l, Path (h.join bp (h.ptr p)).ptr bp l h.base ∧
      Spaced (h.join bp (h.ptr p)).after (bp :: l) ∧
      Tiles (h.join bp (h.ptr p)).size (bp :: (l ++ rest)) regions ∧
      (∀ q ∈ l, q ∈ post) ∧
      (h.size bp).toNat ≤ ((h.join bp (h.ptr p)).size bp).toNat := by
  cases post with
  | nil =>
    have hptr : h.ptr p = h.base := hpath
    have hne : h.after bp ≠ h.base := by
      have := h.le_after bp
      omega
    rw [hptr]
    refine ⟨[], join_link_ptr hne, List.IsChain.singleton bp, ?_, ?_, ?_⟩
    · rw [join_link_size hne]
      exact htiles
    · intro q hq
      exact hq
    · rw [join_link_size hne]
  | cons q post =>
    obtain ⟨hptr, hrest⟩ := hpath
    rw [hptr]
    have hle : h.after bp ≤ q := htiles.end_le List.mem_cons_self
      (habove q List.mem_cons_self) (hfree q List.mem_cons_self)
    obtain ⟨l, hl, hspaced', htiles', hcase⟩ :=
      join_spec hrest hspaced hle (htiles.not_mem hpos) htiles hlimit
    refine ⟨l, hl, hspaced', htiles', ?_, ?_⟩
    · intro r hr
      rcases hcase with ⟨heq, _⟩ | ⟨heq, _⟩
      · rw [heq] at hr
        exact List.mem_cons_of_mem q hr
      · rw [heq] at hr
        exact hr
    · rcases hcase with ⟨_, hsum, _⟩ | ⟨_, hsame⟩
      · omega
      · rw [hsame]

/-- The state in which `free` leaves the allocator when its search ended at `p`. -/
def Heap.insert (h : Heap σ) (bp p : Nat) : Heap σ :=
  { (h.join bp (h.ptr p)).join p bp with freep := p }

theorem insert_ptr_of_ne {c : Nat} (hbp : c ≠ bp) (hp : c ≠ p) : (h.insert bp p).ptr c = h.ptr c :=
  (join_ptr_of_ne hp).trans (join_ptr_of_ne hbp)

theorem insert_size_of_ne {c : Nat} (hbp : c ≠ bp) (hp : c ≠ p) :
    (h.insert bp p).size c = h.size c :=
  (join_size_of_ne hp).trans (join_size_of_ne hbp)

/-- What the insertion of `bp` behind `p` makes of the list from `p` on, which was `post`:
now it is `l`. -/
structure Inserted (h : Heap σ) (bp p : Nat) (post rest l : List Nat)
    (regions : List Interval) : Prop where
  path : Path (h.insert bp p).ptr p l h.base
  spaced : Spaced (h.insert bp p).after (p :: l)
  tiles : Tiles (h.insert bp p).size (p :: (l ++ rest)) regions
  mem : ∀ q ∈ l, q = bp ∨ q ∈ post
  grows : ∀ c, (h.size c).toNat ≤ ((h.insert bp p).size c).toNat
  place : bp ∈ l ∧ (h.insert bp p).size p = h.size p ∨
    h.after p = bp ∧ (h.size bp).toNat ≤ ((h.insert bp p).size p).toNat

/-- **Insertion.**  Both halves of the coalescing, one after the other. -/
theorem insert_inserted (hpos : 0 < (h.size bp).toNat)
    (htiles : Tiles h.size (p :: bp :: (post ++ rest)) regions)
    (hlimit : total regions < headerSize * 2 ^ 32) (hpath : Path h.ptr p post h.base)
    (hspaced : Spaced h.after post) (hfree : ∀ q ∈ post, 0 < (h.size q).toNat)
    (hbase : h.base < bp) (hlt : p < bp) (habove : ∀ q ∈ post, bp < q) (hp : p ∉ rest) :
    ∃ l, Inserted h bp p post rest l regions := by
  have hswap : (p :: bp :: (post ++ rest)).Perm (bp :: (post ++ p :: rest)) := by
    apply List.perm_iff_count.2
    intro x
    simp only [List.count_append, List.count_cons]
    omega
  obtain ⟨l₁, hpath₁, hspaced₁, htiles₁, hsub, hgrow₁⟩ :=
    join_rest hpos (htiles.perm hswap) hlimit hpath hspaced hfree hbase habove
  have hback : (bp :: (l₁ ++ p :: rest)).Perm (p :: bp :: (l₁ ++ rest)) := by
    apply List.perm_iff_count.2
    intro x
    simp only [List.count_append, List.count_cons]
    omega
  have hpbp : p ≠ bp := Nat.ne_of_lt hlt
  have hsize₁ : (h.join bp (h.ptr p)).size p = h.size p := join_size_of_ne hpbp
  have hafter₁ : (h.join bp (h.ptr p)).after p = h.after p := join_after_of_ne hpbp
  have hle : (h.join bp (h.ptr p)).after p ≤ bp := by
    rw [hafter₁]
    exact htiles.end_le List.mem_cons_self hlt hpos
  have hfresh : p ∉ bp :: (l₁ ++ rest) := by
    simp only [List.mem_cons, List.mem_append, not_or]
    refine ⟨hpbp, ?_, hp⟩
    intro hin
    have habv := habove p (hsub p hin)
    omega
  obtain ⟨l, hpath₂, hspaced₂, htiles₂, hcase⟩ :=
    join_spec hpath₁ hspaced₁ hle hfresh (htiles₁.perm hback) hlimit
  have hbp₂ : (h.insert bp p).size bp = (h.join bp (h.ptr p)).size bp := join_size_of_ne hpbp.symm
  refine ⟨l, hpath₂, hspaced₂, htiles₂, ?_, ?_, ?_⟩
  · intro q hq
    rcases hcase with ⟨heq, _⟩ | ⟨heq, _⟩
    · rw [heq] at hq
      exact .inr (hsub q hq)
    rw [heq] at hq
    rcases List.mem_cons.1 hq with hq | hq
    · exact .inl hq
    · exact .inr (hsub q hq)
  · intro c
    by_cases hc : c = bp
    · rw [hc, hbp₂]
      exact hgrow₁
    by_cases hcp : c = p
    · rw [hcp, ← hsize₁]
      rcases hcase with ⟨_, hsum, _⟩ | ⟨_, hsame⟩
      · exact Nat.le_trans (Nat.le_add_right _ _) (Nat.le_of_eq hsum.symm)
      · exact Nat.le_of_eq (congrArg UInt32.toNat (congrFun hsame p).symm)
    · rw [insert_size_of_ne hc hcp]
  · rcases hcase with ⟨_, hsum, heq⟩ | ⟨heq, hsame⟩
    · refine .inr ⟨hafter₁ ▸ heq, ?_⟩
      exact Nat.le_trans hgrow₁ (Nat.le_trans (Nat.le_add_left _ _) (Nat.le_of_eq hsum.symm))
    · refine .inl ⟨by rw [heq]; exact List.mem_cons_self, ?_⟩
      exact (congrFun hsame p).trans hsize₁

theorem free_run {fuel : Nat} (hfound : search h.ptr (h.endsAt bp) fuel h.freep = some p) :
    free fuel (bp + headerSize) h = .ok ((), h.insert bp p) := by
  rw [free, run_get, Nat.add_sub_cancel, hfound]
  rfl

/-- A live block inserted where the search ended becomes part of the free list; the other
live blocks keep their sizes. -/
theorem insert_spec (hr : Ring h fs) (htiles : Tiles h.size (h.base :: (fs ++ bp :: live)) regions)
    (hlimit : total regions < headerSize * 2 ^ 32) (hpos : 0 < (h.size bp).toNat)
    (hbase : ∀ a ∈ bp :: live, h.base < a) (hsplit : h.base :: fs = pre ++ p :: post)
    (hpath : Path h.ptr p post h.base) (hlt : p < bp) (habove : ∀ q ∈ post, bp < q) :
    ∃ fs', Ring (h.insert bp p) fs' ∧
      Tiles (h.insert bp p).size (h.base :: (fs' ++ live)) regions ∧
      (∀ a ∈ live, (h.insert bp p).size a = h.size a) ∧
      ∃ a ∈ fs', (h.size bp).toNat ≤ ((h.insert bp p).size a).toNat := by
  have hring : Spaced h.after (pre ++ p :: post) := hsplit ▸ hr.spaced
  have hnodup : (pre ++ p :: post).Nodup := Spaced.nodup h.le_after hring
  have hpre : p ∉ pre := fun hin => (List.nodup_append.1 hnodup).2.2 p hin p List.mem_cons_self rfl
  have hmem : ∀ a ∈ pre ++ p :: post, a = h.base ∨ a ∈ fs := by
    intro a ha
    rw [← hsplit] at ha
    exact List.mem_cons.1 ha
  have hbp : h.base < bp := hbase bp List.mem_cons_self
  -- what follows `p` is above `bp`, so none of it is the static header
  have hfree : ∀ q ∈ post, q ∈ fs := by
    intro q hq
    have hq' := habove q hq
    rcases hmem q (List.mem_append_right pre (List.mem_cons_of_mem p hq)) with heq | hfs
    · omega
    · exact hfs
  have hapart : ∀ c ∈ pre ++ p :: post, c ≠ bp ∧ c ∉ live := by
    intro c hc
    have hout := hr.not_live htiles hbase c (hsplit ▸ hc)
    rw [List.mem_cons, not_or] at hout
    exact hout
  have hp : p ∈ pre ++ p :: post := List.mem_append_right pre List.mem_cons_self
  have hnodes : (h.base :: (fs ++ bp :: live)).Perm (p :: bp :: (post ++ (pre ++ live))) := by
    rw [← List.cons_append, hsplit]
    apply List.perm_iff_count.2
    intro x
    simp only [List.count_append, List.count_cons]
    omega
  have hothers : p ∉ pre ++ live := by
    rw [List.mem_append, not_or]
    exact ⟨hpre, (hapart p hp).2⟩
  obtain ⟨l, hl⟩ := insert_inserted hpos (htiles.perm hnodes) hlimit hpath
    (List.IsChain.tail (List.isChain_append.1 hring).2.1)
    (fun q hq => hr.pos q (hfree q hq)) hbp hlt habove hothers
  have hother : ∀ c ∈ pre, c ≠ bp ∧ c ≠ p := by
    intro c hc
    exact ⟨(hapart c (List.mem_append_left _ hc)).1, fun heq => hpre (heq ▸ hc)⟩
  obtain ⟨fs', hfs', hpath'⟩ := Path.reroute hr.path hsplit
    (fun c hc => insert_ptr_of_ne (hother c hc).1 (hother c hc).2) hl.path
  have hspaced' : Spaced (h.insert bp p).after (h.base :: fs') := by
    rw [hfs']
    apply Spaced.reroute hring _ hl.spaced
    intro c hc
    rw [Heap.after, Heap.after, insert_size_of_ne (hother c hc).1 (hother c hc).2]
  have hlow : ∀ a ∈ fs', h.base < a := Spaced.lt (h.insert bp p).le_after hspaced'
  have hmem' : ∀ a, a ≠ h.base → a ∈ pre ++ p :: l → a ∈ fs' := by
    intro a hne ha
    rw [← hfs'] at ha
    exact (List.mem_cons.1 ha).resolve_left hne
  have hend : h.after h.base = h.base := by
    rw [Heap.after, hr.anchor]
    rfl
  have hanchor : (h.insert bp p).size h.base = 0 := by
    by_cases hpb : h.base = p
    · rcases hl.place with ⟨_, hsame⟩ | ⟨heq, _⟩
      · rw [hpb, hsame, ← hpb]
        exact hr.anchor
      · rw [← hpb, hend] at heq
        omega
    · rw [insert_size_of_ne (Nat.ne_of_lt hbp) hpb]
      exact hr.anchor
  have hbase' : (h.insert bp p).base = h.base := by
    simp only [Heap.insert, join_base]
  refine ⟨fs', ⟨?_, ?_, ?_, ?_, ?_⟩, ?_, ?_, ?_⟩
  · rw [hbase']
    exact hpath'
  · rw [hbase']
    exact hspaced'
  · rw [hbase']
    exact hanchor
  · rw [hbase', hfs']
    exact List.mem_append_right pre List.mem_cons_self
  · intro a ha
    have hold : a ∈ fs ∨ a = bp := by
      have hin : a ∈ pre ++ p :: l := hfs' ▸ List.mem_cons_of_mem h.base ha
      have hne : a ≠ h.base := (Nat.ne_of_lt (hlow a ha)).symm
      have hcases : a ∈ pre ++ p :: post ∨ a = bp := by
        simp only [List.mem_append, List.mem_cons] at hin ⊢
        rcases hin with hin | hin | hin
        · exact .inl (.inl hin)
        · exact .inl (.inr (.inl hin))
        · rcases hl.mem a hin with hin | hin
          · exact .inr hin
          · exact .inl (.inr (.inr hin))
      rcases hcases with hin | hin
      · exact .inl ((hmem a hin).resolve_left hne)
      · exact .inr hin
    rcases hold with hfs | heq
    · exact Nat.lt_of_lt_of_le (hr.pos a hfs) (hl.grows a)
    · rw [heq]
      exact Nat.lt_of_lt_of_le hpos (hl.grows bp)
  · apply hl.tiles.perm
    have hback : (p :: (l ++ (pre ++ live))).Perm ((pre ++ p :: l) ++ live) := by
      apply List.perm_iff_count.2
      intro x
      simp only [List.count_append, List.count_cons]
      omega
    rw [← hfs'] at hback
    exact hback
  · intro a ha
    apply insert_size_of_ne
    · intro heq
      have hswap : (h.base :: (fs ++ bp :: live)).Perm (bp :: (h.base :: (fs ++ live))) := by
        apply List.perm_iff_count.2
        intro x
        simp only [List.count_append, List.count_cons]
        omega
      apply (htiles.perm hswap).not_mem hpos
      rw [← heq]
      exact List.mem_cons_of_mem _ (List.mem_append_right fs ha)
    · intro heq
      exact (hapart p hp).2 (heq ▸ ha)
  · rcases hl.place with ⟨hin, _⟩ | ⟨heq, hle⟩
    · refine ⟨bp, hmem' bp (Nat.ne_of_lt hbp).symm ?_, hl.grows bp⟩
      exact List.mem_append_right pre (List.mem_cons_of_mem p hin)
    · refine ⟨p, hmem' p ?_ (List.mem_append_right pre List.mem_cons_self), hle⟩
      intro hpb
      rw [hpb, hend] at heq
      omega

end Insert

end Kus.Umalloc
