import KusOs.UmallocInvariant

/-!
# What the allocator's functions keep

`Inv h fs live` says that the free list is the ring through the headers `fs` and that
these blocks and the live ones, at `live`, cover the regions obtained.

* `free_spec` — `free` moves a live block to the free list;
* `morecore_spec` — a new region joins the free list;
* `take_spec` — the block handed out moves from the free list to the live blocks;
* `scan_fits`, `scan_grows` — the loop of `malloc` goes once round the list and ends at a
  block that is large enough, or asks for more memory;
* `malloc_spec` — `malloc` returns and keeps the invariant.
-/

namespace Kus.Umalloc

open Function Hoare IntervalCover PointerRing

/-- The allocator's invariant: the free list is the ring through `fs`, and the blocks at
`fs` and at `live` cover the regions. -/
structure Inv (h : Heap Break) (fs live : List Nat) : Prop where
  ring : Ring h fs
  tiles : Tiles h.size (h.base :: (fs ++ live)) h.os.regions
  livePos : ∀ a ∈ live, 0 < (h.size a).toNat
  room : total h.os.regions + h.os.room < headerSize * 2 ^ 32
  above : ∀ r ∈ h.os.regions, h.base + headerSize ≤ r.lo ∧ r.lo + r.len ≤ h.os.top
  based : 0 < h.base ∧ h.base + headerSize ≤ h.os.top

section Calls

variable {h : Heap Break} {fs live : List Nat} {bp : Nat}

theorem Inv.limit (hi : Inv h fs live) : total h.os.regions < headerSize * 2 ^ 32 := by
  have := hi.room
  omega

/-- The blocks lie above the static header. -/
theorem Inv.above_base (hi : Inv h fs live) {a : Nat} (ha : a ∈ h.base :: (fs ++ live))
    (hpos : 0 < (h.size a).toNat) : h.base + headerSize ≤ a := by
  obtain ⟨r, hr, hra⟩ := hi.tiles.inside ha (block_has_self hpos)
  exact Nat.le_trans (hi.above r hr).1 hra.1

theorem Inv.live_above (hi : Inv h fs live) : ∀ a ∈ live, h.base < a := by
  intro a ha
  have hle := hi.above_base (List.mem_cons_of_mem _ (List.mem_append_right fs ha)) (hi.livePos a ha)
  simp only [headerSize] at hle
  omega

/-- **`free`.**  With fuel for one round of the list, `free` returns; the block is then
part of the free list and the other live blocks are as before. -/
theorem free_spec (hi : Inv h fs (bp :: live)) :
    ∃ h' fs', (∀ fuel, fs.length < fuel → free fuel (bp + headerSize) h = .ok ((), h')) ∧
      Inv h' fs' live ∧ (∀ a ∈ live, h'.size a = h.size a) ∧ h'.os = h.os ∧
      ∃ a ∈ fs', (h.size bp).toNat ≤ (h'.size a).toNat := by
  have hpos := hi.livePos bp List.mem_cons_self
  have hbase := hi.live_above bp List.mem_cons_self
  have hnew : bp ∉ fs := by
    intro hin
    exact hi.ring.not_live hi.tiles hi.live_above bp (List.mem_cons_of_mem _ hin) List.mem_cons_self
  obtain ⟨pre, p, post, hsplit, hpath, hlt, habove, hfound⟩ := hi.ring.search_ends hbase hnew
  obtain ⟨fs', hring, htiles, hsame, hlarge⟩ := insert_spec hi.ring hi.tiles hi.limit hpos
    hi.live_above hsplit hpath hlt habove
  have hos : (h.insert bp p).os = h.os := by simp only [Heap.insert, join_os]
  have hbase' : (h.insert bp p).base = h.base := by simp only [Heap.insert, join_base]
  refine ⟨h.insert bp p, fs', ?_, ⟨hring, ?_, ?_, ?_, ?_, ?_⟩, hsame, hos, hlarge⟩
  · intro fuel hfuel
    exact free_run (hfound fuel hfuel)
  · rw [hos, hbase']
    exact htiles
  · intro a ha
    rw [hsame a ha]
    exact hi.livePos a (List.mem_cons_of_mem bp ha)
  · rw [hos]
    exact hi.room
  · rw [hos, hbase']
    exact hi.above
  · rw [hos, hbase']
    exact hi.based

/-- The nodes of the ring lie below what the next region can hold. -/
theorem Inv.below_top (hi : Inv h fs live) : ∀ a ∈ h.base :: (fs ++ live), a < h.os.top := by
  intro a ha
  by_cases hpos : 0 < (h.size a).toNat
  · obtain ⟨r, hr, hra⟩ := hi.tiles.inside ha (block_has_self hpos)
    exact Nat.lt_of_lt_of_le hra.2 (hi.above r hr).2
  have hbase := hi.based.2
  simp only [headerSize] at hbase
  rcases List.mem_cons.1 ha with heq | hin
  · omega
  rcases List.mem_append.1 hin with hfs | hlive
  · exact absurd (hi.ring.pos a hfs) hpos
  · exact absurd (hi.livePos a hlive) hpos

theorem sbrkArg_eq {nu : UInt32} (hfit : nu.toNat * headerSize < 2 ^ 31) :
    sbrkArg nu = ((nu.toNat * headerSize : Nat) : Int) := by
  rw [sbrkArg, BitVec.toInt_ofNat']
  apply Int.bmod_eq_of_le
  · omega
  · omega

theorem sbrk_some {b : Break} {n : Int} {g : Nat} (hgap : b.gap b.calls = some g)
    (hask : 0 < n ∧ n.toNat ≤ b.room) : sbrk n b = (some (b.top + g), b.grow g n.toNat) := by
  simp only [sbrk, hgap]
  exact if_pos hask

/-- A region that `sbrk` has just given, as a live block. -/
theorem Inv.obtain (hi : Inv h fs live) (g : Nat) {nu : UInt32} (hpos : 0 < nu.toNat)
    (hroom : nu.toNat * headerSize ≤ h.os.room) :
    Inv { h with
        os := h.os.grow g (nu.toNat * headerSize)
        size := update h.size (h.os.top + g) nu }
      fs ((h.os.top + g) :: live) := by
  have hsame : ∀ c ∈ h.base :: (fs ++ live),
      update h.size (h.os.top + g) nu c = h.size c := by
    intro c hc
    have hlt := hi.below_top c hc
    exact update_of_ne (by omega) _ _
  have hring : ∀ c ∈ h.base :: fs, update h.size (h.os.top + g) nu c = h.size c := by
    intro c hc
    apply hsame c
    rcases List.mem_cons.1 hc with hc | hc
    · exact List.mem_cons.2 (.inl hc)
    · exact List.mem_cons_of_mem _ (List.mem_append_left live hc)
  have hnew : update h.size (h.os.top + g) nu (h.os.top + g) = nu := update_self _ _ _
  constructor
  · refine ⟨hi.ring.path, ?_, ?_, hi.ring.start, ?_⟩
    · apply Spaced.congr hi.ring.spaced
      intro c hc
      simp only [Heap.after]
      rw [hring c hc]
    · exact (hring h.base List.mem_cons_self).trans hi.ring.anchor
    · intro a ha
      simp only
      rw [hring a (List.mem_cons_of_mem _ ha)]
      exact hi.ring.pos a ha
  · have habove : ∀ r ∈ h.os.regions, r.lo + r.len ≤ h.os.top + g :=
      fun r hr => Nat.le_trans (hi.above r hr).2 (Nat.le_add_right _ _)
    have hgrown := hi.tiles.grow habove hsame
    have hregion : block (update h.size (h.os.top + g) nu) (h.os.top + g) =
        ⟨h.os.top + g, nu.toNat * headerSize⟩ := by
      rw [block, hnew, Nat.mul_comm]
    rw [hregion] at hgrown
    apply hgrown.perm
    apply List.perm_iff_count.2
    intro x
    simp only [List.count_append, List.count_cons]
    omega
  · intro a ha
    simp only
    rcases List.mem_cons.1 ha with heq | hlive
    · rw [heq, hnew]
      exact hpos
    · rw [hsame a (List.mem_cons_of_mem _ (List.mem_append_right fs hlive))]
      exact hi.livePos a hlive
  · have hlimit := hi.room
    simp only [Break.grow, total_cons]
    omega
  · intro r hr
    have hbase := hi.based.2
    rcases List.mem_cons.1 hr with heq | hold
    · rw [heq]
      simp only [Break.grow]
      omega
    have hrange := hi.above r hold
    simp only [Break.grow]
    omega
  · have hbase := hi.based
    simp only [Break.grow]
    omega

theorem le_coreUnits (n : UInt32) : n.toNat ≤ (coreUnits n).toNat := by
  unfold coreUnits
  split
  · rename_i hlt
    exact Nat.le_of_lt (UInt32.lt_iff_toNat_lt.1 hlt)
  · exact Nat.le_refl _

theorem coreUnits_fits {n : UInt32} (hfit : n.toNat * headerSize < 2 ^ 31) :
    (coreUnits n).toNat * headerSize < 2 ^ 31 := by
  unfold coreUnits
  split
  · decide
  · exact hfit

theorem morecore_fails {σ : Type} {sbrk : Int → σ → Option Nat × σ} {h : Heap σ} {os : σ}
    {limit : Nat} {n : UInt32} (hcall : sbrk (sbrkArg (coreUnits n)) h.os = (none, os)) :
    morecore sbrk limit n h = .ok (none, { h with os }) := by
  unfold morecore
  rw [run_get, hcall]
  rfl

theorem morecore_frees {σ : Type} {sbrk : Int → σ → Option Nat × σ} {h h' : Heap σ} {os : σ}
    {limit p : Nat} {n : UInt32} (hcall : sbrk (sbrkArg (coreUnits n)) h.os = (some p, os))
    (hfree : free limit (p + headerSize)
      { h with os, size := update h.size p (coreUnits n) } = .ok ((), h')) :
    morecore sbrk limit n h = .ok (some h'.freep, h') := by
  unfold morecore
  rw [run_get, hcall]
  exact (run_bind_ok rfl).trans (run_bind_ok hfree)

/-- **`morecore`.**  It fails and the allocator is as before, or a block large enough for
the request joins the free list. -/
theorem morecore_spec (hi : Inv h fs live) {n : UInt32} (hpos : 0 < n.toNat)
    (hfit : n.toNat * headerSize < 2 ^ 31) :
    (∃ os, Inv { h with os } fs live ∧
      ∀ limit, morecore sbrk limit n h = .ok (none, { h with os })) ∨
    ∃ h' fs', Inv h' fs' live ∧ (∀ a ∈ live, h'.size a = h.size a) ∧
      (∃ a ∈ fs', n.toNat ≤ (h'.size a).toNat) ∧
      ∀ limit, fs.length < limit → morecore sbrk limit n h = .ok (some h'.freep, h') := by
  have harg := sbrkArg_eq (coreUnits_fits hfit)
  have hle := le_coreUnits n
  have hfails : ∀ os, os = { h.os with calls := h.os.calls + 1 } → Inv { h with os } fs live := by
    intro os hos
    rw [hos]
    exact ⟨⟨hi.ring.path, hi.ring.spaced, hi.ring.anchor, hi.ring.start, hi.ring.pos⟩,
      hi.tiles, hi.livePos, hi.room, hi.above, hi.based⟩
  cases hgap : h.os.gap h.os.calls with
  | none =>
    left
    refine ⟨_, hfails _ rfl, ?_⟩
    intro limit
    apply morecore_fails
    rw [sbrk, hgap]
  | some g =>
    by_cases hroom : (coreUnits n).toNat * headerSize ≤ h.os.room
    · right
      have hcore : 0 < (coreUnits n).toNat := Nat.lt_of_lt_of_le hpos hle
      have hnew := hi.obtain g hcore hroom
      obtain ⟨h', fs', hrun, hi', hsame, _, a, ha, hlarge⟩ := free_spec hnew
      refine ⟨h', fs', hi', ?_, ⟨a, ha, ?_⟩, ?_⟩
      · intro c hc
        rw [hsame c hc]
        have hlt := hi.below_top c (List.mem_cons_of_mem _ (List.mem_append_right fs hc))
        exact update_of_ne (by omega) _ _
      · simp only [update_self] at hlarge
        exact Nat.le_trans hle hlarge
      · intro limit hlimit
        refine morecore_frees ?_ (hrun limit hlimit)
        have hask : 0 < sbrkArg (coreUnits n) ∧ (sbrkArg (coreUnits n)).toNat ≤ h.os.room := by
          rw [harg, Int.toNat_natCast]
          refine ⟨?_, hroom⟩
          simp only [headerSize]
          omega
        rw [sbrk_some hgap hask, harg, Int.toNat_natCast]
    · left
      refine ⟨_, hfails _ rfl, ?_⟩
      intro limit
      apply morecore_fails
      have hask : ¬ (0 < sbrkArg (coreUnits n) ∧
          (sbrkArg (coreUnits n)).toNat ≤ h.os.room) := by
        rw [harg, Int.toNat_natCast]
        exact fun hboth => hroom hboth.2
      simp only [sbrk, hgap]
      rw [if_neg hask]

end Calls

section Take

variable {h : Heap Break} {fs live pre post : List Nat} {p prevp : Nat} {n : UInt32}

/-- A node whose successor has a size is followed by a free block. -/
theorem Ring.next_block (hr : Ring h fs) (hprev : prevp ∈ h.base :: fs)
    (hpos : 0 < (h.size (h.ptr prevp)).toNat) :
    ∃ pre post, h.base :: fs = pre ++ prevp :: h.ptr prevp :: post := by
  obtain ⟨pre, post, hsplit⟩ := List.append_of_mem hprev
  have hpath := Path.rest hr.path hsplit
  cases post with
  | nil =>
    have hptr : h.ptr prevp = h.base := hpath
    rw [hptr, hr.anchor] at hpos
    cases hpos
  | cons q post =>
    have hptr : h.ptr prevp = q := hpath.1
    rw [hptr]
    exact ⟨pre, post, hsplit⟩

/-- The block behind `prevp`, unlinked. -/
theorem Inv.unlink (hi : Inv h fs live) (hsplit : h.base :: fs = pre ++ prevp :: p :: post)
    (hp : p ∈ fs) :
    ∃ fs', Inv { h with ptr := update h.ptr prevp (h.ptr p), freep := prevp }
      fs' (p :: live) := by
  have hring : Spaced h.after (pre ++ prevp :: p :: post) := hsplit ▸ hi.ring.spaced
  have hnodup := Spaced.nodup h.le_after hring
  have hprevp := (List.nodup_cons.1 (List.nodup_append.1 hnodup).2.1).1
  have hpath := (Path.rest hi.ring.path hsplit).2
  have hrest : Path (update h.ptr prevp (h.ptr p)) prevp post h.base := by
    apply Path.restart hpath (update_self _ _ _)
    intro c hc
    apply update_of_ne
    intro heq
    exact hprevp (heq ▸ List.mem_cons_of_mem p hc)
  obtain ⟨fs', hfs', hpath'⟩ := Path.reroute hi.ring.path hsplit
    (fun c hc => update_of_ne
      (fun heq => (List.nodup_append.1 hnodup).2.2 c hc prevp List.mem_cons_self heq) _ _) hrest
  have hspaced' : Spaced h.after (h.base :: fs') := by
    rw [hfs']
    apply Spaced.reroute hring
    · intro c _
      rfl
    · exact .skip h.le_after (List.isChain_append.1 hring).2.1
  have hsub : ∀ a ∈ fs', a ∈ fs := by
    intro a ha
    have hne : a ≠ h.base := (Nat.ne_of_lt (Spaced.lt h.le_after hspaced' a ha)).symm
    have hin : a ∈ pre ++ prevp :: post := hfs' ▸ List.mem_cons_of_mem h.base ha
    have hold : a ∈ h.base :: fs := by
      rw [hsplit]
      simp only [List.mem_append, List.mem_cons] at hin ⊢
      rcases hin with hin | hin | hin
      · exact .inl hin
      · exact .inr (.inl hin)
      · exact .inr (.inr (.inr hin))
    exact (List.mem_cons.1 hold).resolve_left hne
  refine ⟨fs', ⟨hpath', hspaced', hi.ring.anchor, ?_, ?_⟩, ?_, ?_, hi.room, hi.above, hi.based⟩
  · change prevp ∈ h.base :: fs'
    rw [hfs']
    exact List.mem_append_right pre List.mem_cons_self
  · intro a ha
    exact hi.ring.pos a (hsub a ha)
  · apply hi.tiles.perm
    have hmove : ((pre ++ prevp :: p :: post) ++ live).Perm
        ((pre ++ prevp :: post) ++ p :: live) := by
      apply List.perm_iff_count.2
      intro x
      simp only [List.count_append, List.count_cons]
      omega
    rw [← hsplit, ← hfs'] at hmove
    exact hmove
  · intro a ha
    rcases List.mem_cons.1 ha with heq | hlive
    · rw [heq]
      exact hi.ring.pos p hp
    · exact hi.livePos a hlive

/-- The end of a free block, cut off. -/
theorem Inv.cut (hi : Inv h fs live) (hprev : prevp ∈ h.base :: fs) (hp : p ∈ fs) (left : UInt32)
    (hsum : (h.size p).toNat = left.toNat + n.toNat) (hleft : 0 < left.toNat) (hpos : 0 < n.toNat) :
    Inv { h with
        size := update (update h.size p left) (p + headerSize * left.toNat) n
        freep := prevp }
      fs ((p + headerSize * left.toNat) :: live) ∧
    ∀ c ∈ live, update (update h.size p left) (p + headerSize * left.toNat) n c =
      h.size c := by
  generalize htail : p + headerSize * left.toNat = tail
  have hne : p ≠ tail := by
    simp only [headerSize] at htail
    omega
  obtain ⟨xs, ys, hxy⟩ := List.append_of_mem hp
  have hfirst : (h.base :: (fs ++ live)).Perm (p :: (h.base :: (xs ++ (ys ++ live)))) := by
    rw [hxy]
    apply List.perm_iff_count.2
    intro x
    simp only [List.count_append, List.count_cons]
    omega
  have htiles := hi.tiles.perm hfirst
  have hinside : (block h.size p).Has tail := by
    simp only [Interval.Has, block, hsum, headerSize] at htail ⊢
    omega
  -- no other header is where the new one is written
  have hother : ∀ c ∈ h.base :: (xs ++ (ys ++ live)), c ≠ tail ∧ c ≠ p := by
    intro c hc
    have hin : c ∈ h.base :: (fs ++ live) := hfirst.mem_iff.2 (List.mem_cons_of_mem p hc)
    have hcp : c ≠ p := fun heq => htiles.not_mem (hi.ring.pos p hp) (heq ▸ hc)
    refine ⟨?_, hcp⟩
    intro heq
    by_cases hcpos : 0 < (h.size c).toNat
    · exact htiles.ne_inside hc hcpos (heq ▸ hinside)
    have hbase : c = h.base := by
      rcases List.mem_cons.1 hin with hin | hin
      · exact hin
      rcases List.mem_append.1 hin with hin | hin
      · exact absurd (hi.ring.pos c hin) hcpos
      · exact absurd (hi.livePos c hin) hcpos
    have hlow := hi.ring.base_lt p hp
    have hle := hinside.1
    simp only [block] at hle
    omega
  generalize hsize' : update (update h.size p left) tail n = size'
  have hsame : ∀ c ∈ h.base :: (xs ++ (ys ++ live)), size' c = h.size c := by
    intro c hc
    rw [← hsize', update_of_ne (hother c hc).1, update_of_ne (hother c hc).2]
  have hsizep : size' p = left := by
    rw [← hsize', update_of_ne hne, update_self]
  have hsizet : size' tail = n := by
    rw [← hsize', update_self]
  have hring : ∀ c ∈ h.base :: fs, c ≠ p → size' c = h.size c := by
    intro c hc hcp
    apply hsame
    simp only [hxy, List.mem_cons, List.mem_append] at hc ⊢
    rcases hc with hc | hc | hc | hc
    · exact .inl hc
    · exact .inr (.inl hc)
    · exact absurd hc hcp
    · exact .inr (.inr (.inl hc))
  have hlive : ∀ c ∈ live, size' c = h.size c := by
    intro c hc
    apply hsame
    simp only [List.mem_cons, List.mem_append]
    exact .inr (.inr (.inr hc))
  have hbasep : h.base ≠ p := Nat.ne_of_lt (hi.ring.base_lt p hp)
  refine ⟨⟨⟨hi.ring.path, ?_, ?_, hprev, ?_⟩, ?_, ?_, hi.room, hi.above, hi.based⟩, hlive⟩
  · apply Spaced.mono hi.ring.spaced
    intro c hc
    simp only [Heap.after]
    by_cases hcp : c = p
    · rw [hcp, hsizep, hsum, Nat.mul_add]
      omega
    · rw [hring c hc hcp]
  · exact (hring h.base List.mem_cons_self hbasep).trans hi.ring.anchor
  · intro a ha
    simp only
    by_cases hap : a = p
    · rw [hap, hsizep]
      exact hleft
    · rw [hring a (List.mem_cons_of_mem _ ha) hap]
      exact hi.ring.pos a ha
  · have hcut : Tiles size' (p :: tail :: (h.base :: (xs ++ (ys ++ live)))) h.os.regions := by
      apply htiles.split _ _ hsame
      · rw [hsizep, hsizet]
        exact hsum
      · rw [hsizep]
        exact htail
    apply hcut.perm
    rw [hxy]
    apply List.perm_iff_count.2
    intro x
    simp only [List.count_append, List.count_cons]
    omega
  · intro a ha
    simp only
    rcases List.mem_cons.1 ha with heq | hin
    · rw [heq, hsizet]
      exact hpos
    · rw [hlive a hin]
      exact hi.livePos a hin

/-- **Handing out a block.**  The block behind `prevp`, or its end, becomes live. -/
theorem take_spec (hi : Inv h fs live) (hprev : prevp ∈ h.base :: fs) (hpos : 0 < n.toNat)
    (hfit : n ≤ h.size (h.ptr prevp)) :
    ∃ a h' fs', h.take n prevp (h.ptr prevp) = (a + headerSize, h') ∧ Inv h' fs' (a :: live) ∧
      h'.size a = n ∧ ∀ c ∈ live, h'.size c = h.size c := by
  have hle : n.toNat ≤ (h.size (h.ptr prevp)).toNat := UInt32.le_iff_toNat_le.1 hfit
  obtain ⟨pre, post, hsplit⟩ := hi.ring.next_block hprev (by omega)
  have hmem : h.ptr prevp ∈ h.base :: fs := by
    rw [hsplit]
    exact List.mem_append_right pre (List.mem_cons_of_mem _ List.mem_cons_self)
  have hp : h.ptr prevp ∈ fs := by
    refine (List.mem_cons.1 hmem).resolve_left ?_
    intro heq
    rw [heq, hi.ring.anchor] at hle
    exact absurd hle (by simp only [UInt32.toNat_zero]; omega)
  by_cases heq : h.size (h.ptr prevp) = n
  · obtain ⟨fs', hi'⟩ := hi.unlink hsplit hp
    refine ⟨h.ptr prevp, _, fs', ?_, hi', heq, fun c _ => rfl⟩
    rw [Heap.take, if_pos heq]
  have hdiff := UInt32.toNat_sub_of_le _ _ hfit
  have hne : (h.size (h.ptr prevp)).toNat ≠ n.toNat := fun h' => heq (UInt32.toNat_inj.1 h')
  obtain ⟨hi', hlive⟩ := hi.cut hprev hp (h.size (h.ptr prevp) - n) (by omega) (by omega) hpos
  refine ⟨_, _, fs, ?_, hi', update_self _ _ _, hlive⟩
  rw [Heap.take, if_neg heq]

end Take

section Malloc

variable {σ : Type} {sbrk : Int → σ → Option Nat × σ} {limit fuel prevp p : Nat} {n : UInt32}
  {h : Heap σ} {xs : List Nat}

theorem mallocLoop_take (hfit : n ≤ h.size p) :
    mallocLoop sbrk limit n (fuel + 1) prevp p h = .ok (h.take n prevp p) := by
  rw [mallocLoop, run_get, if_pos hfit]
  rfl

theorem mallocLoop_next (hfit : ¬ n ≤ h.size p) (hp : p ≠ h.freep) :
    mallocLoop sbrk limit n (fuel + 1) prevp p h =
      mallocLoop sbrk limit n fuel p (h.ptr p) h := by
  rw [mallocLoop, run_get, if_neg hfit, if_neg hp]

theorem mallocLoop_fails {h' : Heap σ} (hfit : ¬ n ≤ h.size p) (hp : p = h.freep)
    (hmore : morecore sbrk limit n h = .ok (none, h')) :
    mallocLoop sbrk limit n (fuel + 1) prevp p h = .ok (0, h') := by
  rw [mallocLoop, run_get, if_neg hfit, if_pos hp, run_bind_ok hmore]
  rfl

theorem mallocLoop_grows {h' : Heap σ} {q : Nat} (hfit : ¬ n ≤ h.size p) (hp : p = h.freep)
    (hmore : morecore sbrk limit n h = .ok (some q, h')) :
    mallocLoop sbrk limit n (fuel + 1) prevp p h =
      mallocLoop sbrk limit n fuel q (h'.ptr q) h' := by
  rw [mallocLoop, run_get, if_neg hfit, if_pos hp, run_bind_ok hmore]
  rfl

variable (sbrk) in
/-- On the way to `freep`, the loop ends at a block that is large enough. -/
theorem scan_fits (hpath : Path h.ptr prevp xs h.freep) (hxs : h.freep ∉ xs)
    (hfits : ∃ a ∈ xs ++ [h.freep], n ≤ h.size a) :
    ∃ q ∈ prevp :: xs, n ≤ h.size (h.ptr q) ∧ ∀ limit fuel, xs.length < fuel →
      mallocLoop sbrk limit n fuel prevp (h.ptr prevp) h = .ok (h.take n q (h.ptr q)) := by
  induction xs generalizing prevp with
  | nil =>
    obtain ⟨a, ha, hfit⟩ := hfits
    have hptr : h.ptr prevp = h.freep := hpath
    rw [List.mem_singleton.1 ha, ← hptr] at hfit
    refine ⟨prevp, List.mem_cons_self, hfit, ?_⟩
    intro limit fuel hfuel
    obtain ⟨k, rfl⟩ : ∃ k, fuel = k + 1 := ⟨fuel - 1, by omega⟩
    exact mallocLoop_take hfit
  | cons x xs ih =>
    obtain ⟨hx, hrest⟩ := hpath
    by_cases hfit : n ≤ h.size x
    · refine ⟨prevp, List.mem_cons_self, hx ▸ hfit, ?_⟩
      intro limit fuel hfuel
      obtain ⟨k, rfl⟩ : ∃ k, fuel = k + 1 := ⟨fuel - 1, by omega⟩
      exact mallocLoop_take (hx ▸ hfit)
    have hlater : ∃ a ∈ xs ++ [h.freep], n ≤ h.size a := by
      obtain ⟨a, ha, hafit⟩ := hfits
      rcases List.mem_cons.1 ha with heq | hin
      · rw [heq] at hafit
        exact absurd hafit hfit
      · exact ⟨a, hin, hafit⟩
    obtain ⟨q, hq, hqfit, hrun⟩ := ih hrest (fun hin => hxs (List.mem_cons_of_mem x hin)) hlater
    refine ⟨q, List.mem_cons_of_mem prevp hq, hqfit, ?_⟩
    intro limit fuel hfuel
    obtain ⟨k, rfl⟩ : ∃ k, fuel = k + 1 := ⟨fuel - 1, by omega⟩
    have hne : x ≠ h.freep := fun heq => hxs (heq ▸ List.mem_cons_self)
    rw [hx, mallocLoop_next hfit hne]
    exact hrun limit k (Nat.lt_of_succ_lt_succ hfuel)

variable (sbrk) in
/-- If no block is large enough, the loop comes to `freep`. -/
theorem scan_grows (hpath : Path h.ptr prevp xs h.freep) (hxs : h.freep ∉ xs)
    (hfits : ∀ a ∈ xs ++ [h.freep], ¬ n ≤ h.size a) :
    ∃ q, ∀ limit fuel, mallocLoop sbrk limit n (fuel + 1 + xs.length) prevp (h.ptr prevp) h =
      mallocLoop sbrk limit n (fuel + 1) q h.freep h := by
  induction xs generalizing prevp with
  | nil =>
    have hptr : h.ptr prevp = h.freep := hpath
    refine ⟨prevp, ?_⟩
    intro limit fuel
    rw [hptr]
    rfl
  | cons x xs ih =>
    obtain ⟨hx, hrest⟩ := hpath
    obtain ⟨q, hrun⟩ := ih hrest (fun hin => hxs (List.mem_cons_of_mem x hin))
      fun a ha => hfits a (List.mem_cons_of_mem x ha)
    refine ⟨q, ?_⟩
    intro limit fuel
    have hne : x ≠ h.freep := fun heq => hxs (heq ▸ List.mem_cons_self)
    rw [hx, List.length_cons, ← Nat.add_assoc, mallocLoop_next (hfits x List.mem_cons_self) hne]
    exact hrun limit fuel

theorem malloc_started {nbytes : UInt32} (hstart : h.freep ≠ 0) :
    malloc sbrk fuel nbytes h =
      mallocLoop sbrk fuel (nunits nbytes) fuel h.freep (h.ptr h.freep) h := by
  have hmod : (modify fun h : Heap σ => if h.freep = 0 then h.init else h : HeapM σ Unit) h =
      .ok ((), h) := by
    change Except.ok ((), if h.freep = 0 then h.init else h) = _
    rw [if_neg hstart]
  exact run_bind_ok hmod

theorem malloc_first {nbytes : UInt32} (hstart : h.freep = 0) (hbase : h.base ≠ 0) :
    malloc sbrk fuel nbytes h = malloc sbrk fuel nbytes h.init := by
  rw [malloc_started (show h.init.freep ≠ 0 from hbase)]
  have hmod : (modify fun h : Heap σ => if h.freep = 0 then h.init else h : HeapM σ Unit) h =
      .ok ((), h.init) := by
    change Except.ok ((), if h.freep = 0 then h.init else h) = _
    rw [if_pos hstart]
  exact run_bind_ok hmod

end Malloc

section Spec

variable {h : Heap Break} {fs live : List Nat}

/-- The ring read from `freep`. -/
theorem Ring.from_start {σ : Type} {h : Heap σ} (hr : Ring h fs) :
    ∃ xs, Path h.ptr h.freep xs h.freep ∧ h.freep ∉ xs ∧ (h.freep :: xs).Perm (h.base :: fs) := by
  obtain ⟨xs, hxs, hperm⟩ := Path.rotate hr.path hr.start
  have hnodup := hperm.nodup_iff.2 (Spaced.nodup h.le_after hr.spaced)
  exact ⟨xs, hxs, (List.nodup_cons.1 hnodup).1, hperm⟩

/-- What `malloc` leaves: the live blocks are as before and the result is null, or there is
one more, of the size asked for. -/
inductive Served (h : Heap Break) (live : List Nat) (n : UInt32) : Nat → Heap Break → Prop
  | refused {h' fs'} (inv : Inv h' fs' live) (same : ∀ c ∈ live, h'.size c = h.size c) :
      Served h live n 0 h'
  | handed {a h' fs'} (inv : Inv h' fs' (a :: live)) (size : h'.size a = n)
      (same : ∀ c ∈ live, h'.size c = h.size c) : Served h live n (a + headerSize) h'

/-- The same memory over another operating system. -/
def Heap.over {σ τ : Type} (h : Heap σ) (os : τ) : Heap τ :=
  ⟨h.ptr, h.size, h.base, h.freep, os⟩

theorem take_over {σ τ : Type} (h : Heap σ) (os : τ) (n : UInt32) (prevp p : Nat) :
    (h.over os).take n prevp p = ((h.take n prevp p).1, (h.take n prevp p).2.over os) := by
  unfold Heap.take
  by_cases heq : h.size p = n
  · rw [if_pos heq, if_pos (show (h.over os).size p = n from heq)]
    rfl
  · rw [if_neg heq, if_neg (show (h.over os).size p ≠ n from heq)]
    rfl

theorem take_os {σ : Type} (h : Heap σ) (n : UInt32) (prevp p : Nat) :
    (h.take n prevp p).2.os = h.os := by
  unfold Heap.take
  split <;> rfl

/-- If a block is large enough, the loop hands it out, whatever the operating system. -/
theorem loop_over {τ : Type} (sbrk : Int → τ → Option Nat × τ) (os : τ) (hi : Inv h fs live)
    {n : UInt32} (hpos : 0 < n.toNat) (hfits : ∃ a ∈ fs, n ≤ h.size a) :
    ∃ a h' fs', Inv h' fs' (a :: live) ∧ h'.size a = n ∧ (∀ c ∈ live, h'.size c = h.size c) ∧
      h'.os = h.os ∧ ∀ limit fuel, fs.length < fuel →
        mallocLoop sbrk limit n fuel h.freep (h.ptr h.freep) (h.over os) =
          .ok (a + headerSize, h'.over os) := by
  obtain ⟨xs, hxs, hnew, hperm⟩ := hi.ring.from_start
  have hlen : xs.length = fs.length := by
    have := hperm.length_eq
    simpa using this
  have hfits' : ∃ a ∈ xs ++ [h.freep], n ≤ h.size a := by
    obtain ⟨a, ha, hfit⟩ := hfits
    refine ⟨a, ?_, hfit⟩
    have hin := hperm.mem_iff.2 (List.mem_cons_of_mem h.base ha)
    simp only [List.mem_cons, List.mem_append, List.not_mem_nil, or_false] at hin ⊢
    exact hin.symm
  obtain ⟨q, hq, hqfit, hfound⟩ := @scan_fits τ sbrk h.freep n (h.over os) xs hxs hnew hfits'
  obtain ⟨a, h', fs', htake, hi', hsize, hsame⟩ := take_spec hi (hperm.mem_iff.1 hq) hpos hqfit
  have hos : h'.os = h.os := by
    have hkeep := take_os h n q (h.ptr q)
    rw [htake] at hkeep
    exact hkeep
  refine ⟨a, h', fs', hi', hsize, hsame, hos, ?_⟩
  intro limit fuel hfuel
  refine (hfound limit fuel (hlen ▸ hfuel)).trans ?_
  rw [take_over]
  change Except.ok ((h.take n q (h.ptr q)).1, (h.take n q (h.ptr q)).2.over os) = _
  rw [htake]

/-- If a block is large enough, the loop hands it out. -/
theorem loop_served (hi : Inv h fs live) {n : UInt32} (hpos : 0 < n.toNat)
    (hfits : ∃ a ∈ fs, n ≤ h.size a) :
    ∃ r h', Served h live n r h' ∧ ∀ limit fuel, fs.length < fuel →
      mallocLoop sbrk limit n fuel h.freep (h.ptr h.freep) h = .ok (r, h') := by
  obtain ⟨a, h', fs', hi', hsize, hsame, hos, hrun⟩ := loop_over sbrk h.os hi hpos hfits
  refine ⟨a + headerSize, h', .handed hi' hsize hsame, ?_⟩
  have hback : h'.over h.os = h' := by
    rw [← hos]
    rfl
  rw [hback] at hrun
  exact hrun

theorem Inv.freep_ne (hi : Inv h fs live) : h.freep ≠ 0 := by
  intro heq
  have hbase := hi.based.1
  rcases List.mem_cons.1 hi.ring.start with hb | hfs
  · omega
  · have hlt := hi.ring.base_lt _ hfs
    omega

/-- No block of the ring is large enough if none of the free ones is. -/
theorem Inv.none_fits (hi : Inv h fs live) {n : UInt32} (hpos : 0 < n.toNat)
    (hnone : ∀ a ∈ fs, ¬ n ≤ h.size a) {xs : List Nat}
    (hperm : (h.freep :: xs).Perm (h.base :: fs)) : ∀ a ∈ xs ++ [h.freep], ¬ n ≤ h.size a := by
  intro a ha hfit
  have hin : a ∈ h.base :: fs := by
    apply hperm.mem_iff.1
    simp only [List.mem_cons, List.mem_append, List.not_mem_nil, or_false] at ha ⊢
    exact ha.symm
  rcases List.mem_cons.1 hin with heq | hfs
  · rw [heq, hi.ring.anchor] at hfit
    have hle := UInt32.le_iff_toNat_le.1 hfit
    simp only [UInt32.toNat_zero] at hle
    omega
  · exact hnone a hfs hfit

/-- **`malloc`.**  With enough fuel `malloc` returns, and the invariant holds. -/
theorem malloc_spec (hi : Inv h fs live) {nbytes : UInt32}
    (hfit : (nunits nbytes).toNat * headerSize < 2 ^ 31) (hpos : 0 < (nunits nbytes).toNat) :
    ∃ N r h', Served h live (nunits nbytes) r h' ∧
      ∀ fuel, N ≤ fuel → malloc sbrk fuel nbytes h = .ok (r, h') := by
  have hstart := hi.freep_ne
  by_cases hfits : ∃ a ∈ fs, nunits nbytes ≤ h.size a
  · obtain ⟨r, h', hserved, hrun⟩ := loop_served hi hpos hfits
    refine ⟨fs.length + 1, r, h', hserved, ?_⟩
    intro fuel hfuel
    rw [malloc_started hstart]
    exact hrun fuel fuel hfuel
  obtain ⟨xs, hxs, hnew, hperm⟩ := hi.ring.from_start
  have hlen : xs.length = fs.length := by
    have := hperm.length_eq
    simpa using this
  have hnone := hi.none_fits hpos (fun a ha hfit => hfits ⟨a, ha, hfit⟩) hperm
  obtain ⟨q, hscan⟩ := scan_grows sbrk hxs hnew hnone
  have hlast := hnone h.freep (List.mem_append_right xs List.mem_cons_self)
  rcases morecore_spec hi hpos hfit with ⟨os, hi', hmore⟩ | ⟨h₁, fs₁, hi₁, hsame₁, hlarge, hmore⟩
  · refine ⟨fs.length + 1, 0, _, .refused hi' fun c _ => rfl, ?_⟩
    intro fuel hfuel
    obtain ⟨k, rfl⟩ : ∃ k, fuel = k + 1 + xs.length := ⟨fuel - 1 - xs.length, by omega⟩
    rw [malloc_started hstart, hscan]
    exact mallocLoop_fails hlast rfl (hmore _)
  have hfits₁ : ∃ a ∈ fs₁, nunits nbytes ≤ h₁.size a := by
    obtain ⟨a, ha, hle⟩ := hlarge
    exact ⟨a, ha, UInt32.le_iff_toNat_le.2 hle⟩
  obtain ⟨r, h', hserved, hrun⟩ := loop_served hi₁ hpos hfits₁
  refine ⟨fs.length + fs₁.length + 2, r, h', ?_, ?_⟩
  · cases hserved with
    | refused inv same => exact .refused inv fun c hc => (same c hc).trans (hsame₁ c hc)
    | handed inv size same =>
      exact .handed inv size fun c hc => (same c hc).trans (hsame₁ c hc)
  · intro fuel hfuel
    obtain ⟨k, rfl⟩ : ∃ k, fuel = k + 1 + xs.length := ⟨fuel - 1 - xs.length, by omega⟩
    rw [malloc_started hstart, hscan, mallocLoop_grows hlast rfl (hmore _ (by omega))]
    exact hrun _ k (by omega)

end Spec

end Kus.Umalloc
