import Mathlib
import KusOs.UmallocCalls

/-!
# Runs of a program that uses the allocator

* `Sound` — the allocator as its user sees it: a sorted ring of free blocks with holes
  between them, live blocks of the sizes asked for, and every unit obtained either free or
  live;
* `step_good`, `run_good` — every call returns and keeps the invariant;
* `allocator_sound` — so it is sound after every run, as long as less than `2 ^ 32` units
  are obtained;
* `sizes_wrap` — with more, the `uint` size of a coalesced block wraps.
-/

namespace Kus.Umalloc

open Function IntervalCover PointerRing

/-- The allocator with the free blocks at `fs`. -/
structure Sound (s : Program) (fs : List Nat) : Prop where
  ring : Path s.heap.ptr s.heap.base fs s.heap.base
  start : s.heap.freep ∈ s.heap.base :: fs
  /-- Along the ring the addresses ascend, and no block ends where another starts. -/
  spaced : (s.heap.base :: fs).Pairwise fun a b => s.heap.after a < b
  disjoint : (blocks s.heap.size (fs ++ s.live.map Alloc.addr)).Pairwise Apart
  holds : ∀ l ∈ s.live, l.nbytes + headerSize ≤ headerSize * (s.heap.size l.addr).toNat
  inside : ∀ l ∈ s.live, ∀ x, (block s.heap.size l.addr).Has x →
    ∃ r ∈ s.heap.os.regions, r.Has x
  /-- A whole number of headers from the start of the region. -/
  aligned : ∀ l ∈ s.live, ∃ r ∈ s.heap.os.regions,
    r.Has l.addr ∧ (l.addr - r.lo) % headerSize = 0
  units : total (blocks s.heap.size (fs ++ s.live.map Alloc.addr)) = total s.heap.os.regions

/-- Nothing was asked for yet, or the allocator is sound. -/
def Settled (s : Program) : Prop :=
  (s.heap.freep = 0 ∧ s.live = [] ∧ s.heap.os.regions = []) ∨ ∃ fs, Sound s fs

/-- The request fits in the `int` that `sbrk` takes. -/
def Op.Fits : Op → Prop
  | .malloc nbytes => (nunits nbytes).toNat * headerSize < 2 ^ 31
  | .free _ => True
  | .write _ _ _ => True

/-- The invariant of a run. -/
inductive Good (s : Program) : Prop
  | fresh (start : s.heap.freep = 0) (live : s.live = []) (regions : s.heap.os.regions = [])
      (room : s.heap.os.room < headerSize * 2 ^ 32)
      (based : 0 < s.heap.base ∧ s.heap.base + headerSize ≤ s.heap.os.top)
  | used {fs : List Nat} (inv : Inv s.heap fs (s.live.map Alloc.addr))
      (holds : ∀ l ∈ s.live, l.nbytes + headerSize ≤ headerSize * (s.heap.size l.addr).toNat)

theorem nunits_toNat (nbytes : UInt32) :
    (nunits nbytes).toNat = (nbytes.toNat + headerSize - 1) / headerSize + 1 := by
  have hlt := nbytes.toNat_lt
  rw [nunits, UInt32.toNat_ofNat']
  simp only [headerSize]
  omega

section Steps

variable {s : Program} {h : Heap Break} {fs live : List Nat} {nbytes : UInt32}

theorem Inv.perm {live' : List Nat} (hi : Inv h fs live) (hperm : live.Perm live') :
    Inv h fs live' := by
  refine ⟨hi.ring, hi.tiles.perm ((hperm.append_left fs).cons _), ?_, hi.room, hi.above, hi.based⟩
  intro a ha
  exact hi.livePos a (hperm.mem_iff.2 ha)

/-- The empty free list that the first call makes. -/
theorem inv_init (hregions : h.os.regions = []) (hroom : h.os.room < headerSize * 2 ^ 32)
    (hbased : 0 < h.base ∧ h.base + headerSize ≤ h.os.top) : Inv h.init [] [] := by
  have hptr : h.init.ptr h.base = h.base := update_self _ _ _
  have hsize : h.init.size h.base = 0 := update_self _ _ _
  have hempty : block h.init.size h.base = ⟨h.base, 0⟩ := by
    rw [block, hsize]
    rfl
  refine ⟨⟨hptr, List.IsChain.singleton _, hsize, List.mem_cons_self, ?_⟩, ⟨?_, ?_, ?_, ?_⟩, ?_, ?_,
    ?_, hbased⟩
  · intro a ha
    cases ha
  · intro x
    change cover [block h.init.size h.base] x = cover h.os.regions x
    rw [hempty, hregions, cover_cons]
    have hnone : (⟨h.base, 0⟩ : Interval).count x = 0 := if_neg (by simp only; omega)
    rw [hnone]
    rfl
  · change total [block h.init.size h.base] = total h.os.regions
    rw [hempty, hregions]
    rfl
  · intro a _ x _ r hr
    change r ∈ h.os.regions at hr
    rw [hregions] at hr
    cases hr
  · intro x
    change cover h.os.regions x ≤ 1
    rw [hregions]
    exact Nat.zero_le 1
  · intro a ha
    cases ha
  · change total h.os.regions + h.os.room < headerSize * 2 ^ 32
    rw [hregions]
    simpa using hroom
  · intro r hr
    change r ∈ h.os.regions at hr
    rw [hregions] at hr
    cases hr

theorem step_malloc {fuel : Nat} {r : Nat} (hrun : malloc sbrk fuel nbytes s.heap = .ok (r, h)) :
    step fuel s (.malloc nbytes) = .ok (if r = 0 then { s with heap := h }
      else { heap := h, live := ⟨r - headerSize, nbytes.toNat⟩ :: s.live }) := by
  simp only [step, bind, Except.bind, hrun]
  split <;> rfl

/-- What `malloc` served is the invariant of the next state. -/
theorem Served.good {h₀ : Heap Break} {r : Nat}
    (hserved : Served h₀ (s.live.map Alloc.addr) (nunits nbytes) r h)
    (hholds : ∀ l ∈ s.live, l.nbytes + headerSize ≤ headerSize * (h₀.size l.addr).toNat) :
    Good (if r = 0 then { s with heap := h }
      else { heap := h, live := ⟨r - headerSize, nbytes.toNat⟩ :: s.live }) := by
  cases hserved with
  | refused inv same =>
    rw [if_pos rfl]
    refine .used inv ?_
    intro l hl
    change _ ≤ headerSize * (h.size l.addr).toNat
    rw [same l.addr (List.mem_map_of_mem hl)]
    exact hholds l hl
  | @handed a _ _ inv size same =>
    rw [if_neg (by simp only [headerSize]; omega), Nat.add_sub_cancel]
    refine .used inv ?_
    intro l hl
    rcases List.mem_cons.1 hl with heq | hl
    · rw [heq]
      change nbytes.toNat + headerSize ≤ headerSize * (h.size a).toNat
      rw [size, nunits_toNat]
      simp only [headerSize]
      omega
    change _ ≤ headerSize * (h.size l.addr).toNat
    rw [same l.addr (List.mem_map_of_mem hl)]
    exact hholds l hl

theorem malloc_good (hg : Good s) (hfit : (Op.malloc nbytes).Fits) :
    ∃ N s', Good s' ∧ ∀ fuel, N ≤ fuel → step fuel s (.malloc nbytes) = .ok s' := by
  have hpos : 0 < (nunits nbytes).toNat := by
    rw [nunits_toNat]
    exact Nat.succ_pos _
  cases hg with
  | fresh start live regions room based =>
    have hinit : Inv s.heap.init [] (s.live.map Alloc.addr) := by
      rw [live]
      exact inv_init regions room based
    obtain ⟨N, r, h', hserved, hrun⟩ := malloc_spec hinit hfit hpos
    refine ⟨N, _, Served.good hserved ?_, ?_⟩
    · intro l hl
      rw [live] at hl
      cases hl
    · intro fuel hfuel
      apply step_malloc
      rw [malloc_first start (by omega)]
      exact hrun fuel hfuel
  | used inv holds =>
    obtain ⟨N, r, h', hserved, hrun⟩ := malloc_spec inv hfit hpos
    exact ⟨N, _, Served.good hserved holds, fun fuel hfuel => step_malloc (hrun fuel hfuel)⟩

theorem step_free {fuel ap : Nat} (hany : s.live.any (Alloc.isAt ap) = true)
    (hrun : free fuel ap s.heap = .ok ((), h)) :
    step fuel s (.free ap) = .ok { heap := h, live := s.live.eraseP (Alloc.isAt ap) } := by
  simp only [step, if_pos hany, bind, Except.bind, hrun]
  rfl

theorem free_good (hg : Good s) (ap : Nat) :
    ∃ N s', Good s' ∧ ∀ fuel, N ≤ fuel → step fuel s (.free ap) = .ok s' := by
  by_cases hany : s.live.any (Alloc.isAt ap) = true
  · obtain ⟨l, before, behind, _, hat, hlive, herase⟩ := List.exists_of_eraseP
      (List.any_eq_true.1 hany).choose_spec.1 (List.any_eq_true.1 hany).choose_spec.2
    have hap : l.addr + headerSize = ap := by
      simpa [Alloc.isAt] using hat
    cases hg with
    | fresh start live regions room based =>
      rw [live] at hany
      cases hany
    | @used fs inv holds =>
      have hperm : (s.live.map Alloc.addr).Perm
          (l.addr :: (before ++ behind).map Alloc.addr) := by
        rw [hlive]
        exact List.perm_middle.map Alloc.addr
      obtain ⟨h', fs', hrun, hi', hsame, _⟩ := free_spec (inv.perm hperm)
      refine ⟨fs.length + 1, { heap := h', live := before ++ behind }, .used hi' ?_, ?_⟩
      · intro m hm
        change _ ≤ headerSize * (h'.size m.addr).toNat
        rw [hsame m.addr (List.mem_map_of_mem hm)]
        apply holds
        rw [hlive]
        rcases List.mem_append.1 hm with hm | hm
        · exact List.mem_append_left _ hm
        · exact List.mem_append_right _ (List.mem_cons_of_mem l hm)
      · intro fuel hfuel
        rw [step_free hany (hap ▸ hrun fuel hfuel), herase]
  · refine ⟨0, s, hg, ?_⟩
    intro fuel _
    simp only [step, if_neg hany]
    rfl

/-- A byte of a live block is in no header. -/
theorem Inv.untouched (hi : Inv h fs live) {a y : Nat} (ha : a ∈ live)
    (hlo : a + headerSize ≤ y) (hhi : y < a + headerSize * (h.size a).toNat) :
    ∀ c ∈ h.base :: (fs ++ live), ¬ Touches y c := by
  intro c hc htouch
  have hy : (block h.size a).Has y := ⟨by simp only [block]; omega, hhi⟩
  obtain ⟨r, hr, hry⟩ := hi.tiles.inside (List.mem_cons_of_mem _ (List.mem_append_right fs ha)) hy
  have hlow := Nat.le_trans (hi.above r hr).1 hry.1
  have hne : c ≠ h.base := by
    intro heq
    have hend := htouch.2
    omega
  have hcpos : 0 < (h.size c).toNat := by
    rcases List.mem_append.1 ((List.mem_cons.1 hc).resolve_left hne) with hc | hc
    · exact hi.ring.pos c hc
    · exact hi.livePos c hc
  have hcy : (block h.size c).Has y := by
    obtain ⟨hle, hlt⟩ := htouch
    simp only [Interval.Has, block, headerSize] at hlt ⊢
    omega
  have hca : c ≠ a := by
    intro heq
    have hend := htouch.2
    omega
  obtain ⟨xs, ys, hxy⟩ := List.append_of_mem
    (List.mem_cons_of_mem h.base (List.mem_append_right fs ha))
  have hfirst : (h.base :: (fs ++ live)).Perm (a :: (xs ++ ys)) := by
    rw [hxy]
    exact List.perm_middle
  have hin := (List.mem_cons.1 (hfirst.mem_iff.1 hc)).resolve_left hca
  exact (hi.tiles.perm hfirst).apart hin y hy hcy

theorem write_good (hg : Good s) (y : Nat) (ptr : Nat → Nat) (size : Nat → UInt32) :
    ∃ N s', Good s' ∧ ∀ fuel, N ≤ fuel → step fuel s (.write y ptr size) = .ok s' := by
  by_cases hany : s.live.any (Alloc.holds y) = true
  · obtain ⟨l, hl, hin⟩ := List.any_eq_true.1 hany
    simp only [Alloc.holds, Bool.and_eq_true, decide_eq_true_eq] at hin
    refine ⟨0, { s with heap := s.heap.write y ptr size }, ?_, ?_⟩
    · cases hg with
      | fresh start live regions room based =>
        rw [live] at hl
        cases hl
      | @used fs inv holds =>
        have hroom := holds l hl
        have hout := inv.untouched (List.mem_map_of_mem hl) hin.1 (by omega)
        have hsize : ∀ c ∈ s.heap.base :: (fs ++ s.live.map Alloc.addr),
            (s.heap.write y ptr size).size c = s.heap.size c :=
          fun c hc => if_neg (hout c hc)
        have hsize' : ∀ c ∈ s.heap.base :: fs,
            (s.heap.write y ptr size).size c = s.heap.size c := by
          intro c hc
          apply hsize
          rw [← List.cons_append]
          exact List.mem_append_left _ hc
        have hlive : ∀ c ∈ s.live.map Alloc.addr,
            (s.heap.write y ptr size).size c = s.heap.size c :=
          fun c hc => hsize c (List.mem_cons_of_mem _ (List.mem_append_right fs hc))
        refine @Good.used _ fs ⟨⟨?_, ?_, ?_, inv.ring.start, ?_⟩, inv.tiles.congr hsize, ?_,
          inv.room, inv.above, inv.based⟩ ?_
        · apply Path.frame inv.ring.path
          intro c hc
          apply if_neg (hout c _)
          rw [← List.cons_append]
          exact List.mem_append_left _ hc
        · apply Spaced.congr inv.ring.spaced
          intro c hc
          rw [Heap.after, Heap.after, hsize' c hc]
        · exact (hsize' _ List.mem_cons_self).trans inv.ring.anchor
        · intro a ha
          rw [hsize' a (List.mem_cons_of_mem _ ha)]
          exact inv.ring.pos a ha
        · intro a ha
          rw [hlive a ha]
          exact inv.livePos a ha
        · intro m hm
          change _ ≤ headerSize * ((s.heap.write y ptr size).size m.addr).toNat
          rw [hlive m.addr (List.mem_map_of_mem hm)]
          exact holds m hm
    · intro fuel _
      simp only [step, if_pos hany]
      rfl
  · refine ⟨0, s, hg, ?_⟩
    intro fuel _
    simp only [step, if_neg hany]
    rfl

/-- **One action.**  It returns, and the invariant holds after it. -/
theorem step_good (hg : Good s) {op : Op} (hfit : op.Fits) :
    ∃ N s', Good s' ∧ ∀ fuel, N ≤ fuel → step fuel s op = .ok s' := by
  cases op with
  | malloc nbytes => exact malloc_good hg hfit
  | free ap => exact free_good hg ap
  | write y ptr size => exact write_good hg y ptr size

theorem run_good {ops : List Op} (hg : Good s) (hfit : ∀ op ∈ ops, op.Fits) :
    ∃ N s', Good s' ∧ ∀ fuel, N ≤ fuel → run fuel ops s = .ok s' := by
  induction ops generalizing s with
  | nil => exact ⟨0, s, hg, fun fuel _ => rfl⟩
  | cons op ops ih =>
    obtain ⟨N, s', hg', hstep⟩ := step_good hg (hfit op List.mem_cons_self)
    obtain ⟨M, s'', hg'', hrun⟩ := ih hg' fun o ho => hfit o (List.mem_cons_of_mem op ho)
    refine ⟨max N M, s'', hg'', ?_⟩
    intro fuel hfuel
    simp only [run, bind, Except.bind, hstep fuel (by omega)]
    exact hrun fuel (by omega)

theorem Good.settled (hg : Good s) : Settled s := by
  cases hg with
  | fresh start live regions room based => exact .inl ⟨start, live, regions⟩
  | @used fs inv holds =>
    have hmem : ∀ l ∈ s.live, l.addr ∈ s.heap.base :: (fs ++ s.live.map Alloc.addr) :=
      fun l hl => List.mem_cons_of_mem _ (List.mem_append_right fs (List.mem_map_of_mem hl))
    have hempty : (block s.heap.size s.heap.base).len = 0 := by
      rw [block, inv.ring.anchor]
      rfl
    refine .inr ⟨fs, inv.ring.path, inv.ring.start, ?_, ?_, holds, ?_, ?_, ?_⟩
    · have : IsTrans Nat fun a b => s.heap.after a < b :=
        ⟨fun a b c hab hbc =>
          Nat.lt_of_lt_of_le hab (Nat.le_trans (s.heap.le_after b) (Nat.le_of_lt hbc))⟩
      exact List.isChain_iff_pairwise.1 inv.ring.spaced
    · have hone : ∀ x, cover (blocks s.heap.size
          (s.heap.base :: (fs ++ s.live.map Alloc.addr))) x ≤ 1 := by
        intro x
        rw [inv.tiles.cover x]
        exact inv.tiles.once x
      exact (List.pairwise_cons.1 (disjoint_of_cover hone)).2
    · intro l hl x hx
      exact inv.tiles.inside (hmem l hl) hx
    · intro l hl
      have hself := block_has_self (inv.livePos l.addr (List.mem_map_of_mem hl))
      obtain ⟨r, hr, hrl⟩ := inv.tiles.inside (hmem l hl) hself
      have halign := inv.tiles.aligned l.addr (hmem l hl) l.addr hself r hr hrl
      refine ⟨r, hr, hrl, ?_⟩
      simp only [headerSize] at halign ⊢
      omega
    · have htotal := inv.tiles.total
      rw [blocks, List.map_cons, total_cons, hempty, Nat.zero_add] at htotal
      exact htotal

end Steps

/-- **The allocator is sound.**  Whatever a program does with its blocks, and wherever the
operating system puts the regions, both searches of every call end and the allocator is
sound after it, as long as the operating system gives less than `2 ^ 32` units. -/
theorem allocator_sound (ptr : Nat → Nat) (size : Nat → UInt32) (base top room : Nat)
    (gap : Nat → Option Nat) (ops : List Op) (hbase : 0 < base) (htop : base + headerSize ≤ top)
    (hroom : room < headerSize * 2 ^ 32) (hfit : ∀ op ∈ ops, op.Fits) :
    ∃ N s, Settled s ∧ ∀ fuel, N ≤ fuel →
      run fuel ops (Program.start ptr size base ⟨top, gap, 0, room, []⟩) = .ok s := by
  have hstart : Good (Program.start ptr size base ⟨top, gap, 0, room, []⟩) :=
    .fresh rfl rfl rfl hroom ⟨hbase, htop⟩
  obtain ⟨N, s, hg, hrun⟩ := run_good hstart hfit
  exact ⟨N, s, hg.settled, hrun⟩

theorem allocator_sound_small :
    ∃ N s, Settled s ∧ ∀ fuel, N ≤ fuel →
      run fuel [.malloc 100, .malloc 5000, .write 85904 (fun _ => 7) (fun _ => 9), .free 85904]
        (Program.start (fun _ => 0) (fun _ => 0) 4096 ⟨20480, fun _ => some 32, 0, 2 ^ 30, []⟩) =
          .ok s := by
  apply allocator_sound _ _ 4096 20480 (2 ^ 30) _ _ (by decide) (by decide) (by decide)
  intro op hop
  simp only [List.mem_cons, List.not_mem_nil, or_false] at hop
  rcases hop with rfl | rfl | rfl | rfl
  · change (nunits 100).toNat * headerSize < 2 ^ 31
    decide
  · change (nunits 5000).toNat * headerSize < 2 ^ 31
    decide
  · trivial
  · trivial

section Wrap

/-- The largest request, in units, that fits in an `int`. -/
def hugeUnits : Nat := 134217727

def hugeBytes : UInt32 := 2147483616

/-- The header of the region number `k`, when the regions follow each other. -/
def hugeAt (k : Nat) : Nat := 20480 + k * (headerSize * hugeUnits)

def hugeLive : Nat → List Alloc
  | 0 => []
  | k + 1 => ⟨hugeAt k, hugeBytes.toNat⟩ :: hugeLive k

/-- Free the blocks with numbers below `k`, the highest first. -/
def hugeFrees : Nat → List Op
  | 0 => []
  | k + 1 => .free (hugeAt k + headerSize) :: hugeFrees k

variable {s : Program} {k m : Nat} {h : Heap Break}

/-- `k` regions were obtained and handed out whole. -/
structure Handed (k : Nat) (s : Program) : Prop where
  base : s.heap.base = 4096
  freep : s.heap.freep = 4096
  ptr : s.heap.ptr 4096 = 4096
  anchor : s.heap.size 4096 = 0
  top : s.heap.os.top = hugeAt k
  gap : s.heap.os.gap = fun _ => some 0
  room : s.heap.os.room = 2 ^ 40 - k * (headerSize * hugeUnits)
  regions : total s.heap.os.regions = k * (headerSize * hugeUnits)
  sizes : ∀ j < k, s.heap.size (hugeAt j) = UInt32.ofNat hugeUnits
  live : s.live = hugeLive k

/-- Of `m` blocks those from number `k` on were freed, and are one block. -/
structure Coalesced (m k : Nat) (s : Program) : Prop where
  base : s.heap.base = 4096
  freep : s.heap.freep = 4096
  ptr : s.heap.ptr 4096 = hugeAt k
  ptrBack : s.heap.ptr (hugeAt k) = 4096
  anchor : s.heap.size 4096 = 0
  size : s.heap.size (hugeAt k) = UInt32.ofNat ((m - k) * hugeUnits)
  sizes : ∀ j < k, s.heap.size (hugeAt j) = UInt32.ofNat hugeUnits
  regions : total s.heap.os.regions = m * (headerSize * hugeUnits)
  live : s.live = hugeLive k

theorem hugeAt_lt {i j : Nat} (h : i < j) : hugeAt i < hugeAt j := by
  simp only [hugeAt, headerSize, hugeUnits]
  omega

theorem hugeAt_ne_base (k : Nat) : hugeAt k ≠ 4096 := by
  simp only [hugeAt]
  omega

theorem hugeAt_gt (k : Nat) : 4096 < hugeAt k := by
  simp only [hugeAt]
  omega

/-- A block freed below all others: the static header points to it, and it is joined to
what the static header pointed to. -/
theorem free_lowest {bp fuel : Nat} (hfreep : h.freep = 4096)
    (hanchor : h.size 4096 = 0) (hlt : 4096 < bp) (hptr : h.ptr 4096 = 4096 ∨ bp < h.ptr 4096) :
    ∃ h', free (fuel + 1) (bp + headerSize) h = .ok ((), h') ∧ h'.base = h.base ∧
      h'.freep = 4096 ∧ h'.os = h.os ∧ h'.ptr 4096 = bp ∧
      h'.ptr bp = (h.join bp (h.ptr 4096)).ptr bp ∧
      h'.size = (h.join bp (h.ptr 4096)).size := by
  have hsearch : search h.ptr (h.endsAt bp) (fuel + 1) h.freep = some 4096 := by
    rw [hfreep]
    apply search_here _ (Nat.succ_pos fuel)
    simp only [Heap.endsAt, Bool.or_eq_true, Bool.and_eq_true, decide_eq_true_eq]
    omega
  have hne : (h.join bp (h.ptr 4096)).after 4096 ≠ bp := by
    rw [join_after_of_ne (Nat.ne_of_lt hlt), Heap.after, hanchor]
    simp only [UInt32.toNat_zero, Nat.mul_zero, Nat.add_zero]
    omega
  refine ⟨h.insert bp 4096, free_run hsearch, ?_, rfl, ?_, join_link_ptr hne,
    join_ptr_of_ne (Nat.ne_of_lt hlt).symm, join_link_size hne⟩
  · simp only [Heap.insert, join_base]
  · simp only [Heap.insert, join_os]

theorem join_empty {bp : Nat} (hptr : h.ptr 4096 = 4096) (hlt : 4096 < bp) :
    (h.join bp (h.ptr 4096)).ptr bp = 4096 ∧ (h.join bp (h.ptr 4096)).size = h.size := by
  have hne : h.after bp ≠ 4096 := by
    have hle := h.le_after bp
    omega
  rw [hptr]
  exact ⟨join_link_ptr hne, join_link_size hne⟩

theorem huge_facts : nunits hugeBytes = UInt32.ofNat hugeUnits ∧
    coreUnits (UInt32.ofNat hugeUnits) = UInt32.ofNat hugeUnits ∧
    sbrkArg (UInt32.ofNat hugeUnits) = ((headerSize * hugeUnits : Nat) : Int) ∧
    ¬ UInt32.ofNat hugeUnits ≤ 0 := by
  decide

/-- A request of the largest size, with nothing free, is served by a region of its own. -/
theorem malloc_huge {fuel : Nat} (hfreep : h.freep = 4096)
    (hptr : h.ptr 4096 = 4096) (hanchor : h.size 4096 = 0) (hlt : 4096 < h.os.top)
    (hgap : h.os.gap h.os.calls = some 0) (hroom : headerSize * hugeUnits ≤ h.os.room) :
    ∃ h', malloc sbrk (fuel + 2) hugeBytes h = .ok (h.os.top + headerSize, h') ∧
      h'.base = h.base ∧ h'.freep = 4096 ∧ h'.os = h.os.grow 0 (headerSize * hugeUnits) ∧
      h'.ptr 4096 = 4096 ∧
      h'.size = update h.size h.os.top (UInt32.ofNat hugeUnits) := by
  obtain ⟨hunits, hcore, harg, hlarge⟩ := huge_facts
  have hask : (0 : Int) < ((headerSize * hugeUnits : Nat) : Int) ∧
      ((headerSize * hugeUnits : Nat) : Int).toNat ≤ h.os.room := by
    rw [Int.toNat_natCast]
    exact ⟨by decide, hroom⟩
  have hcall : sbrk (sbrkArg (coreUnits (UInt32.ofNat hugeUnits))) h.os =
      (some h.os.top, h.os.grow 0 (headerSize * hugeUnits)) := by
    rw [hcore, harg, sbrk_some hgap hask, Int.toNat_natCast, Nat.add_zero]
  generalize UInt32.ofNat hugeUnits = units at *
  obtain ⟨h₂, hfree, hbase₂, hfreep₂, hos₂, hnext, hback, hsize⟩ := @free_lowest
    { h with
      os := h.os.grow 0 (headerSize * hugeUnits)
      size := update h.size h.os.top units } h.os.top (fuel + 1) hfreep
    (by simp only; rw [update_of_ne (Nat.ne_of_lt hlt)]; exact hanchor) hlt (.inl hptr)
  obtain ⟨hempty, hsame⟩ := @join_empty
    { h with
      os := h.os.grow 0 (headerSize * hugeUnits)
      size := update h.size h.os.top units } h.os.top hptr hlt
  rw [hempty] at hback
  rw [hsame] at hsize
  have hmore : morecore sbrk (fuel + 2) units h = .ok (some h₂.freep, h₂) :=
    morecore_frees hcall (hcore.symm ▸ hfree)
  have hnew : h₂.size h.os.top = units := by
    rw [hsize]
    exact update_self _ _ _
  have htake : h₂.take units 4096 h.os.top = (h.os.top + headerSize,
      { h₂ with ptr := update h₂.ptr 4096 (h₂.ptr h.os.top), freep := 4096 }) := by
    rw [Heap.take, if_pos hnew]
  refine ⟨{ h₂ with ptr := update h₂.ptr 4096 (h₂.ptr h.os.top), freep := 4096 }, ?_,
    hbase₂, rfl, hos₂, ?_, hsize⟩
  · rw [malloc_started (by rw [hfreep]; decide), hunits, hfreep, hptr,
      mallocLoop_grows (by rw [hanchor]; exact hlarge) hfreep.symm hmore, hfreep₂, hnext,
      mallocLoop_take (by rw [hnew]; exact UInt32.le_refl _), htake]
  · simp only [update_self]
    exact hback

/-- Each request of the largest size is a region of its own. -/
theorem handed_malloc {fuel : Nat} (hs : Handed k s) (hk : k < 100) :
    ∃ h', malloc sbrk (fuel + 2) hugeBytes s.heap = .ok (hugeAt k + headerSize, h') ∧
      Handed (k + 1) ⟨h', ⟨hugeAt k, hugeBytes.toNat⟩ :: s.live⟩ := by
  have hroom : headerSize * hugeUnits ≤ s.heap.os.room := by
    rw [hs.room]
    simp only [headerSize, hugeUnits]
    omega
  obtain ⟨h', hrun, hbase, hfreep, hos, hptr, hsize⟩ := @malloc_huge s.heap fuel hs.freep hs.ptr
    hs.anchor (hs.top ▸ hugeAt_gt k) (by rw [hs.gap]) hroom
  rw [hs.top] at hrun hsize
  refine ⟨h', hrun, hbase.trans hs.base, hfreep, hptr, ?_, ?_, ?_, ?_, ?_, ?_, ?_⟩
  · simp only
    rw [hsize, update_of_ne (Nat.ne_of_lt (hugeAt_gt k))]
    exact hs.anchor
  · simp only [hos, Break.grow, hs.top, hugeAt]
    ring
  · simp only [hos, Break.grow]
    exact hs.gap
  · simp only [hos, Break.grow, hs.room]
    rw [Nat.add_mul, Nat.sub_sub, Nat.one_mul]
  · simp only [hos, Break.grow, total_cons, hs.regions]
    ring
  · intro j hj
    simp only [hsize]
    rcases Nat.lt_succ_iff_lt_or_eq.1 hj with hj | hj
    · rw [update_of_ne (Nat.ne_of_lt (hugeAt_lt hj))]
      exact hs.sizes j hj
    · rw [hj, update_self]
  · simp only
    rw [hs.live, hugeLive]

theorem hugeLive_head (hlive : s.live = hugeLive (k + 1)) :
    s.live.any (Alloc.isAt (hugeAt k + headerSize)) = true ∧
      s.live.eraseP (Alloc.isAt (hugeAt k + headerSize)) = hugeLive k := by
  have hat : Alloc.isAt (hugeAt k + headerSize) ⟨hugeAt k, hugeBytes.toNat⟩ = true :=
    beq_self_eq_true _
  rw [hlive, hugeLive, List.any_cons, hat, List.eraseP_cons_of_pos hat]
  exact ⟨Bool.true_or _, rfl⟩

/-- The highest block freed first. -/
theorem handed_free {fuel : Nat} (hs : Handed (k + 1) s) :
    ∃ s', step (fuel + 1) s (.free (hugeAt k + headerSize)) = .ok s' ∧
      Coalesced (k + 1) k s' := by
  obtain ⟨h', hfree, hbase, hfreep, hos, hptr, hback, hsize⟩ :=
    @free_lowest s.heap (hugeAt k) fuel hs.freep hs.anchor (hugeAt_gt k) (.inl hs.ptr)
  obtain ⟨hempty, hsame⟩ := join_empty hs.ptr (hugeAt_gt k)
  rw [hempty] at hback
  rw [hsame] at hsize
  obtain ⟨hany, herase⟩ := hugeLive_head hs.live
  refine ⟨_, step_free hany hfree, hbase.trans hs.base, hfreep, hptr, hback, ?_, ?_, ?_, ?_, herase⟩
  · simp only [hsize]
    exact hs.anchor
  · simp only [hsize]
    rw [hs.sizes k (Nat.lt_succ_self k), Nat.add_sub_cancel_left, Nat.one_mul]
  · intro j hj
    simp only [hsize]
    exact hs.sizes j (Nat.lt_succ_of_lt hj)
  · simp only [hos]
    exact hs.regions

/-- Each lower block takes in the one above it; its size is the sum in `uint`. -/
theorem coalesced_free {fuel : Nat} (hs : Coalesced m (k + 1) s) (hk : k < m) :
    ∃ s', step (fuel + 1) s (.free (hugeAt k + headerSize)) = .ok s' ∧ Coalesced m k s' := by
  have hup : hugeAt k < s.heap.ptr 4096 := by
    rw [hs.ptr]
    exact hugeAt_lt (Nat.lt_succ_self k)
  obtain ⟨h', hfree, hbase, hfreep, hos, hptr, hback, hsize⟩ :=
    @free_lowest s.heap (hugeAt k) fuel hs.freep hs.anchor (hugeAt_gt k) (.inr hup)
  have hnext : s.heap.after (hugeAt k) = hugeAt (k + 1) := by
    rw [Heap.after, hs.sizes k (Nat.lt_succ_self k), hugeAt, hugeAt, UInt32.toNat_ofNat']
    simp only [hugeUnits, headerSize]
    omega
  rw [hs.ptr, join_merge_ptr hnext, hs.ptrBack] at hback
  obtain ⟨hany, herase⟩ := hugeLive_head hs.live
  refine ⟨_, step_free hany hfree, hbase.trans hs.base, hfreep, hptr, hback, ?_, ?_, ?_, ?_, herase⟩
  · simp only [hsize]
    rw [join_size_of_ne (Nat.ne_of_lt (hugeAt_gt k))]
    exact hs.anchor
  · simp only [hsize]
    rw [hs.ptr, join_merge_size hnext, hs.sizes k (Nat.lt_succ_self k), hs.size, ← UInt32.ofNat_add]
    congr 1
    have hsub : m - k = 1 + (m - (k + 1)) := by omega
    rw [hsub, Nat.add_mul, Nat.one_mul]
  · intro j hj
    simp only [hsize]
    rw [join_size_of_ne (Nat.ne_of_lt (hugeAt_lt hj))]
    exact hs.sizes j (Nat.lt_succ_of_lt hj)
  · simp only [hos]
    exact hs.regions

theorem run_cons {fuel : Nat} {s s' : Program} {op : Op} {ops : List Op}
    (hstep : step fuel s op = .ok s') : run fuel (op :: ops) s = run fuel ops s' := by
  simp only [run, bind, Except.bind, hstep]

theorem coalesced_run {fuel : Nat} (hs : Coalesced m k s) (hk : k ≤ m) :
    ∃ s', run (fuel + 1) (hugeFrees k) s = .ok s' ∧ Coalesced m 0 s' := by
  induction k generalizing s with
  | zero => exact ⟨s, rfl, hs⟩
  | succ k ih =>
    obtain ⟨s', hstep, hs'⟩ := @coalesced_free s k m fuel hs hk
    rw [hugeFrees, run_cons hstep]
    exact ih hs' (Nat.le_of_succ_le hk)

theorem handed_step {fuel : Nat} (hs : Handed k s) (hk : k < 100) :
    ∃ s', step (fuel + 2) s (.malloc hugeBytes) = .ok s' ∧ Handed (k + 1) s' := by
  obtain ⟨h', hrun, hs'⟩ := @handed_malloc s k fuel hs hk
  refine ⟨_, step_malloc hrun, ?_⟩
  rw [if_neg (by simp only [headerSize]; omega), Nat.add_sub_cancel]
  exact hs'

theorem handed_run {fuel n : Nat} {ops : List Op} (hs : Handed k s) (hn : k + n ≤ 100) :
    ∃ s', run (fuel + 2) (List.replicate n (.malloc hugeBytes) ++ ops) s = run (fuel + 2) ops s' ∧
      Handed (k + n) s' := by
  induction n generalizing k s with
  | zero => exact ⟨s, rfl, hs⟩
  | succ n ih =>
    obtain ⟨s₁, hstep, hs₁⟩ := @handed_step s k fuel hs (by omega)
    obtain ⟨s', hrun, hs'⟩ := ih hs₁ (by omega)
    refine ⟨s', ?_, ?_⟩
    · rw [List.replicate_succ, List.cons_append, run_cons hstep]
      exact hrun
    · rw [Nat.add_assoc, Nat.add_comm 1 n] at hs'
      exact hs'

/-- A wrapped size does not account for the units obtained. -/
theorem Coalesced.not_settled (hs : Coalesced 33 0 s) : ¬ Settled s := by
  intro hsettled
  have hlive : s.live = [] := hs.live
  rcases hsettled with ⟨hstart, _⟩ | ⟨fs, hsound⟩
  · rw [hs.freep] at hstart
    cases hstart
  have hring := hsound.ring
  have hunits := hsound.units
  rw [hs.base] at hring
  rw [hlive, List.map_nil, List.append_nil, hs.regions] at hunits
  cases fs with
  | nil =>
    have hptr : s.heap.ptr 4096 = 4096 := hring
    rw [hs.ptr] at hptr
    exact hugeAt_ne_base 0 hptr
  | cons a fs =>
    obtain ⟨ha, hrest⟩ := hring
    rw [hs.ptr] at ha
    cases fs with
    | nil =>
      simp only [blocks, List.map_cons, List.map_nil, total_cons, total_nil, block] at hunits
      rw [← ha, hs.size, UInt32.toNat_ofNat'] at hunits
      simp only [headerSize, hugeUnits] at hunits
      omega
    | cons b fs =>
      obtain ⟨hb, _⟩ := hrest
      rw [← ha, hs.ptrBack] at hb
      have hup := List.rel_of_pairwise_cons hsound.spaced
        (List.mem_cons_of_mem a List.mem_cons_self)
      have hle := s.heap.le_after s.heap.base
      rw [hs.base] at hup hle
      omega

/-- Thirty-three requests of the largest size, and then all of them freed. -/
def wrapOps : List Op := List.replicate 33 (.malloc hugeBytes) ++ hugeFrees 33

theorem wrapOps_fit : ∀ op ∈ wrapOps, op.Fits := by
  have hfrees : ∀ n, ∀ op ∈ hugeFrees n, op.Fits := by
    intro n
    induction n with
    | zero =>
      intro op hop
      cases hop
    | succ n ih =>
      intro op hop
      rcases List.mem_cons.1 hop with heq | hop
      · rw [heq]
        trivial
      · exact ih op hop
  intro op hop
  rcases List.mem_append.1 hop with hop | hop
  · rw [List.eq_of_mem_replicate hop]
    change (nunits hugeBytes).toNat * headerSize < 2 ^ 31
    decide
  · exact hfrees 33 op hop

theorem run_first {fuel : Nat} {nbytes : UInt32} {ops : List Op} (hstart : s.heap.freep = 0)
    (hbase : s.heap.base ≠ 0) :
    run fuel (.malloc nbytes :: ops) s =
      run fuel (.malloc nbytes :: ops) { s with heap := s.heap.init } := by
  simp only [run, step, malloc_first hstart hbase]

/-- **Sizes wrap.**  With `33` regions of `2 ^ 27 - 1` units the free list ends as one block
whose size is the sum modulo `2 ^ 32`: the other units are lost. -/
theorem sizes_wrap : (∀ op ∈ wrapOps, op.Fits) ∧
    ∃ s, run 2 wrapOps (Program.start (fun _ => 0) (fun _ => 0) 4096
      ⟨20480, fun _ => some 0, 0, 2 ^ 40, []⟩) = .ok s ∧ ¬ Settled s := by
  refine ⟨wrapOps_fit, ?_⟩
  generalize hs₀ : Program.start (fun _ => 0) (fun _ => 0) 4096
    ⟨20480, fun _ => some 0, 0, 2 ^ 40, []⟩ = s₀
  have hinit : Handed 0 { s₀ with heap := s₀.heap.init } := by
    rw [← hs₀]
    refine ⟨rfl, rfl, ?_, ?_, rfl, rfl, rfl, rfl, ?_, rfl⟩
    · exact update_self 4096 4096 fun _ => 0
    · change update (fun _ => (0 : UInt32)) 4096 0 4096 = 0
      exact update_self _ _ _
    · intro j hj
      cases hj
  have hfirst : run 2 wrapOps s₀ = run 2 wrapOps { s₀ with heap := s₀.heap.init } := by
    rw [wrapOps, List.replicate_succ, List.cons_append]
    apply run_first
    · rw [← hs₀]
      rfl
    · rw [← hs₀]
      decide
  obtain ⟨s₁, hrun₁, hs₁⟩ := @handed_run _ 0 0 33 (hugeFrees 33) hinit (by decide)
  obtain ⟨s₂, hstep, hs₂⟩ := @handed_free s₁ 32 1 hs₁
  obtain ⟨s₃, hrun₂, hs₃⟩ := @coalesced_run s₂ 32 33 1 hs₂ (by decide)
  refine ⟨s₃, ?_, hs₃.not_settled⟩
  calc run 2 wrapOps s₀ = run 2 wrapOps { s₀ with heap := s₀.heap.init } := hfirst
    _ = run 2 (hugeFrees 33) s₁ := hrun₁
    _ = run 2 (hugeFrees 32) s₂ := run_cons hstep
    _ = .ok s₃ := hrun₂

end Wrap

end Kus.Umalloc
