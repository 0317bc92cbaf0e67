import KusOs.Kmem
import KusOs.UmallocRuns

/-!
# `malloc` over the kernel's `sbrk`

The allocator over `sys_sbrk` and `growproc` of the kernel.  `morecore` computes the size
of its region in 64 bits and passes it as an `int`; a size of `2 ^ 31` bytes or more
arrives as another number, and what the kernel does with this number is not what
`morecore` records.

* `growproc`, `sysSbrk` — the kernel's side: a request to shrink by more than there is
  succeeds and changes nothing;
* `sysSbrk_exact`, `sysSbrk_short` — a region is as long as the block that is recorded,
  or at most `16` bytes long;
* `malloc_below_break_iff` — **`malloc` hands out memory that it has exactly if its
  request, in bytes, fits in an `int`**, or it is refused.
-/

namespace Kus.Umalloc

open Hoare IntervalCover PointerRing

/-- What `sbrk` depends on: the size of the process, and whether `uvmalloc` finds the pages
for the call with a given number. -/
structure Process where
  sz : Nat
  grants : Nat → Bool
  calls : Nat

/-- The size that `uvmdealloc` returns. -/
def uvmdealloc (oldsz newsz : Nat) : Nat := if oldsz ≤ newsz then oldsz else newsz

/-- `sz + n` in 64 bits. -/
def addSize (sz : Nat) (n : Int) : Nat := ((sz + n) % 2 ^ 64).toNat

/-- `growproc(n) == 0`, and the process after it. -/
def growproc (n : Int) (p : Process) : Bool × Process :=
  if 0 < n then
    if Vm.TRAPFRAME < addSize p.sz n then (false, p)
    else if p.grants p.calls then
      (true, { p with sz := addSize p.sz n, calls := p.calls + 1 })
    else (false, { p with calls := p.calls + 1 })
  else if n < 0 then (true, { p with sz := uvmdealloc p.sz (addSize p.sz n) })
  else (true, p)

/-- `sys_sbrk(n, SBRK_EAGER)`. -/
def sysSbrk (n : Int) (p : Process) : Option Nat × Process :=
  match growproc n p with
  | (true, p') => (some p.sz, p')
  | (false, p') => (none, p')

/-- The list of blocks has been made. -/
def Heap.started {σ : Type} (h : Heap σ) : Heap σ := if h.freep = 0 then h.init else h

/-- The regions of the allocator as a system that goes on at the break.  It has more to
give than any request asks for. -/
def ghost (sz : Nat) (regions : List Interval) : Break :=
  ⟨sz, fun _ => some 0, 0, 2 ^ 33, regions⟩

section Kernel

variable {p p' : Process} {nu : UInt32} {a : Nat}

theorem addSize_of_pos {sz n : Nat} (h : sz + n < 2 ^ 64) : addSize sz n = sz + n := by
  unfold addSize
  omega

theorem sysSbrk_start {n : Int} (h : sysSbrk n p = (some a, p')) : a = p.sz := by
  unfold sysSbrk at h
  split at h
  · cases h
    rfl
  · cases h

/-- A region of the right size ends at the new break. -/
theorem sysSbrk_exact (hsz : p.sz ≤ Vm.TRAPFRAME) (hpos : 0 < nu.toNat)
    (hfit : nu.toNat * headerSize < 2 ^ 31) (h : sysSbrk (sbrkArg nu) p = (some a, p')) :
    p'.sz = p.sz + nu.toNat * headerSize := by
  have htop : Vm.TRAPFRAME < 2 ^ 38 := by decide
  rw [sbrkArg_eq hfit] at h
  have hask : (0 : Int) < ((nu.toNat * headerSize : Nat) : Int) := by
    simp only [headerSize]
    omega
  unfold sysSbrk growproc at h
  rw [if_pos hask, addSize_of_pos (by omega)] at h
  split at h
  · rename_i hgrow
    split at hgrow
    · cases hgrow
    · split at hgrow
      · cases hgrow
        cases h
        rfl
      · cases hgrow
  · cases h

theorem sbrkArg_wrap (hlong : 2 ^ 31 ≤ nu.toNat * headerSize) (hle : nu.toNat ≤ 2 ^ 28 + 1) :
    sbrkArg nu ≤ 16 := by
  have hbytes : nu.toNat * headerSize ≤ 2 ^ 32 + 16 := by
    simp only [headerSize]
    omega
  rw [sbrkArg, BitVec.toInt_ofNat', Int.bmod_def]
  split <;> omega

/-- A longer one arrives as a number of `16` at most. -/
theorem sysSbrk_short (hsz : p.sz ≤ Vm.TRAPFRAME) (hlong : 2 ^ 31 ≤ nu.toNat * headerSize)
    (hle : nu.toNat ≤ 2 ^ 28 + 1) (h : sysSbrk (sbrkArg nu) p = (some a, p')) :
    p'.sz ≤ p.sz + 16 := by
  have htop : Vm.TRAPFRAME < 2 ^ 38 := by decide
  have harg := sbrkArg_wrap hlong hle
  generalize sbrkArg nu = n at h harg
  unfold sysSbrk growproc at h
  split at h
  · rename_i hgrow
    cases h
    split at hgrow
    · split at hgrow
      · cases hgrow
      · split at hgrow
        · cases hgrow
          unfold addSize
          simp only
          omega
        · cases hgrow
    · split at hgrow
      · cases hgrow
        unfold uvmdealloc
        simp only
        split <;> omega
      · cases hgrow
        omega
  · cases h

end Kernel

section Blocks

variable {h : Heap Break} {fs live : List Nat} {a : Nat}

/-- A block ends at the top of the regions or before. -/
theorem Inv.end_le_top (hi : Inv h fs live) (ha : a ∈ live) : h.after a ≤ h.os.top := by
  have hpos := hi.livePos a ha
  have hlast : (block h.size a).Has (a + headerSize * (h.size a).toNat - 1) := by
    simp only [Interval.Has, block, headerSize]
    omega
  obtain ⟨r, hr, hrx⟩ :=
    hi.tiles.inside (List.mem_cons_of_mem _ (List.mem_append_right fs ha)) hlast
  have htop := (hi.above r hr).2
  have hlt := hrx.2
  simp only [Heap.after, headerSize] at hlt ⊢
  omega

/-- A block whose region has just been added at `top` goes beyond `top` if it is longer
than the regions were before. -/
theorem Inv.beyond {top len : Nat} {regions : List Interval} (hi : Inv h fs live)
    (hregions : h.os.regions = ⟨top, len⟩ :: regions) (ha : a ∈ live)
    (hlong : total regions < headerSize * (h.size a).toNat - 16) : top + 16 < h.after a := by
  by_contra hbelow
  have hend : h.after a ≤ top + 16 := Nat.le_of_not_lt hbelow
  have hcover : ∀ x, a ≤ x → x < a + (headerSize * (h.size a).toNat - 16) →
      0 < cover regions x := by
    intro x hlo hhi
    have hx : (block h.size a).Has x := by
      simp only [Interval.Has, block]
      omega
    obtain ⟨r, hr, hrx⟩ := hi.tiles.inside (List.mem_cons_of_mem _ (List.mem_append_right fs ha)) hx
    rw [hregions] at hr
    rcases List.mem_cons.1 hr with hr | hr
    · rw [hr] at hrx
      have hstart := hrx.1
      simp only [Heap.after] at hend hstart
      omega
    · exact cover_pos hr hrx
  have hle := len_le_total hcover
  omega

end Blocks

section Malloc

variable {h : Heap Process} {fs live : List Nat} {regions : List Interval}

/-- What `malloc` is to do: refuse and leave the list as it is, or return a block of at
least `nbytes` bytes that ends below the break. -/
def Proper (h : Heap Process) (nbytes : UInt32) (r : Nat) (h' : Heap Process) : Prop :=
  (r = 0 ∧ h' = h.started.over h'.os) ∨
    (r ≠ 0 ∧ nbytes.toNat + headerSize ≤ headerSize * (h'.size (r - headerSize)).toNat ∧
      h'.after (r - headerSize) ≤ h'.os.sz)

/-- `malloc` asks the kernel for a region that is too long for an `int` and is not refused. -/
def Oversized (h : Heap Process) (fs : List Nat) (nbytes : UInt32) : Prop :=
  (∀ a ∈ fs, ¬ nunits nbytes ≤ h.started.size a) ∧ 2 ^ 31 ≤ (nunits nbytes).toNat * headerSize ∧
    (sysSbrk (sbrkArg (nunits nbytes)) h.os).1.isSome = true

theorem join_over {σ τ : Type} (g : Heap σ) (os : τ) (a b : Nat) :
    (g.over os).join a b = (g.join a b).over os := by
  unfold Heap.join
  by_cases hend : g.after a = b
  · rw [if_pos hend, if_pos (show (g.over os).after a = b from hend)]
    rfl
  · rw [if_neg hend, if_neg (show (g.over os).after a ≠ b from hend)]
    rfl

theorem free_over {σ τ : Type} {g g' : Heap σ} {fuel ap : Nat} (os : τ)
    (hfree : free fuel ap g = .ok ((), g')) : free fuel ap (g.over os) = .ok ((), g'.over os) := by
  have hsearch : search (g.over os).ptr ((g.over os).endsAt (ap - headerSize)) fuel
      (g.over os).freep = search g.ptr (g.endsAt (ap - headerSize)) fuel g.freep := rfl
  rw [free, run_get] at hfree ⊢
  rw [hsearch]
  cases hfound : search g.ptr (g.endsAt (ap - headerSize)) fuel g.freep with
  | none =>
    rw [hfound] at hfree
    cases hfree
  | some q =>
    rw [hfound] at hfree
    cases hfree
    have hjoin := join_over g os (ap - headerSize) (g.ptr q)
    have hjoin' := join_over (g.join (ap - headerSize) (g.ptr q)) os q (ap - headerSize)
    change Except.ok _ = Except.ok _
    have hptr : (g.over os).ptr q = g.ptr q := rfl
    rw [hptr, hjoin, hjoin']
    rfl

theorem nunits_pos (nbytes : UInt32) : 0 < (nunits nbytes).toNat := by
  rw [nunits_toNat]
  exact Nat.succ_pos _

theorem nunits_bounds (nbytes : UInt32) :
    nbytes.toNat + headerSize ≤ headerSize * (nunits nbytes).toNat ∧
      (nunits nbytes).toNat ≤ 2 ^ 28 + 1 := by
  have hlt := nbytes.toNat_lt
  rw [nunits_toNat]
  simp only [headerSize]
  omega

/-- The search of `malloc` before it asks for memory. -/
theorem malloc_scans {g : Heap Break} (hi : Inv g fs live) (os : Process) {nbytes : UInt32}
    (hnone : ∀ a ∈ fs, ¬ nunits nbytes ≤ g.size a) :
    ∃ q, ∀ k, malloc sysSbrk (k + 1 + fs.length) nbytes (g.over os) =
        mallocLoop sysSbrk (k + 1 + fs.length) (nunits nbytes) (k + 1) q g.freep (g.over os) ∧
      ¬ nunits nbytes ≤ g.size g.freep := by
  obtain ⟨xs, hxs, hnew, hperm⟩ := hi.ring.from_start
  have hlen : xs.length = fs.length := by
    have := hperm.length_eq
    simpa using this
  have hpos := nunits_pos nbytes
  have hall := hi.none_fits hpos hnone hperm
  obtain ⟨q, hscan⟩ :=
    @scan_grows Process sysSbrk g.freep (nunits nbytes) (g.over os) xs hxs hnew hall
  refine ⟨q, ?_⟩
  intro k
  refine ⟨?_, hall g.freep (List.mem_append_right xs List.mem_cons_self)⟩
  rw [malloc_started (h := g.over os) hi.freep_ne, ← hlen]
  exact hscan _ k

/-- The kernel has given a region: `malloc` goes on as if it were as long as it recorded. -/
theorem malloc_grows {g : Heap Break} {os os' : Process} (hgos : g.os = ghost os.sz regions)
    (hi : Inv g fs live) {nbytes : UInt32} (hnone : ∀ a ∈ fs, ¬ nunits nbytes ≤ g.size a) {p : Nat}
    (hcall : sysSbrk (sbrkArg (coreUnits (nunits nbytes))) os = (some p, os')) :
    ∃ N a h' fs', (∀ fuel, N ≤ fuel →
        malloc sysSbrk fuel nbytes (g.over os) = .ok (a + headerSize, h'.over os')) ∧
      Inv h' fs' (a :: live) ∧ h'.size a = nunits nbytes ∧
      h'.os = (ghost os.sz regions).grow 0 ((coreUnits (nunits nbytes)).toNat * headerSize) := by
  have hpos := nunits_pos nbytes
  have hbounds := nunits_bounds nbytes
  have hle := le_coreUnits (nunits nbytes)
  have hcore : (coreUnits (nunits nbytes)).toNat ≤ 2 ^ 28 + 1 := by
    unfold coreUnits
    split
    · decide
    · exact hbounds.2
  have hp : p = os.sz := sysSbrk_start hcall
  have hroom : (coreUnits (nunits nbytes)).toNat * headerSize ≤ g.os.room := by
    rw [hgos]
    simp only [ghost, headerSize]
    omega
  have hnew := hi.obtain 0 (Nat.lt_of_lt_of_le hpos hle) hroom
  obtain ⟨h₁, fs₁, hfree, hi₁, _, hos₁, b, hb, hlarge⟩ := free_spec hnew
  have hfits : ∃ a ∈ fs₁, nunits nbytes ≤ h₁.size a := by
    refine ⟨b, hb, UInt32.le_iff_toNat_le.2 ?_⟩
    simp only [Function.update_self] at hlarge
    exact hle.trans hlarge
  obtain ⟨a, h', fs', hi', hsize, _, hos', hrun⟩ := loop_over sysSbrk os' hi₁ hpos hfits
  obtain ⟨q, hscan⟩ := malloc_scans hi os hnone
  refine ⟨fs.length + fs₁.length + 2, a, h', fs', ?_, hi', hsize, ?_⟩
  · intro fuel hfuel
    obtain ⟨k, rfl⟩ : ∃ k, fuel = k + 1 + fs.length := ⟨fuel - 1 - fs.length, by omega⟩
    have hmore : morecore sysSbrk (k + 1 + fs.length) (nunits nbytes) (g.over os) =
        .ok (some h₁.freep, h₁.over os') := by
      have hask : sysSbrk (sbrkArg (coreUnits (nunits nbytes))) (g.over os).os = (some p, os') :=
        hcall
      apply @morecore_frees _ _ _ (h₁.over os') _ _ _ _ hask
      have hdone := free_over os' (hfree (k + 1 + fs.length) (by omega))
      rw [hp]
      rw [hgos] at hdone
      exact hdone
    have hlast : ¬ nunits nbytes ≤ (g.over os).size g.freep := (hscan k).2
    rw [(hscan k).1, mallocLoop_grows hlast rfl hmore]
    exact hrun _ k (by omega)
  · rw [hos', hos₁, hgos]

theorem coreUnits_long {n : UInt32} (hlong : 2 ^ 31 ≤ n.toNat * headerSize) : coreUnits n = n := by
  unfold coreUnits
  rw [if_neg]
  intro hlt
  have hlt' := UInt32.lt_iff_toNat_lt.1 hlt
  have hfour : (4096 : UInt32).toNat = 4096 := rfl
  simp only [headerSize] at hlong
  omega

/-- The block that `morecore` records ends at the break, or before it. -/
def Recorded (n : UInt32) (p : Process) : Prop :=
  ∀ a p', sysSbrk (sbrkArg (coreUnits n)) p = (some a, p') →
    a + headerSize * (coreUnits n).toNat ≤ p'.sz

theorem recorded_iff {n : UInt32} {p : Process} (hsz : p.sz ≤ Vm.TRAPFRAME) (hpos : 0 < n.toNat)
    (hle : n.toNat ≤ 2 ^ 28 + 1) :
    Recorded n p ↔ ¬ (2 ^ 31 ≤ n.toNat * headerSize ∧
      (sysSbrk (sbrkArg n) p).1.isSome = true) := by
  constructor
  · intro hrec hover
    obtain ⟨hlong, hsome⟩ := hover
    obtain ⟨a, ha⟩ := Option.isSome_iff_exists.1 hsome
    have hcall : sysSbrk (sbrkArg n) p = (some a, (sysSbrk (sbrkArg n) p).2) := Prod.ext ha rfl
    have hshort := sysSbrk_short hsz hlong hle hcall
    have hstart := sysSbrk_start hcall
    have hend := hrec a (sysSbrk (sbrkArg n) p).2 (by rw [coreUnits_long hlong]; exact hcall)
    rw [coreUnits_long hlong, Nat.mul_comm] at hend
    omega
  · intro hnot a p' hcall
    by_cases hfit : n.toNat * headerSize < 2 ^ 31
    · have hexact := sysSbrk_exact hsz (Nat.lt_of_lt_of_le hpos (le_coreUnits n))
        (coreUnits_fits hfit) hcall
      have hstart := sysSbrk_start hcall
      rw [hexact, hstart, Nat.mul_comm]
    have hlong := Nat.le_of_not_lt hfit
    rw [coreUnits_long hlong] at hcall
    exact absurd ⟨hlong, by rw [hcall]; rfl⟩ hnot

/-- **`malloc` hands out what it has.**  For an allocator whose blocks are in regions below
the break, no more of them than there is memory: with enough fuel `malloc` returns, and
its result is proper, if and only if it does not get an answer to a request for more
than an `int` can say; and this is when `morecore` records no more than it got. -/
theorem malloc_below_break_iff (h : Heap Process) (fs live : List Nat) (regions : List Interval)
    (hi : Inv (h.started.over (ghost h.os.sz regions)) fs live)
    (hphys : total regions ≤ PHYSTOP - KERNBASE) (hsz : h.os.sz ≤ Vm.TRAPFRAME) (nbytes : UInt32) :
    (∃ N r h', (∀ fuel, N ≤ fuel → malloc sysSbrk fuel nbytes h = .ok (r, h')) ∧
      (Proper h nbytes r h' ↔ ¬ Oversized h fs nbytes)) ∧
    (Recorded (nunits nbytes) h.os ↔ ¬ (2 ^ 31 ≤ (nunits nbytes).toNat * headerSize ∧
      (sysSbrk (sbrkArg (nunits nbytes)) h.os).1.isSome = true)) := by
  have hpos := nunits_pos nbytes
  have hbounds := nunits_bounds nbytes
  refine ⟨?_, recorded_iff hsz hpos hbounds.2⟩
  have hproper : ∀ {a : Nat} {h' : Heap Break} {fs' : List Nat} {os : Process},
      Inv h' fs' (a :: live) → h'.size a = nunits nbytes → h'.os.top = os.sz →
      Proper h nbytes (a + headerSize) (h'.over os) := by
    intro a h' fs' os hi' hsize htop
    refine .inr ⟨by simp only [headerSize]; omega, ?_, ?_⟩
    · rw [Nat.add_sub_cancel]
      change _ ≤ headerSize * (h'.size a).toNat
      rw [hsize]
      exact hbounds.1
    · rw [Nat.add_sub_cancel]
      change h'.after a ≤ os.sz
      rw [← htop]
      exact hi'.end_le_top List.mem_cons_self
  have hback : (h.started.over (ghost h.os.sz regions)).over h.os = h.started := by
    unfold Heap.started Heap.over
    split <;> rfl
  have hfirst : ∀ fuel, malloc sysSbrk fuel nbytes h = malloc sysSbrk fuel nbytes h.started := by
    intro fuel
    unfold Heap.started
    split
    · rename_i hzero
      apply malloc_first hzero
      have hbase := hi.based.1
      unfold Heap.started at hbase
      rw [if_pos hzero] at hbase
      exact Nat.ne_of_gt hbase
    · rfl
  by_cases hfits : ∃ a ∈ fs, nunits nbytes ≤ h.started.size a
  · obtain ⟨a, h', fs', hi', hsize, _, hos, hrun⟩ := loop_over sysSbrk h.os hi hpos hfits
    refine ⟨fs.length + 1, a + headerSize, h'.over h.os, ?_, ?_⟩
    · intro fuel hfuel
      have hstart : h.started.freep ≠ 0 := hi.freep_ne
      rw [hfirst, malloc_started hstart, ← hback]
      exact hrun fuel fuel hfuel
    · refine ⟨fun _ hover => ?_, fun _ => hproper hi' hsize (by rw [hos]; rfl)⟩
      obtain ⟨a, ha, hfit⟩ := hfits
      exact hover.1 a ha hfit
  have hnone : ∀ a ∈ fs, ¬ nunits nbytes ≤ h.started.size a := fun a ha hfit => hfits ⟨a, ha, hfit⟩
  cases hcall : sysSbrk (sbrkArg (coreUnits (nunits nbytes))) h.os with
  | mk answer os' =>
    cases answer with
    | none =>
      obtain ⟨q, hscan⟩ := malloc_scans hi h.os hnone
      refine ⟨fs.length + 1, 0, { h.started with os := os' }, ?_, ?_⟩
      · intro fuel hfuel
        obtain ⟨k, rfl⟩ : ∃ k, fuel = k + 1 + fs.length := ⟨fuel - 1 - fs.length, by omega⟩
        have hloop := (hscan k).1
        rw [hback] at hloop
        have hlast : ¬ nunits nbytes ≤ h.started.size h.started.freep := (hscan k).2
        rw [hfirst, hloop]
        apply mallocLoop_fails hlast rfl
        apply morecore_fails
        have hos : h.started.os = h.os := by
          unfold Heap.started
          split <;> rfl
        rw [hos]
        exact hcall
      · refine ⟨fun _ hover => ?_, fun _ => .inl ⟨rfl, rfl⟩⟩
        have hsome := hover.2.2
        rw [← coreUnits_long hover.2.1, hcall] at hsome
        cases hsome
    | some p =>
      obtain ⟨N, a, h', fs', hrun, hi', hsize, hos⟩ :=
        @malloc_grows fs live regions _ h.os os' rfl hi nbytes hnone p hcall
      rw [hback] at hrun
      refine ⟨N, a + headerSize, h'.over os', ?_, ?_⟩
      · intro fuel hfuel
        rw [hfirst]
        exact hrun fuel hfuel
      · by_cases hfit : (nunits nbytes).toNat * headerSize < 2 ^ 31
        · refine ⟨fun _ hover => by have := hover.2.1; omega, fun _ => hproper hi' hsize ?_⟩
          rw [hos, sysSbrk_exact hsz
            (Nat.lt_of_lt_of_le hpos (le_coreUnits _)) (coreUnits_fits hfit) hcall]
          rfl
        · have hlong' : 2 ^ 31 ≤ (nunits nbytes).toNat * headerSize := Nat.le_of_not_lt hfit
          have heq := coreUnits_long hlong'
          have hover : Oversized h fs nbytes := by
            refine ⟨hnone, hlong', ?_⟩
            rw [← heq, hcall]
            rfl
          refine ⟨fun hprop => ?_, fun hnot => absurd hover hnot⟩
          exfalso
          rw [heq] at hcall hos
          have hshort := sysSbrk_short hsz hlong' hbounds.2 hcall
          have hmemory : PHYSTOP - KERNBASE = 2 ^ 27 := by decide
          have hsmall : total regions < headerSize * (h'.size a).toNat - 16 := by
            rw [hsize, Nat.mul_comm]
            omega
          have hbeyond := @Inv.beyond h' fs' (a :: live) a h.os.sz
            ((nunits nbytes).toNat * headerSize) regions hi' (by rw [hos]; rfl)
            List.mem_cons_self hsmall
          rcases hprop with hzero | hblock
          · have := hzero.1
            simp only [headerSize] at this
            omega
          have hend := hblock.2.2
          rw [Nat.add_sub_cancel] at hend
          change h'.after a ≤ os'.sz at hend
          omega

/-- A process before its first `malloc`. -/
def smallHeap : Heap Process :=
  ⟨fun _ => 0, fun _ => 0, 4096, 0, ⟨20480, fun _ => true, 0⟩⟩

theorem smallHeap_inv : Inv (smallHeap.started.over (ghost smallHeap.os.sz [])) [] [] := by
  have hinit := @inv_init ⟨fun _ => 0, fun _ => 0, 4096, 0, ghost 20480 []⟩ rfl
    (by simp [ghost, headerSize]) (by simp [ghost, headerSize])
  exact hinit

/-- A request of a hundred bytes. -/
theorem malloc_below_break_iff_small :
    ∃ N r h', (∀ fuel, N ≤ fuel → malloc sysSbrk fuel 100 smallHeap = .ok (r, h')) ∧
      Proper smallHeap 100 r h' := by
  obtain ⟨⟨N, r, h', hrun, hiff⟩, _⟩ := malloc_below_break_iff smallHeap [] [] [] smallHeap_inv
    (by simp) (by decide) 100
  refine ⟨N, r, h', hrun, hiff.2 ?_⟩
  intro hover
  exact absurd hover.2.1 (by decide)

/-- **A request of `2 ^ 32 - 1` bytes** asks the kernel for 16 bytes and gets them: `malloc`
returns the address of the break. -/
theorem malloc_above_break :
    ∃ h', malloc sysSbrk 4 0xFFFFFFFF smallHeap = .ok (20496, h') ∧ h'.os.sz = 20496 ∧
      (h'.size 20480).toNat = 2 ^ 28 + 1 ∧ ¬ Proper smallHeap 0xFFFFFFFF 20496 h' := by
  have hrun : ∃ h', malloc sysSbrk 4 0xFFFFFFFF smallHeap = .ok (20496, h') ∧ h'.os.sz = 20496 ∧
      (h'.size 20480).toNat = 2 ^ 28 + 1 := ⟨_, rfl, rfl, rfl⟩
  obtain ⟨h', hmalloc, hsz, hsize⟩ := hrun
  refine ⟨h', hmalloc, hsz, hsize, ?_⟩
  intro hprop
  rcases hprop with hzero | hblock
  · cases hzero.1
  have hend := hblock.2.2
  change 20480 + headerSize * (h'.size 20480).toNat ≤ h'.os.sz at hend
  rw [hsz, hsize] at hend
  simp only [headerSize] at hend
  omega

end Malloc

end Kus.Umalloc
