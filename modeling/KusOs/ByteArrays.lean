import KusOs.FileContent

/-!
# Files as independent byte arrays

The reference keeps a list of bytes for every inode.  A write that reports `r` replaces
`r` bytes of one list; a read returns a part of it; `itrunc` empties it.

* `Reference` — the runs of the reference, with what the calls report;
* `run_refines` — one call on a consistent volume does what the reference does;
* `inodes_are_byte_arrays` — so does every sequence of calls, and files have no holes.
-/

namespace Kus.Volume

open Function Hoare LittleEndian
open Fs (FsState)

/-! ### The reference -/

abbrev Contents := Nat → List UInt8

/-- Replace the bytes from `off` by `p`. -/
def overwrite (c : List UInt8) (off : Nat) (p : List UInt8) : List UInt8 :=
  c.take off ++ p ++ c.drop (off + p.length)

/-- The calls; buffers are in the kernel or fully accessible. -/
inductive Op
  | writei (i : Nat) (off n : UInt32) (src : Nat → UInt8)
  | readi (i : Nat) (off n : UInt32)
  | itrunc (i : Nat)

def Op.inum : Op → Nat
  | .writei i _ _ _ => i
  | .readi i _ _ => i
  | .itrunc i => i

/-- What a call reports: the result of a write and whether every block is in use
afterwards; the result of a read and the bytes stored. -/
inductive Result
  | wrote (r : Int) (full : Bool)
  | read (r : Int) (bytes : List UInt8)
  | truncated

/-- The first `n` bytes of a buffer. -/
def buffer (src : Nat → UInt8) (n : Nat) : List UInt8 := (List.range n).map src

/-- What the reference has after a call that reports `res`. -/
def Op.effect (c : Contents) : Op → Result → Contents
  | .writei i off _ src, .wrote r _ =>
    if r < 0 then c
    else update c i (overwrite (c i) off.toNat (buffer src r.toNat))
  | .itrunc i, _ => update c i []
  | _, _ => c

/-- What a call may report. -/
def Op.Reports (c : Contents) : Op → Result → Prop
  | .writei i off n _, .wrote r full =>
    if off.toNat ≤ (c i).length ∧ off.toNat + n.toNat ≤ MAXFILE * BSIZE then
      0 ≤ r ∧ r ≤ n.toNat ∧ (r < n.toNat → full = true)
    else r = -1
  | .readi i off n, .read r bytes =>
    r = bytes.length ∧
      bytes = if off.toNat + n.toNat < 2 ^ 32 then ((c i).drop off.toNat).take n.toNat else []
  | .itrunc _, .truncated => True
  | _, _ => False

/-- A run of the reference from `c` to `c'`. -/
inductive Reference : Contents → List (Op × Result) → Contents → Prop
  | nil (c : Contents) : Reference c [] c
  | cons {c c' : Contents} {op : Op} {res : Result} {rest : List (Op × Result)}
      (hres : op.Reports c res) (hrest : Reference (op.effect c res) rest c') :
      Reference c ((op, res) :: rest) c'

/-! ### The calls on a volume -/

def Op.run (sb : Superblock) : Op → VolM Result
  | .writei i off n src => do
    ilock i
    let r ← Volume.writei sb i off.toNat n.toNat ⟨src, n.toNat⟩
    let v ← get
    pure (.wrote r ((List.range sb.size).all v.bitmap))
  | .readi i off n => do
    ilock i
    let (r, bytes) ← Volume.readi sb i off.toNat n.toNat n.toNat
    pure (.read r bytes)
  | .itrunc i => do
    ilock i
    Volume.itrunc i
    pure .truncated

def runOps (sb : Superblock) : List Op → VolM (List (Op × Result))
  | [] => pure []
  | op :: ops => do
    let res ← op.run sb
    let rest ← runOps sb ops
    pure ((op, res) :: rest)

/-- The bytes of every inode in use. -/
def Vol.content (v : Vol) : Contents := fun i =>
  if (v.ip i).type = 0 then [] else v.bytes i 0 (v.size i)

section Bytes

variable {v w : Vol} {i off n : Nat}

theorem Vol.content_of_allocated (h : v.Allocated i) : v.content i = v.bytes i 0 (v.size i) :=
  if_neg h

theorem Vol.take_bytes (v : Vol) (i off m n : Nat) :
    (v.bytes i off n).take m = v.bytes i off (min m n) := by
  unfold Vol.bytes
  rw [← List.map_take, List.take_range]

theorem Vol.drop_bytes (v : Vol) (i off m n : Nat) :
    (v.bytes i off n).drop m = v.bytes i (off + m) (n - m) := by
  by_cases hm : m ≤ n
  · have hsplit := v.bytes_append i off m (n - m)
    rw [Nat.add_sub_cancel' hm] at hsplit
    rw [← hsplit, List.drop_left' (v.length_bytes i off m)]
  have hzero : n - m = 0 := by omega
  rw [hzero, List.drop_eq_nil_of_le (by simp; omega)]
  rfl

/-- Files with the same bytes have the same list. -/
theorem Vol.bytes_congr (h : ∀ k, off ≤ k → k < off + n → w.byte i k = v.byte i k) :
    w.bytes i off n = v.bytes i off n := by
  apply List.map_congr_left
  intro k hk
  rw [List.mem_range] at hk
  exact h (off + k) (by omega) (by omega)

end Bytes

section Steps

variable {sb : Superblock} {L : List Nat} {v w : Vol} {i j off n r c : Nat} {src : Source}

/-- A file has no hole below its size. -/
theorem Held.filled (h : Held sb L v) (hi : v.Allocated i) {k : Nat} (hk : k < v.size i) :
    v.block i (k / BSIZE) ≠ 0 := by
  have hstart : k / BSIZE * BSIZE < v.size i := by
    have hle := Nat.div_mul_le_self k BSIZE
    omega
  obtain ⟨x, hx, hne⟩ := (h.consistent.inodes i).full hi (k / BSIZE) hstart
  unfold Vol.block
  rw [hx]
  exact hne

theorem Same.content (h : Same v w) : w.content = v.content := by
  funext j
  unfold Vol.content Vol.bytes Vol.size
  rw [h.ip, h.byte]

theorem Same.allocated (h : Same v w) : w.Allocated j ↔ v.Allocated j := by
  unfold Vol.Allocated
  rw [h.ip]

/-- Another file whose inode and bytes are as they were. -/
theorem content_congr (hip : w.ip j = v.ip j)
    (hbyte : v.Allocated j → ∀ k, k < v.size j → w.byte j k = v.byte j k) :
    w.content j = v.content j := by
  unfold Vol.content Vol.size
  rw [hip]
  by_cases ht : (v.ip j).type = 0
  · rw [if_pos ht, if_pos ht]
  rw [if_neg ht, if_neg ht]
  apply Vol.bytes_congr
  intro k _ hk
  exact hbyte ht k (by rw [Nat.zero_add] at hk; exact hk)

theorem Wrote.ip (h : Wrote i off r c src v w) (hj : j ≠ i) : w.ip j = v.ip j := by
  unfold Vol.ip
  rw [h.inode j hj, h.dinode j hj]

/-- A write leaves the other files alone. -/
theorem Wrote.content_other (h : Wrote i off r c src v w) (hv : Held sb L v) (hj : j ≠ i) :
    w.content j = v.content j := by
  apply content_congr (h.ip hj)
  intro hj' k hk
  exact h.byte j k (hv.filled hj' hk) fun hin => hj hin.1

theorem Quiet.content_other (h : Quiet i v w) (hj : j ≠ i) : w.content j = v.content j := by
  apply content_congr (h.ip hj)
  intro _ k _
  unfold Vol.byte Vol.view
  rw [h.block hj, h.cache, h.disk]

/-- A write replaces bytes of its own file. -/
theorem Wrote.content_self (h : Wrote i off r r src v w) (hv : Held sb L v) (hi : v.Allocated i)
    (hw : w.Allocated i) (hoff : off ≤ v.size i) (hsize : w.size i = max (v.size i) (off + r)) :
    w.content i = overwrite (v.content i) off (src.bytes 0 r) := by
  have hbefore : w.bytes i 0 off = v.bytes i 0 off := by
    apply Vol.bytes_congr
    intro k _ hk
    exact h.byte i k (hv.filled hi (by omega)) (by omega)
  have hpart : w.bytes i off r = src.bytes 0 r := by
    apply List.map_congr_left
    intro k hk
    rw [List.mem_range] at hk
    rw [h.written (off + k) (by omega) (by omega)]
    congr 1
    omega
  have hafter : w.bytes i (off + r) (v.size i - (off + r)) =
      v.bytes i (off + r) (v.size i - (off + r)) := by
    apply Vol.bytes_congr
    intro k hk hk'
    exact h.byte i k (hv.filled hi (by omega)) (by omega)
  rw [Vol.content_of_allocated hi, Vol.content_of_allocated hw, hsize]
  unfold overwrite
  rw [Vol.take_bytes, Vol.drop_bytes, Source.length_bytes, Nat.zero_add, Nat.min_eq_left hoff,
    ← hbefore, ← hpart, ← hafter]
  have hjoin := w.bytes_append i 0 off r
  rw [Nat.zero_add] at hjoin
  have hjoin' := w.bytes_append i 0 (off + r) (v.size i - (off + r))
  rw [Nat.zero_add] at hjoin'
  rw [hjoin, hjoin']
  congr 1
  omega

/-- What the calls keep between them. -/
structure Refines (sb : Superblock) (v : Vol) (op : Op) (res : Result) (w : Vol) : Prop where
  consistent : Fs.Consistent sb w.store
  allocated : ∀ j, w.Allocated j ↔ v.Allocated j
  reports : op.Reports v.content res
  effect : w.content = op.effect v.content res

theorem length_content (hi : v.Allocated i) : (v.content i).length = v.size i := by
  rw [Vol.content_of_allocated hi, Vol.length_bytes]

theorem writei_refines (hsb : sb.size ≤ 2 ^ 32) (hv : Held sb [] v) (hi : v.Allocated i)
    (off n : UInt32) (src : Nat → UInt8) :
    ∃ res w, (Op.writei i off n src).run sb v = .ok (res, w) ∧
      Refines sb v (.writei i off n src) res w := by
  obtain ⟨v₁, hlock, hheld, hsame⟩ := ilock_spec hv hi
  have hi₁ : v₁.Allocated i := hsame.allocated.2 hi
  have hlen : (v.content i).length = v₁.size i := by
    rw [← hsame.content, length_content hi₁]
  have hfinish : ∀ r w, writei sb i off.toNat n.toNat ⟨src, n.toNat⟩ v₁ = .ok (r, w) →
      (Op.writei i off n src).run sb v = .ok (.wrote r ((List.range sb.size).all w.bitmap), w) := by
    intro r w hrun
    simp only [Op.run]
    rw [run_bind_ok hlock, run_bind_ok hrun]
    rfl
  by_cases hok : off.toNat ≤ v₁.size i ∧ off.toNat + n.toNat ≤ MAXFILE * BSIZE
  · obtain ⟨r, c, w, hrun, hw, hwrote, hsize, hended⟩ :=
      writei_spec hsb hheld List.mem_cons_self hok.1 hok.2 ⟨src, n.toNat⟩
    -- an accessible source never fails
    have hend : c = r ∧ r ≤ n.toNat ∧ (r < n.toNat → Fs.Full sb w.store) := by
      cases hended with
      | all _ => exact ⟨rfl, Nat.le_refl _, fun h => absurd h (Nat.lt_irrefl _)⟩
      | full hr _ _ hfull => exact ⟨rfl, Nat.le_of_lt hr, fun _ => hfull⟩
      | fault hlimit _ _ _ => exact absurd hlimit (Nat.lt_irrefl _)
    obtain ⟨hc, hr, hfull⟩ := hend
    rw [hc] at hwrote
    have hwi : w.Allocated i := hw.allocated List.mem_cons_self
    refine ⟨_, w, hfinish r w hrun, hw.consistent, ?_, ?_, ?_⟩
    · intro j
      by_cases hj : j = i
      · rw [hj]
        exact ⟨fun _ => hi, fun _ => hwi⟩
      · unfold Vol.Allocated
        rw [hwrote.ip hj, hsame.ip]
    · simp only [Op.Reports]
      rw [hlen, if_pos hok]
      refine ⟨Int.natCast_nonneg r, by omega, ?_⟩
      intro hlt
      rw [List.all_eq_true]
      intro b hb
      exact hfull (by omega) b (List.mem_range.1 hb)
    · funext j
      simp only [Op.effect]
      rw [if_neg (by omega), ← hsame.content]
      by_cases hj : j = i
      · rw [hj, update_self,
          hwrote.content_self hheld hi₁ hwi hok.1 hsize]
        congr 1
        simp [Source.bytes, buffer]
      · rw [update_of_ne hj]
        exact hwrote.content_other hheld hj
  · have hrun := @writei_reject sb _ _ _ _ hok off.toNat_lt n.toNat_lt ⟨src, n.toNat⟩
    refine ⟨_, v₁, hfinish (-1) v₁ hrun, hheld.consistent, fun j => hsame.allocated, ?_, ?_⟩
    · simp only [Op.Reports]
      rw [hlen, if_neg hok]
      trivial
    · rw [hsame.content]
      simp only [Op.effect]
      rw [if_pos (by omega)]

theorem readi_refines (hv : Held sb [] v) (hi : v.Allocated i) (off n : UInt32) :
    ∃ res w, (Op.readi i off n).run sb v = .ok (res, w) ∧ Same v w ∧
      Refines sb v (.readi i off n) res w := by
  obtain ⟨v₁, hlock, hheld, hsame⟩ := ilock_spec hv hi
  have hi₁ : v₁.Allocated i := hsame.allocated.2 hi
  have hcontent : v.content i = v₁.bytes i 0 (v₁.size i) := by
    rw [← hsame.content, Vol.content_of_allocated hi₁]
  have hfinish : ∀ r bytes, readi sb i off.toNat n.toNat n.toNat v₁ = .ok ((r, bytes), v₁) →
      (Op.readi i off n).run sb v = .ok (.read r bytes, v₁) := by
    intro r bytes hrun
    simp only [Op.run]
    rw [run_bind_ok hlock, run_bind_ok hrun]
    rfl
  by_cases hok : off.toNat ≤ v₁.size i ∧ off.toNat + n.toNat < 2 ^ 32
  · have hrun := readi_spec hheld List.mem_cons_self hok.1 hok.2 n.toNat
    rw [if_pos (Nat.min_le_left _ _)] at hrun
    refine ⟨_, v₁, hfinish _ _ hrun, hsame, hheld.consistent, fun j => hsame.allocated, ?_, ?_⟩
    · simp only [Op.Reports]
      rw [if_pos hok.2, hcontent, Vol.drop_bytes, Vol.take_bytes, Nat.zero_add, Vol.length_bytes]
      exact ⟨rfl, rfl⟩
    · rw [hsame.content]
      rfl
  have hrun := @readi_reject sb _ _ _ _ hok off.toNat_lt n.toNat_lt n.toNat
  refine ⟨_, v₁, hfinish 0 [] hrun, hsame, hheld.consistent, fun j => hsame.allocated, ?_, ?_⟩
  · simp only [Op.Reports]
    refine ⟨rfl, ?_⟩
    by_cases hsum : off.toNat + n.toNat < 2 ^ 32
    · rw [if_pos hsum, hcontent, Vol.drop_bytes, Vol.take_bytes]
      have hend : min n.toNat (v₁.size i - off.toNat) = 0 := by omega
      rw [hend]
      rfl
    · rw [if_neg hsum]
  · rw [hsame.content]
    rfl

theorem itrunc_refines (hv : Held sb [] v) (hi : v.Allocated i) :
    ∃ res w, (Op.itrunc i).run sb v = .ok (res, w) ∧ Refines sb v (.itrunc i) res w := by
  obtain ⟨v₁, hlock, hheld, hsame⟩ := ilock_spec hv hi
  obtain ⟨w, hrun, hw, hsize, _, hquiet⟩ := itrunc_spec hheld List.mem_cons_self
  have hwi : w.Allocated i := hw.allocated List.mem_cons_self
  refine ⟨.truncated, w, ?_, hw.consistent, ?_, trivial, ?_⟩
  · simp only [Op.run]
    rw [run_bind_ok hlock, run_bind_ok hrun]
    rfl
  · intro j
    by_cases hj : j = i
    · rw [hj]
      exact ⟨fun _ => hi, fun _ => hwi⟩
    · unfold Vol.Allocated
      rw [hquiet.ip hj, hsame.ip]
  · funext j
    simp only [Op.effect]
    rw [← hsame.content]
    by_cases hj : j = i
    · rw [hj, update_self, Vol.content_of_allocated hwi, hsize]
      rfl
    · rw [update_of_ne hj]
      exact hquiet.content_other hj

/-- **One call.** -/
theorem run_refines (hsb : sb.size ≤ 2 ^ 32) (hv : Held sb [] v) (op : Op)
    (hop : v.Allocated op.inum) : ∃ res w, op.run sb v = .ok (res, w) ∧ Refines sb v op res w := by
  cases op with
  | writei i off n src => exact writei_refines hsb hv hop off n src
  | readi i off n =>
    obtain ⟨res, w, hrun, _, href⟩ := readi_refines hv hop off n
    exact ⟨res, w, hrun, href⟩
  | itrunc i => exact itrunc_refines hv hop

end Steps

section Runs

variable {sb : Superblock}

theorem runOps_refines (hsb : sb.size ≤ 2 ^ 32) (ops : List Op) {v : Vol} (hv : Held sb [] v)
    (hops : ∀ op ∈ ops, v.Allocated op.inum) :
    ∃ trace w, runOps sb ops v = .ok (trace, w) ∧ trace.map Prod.fst = ops ∧
      Reference v.content trace w.content ∧ Held sb [] w := by
  induction ops generalizing v with
  | nil => exact ⟨[], v, rfl, rfl, .nil _, hv⟩
  | cons op ops ih =>
    obtain ⟨res, u, hrun, href⟩ := run_refines hsb hv op (hops op List.mem_cons_self)
    have hrest : ∀ op' ∈ ops, u.Allocated op'.inum := by
      intro op' hop'
      exact (href.allocated _).2 (hops op' (List.mem_cons_of_mem _ hop'))
    obtain ⟨trace, w, htail, hops', htrace, hw⟩ := ih ⟨href.consistent, by simp⟩ hrest
    refine ⟨(op, res) :: trace, w, ?_, ?_, ?_, hw⟩
    · unfold runOps
      rw [run_bind_ok hrun, run_bind_ok htail]
      rfl
    · rw [List.map_cons, hops']
    · rw [href.effect] at htrace
      exact .cons href.reports htrace

/-- **Inodes are independent byte arrays.**

From a consistent volume every sequence of calls on inodes in use returns; what the
calls report and the contents of all files are those of a run of the reference.
Afterwards every block index below the size of a file has a block of its own, and a
read changes neither the bitmap nor the blocks of a file. -/
theorem inodes_are_byte_arrays (sb : Superblock) (hsb : sb.size ≤ 2 ^ 32) (v : Vol)
    (hv : Fs.Consistent sb v.store) (ops : List Op) (hops : ∀ op ∈ ops, v.Allocated op.inum) :
    ∃ trace w, runOps sb ops v = .ok (trace, w) ∧ trace.map Prod.fst = ops ∧
      Reference v.content trace w.content ∧ Fs.Consistent sb w.store ∧
      (∀ i, w.Allocated i → ∀ bn, bn * BSIZE < w.size i →
        w.block i bn ≠ 0 ∧ w.bitmap (w.block i bn) = true) ∧
      ∀ i off n, w.Allocated i → ∃ res w', (Op.readi i off n).run sb w = .ok (res, w') ∧
        w'.bitmap = w.bitmap ∧ w'.block = w.block := by
  obtain ⟨trace, w, hrun, hfst, htrace, hw⟩ := runOps_refines hsb ops ⟨hv, by simp⟩ hops
  refine ⟨trace, w, hrun, hfst, htrace, hw.consistent, ?_, ?_⟩
  · intro i hi bn hbn
    have hne := hw.filled hi hbn
    have hdiv : bn * BSIZE / BSIZE = bn := Nat.mul_div_cancel bn (by decide)
    rw [hdiv] at hne
    exact ⟨hne, block_marked hw.consistent.owned hne⟩
  · intro i off n hi
    obtain ⟨res, w', hread, hsame, _⟩ := readi_refines hw hi off n
    exact ⟨res, w', hread, hsame.bitmap, hsame.block⟩

/-- Ten blocks, of which the root directory has one. -/
def smallVol : Vol where
  bitmap b := decide (b < 6)
  dinode i := if i = 1 then Fs.smallRoot else Dinode.zero
  inode _ := none
  disk _ := Mkfs.zeroes
  cache _ := none
  log := []

theorem smallVol_consistent : Fs.Consistent Fs.small smallVol.store := by
  have hstore : smallVol.store = Fs.smallStart.toStore := by
    have hwords : smallVol.store.words = Fs.smallStart.words := by
      funext b j
      exact getLE_zero fun _ _ _ => rfl
    unfold Vol.store at hwords ⊢
    simp only at hwords
    rw [hwords]
    rfl
  rw [hstore]
  exact Fs.smallStart_consistent

theorem smallVol_allocated : smallVol.Allocated 1 := by
  change Fs.smallRoot.type ≠ 0
  decide

/-- A write into two blocks, a read of both, and the end of the file. -/
def smallCalls : List Op :=
  [.writei 1 30 1500 fun _ => 7, .readi 1 0 2000, .itrunc 1]

theorem inodes_are_byte_arrays_small :
    ∃ trace w, runOps Fs.small smallCalls smallVol = .ok (trace, w) ∧
      trace.map Prod.fst = smallCalls ∧ Reference smallVol.content trace w.content := by
  obtain ⟨trace, w, hrun, hops, htrace, _⟩ := inodes_are_byte_arrays Fs.small (by decide) smallVol
    smallVol_consistent smallCalls (by
      intro op hop
      simp only [smallCalls, List.mem_cons, List.not_mem_nil, or_false] at hop
      rcases hop with hop | hop | hop
      · rw [hop]
        exact smallVol_allocated
      · rw [hop]
        exact smallVol_allocated
      · rw [hop]
        exact smallVol_allocated)
  exact ⟨trace, w, hrun, hops, htrace⟩

/-- A read whose end `off + n` does not fit in 32 bits delivers nothing, although the
file goes on at `off`. -/
theorem readi_nothing_on_overflow :
    Fs.Consistent Fs.small smallVol.store ∧ smallVol.Allocated 1 ∧
      (∃ w, (Op.readi 1 1 0xFFFFFFFF).run Fs.small smallVol = .ok (.read 0 [], w)) ∧
      ((smallVol.content 1).drop 1).take 0xFFFFFFFF ≠ [] := by
  refine ⟨smallVol_consistent, smallVol_allocated, ?_, ?_⟩
  · obtain ⟨v₁, hlock, _, hsame⟩ :=
      ilock_spec (⟨smallVol_consistent, by simp⟩ : Held Fs.small [] smallVol) smallVol_allocated
    have hread := @readi_reject Fs.small v₁ 1 1 0xFFFFFFFF (by omega) (by omega) (by omega)
      0xFFFFFFFF
    refine ⟨v₁, ?_⟩
    simp only [Op.run]
    rw [run_bind_ok hlock]
    change (readi Fs.small 1 1 0xFFFFFFFF 0xFFFFFFFF >>= _) v₁ = _
    rw [run_bind_ok hread]
    rfl
  · intro hnil
    have hlen := congrArg List.length hnil
    have hsize : smallVol.size 1 = 32 := rfl
    rw [List.length_take, List.length_drop, length_content smallVol_allocated, hsize] at hlen
    simp at hlen

end Runs

end Kus.Volume
