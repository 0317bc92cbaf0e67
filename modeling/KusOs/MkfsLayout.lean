import Mathlib
import KusOs.Mkfs
import KusOs.OwnershipMap

/-!
# The layout of an image under construction

* `getDinode_putDinode` — a dinode is read back as it was written;
* `FileOk` — the blocks and the bytes of one file;
* `Layout` — the blocks handed out so far are those of the files, each once, and
  the others are zero; kept by the allocations (`Layout.allocDirect`,
  `Layout.allocIndirect`, `Layout.allocWord`) and by writing data (`Layout.write`).
-/

namespace Kus.Mkfs

open Function LittleEndian Kus.Dir Ownership

attribute [local simp] setAddr indirectWord

/-! ### Dinodes in a block -/

section Dinodes

variable {buf buf' : Buffer} {o o' k : Nat} {d : Dinode}

/-- The numbers of a dinode fit their fields. -/
def Fits (d : Dinode) : Prop := d.size < 2 ^ 32 ∧ ∀ k, d.addrs k < 2 ^ 32

theorem getShort_congr (h : ∀ k, o ≤ k → k < o + 2 → buf' k = buf k) :
    getShort buf' o = getShort buf o := by
  unfold getShort
  rw [getLE_congr h]

theorem getShort_putShort (buf : Buffer) (o : Nat) (v : Int16) :
    getShort (putShort buf o v) o = v := by
  unfold getShort putShort
  rw [getLE_putLE v.toUInt16.toNat_lt]
  simp

/-- A dinode depends on its 64 bytes only. -/
theorem getDinode_congr (h : ∀ k, o ≤ k → k < o + 64 → buf' k = buf k) :
    getDinode buf' o = getDinode buf o := by
  have haddrs : ∀ k : Fin (NDIRECT + 1),
      getLE buf' (o + 12 + 4 * k) 4 = getLE buf (o + 12 + 4 * k) 4 := by
    intro k
    have hk := k.isLt
    simp only [NDIRECT] at hk
    exact getLE_congr fun j hj hj' => h j (by omega) (by omega)
  unfold getDinode
  congr 1
  · exact getShort_congr fun j hj hj' => h j (by omega) (by omega)
  · exact getShort_congr fun j hj hj' => h j (by omega) (by omega)
  · exact getShort_congr fun j hj hj' => h j (by omega) (by omega)
  · exact getShort_congr fun j hj hj' => h j (by omega) (by omega)
  · exact getLE_congr fun j hj hj' => h j (by omega) (by omega)
  · funext k
    exact haddrs k

/-- Writing a dinode changes its 64 bytes only. -/
theorem putDinode_frame (h : k < o ∨ o + 64 ≤ k) : putDinode buf o d k = buf k := by
  unfold putDinode putShort
  rcases h with h | h
  · rw [putWords_of_lt (by omega), putLE_of_lt (by omega), putLE_of_lt (by omega),
      putLE_of_lt (by omega), putLE_of_lt (by omega), putLE_of_lt (by omega)]
  rw [putWords_of_le (by simp only [NDIRECT]; omega), putLE_of_le (by omega),
    putLE_of_le (by omega), putLE_of_le (by omega), putLE_of_le (by omega),
    putLE_of_le (by omega)]

theorem getDinode_putDinode (hd : Fits d) : getDinode (putDinode buf o d) o = d := by
  obtain ⟨hsize, haddrs⟩ := hd
  have htype : getShort (putDinode buf o d) o = d.type := by
    rw [← getShort_putShort buf o d.type]
    apply getShort_congr
    intro j hj hj'
    unfold putDinode putShort
    rw [putWords_of_lt (by omega), putLE_of_lt (by omega), putLE_of_lt (by omega),
      putLE_of_lt (by omega), putLE_of_lt (by omega)]
  have hmajor : getShort (putDinode buf o d) (o + 2) = d.major := by
    rw [← getShort_putShort (putShort buf o d.type) (o + 2) d.major]
    apply getShort_congr
    intro j hj hj'
    unfold putDinode putShort
    rw [putWords_of_lt (by omega), putLE_of_lt (by omega), putLE_of_lt (by omega),
      putLE_of_lt (by omega)]
  have hminor : getShort (putDinode buf o d) (o + 4) = d.minor := by
    rw [← getShort_putShort (putShort (putShort buf o d.type) (o + 2) d.major) (o + 4) d.minor]
    apply getShort_congr
    intro j hj hj'
    unfold putDinode putShort
    rw [putWords_of_lt (by omega), putLE_of_lt (by omega), putLE_of_lt (by omega)]
  have hnlink : getShort (putDinode buf o d) (o + 6) = d.nlink := by
    rw [← getShort_putShort (putShort (putShort (putShort buf o d.type) (o + 2) d.major) (o + 4)
      d.minor) (o + 6) d.nlink]
    apply getShort_congr
    intro j hj hj'
    unfold putDinode
    rw [putWords_of_lt (by omega), putLE_of_lt (by omega)]
  have hsz : getLE (putDinode buf o d) (o + 8) 4 = d.size := by
    unfold putDinode
    rw [getLE_congr fun j _ hj => putWords_of_lt (by omega)]
    exact getLE_putLE (by simpa using hsize)
  have hwords : ∀ k : Fin (NDIRECT + 1),
      getLE (putDinode buf o d) (o + 12 + 4 * k) 4 = d.addrs k := by
    intro k
    have hk : addrWords d k = d.addrs k := by
      unfold addrWords
      rw [dif_pos k.isLt]
    unfold putDinode
    rw [getLE_putWords k.isLt (by rw [hk]; simpa using haddrs k), hk]
  unfold getDinode
  rw [htype, hmajor, hminor, hnlink, hsz]
  congr 1
  funext k
  exact hwords k

theorem getDinode_zero (h : ∀ k, buf k = 0) : getDinode buf o = Dinode.zero := by
  have hshort : ∀ o, getShort buf o = 0 := by
    intro o
    unfold getShort
    rw [getLE_zero fun k _ _ => h k]
    rfl
  unfold getDinode Dinode.zero
  rw [hshort, hshort, hshort, hshort, getLE_zero fun k _ _ => h k]
  congr 1
  funext k
  exact getLE_zero fun k _ _ => h k

end Dinodes

/-! ### One file -/

variable {bn : Nat} {img : Nat → Buffer}

/-- The inodes for which there is room before the bitmap. -/
def inodeArea : Nat := IPB * ninodeblocks

/-- Blocks of a file of `n` bytes. -/
def nblocks (n : Nat) : Nat := (n + BSIZE - 1) / BSIZE

/-- The blocks of a file: the first `nb` are there, and they hold the bytes of the
file and then zeros. -/
structure FileOk (img : Nat → Buffer) (d : Dinode) (data : List UInt8) (nb : Nat) : Prop where
  len : data.length ≤ nb * BSIZE
  nb_le : nb ≤ MAXFILE
  mapped : ∀ bn, bn < MAXFILE → (blockAddr img d bn ≠ 0 ↔ bn < nb)
  bytes : ∀ bn, bn < nb → ∀ k, k < BSIZE →
    img (blockAddr img d bn) k = data.getD (bn * BSIZE + k) 0

theorem blockAddr_direct {d : Dinode} (h : bn < NDIRECT) :
    blockAddr img d bn = d.addrs ⟨bn, Nat.lt_succ_of_lt h⟩ := by
  unfold blockAddr
  rw [dif_pos h]

theorem blockAddr_word {d : Dinode} (h : NDIRECT ≤ bn) :
    blockAddr img d bn =
      if d.addrs indirect = 0 then 0 else indirectWord img d (bn - NDIRECT) := by
  unfold blockAddr
  rw [dif_neg (by omega)]

/-- A file depends on its addresses and its blocks only. -/
theorem FileOk.congr {img' : Nat → Buffer} {d d' : Dinode} {data : List UInt8} {nb : Nat}
    (h : FileOk img d data nb) (hd : d'.addrs = d.addrs)
    (hind : d.addrs indirect ≠ 0 → img' (d.addrs indirect) = img (d.addrs indirect))
    (hdata : ∀ bn, bn < nb → img' (blockAddr img d bn) = img (blockAddr img d bn)) :
    FileOk img' d' data nb := by
  have haddr : ∀ bn, blockAddr img' d' bn = blockAddr img d bn := by
    intro bn
    by_cases hbn : bn < NDIRECT
    · rw [blockAddr_direct hbn, blockAddr_direct hbn, hd]
    rw [blockAddr_word (by omega), blockAddr_word (by omega), hd]
    by_cases hzero : d.addrs indirect = 0
    · rw [if_pos hzero, if_pos hzero]
    · rw [if_neg hzero, if_neg hzero, indirectWord, indirectWord, hd, hind hzero]
  constructor
  · exact h.len
  · exact h.nb_le
  · intro bn hbn
    rw [haddr]
    exact h.mapped bn hbn
  · intro bn hbn k hk
    rw [haddr, hdata bn hbn]
    exact h.bytes bn hbn k hk

/-! ### All files -/

/-- Where the image keeps a block number. -/
inductive Place
  | addr (i : Fin inodeArea) (k : Fin (NDIRECT + 1))
  | word (i : Fin inodeArea) (j : Fin NINDIRECT)
deriving DecidableEq

/-- The inode a place belongs to. -/
def Place.inode : Place → Fin inodeArea
  | .addr i _ => i
  | .word i _ => i

variable {img : Nat → Buffer} {fb : Nat} {dn : Fin inodeArea → Dinode}
  {data : Fin inodeArea → List UInt8} {nb : Fin inodeArea → Nat} {i j : Fin inodeArea}

/-- The block number at a place. -/
def ptr (img : Nat → Buffer) (dn : Fin inodeArea → Dinode) : Place → Nat
  | .addr i k => (dn i).addrs k
  | .word i j => if (dn i).addrs indirect = 0 then 0 else indirectWord img (dn i) j

/-- The blocks a file occupies, its indirect block included. -/
def blocksUsed (d : Dinode) (nb : Nat) : Nat := nb + if d.addrs indirect = 0 then 0 else 1

structure Layout (img : Nat → Buffer) (fb : Nat) (dn : Fin inodeArea → Dinode)
    (data : Fin inodeArea → List UInt8) (nb : Fin inodeArea → Nat) : Prop where
  owned : Owned (fun b => decide (b < fb)) (ptr img dn) nmeta FSSIZE
  room : fb ≤ FSSIZE
  fresh : ∀ b, fb ≤ b → b < FSSIZE → ∀ k, img b k = 0
  file : ∀ i, FileOk img (dn i) (data i) (nb i)
  count : fb = nmeta + ∑ i, blocksUsed (dn i) (nb i)

/-- The place of the address of a block of a file. -/
def blockPlace (i : Fin inodeArea) (bn : Nat) (h : bn < MAXFILE) : Place :=
  if hbn : bn < NDIRECT then .addr i ⟨bn, Nat.lt_succ_of_lt hbn⟩
  else .word i ⟨bn - NDIRECT, by unfold MAXFILE at h; omega⟩

theorem ptr_blockPlace (h : bn < MAXFILE) :
    ptr img dn (blockPlace i bn h) = blockAddr img (dn i) bn := by
  unfold blockPlace
  by_cases hbn : bn < NDIRECT
  · rw [dif_pos hbn, blockAddr_direct hbn]
    rfl
  · rw [dif_neg hbn, blockAddr_word (by omega)]
    rfl

theorem inode_blockPlace (h : bn < MAXFILE) : (blockPlace i bn h).inode = i := by
  unfold blockPlace
  by_cases hbn : bn < NDIRECT
  · rw [dif_pos hbn]
    rfl
  · rw [dif_neg hbn]
    rfl

theorem blockPlace_inj {bn' : Nat} {h : bn < MAXFILE} {h' : bn' < MAXFILE}
    (heq : blockPlace i bn h = blockPlace j bn' h') : i = j ∧ bn = bn' := by
  unfold blockPlace at heq
  by_cases hbn : bn < NDIRECT <;> by_cases hbn' : bn' < NDIRECT
  · rw [dif_pos hbn, dif_pos hbn'] at heq
    simp only [Place.addr.injEq, Fin.mk.injEq] at heq
    exact heq
  · rw [dif_pos hbn, dif_neg hbn'] at heq
    cases heq
  · rw [dif_neg hbn, dif_pos hbn'] at heq
    cases heq
  · rw [dif_neg hbn, dif_neg hbn'] at heq
    simp only [Place.word.injEq, Fin.mk.injEq] at heq
    exact ⟨heq.1, by omega⟩

theorem blockPlace_ne_indirect (h : bn < MAXFILE) : blockPlace i bn h ≠ .addr j indirect := by
  unfold blockPlace
  by_cases hbn : bn < NDIRECT
  · rw [dif_pos hbn]
    simp only [ne_eq, Place.addr.injEq, indirect, Fin.mk.injEq, not_and]
    intro _
    omega
  · rw [dif_neg hbn]
    simp

namespace Layout

variable {q : Place} {bn : Nat}

section

variable (h : Layout img fb dn data nb)
include h

/-- A block in use is a data block. -/
theorem used_range (hq : ptr img dn q ≠ 0) : nmeta ≤ ptr img dn q ∧ ptr img dn q < fb := by
  have hrange := h.owned.range q hq
  have hbit := h.owned.bit_ptr hq
  exact ⟨hrange.1, by simpa using hbit⟩

theorem nmeta_le : nmeta ≤ fb := by
  rw [h.count]
  omega

/-- The block at a place is at no other place. -/
theorem ptr_ne {r : Place} (hr : ptr img dn r ≠ 0) (hne : r ≠ q) : ptr img dn r ≠ ptr img dn q := by
  intro heq
  exact hne (h.owned.inj r q hr heq)

theorem next_pos : 0 < fb := by
  have hle := h.nmeta_le
  have hmeta : 0 < nmeta := by decide
  omega

theorem lt_max (hbn : bn < nb i) : bn < MAXFILE :=
  Nat.lt_of_lt_of_le hbn (h.file i).nb_le

/-- A block of a file is in use. -/
theorem block_used (hbn : bn < nb i) : ptr img dn (blockPlace i bn (h.lt_max hbn)) ≠ 0 := by
  rw [ptr_blockPlace]
  exact ((h.file i).mapped bn (h.lt_max hbn)).2 hbn

theorem block_range (hbn : bn < nb i) :
    nmeta ≤ blockAddr img (dn i) bn ∧ blockAddr img (dn i) bn < fb := by
  rw [← ptr_blockPlace (h.lt_max hbn)]
  exact h.used_range (h.block_used hbn)

/-- A block of a file is not at another place. -/
theorem block_ne (hbn : bn < nb i) (hq : blockPlace i bn (h.lt_max hbn) ≠ q) :
    blockAddr img (dn i) bn ≠ ptr img dn q := by
  rw [← ptr_blockPlace (h.lt_max hbn)]
  exact h.ptr_ne (h.block_used hbn) hq

/-- The layout depends on the data blocks and on the addresses of the dinodes. -/
theorem congr {img' : Nat → Buffer} {dn' : Fin inodeArea → Dinode}
    (himg : ∀ b, nmeta ≤ b → img' b = img b) (hdn : ∀ i, (dn' i).addrs = (dn i).addrs) :
    Layout img' fb dn' data nb := by
  have hind : ∀ i, (dn i).addrs indirect ≠ 0 →
      img' ((dn i).addrs indirect) = img ((dn i).addrs indirect) := by
    intro i hi
    exact himg _ (h.used_range (q := .addr i indirect) hi).1
  have hptr : ptr img' dn' = ptr img dn := by
    funext q
    cases q with
    | addr i k => simp only [ptr, hdn]
    | word i l =>
      simp only [ptr, hdn, indirectWord]
      by_cases hzero : (dn i).addrs indirect = 0
      · rw [if_pos hzero, if_pos hzero]
      · rw [if_neg hzero, if_neg hzero, hind i hzero]
  have hmeta := h.nmeta_le
  constructor
  · rw [hptr]
    exact h.owned
  · exact h.room
  · intro b hb hb'
    rw [himg b (by omega)]
    exact h.fresh b hb hb'
  · intro i
    apply (h.file i).congr (hdn i) (hind i)
    intro bn hbn
    exact himg _ (h.block_range hbn).1
  · simp only [blocksUsed, hdn]
    exact h.count

/-- The next block goes to a place that had none. -/
theorem owned_take (hroom : fb < FSSIZE) (hq : ptr img dn q = 0) :
    Owned (fun b => decide (b < fb + 1)) (update (ptr img dn) q fb) nmeta FSSIZE := by
  have hbit : update (fun b => decide (b < fb)) fb true =
      fun b => decide (b < fb + 1) := by
    funext b
    by_cases hb : b = fb
    · rw [hb, update_self]
      simp
    rw [update_of_ne hb]
    simp only [decide_eq_decide]
    omega
  rw [← hbit]
  exact h.owned.take (by simp) hroom hq

/-- The blocks of other files are not the one at a place. -/
theorem file_of_ne (hq : q.inode = i) (hj : j ≠ i) (buf : Buffer) :
    FileOk (update img (ptr img dn q) buf) (dn j) (data j) (nb j) := by
  have hother : ∀ r : Place, r.inode = j → ptr img dn r ≠ 0 →
      ptr img dn r ≠ ptr img dn q := by
    intro r hr hne
    apply h.ptr_ne hne
    intro heq
    rw [heq, hq] at hr
    exact hj hr.symm
  apply (h.file j).congr rfl
  · intro hind
    exact update_of_ne (hother (.addr j indirect) rfl hind) _ _
  · intro bn hbn
    have hblock := hother _ (inode_blockPlace (h.lt_max hbn)) (h.block_used hbn)
    rw [ptr_blockPlace] at hblock
    exact update_of_ne hblock _ _

end

theorem sum_blocksUsed_succ {f g : Fin inodeArea → Nat} (hi : g i = f i + 1)
    (hj : ∀ j, j ≠ i → g j = f j) : ∑ j, g j = ∑ j, f j + 1 := by
  have hrest : ∑ j ∈ Finset.univ.erase i, g j = ∑ j ∈ Finset.univ.erase i, f j :=
    Finset.sum_congr rfl fun j hmem => hj j (Finset.ne_of_mem_erase hmem)
  have hg : g i + ∑ j ∈ Finset.univ.erase i, g j = ∑ j, g j :=
    Finset.add_sum_erase _ g (Finset.mem_univ i)
  have hf : f i + ∑ j ∈ Finset.univ.erase i, f j = ∑ j, f j :=
    Finset.add_sum_erase _ f (Finset.mem_univ i)
  omega

/-! ### Allocation -/

section

variable (h : Layout img fb dn data nb) (hroom : fb < FSSIZE)
include h hroom

/-- A fresh block in a zero address changes that place only: a new indirect block has
no entries. -/
theorem ptr_setAddr {k : Fin (NDIRECT + 1)} (hk : (dn i).addrs k = 0) :
    ptr img (update dn i (setAddr (dn i) k fb)) =
      update (ptr img dn) (.addr i k) fb := by
  funext q
  cases q with
  | addr j k' =>
    by_cases hj : j = i
    · subst hj
      by_cases hk' : k' = k
      · subst hk'
        simp [ptr]
      have hne : Place.addr j k' ≠ .addr j k := by simp [hk']
      rw [update_of_ne hne]
      simp [ptr, hk']
    have hne : Place.addr j k' ≠ .addr i k := by simp [hj]
    rw [update_of_ne hne]
    simp [ptr, hj]
  | word j l =>
    have hne : Place.word j l ≠ .addr i k := by simp
    rw [update_of_ne hne]
    by_cases hj : j = i
    · subst hj
      by_cases hind : k = indirect
      · subst hind
        have hzero : getLE (img fb) (4 * l) 4 = 0 :=
          getLE_zero fun b _ _ => h.fresh fb (Nat.le_refl _) hroom b
        simp [ptr, hk, hzero]
      · simp [ptr, Ne.symm hind]
    · simp [ptr, hj]

/-- A direct block for the end of a file. -/
theorem allocDirect (hnb : nb i < NDIRECT) :
    Layout img (fb + 1) (update dn i (setAddr (dn i) ⟨nb i, by omega⟩ fb)) data
      (update nb i (nb i + 1)) := by
  have hmax : NDIRECT < MAXFILE := by decide
  have hzero : (dn i).addrs ⟨nb i, by omega⟩ = 0 := by
    by_contra hne
    have hmapped := ((h.file i).mapped (nb i) (by omega)).1
    rw [blockAddr_direct hnb] at hmapped
    exact absurd (hmapped hne) (by omega)
  have haddr : ∀ bn, bn ≠ nb i →
      blockAddr img (setAddr (dn i) ⟨nb i, by omega⟩ fb) bn = blockAddr img (dn i) bn := by
    intro bn hbn
    by_cases hlt : bn < NDIRECT
    · simp [blockAddr_direct hlt, hbn]
    have hind : indirect ≠ ⟨nb i, by omega⟩ := by
      simp only [indirect, ne_eq, Fin.mk.injEq]
      omega
    rw [blockAddr_word (by omega), blockAddr_word (by omega)]
    simp [hind]
  have hnew : blockAddr img (setAddr (dn i) ⟨nb i, by omega⟩ fb) (nb i) = fb := by
    rw [blockAddr_direct hnb]
    simp
  constructor
  · rw [h.ptr_setAddr hroom hzero]
    exact h.owned_take hroom hzero
  · exact hroom
  · intro b hb
    exact h.fresh b (by omega)
  · intro j
    by_cases hj : j = i
    · subst hj
      rw [update_self, update_self]
      have hlen := (h.file j).len
      constructor
      · rw [Nat.add_mul]
        omega
      · omega
      · intro bn hbn
        by_cases heq : bn = nb j
        · rw [heq, hnew]
          have hpos := h.next_pos
          omega
        · rw [haddr bn heq, (h.file j).mapped bn hbn]
          omega
      · intro bn hbn k hk
        by_cases heq : bn = nb j
        · rw [heq, hnew, h.fresh fb (Nat.le_refl _) hroom, List.getD_eq_default]
          omega
        · rw [haddr bn heq]
          exact (h.file j).bytes bn (by omega) k hk
    · rw [update_of_ne hj, update_of_ne hj]
      exact h.file j
  · have hind : indirect ≠ ⟨nb i, by omega⟩ := by
      simp only [indirect, ne_eq, Fin.mk.injEq]
      omega
    rw [sum_blocksUsed_succ (i := i) (f := fun j => blocksUsed (dn j) (nb j))]
    · have hcount := h.count
      omega
    · simp only [update_self, blocksUsed]
      rw [show (setAddr (dn i) ⟨nb i, by omega⟩ fb).addrs indirect = (dn i).addrs indirect by
        simp [hind]]
      omega
    · intro j hj
      rw [update_of_ne hj, update_of_ne hj]

/-- The indirect block. -/
theorem allocIndirect (hzero : (dn i).addrs indirect = 0) :
    Layout img (fb + 1) (update dn i (setAddr (dn i) indirect fb)) data nb := by
  have hpos := h.next_pos
  have haddr : ∀ bn, blockAddr img (setAddr (dn i) indirect fb) bn = blockAddr img (dn i) bn := by
    intro bn
    by_cases hlt : bn < NDIRECT
    · have hne : (⟨bn, by omega⟩ : Fin (NDIRECT + 1)) ≠ indirect := by
        simp only [indirect, ne_eq, Fin.mk.injEq]
        omega
      simp [blockAddr_direct hlt, hne]
    have hword : getLE (img fb) (4 * (bn - NDIRECT)) 4 = 0 :=
      getLE_zero fun b _ _ => h.fresh fb (Nat.le_refl _) hroom b
    rw [blockAddr_word (by omega), blockAddr_word (by omega)]
    simp [hzero, hword]
  constructor
  · rw [h.ptr_setAddr hroom hzero]
    exact h.owned_take hroom hzero
  · exact hroom
  · intro b hb
    exact h.fresh b (by omega)
  · intro j
    by_cases hj : j = i
    · subst hj
      rw [update_self]
      constructor
      · exact (h.file j).len
      · exact (h.file j).nb_le
      · intro bn hbn
        rw [haddr]
        exact (h.file j).mapped bn hbn
      · intro bn hbn
        rw [haddr]
        exact (h.file j).bytes bn hbn
    · rw [update_of_ne hj]
      exact h.file j
  · rw [sum_blocksUsed_succ (i := i) (f := fun j => blocksUsed (dn j) (nb j))]
    · have hcount := h.count
      omega
    · have hne : fb ≠ 0 := by omega
      simp [blocksUsed, hzero, hne]
    · intro j hj
      rw [update_of_ne hj]

/-- Storing a fresh block in a zero entry of an indirect block changes that place only. -/
theorem ptr_putWord (hind : (dn i).addrs indirect ≠ 0) (l : Fin NINDIRECT) :
    ptr (update img ((dn i).addrs indirect)
        (putLE (img ((dn i).addrs indirect)) (4 * l) 4 fb)) dn =
      update (ptr img dn) (.word i l) fb := by
  have hfb : fb < 256 ^ 4 := by
    have hsize : FSSIZE < 256 ^ 4 := by decide
    omega
  funext q
  cases q with
  | addr j k =>
    have hne : Place.addr j k ≠ .word i l := by simp
    rw [update_of_ne hne]
    rfl
  | word j l' =>
    by_cases hj : j = i
    · subst hj
      by_cases hl : l' = l
      · subst hl
        simp only [ptr, indirectWord, update_self]
        rw [if_neg hind, getLE_putLE hfb]
      have hne : Place.word j l' ≠ .word j l := by simp [hl]
      have hval : (l' : Nat) ≠ l := fun heq => hl (Fin.ext heq)
      rw [update_of_ne hne]
      simp only [ptr, indirectWord, update_self]
      rw [if_neg hind, if_neg hind]
      apply getLE_congr
      intro b hb hb'
      rcases Nat.lt_or_gt_of_ne hval with hlt | hlt
      · exact putLE_of_lt (by omega)
      · exact putLE_of_le (by omega)
    · have hne : Place.word j l' ≠ .word i l := by simp [hj]
      rw [update_of_ne hne]
      simp only [ptr, indirectWord]
      by_cases hzero : (dn j).addrs indirect = 0
      · rw [if_pos hzero, if_pos hzero]
      have hblock : (dn j).addrs indirect ≠ (dn i).addrs indirect :=
        h.ptr_ne (q := .addr i indirect) (r := .addr j indirect) hzero (by simp [hj])
      rw [update_of_ne hblock]

/-- An entry of the indirect block for the end of a file. -/
theorem allocWord (hind : (dn i).addrs indirect ≠ 0) (l : Fin NINDIRECT)
    (hnb : nb i = NDIRECT + l) :
    Layout (update img ((dn i).addrs indirect)
        (putLE (img ((dn i).addrs indirect)) (4 * l) 4 fb)) (fb + 1) dn data
      (update nb i (nb i + 1)) := by
  have hlt := l.isLt
  have hmax : nb i < MAXFILE := by
    unfold MAXFILE
    omega
  have hptr := h.ptr_putWord hroom hind l
  have hplace : blockPlace i (nb i) hmax = .word i l := by
    unfold blockPlace
    rw [dif_neg (by omega)]
    congr 1
    apply Fin.ext
    simp only
    omega
  have hzero : ptr img dn (.word i l) = 0 := by
    rw [← hplace, ptr_blockPlace]
    by_contra hne
    have hmapped := ((h.file i).mapped (nb i) hmax).1 hne
    omega
  have hrange := h.used_range (q := .addr i indirect) hind
  simp only [ptr] at hrange
  generalize himg : update img ((dn i).addrs indirect)
    (putLE (img ((dn i).addrs indirect)) (4 * l) 4 fb) = img' at hptr ⊢
  have haddr : ∀ bn, bn < MAXFILE →
      blockAddr img' (dn i) bn = if bn = nb i then fb else blockAddr img (dn i) bn := by
    intro bn hbn
    rw [← ptr_blockPlace hbn, hptr]
    by_cases heq : bn = nb i
    · subst heq
      rw [if_pos rfl, hplace, update_self]
    have hne : blockPlace i bn hbn ≠ .word i l := by
      rw [← hplace]
      exact fun hsame => heq (blockPlace_inj hsame).2
    rw [if_neg heq, update_of_ne hne, ptr_blockPlace]
  have hother : ∀ b, b ≠ (dn i).addrs indirect → img' b = img b := by
    intro b hb
    rw [← himg]
    exact update_of_ne hb _ _
  constructor
  · rw [hptr]
    exact h.owned_take hroom hzero
  · exact hroom
  · intro b hb hb'
    rw [hother b (by omega)]
    exact h.fresh b (by omega) hb'
  · intro j
    by_cases hj : j = i
    · subst hj
      rw [update_self]
      have hlen := (h.file j).len
      have hpos := h.next_pos
      constructor
      · rw [Nat.add_mul]
        omega
      · omega
      · intro bn hbn
        rw [haddr bn hbn]
        by_cases heq : bn = nb j
        · rw [if_pos heq]
          omega
        · rw [if_neg heq, (h.file j).mapped bn hbn]
          omega
      · intro bn hbn k hk
        rw [haddr bn (by omega)]
        by_cases heq : bn = nb j
        · rw [if_pos heq, hother fb (by omega), h.fresh fb (Nat.le_refl _) hroom, heq,
            List.getD_eq_default]
          omega
        have hlt' : bn < nb j := by omega
        have hblock := h.block_ne hlt' (blockPlace_ne_indirect (j := j) _)
        rw [if_neg heq, hother _ hblock]
        exact (h.file j).bytes bn hlt' k hk
    · rw [update_of_ne hj, ← himg]
      exact h.file_of_ne (q := .addr i indirect) rfl hj _
  · rw [sum_blocksUsed_succ (i := i) (f := fun j => blocksUsed (dn j) (nb j))]
    · have hcount := h.count
      omega
    · simp only [update_self, blocksUsed]
      omega
    · intro j hj
      rw [update_of_ne hj]

end

/-! ### Data -/

/-- Appending bytes to the last block of a file. -/
theorem write (h : Layout img fb dn data nb) {o : Nat} {p : List UInt8} (hbn : bn < nb i)
    (hlen : (data i).length = bn * BSIZE + o) (hp : o + p.length ≤ BSIZE) :
    Layout (update img (blockAddr img (dn i) bn)
        (blit (img (blockAddr img (dn i) bn)) o p)) fb dn
      (update data i (data i ++ p)) nb := by
  have hmax := h.lt_max hbn
  have hrange := h.block_range hbn
  have hothers : ∀ j, j ≠ i → FileOk (update img (blockAddr img (dn i) bn)
      (blit (img (blockAddr img (dn i) bn)) o p)) (dn j) (data j) (nb j) := by
    intro j hj
    rw [← ptr_blockPlace hmax]
    exact h.file_of_ne (inode_blockPlace hmax) hj _
  -- no indirect block is written
  have hind : ∀ j, (dn j).addrs indirect ≠ 0 →
      (dn j).addrs indirect ≠ blockAddr img (dn i) bn := by
    intro j hj
    have hne := h.ptr_ne (q := blockPlace i bn hmax) (r := .addr j indirect) hj
      (blockPlace_ne_indirect hmax).symm
    rw [ptr_blockPlace] at hne
    exact hne
  generalize himg : update img (blockAddr img (dn i) bn)
    (blit (img (blockAddr img (dn i) bn)) o p) = img' at hothers ⊢
  have hother : ∀ b, b ≠ blockAddr img (dn i) bn → img' b = img b := by
    intro b hb
    rw [← himg]
    exact update_of_ne hb _ _
  have hptr : ptr img' dn = ptr img dn := by
    funext q
    cases q with
    | addr j k => rfl
    | word j l =>
      simp only [ptr, indirectWord]
      by_cases hzero : (dn j).addrs indirect = 0
      · rw [if_pos hzero, if_pos hzero]
      · rw [if_neg hzero, if_neg hzero, hother _ (hind j hzero)]
  have haddr : ∀ bn, bn < MAXFILE → blockAddr img' (dn i) bn = blockAddr img (dn i) bn := by
    intro bn hbn
    rw [← ptr_blockPlace hbn, hptr, ptr_blockPlace]
  constructor
  · rw [hptr]
    exact h.owned
  · exact h.room
  · intro b hb hb'
    rw [hother b (by omega)]
    exact h.fresh b hb hb'
  · intro j
    by_cases hj : j = i
    · subst hj
      rw [update_self]
      have hle := (h.file j).nb_le
      constructor
      · have hmul : (bn + 1) * BSIZE ≤ nb j * BSIZE := Nat.mul_le_mul_right _ hbn
        rw [Nat.add_mul] at hmul
        rw [List.length_append]
        omega
      · exact hle
      · intro bn' hbn'
        rw [haddr bn' hbn']
        exact (h.file j).mapped bn' hbn'
      · intro bn' hbn' k hk
        rw [haddr bn' (by omega)]
        have hold := (h.file j).bytes bn' hbn' k hk
        by_cases heq : bn' = bn
        · subst heq
          rw [← himg, update_self]
          rcases Nat.lt_or_ge k o with hko | hko
          · rw [blit_of_lt hko, hold, List.getD_append _ _ _ _ (by omega)]
          rw [List.getD_append_right _ _ _ _ (by omega), hlen]
          rcases Nat.lt_or_ge k (o + p.length) with hkp | hkp
          · rw [blit_of_mem hko hkp]
            congr 1
            omega
          · rw [blit_of_le hkp, hold, List.getD_eq_default _ _ (by omega),
              List.getD_eq_default _ _ (by omega)]
        · have hblock : blockAddr img (dn j) bn' ≠ blockAddr img (dn j) bn := by
            rw [← ptr_blockPlace hmax]
            exact h.block_ne hbn' fun hsame => heq (blockPlace_inj hsame).2
          rw [hother _ hblock, hold]
          rcases Nat.lt_or_gt_of_ne heq with hlt | hlt
          · have hmul : (bn' + 1) * BSIZE ≤ bn * BSIZE := Nat.mul_le_mul_right _ hlt
            rw [Nat.add_mul] at hmul
            rw [List.getD_append _ _ _ _ (by omega)]
          have hmul : (bn + 1) * BSIZE ≤ bn' * BSIZE := Nat.mul_le_mul_right _ hlt
          rw [Nat.add_mul] at hmul
          rw [List.getD_eq_default _ _ (by omega), List.getD_eq_default _ _ (by
            rw [List.length_append]
            omega)]
    · rw [update_of_ne hj]
      exact hothers j hj
  · exact h.count

end Layout

end Kus.Mkfs
