import KusOs.Hoare
import KusOs.MkfsLayout

/-!
# What mkfs writes

`Built` relates the state of mkfs to the files in the image so far: their types and
their bytes.

* `iappend_spec` — appending bytes, from the round of its loop (`round_spec`);
* `ialloc_spec` — a new inode;
* `mainProgram_spec` — the whole of `main`, for lists of files whose inodes lie
  before the bitmap.

Each of them stops with an error only if the files do not fit: `Fits` counts the
blocks that they need.
-/

namespace Kus.Mkfs

open Function LittleEndian Kus.Dir Ownership Hoare

/-! ### Sizes -/

/-- The blocks of a file of `n` bytes, with its indirect block. -/
def fileBlocks (n : Nat) : Nat := nblocks n + if NDIRECT < nblocks n then 1 else 0

/-- There is room for the files. -/
def HasRoom (data : Fin inodeArea → List UInt8) : Prop :=
  nmeta + ∑ i, fileBlocks (data i).length ≤ FSSIZE ∧ ∀ i, (data i).length ≤ MAXFILE * BSIZE

theorem nblocks_mono {m n : Nat} (h : m ≤ n) : nblocks m ≤ nblocks n := by
  unfold nblocks
  exact Nat.div_le_div_right (by omega)

theorem fileBlocks_mono {m n : Nat} (h : m ≤ n) : fileBlocks m ≤ fileBlocks n := by
  have hle := nblocks_mono h
  unfold fileBlocks
  split <;> split <;> omega

theorem HasRoom.mono {data data' : Fin inodeArea → List UInt8} (h : HasRoom data')
    (hle : ∀ i, (data i).length ≤ (data' i).length) : HasRoom data := by
  have hsum : ∑ i, fileBlocks (data i).length ≤ ∑ i, fileBlocks (data' i).length :=
    Finset.sum_le_sum fun i _ => fileBlocks_mono (hle i)
  have hlen : ∀ i, (data i).length ≤ MAXFILE * BSIZE := fun i => (hle i).trans (h.2 i)
  have htotal := h.1
  exact ⟨by omega, hlen⟩

/-! ### The state of mkfs -/

/-- The dinode in the image. -/
def diskInode (img : Nat → Buffer) (i : Fin inodeArea) : Dinode :=
  getDinode (img (IBLOCK i sb)) (dinodeSize * (i % IPB))

/-- The dinodes of the image, but for one that is in memory. -/
def withDin (img : Nat → Buffer) (i : Fin inodeArea) (d : Dinode) : Fin inodeArea → Dinode :=
  update (diskInode img) i d

/-- The block of the superblock. -/
def superBuf : Buffer := putWords zeroes 0 8 (superWords sb)

/-- The blocks of each file. -/
def nbs (data : Fin inodeArea → List UInt8) : Fin inodeArea → Nat :=
  fun i => nblocks (data i).length

/-- The image holds the files `data`, where the dinode of `i` is in memory, without
its size, and this file has `n` blocks. -/
structure Appending (F : Nat) (ty : Fin inodeArea → Int16) (data : Fin inodeArea → List UInt8)
    (n : Nat) (i : Fin inodeArea) (d : Dinode) (s : Mk) : Prop where
  size : s.size = FSSIZE
  super : s.img 1 = superBuf
  freeinode : s.freeinode = F
  layout : Layout s.img s.freeblock (withDin s.img i d) data (update (nbs data) i n)
  type : d.type = ty i
  types : ∀ j, j ≠ i → (diskInode s.img j).type = ty j
  inds : ∀ j, j ≠ i → (diskInode s.img j).addrs indirect ≠ 0 → NDIRECT < nbs data j
  sizes : ∀ j, j ≠ i → (diskInode s.img j).size = (data j).length

/-- Between the rounds of the loop, the file has the blocks for its bytes. -/
structure Appends (F : Nat) (ty : Fin inodeArea → Int16) (data : Fin inodeArea → List UInt8)
    (i : Fin inodeArea) (d : Dinode) (s : Mk) : Prop where
  mid : Appending F ty data (nblocks (data i).length) i d s
  ind : d.addrs indirect ≠ 0 → NDIRECT < nblocks (data i).length

/-- The image holds the files `data`, of types `ty`, and the next inode is `F`. -/
structure Built (F : Nat) (ty : Fin inodeArea → Int16) (data : Fin inodeArea → List UInt8)
    (s : Mk) : Prop where
  size : s.size = FSSIZE
  super : s.img 1 = superBuf
  freeinode : s.freeinode = F
  layout : Layout s.img s.freeblock (diskInode s.img) data (nbs data)
  types : ∀ j, (diskInode s.img j).type = ty j
  inds : ∀ j, (diskInode s.img j).addrs indirect ≠ 0 → NDIRECT < nbs data j
  sizes : ∀ j, (diskInode s.img j).size = (data j).length

variable {F : Nat} {ty : Fin inodeArea → Int16} {data data' : Fin inodeArea → List UInt8}
  {n : Nat} {i j : Fin inodeArea} {d : Dinode} {s : Mk} {img : Nat → Buffer} {E : Die → Prop}

theorem IBLOCK_range (i : Fin inodeArea) : 33 ≤ IBLOCK i sb ∧ IBLOCK i sb < sb.bmapstart := by
  have hi : (i : Nat) < 208 := i.isLt
  have hblock : IBLOCK i sb = i / 16 + 33 := rfl
  have hmap : sb.bmapstart = 46 := rfl
  omega

theorem IBLOCK_lt_nmeta (i : Fin inodeArea) : IBLOCK i sb < nmeta := by
  have hrange := IBLOCK_range i
  have hmeta : nmeta = 47 := rfl
  have hmap : sb.bmapstart = 46 := rfl
  omega

/-- Data blocks are no part of the inode area. -/
theorem diskInode_update {b : Nat} (hb : nmeta ≤ b) (buf : Buffer) :
    diskInode (update img b buf) = diskInode img := by
  funext j
  have hlt := IBLOCK_lt_nmeta j
  unfold diskInode
  rw [update_of_ne (by omega)]

/-- Writing a dinode replaces this dinode. -/
theorem diskInode_putDinode (hd : Fits d) :
    diskInode (update img (IBLOCK i sb)
      (putDinode (img (IBLOCK i sb)) (dinodeSize * (i % IPB)) d)) = withDin img i d := by
  have hipb : IPB = 16 := rfl
  have hsize : dinodeSize = 64 := rfl
  have hblock : ∀ k : Fin inodeArea, IBLOCK k sb = k / 16 + 33 := fun _ => rfl
  funext j
  unfold withDin
  by_cases hj : j = i
  · subst hj
    rw [update_self]
    unfold diskInode
    rw [update_self, getDinode_putDinode hd]
  have hval : (j : Nat) ≠ i := fun heq => hj (Fin.ext heq)
  rw [update_of_ne hj]
  unfold diskInode
  by_cases hb : IBLOCK j sb = IBLOCK i sb
  · rw [hb, update_self]
    apply getDinode_congr
    intro k hk hk'
    rw [hblock, hblock] at hb
    rw [hipb, hsize] at hk hk' ⊢
    exact putDinode_frame (by omega)
  · rw [update_of_ne hb]

theorem withDin_setAddr (img : Nat → Buffer) (d : Dinode) (k : Fin (NDIRECT + 1)) (b : Nat) :
    update (withDin img i d) i (setAddr (withDin img i d i) k b) =
      withDin img i (setAddr d k b) := by
  unfold withDin
  rw [update_self, update_idem]

@[simp] theorem withDin_self : withDin img i d i = d := update_self _ _ _

theorem Built.appends (h : Built F ty data s) (i : Fin inodeArea) :
    Appends F ty data i (diskInode s.img i) s := by
  have hself : withDin s.img i (diskInode s.img i) = diskInode s.img := update_eq_self _ _
  have hnb : update (nbs data) i (nblocks (data i).length) = nbs data := update_eq_self _ _
  refine ⟨?_, h.inds i⟩
  constructor
  · exact h.size
  · exact h.super
  · exact h.freeinode
  · rw [hself, hnb]
    exact h.layout
  · exact h.types i
  · intro j _
    exact h.types j
  · intro j _
    exact h.inds j
  · intro j _
    exact h.sizes j

namespace Appending

section

variable (h : Appending F ty data n i d s)
include h

/-- A block number of the image is small. -/
theorem addrs_lt (k : Fin (NDIRECT + 1)) : d.addrs k < FSSIZE := by
  by_cases hzero : d.addrs k = 0
  · rw [hzero]
    decide
  have hrange := h.layout.used_range (q := .addr i k) (by simpa [ptr] using hzero)
  have hroom := h.layout.room
  simp only [ptr, withDin_self] at hrange
  omega

/-- A full image does not hold a file that needs another block. -/
theorem not_hasRoom (hfull : FSSIZE ≤ s.freeblock) (hsame : ∀ j, j ≠ i → data' j = data j)
    (hlt : blocksUsed d n < fileBlocks (data' i).length) : ¬ HasRoom data' := by
  intro hroom
  have hcount := h.layout.count
  have htotal := hroom.1
  have hsum : ∑ j, blocksUsed (withDin s.img i d j) (update (nbs data) i n j) <
      ∑ j, fileBlocks (data' j).length := by
    apply Finset.sum_lt_sum
    · intro j _
      by_cases hj : j = i
      · subst hj
        rw [withDin_self, update_self]
        omega
      rw [withDin, update_of_ne hj, update_of_ne hj, hsame j hj]
      unfold blocksUsed fileBlocks
      by_cases hind : (diskInode s.img j).addrs indirect = 0
      · rw [if_pos hind]
        exact Nat.add_le_add_left (Nat.zero_le _) _
      have hnb : NDIRECT < nblocks (data j).length := h.inds j hj hind
      rw [if_neg hind, if_pos hnb]
      exact Nat.le_refl _
    · refine ⟨i, Finset.mem_univ i, ?_⟩
      rw [withDin_self, update_self]
      exact hlt
  omega

/-- A direct block is allocated. -/
theorem direct (hroom : s.freeblock < FSSIZE) (hn : n < NDIRECT) :
    Appending F ty data (n + 1) i (setAddr d ⟨n, by omega⟩ s.freeblock)
      { s with freeblock := s.freeblock + 1 } := by
  have hlayout := h.layout.allocDirect (i := i) hroom (by rw [update_self]; exact hn)
  rw [withDin_setAddr, update_idem] at hlayout
  simp only [update_self] at hlayout
  constructor
  · exact h.size
  · exact h.super
  · exact h.freeinode
  · exact hlayout
  · exact h.type
  · exact h.types
  · exact h.inds
  · exact h.sizes

/-- The indirect block is allocated. -/
theorem indirectBlock (hroom : s.freeblock < FSSIZE) (hzero : d.addrs indirect = 0) :
    Appending F ty data n i (setAddr d indirect s.freeblock)
      { s with freeblock := s.freeblock + 1 } := by
  have hlayout := h.layout.allocIndirect (i := i) hroom (by rw [withDin_self]; exact hzero)
  rw [withDin_setAddr] at hlayout
  constructor
  · exact h.size
  · exact h.super
  · exact h.freeinode
  · exact hlayout
  · exact h.type
  · exact h.types
  · exact h.inds
  · exact h.sizes

/-- A data block is written: what it keeps besides the layout. -/
theorem of_update {b fb : Nat} {buf : Buffer} {m : Nat} (hb : nmeta ≤ b) (hb' : b < FSSIZE)
    (hsame : ∀ j, j ≠ i → data' j = data j)
    (hlayout : Layout (update s.img b buf) fb (withDin s.img i d) data' (update (nbs data') i m)) :
    Appending F ty data' m i d
      { s with
        img := update s.img b buf
        size := max s.size (b + 1)
        freeblock := fb } := by
  have hmeta : 1 < nmeta := by decide
  have hsize := h.size
  constructor
  · simp only
    omega
  · simp only
    rw [update_of_ne (by omega)]
    exact h.super
  · exact h.freeinode
  · simp only [withDin, diskInode_update hb]
    exact hlayout
  · exact h.type
  · simp only [diskInode_update hb]
    exact h.types
  · simp only [diskInode_update hb]
    intro j hj
    unfold nbs
    rw [hsame j hj]
    exact h.inds j hj
  · simp only [diskInode_update hb]
    intro j hj
    rw [hsame j hj]
    exact h.sizes j hj

/-- An entry of the indirect block is allocated. -/
theorem entry (hroom : s.freeblock < FSSIZE) (hind : d.addrs indirect ≠ 0) (l : Fin NINDIRECT)
    (hn : n = NDIRECT + l) : Appending F ty data (n + 1) i d
      { s with
        img := update s.img (d.addrs indirect)
          (putLE (s.img (d.addrs indirect)) (4 * l) 4 s.freeblock)
        size := max s.size (d.addrs indirect + 1)
        freeblock := s.freeblock + 1 } := by
  have hlayout := h.layout.allocWord (i := i) hroom (by rw [withDin_self]; exact hind) l
    (by rw [update_self]; exact hn)
  simp only [withDin_self, update_self, update_idem] at hlayout
  have hrange := h.layout.used_range (q := .addr i indirect) (by simpa [ptr] using hind)
  simp only [ptr, withDin_self] at hrange
  exact h.of_update hrange.1 (by omega) (fun _ _ => rfl) hlayout

/-- Bytes are appended to a block of the file. -/
theorem write {bn o : Nat} {p : List UInt8} (hbn : bn < n) (hlen : (data i).length = bn * BSIZE + o)
    (hp : o + p.length ≤ BSIZE) : Appending F ty (update data i (data i ++ p)) n i d
      { s with
        img := update s.img (blockAddr s.img d bn)
          (blit (s.img (blockAddr s.img d bn)) o p)
        size := max s.size (blockAddr s.img d bn + 1) } := by
  have hlayout := h.layout.write (i := i) (by rw [update_self]; exact hbn) hlen hp
  rw [withDin_self] at hlayout
  have hrange := h.layout.block_range (i := i) (by rw [update_self]; exact hbn)
  rw [withDin_self] at hrange
  have hroom := h.layout.room
  have hnb : update (nbs (update data i (data i ++ p))) i n =
      update (nbs data) i n := by
    funext j
    by_cases hj : j = i
    · rw [hj, update_self, update_self]
    rw [update_of_ne hj, update_of_ne hj]
    unfold nbs
    rw [update_of_ne hj]
  apply h.of_update hrange.1 (by omega) (fun j hj => update_of_ne hj _ _)
  rw [hnb]
  exact hlayout

end

end Appending

/-! ### The block for the next bytes -/

theorem rsect_run {sec : Nat} (h : sec < s.size) : rsect sec s = .ok (s.img sec, s) := by
  show (if sec < s.size then (pure (s.img sec) : MkM Buffer) else throw .read) s = _
  rw [if_pos h]
  rfl

theorem rsect_error {sec : Nat} (h : s.size ≤ sec) : rsect sec s = .error .read := by
  show (if sec < s.size then (pure (s.img sec) : MkM Buffer) else throw .read) s = _
  rw [if_neg (by omega)]
  rfl

theorem addrFor_zero {k : Fin (NDIRECT + 1)} (h : d.addrs k = 0) (s : Mk) :
    addrFor d k s =
      .ok (setAddr d k s.freeblock, { s with freeblock := s.freeblock + 1 }) := by
  unfold addrFor
  rw [if_pos h]
  rfl

theorem addrFor_used {k : Fin (NDIRECT + 1)} (h : d.addrs k ≠ 0) (s : Mk) :
    addrFor d k s = .ok (d, s) := by
  unfold addrFor
  rw [if_neg h]
  rfl

/-- The outcome of `blockFor`: the block is there, or the image is too small for it. -/
def BlockDone (F : Nat) (ty : Fin inodeArea → Int16) (data data' : Fin inodeArea → List UInt8)
    (i : Fin inodeArea) (fbn : Nat) (r : Dinode × Nat) (s : Mk) : Prop :=
  (Appending F ty data (fbn + 1) i r.1 s ∧ r.2 = blockAddr s.img r.1 fbn ∧
    (r.1.addrs indirect ≠ 0 → NDIRECT < fbn + 1)) ∨ (s.size ≤ r.2 ∧ ¬ HasRoom data')

variable {fbn : Nat}

theorem fbn_lt_iff (h : Appending F ty data n i d s) (hmax : fbn < MAXFILE) :
    blockAddr s.img d fbn ≠ 0 ↔ fbn < n := by
  have hmapped := (h.layout.file i).mapped fbn hmax
  rw [withDin_self, update_self] at hmapped
  exact hmapped

theorem le_fileBlocks (hgrow : fbn < nblocks (data' i).length) :
    fbn + 1 ≤ fileBlocks (data' i).length ∧
      (NDIRECT ≤ fbn → fbn + 2 ≤ fileBlocks (data' i).length) := by
  unfold fileBlocks
  split <;> omega

theorem blockFor_direct (hdir : fbn < NDIRECT) (hn : n = fbn ∨ n = fbn + 1)
    (hd : d.addrs indirect ≠ 0 → NDIRECT < n) (hgrow : fbn < nblocks (data' i).length)
    (hsame : ∀ j, j ≠ i → data' j = data j) :
    Triple (Appending F ty data n i d) (blockFor d fbn) (BlockDone F ty data data' i fbn) E := by
  intro s hs
  have hmax : fbn < MAXFILE := by
    have hlt : NDIRECT < MAXFILE := by decide
    omega
  have hmapped := fbn_lt_iff hs hmax
  rw [blockAddr_direct hdir] at hmapped
  have hind : d.addrs indirect = 0 := by
    by_contra hne
    have hlt := hd hne
    omega
  unfold blockFor
  rw [dif_pos hdir]
  by_cases hzero : d.addrs ⟨fbn, by omega⟩ = 0
  · have hnn : n = fbn := by
      by_contra hne
      exact hmapped.2 (by omega) hzero
    subst hnn
    rw [run_bind_ok (addrFor_zero hzero s)]
    show BlockDone F ty data data' i n _ _
    have hnew : (setAddr d ⟨n, by omega⟩ s.freeblock).addrs ⟨n, by omega⟩ = s.freeblock := by
      simp [setAddr]
    rcases Nat.lt_or_ge s.freeblock FSSIZE with hroom | hfull
    · left
      refine ⟨hs.direct hroom hdir, ?_, ?_⟩
      · rw [blockAddr_direct hdir]
      · intro hne
        have hnot : indirect ≠ (⟨n, by omega⟩ : Fin (NDIRECT + 1)) := by
          simp only [indirect, ne_eq, Fin.mk.injEq]
          omega
        simp [setAddr, hnot, hind] at hne
    right
    have hneed := (le_fileBlocks hgrow).1
    have hsize := hs.size
    refine ⟨?_, hs.not_hasRoom hfull hsame ?_⟩
    · simp only [hnew]
      omega
    · unfold blocksUsed
      rw [if_pos hind]
      omega
  · have hnn : n = fbn + 1 := by
      have hlt := hmapped.1 hzero
      omega
    rw [run_bind_ok (addrFor_used hzero s)]
    show BlockDone F ty data data' i fbn _ _
    left
    rw [hnn] at hs
    refine ⟨hs, (blockAddr_direct hdir).symm, ?_⟩
    intro hne
    exact absurd hind hne

/-- The outcome of looking for the indirect block. -/
def IndirectDone (F : Nat) (ty : Fin inodeArea → Int16) (data data' : Fin inodeArea → List UInt8)
    (i : Fin inodeArea) (n : Nat) (d : Dinode) (s : Mk) : Prop :=
  (Appending F ty data n i d s ∧ d.addrs indirect ≠ 0) ∨
    (s.size ≤ d.addrs indirect ∧ ¬ HasRoom data')

theorem addrFor_indirect (hfbn : NDIRECT ≤ fbn) (hmax : fbn < MAXFILE)
    (hgrow : fbn < nblocks (data' i).length) (hsame : ∀ j, j ≠ i → data' j = data j) :
    Triple (Appending F ty data n i d) (addrFor d indirect)
      (IndirectDone F ty data data' i n) E := by
  intro s hs
  by_cases hzero : d.addrs indirect = 0
  · have hmapped := fbn_lt_iff hs hmax
    rw [blockAddr_word hfbn, if_pos hzero] at hmapped
    rw [addrFor_zero hzero s]
    show IndirectDone F ty data data' i n _ _
    have hnew : (setAddr d indirect s.freeblock).addrs indirect = s.freeblock := by
      simp [setAddr]
    rcases Nat.lt_or_ge s.freeblock FSSIZE with hroom | hfull
    · left
      have hpos := hs.layout.next_pos
      refine ⟨hs.indirectBlock hroom hzero, ?_⟩
      rw [hnew]
      omega
    right
    have hneed := (le_fileBlocks hgrow).1
    have hsize := hs.size
    refine ⟨?_, hs.not_hasRoom hfull hsame ?_⟩
    · simp only [hnew]
      omega
    · unfold blocksUsed
      rw [if_pos hzero]
      have hnlt : ¬ fbn < n := by simpa using hmapped
      omega
  · rw [addrFor_used hzero s]
    exact .inl ⟨hs, hzero⟩

/-- The part of `blockFor` behind the indirect block. -/
theorem blockFor_entry (hfbn : NDIRECT ≤ fbn) (hmax : fbn < MAXFILE)
    (hn : n = fbn ∨ n = fbn + 1) (hgrow : fbn < nblocks (data' i).length)
    (hsame : ∀ j, j ≠ i → data' j = data j) (hE : ¬ HasRoom data' → ∀ e, E e) (d : Dinode) :
    Triple (IndirectDone F ty data data' i n d)
      (do
        let buf ← rsect (d.addrs indirect)
        let off := 4 * (fbn - NDIRECT)
        if getLE buf off 4 = 0 then
          let b ← nextBlock
          wsect (d.addrs indirect) (putLE buf off 4 b)
          pure (d, b)
        else pure (d, getLE buf off 4))
      (BlockDone F ty data data' i fbn) E := by
  intro s hs
  rcases hs with ⟨hs, hind⟩ | ⟨hbig, hnot⟩
  · have hlt := hs.addrs_lt indirect
    have hsize := hs.size
    have hmapped := fbn_lt_iff hs hmax
    rw [blockAddr_word hfbn, if_neg hind, indirectWord] at hmapped
    rw [run_bind_ok (rsect_run (by omega))]
    by_cases hzero : getLE (s.img (d.addrs indirect)) (4 * (fbn - NDIRECT)) 4 = 0
    · have hnn : n = fbn := by
        by_contra hne
        exact hmapped.2 (by omega) hzero
      have hl : fbn - NDIRECT < NINDIRECT := by
        unfold MAXFILE at hmax
        omega
      rw [if_pos hzero]
      show BlockDone F ty data data' i fbn _ _
      rcases Nat.lt_or_ge s.freeblock FSSIZE with hroom | hfull
      · left
        have hdone := hs.entry hroom hind ⟨fbn - NDIRECT, hl⟩ (by simp only; omega)
        rw [hnn] at hdone
        refine ⟨hdone, ?_, ?_⟩
        · have hfb : s.freeblock < 256 ^ 4 := by
            have hbound : FSSIZE < 256 ^ 4 := by decide
            omega
          rw [blockAddr_word hfbn, if_neg hind, indirectWord]
          simp only [update_self]
          exact (getLE_putLE hfb).symm
        · intro _
          omega
      · right
        have hneed := (le_fileBlocks hgrow).2 hfbn
        refine ⟨?_, hs.not_hasRoom hfull hsame ?_⟩
        · simp only
          omega
        · unfold blocksUsed
          rw [if_neg hind]
          omega
    · have hnn : n = fbn + 1 := by
        have hgt := hmapped.1 hzero
        omega
      rw [if_neg hzero]
      show BlockDone F ty data data' i fbn _ _
      left
      rw [hnn] at hs
      refine ⟨hs, ?_, fun _ => by omega⟩
      rw [blockAddr_word hfbn, if_neg hind, indirectWord]
  · rw [run_bind_error (rsect_error hbig)]
    exact hE hnot _

theorem blockFor_spec (hmax : fbn < MAXFILE) (hn : n = fbn ∨ n = fbn + 1)
    (hd : d.addrs indirect ≠ 0 → NDIRECT < n) (hgrow : fbn < nblocks (data' i).length)
    (hsame : ∀ j, j ≠ i → data' j = data j) (hE : ¬ HasRoom data' → ∀ e, E e) :
    Triple (Appending F ty data n i d) (blockFor d fbn) (BlockDone F ty data data' i fbn) E := by
  by_cases hdir : fbn < NDIRECT
  · exact blockFor_direct hdir hn hd hgrow hsame
  have hfbn : NDIRECT ≤ fbn := by omega
  unfold blockFor
  rw [dif_neg hdir]
  exact .bind (addrFor_indirect hfbn hmax hgrow hsame) (blockFor_entry hfbn hmax hn hgrow hsame hE)

/-! ### Appending -/

theorem nblocks_cases (m : Nat) : nblocks m = m / BSIZE ∨ nblocks m = m / BSIZE + 1 := by
  unfold nblocks BSIZE
  omega

theorem nblocks_of_round {m k : Nat} (hlo : m / BSIZE * BSIZE < k)
    (hhi : k ≤ (m / BSIZE + 1) * BSIZE) : nblocks k = m / BSIZE + 1 := by
  unfold nblocks BSIZE at *
  omega

/-- A round: the block for the next bytes is there and they are written to it. -/
theorem round_spec {p : List UInt8} {n1 : Nat} (d : Dinode) (x : Nat)
    (hfbn : fbn = (data i).length / BSIZE)
    (hp : 0 < n1) (hn1 : n1 = min p.length ((fbn + 1) * BSIZE - (data i).length))
    (hE : ¬ HasRoom (update data i (data i ++ p.take n1)) → ∀ e, E e) :
    Triple
      (BlockDone F ty data (update data i (data i ++ p.take n1)) i fbn (d, x))
      (do
        let buf ← rsect x
        wsect x (blit buf ((data i).length - fbn * BSIZE) (p.take n1)))
      (fun _ => Appends F ty (update data i (data i ++ p.take n1)) i d) E := by
  intro s hs
  have hdiv : fbn * BSIZE ≤ (data i).length ∧ (data i).length < (fbn + 1) * BSIZE := by
    rw [hfbn]
    unfold BSIZE
    omega
  have htake : (p.take n1).length = n1 := by
    rw [List.length_take]
    omega
  rcases hs with ⟨hs, hx, hind⟩ | ⟨hbig, hnot⟩
  · simp only at hs hx hind
    have hlen : (data i).length = fbn * BSIZE + ((data i).length - fbn * BSIZE) := by omega
    have hbound : (data i).length - fbn * BSIZE + (p.take n1).length ≤ BSIZE := by
      rw [Nat.add_mul] at hdiv hn1
      omega
    have hdone := hs.write (by omega) hlen hbound
    have hxlt : x < s.size := by
      have hrange := @Layout.block_range _ _ _ _ _ i fbn hs.layout (by rw [update_self]; omega)
      rw [withDin_self] at hrange
      have hroom := hs.layout.room
      have hsize := hs.size
      omega
    have hnb : nblocks (data i ++ p.take n1).length = fbn + 1 := by
      rw [hfbn]
      apply nblocks_of_round
      · rw [← hfbn, List.length_append]
        omega
      · rw [← hfbn, List.length_append]
        omega
    rw [run_bind_ok (rsect_run hxlt), hx]
    show Appends F ty _ i d _
    constructor
    · rw [update_self, hnb]
      exact hdone
    · rw [update_self, hnb]
      exact hind
  · rw [run_bind_error (rsect_error hbig)]
    exact hE hnot _

theorem iappendLoop_spec (rounds : Nat) (d : Dinode) (p : List UInt8)
    (data : Fin inodeArea → List UInt8) (hrounds : p.length ≤ rounds)
    (hE : ¬ HasRoom (update data i (data i ++ p)) → ∀ e, E e) :
    Triple (Appends F ty data i d) (iappendLoop rounds d (data i).length p)
      (fun r s => r.2 = (data i ++ p).length ∧
        Appends F ty (update data i (data i ++ p)) i r.1 s) E := by
  induction rounds generalizing d p data with
  | zero =>
    have hp : p = [] := List.eq_nil_of_length_eq_zero (by omega)
    subst hp
    rw [List.append_nil, update_eq_self]
    exact .pure _ fun s hs => ⟨rfl, hs⟩
  | succ rounds ih =>
    unfold iappendLoop
    apply Triple.ite
    · intro hp
      subst hp
      rw [List.append_nil, update_eq_self]
      exact .pure _ fun s hs => ⟨rfl, hs⟩
    intro hp
    have hpos : 0 < p.length := List.length_pos_iff.2 hp
    have hlt : (data i).length < ((data i).length / BSIZE + 1) * BSIZE := by
      unfold BSIZE
      omega
    apply Triple.ite
    · intro hmax
      generalize hn1 : min p.length
        (((data i).length / BSIZE + 1) * BSIZE - (data i).length) = n1
      have hn1pos : 0 < n1 := by omega
      -- the file after this round, and after all rounds
      have hrest : update (update data i (data i ++ p.take n1)) i
          (update data i (data i ++ p.take n1) i ++ p.drop n1) =
          update data i (data i ++ p) := by
        rw [update_idem, update_self, List.append_assoc, List.take_append_drop]
      have hE' : ¬ HasRoom (update data i (data i ++ p.take n1)) → ∀ e, E e := by
        intro hnot
        apply hE
        intro hroom
        apply hnot
        apply hroom.mono
        intro j
        by_cases hj : j = i
        · subst hj
          rw [update_self, update_self, List.length_append, List.length_append, List.length_take]
          omega
        · rw [update_of_ne hj, update_of_ne hj]
      have hgrow : (data i).length / BSIZE <
          nblocks (update data i (data i ++ p.take n1) i).length := by
        have htake : (p.take n1).length = n1 := by
          rw [List.length_take]
          omega
        rw [update_self, nblocks_of_round (m := (data i).length)]
        · omega
        · have hle := Nat.div_mul_le_self (data i).length BSIZE
          rw [List.length_append]
          omega
        · rw [List.length_append]
          omega
      have hblock : Triple (Appends F ty data i d) (blockFor d ((data i).length / BSIZE))
          (BlockDone F ty data (update data i (data i ++ p.take n1)) i
            ((data i).length / BSIZE)) E := by
        intro s hs
        exact blockFor_spec hmax (nblocks_cases _) hs.ind hgrow
          (fun j hj => update_of_ne hj _ _) hE' s hs.mid
      apply Triple.bind hblock
      rintro ⟨d', x⟩
      have htail := ih d' (p.drop n1) (update data i (data i ++ p.take n1))
        (by rw [List.length_drop]; omega) (by rw [hrest]; exact hE)
      have hoff : (data i).length + n1 =
          (update data i (data i ++ p.take n1) i).length := by
        rw [update_self, List.length_append, List.length_take]
        omega
      rw [hrest, ← hoff, update_self, List.append_assoc, List.take_append_drop] at htail
      have hseq := Triple.bind (round_spec d' x rfl hn1pos hn1.symm hE') fun _ => htail
      simpa only [bind_assoc] using hseq
    · intro hmax
      apply Triple.throw
      intro s hs
      apply hE
      intro hroom
      have hlen := hroom.2 i
      rw [update_self, List.length_append] at hlen
      have hle := Nat.div_mul_le_self (data i).length BSIZE
      have hmul : MAXFILE * BSIZE ≤ (data i).length / BSIZE * BSIZE :=
        Nat.mul_le_mul_right _ (by omega)
      omega

/-! ### Inodes -/

theorem rinode_run (hsize : s.size = FSSIZE) : rinode i s = .ok (diskInode s.img i, s) := by
  have hlt := IBLOCK_lt_nmeta i
  have hmeta : nmeta < FSSIZE := by decide
  have hrun : rsect (IBLOCK i sb) s = .ok (s.img (IBLOCK i sb), s) := rsect_run (by omega)
  unfold rinode
  rw [run_bind_ok hrun]
  rfl

/-- The image with another dinode. -/
def putInode (s : Mk) (i : Fin inodeArea) (d : Dinode) : Mk :=
  { s with
    img := update s.img (IBLOCK i sb)
      (putDinode (s.img (IBLOCK i sb)) (dinodeSize * (i % IPB)) d) }

theorem winode_run (hsize : s.size = FSSIZE) (d : Dinode) :
    winode i d s = .ok ((), putInode s i d) := by
  have hlt := IBLOCK_lt_nmeta i
  have hmeta : nmeta < FSSIZE := by decide
  have hrun : rsect (IBLOCK i sb) s = .ok (s.img (IBLOCK i sb), s) := rsect_run (by omega)
  have hmax : max s.size (IBLOCK i sb + 1) = s.size := by omega
  unfold winode
  rw [run_bind_ok hrun]
  show Except.ok ((), { putInode s i d with size := max s.size (IBLOCK i sb + 1) }) = _
  rw [hmax]
  rfl

theorem putInode_img {b : Nat} (hb : b ≠ IBLOCK i sb) : (putInode s i d).img b = s.img b :=
  update_of_ne hb _ _

theorem diskInode_putInode (hd : Fits d) : diskInode (putInode s i d).img = withDin s.img i d :=
  diskInode_putDinode hd

/-- Storing a dinode with the addresses of the one in memory. -/
theorem putInode_built {d' : Dinode} {ty' : Fin inodeArea → Int16} (h : Appends F ty data i d s)
    (haddrs : d'.addrs = d.addrs) (hsize : d'.size = (data i).length) (htype : d'.type = ty' i)
    (htypes : ∀ j, j ≠ i → ty' j = ty j) : Built F ty' data (putInode s i d') := by
  have hmid := h.mid
  have hlen : (data i).length < 2 ^ 32 := by
    have hfile := hmid.layout.file i
    have hle := hfile.len
    have hnb := hfile.nb_le
    have hmul := Nat.mul_le_mul_right BSIZE hnb
    have hbound : MAXFILE * BSIZE < 2 ^ 32 := by decide
    omega
  have hfits : Fits d' := by
    refine ⟨by omega, ?_⟩
    intro k
    have hlt := hmid.addrs_lt k
    have hbound : FSSIZE < 2 ^ 32 := by decide
    rw [haddrs]
    omega
  have hdisk := diskInode_putInode (s := s) (i := i) hfits
  have hnb : update (nbs data) i (nblocks (data i).length) = nbs data := update_eq_self _ _
  have hother : ∀ j, j ≠ i → diskInode (putInode s i d').img j = diskInode s.img j := by
    intro j hj
    rw [hdisk, withDin, update_of_ne hj]
  have hself : diskInode (putInode s i d').img i = d' := by
    rw [hdisk, withDin_self]
  have hblock := IBLOCK_range i
  constructor
  · exact hmid.size
  · rw [putInode_img (by omega)]
    exact hmid.super
  · exact hmid.freeinode
  · rw [hdisk]
    have hlayout := hmid.layout
    rw [hnb] at hlayout
    apply hlayout.congr
    · intro b hb
      have hlt := IBLOCK_lt_nmeta i
      exact putInode_img (by omega)
    · intro j
      unfold withDin
      by_cases hj : j = i
      · subst hj
        rw [update_self, update_self]
        exact haddrs
      · rw [update_of_ne hj, update_of_ne hj]
  · intro j
    by_cases hj : j = i
    · subst hj
      rw [hself]
      exact htype
    · rw [hother j hj, htypes j hj]
      exact hmid.types j hj
  · intro j
    by_cases hj : j = i
    · subst hj
      rw [hself, haddrs]
      exact h.ind
    · rw [hother j hj]
      exact hmid.inds j hj
  · intro j
    by_cases hj : j = i
    · subst hj
      rw [hself]
      exact hsize
    · rw [hother j hj]
      exact hmid.sizes j hj

/-- **`iappend` appends.** -/
theorem iappend_spec (i : Fin inodeArea) (p : List UInt8)
    (hE : ¬ HasRoom (update data i (data i ++ p)) → ∀ e, E e) :
    Triple (Built F ty data) (iappend i p)
      (fun _ => Built F ty (update data i (data i ++ p))) E := by
  intro s hs
  unfold iappend
  rw [run_bind_ok (rinode_run hs.size), hs.sizes i]
  refine Triple.bind (iappendLoop_spec p.length _ p data (Nat.le_refl _) hE) ?_ s (hs.appends i)
  rintro ⟨d, off⟩ t ⟨hoff, ht⟩
  simp only at hoff ht ⊢
  rw [winode_run ht.mid.size]
  show Built F ty _ (putInode t i { d with size := off })
  apply putInode_built ht
  · rfl
  · simp only [update_self]
    exact hoff
  · exact ht.mid.type
  · intro j _
    rfl

/-- An empty file has no blocks. -/
theorem Built.addrs_zero (h : Built F ty data s) (hempty : data i = []) (k : Fin (NDIRECT + 1)) :
    (diskInode s.img i).addrs k = 0 := by
  have hnb : nbs data i = 0 := by
    unfold nbs
    rw [hempty]
    rfl
  by_contra hne
  by_cases hk : k.val < NDIRECT
  · have hmax : NDIRECT < MAXFILE := by decide
    have hmapped := (h.layout.file i).mapped k (by omega)
    rw [blockAddr_direct hk, hnb] at hmapped
    exact absurd (hmapped.1 hne) (by omega)
  have hind : k = indirect := by
    apply Fin.ext
    simp only [indirect]
    omega
  subst hind
  have hlt := h.inds i hne
  omega

theorem ialloc_spec (data : Fin inodeArea → List UInt8) (i : Fin inodeArea) (type : Int16)
    (hempty : data i = []) :
    Triple (Built i ty data) (ialloc type)
      (fun inum s => inum = i ∧ Built (i + 1) (update ty i type) data s) E := by
  intro s hs
  have hrun : ialloc type s = .ok (s.freeinode,
      putInode { s with freeinode := s.freeinode + 1 } i (newDinode type)) := by
    unfold ialloc
    show (winode s.freeinode (newDinode type) >>= fun _ => pure s.freeinode)
      { s with freeinode := s.freeinode + 1 } = _
    have hw : winode s.freeinode (newDinode type) { s with freeinode := s.freeinode + 1 } =
        .ok ((), putInode { s with freeinode := s.freeinode + 1 } i (newDinode type)) := by
      have hsize : ({ s with freeinode := s.freeinode + 1 } : Mk).size = FSSIZE := hs.size
      have hw := winode_run (i := i) hsize (newDinode type)
      rw [← hs.freeinode] at hw
      exact hw
    rw [run_bind_ok hw]
    rfl
  have hnext : Built (i + 1) ty data { s with freeinode := s.freeinode + 1 } := by
    constructor
    · exact hs.size
    · exact hs.super
    · simp only [hs.freeinode]
    · exact hs.layout
    · exact hs.types
    · exact hs.inds
    · exact hs.sizes
  rw [hrun]
  refine ⟨hs.freeinode, ?_⟩
  apply putInode_built (hnext.appends i)
  · funext k
    exact (hs.addrs_zero hempty k).symm
  · rw [hempty]
    rfl
  · rw [update_self]
    rfl
  · intro j hj
    exact update_of_ne hj _ _

end Kus.Mkfs
