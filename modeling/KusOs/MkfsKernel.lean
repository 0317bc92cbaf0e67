import Mathlib
import KusOs.MkfsLayout

/-!
# How the kernel reads files and directories

* `readi_spec` — `readi` of a file with its blocks in place yields its bytes, and
  zeros behind them (`window`);
* `dirlookup_spec` — `dirlookup` of a directory of given entries finds the first
  entry of the name;
* `namei_spec` — `namei` of a path of one name;
* `bitmapBuf_bit` — the bits of the bitmap.
-/

namespace Kus.Mkfs

open LittleEndian Kus.Dir

variable {img : Nat → Buffer} {d : Dinode} {data : List UInt8} {nb : Nat}

/-! ### Reading a file -/

/-- The bytes `off`, ..., `off + n - 1` of a file, zero beyond its end. -/
def window (data : List UInt8) (off n : Nat) : List UInt8 :=
  (List.range n).map fun k => data.getD (off + k) 0

@[simp] theorem window_length (data : List UInt8) (off n : Nat) :
    (window data off n).length = n := by
  simp [window]

theorem window_append (data : List UInt8) (off m n : Nat) :
    window data off m ++ window data (off + m) n = window data off (m + n) := by
  unfold window
  rw [List.range_add, List.map_append, List.map_map]
  congr 1
  apply List.map_congr_left
  intro k _
  simp [Nat.add_assoc]

theorem window_whole (data : List UInt8) : window data 0 data.length = data := by
  apply List.ext_getElem
  · simp
  · intro k hk hk'
    simp [window, List.getElem?_eq_getElem hk']

section

variable (h : FileOk img d data nb)
include h

theorem bmap_run {bn : Nat} (hbn : bn < nb) : bmap img d bn = .ok (blockAddr img d bn) := by
  have hmax : bn < MAXFILE := Nat.lt_of_lt_of_le hbn h.nb_le
  have hne := (h.mapped bn hmax).2 hbn
  unfold bmap
  by_cases hdir : bn < NDIRECT
  · rw [blockAddr_direct hdir] at hne ⊢
    rw [dif_pos hdir]
    exact if_neg hne
  have hrange : bn - NDIRECT < NINDIRECT := by
    unfold MAXFILE at hmax
    omega
  rw [blockAddr_word (by omega)] at hne ⊢
  rw [dif_neg hdir, if_pos hrange]
  by_cases hind : d.addrs indirect = 0
  · rw [if_pos hind] at hne
    exact absurd rfl hne
  rw [if_neg hind] at hne ⊢
  rw [if_neg hind]
  exact if_neg hne

/-- The part of a block that `readi` copies. -/
theorem slice_block {off m : Nat} (hbn : off / BSIZE < nb) (hm : off % BSIZE + m ≤ BSIZE) :
    slice (img (blockAddr img d (off / BSIZE))) (off % BSIZE) m = window data off m := by
  unfold slice window
  apply List.map_congr_left
  intro k hk
  have hkm := List.mem_range.1 hk
  have hdiv := Nat.div_add_mod off BSIZE
  rw [h.bytes _ hbn _ (by omega)]
  congr 1
  rw [Nat.mul_comm] at hdiv
  omega

theorem readiLoop_spec (rounds off n : Nat) (hrounds : n ≤ rounds) (hn : off + n ≤ nb * BSIZE) :
    readiLoop img d rounds off n = .ok (window data off n) := by
  induction rounds generalizing off n with
  | zero =>
    have hzero : n = 0 := by omega
    rw [hzero]
    rfl
  | succ rounds ih =>
    unfold readiLoop
    by_cases hzero : n = 0
    · rw [if_pos hzero, hzero]
      rfl
    have hpos : 0 < BSIZE := by decide
    have hbn : off / BSIZE < nb := (Nat.div_lt_iff_lt_mul hpos).2 (by omega)
    have hmod := Nat.mod_lt off hpos
    generalize hm : min n (BSIZE - off % BSIZE) = m
    have hrest := ih (off + m) (n - m) (by omega) (by omega)
    rw [if_neg hzero, bmap_run h hbn]
    show (readiLoop img d rounds (off + m) (n - m) >>= fun rest =>
      pure (slice (img (blockAddr img d (off / BSIZE))) (off % BSIZE) m ++ rest)) = _
    rw [hrest, slice_block h hbn (by omega)]
    show Except.ok (window data off m ++ window data (off + m) (n - m)) = _
    rw [window_append]
    congr 2
    omega

/-- **`readi` yields the bytes of the file.** -/
theorem readi_spec (off n : Nat) (hsize : d.size ≤ nb * BSIZE) (hoff : off + n ≤ d.size) :
    readi img d off n = .ok (window data off n) := by
  have hmul := Nat.mul_le_mul_right BSIZE h.nb_le
  have hmax : MAXFILE * BSIZE < 2 ^ 32 := by decide
  have hmin : min n (d.size - off) = n := by omega
  unfold readi
  rw [if_neg (by omega)]
  simp only [hmin]
  exact readiLoop_spec h n off n (Nat.le_refl _) (by omega)

end

/-! ### Directory entries -/

/-- An entry of a directory: an inode number and a name. -/
abbrev Entry := Nat × Name

/-- The bytes of a directory. -/
def entryBytes (entries : List Entry) : List UInt8 :=
  entries.flatMap fun e => direntBytes e.1 e.2

/-- An entry that can be stored. -/
structure Entry.Ok (e : Entry) : Prop where
  inum_pos : 0 < e.1
  inum_lt : e.1 < 65536
  length : e.2.length ≤ DIRSIZ
  no_nul : ∀ b ∈ e.2, b ≠ 0

theorem direntBytes_length (inum : Nat) {name : Name} (h : name.length ≤ DIRSIZ) :
    (direntBytes inum name).length = 16 := by
  have hsiz : DIRSIZ = 14 := rfl
  simp only [direntBytes, List.length_append, List.length_cons, List.length_nil, List.length_take,
    List.length_replicate]
  omega

theorem entryBytes_length {entries : List Entry} (h : ∀ e ∈ entries, Entry.Ok e) :
    (entryBytes entries).length = 16 * entries.length := by
  induction entries with
  | nil => rfl
  | cons e rest ih =>
    have hhead := direntBytes_length e.1 (h e List.mem_cons_self).length
    have hrest := ih fun e' he' => h e' (List.mem_cons_of_mem _ he')
    unfold entryBytes at hrest ⊢
    rw [List.flatMap_cons, List.length_append, hhead, hrest, List.length_cons]
    omega

/-- The bytes of an entry are found at its place. -/
theorem window_entry {entries : List Entry} (h : ∀ e ∈ entries, Entry.Ok e) (k : Nat) :
    window (entryBytes entries) (16 * k) 16 =
      (entries[k]?).elim (List.replicate 16 0) fun e => direntBytes e.1 e.2 := by
  induction entries generalizing k with
  | nil =>
    simp [window, entryBytes]
  | cons e rest ih =>
    have hhead := direntBytes_length e.1 (h e List.mem_cons_self).length
    cases k with
    | zero =>
      apply List.ext_getElem
      · simp [hhead]
      · intro j hj hj'
        have hj16 : j < 16 := by simpa using hj
        simp only [window, entryBytes, List.flatMap_cons, List.getElem_map, List.getElem_range]
        rw [List.getD_append _ _ _ _ (by omega), List.getD_eq_getElem _ _ (by omega)]
        simp
    | succ k =>
      have hrest := ih (fun e' he' => h e' (List.mem_cons_of_mem _ he')) k
      rw [List.getElem?_cons_succ, ← hrest]
      unfold window
      apply List.map_congr_left
      intro j _
      unfold entryBytes
      rw [List.flatMap_cons, List.getD_append_right _ _ _ _ (by omega), hhead]
      congr 1
      omega

/-- Reading the inode number of an entry back. -/
theorem direntBytes_inum {e : Entry} (h : Entry.Ok e) :
    ((direntBytes e.1 e.2).getD 0 0).toNat + 256 * ((direntBytes e.1 e.2).getD 1 0).toNat =
      e.1 := by
  have hlt := h.inum_lt
  simp only [direntBytes, byteAt, List.cons_append, List.getD_cons_zero, List.getD_cons_succ,
    Nat.pow_zero, Nat.pow_one, Nat.div_one, UInt8.toNat_ofNat']
  omega

theorem direntBytes_drop {inum : Nat} {name : Name} (h : name.length ≤ DIRSIZ) :
    (direntBytes inum name).drop 2 = name ++ List.replicate (DIRSIZ - name.length) 0 := by
  unfold direntBytes
  rw [List.take_of_length_le h]
  rfl

/-- `strncmp` against a padded name compares the names. -/
theorem strncmpEq_iff (n : Nat) (s t : Name) (k : Nat) (hs : s.length ≤ n) (ht : t.length ≤ n)
    (hsn : ∀ b ∈ s, b ≠ 0) (htn : ∀ b ∈ t, b ≠ 0) :
    strncmpEq n s (t ++ List.replicate k 0) = true ↔ s = t := by
  have hpad : (List.replicate k (0 : UInt8)).head?.getD 0 = 0 := by
    cases k <;> rfl
  induction n generalizing s t with
  | zero =>
    rw [List.eq_nil_of_length_eq_zero (Nat.le_zero.1 hs),
      List.eq_nil_of_length_eq_zero (Nat.le_zero.1 ht)]
    simp [strncmpEq]
  | succ n ih =>
    cases s with
    | nil =>
      cases t with
      | nil => simp [strncmpEq, hpad]
      | cons b t =>
        have hb : (0 : UInt8) ≠ b := (htn b List.mem_cons_self).symm
        simp [strncmpEq, hb]
    | cons a s =>
      have ha : a ≠ 0 := hsn a List.mem_cons_self
      cases t with
      | nil => simp [strncmpEq, hpad, ha]
      | cons b t =>
        have hrec := ih s t (by simpa using hs) (by simpa using ht)
          (fun c hc => hsn c (List.mem_cons_of_mem _ hc))
          (fun c hc => htn c (List.mem_cons_of_mem _ hc))
        by_cases hab : a = b
        · subst hab
          simp only [strncmpEq, List.headD_cons, List.cons_append, List.tail_cons]
          simp [ha, hrec]
        · simp [strncmpEq, hab]

/-! ### Looking a name up -/

/-- A directory of these entries, with zeros up to its size. -/
structure IsDir (img : Nat → Buffer) (d : Dinode) (entries : List Entry) (nb : Nat) : Prop where
  type : d.type = T_DIR
  file : FileOk img d (entryBytes entries) nb
  ok : ∀ e ∈ entries, Entry.Ok e
  size_le : d.size ≤ nb * BSIZE
  le_size : 16 * entries.length ≤ d.size
  size_mod : d.size % 16 = 0

/-- The inode number of the first entry of a name. -/
def findEntry (entries : List Entry) (name : Name) : Option Nat :=
  (entries.find? fun e => e.2 = name).map Prod.fst

variable {entries : List Entry} {name : Name}

section

variable (h : IsDir img d entries nb) (hname : name.length ≤ DIRSIZ) (hnul : ∀ b ∈ name, b ≠ 0)
include h hname hnul

theorem dirlookupLoop_spec (rounds k : Nat) (hrounds : d.size ≤ 16 * (k + rounds)) :
    dirlookupLoop img d name rounds (16 * k) = .ok (findEntry (entries.drop k) name) := by
  have hle := h.le_size
  have hmod := h.size_mod
  induction rounds generalizing k with
  | zero =>
    rw [List.drop_eq_nil_of_le (by omega)]
    rfl
  | succ rounds ih =>
    have hnext := ih (k + 1) (by omega)
    unfold dirlookupLoop
    by_cases hlt : 16 * k < d.size
    · have hread := readi_spec h.file (16 * k) 16 h.size_le (by omega)
      rw [if_pos hlt, hread]
      simp only [bind, Except.bind]
      rw [if_pos (window_length _ _ _), window_entry h.ok]
      cases hk : entries[k]? with
      | none =>
        have hdone : entries.length ≤ k := List.getElem?_eq_none_iff.1 hk
        show dirlookupLoop img d name rounds (16 * (k + 1)) = _
        rw [hnext, List.drop_eq_nil_of_le hdone, List.drop_eq_nil_of_le (by omega)]
      | some e =>
        have hmem : e ∈ entries := List.mem_of_getElem? hk
        have hok := h.ok e hmem
        have hpos := hok.inum_pos
        have hdrop : entries.drop k = e :: entries.drop (k + 1) := by
          obtain ⟨hlen, heq⟩ := List.getElem?_eq_some_iff.1 hk
          rw [List.drop_eq_getElem_cons hlen, heq]
        simp only [Option.elim_some, direntBytes_inum hok, direntBytes_drop hok.length]
        rw [if_neg (by omega), hdrop]
        have hcmp := strncmpEq_iff DIRSIZ name e.2 (DIRSIZ - e.2.length) hname hok.length hnul
          hok.no_nul
        by_cases heq : name = e.2
        · rw [if_pos (hcmp.2 heq)]
          simp [findEntry, heq, pure, Except.pure]
        rw [if_neg fun htrue => heq (hcmp.1 htrue)]
        show dirlookupLoop img d name rounds (16 * (k + 1)) = _
        have hne : ¬ e.2 = name := fun hsame => heq hsame.symm
        rw [hnext]
        simp [findEntry, hne]
    · rw [if_neg hlt, List.drop_eq_nil_of_le (by omega)]
      rfl

/-- **`dirlookup` finds the first entry of the name.** -/
theorem dirlookup_spec : dirlookup img d name = .ok (findEntry entries name) := by
  have hloop := dirlookupLoop_spec h hname hnul d.size 0 (by omega)
  unfold dirlookup
  rw [if_pos h.type]
  exact hloop

end

theorem skipelem_name (hne : name ≠ []) (hslash : slash ∉ name) (hname : name.length ≤ DIRSIZ) :
    skipelem (slash :: name) = some (name, []) := by
  have hhead : (slash :: name).dropWhile (· == slash) = name := by
    cases name with
    | nil => exact absurd rfl hne
    | cons b rest =>
      have hb : b ≠ slash := fun heq => hslash (heq ▸ List.mem_cons_self)
      simp [hb]
  have hall : ∀ b ∈ name, (b != slash) = true := by
    intro b hb
    have hbs : b ≠ slash := fun heq => hslash (heq ▸ hb)
    simpa using hbs
  unfold skipelem
  simp only [hhead]
  rw [if_neg hne, List.takeWhile_eq_self_iff.2 hall, List.dropWhile_eq_nil_iff.2 hall,
    List.take_of_length_le hname]
  rfl

/-- **`namei` of a path of one name.** -/
theorem namei_spec (hroot : IsDir img (dinodeOf img ROOTINO) entries nb)
    (hslash : slash ∉ name) (hname : name.length ≤ DIRSIZ) (hnul : ∀ b ∈ name, b ≠ 0) :
    namei img (slash :: name) =
      .ok (if name = [] then some ROOTINO else findEntry entries name) := by
  unfold namei
  by_cases hempty : name = []
  · subst hempty
    rfl
  have hskip := skipelem_name hempty hslash hname
  have htype : (dinodeOf img ROOTINO).type ≠ 0 := by
    rw [hroot.type]
    decide
  have hlock : ilock img ROOTINO = .ok (dinodeOf img ROOTINO) := by
    unfold ilock
    exact if_neg htype
  rw [if_neg hempty, List.length_cons, namexLoop, hskip]
  show (ilock img ROOTINO >>= _) = _
  rw [hlock]
  show (if (dinodeOf img ROOTINO).type = T_DIR then _ else _) = _
  rw [if_pos hroot.type, dirlookup_spec hroot hname hnul]
  cases hfind : findEntry entries name with
  | none => rfl
  | some next => rfl

/-! ### The bitmap -/

theorem mask_toNat {k : Nat} (hk : k < 8) : ((1 : UInt8) <<< UInt8.ofNat k).toNat = 2 ^ k := by
  have hall : ∀ j : Fin 8, ((1 : UInt8) <<< UInt8.ofNat j).toNat = 2 ^ (j : Nat) := by decide
  exact hall ⟨k, hk⟩

theorem mask_test (b : UInt8) {k : Nat} (hk : k < 8) :
    ((b &&& 1 <<< UInt8.ofNat k) != 0) = b.toNat.testBit k := by
  have hand : (b &&& 1 <<< UInt8.ofNat k).toNat = (b.toNat.testBit k).toNat * 2 ^ k := by
    rw [UInt8.toNat_and, mask_toNat hk, Nat.and_two_pow]
  have hpos : 0 < 2 ^ k := Nat.pow_pos (by omega)
  cases hbit : b.toNat.testBit k with
  | false =>
    have hzero : b &&& 1 <<< UInt8.ofNat k = 0 := by
      apply UInt8.toNat_inj.1
      rw [hand, hbit]
      simp
    rw [hzero]
    rfl
  | true =>
    have hne : b &&& 1 <<< UInt8.ofNat k ≠ 0 := by
      intro hzero
      rw [hzero, hbit] at hand
      simp at hand
      omega
    exact bne_iff_ne.2 hne

/-- The bits of the first `used` blocks are set, and no others. -/
theorem bitmapBuf_bit (used b : Nat) :
    ((bitmapBuf used (b / 8) &&& 1 <<< UInt8.ofNat (b % 8)) != 0) = decide (b < used) := by
  have hmod : b % 8 < 8 := Nat.mod_lt _ (by omega)
  rw [mask_test _ hmod]
  unfold bitmapBuf
  induction used with
  | zero => simp [zeroes]
  | succ used ih =>
    rw [List.range_succ, List.foldl_append]
    simp only [List.foldl_cons, List.foldl_nil]
    generalize (List.range used).foldl _ zeroes = buf at ih ⊢
    by_cases hbyte : b / 8 = used / 8
    · rw [hbyte, Function.update_self, UInt8.toNat_or, mask_toNat (Nat.mod_lt _ (by omega)),
        Nat.testBit_or, ← hbyte, ih, Nat.testBit_two_pow]
      apply Bool.eq_iff_iff.2
      simp only [Bool.or_eq_true, decide_eq_true_eq]
      omega
    rw [Function.update_of_ne hbyte, ih]
    apply Bool.eq_iff_iff.2
    simp only [decide_eq_true_eq]
    constructor
    · intro hlt
      omega
    · intro hlt
      by_contra hge
      exact hbyte (by rw [show b = used by omega])

end Kus.Mkfs
