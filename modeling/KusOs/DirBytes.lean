import KusOs.DirTreeInvariant
import KusOs.InodeRefs
import KusOs.MkfsKernel

/-!
# The bytes of a directory

A directory is a file of `struct dirent`s of 16 bytes: an inode number and 14 bytes of
name, which end with a NUL only if the name is shorter.  A cleared entry has inode
number 0.

* `dirlookup`, `dirlink`, `isdirempty` and `clearEntry` — the functions of `fs.c` and
  `sysfile.c`, which read and write entries with `readi` and `writei`;
* `entries` — a directory as the list of its entries;
* `dirlookup_spec`, `dirlink_spec`, `clearEntry_spec`, `isdirempty_spec` — **the
  functions on the bytes do what those of the directory tree do on the list**.
-/

namespace Kus.Names

open Hoare LittleEndian
open Dir (Name DIRSIZ Dirent lookup insertEntry dot dotdot)
open Fs (direntSize)
open Itable (NINODE)
open Mkfs (strncmpEq)
open Volume (Vol VolM Held Same Node Source overwrite)

attribute [local simp] strncmpEq

/-- `strncmp(s, t, DIRSIZ) == 0`. -/
def namecmp (s t : List UInt8) : Bool := strncmpEq DIRSIZ s t

/-- The part of a name that counts. -/
def key (name : List UInt8) : Name := (name.take DIRSIZ).takeWhile (· != 0)

/-- `strncpy(de.name, name, DIRSIZ)`. -/
def strncpy (name : List UInt8) : List UInt8 :=
  key name ++ List.replicate (DIRSIZ - (key name).length) 0

/-- `de.inum`. -/
def direntInum (de : List UInt8) : Nat := (de.getD 0 0).toNat + 256 * (de.getD 1 0).toNat

/-- The bytes of an entry. -/
def dirent (inum : Nat) (name : List UInt8) : List UInt8 :=
  [byteAt inum 0, byteAt inum 1] ++ strncpy name

section Functions

variable (sb : Superblock)

/-- `readi` of an entry. -/
def readEntry (dp off : Nat) (e : Stop) : MountM (List UInt8) := do
  let r ← onVol (Volume.readi sb dp off direntSize direntSize)
  if r.1 ≠ direntSize then throw e else pure r.2

/-- The loop of `dirlookup`, with a round for every entry at least. -/
def dirlookupLoop (dp : Nat) (name : List UInt8) : Nat → Nat → MountM (Option (Nat × Nat))
  | 0, _ => pure none
  | rounds + 1, off => do
    let m ← get
    if off < m.vol.size dp then
      let de ← readEntry sb dp off .dirlookupRead
      if direntInum de = 0 then dirlookupLoop dp name rounds (off + direntSize)
      else if namecmp name (de.drop 2) then
        iget (direntInum de)
        pure (some (direntInum de, off))
      else dirlookupLoop dp name rounds (off + direntSize)
    else pure none

/-- The inode of a name, and the offset of its entry. -/
def dirlookup (dp : Nat) (name : List UInt8) : MountM (Option (Nat × Nat)) := do
  let m ← get
  if (m.vol.ip dp).type ≠ T_DIR then throw (.fs .notDir)
  else dirlookupLoop sb dp name (m.vol.size dp) 0

/-- The loop of `dirlink`: the offset of the first empty entry, or the end. -/
def emptyLoop (dp : Nat) : Nat → Nat → MountM Nat
  | 0, off => pure off
  | rounds + 1, off => do
    let m ← get
    if off < m.vol.size dp then
      let de ← readEntry sb dp off .dirlinkRead
      if direntInum de = 0 then pure off else emptyLoop dp rounds (off + direntSize)
    else pure off

/-- `writei` of an entry; the result is whether all of it has been written. -/
def writeEntry (dp off : Nat) (de : List UInt8) : MountM Bool := do
  let r ← onVol (Volume.writei sb dp off direntSize (.ofList de))
  pure (r = direntSize)

def dirlink (dp : Nat) (name : List UInt8) (inum : Nat) : MountM Int := do
  match ← dirlookup sb dp name with
  | some (ip, _) =>
    iput ip
    pure (-1)
  | none =>
    let m ← get
    let off ← emptyLoop sb dp (m.vol.size dp) 0
    if ← writeEntry sb dp off (dirent inum name) then pure 0 else pure (-1)

/-- `sys_unlink` writes zeros over an entry. -/
def clearEntry (dp off : Nat) : MountM Unit := do
  if ← writeEntry sb dp off (List.replicate direntSize 0) then pure ()
  else throw (.fs .unlinkWritei)

/-- The loop of `isdirempty`. -/
def isdiremptyLoop (dp : Nat) : Nat → Nat → MountM Bool
  | 0, _ => pure true
  | rounds + 1, off => do
    let m ← get
    if off < m.vol.size dp then
      let de ← readEntry sb dp off .isdiremptyRead
      if direntInum de ≠ 0 then pure false else isdiremptyLoop dp rounds (off + direntSize)
    else pure true

def isdirempty (dp : Nat) : MountM Bool := do
  let m ← get
  isdiremptyLoop sb dp (m.vol.size dp) (2 * direntSize)

end Functions

section Decoding

variable {c p : List UInt8}

/-- The entry in 16 bytes; generations are not on the disk. -/
def decode (de : List UInt8) : Dirent := ⟨direntInum de, key (de.drop 2), 0⟩

/-- The bytes of entry `k`. -/
def chunk (c : List UInt8) (k : Nat) : List UInt8 := (c.drop (direntSize * k)).take direntSize

/-- A directory with the bytes `c`. -/
def entries (c : List UInt8) : List Dirent :=
  (List.range (c.length / direntSize)).map fun k => decode (chunk c k)

@[simp] theorem length_entries (c : List UInt8) :
    (entries c).length = c.length / direntSize := by
  simp [entries]

theorem getElem?_entries (c : List UInt8) (k : Nat) :
    (entries c)[k]? = if k < c.length / direntSize then some (decode (chunk c k)) else none := by
  unfold entries
  rw [List.getElem?_map]
  by_cases hk : k < c.length / direntSize
  · rw [if_pos hk, List.getElem?_range hk]
    rfl
  · rw [if_neg hk, List.getElem?_eq_none (by simpa using hk)]
    rfl

/-- `strncmp` compares the parts that count. -/
theorem strncmpEq_take (n : Nat) (s t : List UInt8) : strncmpEq n s t = true ↔
    (s.take n).takeWhile (· != 0) = (t.take n).takeWhile (· != 0) := by
  induction n generalizing s t with
  | zero => simp
  | succ n ih =>
    cases s with
    | nil =>
      cases t with
      | nil => simp
      | cons b t =>
        by_cases hb : b = 0
        · simp [hb]
        · have hne : (0 : UInt8) ≠ b := fun h => hb h.symm
          simp [hb, hne]
    | cons a s =>
      cases t with
      | nil =>
        by_cases ha : a = 0
        · simp [ha]
        · simp [ha]
      | cons b t =>
        have hrest := ih s t
        by_cases ha : a = 0
        · by_cases hb : b = 0
          · simp [ha, hb]
          · have hne : (0 : UInt8) ≠ b := fun h => hb h.symm
            simp [ha, hb, hne]
        by_cases hab : a = b
        · subst hab
          simp [ha, hrest]
        by_cases hb : b = 0
        · simp [ha, hb]
        · simp [ha, hb, hab]

theorem namecmp_iff (s t : List UInt8) : namecmp s t = true ↔ key s = key t :=
  strncmpEq_take DIRSIZ s t

theorem key_length (name : List UInt8) : (key name).length ≤ DIRSIZ := by
  have hle := (List.takeWhile_sublist (p := (· != 0)) (l := name.take DIRSIZ)).length_le
  have htake : (name.take DIRSIZ).length ≤ DIRSIZ := by simp
  exact hle.trans htake

theorem key_no_nul {name : List UInt8} {b : UInt8} (hb : b ∈ key name) : b ≠ 0 := by
  have hmem := List.mem_takeWhile_imp hb
  simpa using hmem

/-- A short string without NUL counts as a whole. -/
theorem key_padded {s : List UInt8} (hlen : s.length ≤ DIRSIZ) (hnul : ∀ b ∈ s, b ≠ 0) (k : Nat) :
    key (s ++ List.replicate k 0) = s := by
  unfold key
  rw [List.take_append, List.take_of_length_le hlen]
  have hall : ∀ b ∈ s, (b != 0) = true := by
    intro b hb
    simpa using hnul b hb
  rw [List.takeWhile_append_of_pos hall]
  cases hrest : (List.replicate k (0 : UInt8)).take (DIRSIZ - s.length) with
  | nil => simp
  | cons b rest =>
    have hb : b = 0 := by
      have hmem : b ∈ (List.replicate k (0 : UInt8)).take (DIRSIZ - s.length) := by
        rw [hrest]
        exact List.mem_cons_self
      exact List.eq_of_mem_replicate (List.mem_of_mem_take hmem)
    simp [hb]

theorem length_strncpy (name : List UInt8) : (strncpy name).length = DIRSIZ := by
  have hlen := key_length name
  simp only [strncpy, List.length_append, List.length_replicate]
  omega

theorem length_dirent (inum : Nat) (name : List UInt8) :
    (dirent inum name).length = direntSize := by
  simp [dirent, length_strncpy, DIRSIZ, direntSize]

/-- What is written is what is read. -/
theorem decode_dirent {inum : Nat} (h : inum < 65536) (name : List UInt8) :
    decode (dirent inum name) = ⟨inum, key name, 0⟩ := by
  have hnum : direntInum (dirent inum name) = inum := by
    simp only [direntInum, dirent, byteAt, List.cons_append, List.getD_cons_zero,
      List.getD_cons_succ, Nat.pow_zero, Nat.pow_one, Nat.div_one, UInt8.toNat_ofNat']
    omega
  have hname : key ((dirent inum name).drop 2) = key name := by
    change key (strncpy name) = key name
    exact key_padded (key_length name) (fun _ hb => key_no_nul hb) _
  unfold decode
  rw [hnum, hname]

theorem decode_zero : decode (List.replicate direntSize 0) = Dirent.empty := by decide

/-- The bytes of the other entries stay. -/
theorem chunk_overwrite {n k j : Nat} (hc : c.length = direntSize * n) (hp : p.length = direntSize)
    (hk : k ≤ n) : chunk (overwrite c (direntSize * k) p) j = if j = k then p else chunk c j := by
  simp only [direntSize] at hc hp
  have hleft : (c.take (16 * k)).length = 16 * k := by
    rw [List.length_take]
    omega
  apply List.ext_getElem?
  intro t
  simp only [chunk, overwrite, direntSize]
  by_cases ht : t < 16
  · rw [List.getElem?_take_of_lt ht, List.getElem?_drop]
    by_cases hjk : j = k
    · rw [if_pos hjk, hjk, List.append_assoc, List.getElem?_append_right (by omega), hleft,
        List.getElem?_append_left (by omega)]
      congr 1
      omega
    rw [if_neg hjk, List.getElem?_take_of_lt ht, List.getElem?_drop]
    rcases Nat.lt_or_gt_of_ne hjk with hlt | hgt
    · rw [List.append_assoc, List.getElem?_append_left (by omega),
        List.getElem?_take_of_lt (by omega)]
    have hfront : (c.take (16 * k) ++ p).length = 16 * k + 16 := by
      rw [List.length_append, hleft, hp]
    rw [List.getElem?_append_right (by omega), List.getElem?_drop, hfront, hp]
    congr 1
    omega
  · rw [List.getElem?_eq_none (by rw [List.length_take]; omega)]
    by_cases hjk : j = k
    · rw [if_pos hjk, List.getElem?_eq_none (by omega)]
    · rw [if_neg hjk, List.getElem?_eq_none (by rw [List.length_take]; omega)]

section

variable {n k : Nat} (hc : c.length = direntSize * n) (hp : p.length = direntSize) (hk : k ≤ n)
include hc hp hk

theorem length_overwrite :
    (overwrite c (direntSize * k) p).length = direntSize * max n (k + 1) := by
  simp only [direntSize] at hc hp ⊢
  simp only [overwrite, List.length_append, List.length_take, List.length_drop]
  omega

/-- Entry `k` is replaced, or added at the end. -/
theorem entries_overwrite : entries (overwrite c (direntSize * k) p) =
      if k < n then (entries c).set k (decode p) else entries c ++ [decode p] := by
  have hcount : c.length / direntSize = n := by
    rw [hc]
    exact Nat.mul_div_cancel_left n (by decide)
  have hlen := length_overwrite hc hp hk
  have hcount' : (overwrite c (direntSize * k) p).length / direntSize = max n (k + 1) := by
    rw [hlen]
    exact Nat.mul_div_cancel_left _ (by decide)
  have hold : ∀ j, (entries c)[j]? = if j < n then some (decode (chunk c j)) else none := by
    intro j
    rw [getElem?_entries, hcount]
  have hlength : (entries c).length = n := by rw [length_entries, hcount]
  apply List.ext_getElem?
  intro j
  rw [getElem?_entries, hcount']
  by_cases hlt : k < n
  · rw [if_pos hlt, List.getElem?_set, hold, hlength, Nat.max_eq_left (by omega)]
    by_cases hj : j < n
    · rw [if_pos hj, if_pos hj, chunk_overwrite hc hp hk]
      by_cases hjk : j = k
      · rw [if_pos hjk, if_pos hjk.symm, if_pos hlt]
      · rw [if_neg hjk, if_neg (Ne.symm hjk)]
    · have hjk : ¬ k = j := by omega
      rw [if_neg hj, if_neg hjk, if_neg hj]
  have hkn : k = n := by omega
  rw [if_neg hlt, Nat.max_eq_right (by omega)]
  by_cases hj : j < k + 1
  · rw [if_pos hj, chunk_overwrite hc hp hk]
    by_cases hjk : j = k
    · rw [if_pos hjk, List.getElem?_append_right (by omega), hlength, hjk, hkn, Nat.sub_self]
      rfl
    · rw [if_neg hjk, List.getElem?_append_left (by omega), hold, if_pos (by omega)]
  rw [if_neg hj, List.getElem?_eq_none]
  rw [List.length_append, hlength, List.length_singleton]
  omega

end

end Decoding

section Reading

variable {sb : Superblock} {v : Vol} {R : Multiset Nat} {L : List Nat} {m : Mount} {dp : Nat}
  {nd : Node} {E : Stop → Prop}

/-- A directory of whole entries. -/
structure Folder (v : Vol) (dp : Nat) (nd : Node) : Prop where
  node : v.node dp = some nd
  type : nd.type = T_DIR
  whole : direntSize ∣ nd.content.length

theorem Folder.length (h : Folder v dp nd) :
    nd.content.length = direntSize * (entries nd.content).length := by
  rw [length_entries, Nat.mul_div_cancel' h.whole]

theorem Folder.size (h : Folder v dp nd) (hat : At sb v R L m) :
    m.vol.size dp = direntSize * (entries nd.content).length := by
  rw [← h.length]
  have hnode := h.node
  rw [← hat.node] at hnode
  exact (Volume.node_length hnode).symm

theorem entry_lt {k n : Nat} : direntSize * k < direntSize * n ↔ k < n :=
  Nat.mul_lt_mul_left (by decide)

theorem entry_next (k : Nat) : direntSize * k + direntSize = direntSize * (k + 1) :=
  (Nat.mul_succ direntSize k).symm

theorem le_entries (n k : Nat) : n - k ≤ direntSize * n := by
  have hle : n ≤ direntSize * n := Nat.le_mul_of_pos_left n (by decide)
  omega

/-- No file is longer than its blocks can be. -/
theorem size_le (h : Held sb L v) {i : Nat} (hi : v.Allocated i) : v.size i ≤ MAXFILE * BSIZE := by
  by_contra hlong
  have hne := h.filled hi (k := MAXFILE * BSIZE) (by omega)
  obtain ⟨x, hx, _⟩ := Vol.block_ne_zero hne
  have hlt := Volume.lt_of_dataPlace hx
  rw [Nat.mul_div_cancel _ (by decide)] at hlt
  exact lt_irrefl _ hlt

/-- `readi` finds an entry of the directory. -/
theorem readEntry_run (h : At sb v R L m) (hdp : dp ∈ L) (hf : Folder v dp nd) {k : Nat}
    (hk : k < (entries nd.content).length) (e : Stop) :
    readEntry sb dp (direntSize * k) e m = .ok (chunk nd.content k, m) := by
  have hnode := hf.node
  rw [← h.node] at hnode
  have hused := Volume.allocated_of_node hnode
  have hsize := hf.size h
  have hmax := size_le h.held hused
  have hfit : direntSize * k + direntSize ≤ m.vol.size dp := by
    rw [hsize, entry_next]
    exact Nat.mul_le_mul_left _ hk
  have hmin : min direntSize (m.vol.size dp - direntSize * k) = direntSize := by omega
  have hsum : direntSize * k + direntSize < 2 ^ 32 := by
    simp only [MAXFILE, NDIRECT, NINDIRECT, BSIZE] at hmax
    omega
  have hread := Volume.readi_spec h.held hdp (by omega) hsum direntSize
  rw [hmin, if_pos (le_refl _)] at hread
  have hbytes : m.vol.bytes dp (direntSize * k) direntSize = chunk nd.content k := by
    unfold chunk
    rw [Volume.node_content hnode, Vol.content_of_allocated hused, Vol.drop_bytes,
      Vol.take_bytes, Nat.zero_add, hmin]
  rw [hbytes] at hread
  unfold readEntry
  rw [run_bind_ok (onVol_ok hread), if_neg (not_not.2 rfl)]
  rfl

/-- What `dirlookup` returns when the lookup in the list of entries gives `found`. -/
def Found (sb : Superblock) (v : Vol) (R : Multiset Nat) (L : List Nat)
    (found : Option (Nat × Nat)) (r : Option (Nat × Nat)) (m : Mount) : Prop :=
  match found with
  | none => r = none ∧ At sb v R L m
  | some (k, i) => r = some (i, direntSize * k) ∧ At sb v (i ::ₘ R) L m ∧
      (i ∉ R → m.vol.inode i = none)

theorem drop_entries {c : List UInt8} {k : Nat} (hk : k < (entries c).length) :
    (entries c).drop k = decode (chunk c k) :: (entries c).drop (k + 1) := by
  rw [List.drop_eq_getElem_cons hk]
  congr 1
  apply Option.some.inj
  rw [← List.getElem?_eq_getElem hk, getElem?_entries, if_pos (by simpa using hk)]

theorem lookup_hit {e : Dirent} {ds : List Dirent} {name : Name}
    (h : e.inum ≠ 0 ∧ e.name = name) : lookup name (e :: ds) = some (0, e.inum) := if_pos h

theorem lookup_skip {e : Dirent} {ds : List Dirent} {name : Name}
    (h : ¬ (e.inum ≠ 0 ∧ e.name = name)) :
    lookup name (e :: ds) = (lookup name ds).map fun r => (r.1 + 1, r.2) := if_neg h

section

variable (hdp : dp ∈ L) (hf : Folder v dp nd) (name : List UInt8)
  (hE : NINODE ≤ R.dedup.card → E .igetNone)
include hdp hf name hE

theorem dirlookupLoop_spec (rounds k : Nat) (hrounds : (entries nd.content).length - k ≤ rounds) :
    Triple (At sb v R L) (dirlookupLoop sb dp name rounds (direntSize * k))
      (Found sb v R L ((lookup (key name) ((entries nd.content).drop k)).map
        fun r => (k + r.1, r.2))) E := by
  have hover : ∀ {k}, (entries nd.content).length ≤ k →
      (lookup (key name) ((entries nd.content).drop k)).map (fun r => (k + r.1, r.2)) = none := by
    intro k hk
    rw [List.drop_eq_nil_of_le hk]
    rfl
  induction rounds generalizing k with
  | zero =>
    rw [hover (by omega)]
    exact .pure _ fun _ h => ⟨rfl, h⟩
  | succ rounds ih =>
    apply Triple.get_bind
    intro m h
    rw [hf.size h]
    by_cases hk : k < (entries nd.content).length
    · rw [if_pos (entry_lt.2 hk)]
      apply Triple.bind_ok (readEntry_run h hdp hf hk _)
      have hnext := ih (k + 1) (by omega)
      rw [drop_entries hk, entry_next]
      -- the entry is passed over
      have hskip : ¬ ((decode (chunk nd.content k)).inum ≠ 0 ∧
          (decode (chunk nd.content k)).name = key name) →
          Triple (fun s => s = m) (dirlookupLoop sb dp name rounds (direntSize * (k + 1)))
            (Found sb v R L ((lookup (key name) (decode (chunk nd.content k) ::
              (entries nd.content).drop (k + 1))).map fun r => (k + r.1, r.2))) E := by
        intro hno
        have hsame : (lookup (key name) (decode (chunk nd.content k) ::
            (entries nd.content).drop (k + 1))).map (fun r => (k + r.1, r.2)) =
            (lookup (key name) ((entries nd.content).drop (k + 1))).map
              fun r => (k + 1 + r.1, r.2) := by
          rw [lookup_skip hno, Option.map_map]
          congr 1
          funext r
          simp only [Function.comp_apply, Prod.mk.injEq, and_true]
          omega
        rw [hsame]
        exact .here hnext h
      apply Triple.ite
      · intro hzero
        exact hskip fun hboth => hboth.1 hzero
      intro hlive
      apply Triple.ite
      · intro hname
        have hkey := (namecmp_iff _ _).1 hname
        have hthis : (lookup (key name) (decode (chunk nd.content k) ::
            (entries nd.content).drop (k + 1))).map (fun r => (k + r.1, r.2)) =
            some (k, direntInum (chunk nd.content k)) := by
          rw [lookup_hit ⟨hlive, hkey.symm⟩]
          rfl
        rw [hthis]
        apply Triple.bind (.here (iget_fresh hE) h)
        intro _
        exact .pure _ fun _ hs => ⟨rfl, hs⟩
      · intro hname
        exact hskip fun hboth => hname ((namecmp_iff _ _).2 hboth.2.symm)
    · rw [if_neg (fun hlt => hk (entry_lt.1 hlt)), hover (by omega)]
      exact .pure _ fun _ hs => ⟨rfl, hs ▸ h⟩

/-- **`dirlookup`** looks the name up in the list of entries. -/
theorem dirlookup_spec : Triple (At sb v R L) (dirlookup sb dp name)
      (Found sb v R L (lookup (key name) (entries nd.content))) E := by
  apply Triple.get_bind
  intro m h
  have htype : (m.vol.ip dp).type = T_DIR := by
    rw [h.ip, ← Volume.node_type hf.node]
    exact hf.type
  rw [if_neg (not_not.2 htype), hf.size h]
  have hloop := @dirlookupLoop_spec sb v R L dp nd E hdp hf name hE
    (direntSize * (entries nd.content).length) 0 (le_entries _ _)
  have hsame : (lookup (key name) ((entries nd.content).drop 0)).map
      (fun r => (0 + r.1, r.2)) = lookup (key name) (entries nd.content) := by
    rw [List.drop_zero]
    cases lookup (key name) (entries nd.content) with
    | none => rfl
    | some r => simp
  rw [hsame] at hloop
  exact .here hloop h

end

/-- The first empty entry, or the number of entries. -/
def slot (ds : List Dirent) : Nat := ds.findIdx fun e => e.inum == 0

theorem slot_le (ds : List Dirent) : slot ds ≤ ds.length := List.findIdx_le_length

theorem insertEntry_eq (e : Dirent) (ds : List Dirent) :
    insertEntry e ds = if slot ds < ds.length then ds.set (slot ds) e else ds ++ [e] := by
  induction ds with
  | nil => rfl
  | cons d ds ih =>
    unfold insertEntry slot
    rw [List.findIdx_cons]
    by_cases hd : d.inum = 0
    · simp [hd]
    have hb : (d.inum == 0) = false := by simpa using hd
    rw [if_neg hd, hb, ih]
    unfold slot
    by_cases hlt : ds.findIdx (fun e => e.inum == 0) < ds.length
    · simp [hlt]
    · simp [hlt]

theorem emptyLoop_run (h : At sb v R L m) (hdp : dp ∈ L) (hf : Folder v dp nd) (rounds k : Nat)
    (hk : k ≤ (entries nd.content).length) (hrounds : (entries nd.content).length - k ≤ rounds) :
    emptyLoop sb dp rounds (direntSize * k) m =
      .ok (direntSize * (k + slot ((entries nd.content).drop k)), m) := by
  have hover : ∀ {k}, (entries nd.content).length ≤ k →
      k + slot ((entries nd.content).drop k) = k := by
    intro k hk
    rw [List.drop_eq_nil_of_le hk]
    rfl
  induction rounds generalizing k with
  | zero =>
    rw [hover (by omega)]
    rfl
  | succ rounds ih =>
    unfold emptyLoop
    rw [run_get, hf.size h]
    by_cases hlt : k < (entries nd.content).length
    · rw [if_pos (entry_lt.2 hlt), run_bind_ok (readEntry_run h hdp hf hlt _),
        drop_entries hlt]
      unfold slot
      rw [List.findIdx_cons]
      by_cases hzero : direntInum (chunk nd.content k) = 0
      · have hb : ((decode (chunk nd.content k)).inum == 0) = true := by simpa [decode] using hzero
        rw [if_pos hzero, hb]
        rfl
      have hb : ((decode (chunk nd.content k)).inum == 0) = false := by
        simpa [decode] using hzero
      rw [if_neg hzero, hb, entry_next, ih (k + 1) (by omega) (by omega)]
      simp only [cond_false, slot]
      congr 3
      omega
    · rw [if_neg (fun h => hlt (entry_lt.1 h)), hover (by omega)]
      rfl

/-- **`isdirempty`** looks at every entry after the first two. -/
theorem isdirempty_run (h : At sb v R L m) (hdp : dp ∈ L) (hf : Folder v dp nd) :
    isdirempty sb dp m = .ok (Dir.isdirempty (entries nd.content), m) := by
  have hloop : ∀ rounds k, (entries nd.content).length - k ≤ rounds →
      isdiremptyLoop sb dp rounds (direntSize * k) m =
        .ok (((entries nd.content).drop k).all fun e => e.inum == 0, m) := by
    intro rounds
    induction rounds with
    | zero =>
      intro k hk
      rw [List.drop_eq_nil_of_le (by omega)]
      rfl
    | succ rounds ih =>
      intro k hk
      unfold isdiremptyLoop
      rw [run_get, hf.size h]
      by_cases hlt : k < (entries nd.content).length
      · rw [if_pos (entry_lt.2 hlt), run_bind_ok (readEntry_run h hdp hf hlt _),
          drop_entries hlt, List.all_cons]
        by_cases hzero : direntInum (chunk nd.content k) = 0
        · have hb : ((decode (chunk nd.content k)).inum == 0) = true := by
            simpa [decode] using hzero
          rw [if_neg (not_not.2 hzero), hb, Bool.true_and, entry_next]
          exact ih (k + 1) (by omega)
        have hb : ((decode (chunk nd.content k)).inum == 0) = false := by
          simpa [decode] using hzero
        rw [if_pos hzero, hb, Bool.false_and]
        rfl
      · rw [if_neg (fun h => hlt (entry_lt.1 h)), List.drop_eq_nil_of_le (by omega)]
        rfl
  unfold isdirempty
  rw [run_get, hf.size h, Nat.mul_comm 2]
  exact hloop _ 2 (le_entries _ _)

end Reading

section Writing

variable {sb : Superblock} {v : Vol} {R : Multiset Nat} {L : List Nat} {m : Mount} {dp : Nat}
  {nd : Node} {E : Stop → Prop}

/-- Directory `dp` has been given the entries `ds`. -/
def Rewritten (dp : Nat) (nd : Node) (ds : List Dirent) (v w : Vol) : Prop :=
  ∃ c, w.node = Function.update v.node dp (some { nd with content := c }) ∧
    direntSize ∣ c.length ∧ entries c = ds

/-- There is no block for an entry at the end of the directory. -/
def Stuck (sb : Superblock) (nd : Node) (w : Vol) : Prop :=
  slot (entries nd.content) = (entries nd.content).length ∧
    (MAXFILE * BSIZE < nd.content.length + direntSize ∨
      BSIZE ∣ nd.content.length ∧ Fs.Full sb w.store)

/-- `writei` of an entry at place `k`. -/
theorem writeEntry_run (hsb : sb.size ≤ 2 ^ 32) (h : At sb v R L m) (hdp : dp ∈ L)
    (hf : Folder v dp nd) {k : Nat} (hk : k ≤ (entries nd.content).length) {de : List UInt8}
    (hde : de.length = direntSize) :
    ∃ b w, writeEntry sb dp (direntSize * k) de m = .ok (b, { m with vol := w }) ∧
      Held sb L w ∧
      (b = true ∧ Rewritten dp nd (if k < (entries nd.content).length
          then (entries nd.content).set k (decode de) else entries nd.content ++ [decode de]) v w ∨
        b = false ∧ w.node = v.node ∧ k = (entries nd.content).length ∧
          (MAXFILE * BSIZE < nd.content.length + direntSize ∨
            BSIZE ∣ nd.content.length ∧ Fs.Full sb w.store)) := by
  have hnode := hf.node
  rw [← h.node] at hnode
  have hsize := hf.size h
  have hlength := hf.length
  have hmax := size_le h.held (Volume.allocated_of_node hnode)
  have hoff : direntSize * k ≤ m.vol.size dp := by
    rw [hsize]
    exact Nat.mul_le_mul_left _ hk
  have hlast : m.vol.size dp ≤ direntSize * k → k = (entries nd.content).length := by
    intro hle
    rw [hsize] at hle
    exact le_antisymm hk (Nat.le_of_mul_le_mul_left hle (by decide))
  by_cases hroom : direntSize * k + direntSize ≤ MAXFILE * BSIZE
  · have hinside : direntSize * k % BSIZE + direntSize ≤ BSIZE := by
      simp only [direntSize, BSIZE]
      omega
    obtain ⟨r, w, hrun, hheld, hdone | hfull⟩ := @Volume.writei_whole sb L m.vol dp
      (direntSize * k) hsb h.held hdp de hoff (by rintro rfl; cases hde)
      (by rw [hde]; exact hinside) (by rw [hde]; exact hroom)
    · obtain ⟨hr, hw⟩ := hdone
      rw [hde] at hrun hr
      refine ⟨true, w, ?_, hheld, .inl ⟨rfl, ?_⟩⟩
      · unfold writeEntry
        rw [run_bind_ok (onVol_ok hrun), hr]
        rfl
      · refine ⟨overwrite nd.content (direntSize * k) de, ?_, ?_, ?_⟩
        · rw [hw, hnode, h.node]
          rfl
        · rw [length_overwrite hlength hde hk]
          exact Dvd.intro _ rfl
        · exact entries_overwrite hlength hde hk
    · obtain ⟨hr, _, hw, hend, hfull⟩ := hfull
      rw [hde] at hrun
      have hle := Nat.div_mul_le_self (direntSize * k) BSIZE
      have hk' := hlast (hend.trans hle)
      have hblock : BSIZE ∣ nd.content.length := by
        rw [hlength, ← hk']
        exact Dvd.intro_left _ (le_antisymm hle (hoff.trans hend))
      refine ⟨false, w, ?_, hheld, .inr ⟨rfl, ?_, hk', .inr ⟨hblock, hfull⟩⟩⟩
      · unfold writeEntry
        rw [run_bind_ok (onVol_ok hrun), hr]
        rfl
      · rw [hw, h.node]
  · have hk' : k = (entries nd.content).length := by
      apply hlast
      by_contra hlt
      apply hroom
      have hnext : direntSize * k + direntSize ≤ m.vol.size dp := by
        rw [hsize, entry_next]
        rw [hsize] at hlt
        exact Nat.mul_le_mul_left _ (entry_lt.1 (Nat.lt_of_not_le hlt))
      exact hnext.trans hmax
    have hsmall : direntSize * k < 2 ^ 32 := by
      simp only [MAXFILE, NDIRECT, NINDIRECT, BSIZE] at hmax
      omega
    have hreject := @Volume.writei_reject sb m.vol dp (direntSize * k) direntSize
      (fun hok => hroom hok.2) hsmall (by decide) (.ofList de)
    refine ⟨false, m.vol, ?_, h.held, .inr ⟨rfl, h.node, hk', .inl ?_⟩⟩
    · unfold writeEntry
      rw [run_bind_ok (onVol_ok hreject)]
      rfl
    · rw [hlength, ← hk']
      omega

/-- What `dirlink` does. -/
inductive Linked (sb : Superblock) (v : Vol) (R : Multiset Nat) (L : List Nat) (dp : Nat)
    (nd : Node) (name : List UInt8) (inum : Nat) : Int → Mount → Prop
  | present {m : Mount} (hname : lookup (key name) (entries nd.content) ≠ none)
      (hat : At sb v R L m) : Linked sb v R L dp nd name inum (-1) m
  | stuck {w : Vol} {m : Mount} (hname : lookup (key name) (entries nd.content) = none)
      (hstuck : Stuck sb nd w) (hnode : w.node = v.node) (hat : At sb w R L m) :
      Linked sb v R L dp nd name inum (-1) m
  | added {w : Vol} {m : Mount} (hname : lookup (key name) (entries nd.content) = none)
      (hadded : Rewritten dp nd (insertEntry ⟨inum, key name, 0⟩ (entries nd.content)) v w)
      (hat : At sb w R L m) : Linked sb v R L dp nd name inum 0 m

/-- **`dirlink`** adds the entry, unless the name is there or there is no block for it. -/
theorem dirlink_spec (hsb : sb.size ≤ 2 ^ 32) (hdp : dp ∈ L) (hf : Folder v dp nd)
    (name : List UInt8) {inum : Nat} (hinum : inum < 65536)
    (hE : NINODE ≤ R.dedup.card → E .igetNone) :
    Triple (At sb v R L) (dirlink sb dp name inum) (Linked sb v R L dp nd name inum) E := by
  apply Triple.fix
  intro m₀ h₀
  apply Triple.bind (.here (dirlookup_spec hdp hf name hE) h₀)
  intro r
  apply Triple.fix
  intro m h
  cases hlook : lookup (key name) (entries nd.content) with
  | some found =>
    obtain ⟨k, i⟩ := found
    rw [hlook] at h
    obtain ⟨hr, hat⟩ := h
    rw [hr]
    apply Triple.bind (.here (iput_fresh h₀.backed) hat)
    intro _
    apply Triple.pure
    intro _ hs
    exact .present (by simp [hlook]) hs
  | none =>
    rw [hlook] at h
    obtain ⟨hr, hat⟩ := h
    rw [hr]
    apply Triple.bind_ok (a := m) (t := m) rfl
    have hempty := emptyLoop_run hat hdp hf (m.vol.size dp) 0 (Nat.zero_le _)
      (by rw [hf.size hat]; exact le_entries _ _)
    rw [List.drop_zero, Nat.zero_add, Nat.mul_zero] at hempty
    apply Triple.bind_ok hempty
    obtain ⟨b, w, hrun, hheld, hdone | hfull⟩ := writeEntry_run hsb hat hdp hf (slot_le _)
      (length_dirent inum name)
    · obtain ⟨hb, hw⟩ := hdone
      apply Triple.bind_ok hrun
      rw [hb, if_pos rfl]
      apply Triple.pure
      intro _ hs
      rw [hs]
      refine .added hlook ?_ (hat.change hheld)
      rw [insertEntry_eq, ← decode_dirent hinum]
      exact hw
    obtain ⟨hb, hw, hslot, hwhy⟩ := hfull
    apply Triple.bind_ok hrun
    rw [hb, if_neg (by simp)]
    apply Triple.pure
    intro _ hs
    rw [hs]
    exact .stuck hlook ⟨hslot, hwhy⟩ hw (hat.change hheld)

/-- An entry of the directory is always replaced. -/
theorem writeEntry_old (hsb : sb.size ≤ 2 ^ 32) (h : At sb v R L m) (hdp : dp ∈ L)
    (hf : Folder v dp nd) {k : Nat} (hk : k < (entries nd.content).length) {de : List UInt8}
    (hde : de.length = direntSize) :
    ∃ w, writeEntry sb dp (direntSize * k) de m = .ok (true, { m with vol := w }) ∧
      Held sb L w ∧ Rewritten dp nd ((entries nd.content).set k (decode de)) v w := by
  obtain ⟨b, w, hrun, hheld, hdone | hfull⟩ := writeEntry_run hsb h hdp hf (le_of_lt hk) hde
  · obtain ⟨hb, hw⟩ := hdone
    rw [if_pos hk] at hw
    rw [hb] at hrun
    exact ⟨w, hrun, hheld, hw⟩
  · omega

/-- **`clearEntry`** clears one entry. -/
theorem clearEntry_spec (hsb : sb.size ≤ 2 ^ 32) (hdp : dp ∈ L) (hf : Folder v dp nd) {k : Nat}
    (hk : k < (entries nd.content).length) :
    Triple (At sb v R L) (clearEntry sb dp (direntSize * k))
      (fun _ m => ∃ w, At sb w R L m ∧
        Rewritten dp nd ((entries nd.content).set k Dirent.empty) v w) E := by
  apply Triple.fix
  intro m h
  obtain ⟨w, hrun, hheld, hw⟩ := writeEntry_old hsb h hdp hf hk
    (List.length_replicate (n := direntSize) (a := (0 : UInt8)))
  rw [decode_zero] at hw
  apply Triple.bind_ok hrun
  rw [if_pos rfl]
  apply Triple.pure
  intro _ hs
  rw [hs]
  exact ⟨w, h.change hheld, hw⟩

end Writing

end Kus.Names
