import KusOs.VolumeBlocks

/-!
# The bytes of a file

Byte `k` of a file is byte `k % BSIZE` of its block `k / BSIZE`, read through the
cache.

* `Held` — the volume between two parts of a call, with some inodes locked;
* `writei_spec` — **what a write does to every file**: it copies a number of bytes into
  its own file and changes no other byte; if the source fails, what was copied of the
  failing block stays in the cache, unlogged;
* `readi_spec` — **a read returns the bytes of the file** and changes nothing;
* `itrunc_spec` — the file is empty and the others are as they were.
-/

namespace Kus.Volume

open Function Hoare LittleEndian Ownership
open Fs (FsPanic FsState Store Place dataPlace)
open Mkfs (BPB IPB zeroes slice)

/-- The address of block `bn` of inode `i`, or `0`. -/
def Vol.block (v : Vol) (i bn : Nat) : Nat :=
  match dataPlace bn with
  | some x => v.store.ptr (i, x)
  | none => 0

def Vol.byte (v : Vol) (i k : Nat) : UInt8 := v.view (v.block i (k / BSIZE)) (k % BSIZE)

def Vol.size (v : Vol) (i : Nat) : Nat := (v.ip i).size

/-- A consistent volume on which the inodes `L` are locked. -/
structure Held (sb : Superblock) (L : List Nat) (v : Vol) : Prop where
  consistent : Fs.Consistent sb v.store
  locked : ∀ i ∈ L, (v.inode i).isSome = true

section Places

theorem dataPlace_lt {bn : Nat} (h : bn < MAXFILE) : ∃ x, dataPlace bn = some x := by
  unfold dataPlace
  by_cases hd : bn < NDIRECT
  · exact ⟨_, dif_pos hd⟩
  have hi : bn - NDIRECT < NINDIRECT := by
    unfold MAXFILE at h
    omega
  rw [dif_neg hd]
  exact ⟨_, dif_pos hi⟩

theorem lt_of_dataPlace {bn : Nat} {x : Place} (h : dataPlace bn = some x) : bn < MAXFILE := by
  unfold dataPlace at h
  unfold MAXFILE
  by_cases hd : bn < NDIRECT
  · omega
  by_cases hi : bn - NDIRECT < NINDIRECT
  · omega
  · rw [dif_neg hd, dif_neg hi] at h
    cases h

theorem dataPlace_inj {m n : Nat} {x : Place} (hm : dataPlace m = some x)
    (hn : dataPlace n = some x) : m = n := by
  unfold dataPlace at hm hn
  split at hm <;> split at hn
  · cases hm
    simpa using hn.symm
  · split at hn
    · cases hm
      simp at hn
    · cases hn
  · split at hm
    · cases hm
      simp at hn
    · cases hm
  · split at hm
    · split at hn
      · cases hm
        simp at hn
        omega
      · cases hn
    · cases hm

end Places

section Held

variable {sb : Superblock} {L : List Nat} {v w : Vol} {t : FsState} {i : Nat}

theorem Held.inv (h : Held sb L v) : ∃ t, Shows v t ∧ Fs.Inv sb L t :=
  ⟨⟨v.store, []⟩, .of_store v [], ⟨⟨h.consistent.owned, by simp⟩, h.consistent.inodes⟩, h.locked⟩

theorem Held.of_inv (hv : Shows v t) (h : Fs.Inv sb L t) : Held sb L v := by
  have hstore := hv.store
  constructor
  · constructor
    · rw [← hstore]
      exact h.owned
    · rw [← hstore]
      exact h.inodes
  · rw [← hv.inode]
    exact h.locked

theorem Shows.block (hv : Shows v t) {bn : Nat} {x : Place} (hx : dataPlace bn = some x) :
    v.block i bn = t.ptr (i, x) := by
  unfold Vol.block
  rw [hx, ← hv.store]

/-- A block of a file is the block in a place. -/
theorem Vol.block_ne_zero {bn : Nat} (h : v.block i bn ≠ 0) :
    ∃ x, dataPlace bn = some x ∧ v.block i bn = v.store.ptr (i, x) := by
  unfold Vol.block at h ⊢
  cases hx : dataPlace bn with
  | none =>
    rw [hx] at h
    exact absurd rfl h
  | some x => exact ⟨x, rfl, rfl⟩

variable {lo hi : Nat} (h : Owned v.bitmap v.store.ptr lo hi)

include h

theorem block_inj {j m n : Nat} (hne : v.block i m ≠ 0) (heq : v.block i m = v.block j n) :
    i = j ∧ m = n := by
  obtain ⟨x, hx, hbx⟩ := Vol.block_ne_zero hne
  obtain ⟨y, hy, hby⟩ := Vol.block_ne_zero (heq ▸ hne)
  have hplace := h.inj (i, x) (j, y) (hbx ▸ hne) (by rw [← hbx, heq, hby])
  simp only [Prod.mk.injEq] at hplace
  obtain ⟨hij, hxy⟩ := hplace
  exact ⟨hij, dataPlace_inj hx (hxy ▸ hy)⟩

theorem block_marked {m : Nat} (hne : v.block i m ≠ 0) : v.bitmap (v.block i m) = true := by
  obtain ⟨x, _, hbx⟩ := Vol.block_ne_zero hne
  rw [hbx] at hne ⊢
  exact h.bit_ptr hne

theorem block_ne_indirect {j m : Nat} (htype : (v.ip j).type ≠ 0) (hne : v.block i m ≠ 0) :
    v.block i m ≠ (v.ip j).addrs (Fin.last NDIRECT) := by
  intro heq
  obtain ⟨x, hx, hbx⟩ := Vol.block_ne_zero hne
  have hlast : v.store.ptr (j, .inl (Fin.last NDIRECT)) = (v.ip j).addrs (Fin.last NDIRECT) := by
    have hip : v.store.ip j = v.ip j := rfl
    simp [Store.ptr, Fs.ptrOf, hip, htype]
  have hplace := h.inj (i, x) (j, .inl (Fin.last NDIRECT)) (hbx ▸ hne) (by rw [← hbx, heq, hlast])
  simp only [Prod.mk.injEq] at hplace
  exact Fs.dataPlace_ne_last hx hplace.2

end Held

section Mapping

variable {sb : Superblock} {L : List Nat} {v w : Vol} {i bound size : Nat}

/-- The volume while a call maps blocks of inode `i`. -/
def Maps (sb : Superblock) (L : List Nat) (i bound size : Nat) (v : Vol) : Prop :=
  ∃ t, Shows v t ∧ Fs.Mapping sb L i bound size t

theorem Maps.owned (h : Maps sb L i bound size v) :
    Owned v.bitmap v.store.ptr sb.dataStart sb.size := by
  obtain ⟨t, hv, ht⟩ := h
  have howned := ht.owned
  rw [hv.store] at howned
  exact howned

theorem Maps.type (h : Maps sb L i bound size v) : (v.ip i).type ≠ 0 := by
  obtain ⟨t, hv, ht⟩ := h
  rw [← hv.ip]
  exact ht.self.2

theorem Maps.filled (h : Maps sb L i bound size v) {k : Nat} (hk : k < bound) :
    v.block i (k / BSIZE) ≠ 0 := by
  obtain ⟨t, hv, ht⟩ := h
  have hstart : k / BSIZE * BSIZE < bound := by
    have hle := Nat.div_mul_le_self k BSIZE
    omega
  obtain ⟨x, hx, hne⟩ := ht.filled (k / BSIZE) hstart
  rw [hv.block hx]
  exact hne

/-- The blocks of a file stay if the places do that are in use. -/
theorem block_of_ptr (h : ∀ p, v.store.ptr p ≠ 0 → w.store.ptr p = v.store.ptr p) {j m : Nat}
    (hne : v.block j m ≠ 0) : w.block j m = v.block j m := by
  obtain ⟨x, hx, hblock⟩ := Vol.block_ne_zero hne
  rw [hblock] at hne
  unfold Vol.block
  rw [hx]
  exact h (j, x) hne

/-- From `v` to `w`, `bmap` has given blocks to inode `i`. -/
structure Extends (i : Nat) (v w : Vol) : Prop where
  ptr : ∀ p, v.store.ptr p ≠ 0 → w.store.ptr p = v.store.ptr p
  view : ∀ j m, v.block j m ≠ 0 → w.view (v.block j m) = v.view (v.block j m)
  inode : ∀ j, j ≠ i → w.inode j = v.inode j
  dinode : w.dinode = v.dinode
  disk : w.disk = v.disk
  log : ∀ x ∈ v.log, x ∈ w.log
  taken : ∀ b, v.bitmap b = false → w.bitmap b = true → .data b ∈ w.log
  logged : ∀ b, .data b ∈ w.log ∨ w.view b = v.view b

/-- **`bmap`** returns the block, or `0` if every block is in use. -/
theorem bmap_spec (hsb : sb.size ≤ 2 ^ 32) (h : Maps sb L i bound size v) {bn : Nat}
    (hbn : bn < MAXFILE) :
    ∃ r w, bmap sb i bn v = .ok (r, w) ∧ Maps sb L i bound size w ∧ Extends i v w ∧
      (r ≠ 0 → w.block i bn = r) ∧ (r = 0 → Fs.Full sb w.store) := by
  obtain ⟨x, hx⟩ := dataPlace_lt hbn
  have howned := h.owned
  have htype := h.type
  obtain ⟨t, hv, ht⟩ := h
  have hmaps := (bmap_lockstep hsb i bn).triple (Fs.bmap_mapsTo (E := fun _ => False) ht hx)
  have hboth := Triple.and hmaps (bmap_keeps i bn v)
  obtain ⟨r, w, hrun, ⟨u, hw, hu, hgrown, hplace, hfull⟩, hkeeps⟩ :=
    Triple.returns hboth ⟨⟨t, hv, rfl⟩, rfl⟩
  refine ⟨r, w, hrun, ⟨u, hw, hu⟩, ?_, ?_, ?_⟩
  · constructor
    · rw [← hw.store, ← hv.store]
      exact hgrown.ptr
    · intro j m hne
      exact hkeeps.view _ (block_marked howned hne) (block_ne_indirect howned htype hne)
    · intro j hj
      rw [← hw.inode, ← hv.inode]
      exact hgrown.inode j hj
    · rw [← hw.dinode, ← hv.dinode]
      exact hgrown.dinode
    · exact hkeeps.disk
    · exact hkeeps.log
    · exact hkeeps.taken
    · exact hkeeps.logged
  · intro hne
    rw [hw.block hx]
    exact hplace hne
  · intro hzero
    rw [← hw.store]
    exact hfull hzero

end Mapping

section Found

variable {sb : Superblock} {v : Vol} {i : Nat}

theorem mapAddr_found {k : Fin (NDIRECT + 1)} (h : (v.ip i).addrs k ≠ 0) :
    mapAddr sb i k v = .ok ((v.ip i).addrs k, v) := by
  change (if (v.ip i).addrs k = 0 then _ else _ : VolM Nat) v = _
  rw [if_neg h]
  rfl

theorem mapEntry_found {a : Nat} {j : Fin NINDIRECT} (h : v.word a j ≠ 0) :
    mapEntry sb a j v = .ok (v.word a j, v) := by
  change (if v.word a j = 0 then _ else _ : VolM Nat) v = _
  rw [if_neg h]
  rfl

/-- `bmap` of a block that is there changes nothing. -/
theorem bmap_found {bn : Nat} (hne : v.block i bn ≠ 0) :
    bmap sb i bn v = .ok (v.block i bn, v) := by
  obtain ⟨x, hx, hblock⟩ := Vol.block_ne_zero hne
  rw [hblock] at hne ⊢
  have hip : v.store.ip i = v.ip i := rfl
  have htype : (v.ip i).type ≠ 0 := by
    intro hzero
    apply hne
    cases x <;> simp [Store.ptr, Fs.ptrOf, hip, hzero]
  unfold dataPlace at hx
  unfold bmap
  by_cases hd : bn < NDIRECT
  · rw [dif_pos hd] at hx ⊢
    cases hx
    have haddr : v.store.ptr (i, .inl ⟨bn, Nat.lt_succ_of_lt hd⟩) =
        (v.ip i).addrs ⟨bn, Nat.lt_succ_of_lt hd⟩ := by
      simp [Store.ptr, Fs.ptrOf, hip, htype]
    rw [haddr] at hne ⊢
    exact mapAddr_found hne
  rw [dif_neg hd] at hx ⊢
  by_cases hi : bn - NDIRECT < NINDIRECT
  · rw [dif_pos hi] at hx ⊢
    cases hx
    have hlast : (v.ip i).addrs (Fin.last NDIRECT) ≠ 0 := by
      intro hzero
      apply hne
      simp [Store.ptr, Fs.ptrOf, hip, hzero]
    have hword : v.store.ptr (i, .inr ⟨bn - NDIRECT, hi⟩) =
        v.word ((v.ip i).addrs (Fin.last NDIRECT)) (bn - NDIRECT) := by
      change Fs.ptrOf v.store.words (v.ip i) _ = _
      simp only [Fs.ptrOf, htype, hlast, or_self, if_false]
      rfl
    rw [hword] at hne ⊢
    rw [run_bind_ok (mapAddr_found hlast), if_neg hlast]
    exact mapEntry_found (j := ⟨bn - NDIRECT, hi⟩) hne
  · rw [dif_neg hi] at hx
    cases hx

end Found

section Writing

variable {sb : Superblock} {L : List Nat} {v w u : Vol} {i bound size off r c n tot : Nat}
  {src : Source}

/-- The blocks of files depend on the places only. -/
theorem block_congr (h : w.store.ptr = v.store.ptr) : w.block = v.block := by
  funext j m
  unfold Vol.block
  rw [h]

/-- Bytes of the block in a data place change. -/
theorem Maps.edit (h : Maps sb L i bound size v) {bn b : Nat} (hb : v.block i bn = b)
    (hne : b ≠ 0) (f : Buffer → Buffer) :
    Maps sb L i bound size (v.edit b f) ∧ (v.edit b f).store.ptr = v.store.ptr := by
  obtain ⟨t, hv, ht⟩ := h
  obtain ⟨x, hx, _⟩ := Vol.block_ne_zero (hb ▸ hne)
  have hptr : t.ptr (i, x) = b := by rw [← hv.block hx, hb]
  let words : Fs.Words := fun j => getLE (f (v.view b)) (4 * j) 4
  have hshow : Shows (v.edit b f) { t with words := update t.words b words } := by
    refine ⟨hv.bitmap, ?_, hv.dinode, hv.inode⟩
    intro c j
    rw [word_edit]
    change update t.words b words c j = _
    by_cases e : c = b
    · rw [if_pos e, e, update_self]
    · rw [if_neg e, update_of_ne e]
      exact hv.word c j
  refine ⟨⟨_, hshow, ht.rewrite hx hptr hne words⟩, ?_⟩
  rw [← hshow.store, ← hv.store]
  exact ht.toBlocks.ptr_rewrite hx hptr hne words

@[simp] theorem block_logWrite (v : Vol) (x : LogBlock) : (v.logWrite x).block = v.block := rfl

theorem Maps.logWrite (h : Maps sb L i bound size v) (x : LogBlock) :
    Maps sb L i bound size (v.logWrite x) := by
  obtain ⟨t, hv, ht⟩ := h
  exact ⟨t, ⟨hv.bitmap, hv.word, hv.dinode, hv.inode⟩, ht⟩

/-- One more block of the file is there. -/
theorem Maps.extend (h : Maps sb L i bound size v) {bn bound' : Nat} (hne : v.block i bn ≠ 0)
    (hbound : ∀ m, m * BSIZE < bound' → m * BSIZE < bound ∨ m = bn) :
    Maps sb L i bound' size v := by
  obtain ⟨t, hv, ht⟩ := h
  obtain ⟨x, hx, _⟩ := Vol.block_ne_zero hne
  rw [hv.block hx] at hne
  exact ⟨t, hv, ht.extend hx hne hbound⟩

@[simp] theorem Source.length_bytes (src : Source) (k n : Nat) : (src.bytes k n).length = n := by
  simp [Source.bytes]

theorem Source.getD_bytes (src : Source) {k n j : Nat} (hj : j < n) :
    (src.bytes k n).getD j 0 = src.byte (k + j) := by
  simp [Source.bytes, List.getD_eq_getElem?_getD, hj]

/-- What a write at `off` has done from `v` to `w`: it has copied `c` bytes, of which
the first `r` are in blocks of the log. -/
structure Wrote (i off r c : Nat) (src : Source) (v w : Vol) : Prop where
  ptr : ∀ p, v.store.ptr p ≠ 0 → w.store.ptr p = v.store.ptr p
  byte : ∀ j k, v.block j (k / BSIZE) ≠ 0 → ¬ (j = i ∧ off ≤ k ∧ k < off + c) →
    w.byte j k = v.byte j k
  written : ∀ k, off ≤ k → k < off + c → w.byte i k = src.byte (k - off)
  inode : ∀ j, j ≠ i → w.inode j = v.inode j
  dinode : ∀ j, j ≠ i → w.dinode j = v.dinode j
  disk : w.disk = v.disk
  log : ∀ x ∈ v.log, x ∈ w.log
  taken : ∀ b, v.bitmap b = false → w.bitmap b = true → .data b ∈ w.log
  done : ∀ k, off ≤ k → k < off + r → .data (w.block i (k / BSIZE)) ∈ w.log
  logged : ∀ b, .data b ∈ w.log ∨ w.view b = v.view b ∨
    (r < c ∧ b = w.block i ((off + r) / BSIZE))

/-- A part of a block, from offset `k` of the file on, stays in its block. -/
theorem div_in_block {k l m : Nat} (hm : k % BSIZE + m ≤ BSIZE) (hlo : k ≤ l) (hhi : l < k + m) :
    l / BSIZE = k / BSIZE := by
  simp only [BSIZE] at hm ⊢
  omega

namespace Wrote

theorem block (h : Wrote i off r c src v w) {j m : Nat} (hne : v.block j m ≠ 0) :
    w.block j m = v.block j m :=
  block_of_ptr h.ptr hne

theorem refl (i off : Nat) (src : Source) (v : Vol) : Wrote i off 0 0 src v v where
  ptr := fun _ _ => rfl
  byte := fun _ _ _ _ => rfl
  written := by
    intro k hk hk'
    omega
  inode := fun _ _ => rfl
  dinode := fun _ _ => rfl
  disk := rfl
  log := fun _ h => h
  taken := fun _ h h' => absurd (h.symm.trans h') (by simp)
  done := by
    intro k hk hk'
    omega
  logged := fun _ => .inr (.inl rfl)

/-- `bmap` in the course of a write, for a file whose blocks up to here are there. -/
theorem bmap (h : Wrote i off r r src v w) (hext : Extends i w u)
    (hfilled : ∀ k, off ≤ k → k < off + r → w.block i (k / BSIZE) ≠ 0) :
    Wrote i off r r src v u := by
  have hbyte : ∀ j k, w.block j (k / BSIZE) ≠ 0 → u.byte j k = w.byte j k := by
    intro j k hne
    unfold Vol.byte
    rw [block_of_ptr hext.ptr hne, hext.view j _ hne]
  constructor
  · intro p hne
    have hsame := h.ptr p hne
    rw [hext.ptr p (by rwa [hsame]), hsame]
  · intro j k hne hout
    rw [hbyte j k (by rwa [h.block hne]), h.byte j k hne hout]
  · intro k hk hk'
    rw [hbyte i k (hfilled k hk hk'), h.written k hk hk']
  · intro j hj
    rw [hext.inode j hj, h.inode j hj]
  · intro j hj
    rw [hext.dinode, h.dinode j hj]
  · rw [hext.disk, h.disk]
  · intro x hx
    exact hext.log x (h.log x hx)
  · intro b hb hb'
    cases hw : w.bitmap b with
    | true => exact hext.log _ (h.taken b hb hw)
    | false => exact hext.taken b hw hb'
  · intro k hk hk'
    rw [block_of_ptr hext.ptr (hfilled k hk hk')]
    exact hext.log _ (h.done k hk hk')
  · intro b
    rcases hext.logged b with hlog | hsame
    · exact .inl hlog
    rcases h.logged b with hlog | hsame' | hfail
    · exact .inl (hext.log _ hlog)
    · exact .inr (.inl (hsame.trans hsame'))
    · omega

/-- Bytes of the source are copied into the block that follows. -/
theorem copy (h : Wrote i off r r src v w) (hmaps : Maps sb L i bound size w)
    (hfilled : ∀ k, off ≤ k → k < off + r → w.block i (k / BSIZE) ≠ 0) {b m : Nat}
    (hb : w.block i ((off + r) / BSIZE) = b) (hne : b ≠ 0) (hm : (off + r) % BSIZE + m ≤ BSIZE) :
    Wrote i off r (r + m) src v
      (w.edit b fun buf => blit buf ((off + r) % BSIZE) (src.bytes r m)) := by
  obtain ⟨_, hptr⟩ := hmaps.edit hb hne fun buf =>
    blit buf ((off + r) % BSIZE) (src.bytes r m)
  have hblock := block_congr hptr
  have hsplit := Nat.div_add_mod (off + r) BSIZE
  have hinside : ∀ k, off + r ≤ k → k < off + (r + m) → k / BSIZE = (off + r) / BSIZE :=
    fun k hlo hhi => div_in_block hm hlo (by omega)
  have hbyte : ∀ j k, w.block j (k / BSIZE) ≠ 0 →
      (w.edit b fun buf => blit buf ((off + r) % BSIZE) (src.bytes r m)).byte j k =
      if j = i ∧ off + r ≤ k ∧ k < off + (r + m) then src.byte (k - off) else w.byte j k := by
    intro j k hk
    have hk' := Nat.div_add_mod k BSIZE
    unfold Vol.byte
    rw [hblock, view_edit]
    by_cases hsame : w.block j (k / BSIZE) = b
    · obtain ⟨hj, hkb⟩ := block_inj hmaps.owned hk (hsame.trans hb.symm)
      rw [if_pos hsame, hsame]
      rw [hkb] at hk'
      by_cases hin : off + r ≤ k ∧ k < off + (r + m)
      · rw [if_pos ⟨hj, hin⟩, blit_of_mem (by omega) (by simp; omega), Source.getD_bytes]
        · congr 1
          omega
        · omega
      rw [if_neg fun h => hin h.2]
      by_cases hlo : off + r ≤ k
      · exact blit_of_le (by simp; omega)
      · exact blit_of_lt (by omega)
    · rw [if_neg hsame, if_neg]
      intro hin
      obtain ⟨hj, hlo, hhi⟩ := hin
      apply hsame
      rw [hj, hinside k hlo hhi, hb]
  constructor
  · rw [hptr]
    exact h.ptr
  · intro j k hk hout
    rw [hbyte j k (by rwa [h.block hk]), if_neg (by omega), h.byte j k hk (by omega)]
  · intro k hk hk'
    by_cases hold : k < off + r
    · rw [hbyte i k (hfilled k hk hold), if_neg (by omega), h.written k hk hold]
    · have hin := hinside k (by omega) hk'
      rw [hbyte i k (by rwa [hin, hb]), if_pos ⟨rfl, by omega, hk'⟩]
  · exact h.inode
  · exact h.dinode
  · exact h.disk
  · exact h.log
  · exact h.taken
  · rw [hblock]
    exact h.done
  · intro c
    rw [view_edit, hblock, hb]
    have hold : .data c ∈ w.log ∨ w.view c = v.view c := by
      rcases h.logged c with hlog | hsame | hfail
      · exact .inl hlog
      · exact .inr hsame
      · omega
    by_cases e : c = b
    · by_cases hm0 : m = 0
      · -- nothing is copied
        have hnone : blit (w.view b) ((off + r) % BSIZE) (src.bytes r m) = w.view b := by
          funext k
          rw [hm0]
          unfold blit
          rw [if_neg (by simp)]
        rw [if_pos e, hnone, ← e]
        rcases hold with hlog | hsame
        · exact .inl hlog
        · exact .inr (.inl hsame)
      · exact .inr (.inr ⟨by omega, e⟩)
    · rw [if_neg e]
      rcases hold with hlog | hsame
      · exact .inl hlog
      · exact .inr (.inl hsame)

/-- `log_write` of the block of the last copy. -/
theorem log_last (h : Wrote i off r (r + n) src v w) {b : Nat}
    (hb : w.block i ((off + r) / BSIZE) = b) (hn : (off + r) % BSIZE + n ≤ BSIZE) :
    Wrote i off (r + n) (r + n) src v (w.logWrite (.data b)) := by
  refine ⟨h.ptr, h.byte, h.written, h.inode, h.dinode, h.disk, ?_, ?_, ?_, ?_⟩
  · intro x hx
    exact mem_logWrite.2 (.inl (h.log x hx))
  · intro c hc hc'
    exact mem_logWrite.2 (.inl (h.taken c hc hc'))
  · intro k hk hk'
    rw [block_logWrite]
    by_cases hold : k < off + r
    · exact mem_logWrite.2 (.inl (h.done k hk hold))
    · rw [div_in_block hn (by omega) (by omega), hb]
      exact mem_logWrite.2 (.inr rfl)
  · intro c
    rcases h.logged c with hlog | hsame | hlast
    · exact .inl (mem_logWrite.2 (.inl hlog))
    · exact .inr (.inl hsame)
    · exact .inl (mem_logWrite.2 (.inr (by rw [hlast.2, hb])))

end Wrote

/-- How a write of `n` bytes at `off` to a file of `size` bytes ends: with all of them;
because every block is in use, at a block that starts after the end of the file; or
because the source fails in the block that starts at byte `r` of the write. -/
inductive Ended (sb : Superblock) (off n size : Nat) (src : Source) (w : Vol) : Nat → Nat → Prop
  | all (hlimit : n ≤ src.limit) : Ended sb off n size src w n n
  | full {r : Nat} (hr : r < n) (hlimit : r ≤ src.limit)
      (hsize : size ≤ (off + r) / BSIZE * BSIZE) (hfull : Fs.Full sb w.store) :
      Ended sb off n size src w r r
  | fault {r : Nat} (hlimit : src.limit < n) (hr : r ≤ src.limit)
      (hblock : src.limit < r + (BSIZE - (off + r) % BSIZE))
      (hstart : r = 0 ∨ (off + r) % BSIZE = 0) :
      Ended sb off n size src w r src.limit

theorem writeLoop_spec (hsb : sb.size ≤ 2 ^ 32) (hn : off + n ≤ MAXFILE * BSIZE) (rounds : Nat)
    (hrounds : n - tot ≤ rounds) (htot : tot ≤ n) (hlimit : tot ≤ src.limit)
    (hstart : tot = 0 ∨ (off + tot) % BSIZE = 0 ∨ tot = n) (h : Wrote i off tot tot src v w)
    (hmaps : Maps sb L i (max size (off + tot)) size w) :
    ∃ r c u, writeLoop sb i n src rounds (off + tot) tot w = .ok ((off + r, r), u) ∧
      Maps sb L i (max size (off + r)) size u ∧ Wrote i off r c src v u ∧
      Ended sb off n size src u r c := by
  induction rounds generalizing tot w with
  | zero =>
    have hdone : tot = n := by omega
    refine ⟨tot, tot, w, rfl, hmaps, h, ?_⟩
    rw [hdone] at hlimit ⊢
    exact .all hlimit
  | succ rounds ih =>
    unfold writeLoop
    by_cases hlt : tot < n
    · have hbn : (off + tot) / BSIZE < MAXFILE := by
        apply Nat.div_lt_of_lt_mul
        rw [Nat.mul_comm]
        omega
      obtain ⟨addr, w₁, hrun, hmaps₁, hext, haddr, hfull⟩ := bmap_spec hsb hmaps hbn
      have hwrote₁ := h.bmap hext fun k _ hk => hmaps.filled (by omega)
      rw [if_pos hlt, run_bind_ok hrun]
      by_cases hzero : addr = 0
      · -- there was no block, so the file ends before it
        have hhole : max size (off + tot) ≤ (off + tot) / BSIZE * BSIZE := by
          by_contra hin
          have hthere := hmaps.filled (Nat.lt_of_not_le hin)
          rw [Nat.mul_div_cancel _ (by decide)] at hthere
          rw [bmap_found hthere] at hrun
          cases hrun
          exact hthere hzero
        rw [if_pos hzero]
        exact ⟨tot, tot, w₁, rfl, hmaps₁, hwrote₁, .full hlt hlimit (by omega) (hfull hzero)⟩
      rw [if_neg hzero]
      have hB : (off + tot) % BSIZE < BSIZE := Nat.mod_lt _ (by decide)
      generalize hm : min (n - tot) (BSIZE - (off + tot) % BSIZE) = m
      have hcopied := hwrote₁.copy hmaps₁ (fun k _ hk => hmaps₁.filled (by omega))
        (m := min m (src.limit - tot)) (haddr hzero) hzero (by omega)
      obtain ⟨hmaps₂, hptr⟩ := hmaps₁.edit (haddr hzero) hzero fun buf =>
        blit buf ((off + tot) % BSIZE) (src.bytes tot (min m (src.limit - tot)))
      have hcopy : eitherCopyin addr ((off + tot) % BSIZE) src tot m w₁ =
          .ok (decide (tot + m ≤ src.limit), w₁.edit addr fun buf =>
            blit buf ((off + tot) % BSIZE) (src.bytes tot (min m (src.limit - tot)))) := rfl
      rw [run_bind_ok hcopy]
      by_cases hok : tot + m ≤ src.limit
      · have hall : min m (src.limit - tot) = m := by omega
        rw [hall] at hcopied hmaps₂ hptr ⊢
        have hlast : Vol.block _ i ((off + tot) / BSIZE) = addr :=
          (congrFun (congrFun (block_congr hptr) i) _).trans (haddr hzero)
        have hlogged := hcopied.log_last hlast (by omega)
        have hbound : ∀ l, l * BSIZE < max size (off + (tot + m)) →
            l * BSIZE < max size (off + tot) ∨ l = (off + tot) / BSIZE := by
          intro l hl
          simp only [BSIZE] at hl hm hB ⊢
          omega
        have hmore := (hmaps₂.extend (by rwa [hlast]) hbound).logWrite (.data addr)
        have hnext : tot + m = 0 ∨ (off + (tot + m)) % BSIZE = 0 ∨ tot + m = n := by
          simp only [BSIZE] at hm hB ⊢
          omega
        obtain ⟨r, c, u, hrest, hend⟩ := ih (by omega) (by omega) hok hnext hlogged hmore
        refine ⟨r, c, u, ?_, hend⟩
        rw [decide_eq_true hok, if_pos rfl, ← hrest]
        rw [Nat.add_assoc]
        rfl
      · refine ⟨tot, src.limit, _, ?_, hmaps₂, ?_, ?_⟩
        · rw [decide_eq_false hok]
          rfl
        · have hall : tot + min m (src.limit - tot) = src.limit := by omega
          rw [hall] at hcopied
          exact hcopied
        · refine .fault (by omega) hlimit (by omega) ?_
          rcases hstart with hfirst | hnew | hdone
          · exact .inl hfirst
          · exact .inr hnew
          · omega
    · have hdone : tot = n := by omega
      rw [if_neg hlt]
      refine ⟨tot, tot, w, rfl, hmaps, h, ?_⟩
      rw [hdone] at hlimit ⊢
      exact .all hlimit

/-- Changes of inode `i` that move no block. -/
theorem Wrote.quiet (h : Wrote i off r c src v w) (hq : Quiet i w u)
    (hptr : u.store.ptr = w.store.ptr) (hbitmap : u.bitmap = w.bitmap) :
    Wrote i off r c src v u := by
  have hblock := block_congr hptr
  have hview : u.view = w.view := by
    funext b
    unfold Vol.view
    rw [hq.cache, hq.disk]
  have hbyte : u.byte = w.byte := by
    funext j k
    unfold Vol.byte
    rw [hblock, hview]
  constructor
  · rw [hptr]
    exact h.ptr
  · rw [hbyte]
    exact h.byte
  · rw [hbyte]
    exact h.written
  · intro j hj
    rw [hq.inode j hj, h.inode j hj]
  · intro j hj
    rw [hq.dinode j hj, h.dinode j hj]
  · rw [hq.disk, h.disk]
  · intro x hx
    exact hq.log x (h.log x hx)
  · intro b hb hb'
    rw [hbitmap] at hb'
    exact hq.log _ (h.taken b hb hb')
  · intro k hk hk'
    rw [hblock]
    exact hq.log _ (h.done k hk hk')
  · intro b
    rw [hview, hblock]
    rcases h.logged b with hlog | hrest
    · exact .inl (hq.log _ hlog)
    · exact .inr hrest

/-- The file before the loop of a write. -/
theorem Held.maps (h : Held sb L v) (hi : i ∈ L) : Maps sb L i (v.size i) (v.size i) v := by
  obtain ⟨t, hv, ht⟩ := h.inv
  obtain ⟨hmid, hfull⟩ := ht.mid hi
  rw [hv.ip] at hfull
  refine ⟨t, hv, hmid, hfull, ?_⟩
  rw [hv.ip]
  rfl

/-- `iupdate` of a valid inode changes no inode as its user sees it. -/
theorem ip_iupdate (h : (v.inode i).isSome = true) :
    ({ v with dinode := update v.dinode i (v.ip i) } : Vol).ip = v.ip := by
  funext j
  by_cases e : j = i
  · obtain ⟨d, hd⟩ := Option.isSome_iff_exists.1 h
    rw [e]
    simp [Vol.ip, hd]
  · simp [Vol.ip, e]

/-- The end of `writei`, after its loop. -/
theorem finish_spec {α : Type} (a : α) (hmaps : Maps sb L i (max size off) size v) :
    ∃ w, (do
        modify fun v => if (v.ip i).size < off then v.setIp i { v.ip i with size := off } else v
        iupdate i
        pure a : VolM α) v = .ok (a, w) ∧
      Held sb L w ∧ Quiet i v w ∧ w.store.ptr = v.store.ptr ∧ w.bitmap = v.bitmap ∧
      w.size i = max size off := by
  obtain ⟨t, hv, ht⟩ := hmaps
  generalize hv₁ : (if (v.ip i).size < off then v.setIp i { v.ip i with size := off } else v) = v₁
  generalize ht₁ : (if (t.ip i).size < off then t.setIp i { t.ip i with size := off } else t) = t₁
  have hquiet : Quiet i v v₁ ∧ v₁.bitmap = v.bitmap := by
    rw [← hv₁]
    by_cases hlt : (v.ip i).size < off
    · rw [if_pos hlt]
      exact ⟨(Quiet.refl i v).setIp _, rfl⟩
    · rw [if_neg hlt]
      exact ⟨Quiet.refl i v, rfl⟩
  have hshow : Shows v₁ t₁ := by
    rw [← hv₁, ← ht₁, hv.ip]
    by_cases hlt : (v.ip i).size < off
    · rw [if_pos hlt, if_pos hlt]
      exact hv.setIp i _
    · rw [if_neg hlt, if_neg hlt]
      exact hv
  obtain ⟨hmid, hfilled, hsize, hptr⟩ := ht.resize ht₁.symm
  have hvalid : (v₁.inode i).isSome = true := by
    rw [← hshow.inode]
    exact hmid.self.1
  have hip := ip_iupdate hvalid
  let w : Vol := { v₁ with dinode := update v₁.dinode i (v₁.ip i) }
  have hw : Shows w { t₁ with dinode := update t₁.dinode i (t₁.ip i) } := by
    refine ⟨hshow.bitmap, hshow.word, ?_, hshow.inode⟩
    change update t₁.dinode i (t₁.ip i) = update v₁.dinode i (v₁.ip i)
    rw [hshow.dinode, hshow.ip]
  refine ⟨w.logWrite (.inode (i / IPB)), ?_, ?_, ?_, ?_, hquiet.2, ?_⟩
  · simp only [w, ← hv₁]
    rfl
  · have hheld := Held.of_inv hw (hmid.iupdate hfilled)
    exact ⟨hheld.consistent, hheld.locked⟩
  · have hstep : Quiet i v w := by
      refine ⟨hquiet.1.cache, hquiet.1.disk, hquiet.1.log, hquiet.1.inode, ?_⟩
      intro j hj
      change update v₁.dinode i (v₁.ip i) j = v.dinode j
      rw [update_of_ne hj, hquiet.1.dinode j hj]
    exact hstep.logWrite _
  · have hptr₁ : v₁.store.ptr = v.store.ptr := by
      rw [← hshow.store, ← hv.store]
      exact hptr
    have hptr₂ : w.store.ptr = v₁.store.ptr := by
      funext p
      change Fs.ptrOf _ (w.ip p.1) p.2 = Fs.ptrOf _ (v₁.ip p.1) p.2
      rw [hip]
      rfl
    exact hptr₂.trans hptr₁
  · change (w.ip i).size = max size off
    rw [hip, ← hshow.ip]
    exact hsize

theorem Ended.congr (h : Ended sb off n size src v r c) (hbitmap : w.bitmap = v.bitmap) :
    Ended sb off n size src w r c := by
  cases h with
  | all hlimit => exact .all hlimit
  | full hr hlimit hsize hfull =>
    refine .full hr hlimit hsize ?_
    intro b hb
    have hset := hfull b hb
    change w.bitmap b = true
    rw [hbitmap]
    exact hset
  | fault hlimit hr hblock hstart => exact .fault hlimit hr hblock hstart

/-- **`writei`** of an accepted range. -/
theorem writei_spec (hsb : sb.size ≤ 2 ^ 32) (h : Held sb L v) (hi : i ∈ L)
    (hoff : off ≤ v.size i) (hn : off + n ≤ MAXFILE * BSIZE) (src : Source) :
    ∃ (r c : Nat) (w : Vol), writei sb i off n src v = .ok ((r : Int), w) ∧ Held sb L w ∧
      Wrote i off r c src v w ∧ w.size i = max (v.size i) (off + r) ∧
      Ended sb off n (v.size i) src w r c := by
  have hstart : Maps sb L i (max (v.size i) (off + 0)) (v.size i) v := by
    have hmaps := h.maps hi
    rwa [Nat.max_eq_left (by omega)]
  obtain ⟨r, c, u, hloop, hmaps, hwrote, hended⟩ := writeLoop_spec hsb hn n (by omega)
    (Nat.zero_le n) (Nat.zero_le _) (.inl rfl) (Wrote.refl i off src v) hstart
  obtain ⟨w, hrun, hheld, hquiet, hptr, hbitmap, hsize⟩ := finish_spec (r : Int) hmaps
  refine ⟨r, c, w, ?_, hheld, hwrote.quiet hquiet hptr hbitmap, hsize, hended.congr hbitmap⟩
  have hsum : (off + n) % 2 ^ 32 = off + n := by
    apply Nat.mod_eq_of_lt
    simp only [MAXFILE, NDIRECT, NINDIRECT, BSIZE] at hn
    omega
  unfold writei
  change (if v.size i < off ∨ (off + n) % 2 ^ 32 < off then _ else _ : VolM Int) v = _
  rw [Nat.add_zero] at hloop
  rw [hsum, if_neg (by omega), if_neg (by omega), run_bind_ok hloop]
  exact hrun

end Writing

section Reading

variable {sb : Superblock} {L : List Nat} {v : Vol} {i off n : Nat}

/-- The `n` bytes of file `i` from `off`. -/
def Vol.bytes (v : Vol) (i off n : Nat) : List UInt8 :=
  (List.range n).map fun k => v.byte i (off + k)

@[simp] theorem Vol.length_bytes (v : Vol) (i off n : Nat) : (v.bytes i off n).length = n := by
  simp [Vol.bytes]

theorem Vol.bytes_append (v : Vol) (i off m n : Nat) :
    v.bytes i off m ++ v.bytes i (off + m) n = v.bytes i off (m + n) := by
  unfold Vol.bytes
  rw [List.range_add, List.map_append, List.map_map]
  simp [Nat.add_assoc]

/-- A part of a block, as bytes of the file. -/
theorem slice_block {m : Nat} (hm : off % BSIZE + m ≤ BSIZE) :
    slice (v.view (v.block i (off / BSIZE))) (off % BSIZE) m = v.bytes i off m := by
  unfold slice Vol.bytes Vol.byte
  apply List.map_congr_left
  intro k hk
  rw [List.mem_range] at hk
  have hsplit := Nat.div_add_mod off BSIZE
  have hdiv : (off + k) / BSIZE = off / BSIZE := by
    simp only [BSIZE] at hm ⊢
    omega
  have hmod : (off + k) % BSIZE = off % BSIZE + k := by
    simp only [BSIZE] at hm ⊢
    omega
  rw [hdiv, hmod]

theorem readLoop_spec (sb : Superblock) (limit : Nat) {rounds got : Nat}
    (hfilled : ∀ k, k < off + n → v.block i (k / BSIZE) ≠ 0) (hgot : got ≤ n)
    (hlimit : got ≤ limit) (hrounds : n - got ≤ rounds) :
    readLoop sb i n limit rounds (off + got) (v.bytes i off got) v =
      .ok ((v.bytes i off (min n limit), decide (n ≤ limit)), v) := by
  induction rounds generalizing got with
  | zero =>
    have hdone : got = n := by omega
    have hall : min n limit = n := by omega
    rw [hdone, hall, decide_eq_true (by omega)]
    rfl
  | succ rounds ih =>
    unfold readLoop
    rw [Vol.length_bytes]
    by_cases hlt : got < n
    · have hne := hfilled (off + got) (by omega)
      have hB : (off + got) % BSIZE < BSIZE := Nat.mod_lt _ (by decide)
      rw [if_pos hlt, run_bind_ok (bmap_found hne), if_neg hne]
      generalize hm : min (n - got) (BSIZE - (off + got) % BSIZE) = m
      change (if got + m ≤ limit then _ else _ : VolM _) v = _
      rw [slice_block (by omega), Vol.bytes_append]
      by_cases hok : got + m ≤ limit
      · have hall : min m (limit - got) = m := by omega
        rw [if_pos hok, hall, Nat.add_assoc]
        exact ih (by omega) hok (by omega)
      have hpart : got + min m (limit - got) = min n limit := by omega
      rw [if_neg hok, hpart, decide_eq_false (by omega)]
      rfl
    · have hdone : got = n := by omega
      have hall : min n limit = n := by omega
      rw [if_neg hlt, hdone, hall, decide_eq_true (by omega)]
      rfl

/-- **`readi`** changes nothing; the bytes it stores are those of the file, clipped at
its size and at the end of the destination. -/
theorem readi_spec (h : Held sb L v) (hi : i ∈ L) (hoff : off ≤ v.size i)
    (hsum : off + n < 2 ^ 32) (limit : Nat) :
    readi sb i off n limit v =
      .ok (if min n (v.size i - off) ≤ limit then
          ((min n (v.size i - off) : Nat), v.bytes i off (min n (v.size i - off)))
        else (-1, v.bytes i off limit), v) := by
  have hfilled : ∀ k, k < off + min n (v.size i - off) → v.block i (k / BSIZE) ≠ 0 := by
    intro k hk
    exact (h.maps hi).filled (by omega)
  have hloop := readLoop_spec sb limit hfilled (Nat.zero_le _) (Nat.zero_le _) (Nat.le_refl _)
  unfold readi
  change (if v.size i < off ∨ (off + n) % 2 ^ 32 < off then _ else _ : VolM (Int × List UInt8)) v =
    _
  rw [Nat.mod_eq_of_lt hsum, if_neg (by omega)]
  have hclip : (if v.size i < off + n then v.size i - off else n) = min n (v.size i - off) := by
    by_cases hbig : v.size i < off + n
    · rw [if_pos hbig]
      omega
    · rw [if_neg hbig]
      omega
  change (readLoop sb i (if v.size i < off + n then v.size i - off else n) limit
    (if v.size i < off + n then v.size i - off else n) (off + 0) (v.bytes i off 0) >>= _) v = _
  rw [Nat.sub_zero] at hloop
  rw [hclip, run_bind_ok hloop]
  by_cases hok : min n (v.size i - off) ≤ limit
  · have hall : min (min n (v.size i - off)) limit = min n (v.size i - off) := by omega
    rw [decide_eq_true hok, if_pos hok, hall]
    have hlen := v.length_bytes i off (min n (v.size i - off))
    simp only [if_true, hlen]
    rfl
  have hall : min (min n (v.size i - off)) limit = limit := by omega
  rw [decide_eq_false hok, if_neg hok, hall]
  rfl

end Reading

section Calls

variable {sb : Superblock} {L : List Nat} {v w : Vol} {i off n : Nat}

/-- An inode that is in use. -/
def Vol.Allocated (v : Vol) (i : Nat) : Prop := (v.ip i).type ≠ 0

theorem Held.allocated (h : Held sb L v) (hi : i ∈ L) : v.Allocated i := (h.maps hi).type

/-- From `v` to `w` nothing has changed but which inodes are valid. -/
structure Same (v w : Vol) : Prop where
  ip : w.ip = v.ip
  block : w.block = v.block
  bitmap : w.bitmap = v.bitmap
  dinode : w.dinode = v.dinode
  cache : w.cache = v.cache
  disk : w.disk = v.disk
  log : w.log = v.log

theorem Same.refl (v : Vol) : Same v v := ⟨rfl, rfl, rfl, rfl, rfl, rfl, rfl⟩

theorem Same.view (h : Same v w) : w.view = v.view := by
  unfold Vol.view
  rw [h.cache, h.disk]

theorem Same.byte (h : Same v w) : w.byte = v.byte := by
  unfold Vol.byte
  rw [h.block, h.view]

/-- Places of an inode that has not changed, on a volume whose blocks have not. -/
theorem ptr_congr {j : Nat} (hip : w.ip j = v.ip j) (hview : w.view = v.view) (x : Place) :
    w.store.ptr (j, x) = v.store.ptr (j, x) := by
  have hword : w.store.words = v.store.words := by
    unfold Vol.store Vol.word
    rw [hview]
  change Fs.ptrOf w.store.words (w.ip j) x = Fs.ptrOf v.store.words (v.ip j) x
  rw [hword, hip]

/-- `ilock` of an inode that is in use: its entry is valid afterwards. -/
theorem ilock_same (hi : v.Allocated i) :
    ∃ w, ilock i v = .ok ((), w) ∧ Same v w ∧
      ((∃ d, v.inode i = some d ∧ w = v) ∨ v.inode i = none ∧ w = v.setIp i (v.dinode i)) := by
  cases hinode : v.inode i with
  | some d =>
    refine ⟨v, ?_, .refl v, .inl ⟨d, rfl, rfl⟩⟩
    rw [ilock, run_get, hinode]
    rfl
  | none =>
    have hip : v.ip i = v.dinode i := by simp [Vol.ip, hinode]
    have htype : (v.dinode i).type ≠ 0 := hip ▸ hi
    refine ⟨v.setIp i (v.dinode i), ?_, ?_, .inr ⟨rfl, rfl⟩⟩
    · rw [ilock, run_get, hinode]
      change (if (v.dinode i).type = 0 then _ else _ : VolM Unit) _ = _
      rw [if_neg htype]
      rfl
    · have hsame : (v.setIp i (v.dinode i)).ip = v.ip := by
        funext j
        by_cases e : j = i
        · simp [Vol.setIp, Vol.ip, e, hinode]
        · simp [Vol.setIp, Vol.ip, e]
      refine ⟨hsame, ?_, rfl, rfl, rfl, rfl, rfl⟩
      apply block_congr
      funext p
      exact ptr_congr (congrFun hsame p.1) rfl p.2

/-- `ilock` on a consistent volume. -/
theorem ilock_spec (h : Held sb L v) (hi : v.Allocated i) :
    ∃ w, ilock i v = .ok ((), w) ∧ Held sb (i :: L) w ∧ Same v w := by
  obtain ⟨w, hrun, hsame, ⟨d, hinode, hw⟩ | ⟨hinode, hw⟩⟩ := ilock_same hi
  · refine ⟨w, hrun, ⟨hw ▸ h.consistent, ?_⟩, hsame⟩
    intro j hj
    rw [hw]
    rcases List.mem_cons.1 hj with hj | hj
    · rw [hj, hinode]
      rfl
    · exact h.locked j hj
  have htype : (v.dinode i).type ≠ 0 := by
    have hip : v.ip i = v.dinode i := by simp [Vol.ip, hinode]
    exact hip ▸ hi
  obtain ⟨t, hv, ht⟩ := h.inv
  have hload := ht.load (i := i) (by rw [hv.inode]; exact hinode) (by rw [hv.dinode]; exact htype)
  have hshow := hv.setIp i (t.dinode i)
  rw [hv.dinode] at hload hshow
  exact ⟨w, hrun, hw ▸ Held.of_inv hshow hload, hsame⟩

theorem Quiet.view (h : Quiet i v w) : w.view = v.view := by
  unfold Vol.view
  rw [h.cache, h.disk]

theorem Quiet.ip (h : Quiet i v w) {j : Nat} (hj : j ≠ i) : w.ip j = v.ip j := by
  unfold Vol.ip
  rw [h.inode j hj, h.dinode j hj]

theorem Quiet.block (h : Quiet i v w) {j : Nat} (hj : j ≠ i) (m : Nat) :
    w.block j m = v.block j m := by
  unfold Vol.block
  cases dataPlace m with
  | none => rfl
  | some x => exact ptr_congr (h.ip hj) h.view x

/-- **`itrunc`** leaves an empty file. -/
theorem itrunc_spec (h : Held sb L v) (hi : i ∈ L) :
    ∃ w, itrunc i v = .ok ((), w) ∧ Held sb L w ∧ w.size i = 0 ∧ (∀ k, (w.ip i).addrs k = 0) ∧
      Quiet i v w := by
  obtain ⟨t, hv, ht⟩ := h.inv
  have htrunc := (itrunc_lockstep i).triple (@Fs.itrunc_spec sb L i (fun _ => False) hi)
  have hboth := Triple.and htrunc (itrunc_quiet (h.allocated hi))
  obtain ⟨_, w, hrun, ⟨u, hw, hu, hsize, haddrs⟩, hquiet⟩ := Triple.returns hboth ⟨⟨t, hv, ht⟩, rfl⟩
  rw [hw.ip] at hsize haddrs
  exact ⟨w, hrun, Held.of_inv hw hu, hsize, haddrs, hquiet⟩

/-- A write that is not accepted. -/
theorem writei_reject (hbad : ¬ (off ≤ v.size i ∧ off + n ≤ MAXFILE * BSIZE)) (hoff : off < 2 ^ 32)
    (hn : n < 2 ^ 32) (src : Source) : writei sb i off n src v = .ok (-1, v) := by
  change (if v.size i < off ∨ (off + n) % 2 ^ 32 < off then _ else _ : VolM Int) v = _
  by_cases hfirst : v.size i < off ∨ (off + n) % 2 ^ 32 < off
  · rw [if_pos hfirst]
    rfl
  have hbig : MAXFILE * BSIZE < (off + n) % 2 ^ 32 := by
    simp only [MAXFILE, NDIRECT, NINDIRECT, BSIZE] at hbad ⊢
    omega
  rw [if_neg hfirst, if_pos hbig]
  rfl

/-- A read that starts after the end of the file, or whose end is not a 32-bit number. -/
theorem readi_reject (hbad : ¬ (off ≤ v.size i ∧ off + n < 2 ^ 32)) (hoff : off < 2 ^ 32)
    (hn : n < 2 ^ 32) (limit : Nat) : readi sb i off n limit v = .ok ((0, []), v) := by
  change (if v.size i < off ∨ (off + n) % 2 ^ 32 < off then _ else _ : VolM (Int × List UInt8)) v =
    _
  rw [if_pos (by omega)]
  rfl

end Calls

end Kus.Volume
