import KusOs.CacheShape

/-!
# The invariant of the cache under the log

`spec` is an array of blocks: what was last logged for each block, or what the
disk held.  For uses of blocks of the log's device outside the log area:

* `CacheInv` — reference counts are the references and pins there are; a block
  that is logged and not installed is in a valid buffer; every valid buffer and
  every installed block agree with the array, and the log area agrees with what
  `commit` has copied to it;
* `CacheInv.of_refs` — steps that only move references and positions keep it;
  `of_to`, `of_pos` and `of_ops` are its three uses.
-/

namespace Kus.Bio

open Transition LinkedRing

variable {ι : Type}

/-- Is the buffer locked by this reference? -/
def RefPos.isLocked : RefPos → Bool
  | .locked _ => true
  | _ => false

@[simp] theorem RefPos.isLocked_locked (d : Bool) : (RefPos.locked d).isLocked = true := rfl

@[simp] theorem RefPos.isLocked_waiting : RefPos.waiting.isLocked = false := rfl

@[simp] theorem RefPos.isLocked_dropping : RefPos.dropping.isLocked = false := rfl

/-- How many log blocks `commit` has copied. -/
def CommitPos.copied (lh : List Nat) : CommitPos → Nat
  | .pair .writeLog tail (.first _ _) | .pair .writeLog tail (.second _)
  | .pair .writeLog tail .next => tail + 1
  | .pair .writeLog tail _ => tail
  | .pair .install _ _ | .head false _ => lh.length
  | _ => 0

namespace CacheState

/-- The blocks logged and not yet installed. -/
def pending (s : CacheState ι) : List Nat := s.pos.pending s.lh

/-- Does the log hold a reference to the buffer? -/
def Pinned (s : CacheState ι) (i : Idx) : Prop :=
  (s.buf i).dev = ROOTDEV ∧ (s.buf i).blockno ∈ s.pending

instance (s : CacheState ι) (i : Idx) : Decidable (s.Pinned i) :=
  inferInstanceAs (Decidable (_ ∧ _))

/-- `commit` has asked for the block and got the buffer. -/
def Refers (s : CacheState ι) (i : Idx) (b : Nat) : Prop :=
  ∃ r ∈ s.refs, r.owner = .commit ∧ r.buf = i ∧ r.blockno = b ∧ r.pos ≠ .dropping

/-- The buffers `commit` works with are those of the blocks it means. -/
def Ready (start : Nat) (s : CacheState ι) : Prop :=
  match s.pos with
  | .pair _ tail (.getHome a) => s.Refers a (start + tail + 1)
  | .pair _ tail (.copy a b) =>
    s.Refers a (start + tail + 1) ∧ ∃ blk, s.lh[tail]? = some blk ∧ s.Refers b blk
  | .head _ (.write a) => s.Refers a start
  | _ => True

end CacheState

/-- The invariant of the cache and the log, with the log area at `start`. -/
structure CacheInv (start : Nat) (s : CacheState ι) : Prop where
  count : ∀ i, (s.buf i).refcnt =
    s.refs.countP (fun r => r.buf = i) + if s.Pinned i then 1 else 0
  asked : ∀ r ∈ s.refs, r.dev = ROOTDEV ∧ (s.buf r.buf).dev = ROOTDEV ∧
    (s.buf r.buf).blockno = r.blockno
  users : ∀ r ∈ s.refs, r.owner ≠ .commit → IsHome start r.blockno
  owners : ∀ r ∈ s.refs, ∀ p, r.owner = .op p → ∃ blocks, (p, blocks) ∈ s.ops
  lockOne : ∀ i, s.refs.countP (fun r => r.buf = i ∧ r.pos.isLocked) ≤ 1
  dirty : ∀ r ∈ s.refs, r.pos = .locked true →
    (∃ p, r.owner = .op p) ∧ (s.buf r.buf).valid = true
  busy : s.pos ≠ .up → s.ops = 0
  ready : s.Ready start
  real : ∀ i, (s.buf i).valid = true → (s.buf i).dev = ROOTDEV
  kept : ∀ b ∈ s.pending, ∃ i, (s.buf i).dev = ROOTDEV ∧ (s.buf i).blockno = b ∧
    (s.buf i).valid = true
  fresh : ∀ i, (s.buf i).valid = true → IsHome start (s.buf i).blockno →
    (∀ r ∈ s.refs, r.buf = i → r.pos ≠ .locked true) →
    (s.buf i).data = s.spec (s.buf i).blockno
  home : ∀ b, IsHome start b → b ∉ s.pending → s.disk b = s.spec b
  logBuf : ∀ i, (s.buf i).valid = true → ¬ IsHome start (s.buf i).blockno →
    (s.buf i).data = s.disk (s.buf i).blockno
  nodup : s.lh.Nodup
  size : s.lh.length ≤ LOGBLOCKS
  logged : ∀ b ∈ s.lh, IsHome start b
  copied : ∀ t b, t < s.pos.copied s.lh → s.lh[t]? = some b →
    s.disk (start + t + 1) = s.spec b

/-- A block of the log area is not a home block. -/
theorem not_isHome_log {start t : Nat} (ht : t < LOGBLOCKS) : ¬ IsHome start (start + t + 1) := by
  unfold IsHome
  omega

theorem not_isHome_start (start : Nat) : ¬ IsHome start start := by
  unfold IsHome
  omega

namespace CacheInv

variable {start : Nat} {s s' : CacheState ι} {k : CommitPos}

/-- A buffer with no reference count has no reference and is not pinned. -/
theorem of_refcnt_zero (h : CacheInv start s) {i : Idx} (hzero : (s.buf i).refcnt = 0) :
    (∀ r ∈ s.refs, r.buf ≠ i) ∧ ¬ s.Pinned i := by
  have hcount := h.count i
  rw [hzero] at hcount
  constructor
  · intro r hr e
    have hpos : 0 < s.refs.countP (fun r => r.buf = i) := Multiset.countP_pos.2 ⟨r, hr, e⟩
    omega
  · intro hpin
    rw [if_pos hpin] at hcount
    omega

/-- While `commit` runs, no buffer is dirty. -/
theorem clean (h : CacheInv start s) (hpos : s.pos ≠ .up) (r : Ref ι) (hr : r ∈ s.refs) :
    r.pos ≠ .locked true := by
  intro hdirty
  obtain ⟨⟨p, hp⟩, _⟩ := h.dirty r hr hdirty
  obtain ⟨blocks, hmem⟩ := h.owners r hr p hp
  rw [h.busy hpos] at hmem
  simp at hmem

/-- The buffer behind a reference of `commit`. -/
theorem refers_block (h : CacheInv start s) {i : Idx} {b : Nat} (href : s.Refers i b) :
    (s.buf i).dev = ROOTDEV ∧ (s.buf i).blockno = b := by
  obtain ⟨r, hr, _, rfl, rfl, _⟩ := href
  exact ⟨(h.asked r hr).2.1, (h.asked r hr).2.2⟩

/-- Steps of other owners leave the buffers of `commit` alone. -/
theorem ready_mono (hready : s.Ready start) (hpos : s'.pos = s.pos)
    (hlh : s'.lh = s.lh) (hrefers : ∀ i b, s.Refers i b → s'.Refers i b) : s'.Ready start := by
  unfold CacheState.Ready at hready ⊢
  rw [hpos, hlh]
  split at hready
  · exact hrefers _ _ hready
  · obtain ⟨ha, blk, hblk, hb⟩ := hready
    exact ⟨hrefers _ _ ha, blk, hblk, hrefers _ _ hb⟩
  · exact hrefers _ _ hready
  · trivial

/-- Moving a reference on, but not to `dropping`, keeps what `commit` refers to. -/
theorem refers_to {r : Ref ι} {refs : Multiset (Ref ι)} {pos : RefPos} (href : s.refs = r ::ₘ refs)
    (href' : s'.refs = r.to pos ::ₘ refs) (hpos : r.owner = .commit → pos ≠ .dropping) {i : Idx}
    {b : Nat} (h : s.Refers i b) : s'.Refers i b := by
  obtain ⟨r₀, hr₀, howner, hbuf, hblock, hne⟩ := h
  rw [href] at hr₀
  rcases Multiset.mem_cons.1 hr₀ with rfl | hr₀
  · refine ⟨r₀.to pos, ?_, howner, hbuf, hblock, hpos howner⟩
    rw [href']
    exact Multiset.mem_cons_self _ _
  refine ⟨r₀, ?_, howner, hbuf, hblock, hne⟩
  rw [href']
  exact Multiset.mem_cons_of_mem hr₀

/-- The pins depend on the blocks of the buffers and on what is pending. -/
theorem pin_congr (hsame : SameBlocks s s') (hpending : s'.pending = s.pending)
    (i : Idx) : (if s'.Pinned i then 1 else 0) = if s.Pinned i then 1 else 0 := by
  have hiff : s'.Pinned i ↔ s.Pinned i := by
    unfold CacheState.Pinned
    rw [(hsame i).1, (hsame i).2, hpending]
  exact if_congr hiff rfl rfl

/-- **Steps that move references and positions only.**  No reference becomes
dirty or clean, none appears or goes away, and what is pending stays. -/
theorem of_refs (h : CacheInv start s) (hbuf : s'.buf = s.buf) (hdisk : s'.disk = s.disk)
    (hspec : s'.spec = s.spec) (hlh : s'.lh = s.lh)
    (hcount : ∀ i, s'.refs.countP (fun r => r.buf = i) = s.refs.countP (fun r => r.buf = i))
    (hrefs : ∀ r' ∈ s'.refs, ∃ r ∈ s.refs, r' = r.to r'.pos ∧
      (r'.pos = .locked true → r.pos = .locked true))
    (hdirty : ∀ r ∈ s.refs, r.pos = .locked true → ∃ r' ∈ s'.refs, r'.buf = r.buf ∧
      r'.pos = .locked true) (hlock : ∀ i, s'.refs.countP (fun r => r.buf = i ∧ r.pos.isLocked) ≤ 1)
    (hops : ∀ r ∈ s'.refs, ∀ p, r.owner = .op p → ∃ blocks, (p, blocks) ∈ s'.ops)
    (hbusy : s'.pos ≠ .up → s'.ops = 0) (hpending : s'.pending = s.pending)
    (hcopied : s'.pos.copied s.lh ≤ s.pos.copied s.lh) (hready : s'.Ready start) :
    CacheInv start s' where
  count i := by
    rw [hbuf, hcount i, pin_congr (.of_eq hbuf) hpending]
    exact h.count i
  asked r' hr' := by
    obtain ⟨r, hr, e, _⟩ := hrefs r' hr'
    rw [hbuf, e]
    exact h.asked r hr
  users r' hr' howner := by
    obtain ⟨r, hr, e, _⟩ := hrefs r' hr'
    rw [e] at howner ⊢
    exact h.users r hr howner
  owners := hops
  lockOne := hlock
  dirty r' hr' hpos := by
    obtain ⟨r, hr, e, hback⟩ := hrefs r' hr'
    have hold := h.dirty r hr (hback hpos)
    rw [hbuf, e]
    exact hold
  busy := hbusy
  ready := hready
  real i := by rw [hbuf]; exact h.real i
  kept b hb := by
    rw [hbuf]
    exact h.kept b (hpending ▸ hb)
  fresh i hvalid hhome hclean := by
    rw [hbuf] at hvalid hhome ⊢
    rw [hspec]
    apply h.fresh i hvalid hhome
    intro r hr e hpos
    obtain ⟨r', hr', ebuf, hpos'⟩ := hdirty r hr hpos
    exact hclean r' hr' (ebuf.trans e) hpos'
  home b hhome hb := by
    rw [hdisk, hspec]
    exact h.home b hhome (hpending ▸ hb)
  logBuf i := by
    rw [hbuf, hdisk]
    exact h.logBuf i
  nodup := by rw [hlh]; exact h.nodup
  size := by rw [hlh]; exact h.size
  logged := by rw [hlh]; exact h.logged
  copied t b ht hb := by
    rw [hlh] at ht hb
    rw [hdisk, hspec]
    exact h.copied t b (by omega) hb

/-- Moving one reference on, neither from nor to a dirty one. -/
theorem of_to (h : CacheInv start s) {r : Ref ι} {refs : Multiset (Ref ι)} {pos : RefPos}
    (href : s.refs = r ::ₘ refs) (hr : r.pos ≠ .locked true) (hpos : pos ≠ .locked true)
    (hlock : ∀ i, (r.to pos ::ₘ refs).countP (fun r => r.buf = i ∧ r.pos.isLocked) ≤ 1)
    (hup : k ≠ .up → s.pos ≠ .up) (hpending : k.pending s.lh = s.pos.pending s.lh)
    (hcopied : k.copied s.lh ≤ s.pos.copied s.lh)
    (hready : ({ s with refs := r.to pos ::ₘ refs, pos := k } : CacheState ι).Ready start) :
    CacheInv start { s with refs := r.to pos ::ₘ refs, pos := k } := by
  have hmem : ∀ r' ∈ r.to pos ::ₘ refs, r' = r.to pos ∨ r' ∈ s.refs := by
    intro r' hr'
    rw [href]
    rcases Multiset.mem_cons.1 hr' with e | hr'
    · exact .inl e
    · exact .inr (Multiset.mem_cons_of_mem hr')
  have hself : r ∈ s.refs := by
    rw [href]
    exact Multiset.mem_cons_self r refs
  refine h.of_refs rfl rfl rfl rfl ?_ ?_ ?_ hlock ?_ ?_ hpending hcopied hready
  · intro i
    simp [href, Multiset.countP_cons]
  · intro r' hr'
    rcases hmem r' hr' with e | hold
    · exact ⟨r, hself, by rw [e]; rfl, fun hd => absurd (by rw [e] at hd; exact hd) hpos⟩
    · exact ⟨r', hold, rfl, fun hd => hd⟩
  · intro r' hr' hd
    rw [href] at hr'
    rcases Multiset.mem_cons.1 hr' with e | hr'
    · rw [e] at hd
      exact absurd hd hr
    · exact ⟨r', Multiset.mem_cons_of_mem hr', rfl, hd⟩
  · intro r' hr' p howner
    rcases hmem r' hr' with e | hold
    · rw [e] at howner
      exact h.owners r hself p howner
    · exact h.owners r' hold p howner
  · exact fun hk => h.busy (hup hk)

/-- Moving `commit` on, with the references as they are. -/
theorem of_pos (h : CacheInv start s) (hup : k ≠ .up → s.pos ≠ .up)
    (hpending : k.pending s.lh = s.pos.pending s.lh) (hcopied : k.copied s.lh ≤ s.pos.copied s.lh)
    (hready : ({ s with pos := k } : CacheState ι).Ready start) :
    CacheInv start { s with pos := k } := by
  refine h.of_refs rfl rfl rfl rfl (fun _ => rfl) ?_ ?_ h.lockOne h.owners ?_ hpending hcopied
    hready
  · exact fun r hr => ⟨r, hr, rfl, fun hd => hd⟩
  · exact fun r hr hd => ⟨r, hr, rfl, hd⟩
  · exact fun hk => h.busy (hup hk)

/-- Operations begin and end, and panics happen, beside the cache. -/
theorem of_ops (h : CacheInv start s) {ops : Multiset (ι × List Nat)}
    {out : Nat} {panic : Option CachePanic}
    (hops : ∀ r ∈ s.refs, ∀ p, r.owner = .op p → ∃ blocks, (p, blocks) ∈ ops)
    (hbusy : k ≠ .up → ops = 0) (hpending : k.pending s.lh = s.pos.pending s.lh)
    (hcopied : k.copied s.lh ≤ s.pos.copied s.lh)
    (hready : ({ s with pos := k } : CacheState ι).Ready start) :
    CacheInv start { s with outstanding := out, ops := ops, pos := k, panic := panic } := by
  refine h.of_refs rfl rfl rfl rfl (fun _ => rfl) ?_ ?_ h.lockOne hops hbusy hpending hcopied hready
  · exact fun r hr => ⟨r, hr, rfl, fun hd => hd⟩
  · exact fun r hr hd => ⟨r, hr, rfl, hd⟩

end CacheInv

end Kus.Bio
