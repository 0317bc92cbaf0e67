import KusOs.CacheCoherence

/-!
# The steps of the cache and the log

One lemma for each step that changes a buffer, the disk or the log: it keeps the
invariant of the cache.

* `CacheInv.hit`, `CacheInv.recycle`, `CacheInv.fill` — `bread`;
* `CacheInv.modify`, `CacheInv.logWrite` — what an operation does to a buffer;
* `CacheInv.drop` — `brelse`;
* `CacheInv.copyToLog`, `CacheInv.writeHead`, `CacheInv.copyHome`,
  `CacheInv.installed` — `commit`.
-/

namespace Kus.Bio

open Function Transition LinkedRing

variable {ι : Type}

attribute [local simp] CommitPos.wants CommitPos.got

namespace CacheInv

variable {start : Nat} {s : CacheState ι} {refs : Multiset (Ref ι)} {r : Ref ι} {i a : Idx}
  {o : Owner ι}

/-- A `bget` by `commit` is for the block it means next. -/
theorem after_ready {dev b : Nat} {s' : CacheState ι} (hready : s.Ready start)
    (hask : s.Asks start dev b o) (hpos : s'.pos = s.after i o) (hlh : s'.lh = s.lh)
    (hrefs : s'.refs = ⟨o, dev, b, i, .waiting⟩ ::ₘ s.refs) : s'.Ready start := by
  have hold : ∀ i b, s.Refers i b → s'.Refers i b := by
    rintro i b ⟨r, hr, hrest⟩
    exact ⟨r, by rw [hrefs]; exact Multiset.mem_cons_of_mem hr, hrest⟩
  cases o with
  | op p => exact ready_mono hready hpos hlh hold
  | reader => exact ready_mono hready hpos hlh hold
  | commit =>
    obtain ⟨_, hwants, _⟩ := hask
    have hnew : s'.Refers i b :=
      ⟨⟨.commit, dev, b, i, .waiting⟩, by rw [hrefs]; exact Multiset.mem_cons_self _ _,
        rfl, rfl, rfl, by simp⟩
    unfold CacheState.Ready at hready ⊢
    rw [hpos, hlh]
    cases hk : s.pos with
    | pair phase tail k =>
      rw [hk] at hwants hready
      cases k with
      | getLog =>
        have hb : start + tail + 1 = b := by
          by_cases hlt : tail < s.lh.length
          · simpa [hlt] using hwants
          · simp [hlt] at hwants
        simpa [CacheState.after, hk, hb] using hnew
      | getHome a =>
        have hb : s.lh[tail]? = some b := hwants
        simp only [CacheState.after, hk, CommitPos.got]
        exact ⟨hold _ _ hready, b, hb, hnew⟩
      | _ => simp at hwants
    | head erase k =>
      rw [hk] at hwants hready
      cases k with
      | get =>
        have hb : start = b := by simpa using hwants
        simpa [CacheState.after, hk, hb] using hnew
      | _ => simp at hwants
    | _ => simp [hk] at hwants

/-- A `bget` changes neither what is pending nor what is copied. -/
theorem got_pending (i : Idx) (lh : List Nat) (k : CommitPos) :
    (k.got i).pending lh = k.pending lh ∧ (k.got i).copied lh = k.copied lh ∧
      (k.got i = .up ↔ k = .up) := by
  cases k with
  | pair phase tail p =>
    cases phase <;> cases p <;> simp [CommitPos.pending, CommitPos.copied]
  | head erase p =>
    cases erase <;> cases p <;> simp [CommitPos.pending, CommitPos.copied]
  | up => simp
  | finish => simp

theorem after_pending (s : CacheState ι) (i : Idx) (o : Owner ι) :
    (s.after i o).pending s.lh = s.pos.pending s.lh ∧
      (s.after i o).copied s.lh = s.pos.copied s.lh ∧ (s.after i o = .up ↔ s.pos = .up) := by
  cases o with
  | commit => exact got_pending i s.lh s.pos
  | _ => exact ⟨rfl, rfl, Iff.rfl⟩

/-- `bget` finds the block. -/
theorem hit (h : CacheInv start s) {dev b : Nat}
    (hask : s.Asks start dev b o) (hcached : s.cached dev b = some i) (hdev : dev = ROOTDEV)
    (hhome : o ≠ .commit → IsHome start b) : CacheInv start (s.hit o dev b i) := by
  obtain ⟨hbdev, hbblock⟩ := cached_eq_some hcached
  obtain ⟨hpend, hcop, hup⟩ := after_pending s i o
  have hsame : SameBlocks s (s.hit o dev b i) := .of_update rfl rfl rfl
  have hpending : (s.hit o dev b i).pending = s.pending := hpend
  -- only the count of the buffer changes
  have hfield : ∀ j, ((s.hit o dev b i).buf j).valid = (s.buf j).valid ∧
      ((s.hit o dev b i).buf j).data = (s.buf j).data := by
    intro j
    by_cases e : j = i
    · subst e
      simp
    · simp [e]
  constructor
  · intro j
    rw [pin_congr hsame hpending j]
    have hold := h.count j
    by_cases e : j = i
    · subst e
      simp [hold]
      omega
    · simp [e, Ne.symm e, hold]
  · intro r hr
    rw [(hsame r.buf).1, (hsame r.buf).2]
    rcases Multiset.mem_cons.1 hr with rfl | hr
    · exact ⟨hdev, hbdev.trans hdev, hbblock⟩
    · exact h.asked r hr
  · exact Multiset.forall_mem_cons.2 ⟨hhome, h.users⟩
  · refine Multiset.forall_mem_cons.2 ⟨fun p howner => ?_, h.owners⟩
    obtain rfl : o = .op p := howner
    exact hask
  · intro j
    simpa [Multiset.countP_cons] using h.lockOne j
  · intro r hr hpos
    rw [(hfield r.buf).1]
    rcases Multiset.mem_cons.1 hr with rfl | hr
    · cases hpos
    · exact h.dirty r hr hpos
  · exact fun hk => h.busy fun e => hk (hup.2 e)
  · exact after_ready h.ready hask rfl rfl rfl
  · intro j hvalid
    rw [(hsame j).1]
    exact h.real j ((hfield j).1 ▸ hvalid)
  · intro blk hblk
    obtain ⟨j, hj⟩ := h.kept blk (hpending ▸ hblk)
    exact ⟨j, by rw [(hsame j).1, (hsame j).2, (hfield j).1]; exact hj⟩
  · intro j hvalid hj hclean
    rw [(hfield j).1] at hvalid
    rw [(hsame j).2] at hj ⊢
    rw [(hfield j).2]
    exact h.fresh j hvalid hj fun r hr => hclean r (Multiset.mem_cons_of_mem hr)
  · exact fun blk hblk hnot => h.home blk hblk (hpending ▸ hnot)
  · intro j hvalid hj
    rw [(hfield j).1] at hvalid
    rw [(hsame j).2] at hj ⊢
    rw [(hfield j).2]
    exact h.logBuf j hvalid hj
  · exact h.nodup
  · exact h.size
  · exact h.logged
  · intro t blk ht hblk
    exact h.copied t blk (hcop ▸ ht) hblk

section

variable (h : CacheInv start s) (hshape : CacheShape s)
include h hshape

/-- A block that is pending is not one `bget` fails to find. -/
theorem not_pending {b : Nat} (hcached : s.cached ROOTDEV b = none) : b ∉ s.pending := by
  intro hb
  obtain ⟨i, hdev, hblock, _⟩ := h.kept b hb
  exact hshape.cached_eq_none hcached i ⟨hdev, hblock⟩

/-- `bget` recycles a buffer: it had no reference and was not pinned. -/
theorem recycle {b : Nat} (hask : s.Asks start ROOTDEV b o) (hcached : s.cached ROOTDEV b = none)
    (hvictim : s.victim = some i) (hhome : o ≠ .commit → IsHome start b) :
    CacheInv start (s.recycle o ROOTDEV b i) := by
  obtain ⟨hpend, hcop, hup⟩ := after_pending s i o
  have hpending : (s.recycle o ROOTDEV b i).pending = s.pending := hpend
  have hzero := victim_eq_some hvictim
  obtain ⟨hnoref, hnopin⟩ := h.of_refcnt_zero hzero
  have hnot := h.not_pending hshape hcached
  have hother : ∀ j, j ≠ i → (s.recycle o ROOTDEV b i).buf j = s.buf j := by
    intro j e
    exact update_of_ne e _ _
  have hinvalid : ((s.recycle o ROOTDEV b i).buf i).valid = false := by simp
  -- a valid buffer is one of the others
  have hvalid_ne : ∀ j, ((s.recycle o ROOTDEV b i).buf j).valid = true → j ≠ i := by
    intro j hj e
    rw [e, hinvalid] at hj
    cases hj
  constructor
  · intro j
    by_cases e : j = i
    · subst e
      have hnone : s.refs.countP (fun r => r.buf = j) = 0 := by
        rw [Multiset.countP_eq_zero]
        exact hnoref
      have hpin : ¬ (s.recycle o ROOTDEV b j).Pinned j := by
        rintro ⟨_, hmem⟩
        rw [hpending] at hmem
        exact hnot (by simpa using hmem)
      simp [hpin, hnone]
    have hpin : (s.recycle o ROOTDEV b i).Pinned j ↔ s.Pinned j := by
      unfold CacheState.Pinned
      rw [hother j e, hpending]
    rw [hother j e, if_congr hpin rfl rfl, h.count j]
    simp [Ne.symm e]
  · intro r hr
    rcases Multiset.mem_cons.1 hr with rfl | hr
    · simp
    · rw [hother r.buf (hnoref r hr)]
      exact h.asked r hr
  · exact Multiset.forall_mem_cons.2 ⟨hhome, h.users⟩
  · refine Multiset.forall_mem_cons.2 ⟨fun p howner => ?_, h.owners⟩
    obtain rfl : o = .op p := howner
    exact hask
  · intro j
    simpa using h.lockOne j
  · intro r hr hpos
    rcases Multiset.mem_cons.1 hr with rfl | hr
    · cases hpos
    · rw [hother r.buf (hnoref r hr)]
      exact h.dirty r hr hpos
  · exact fun hk => h.busy fun e => hk (hup.2 e)
  · exact after_ready h.ready hask rfl rfl rfl
  · intro j hvalid
    have e := hvalid_ne j hvalid
    rw [hother j e] at hvalid ⊢
    exact h.real j hvalid
  · intro blk hblk
    rw [hpending] at hblk
    obtain ⟨j, hj⟩ := h.kept blk hblk
    have e : j ≠ i := by
      intro e
      subst e
      exact hnopin ⟨hj.1, hj.2.1.symm ▸ hblk⟩
    exact ⟨j, by rw [hother j e]; exact hj⟩
  · intro j hvalid hj hclean
    have e := hvalid_ne j hvalid
    rw [hother j e] at hvalid hj ⊢
    exact h.fresh j hvalid hj fun r hr => hclean r (Multiset.mem_cons_of_mem hr)
  · exact fun blk hblk hmem => h.home blk hblk (hpending ▸ hmem)
  · intro j hvalid hj
    have e := hvalid_ne j hvalid
    rw [hother j e] at hvalid hj ⊢
    exact h.logBuf j hvalid hj
  · exact h.nodup
  · exact h.size
  · exact h.logged
  · intro t blk ht hblk
    exact h.copied t blk (hcop ▸ ht) hblk

/-- The disk read of `bread`. -/
theorem fill (href : r ∈ s.refs) (hinvalid : (s.buf r.buf).valid = false) :
    CacheInv start (s.fill r.buf) := by
  obtain ⟨_, hdev, hblock⟩ := h.asked r href
  have hsame : SameBlocks s (s.fill r.buf) := .of_update rfl rfl rfl
  have hpending : (s.fill r.buf).pending = s.pending := rfl
  -- a pending block is in a valid buffer, and this one is not valid
  have hnot : (s.buf r.buf).blockno ∉ s.pending := by
    intro hb
    obtain ⟨j, hjdev, hjblock, hjvalid⟩ := h.kept _ hb
    have e : j = r.buf := by
      apply hshape.unique j r.buf
      · rw [hjdev]
        decide
      · rw [hjdev, hdev]
      · exact hjblock
    rw [e, hinvalid] at hjvalid
    cases hjvalid
  have hother : ∀ j, j ≠ r.buf → (s.fill r.buf).buf j = s.buf j := by
    intro j e
    exact update_of_ne e _ _
  have hself : (s.fill r.buf).buf r.buf =
      { s.buf r.buf with data := s.disk (s.buf r.buf).blockno, valid := true } :=
    update_self _ _ _
  constructor
  · intro j
    rw [pin_congr hsame hpending j]
    have hold := h.count j
    by_cases e : j = r.buf
    · rw [e, hself]
      exact e ▸ hold
    · rw [hother j e]
      exact hold
  · intro r' hr'
    rw [(hsame r'.buf).1, (hsame r'.buf).2]
    exact h.asked r' hr'
  · exact h.users
  · exact h.owners
  · exact h.lockOne
  · intro r' hr' hpos
    have hold := h.dirty r' hr' hpos
    refine ⟨hold.1, ?_⟩
    by_cases e : r'.buf = r.buf
    · rw [e, hself]
    · rw [hother r'.buf e]
      exact hold.2
  · exact h.busy
  · exact ready_mono h.ready rfl rfl fun _ _ hrefers => hrefers
  · intro j hvalid
    rw [(hsame j).1]
    by_cases e : j = r.buf
    · rw [e]
      exact hdev
    · rw [hother j e] at hvalid
      exact h.real j hvalid
  · intro blk hblk
    obtain ⟨j, hjdev, hjblock, hjvalid⟩ := h.kept blk hblk
    refine ⟨j, by rw [(hsame j).1]; exact hjdev, by rw [(hsame j).2]; exact hjblock, ?_⟩
    by_cases e : j = r.buf
    · rw [e, hself]
    · rw [hother j e]
      exact hjvalid
  · intro j hvalid hj hclean
    by_cases e : j = r.buf
    · rw [e, hself] at hj ⊢
      exact h.home _ hj hnot
    · rw [hother j e] at hvalid hj ⊢
      exact h.fresh j hvalid hj hclean
  · exact h.home
  · intro j hvalid hj
    by_cases e : j = r.buf
    · rw [e, hself]
      rfl
    · rw [hother j e] at hvalid hj ⊢
      exact h.logBuf j hvalid hj
  · exact h.nodup
  · exact h.size
  · exact h.logged
  · exact h.copied

end

/-- Two buffers of the log's device with the same block are one. -/
theorem same_block (hshape : CacheShape s) {j : Idx} (hi : (s.buf i).dev = ROOTDEV)
    (hj : (s.buf j).dev = ROOTDEV) (hblock : (s.buf i).blockno = (s.buf j).blockno) : i = j := by
  apply hshape.unique i j
  · rw [hi]
    decide
  · rw [hi, hj]
  · exact hblock

/-- What holds of every reference, when one of them is moved on. -/
theorem forall_to {P : Ref ι → Prop} (pos : RefPos) (hall : ∀ r ∈ s.refs, P r)
    (href : s.refs = r ::ₘ refs) (hto : P r → P (r.to pos)) : ∀ r' ∈ r.to pos ::ₘ refs, P r' := by
  rw [href, Multiset.forall_mem_cons] at hall
  exact Multiset.forall_mem_cons.2 ⟨hto hall.1, hall.2⟩

section

variable (h : CacheInv start s)
include h

/-- Moving a locked reference to another locked position. -/
theorem lockOne_to {d d' : Bool} (href : s.refs = r ::ₘ refs) (hr : r.pos = .locked d) (i : Idx) :
    (r.to (.locked d') ::ₘ refs).countP (fun r => r.buf = i ∧ r.pos.isLocked) ≤ 1 := by
  have hold := h.lockOne i
  rw [href, Multiset.countP_cons] at hold
  rw [Multiset.countP_cons]
  simpa [hr] using hold

/-- A change of the data by the holder of the lock, before `log_write`. -/
theorem modify {p : ι} {d : Bool} (data : Block) (href : s.refs = r ::ₘ refs)
    (hr : r.pos = .locked d) (howner : r.owner = .op p) (hvalid : (s.buf r.buf).valid = true) :
    CacheInv start { s.setBuf r.buf { s.buf r.buf with data := data } with
      refs := r.to (.locked true) ::ₘ refs } := by
  have hself : r ∈ s.refs := by
    rw [href]
    exact Multiset.mem_cons_self r refs
  have hhome : IsHome start (s.buf r.buf).blockno := by
    rw [(h.asked r hself).2.2]
    exact h.users r hself (by simp [howner])
  have hold : ∀ r' ∈ refs, r' ∈ s.refs := fun r' hr' => by
    rw [href]
    exact Multiset.mem_cons_of_mem hr'
  have hsame : SameBlocks s { s.setBuf r.buf { s.buf r.buf with data := data } with
      refs := r.to (.locked true) ::ₘ refs } := .of_update rfl rfl rfl
  have hother : ∀ j, j ≠ r.buf →
      update s.buf r.buf { s.buf r.buf with data := data } j = s.buf j :=
    fun j e => update_of_ne e _ _
  have hfield : ∀ j,
      (update s.buf r.buf { s.buf r.buf with data := data } j).valid = (s.buf j).valid ∧
      (update s.buf r.buf { s.buf r.buf with data := data } j).refcnt =
        (s.buf j).refcnt := by
    intro j
    by_cases e : j = r.buf
    · subst e
      simp
    · rw [hother j e]
      exact ⟨rfl, rfl⟩
  constructor
  · intro j
    rw [pin_congr hsame rfl j]
    have hcount := h.count j
    rw [href, Multiset.countP_cons] at hcount
    simpa [(hfield j).2, Multiset.countP_cons] using hcount
  · intro r' hr'
    rw [(hsame r'.buf).1, (hsame r'.buf).2]
    exact forall_to (.locked true) h.asked href id r' hr'
  · exact forall_to (.locked true) h.users href id
  · exact forall_to (.locked true) h.owners href id
  · exact h.lockOne_to href hr
  · intro r' hr' hpos
    rcases Multiset.mem_cons.1 hr' with rfl | hr'
    · exact ⟨⟨p, howner⟩, (hfield r.buf).1.trans hvalid⟩
    · have hdirty := h.dirty r' (hold r' hr') hpos
      exact ⟨hdirty.1, (hfield r'.buf).1.trans hdirty.2⟩
  · exact h.busy
  · exact ready_mono h.ready rfl rfl fun _ _ hrefers => refers_to href rfl (by simp) hrefers
  · intro j hj
    rw [(hsame j).1]
    exact h.real j ((hfield j).1.symm.trans hj)
  · intro blk hblk
    obtain ⟨j, hjdev, hjblock, hjvalid⟩ := h.kept blk hblk
    exact ⟨j, (hsame j).1.trans hjdev, (hsame j).2.trans hjblock, (hfield j).1.trans hjvalid⟩
  · intro j hj hjhome hclean
    by_cases e : j = r.buf
    · -- the buffer is dirty now
      exact absurd rfl (hclean (r.to (.locked true)) (Multiset.mem_cons_self _ _) e.symm)
    simp only [CacheState.setBuf_buf, hother j e] at hj hjhome ⊢
    apply h.fresh j hj hjhome
    rw [href]
    exact Multiset.forall_mem_cons.2 ⟨fun ebuf => absurd ebuf.symm e,
      fun r' hr' => hclean r' (Multiset.mem_cons_of_mem hr')⟩
  · exact h.home
  · intro j hj hjlog
    by_cases e : j = r.buf
    · rw [(hsame j).2, e] at hjlog
      exact absurd hhome hjlog
    · simp only [CacheState.setBuf_buf, hother j e] at hj hjlog ⊢
      exact h.logBuf j hj hjlog
  · exact h.nodup
  · exact h.size
  · exact h.logged
  · exact h.copied

/-- The part of `brelse` under `bcache.lock`. -/
theorem drop (href : s.refs = r ::ₘ refs) (hr : r.pos = .dropping) :
    CacheInv start (s.drop r.buf refs) := by
  have hold : ∀ r' ∈ refs, r' ∈ s.refs := fun r' hr' => by
    rw [href]
    exact Multiset.mem_cons_of_mem hr'
  have hsame : SameBlocks s (s.drop r.buf refs) := .of_update rfl rfl rfl
  have hfield : ∀ j, ((s.drop r.buf refs).buf j).valid = (s.buf j).valid ∧
      ((s.drop r.buf refs).buf j).data = (s.buf j).data := by
    intro j
    by_cases e : j = r.buf
    · subst e
      simp
    · simp [e]
  constructor
  · intro j
    rw [pin_congr hsame rfl j]
    have hcount := h.count j
    rw [href, Multiset.countP_cons] at hcount
    by_cases e : j = r.buf
    · subst e
      simp at hcount ⊢
      omega
    · simpa [e, Ne.symm e] using hcount
  · intro r' hr'
    rw [(hsame r'.buf).1, (hsame r'.buf).2]
    exact h.asked r' (hold r' hr')
  · exact fun r' hr' => h.users r' (hold r' hr')
  · exact fun r' hr' => h.owners r' (hold r' hr')
  · intro j
    have hone := h.lockOne j
    rw [href, Multiset.countP_cons] at hone
    show refs.countP (fun r => r.buf = j ∧ r.pos.isLocked) ≤ 1
    omega
  · intro r' hr' hpos
    rw [(hfield r'.buf).1]
    exact h.dirty r' (hold r' hr') hpos
  · exact h.busy
  · refine ready_mono h.ready rfl rfl ?_
    rintro i b ⟨r₀, hr₀, howner, hbuf, hblock, hne⟩
    refine ⟨r₀, ?_, howner, hbuf, hblock, hne⟩
    rw [href] at hr₀
    rcases Multiset.mem_cons.1 hr₀ with e | hr₀
    · rw [e] at hne
      exact absurd hr hne
    · exact hr₀
  · intro j hj
    rw [(hsame j).1]
    exact h.real j ((hfield j).1 ▸ hj)
  · intro blk hblk
    obtain ⟨j, hj⟩ := h.kept blk hblk
    exact ⟨j, by rw [(hsame j).1, (hsame j).2, (hfield j).1]; exact hj⟩
  · intro j hj hjhome hclean
    rw [(hfield j).1] at hj
    rw [(hsame j).2] at hjhome ⊢
    rw [(hfield j).2]
    apply h.fresh j hj hjhome
    rw [href]
    exact Multiset.forall_mem_cons.2 ⟨fun _ => by simp [hr], hclean⟩
  · exact h.home
  · intro j hj hjlog
    rw [(hfield j).1] at hj
    rw [(hsame j).2] at hjlog ⊢
    rw [(hfield j).2]
    exact h.logBuf j hj hjlog
  · exact h.nodup
  · exact h.size
  · exact h.logged
  · exact h.copied

section

variable (hshape : CacheShape s)
include hshape

/-- `log_write`. -/
theorem logWrite {p : ι} {d : Bool} {blocks : List Nat} {ops : Multiset (ι × List Nat)}
    (href : s.refs = r ::ₘ refs) (hr : r.pos = .locked d) (howner : r.owner = .op p)
    (hvalid : (s.buf r.buf).valid = true) (hop : s.ops = (p, blocks) ::ₘ ops)
    (hroom : s.lh.length < LOGBLOCKS) : CacheInv start
      { s.logWrite r.buf p blocks ops with refs := r.to (.locked false) ::ₘ refs } := by
  have hself : r ∈ s.refs := by
    rw [href]
    exact Multiset.mem_cons_self r refs
  have hold : ∀ r' ∈ refs, r' ∈ s.refs := fun r' hr' => by
    rw [href]
    exact Multiset.mem_cons_of_mem hr'
  obtain ⟨_, hdev, hblock⟩ := h.asked r hself
  have hhome : IsHome start (s.buf r.buf).blockno := by
    rw [hblock]
    exact h.users r hself (by simp [howner])
  have hup : s.pos = .up := by
    by_contra hne
    rw [h.busy hne] at hop
    exact Multiset.zero_ne_cons hop
  have hpend : s.pending = s.lh := by
    unfold CacheState.pending
    rw [hup]
    rfl
  generalize hb : (s.buf r.buf).blockno = b at hhome hblock
  generalize hs' : ({ s.logWrite r.buf p blocks ops with
    refs := r.to (.locked false) ::ₘ refs } : CacheState ι) = s'
  have hrefs' : s'.refs = r.to (.locked false) ::ₘ refs := by rw [← hs']
  have hlh' : s'.lh = if b ∈ s.lh then s.lh else s.lh ++ [b] := by
    rw [← hs', ← hb]
    rfl
  have hpos' : s'.pos = .up := by rw [← hs']; exact hup
  have hdisk' : s'.disk = s.disk := by rw [← hs']; rfl
  have hspec' : s'.spec = update s.spec b (s.buf r.buf).data := by
    rw [← hs', ← hb]
    rfl
  have hops' : s'.ops = (p, if b ∈ blocks then blocks else blocks ++ [b]) ::ₘ ops := by
    rw [← hs', ← hb]
    rfl
  have hpend' : s'.pending = s'.lh := by
    unfold CacheState.pending
    rw [hpos']
    rfl
  have hbuf' : ∀ j, s'.buf j =
      { s.buf j with refcnt := (s.buf j).refcnt + if j = r.buf ∧ b ∉ s.lh then 1 else 0 } := by
    intro j
    rw [← hs']
    by_cases hmem : b ∈ s.lh
    · simp [CacheState.logWrite, hb, hmem]
    by_cases e : j = r.buf
    · subst e
      simp [CacheState.logWrite, hb, hmem]
    · simp [CacheState.logWrite, hb, hmem, e]
  clear hs'
  have hmem' : ∀ blk, blk ∈ s'.lh ↔ blk ∈ s.lh ∨ blk = b := by
    intro blk
    rw [hlh']
    split
    · rename_i hmem
      constructor
      · exact .inl
      · rintro (h | rfl)
        · exact h
        · exact hmem
    · simp
  -- another buffer of the device stands for another block
  have hne : ∀ j, j ≠ r.buf → (s.buf j).dev = ROOTDEV → (s.buf j).blockno ≠ b := by
    intro j e hj hjb
    exact e (same_block hshape hj hdev (hjb.trans hb.symm))
  constructor
  · intro j
    rw [hbuf', hrefs', Multiset.countP_cons]
    have hcount := h.count j
    rw [href, Multiset.countP_cons] at hcount
    by_cases e : j = r.buf
    · subst e
      have hpin' : s'.Pinned r.buf := by
        refine ⟨by rw [hbuf']; exact hdev, ?_⟩
        rw [hpend', hmem', hbuf']
        exact .inr hb
      have hpin : s.Pinned r.buf ↔ b ∈ s.lh := by
        unfold CacheState.Pinned
        rw [hpend, hb]
        simp [hdev]
      rw [if_pos hpin']
      rw [if_congr hpin rfl rfl] at hcount
      by_cases hmem : b ∈ s.lh
      · simp [hmem] at hcount ⊢
        omega
      · simp [hmem] at hcount ⊢
        omega
    · have hpin : s'.Pinned j ↔ s.Pinned j := by
        unfold CacheState.Pinned
        rw [hpend', hpend, hmem', hbuf']
        constructor
        · rintro ⟨hj, hm | hm⟩
          · exact ⟨hj, hm⟩
          · exact absurd hm (hne j e hj)
        · exact fun hj => ⟨hj.1, .inl hj.2⟩
      rw [if_congr hpin rfl rfl]
      simpa [e] using hcount
  · intro r' hr'
    rw [hrefs'] at hr'
    rw [hbuf']
    exact forall_to (.locked false) h.asked href id r' hr'
  · rw [hrefs']
    exact forall_to (.locked false) h.users href id
  · intro r' hr' q hq
    rw [hrefs'] at hr'
    obtain ⟨bl, hbl⟩ := forall_to (.locked false) h.owners href id r' hr' q hq
    rw [hop] at hbl
    rw [hops']
    rcases Multiset.mem_cons.1 hbl with e | hbl
    · obtain ⟨rfl, rfl⟩ := Prod.mk.inj e
      exact ⟨_, Multiset.mem_cons_self _ _⟩
    · exact ⟨bl, Multiset.mem_cons_of_mem hbl⟩
  · intro j
    rw [hrefs']
    exact h.lockOne_to href hr j
  · intro r' hr' hpos
    rw [hrefs'] at hr'
    rw [hbuf']
    rcases Multiset.mem_cons.1 hr' with rfl | hr'
    · cases hpos
    · exact h.dirty r' (hold r' hr') hpos
  · exact fun hk => absurd hpos' hk
  · unfold CacheState.Ready
    rw [hpos']
    trivial
  · intro j hj
    rw [hbuf'] at hj ⊢
    exact h.real j hj
  · intro blk hblk
    rw [hpend', hmem'] at hblk
    rcases hblk with hblk | rfl
    · obtain ⟨j, hj⟩ := h.kept blk (hpend ▸ hblk)
      exact ⟨j, by rw [hbuf']; exact hj⟩
    · exact ⟨r.buf, by rw [hbuf']; exact ⟨hdev, hb, hvalid⟩⟩
  · intro j hj hjhome hclean
    rw [hbuf'] at hj hjhome ⊢
    rw [hspec']
    by_cases e : j = r.buf
    · subst e
      show (s.buf r.buf).data = update s.spec b _ (s.buf r.buf).blockno
      rw [hb, update_self]
    show (s.buf j).data = update s.spec b _ (s.buf j).blockno
    rw [update_of_ne (hne j e (h.real j hj))]
    apply h.fresh j hj hjhome
    rw [hrefs'] at hclean
    rw [href]
    exact Multiset.forall_mem_cons.2 ⟨fun ebuf => absurd ebuf.symm e,
      fun r' hr' => hclean r' (Multiset.mem_cons_of_mem hr')⟩
  · intro blk hblk hnot
    rw [hpend', hmem', not_or] at hnot
    rw [hdisk', hspec', update_of_ne hnot.2]
    exact h.home blk hblk (hpend ▸ hnot.1)
  · intro j hj hjlog
    rw [hbuf'] at hj hjlog ⊢
    rw [hdisk']
    exact h.logBuf j hj hjlog
  · rw [hlh']
    split
    · exact h.nodup
    · rename_i hmem
      apply List.nodup_append.2
      refine ⟨h.nodup, by simp, ?_⟩
      intro x hx y hy e
      rw [List.mem_singleton] at hy
      exact hmem (hy ▸ e ▸ hx)
  · rw [hlh']
    split
    · exact h.size
    · simp
      omega
  · intro blk hblk
    rcases (hmem' blk).1 hblk with hblk | rfl
    · exact h.logged blk hblk
    · exact hhome
  · intro t blk ht
    rw [hpos'] at ht
    cases ht

/-- `commit` writes a block of the log area: a copy of a logged block, or the
header. -/
theorem bwriteLog {d : Block} {k : CommitPos} (hvalid : (s.buf a).valid = true)
    (hlog : ¬ IsHome start (s.buf a).blockno) (hup : s.pos ≠ .up)
    (hpending : k.pending s.lh = s.pos.pending s.lh)
    (hready : ({ s.bwrite a d with pos := k } : CacheState ι).Ready start)
    (hcopied : ∀ t b, t < k.copied s.lh → s.lh[t]? = some b →
      update s.disk (s.buf a).blockno d (start + t + 1) = s.spec b) :
    CacheInv start { s.bwrite a d with pos := k } := by
  have hsame : SameBlocks s { s.bwrite a d with pos := k } := .of_update rfl rfl rfl
  have hpend : ({ s.bwrite a d with pos := k } : CacheState ι).pending = s.pending := hpending
  have hother : ∀ j, j ≠ a → (s.bwrite a d).buf j = s.buf j := fun j e => update_of_ne e _ _
  have hfield : ∀ j, ((s.bwrite a d).buf j).valid = (s.buf j).valid ∧
      ((s.bwrite a d).buf j).refcnt = (s.buf j).refcnt := by
    intro j
    by_cases e : j = a
    · subst e
      simp
    · rw [hother j e]
      exact ⟨rfl, rfl⟩
  constructor
  · intro j
    rw [pin_congr hsame hpending j]
    exact (hfield j).2.trans (h.count j)
  · intro r hr
    rw [(hsame r.buf).1, (hsame r.buf).2]
    exact h.asked r hr
  · exact h.users
  · exact h.owners
  · exact h.lockOne
  · intro r hr hpos
    exact absurd hpos (h.clean hup r hr)
  · exact fun _ => h.busy hup
  · exact hready
  · intro j hj
    rw [(hsame j).1]
    exact h.real j ((hfield j).1.symm.trans hj)
  · intro b hb
    obtain ⟨j, hjdev, hjblock, hjvalid⟩ := h.kept b (hpend ▸ hb)
    exact ⟨j, (hsame j).1.trans hjdev, (hsame j).2.trans hjblock, (hfield j).1.trans hjvalid⟩
  · intro j hj hjhome hclean
    have e : j ≠ a := by
      intro e
      rw [(hsame j).2, e] at hjhome
      exact hlog hjhome
    simp only [hother j e] at hj hjhome ⊢
    exact h.fresh j hj hjhome hclean
  · intro b hb hnot
    have e : b ≠ (s.buf a).blockno := fun e => hlog (e ▸ hb)
    show update s.disk _ d b = s.spec b
    rw [update_of_ne e]
    exact h.home b hb fun hm => hnot (hpend.symm ▸ hm)
  · intro j hj hjlog
    show ((s.bwrite a d).buf j).data =
      update s.disk (s.buf a).blockno d ((s.bwrite a d).buf j).blockno
    by_cases e : j = a
    · subst e
      simp
    simp only [hother j e] at hj hjlog ⊢
    have hne : (s.buf j).blockno ≠ (s.buf a).blockno := by
      intro hb
      exact e (same_block hshape (h.real j hj) (h.real a hvalid) hb)
    rw [update_of_ne hne]
    exact h.logBuf j hj hjlog
  · exact h.nodup
  · exact h.size
  · exact h.logged
  · exact hcopied

/-- One block of `write_log`. -/
theorem copyToLog {tail : Nat} {b : Idx} (hpos : s.pos = .pair .writeLog tail (.copy a b))
    (hva : (s.buf a).valid = true) (hvb : (s.buf b).valid = true) :
    CacheInv start { s.bwrite a (s.buf b).data with pos := .pair .writeLog tail (.first b a) } := by
  have hready := h.ready
  unfold CacheState.Ready at hready
  rw [hpos] at hready
  obtain ⟨ha, blk, hblk, hb⟩ := hready
  have hup : s.pos ≠ .up := by simp [hpos]
  obtain ⟨_, hablock⟩ := h.refers_block ha
  obtain ⟨_, hbblock⟩ := h.refers_block hb
  have htail : tail < s.lh.length := (List.getElem?_eq_some_iff.1 hblk).1
  have hhome : IsHome start (s.buf b).blockno := by
    rw [hbblock]
    exact h.logged blk (List.mem_of_getElem? hblk)
  have hdata : (s.buf b).data = s.spec blk := by
    rw [← hbblock]
    exact h.fresh b hvb hhome fun r hr _ => h.clean hup r hr
  apply h.bwriteLog hshape hva
  · rw [hablock]
    exact not_isHome_log (by have := h.size; omega)
  · exact hup
  · rw [hpos]
    rfl
  · trivial
  · intro t x ht hx
    rw [hablock]
    have hle : t < tail + 1 := ht
    by_cases e : t = tail
    · subst e
      rw [update_self, hdata]
      rw [hblk] at hx
      rw [Option.some.inj hx]
    rw [update_of_ne (by omega)]
    apply h.copied t x _ hx
    rw [hpos]
    show t < tail
    omega

/-- `write_head`. -/
theorem writeHead {erase : Bool} (d : Block) (hpos : s.pos = .head erase (.write a))
    (hva : (s.buf a).valid = true) :
    CacheInv start { s.bwrite a d with pos := .head erase (.rel a) } := by
  have hready := h.ready
  unfold CacheState.Ready at hready
  rw [hpos] at hready
  obtain ⟨_, hablock⟩ := h.refers_block hready
  apply h.bwriteLog hshape hva
  · rw [hablock]
    exact not_isHome_start start
  · simp [hpos]
  · rw [hpos]
    rfl
  · trivial
  · intro t x ht hx
    rw [hablock, update_of_ne (by omega)]
    apply h.copied t x _ hx
    rw [hpos]
    cases erase with
    | true => exact ht
    | false => exact ht

/-- One block of `install_trans`. -/
theorem copyHome {tail : Nat} {b : Idx} (hpos : s.pos = .pair .install tail (.copy a b))
    (hva : (s.buf a).valid = true) (hvb : (s.buf b).valid = true) : CacheInv start
      { s.bwrite b (s.buf a).data with
        buf := update s.buf b
          { s.buf b with data := (s.buf a).data, refcnt := (s.buf b).refcnt - 1 }
        pos := .pair .install tail (.first a b) } := by
  have hready := h.ready
  unfold CacheState.Ready at hready
  rw [hpos] at hready
  obtain ⟨ha, blk, hblk, hb⟩ := hready
  have hup : s.pos ≠ .up := by simp [hpos]
  obtain ⟨_, hablock⟩ := h.refers_block ha
  obtain ⟨hbdev, hbblock⟩ := h.refers_block hb
  have htail : tail < s.lh.length := (List.getElem?_eq_some_iff.1 hblk).1
  have hhome : IsHome start blk := h.logged blk (List.mem_of_getElem? hblk)
  have hdata : (s.buf a).data = s.spec blk := by
    rw [h.logBuf a hva, hablock]
    · apply h.copied tail blk _ hblk
      rw [hpos]
      exact htail
    · rw [hablock]
      exact not_isHome_log (by have := h.size; omega)
  generalize hs' : ({ s.bwrite b (s.buf a).data with
    buf := update s.buf b
      { s.buf b with data := (s.buf a).data, refcnt := (s.buf b).refcnt - 1 }
    pos := .pair .install tail (.first a b) } : CacheState ι) = s'
  have hself : s'.buf b =
      { s.buf b with data := (s.buf a).data, refcnt := (s.buf b).refcnt - 1 } := by
    rw [← hs']
    exact update_self _ _ _
  have hother : ∀ j, j ≠ b → s'.buf j = s.buf j := by
    intro j e
    rw [← hs']
    exact update_of_ne e _ _
  have hsame : SameBlocks s s' := by
    rw [← hs']
    exact .of_update rfl rfl rfl
  have hvalid' : ∀ j, (s'.buf j).valid = (s.buf j).valid := by
    intro j
    by_cases e : j = b
    · rw [e, hself]
    · rw [hother j e]
  have hrefs' : s'.refs = s.refs := by rw [← hs']; rfl
  have hlh' : s'.lh = s.lh := by rw [← hs']; rfl
  have hdisk' : s'.disk = update s.disk blk (s.buf a).data := by
    rw [← hs', ← hbblock]
    rfl
  have hspec' : s'.spec = s.spec := by rw [← hs']; rfl
  have hops' : s'.ops = s.ops := by rw [← hs']; rfl
  have hpos' : s'.pos = .pair .install tail (.first a b) := by rw [← hs']
  clear hs'
  -- the block installed was the first of those pending
  have hsplit : s.pending = blk :: s'.pending := by
    unfold CacheState.pending
    rw [hpos', hlh', hpos]
    show s.lh.drop tail = blk :: s.lh.drop (tail + 1)
    rw [List.drop_eq_getElem_cons htail]
    rw [List.getElem?_eq_getElem htail] at hblk
    rw [Option.some.inj hblk]
  have hnot : blk ∉ s'.pending := by
    have hnodup : s.pending.Nodup := by
      unfold CacheState.pending
      rw [hpos]
      exact h.nodup.sublist (List.drop_sublist tail s.lh)
    rw [hsplit] at hnodup
    exact (List.nodup_cons.1 hnodup).1
  have hne : ∀ j, j ≠ b → (s.buf j).dev = ROOTDEV → (s.buf j).blockno ≠ blk := by
    intro j e hj hjb
    exact e (same_block hshape hj hbdev (hjb.trans hbblock.symm))
  constructor
  · intro j
    rw [hrefs']
    have hcount := h.count j
    by_cases e : j = b
    · subst e
      have hpin : s.Pinned j := ⟨hbdev, by rw [hbblock, hsplit]; exact List.mem_cons_self⟩
      have hpin' : ¬ s'.Pinned j := by
        rintro ⟨_, hm⟩
        rw [(hsame j).2, hbblock] at hm
        exact hnot hm
      rw [if_pos hpin] at hcount
      rw [if_neg hpin', hself]
      show (s.buf j).refcnt - 1 = _
      omega
    have hpin : s'.Pinned j ↔ s.Pinned j := by
      unfold CacheState.Pinned
      rw [(hsame j).1, (hsame j).2, hsplit, List.mem_cons]
      constructor
      · exact fun ⟨hj, hm⟩ => ⟨hj, .inr hm⟩
      · rintro ⟨hj, hm | hm⟩
        · exact absurd hm (hne j e hj)
        · exact ⟨hj, hm⟩
    rw [hother j e, if_congr hpin rfl rfl]
    exact hcount
  · intro r hr
    rw [(hsame r.buf).1, (hsame r.buf).2]
    exact h.asked r (hrefs' ▸ hr)
  · exact fun r hr => h.users r (hrefs' ▸ hr)
  · intro r hr
    rw [hops']
    exact h.owners r (hrefs' ▸ hr)
  · rw [hrefs']
    exact h.lockOne
  · intro r hr hdirty
    exact absurd hdirty (h.clean hup r (hrefs' ▸ hr))
  · intro _
    rw [hops']
    exact h.busy hup
  · unfold CacheState.Ready
    rw [hpos']
    trivial
  · intro j hj
    rw [(hsame j).1]
    exact h.real j (hvalid' j ▸ hj)
  · intro x hx
    obtain ⟨j, hjdev, hjblock, hjvalid⟩ := h.kept x (by
      rw [hsplit]
      exact List.mem_cons_of_mem blk hx)
    exact ⟨j, (hsame j).1.trans hjdev, (hsame j).2.trans hjblock, (hvalid' j).trans hjvalid⟩
  · intro j hj hjhome hclean
    rw [hspec', (hsame j).2]
    by_cases e : j = b
    · subst e
      rw [hself, hbblock]
      exact hdata
    · rw [hother j e] at hj hjhome ⊢
      exact h.fresh j hj hjhome fun r hr => hclean r (hrefs' ▸ hr)
  · intro x hx hxnot
    rw [hdisk', hspec']
    by_cases e : x = blk
    · rw [e, update_self, hdata]
    rw [update_of_ne e]
    apply h.home x hx
    rw [hsplit]
    intro hm
    rcases List.mem_cons.1 hm with e' | hm
    · exact e e'
    · exact hxnot hm
  · intro j hj hjlog
    have e : j ≠ b := by
      intro e
      rw [(hsame j).2, e, hbblock] at hjlog
      exact hjlog hhome
    rw [hother j e] at hj hjlog ⊢
    have hneblk : (s.buf j).blockno ≠ blk := fun e' => hjlog (e' ▸ hhome)
    rw [hdisk', update_of_ne hneblk]
    exact h.logBuf j hj hjlog
  · rw [hlh']
    exact h.nodup
  · rw [hlh']
    exact h.size
  · rw [hlh']
    exact h.logged
  · intro t x ht hx
    rw [hlh'] at hx
    have htlen : t < s.lh.length := (List.getElem?_eq_some_iff.1 hx).1
    have hneblk : start + t + 1 ≠ blk := by
      intro e
      have hlog : ¬ IsHome start (start + t + 1) := not_isHome_log (by have := h.size; omega)
      exact hlog (e ▸ hhome)
    rw [hdisk', hspec', update_of_ne hneblk]
    apply h.copied t x _ hx
    rw [hpos]
    exact htlen

end

/-- `log.lh.n = 0` after the last block is installed. -/
theorem installed (hpos : s.pos = .pair .install s.lh.length .getLog) :
    CacheInv start { s with lh := [], pos := .head true .get } := by
  have hpend : s.pending = [] := by
    unfold CacheState.pending
    rw [hpos]
    exact List.drop_length
  have hup : s.pos ≠ .up := by simp [hpos]
  constructor
  · intro i
    have hblocks : SameBlocks s { s with lh := [], pos := .head true .get } := SameBlocks.of_eq rfl
    have hsame : ({ s with lh := [], pos := .head true .get } : CacheState ι).pending =
        s.pending := hpend.symm
    rw [pin_congr hblocks hsame i]
    exact h.count i
  · exact h.asked
  · exact h.users
  · exact h.owners
  · exact h.lockOne
  · exact h.dirty
  · exact fun _ => h.busy hup
  · trivial
  · exact h.real
  · intro b hb
    cases hb
  · exact h.fresh
  · intro b hb _
    exact h.home b hb (by rw [hpend]; simp)
  · exact h.logBuf
  · exact List.nodup_nil
  · exact Nat.zero_le _
  · intro b hb
    cases hb
  · intro t b ht
    cases ht

/-- `acquiresleep`. -/
theorem lock (href : s.refs = r ::ₘ refs) (hr : r.pos = .waiting)
    (hfree : ∀ r' ∈ refs, r'.buf = r.buf → ∀ d, r'.pos ≠ .locked d) :
    CacheInv start { s with refs := r.to (.locked false) ::ₘ refs } := by
  refine h.of_to (k := s.pos) href (by simp [hr]) (by simp) ?_ (fun hk => hk) rfl le_rfl ?_
  · intro i
    have hone := h.lockOne i
    rw [href, Multiset.countP_cons] at hone
    rw [Multiset.countP_cons]
    by_cases e : r.buf = i
    · -- nobody else has the lock
      have hnone : refs.countP (fun r => r.buf = i ∧ r.pos.isLocked) = 0 := by
        rw [Multiset.countP_eq_zero]
        rintro r' hr' ⟨ebuf, hlocked⟩
        cases hpos : r'.pos with
        | locked d => exact hfree r' hr' (ebuf.trans e.symm) d hpos
        | _ => simp [hpos] at hlocked
      simp [hnone, e]
    · simpa [e] using hone
  · exact ready_mono h.ready rfl rfl fun _ _ hrefers => refers_to href rfl (by simp) hrefers

/-- Giving up a lock leaves one lock fewer. -/
theorem lockOne_dropping (href : s.refs = r ::ₘ refs) (i : Idx) :
    (r.to .dropping ::ₘ refs).countP (fun r => r.buf = i ∧ r.pos.isLocked) ≤ 1 := by
  have hone := h.lockOne i
  rw [href, Multiset.countP_cons] at hone
  rw [Multiset.countP_cons]
  simp
  omega

/-- `releasesleep` by a user of the cache. -/
theorem unlock (href : s.refs = r ::ₘ refs) (hr : r.pos = .locked false)
    (howner : r.owner ≠ .commit) : CacheInv start { s with refs := r.to .dropping ::ₘ refs } := by
  refine h.of_to (k := s.pos) href (by simp [hr]) (by simp) (h.lockOne_dropping href)
    (fun hk => hk) rfl le_rfl ?_
  refine ready_mono h.ready rfl rfl fun _ _ hrefers => refers_to href rfl ?_ hrefers
  exact fun e => absurd e howner

end

/-- What is pending and copied does not change while `commit` lets go of buffers. -/
theorem release_pending {k k' : CommitPos} (lh : List Nat) (hk : k.release = some (i, k')) :
    k'.pending lh = k.pending lh ∧ k'.copied lh = k.copied lh ∧ k ≠ .up ∧
      ∀ (start : Nat) (ι : Type) (s : CacheState ι), s.pos = k' → s.Ready start := by
  cases k with
  | pair phase tail p =>
    cases p with
    | first x y =>
      cases hk
      refine ⟨?_, ?_, by simp, fun _ _ s hs => by simp [CacheState.Ready, hs]⟩
      · cases phase <;> rfl
      · cases phase <;> rfl
    | second y =>
      cases hk
      refine ⟨?_, ?_, by simp, fun _ _ s hs => by simp [CacheState.Ready, hs]⟩
      · cases phase <;> rfl
      · cases phase <;> rfl
    | _ => cases hk
  | head erase p =>
    cases p with
    | rel a =>
      cases hk
      refine ⟨?_, ?_, by simp, fun _ _ s hs => by simp [CacheState.Ready, hs]⟩
      · cases erase <;> rfl
      · cases erase <;> rfl
    | _ => cases hk
  | _ => cases hk

end CacheInv

end Kus.Bio
