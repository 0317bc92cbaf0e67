import KusOs.CacheSteps

/-!
# The cache and the log refine an array of blocks

* `CacheInv.step` — **every step of the file system's uses keeps the invariant**;
* `cache_refines` — **the refinement**;
* `log_block_differs` — a reader of a block of the log area sees what `commit` has
  copied there, which nobody logged for that block.
-/

namespace Kus.Bio

open Transition LinkedRing

variable {ι : Type}

namespace CacheInv

variable {start : Nat} {s : CacheState ι}

/-- **Every step of the file system's uses keeps the invariant.** -/
theorem step {s' : CacheState ι} {a : CacheEvent ι} (h : CacheInv start s)
    (hshape : CacheShape s) (houts : s.outstanding = Multiset.card s.ops)
    (hstep : CacheStep start s a s') (huse : HomeUse start s a) : CacheInv start s' := by
  -- a use by the file system is of a home block of the log's device
  have hhome : ∀ {o : Owner ι} {dev b : Nat} {i : Idx}, s.Asks start dev b o →
      HomeUse start s (.bget o dev b i) → dev = ROOTDEV ∧ (o ≠ .commit → IsHome start b) := by
    intro o dev b i hask huse
    cases o with
    | commit => exact ⟨hask.1, fun hne => absurd rfl hne⟩
    | op p => exact ⟨huse.1, fun _ => huse.2⟩
    | reader => exact ⟨huse.1, fun _ => huse.2⟩
  cases hstep with
  | @beginOp p hup hp hroom =>
    refine h.of_ops (k := s.pos) ?_ (fun hk => absurd hup hk) rfl le_rfl h.ready
    intro r hr q hq
    obtain ⟨blocks, hmem⟩ := h.owners r hr q hq
    exact ⟨blocks, Multiset.mem_cons_of_mem hmem⟩
  | @hit o dev b i hask hcached =>
    obtain ⟨hdev, hb⟩ := hhome hask huse
    exact h.hit hask hcached hdev hb
  | @recycle o dev b i hask hcached hvictim =>
    obtain ⟨rfl, hb⟩ := hhome hask huse
    exact h.recycle hshape hask hcached hvictim hb
  | noBuffers hask hcached hvictim => exact h.of_ops h.owners h.busy rfl le_rfl h.ready
  | lock href hr hfree => exact h.lock href hr hfree
  | fill href hr hvalid => exact h.fill hshape href hvalid
  | @modify r p d data refs href hr howner hvalid => exact h.modify data href hr howner hvalid
  | logWrite href hr howner hvalid hop hroom hout =>
    exact h.logWrite hshape href hr howner hvalid hop hroom
  | tooBig href hr howner hvalid hfull => exact h.of_ops h.owners h.busy rfl le_rfl h.ready
  | outsideTrans href hr howner hvalid hroom hout =>
    exact h.of_ops h.owners h.busy rfl le_rfl h.ready
  | unlock href hr howner hvalid => exact h.unlock href hr howner
  | @commitUnlock r k refs href hr howner hk hdone =>
    obtain ⟨hpend, hcop, hup, hready⟩ := release_pending s.lh hk
    exact h.of_to href (by simp [hr]) (by simp) (h.lockOne_dropping href) (fun _ => hup) hpend
      hcop.le (hready start ι _ rfl)
  | drop href hr => exact h.drop href hr
  | @endOp p blocks ops hop hrefs hup hout =>
    refine h.of_ops (k := s.pos) ?_ (fun hk => absurd hup hk) rfl le_rfl h.ready
    intro r hr q hq
    obtain ⟨bl, hmem⟩ := h.owners r hr q hq
    rw [hop] at hmem
    rcases Multiset.mem_cons.1 hmem with e | hmem
    · obtain ⟨rfl, _⟩ := Prod.mk.inj e
      exact absurd hq (hrefs r hr)
    · exact ⟨bl, hmem⟩
  | @endLast p blocks ops hop hrefs hup hout =>
    have hnone : ops = 0 := by
      rw [hop, Multiset.card_cons] at houts
      apply Multiset.card_eq_zero.1
      omega
    refine h.of_ops ?_ (fun _ => hnone) ?_ ?_ ?_
    · intro r hr q hq
      obtain ⟨bl, hmem⟩ := h.owners r hr q hq
      rw [hop, hnone] at hmem
      rcases Multiset.mem_cons.1 hmem with e | hmem
      · obtain ⟨rfl, _⟩ := Prod.mk.inj e
        exact absurd hq (hrefs r hr)
      · simp at hmem
    · rw [hup]
      split <;> rfl
    · split <;> exact Nat.zero_le _
    · split <;> trivial
  | endPanic hop hpos => exact h.of_ops h.owners h.busy rfl le_rfl h.ready
  | copyToLog hpos ha hva hb hvb => exact h.copyToLog hshape hpos hva hvb
  | copyHome hpos ha hva hb hvb => exact h.copyHome hshape hpos hva hvb
  | @nextRound phase tail hpos hdone =>
    refine h.of_pos (by simp [hpos]) ?_ ?_ trivial
    · rw [hpos]
      cases phase <;> rfl
    · rw [hpos]
      cases phase <;> exact le_rfl
  | logWritten hpos =>
    refine h.of_pos (by simp [hpos]) ?_ ?_ trivial
    · rw [hpos]
      rfl
    · rw [hpos]
      exact le_rfl
  | installed hpos => exact h.installed hpos
  | writeHead hpos ha hva => exact h.writeHead hshape _ hpos hva
  | @headDone erase hpos hdone =>
    cases erase with
    | true =>
      refine h.of_pos (by simp [hpos]) ?_ (Nat.zero_le _) trivial
      rw [hpos]
      rfl
    | false =>
      refine h.of_pos (by simp [hpos]) ?_ ?_ trivial
      · rw [hpos]
        rfl
      · rw [hpos]
        exact le_rfl
  | finish hpos =>
    refine h.of_pos (fun hk => absurd rfl hk) ?_ (Nat.zero_le _) trivial
    rw [hpos]
    rfl

end CacheInv

variable {s : CacheState ι} {base : Nat → Block} {start : Nat}

/-- `log.outstanding` counts the operations begun. -/
theorem outstanding_step {s' : CacheState ι} {a : CacheEvent ι}
    (houts : s.outstanding = Multiset.card s.ops) (hstep : CacheStep start s a s') :
    s'.outstanding = Multiset.card s'.ops := by
  cases hstep with
  | beginOp hup hp hroom => simp [houts]
  | logWrite href hr howner hvalid hop hroom hout => simpa [hop] using houts
  | endOp hop hrefs hup hout => simp [houts, hop]
  | endLast hop hrefs hup hout => simp [houts, hop]
  | _ => exact houts

theorem outstanding_of_reachable
    (h : Reachable (cacheSystem start base) s) : s.outstanding = Multiset.card s.ops := by
  apply h.invariant (P := fun s => s.outstanding = Multiset.card s.ops)
  · intro s hinit
    rw [hinit]
    rfl
  · intro s a s' _ houts hstep
    exact outstanding_step houts hstep.2

theorem CacheInv.emptyCache (start : Nat) (base : Nat → Block) :
    CacheInv start (emptyCache base : CacheState ι) := by
  have hpin : ∀ i, ¬ (Bio.emptyCache base : CacheState ι).Pinned i := by
    rintro i ⟨hdev, _⟩
    cases hdev
  constructor
  · intro i
    rw [if_neg (hpin i)]
    rfl
  · intro r hr
    simp [Bio.emptyCache] at hr
  · intro r hr
    simp [Bio.emptyCache] at hr
  · intro r hr
    simp [Bio.emptyCache] at hr
  · intro i
    exact Nat.zero_le _
  · intro r hr
    simp [Bio.emptyCache] at hr
  · exact fun hk => absurd rfl hk
  · trivial
  · intro i hvalid
    cases hvalid
  · intro b hb
    cases hb
  · intro i hvalid
    cases hvalid
  · exact fun b _ _ => rfl
  · intro i hvalid
    cases hvalid
  · exact List.nodup_nil
  · exact Nat.zero_le _
  · intro b hb
    cases hb
  · intro t b ht
    cases ht

/-- **The invariant holds in every run of the file system's uses.** -/
theorem CacheInv.of_reachable
    (h : Reachable ((cacheSystem start base).restrict (HomeUse start)) s) : CacheInv start s := by
  apply h.invariant (P := CacheInv start)
  · intro s hinit
    rw [hinit]
    exact CacheInv.emptyCache start base
  · intro s a s' hreach hinv hstep
    have hshape := CacheShape.of_reachable hreach.of_restrict
    have houts := outstanding_of_reachable hreach.of_restrict
    exact hinv.step hshape houts hstep.1.2 hstep.2

theorem reach_step {s' : CacheState ι} {a : CacheEvent ι}
    (h : Reachable (cacheSystem start base) s) (hpanic : s.panic = none)
    (hstep : CacheStep start s a s') : Reachable (cacheSystem start base) s' :=
  h.next ⟨hpanic, hstep⟩

theorem mem_of_cons {α : Type} {m : Multiset α} (a : α) (rest : Multiset α)
    (h : m = a ::ₘ rest) : a ∈ m := by
  rw [h]
  exact Multiset.mem_cons_self a rest

/-- A disk of zeroes. -/
def zeroDisk : Nat → Block := fun _ _ => 0

/-- **The cache and the log refine an array of blocks.**  In every run the LRU
list is a ring of all buffers and no block of a device is cached twice.  If the
file system's uses are of the log's device outside the log area, then whoever
has a buffer locked after `bread`, and has not changed it since its last
`log_write`, sees the contents last logged for the block it asked for, or the
first contents of the disk; and a block that is logged and not yet installed is
in a valid buffer that `bget` does not recycle. -/
theorem cache_refines (start : Nat) (base : Nat → Block) :
    (∀ s : CacheState ι, Reachable (cacheSystem start base) s →
      (∃ order : List Idx, order.Nodup ∧ (∀ i, i ∈ order) ∧
        IsRing s.links.1 s.links.2 none (order.map some)) ∧
      ∀ i j, (s.buf i).dev ≠ 0 → (s.buf i).dev = (s.buf j).dev →
        (s.buf i).blockno = (s.buf j).blockno → i = j) ∧
    ∀ s : CacheState ι, Reachable ((cacheSystem start base).restrict (HomeUse start)) s →
      (∀ r ∈ s.refs, r.owner ≠ .commit → r.pos = .locked false → (s.buf r.buf).valid = true →
        (s.buf r.buf).dev = r.dev ∧ (s.buf r.buf).blockno = r.blockno ∧
        (s.buf r.buf).data = s.spec r.blockno) ∧
      ∀ b ∈ s.pending, ∃ i, (s.buf i).dev = ROOTDEV ∧ (s.buf i).blockno = b ∧
        (s.buf i).valid = true ∧ 0 < (s.buf i).refcnt ∧ s.victim ≠ some i := by
  constructor
  · intro s hreach
    have hshape := CacheShape.of_reachable hreach
    obtain ⟨order, hring, hall⟩ := hshape.ring
    exact ⟨⟨order, IsRing.nodup_of_map hring, hall, hring⟩, hshape.unique⟩
  · intro s hreach
    have hinv := CacheInv.of_reachable hreach
    constructor
    · intro r hr howner hpos hvalid
      obtain ⟨hrdev, hdev, hblock⟩ := hinv.asked r hr
      refine ⟨hdev.trans hrdev.symm, hblock, ?_⟩
      rw [← hblock]
      apply hinv.fresh r.buf hvalid
      · rw [hblock]
        exact hinv.users r hr howner
      · -- another reference cannot have the buffer locked, let alone dirty
        intro r' hr' ebuf hdirty
        have hone := hinv.lockOne r.buf
        obtain ⟨rest, hrest⟩ := Multiset.exists_cons_of_mem hr
        rw [hrest, Multiset.countP_cons] at hone
        have hr'' : r' ∈ rest := by
          rw [hrest] at hr'
          rcases Multiset.mem_cons.1 hr' with e | hr'
          · rw [e, hpos] at hdirty
            cases hdirty
          · exact hr'
        have hother : 0 < rest.countP (fun x => x.buf = r.buf ∧ x.pos.isLocked) :=
          Multiset.countP_pos.2 ⟨r', hr'', ebuf, by rw [hdirty]; rfl⟩
        have hself : (if r.buf = r.buf ∧ r.pos.isLocked then 1 else 0) = 1 :=
          if_pos ⟨rfl, by rw [hpos]; rfl⟩
        omega
    · intro b hb
      obtain ⟨i, hdev, hblock, hvalid⟩ := hinv.kept b hb
      have hpin : s.Pinned i := ⟨hdev, hblock ▸ hb⟩
      have hcount := hinv.count i
      rw [if_pos hpin] at hcount
      have hpos : 0 < (s.buf i).refcnt := by omega
      refine ⟨i, hdev, hblock, hvalid, hpos, ?_⟩
      intro hvictim
      have hzero := victim_eq_some hvictim
      omega

/-- A reader of block `40` of a fresh disk. -/
theorem reader_reaches : ∃ s : CacheState Unit,
    Reachable ((cacheSystem 2 zeroDisk).restrict (HomeUse 2)) s ∧
    (s.buf 0).valid = true ∧ s.refs = {⟨.reader, 1, 40, 0, .locked false⟩} := by
  have h₀ : Reachable ((cacheSystem 2 zeroDisk).restrict (HomeUse 2))
      (emptyCache zeroDisk : CacheState Unit) := .start rfl
  have hhome : IsHome 2 40 := .inr (by decide)
  have h₁ := h₀.next ⟨⟨rfl, @CacheStep.recycle Unit 2 _ .reader 1 40 0 trivial
    (by decide +kernel) (by decide +kernel)⟩, rfl, hhome⟩
  have h₂ := h₁.next ⟨⟨rfl, @CacheStep.lock Unit 2 _ ⟨.reader, 1, 40, 0, .waiting⟩ 0 rfl rfl
    (by simp)⟩, trivial⟩
  have h₃ := h₂.next ⟨⟨rfl, @CacheStep.fill Unit 2 _ ⟨.reader, 1, 40, 0, .locked false⟩ false
    (mem_of_cons _ 0 rfl) rfl rfl⟩, trivial⟩
  exact ⟨_, h₃, rfl, rfl⟩

theorem cache_refines_reader : ∃ s : CacheState Unit,
    Reachable ((cacheSystem 2 zeroDisk).restrict (HomeUse 2)) s ∧
    (s.buf 0).data = s.spec 40 := by
  obtain ⟨s, hreach, hvalid, hrefs⟩ := reader_reaches
  have hread := ((cache_refines 2 zeroDisk).2 s hreach).1 ⟨.reader, 1, 40, 0, .locked false⟩
    (mem_of_cons _ 0 hrefs) (by simp) rfl hvalid
  exact ⟨s, hreach, hread.2.2⟩

/-- With the log at block `2`, an operation logs block `40` full of ones and
ends, `commit` copies it to the first log block, `3`, and a reader `bread`s that
block.  Nobody has logged anything for block `3`, whose first contents were
zeroes; the reader sees ones. -/
theorem log_block_differs : ∃ s : CacheState Unit, Reachable (cacheSystem 2 zeroDisk) s ∧
    ∃ r ∈ s.refs, r.owner = .reader ∧ r.pos = .locked false ∧ (s.buf r.buf).valid = true ∧
      (s.buf r.buf).dev = r.dev ∧ (s.buf r.buf).blockno = r.blockno ∧ r.blockno = 3 ∧
      s.spec 3 = zeroDisk 3 ∧ (s.buf r.buf).data ≠ s.spec r.blockno := by
  have h₀ : Reachable (cacheSystem 2 zeroDisk) (emptyCache zeroDisk : CacheState Unit) := .start rfl
  -- the operation
  have h₁ := reach_step h₀ rfl (.beginOp (p := ()) rfl (by simp [emptyCache]) (by decide))
  have h₂ := reach_step h₁ rfl (@CacheStep.recycle Unit 2 _ (.op ()) 1 40 0
    ⟨[], by simp⟩ (by decide +kernel) (by decide +kernel))
  have h₃ := reach_step h₂ rfl
    (@CacheStep.lock Unit 2 _ ⟨.op (), 1, 40, 0, .waiting⟩ 0 rfl rfl (by simp))
  have h₄ := reach_step h₃ rfl
    (@CacheStep.fill Unit 2 _ ⟨.op (), 1, 40, 0, .locked false⟩ false
      (mem_of_cons _ 0 rfl) rfl rfl)
  have h₅ := reach_step h₄ rfl (@CacheStep.modify Unit 2 _ ⟨.op (), 1, 40, 0, .locked false⟩ ()
    false (fun _ => 1) 0 rfl rfl rfl rfl)
  have h₆ := reach_step h₅ rfl (@CacheStep.logWrite Unit 2 _ ⟨.op (), 1, 40, 0, .locked true⟩ ()
    true [] 0 0 rfl rfl rfl rfl rfl (by decide) (by decide))
  have h₇ := reach_step h₆ rfl
    (@CacheStep.unlock Unit 2 _ ⟨.op (), 1, 40, 0, .locked false⟩ 0 rfl rfl (by simp) rfl)
  have h₈ := reach_step h₇ rfl (@CacheStep.drop Unit 2 _ ⟨.op (), 1, 40, 0, .dropping⟩ 0 rfl rfl)
  have h₉ := reach_step h₈ rfl (@CacheStep.endLast Unit 2 _ () [40] 0 rfl (by simp) rfl rfl)
  -- the first round of `write_log`
  have h₁₀ := reach_step h₉ rfl (@CacheStep.recycle Unit 2 _ .commit 1 3 1
    ⟨rfl, rfl, by simp⟩ (by decide +kernel) (by decide +kernel))
  have h₁₁ := reach_step h₁₀ rfl
    (@CacheStep.lock Unit 2 _ ⟨.commit, 1, 3, 1, .waiting⟩ 0 rfl rfl (by simp))
  have h₁₂ := reach_step h₁₁ rfl
    (@CacheStep.fill Unit 2 _ ⟨.commit, 1, 3, 1, .locked false⟩ false
      (mem_of_cons _ 0 rfl) rfl rfl)
  have hlog : ∀ r ∈ ({⟨.commit, 1, 3, 1, .locked false⟩} : Multiset (Ref Unit)),
      r = ⟨.commit, 1, 3, 1, .locked false⟩ := fun r hr => Multiset.mem_singleton.1 hr
  have h₁₃ := reach_step h₁₂ rfl (@CacheStep.hit Unit 2 _ .commit 1 40 0
    ⟨rfl, rfl, fun r hr _ => by rw [hlog r hr]; exact ⟨rfl, rfl⟩⟩ (by decide +kernel))
  have h₁₄ := reach_step h₁₃ rfl (@CacheStep.lock Unit 2 _ ⟨.commit, 1, 40, 0, .waiting⟩
    {⟨.commit, 1, 3, 1, .locked false⟩} rfl rfl
    (fun r hr e => by rw [hlog r hr] at e; cases e))
  have h₁₅ := reach_step h₁₄ rfl (@CacheStep.copyToLog Unit 2 _ 0 1 0 rfl
    ⟨⟨.commit, 1, 3, 1, .locked false⟩,
      Multiset.mem_cons_of_mem (Multiset.mem_singleton_self _), rfl, rfl, rfl⟩ rfl
    ⟨⟨.commit, 1, 40, 0, .locked false⟩,
      mem_of_cons _ {⟨.commit, 1, 3, 1, .locked false⟩} rfl, rfl, rfl, rfl⟩ rfl)
  have h₁₆ := reach_step h₁₅ rfl (@CacheStep.commitUnlock Unit 2 _
    ⟨.commit, 1, 40, 0, .locked false⟩ _ {⟨.commit, 1, 3, 1, .locked false⟩} rfl rfl rfl rfl
    (fun r hr _ => by rw [hlog r hr]; simp))
  have h₁₇ := reach_step h₁₆ rfl (@CacheStep.drop Unit 2 _ ⟨.commit, 1, 40, 0, .dropping⟩
    {⟨.commit, 1, 3, 1, .locked false⟩} rfl rfl)
  have h₁₈ := reach_step h₁₇ rfl (@CacheStep.commitUnlock Unit 2 _
    ⟨.commit, 1, 3, 1, .locked false⟩ _ 0 rfl rfl rfl rfl (by simp))
  have h₁₉ := reach_step h₁₈ rfl (@CacheStep.drop Unit 2 _ ⟨.commit, 1, 3, 1, .dropping⟩ 0 rfl rfl)
  -- the reader
  have h₂₀ := reach_step h₁₉ rfl (@CacheStep.hit Unit 2 _ .reader 1 3 1 trivial (by decide +kernel))
  have h₂₁ := reach_step h₂₀ rfl
    (@CacheStep.lock Unit 2 _ ⟨.reader, 1, 3, 1, .waiting⟩ 0 rfl rfl (by simp))
  refine ⟨_, h₂₁, ⟨.reader, 1, 3, 1, .locked false⟩, mem_of_cons _ 0 rfl, rfl, rfl, rfl,
    rfl, rfl, rfl, rfl, ?_⟩
  intro hdata
  have hone : (1 : Nat) = 0 := congrFun hdata 0
  cases hone
end Kus.Bio
