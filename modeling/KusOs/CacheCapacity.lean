import Mathlib
import KusOs.CacheRefines

/-!
# Capacity of the log and the cache

`begin_op` lets an operation in only if the log has room for `MAXOPBLOCKS` more
blocks for each operation outstanding.  For operations that log at most that
many distinct blocks each:

* `Reserved` — what is logged and what is still reserved fits the log;
* `Spare` — a condition on runs: pinned buffers and buffers of readers outside an
  operation leave one buffer over;
* `capacity` — **with `Spare` no panic of `log_write`, of `end_op` or of a `bget`
  by `commit` is reachable**, and all but two of them are unreachable without it;
* `full_log_panics` — the two that are left: three operations may fill all
  `LOGBLOCKS` slots, after which logging a block again panics, and so does the
  first `bread` of `commit`, for all `NBUF` buffers are pinned.
-/

namespace Kus.Bio

open Transition LinkedRing

variable {ι : Type}

attribute [local simp] emptyCache CommitPos.wants

/-- An operation logs at most `MAXOPBLOCKS` distinct blocks. -/
def BracketLimit (s : CacheState ι) : CacheEvent ι → Prop
  | .logWrite p i => ∀ blocks, (p, blocks) ∈ s.ops →
      (s.buf i).blockno ∈ blocks ∨ blocks.length < MAXOPBLOCKS
  | _ => True

/-- What the file system does. -/
def FsUse (start : Nat) (s : CacheState ι) (a : CacheEvent ι) : Prop :=
  HomeUse start s a ∧ BracketLimit s a

/-- Is the reference held by a reader outside an operation? -/
def Owner.isReader : Owner ι → Bool
  | .reader => true
  | _ => false

/-- The buffers that are pinned or referenced from outside the operations. -/
def CacheState.taken (s : CacheState ι) : Finset Idx :=
  Finset.univ.filter fun i =>
    s.Pinned i ∨ 0 < s.refs.countP fun r => r.buf = i ∧ r.owner.isReader = true

theorem CacheState.mem_taken {s : CacheState ι} {i : Idx} :
    i ∈ s.taken ↔ s.Pinned i ∨ ∃ r ∈ s.refs, r.buf = i ∧ r.owner.isReader = true := by
  simp [CacheState.taken, Multiset.countP_pos]

/-- Logging a block, and reading one outside an operation, leave a buffer over. -/
def Spare (s : CacheState ι) : CacheEvent ι → Prop
  | .bget .reader _ _ i | .logWrite _ i => (insert i s.taken).card < NBUF
  | _ => True

/-- The blocks the outstanding operations may still log. -/
def CacheState.unused (s : CacheState ι) : Nat :=
  (s.ops.map fun o => MAXOPBLOCKS - o.2.length).sum

theorem CacheState.unused_cons {s : CacheState ι} {p : ι} {blocks : List Nat}
    {ops : Multiset (ι × List Nat)} (hop : s.ops = (p, blocks) ::ₘ ops) :
    s.unused = (MAXOPBLOCKS - blocks.length) +
      (ops.map fun o => MAXOPBLOCKS - o.2.length).sum := by
  rw [CacheState.unused, hop, Multiset.map_cons, Multiset.sum_cons]

/-- The log has room for what the operations have reserved. -/
structure Reserved (s : CacheState ι) : Prop where
  room : s.lh.length + s.unused ≤ LOGBLOCKS
  limit : ∀ o ∈ s.ops, o.2.length ≤ MAXOPBLOCKS
  logged : ∀ o ∈ s.ops, ∀ b ∈ o.2, b ∈ s.lh

namespace Reserved

variable {start : Nat} {s s' : CacheState ι}

theorem of_same (h : Reserved s) (hlh : s'.lh = s.lh) (hops : s'.ops = s.ops) : Reserved s' := by
  constructor
  · unfold CacheState.unused
    rw [hlh, hops]
    exact h.room
  · rw [hops]
    exact h.limit
  · rw [hlh, hops]
    exact h.logged

/-- With no operation outstanding there is nothing reserved. -/
theorem of_none (hops : s.ops = 0) (hlh : s.lh.length ≤ LOGBLOCKS) : Reserved s := by
  constructor
  · simpa [CacheState.unused, hops] using hlh
  · simp [hops]
  · simp [hops]

theorem beginOp (h : Reserved s) (houts : s.outstanding = Multiset.card s.ops) {p : ι}
    (hroom : s.lh.length + (s.outstanding + 1) * MAXOPBLOCKS ≤ LOGBLOCKS) :
    Reserved { s with outstanding := s.outstanding + 1, ops := (p, []) ::ₘ s.ops } := by
  -- an operation has at most `MAXOPBLOCKS` unused
  have hle : s.unused ≤ Multiset.card s.ops * MAXOPBLOCKS := by
    have hsum := Multiset.sum_le_card_nsmul (s.ops.map fun o => MAXOPBLOCKS - o.2.length)
      MAXOPBLOCKS (by
        intro x hx
        obtain ⟨o, _, rfl⟩ := Multiset.mem_map.1 hx
        exact Nat.sub_le _ _)
    simpa [CacheState.unused] using hsum
  constructor
  · rw [CacheState.unused_cons rfl]
    rw [houts, Nat.add_mul] at hroom
    change s.lh.length + (MAXOPBLOCKS - 0 + s.unused) ≤ LOGBLOCKS
    omega
  · intro o ho
    rcases Multiset.mem_cons.1 ho with rfl | ho
    · exact Nat.zero_le _
    · exact h.limit o ho
  · intro o ho b hb
    rcases Multiset.mem_cons.1 ho with rfl | ho
    · cases hb
    · exact h.logged o ho b hb

section

variable {p : ι} {blocks : List Nat} {ops : Multiset (ι × List Nat)} (h : Reserved s)
  (hop : s.ops = (p, blocks) ::ₘ ops)
include h hop

theorem endOp {out : Nat} {k : CommitPos} :
    Reserved { s with outstanding := out, ops := ops, pos := k } := by
  constructor
  · have hroom := h.room
    rw [CacheState.unused_cons hop] at hroom
    change s.lh.length + (ops.map fun o => MAXOPBLOCKS - o.2.length).sum ≤ LOGBLOCKS
    omega
  · intro o ho
    apply h.limit o
    rw [hop]
    exact Multiset.mem_cons_of_mem ho
  · intro o ho
    apply h.logged o
    rw [hop]
    exact Multiset.mem_cons_of_mem ho

theorem logWrite {i : Idx} {refs : Multiset (Ref ι)}
    (hlimit : (s.buf i).blockno ∈ blocks ∨ blocks.length < MAXOPBLOCKS) :
    Reserved { s.logWrite i p blocks ops with refs := refs } := by
  have hmine : (p, blocks) ∈ s.ops := by
    rw [hop]
    exact Multiset.mem_cons_self _ _
  have hothers : ∀ o ∈ ops, o ∈ s.ops := fun o ho => by
    rw [hop]
    exact Multiset.mem_cons_of_mem ho
  have hroom := h.room
  rw [CacheState.unused_cons hop] at hroom
  generalize hb : (s.buf i).blockno = b at hlimit
  have hsub : ∀ x ∈ s.lh, x ∈ (if b ∈ s.lh then s.lh else s.lh ++ [b]) := by
    intro x hx
    split
    · exact hx
    · exact List.mem_append_left _ hx
  have hself : b ∈ (if b ∈ s.lh then s.lh else s.lh ++ [b]) := by
    split
    · assumption
    · simp
  constructor
  · rw [CacheState.unused_cons rfl]
    simp only [CacheState.logWrite, hb]
    by_cases hin : b ∈ blocks
    · have hlh : b ∈ s.lh := h.logged _ hmine b hin
      simp only [if_pos hin, if_pos hlh]
      exact hroom
    have hlt : blocks.length < MAXOPBLOCKS := by
      rcases hlimit with hm | hlt
      · exact absurd hm hin
      · exact hlt
    by_cases hlh : b ∈ s.lh
    · simp only [if_neg hin, if_pos hlh, List.length_append, List.length_singleton]
      omega
    · simp only [if_neg hin, if_neg hlh, List.length_append, List.length_singleton]
      omega
  · intro o ho
    simp only [CacheState.logWrite, hb] at ho
    rcases Multiset.mem_cons.1 ho with rfl | ho
    · show (if b ∈ blocks then blocks else blocks ++ [b]).length ≤ MAXOPBLOCKS
      by_cases hin : b ∈ blocks
      · rw [if_pos hin]
        exact h.limit _ hmine
      rw [if_neg hin, List.length_append, List.length_singleton]
      rcases hlimit with hm | hlt
      · exact absurd hm hin
      · exact hlt
    · exact h.limit o (hothers o ho)
  · intro o ho x hx
    simp only [CacheState.logWrite, hb] at ho ⊢
    rcases Multiset.mem_cons.1 ho with rfl | ho
    · have hx' : x ∈ blocks ∨ x = b := by
        by_cases hin : b ∈ blocks
        · rw [if_pos hin] at hx
          exact .inl hx
        · rw [if_neg hin] at hx
          simpa using hx
      rcases hx' with hx' | rfl
      · exact hsub x (h.logged _ hmine x hx')
      · exact hself
    · exact hsub x (h.logged o (hothers o ho) x hx)

end

/-- **Every step keeps the reservations.** -/
theorem step {a : CacheEvent ι} (h : Reserved s) (hinv : CacheInv start s)
    (houts : s.outstanding = Multiset.card s.ops) (hstep : CacheStep start s a s')
    (hlimit : BracketLimit s a) : Reserved s' := by
  cases hstep with
  | beginOp hup hp hroom => exact h.beginOp houts hroom
  | @logWrite r p d blocks refs ops href hr howner hvalid hop hroom hout =>
    apply h.logWrite hop
    apply hlimit
    rw [hop]
    exact Multiset.mem_cons_self _ _
  | endOp hop hrefs hup hout => exact h.endOp hop
  | endLast hop hrefs hup hout => exact h.endOp hop
  | installed hpos =>
    exact of_none (hinv.busy (by simp [hpos])) (Nat.zero_le _)
  | _ => exact h.of_same rfl rfl

theorem of_reachable {base : Nat → Block}
    (h : Reachable ((cacheSystem start base).restrict (FsUse start)) s) :
    Reserved s ∧ CacheInv start s := by
  apply h.invariant (P := fun s => Reserved s ∧ CacheInv start s)
  · intro s hinit
    rw [hinit]
    exact ⟨of_none rfl (Nat.zero_le _), CacheInv.emptyCache start base⟩
  · intro s a s' hreach ⟨hres, hinv⟩ hstep
    have hshape := CacheShape.of_reachable hreach.of_restrict
    have houts := outstanding_of_reachable hreach.of_restrict
    exact ⟨hres.step hinv houts hstep.1.2 hstep.2.2, hinv.step hshape houts hstep.1.2 hstep.2.1⟩

end Reserved

section Steps

variable {start : Nat} {s s' : CacheState ι} {a : CacheEvent ι}

/-- A step makes a reference in `bget` only. -/
theorem refs_step (hstep : CacheStep start s a s') (r' : Ref ι) (hr' : r' ∈ s'.refs) :
    (∃ r ∈ s.refs, r.owner = r'.owner ∧ r.buf = r'.buf) ∨
      ∃ dev b, a = .bget r'.owner dev b r'.buf := by
  have hmoved : ∀ {r : Ref ι} {refs : Multiset (Ref ι)} {pos : RefPos}, s.refs = r ::ₘ refs →
      r' ∈ r.to pos ::ₘ refs → ∃ r ∈ s.refs, r.owner = r'.owner ∧ r.buf = r'.buf := by
    intro r refs pos href hmem
    rw [href]
    rcases Multiset.mem_cons.1 hmem with rfl | hmem
    · exact ⟨r, Multiset.mem_cons_self r refs, rfl, rfl⟩
    · exact ⟨r', Multiset.mem_cons_of_mem hmem, rfl, rfl⟩
  have hbget : ∀ {o : Owner ι} {dev b : Nat} {i : Idx},
      r' ∈ (⟨o, dev, b, i, .waiting⟩ : Ref ι) ::ₘ s.refs →
      (∃ r ∈ s.refs, r.owner = r'.owner ∧ r.buf = r'.buf) ∨
        ∃ dev' b', CacheEvent.bget o dev b i = .bget r'.owner dev' b' r'.buf := by
    intro o dev b i hmem
    rcases Multiset.mem_cons.1 hmem with rfl | hmem
    · exact .inr ⟨dev, b, rfl⟩
    · exact .inl ⟨r', hmem, rfl, rfl⟩
  cases hstep with
  | hit hask hcached => exact hbget hr'
  | recycle hask hcached hvictim => exact hbget hr'
  | lock href hr hfree => exact .inl (hmoved href hr')
  | modify href hr howner hvalid => exact .inl (hmoved href hr')
  | logWrite href hr howner hvalid hop hroom hout => exact .inl (hmoved href hr')
  | unlock href hr howner hvalid => exact .inl (hmoved href hr')
  | commitUnlock href hr howner hk hdone => exact .inl (hmoved href hr')
  | drop href hr =>
    refine .inl ⟨r', ?_, rfl, rfl⟩
    rw [href]
    exact Multiset.mem_cons_of_mem hr'
  | _ => exact .inl ⟨r', hr', rfl, rfl⟩

/-- While an operation holds a reference, `commit` does not run. -/
theorem CacheInv.up_of_op (h : CacheInv start s) {r : Ref ι} {p : ι} (hr : r ∈ s.refs)
    (howner : r.owner = .op p) : s.pos = .up := by
  by_contra hpos
  obtain ⟨blocks, hmem⟩ := h.owners r hr p howner
  rw [h.busy hpos] at hmem
  simp at hmem

/-- A step adds to what is pending in `log_write` only. -/
theorem pending_step (h : CacheInv start s) (hstep : CacheStep start s a s') (b : Nat)
    (hb : b ∈ s'.pending) :
    b ∈ s.pending ∨ ∃ p i, a = .logWrite p i ∧ (s.buf i).dev = ROOTDEV ∧
      (s.buf i).blockno = b := by
  unfold CacheState.pending at hb ⊢
  cases hstep with
  | @hit o dev b' i hask hcached =>
    left
    rw [← (CacheInv.after_pending s i o).1]
    exact hb
  | @recycle o dev b' i hask hcached hvictim =>
    left
    rw [← (CacheInv.after_pending s i o).1]
    exact hb
  | @logWrite r p d blocks refs ops href hr howner hvalid hop hroom hout =>
    have hself : r ∈ s.refs := mem_of_cons r refs href
    have hup := h.up_of_op hself howner
    simp only [CacheState.logWrite, hup, CommitPos.pending] at hb ⊢
    by_cases hmem : (s.buf r.buf).blockno ∈ s.lh
    · rw [if_pos hmem] at hb
      exact .inl hb
    rw [if_neg hmem] at hb
    rcases List.mem_append.1 hb with hb | hb
    · exact .inl hb
    · exact .inr ⟨p, r.buf, rfl, (h.asked r hself).2.1, (List.mem_singleton.1 hb).symm⟩
  | @commitUnlock r k refs href hr howner hk hdone =>
    left
    rw [← (CacheInv.release_pending s.lh hk).1]
    exact hb
  | endLast hop hrefs hup hout =>
    left
    rw [hup]
    split at hb <;> exact hb
  | copyToLog hpos ha hva hb' hvb =>
    left
    rw [hpos]
    exact hb
  | @copyHome tail a' b' hpos ha hva hb' hvb =>
    left
    rw [hpos]
    exact (List.drop_sublist_drop_left s.lh (Nat.le_succ tail)).subset hb
  | @nextRound phase tail hpos hdone =>
    left
    rw [hpos]
    cases phase <;> exact hb
  | logWritten hpos =>
    left
    rw [hpos]
    exact hb
  | installed hpos => cases hb
  | writeHead hpos ha hva =>
    left
    rw [hpos]
    exact hb
  | @headDone erase hpos hdone =>
    left
    rw [hpos]
    cases erase <;> exact hb
  | finish hpos =>
    left
    rw [hpos]
    exact hb
  | _ => exact .inl hb

/-- A step takes a buffer in a `bget` of a reader and in `log_write` only. -/
theorem taken_step (h : CacheInv start s) (hshape : CacheShape s) (hstep : CacheStep start s a s')
    (j : Idx) (hj : j ∈ s'.taken) :
    j ∈ s.taken ∨ (∃ dev b, a = .bget .reader dev b j) ∨ ∃ p, a = .logWrite p j := by
  rcases CacheState.mem_taken.1 hj with hpin | ⟨r', hr', rfl, hreader⟩
  · have hsame : (SameBlocks s s') →
        j ∈ s.taken ∨ (∃ dev b, a = .bget .reader dev b j) ∨ ∃ p, a = .logWrite p j := by
      intro hsame
      have hdev : (s.buf j).dev = ROOTDEV := by
        rw [← (hsame j).1]
        exact hpin.1
      rcases pending_step h hstep _ hpin.2 with hb | ⟨p, i, ha, hi, hblock⟩
      · rw [(hsame j).2] at hb
        exact .inl (CacheState.mem_taken.2 (.inl ⟨hdev, hb⟩))
      rw [(hsame j).2] at hblock
      have e : i = j := CacheInv.same_block hshape hi hdev hblock
      exact .inr (.inr ⟨p, e ▸ ha⟩)
    rcases SameBlocks.of_step hstep with ⟨_, hblocks⟩ | ⟨r, refs, e⟩ | ⟨o, dev, b, i, hcached, e⟩
    · exact hsame hblocks
    · apply hsame
      rw [e]
      exact .of_update rfl rfl rfl
    · -- the block asked for was not cached, so it is not pending
      rw [e] at hpin
      have hpend : (s.recycle o dev b i).pending = s.pending := (CacheInv.after_pending s i o).1
      obtain ⟨hdev, hblock⟩ := hpin
      rw [hpend] at hblock
      by_cases eji : j = i
      · subst eji
        simp at hdev hblock
        subst hdev
        exact absurd hblock (h.not_pending hshape hcached)
      · simp [eji] at hdev hblock
        exact .inl (CacheState.mem_taken.2 (.inl ⟨hdev, hblock⟩))
  · rcases refs_step hstep r' hr' with ⟨r, hr, howner, hbuf⟩ | ⟨dev, b, ha⟩
    · exact .inl (CacheState.mem_taken.2 (.inr ⟨r, hr, hbuf, howner ▸ hreader⟩))
    · refine .inr (.inl ⟨dev, b, ?_⟩)
      rw [ha]
      cases ho : r'.owner with
      | reader => rfl
      | op p => simp [ho, Owner.isReader] at hreader
      | commit => simp [ho, Owner.isReader] at hreader

/-- Under `Spare` one buffer is left over after every step. -/
theorem taken_card_step (h : CacheInv start s) (hshape : CacheShape s)
    (hstep : CacheStep start s a s') (hspare : Spare s a) (hcard : s.taken.card < NBUF) :
    s'.taken.card < NBUF := by
  have htaken := taken_step h hshape hstep
  have hinsert : ∀ i, (∀ j ∈ s'.taken, j ∈ s.taken ∨ i = j) →
      s'.taken.card ≤ (insert i s.taken).card := by
    intro i hsub
    apply Finset.card_le_card
    intro j hj
    rcases hsub j hj with hold | e
    · exact Finset.mem_insert_of_mem hold
    · exact e ▸ Finset.mem_insert_self i s.taken
  have hsame : (∀ j ∈ s'.taken, j ∈ s.taken) → s'.taken.card < NBUF :=
    fun hsub => (Finset.card_le_card hsub).trans_lt hcard
  cases a with
  | logWrite p i =>
    refine (hinsert i ?_).trans_lt hspare
    intro j hj
    simpa using htaken j hj
  | bget o dev b i =>
    cases o with
    | reader =>
      refine (hinsert i ?_).trans_lt hspare
      intro j hj
      simpa using htaken j hj
    | _ =>
      apply hsame
      intro j hj
      simpa using htaken j hj
  | other =>
    apply hsame
    intro j hj
    simpa using htaken j hj

/-- Where `commit` has no buffer. -/
def CommitPos.idle : CommitPos → Bool
  | .up | .finish | .pair _ _ .getLog | .head _ .get => true
  | _ => false

theorem CommitPos.release_idle {k k' : CommitPos} {i : Idx} (h : k.release = some (i, k')) :
    k'.idle = false := by
  unfold CommitPos.release at h
  split at h
  · cases h
    rfl
  · cases h
    rfl
  · cases h
    rfl
  · cases h

/-- Between two rounds `commit` has given all its references back. -/
def Idle (s : CacheState ι) : Prop :=
  s.pos.idle = true → ∀ r ∈ s.refs, r.owner ≠ .commit

theorem idle_after {o : Owner ι} {dev b : Nat} {i : Idx} (h : Idle s) (hask : s.Asks start dev b o)
    (hidle : (s.after i o).idle = true) (r : Ref ι)
    (hr : r ∈ (⟨o, dev, b, i, .waiting⟩ : Ref ι) ::ₘ s.refs) : r.owner ≠ .commit := by
  cases o with
  | commit =>
    -- `commit` asks at three positions only, and goes on to one with a buffer
    obtain ⟨_, hwants, _⟩ := hask
    cases hk : s.pos with
    | pair phase tail k =>
      rw [hk] at hwants
      cases k <;> simp [CacheState.after, hk, CommitPos.got, CommitPos.idle] at hidle
    | head erase k =>
      rw [hk] at hwants
      cases k <;> simp [CacheState.after, hk, CommitPos.got, CommitPos.idle] at hidle
    | up => simp [hk] at hwants
    | finish => simp [hk] at hwants
  | op p =>
    rcases Multiset.mem_cons.1 hr with e | hr
    · simp [e]
    · exact h hidle r hr
  | reader =>
    rcases Multiset.mem_cons.1 hr with e | hr
    · simp [e]
    · exact h hidle r hr

theorem Idle.step (h : Idle s) (hstep : CacheStep start s a s') : Idle s' := by
  intro hidle r' hr'
  -- a step that makes no reference and comes from an idle position
  have hold : s.pos.idle = true → (∀ o dev b i, a ≠ .bget o dev b i) → r'.owner ≠ .commit := by
    intro hs ha
    rcases refs_step hstep r' hr' with ⟨r, hr, howner, _⟩ | ⟨dev, b, e⟩
    · rw [← howner]
      exact h hs r hr
    · exact absurd e (ha _ _ _ _)
  cases hstep with
  | hit hask hcached => exact idle_after h hask hidle r' hr'
  | recycle hask hcached hvictim => exact idle_after h hask hidle r' hr'
  | @commitUnlock r k refs href hr howner hk hdone =>
    have hbusy : k.idle = false := CommitPos.release_idle hk
    rw [show k.idle = true from hidle] at hbusy
    cases hbusy
  | endLast hop hrefs hup hout => exact hold (by rw [hup]; rfl) (by simp)
  | copyToLog hpos ha hva hb hvb => cases hidle
  | copyHome hpos ha hva hb hvb => cases hidle
  | writeHead hpos ha hva => cases hidle
  | nextRound hpos hdone => exact hdone r' hr'
  | headDone hpos hdone => exact hdone r' hr'
  | logWritten hpos => exact hold (by rw [hpos]; rfl) (by simp)
  | installed hpos => exact hold (by rw [hpos]; rfl) (by simp)
  | finish hpos => exact hold (by rw [hpos]; rfl) (by simp)
  | _ => exact hold hidle (by simp)

section

variable (h : CacheInv start s)
include h

/-- A logged block takes a buffer. -/
theorem length_le_taken (hpending : s.pending = s.lh) : s.lh.length ≤ s.taken.card := by
  have hsub : s.lh.toFinset ⊆ s.taken.image fun i => (s.buf i).blockno := by
    intro b hb
    have hpend : b ∈ s.pending := by
      rw [hpending]
      exact List.mem_toFinset.1 hb
    obtain ⟨i, hdev, hblock, _⟩ := h.kept b hpend
    refine Finset.mem_image.2 ⟨i, ?_, hblock⟩
    exact CacheState.mem_taken.2 (.inl ⟨hdev, hblock ▸ hpend⟩)
  calc s.lh.length = s.lh.toFinset.card := (List.toFinset_card_of_nodup h.nodup).symm
    _ ≤ (s.taken.image fun i => (s.buf i).blockno).card := Finset.card_le_card hsub
    _ ≤ s.taken.card := Finset.card_image_le

/-- If only readers outside the operations have references, a buffer that is not
taken can be recycled. -/
theorem victim_of_readers (hshape : CacheShape s) (hreaders : ∀ r ∈ s.refs, r.owner.isReader = true)
    (hcard : s.taken.card < NBUF) : s.victim ≠ none := by
  obtain ⟨j, _, hj⟩ := Finset.exists_mem_notMem_of_card_lt_card
    (s := s.taken) (t := Finset.univ) (by simpa using hcard)
  have hfree : ∀ r ∈ s.refs, r.buf ≠ j := fun r hr e =>
    hj (CacheState.mem_taken.2 (.inr ⟨r, hr, e, hreaders r hr⟩))
  have hzero : (s.buf j).refcnt = 0 := by
    have hpin : ¬ s.Pinned j := fun hpin => hj (CacheState.mem_taken.2 (.inl hpin))
    rw [h.count j, if_neg hpin, Multiset.countP_eq_zero.2 hfree]
  intro hvictim
  exact hshape.victim_eq_none hvictim j hzero

/-- **`commit` finds a buffer** as long as one is left over. -/
theorem commit_finds_buffer (hshape : CacheShape s) (hidle : Idle s) (hcard : s.taken.card < NBUF)
    {dev b : Nat} (hask : s.Asks start dev b .commit) (hcached : s.cached dev b = none) :
    s.victim ≠ none := by
  obtain ⟨rfl, hwants, _⟩ := hask
  have hpos : s.pos ≠ .up := by
    intro e
    simp [e] at hwants
  have hnone : ∀ r ∈ s.refs, r.owner ≠ .commit := by
    apply hidle
    -- where it asks for a home block, the block is pending and so cached
    have hpending := h.not_pending hshape hcached
    cases hk : s.pos with
    | pair phase tail k =>
      rw [hk] at hwants
      cases k with
      | getLog => rfl
      | getHome a =>
        have hb : s.lh[tail]? = some b := hwants
        exfalso
        apply hpending
        rw [CacheState.pending, hk]
        cases phase with
        | writeLog => exact List.mem_of_getElem? hb
        | install =>
          have hfirst : (s.lh.drop tail)[0]? = some b := by
            rw [List.getElem?_drop]
            exact hb
          exact List.mem_of_getElem? hfirst
      | _ => simp at hwants
    | head erase k =>
      rw [hk] at hwants
      cases k <;> first | rfl | simp at hwants
    | up => rfl
    | finish => rfl
  refine victim_of_readers h hshape ?_ hcard
  intro r hr
  cases ho : r.owner with
  | commit => exact absurd ho (hnone r hr)
  | op p => exact absurd (h.up_of_op hr ho) hpos
  | reader => rfl

/-- The panics that the reservations alone rule out. -/
theorem panic_step (houts : s.outstanding = Multiset.card s.ops) (hnone : s.panic = none)
    (hstep : CacheStep start s a s') :
    s'.panic ≠ some .outsideTrans ∧ s'.panic ≠ some .committing := by
  cases hstep with
  | @outsideTrans r p d href hr howner hvalid hroom hout =>
    obtain ⟨blocks, hmem⟩ := h.owners r href p howner
    have hpos : 0 < Multiset.card s.ops := Multiset.card_pos_iff_exists_mem.2 ⟨_, hmem⟩
    omega
  | endPanic hop hpos =>
    rw [h.busy hpos] at hop
    simp at hop
  | noBuffers hask hcached hvictim => simp
  | tooBig href hr howner hvalid hfull => simp
  | _ => simp [hnone]

/-- The panics that need a buffer left over. -/
theorem spare_panic_step (hshape : CacheShape s) (hidle : Idle s) (hcard : s.taken.card < NBUF)
    (hnone : s.panic = none) (hstep : CacheStep start s a s') :
    s'.panic ≠ some .tooBig ∧ s'.panic ≠ some (.noBuffers true) := by
  cases hstep with
  | @noBuffers o dev b hask hcached hvictim =>
    cases o with
    | commit => exact absurd hvictim (commit_finds_buffer h hshape hidle hcard hask hcached)
    | op p => simp [Owner.isCommit]
    | reader => simp [Owner.isCommit]
  | @tooBig r p d href hr howner hvalid hfull =>
    have hlen := length_le_taken h (by rw [CacheState.pending, h.up_of_op href howner]; rfl)
    have hsize : NBUF = LOGBLOCKS := rfl
    omega
  | outsideTrans href hr howner hvalid hroom hout => simp
  | endPanic hop hpos => simp
  | _ => simp [hnone]

end

end Steps

/-- What holds in every run of operations within their limit. -/
theorem limit_of_reachable {start : Nat} {base : Nat → Block} {s : CacheState ι}
    (h : Reachable ((cacheSystem start base).restrict (FsUse start)) s) :
    s.lh.length + s.unused ≤ LOGBLOCKS ∧ (s.pos ≠ .up → s.outstanding = 0) ∧
      s.panic ≠ some .outsideTrans ∧ s.panic ≠ some .committing := by
  obtain ⟨hres, hinv⟩ := Reserved.of_reachable h
  refine ⟨hres.room, ?_, ?_⟩
  · intro hpos
    rw [outstanding_of_reachable h.of_restrict, hinv.busy hpos]
    rfl
  · cases h with
    | start hinit =>
      rw [hinit]
      exact ⟨by simp, by simp⟩
    | next hreach hstep =>
      exact panic_step (Reserved.of_reachable hreach).2
        (outstanding_of_reachable hreach.of_restrict) hstep.1.1 hstep.1.2

/-- What holds in addition if a buffer is left over. -/
theorem spare_of_reachable {start : Nat} {base : Nat → Block} {s : CacheState ι}
    (h : Reachable ((cacheSystem start base).restrict
      fun s a => FsUse start s a ∧ Spare s a) s) : s.taken.card < NBUF ∧ Idle s := by
  apply h.invariant (P := fun s => s.taken.card < NBUF ∧ Idle s)
  · intro s hinit
    rw [hinit]
    constructor
    · have hnone : (emptyCache base : CacheState ι).taken = ∅ := by
        apply Finset.eq_empty_of_forall_notMem
        intro i hi
        rcases CacheState.mem_taken.1 hi with hpin | ⟨r, hr, _⟩
        · cases hpin.1
        · simp at hr
      rw [hnone]
      decide
    · intro _ r hr
      simp at hr
  · intro s a s' hreach ⟨hcard, hidle⟩ hstep
    have hinv := (Reserved.of_reachable (hreach.restrict_mono fun _ _ hc => hc.1)).2
    have hshape := CacheShape.of_reachable hreach.of_restrict
    exact ⟨taken_card_step hinv hshape hstep.1.2 hstep.2.2 hcard, hidle.step hstep.1.2⟩

/-- **Capacity of the log and the cache.**  In every run in which each operation
logs at most `MAXOPBLOCKS` distinct blocks, what is logged and what is still
reserved fits the log, no operation is outstanding while `commit` runs, and
neither `log_write` outside a transaction nor `end_op` while committing occurs.
If moreover every `log_write`, and every `bget` of a reader outside an operation,
leaves a buffer that is neither pinned nor such a reader's, then `log_write` never
finds the log full and `commit` always gets its buffers. -/
theorem capacity (start : Nat) (base : Nat → Block) :
    (∀ s : CacheState ι, Reachable ((cacheSystem start base).restrict (FsUse start)) s →
      s.lh.length + s.unused ≤ LOGBLOCKS ∧ (s.pos ≠ .up → s.outstanding = 0) ∧
      s.panic ≠ some .outsideTrans ∧ s.panic ≠ some .committing) ∧
    ∀ s : CacheState ι, Reachable ((cacheSystem start base).restrict
        fun s a => FsUse start s a ∧ Spare s a) s →
      s.lh.length + s.unused ≤ LOGBLOCKS ∧ (s.pos ≠ .up → s.outstanding = 0) ∧
      s.panic ≠ some .tooBig ∧ s.panic ≠ some .outsideTrans ∧ s.panic ≠ some .committing ∧
      s.panic ≠ some (.noBuffers true) := by
  refine ⟨fun s h => limit_of_reachable h, ?_⟩
  intro s h
  obtain ⟨hroom, hout, houtside, hcommitting⟩ :=
    limit_of_reachable (h.restrict_mono fun _ _ hc => hc.1)
  have hspare : s.panic ≠ some .tooBig ∧ s.panic ≠ some (.noBuffers true) := by
    cases h with
    | start hinit =>
      rw [hinit]
      exact ⟨by simp, by simp⟩
    | next hreach hstep =>
      have hinv := (Reserved.of_reachable (hreach.restrict_mono fun _ _ hc => hc.1)).2
      obtain ⟨hcard, hidle⟩ := spare_of_reachable hreach
      exact spare_panic_step hinv (CacheShape.of_reachable hreach.of_restrict) hidle hcard
        hstep.1.1 hstep.1.2
  exact ⟨hroom, hout, hspare.1, houtside, hcommitting, hspare.2⟩

/-- An operation logs block `40` of a fresh disk, with `29` buffers left over. -/
theorem operation_reaches : ∃ s : CacheState Unit,
    Reachable ((cacheSystem 2 zeroDisk).restrict fun s a => FsUse 2 s a ∧ Spare s a) s ∧
    s.lh = [40] ∧ s.ops = {((), [40])} := by
  have h₀ : Reachable ((cacheSystem 2 zeroDisk).restrict fun s a => FsUse 2 s a ∧ Spare s a)
      (emptyCache zeroDisk : CacheState Unit) := .start rfl
  have h₁ := h₀.next ⟨⟨rfl, .beginOp (p := ()) rfl (by simp) (by decide)⟩,
    ⟨trivial, trivial⟩, trivial⟩
  have h₂ := h₁.next ⟨⟨rfl, @CacheStep.recycle Unit 2 _ (.op ()) 1 40 0 ⟨[], by simp⟩
    (by decide +kernel) (by decide +kernel)⟩, ⟨⟨rfl, .inr (by decide)⟩, trivial⟩, trivial⟩
  have h₃ := h₂.next ⟨⟨rfl, @CacheStep.lock Unit 2 _ ⟨.op (), 1, 40, 0, .waiting⟩ 0 rfl rfl
    (by simp)⟩, ⟨trivial, trivial⟩, trivial⟩
  have h₄ := h₃.next ⟨⟨rfl, @CacheStep.fill Unit 2 _ ⟨.op (), 1, 40, 0, .locked false⟩ false
    (mem_of_cons _ 0 rfl) rfl rfl⟩, ⟨trivial, trivial⟩, trivial⟩
  have h₅ := h₄.next ⟨⟨rfl, @CacheStep.logWrite Unit 2 _ ⟨.op (), 1, 40, 0, .locked false⟩ ()
    false [] 0 0 rfl rfl rfl rfl rfl (by decide) (by decide)⟩,
    ⟨trivial, fun bl hbl => .inr (by simp at hbl; simp [hbl]; decide)⟩,
    (by change Finset.card _ < NBUF; decide +kernel)⟩
  exact ⟨_, h₅, rfl, rfl⟩

theorem capacity_one_block : ∃ s : CacheState Unit,
    Reachable ((cacheSystem 2 zeroDisk).restrict fun s a => FsUse 2 s a ∧ Spare s a) s ∧
    s.lh = [40] ∧ s.lh.length + s.unused ≤ LOGBLOCKS ∧ s.panic ≠ some .tooBig := by
  obtain ⟨s, hreach, hlh, _⟩ := operation_reaches
  have hcap := (capacity 2 zeroDisk).2 s hreach
  exact ⟨s, hreach, hlh, hcap.1, hcap.2.2.1⟩

/-! ## The full log -/

/-- A state of a run within the limits, between two calls of the operations. -/
structure Quiet (start : Nat) (base : Nat → Block) (ops : Multiset (ι × List Nat))
    (s : CacheState ι) : Prop where
  reach : Reachable ((cacheSystem start base).restrict (FsUse start)) s
  panic : s.panic = none
  up : s.pos = .up
  refs : s.refs = 0
  ops : s.ops = ops

section Filling

variable {start : Nat} {base : Nat → Block} {s : CacheState ι} {p : ι} {blocks : List Nat}
  {ops : Multiset (ι × List Nat)} {b : Nat}

/-- With no references, only the logged blocks take buffers. -/
theorem Quiet.victim (h : Quiet start base ops s) (hlen : s.lh.length < LOGBLOCKS) :
    s.victim ≠ none := by
  obtain ⟨_, hinv⟩ := Reserved.of_reachable h.reach
  have hshape := CacheShape.of_reachable h.reach.of_restrict
  have hpin : ∀ i ∈ s.taken, s.Pinned i := by
    intro i hi
    rcases CacheState.mem_taken.1 hi with hpin | ⟨r, hr, _⟩
    · exact hpin
    · simp [h.refs] at hr
  have hcard : s.taken.card ≤ s.lh.toFinset.card := by
    apply Finset.card_le_card_of_injOn fun i => (s.buf i).blockno
    · intro i hi
      have hmem := (hpin i hi).2
      rw [CacheState.pending, h.up] at hmem
      exact List.mem_toFinset.2 hmem
    · intro i hi j hj e
      exact CacheInv.same_block hshape (hpin i hi).1 (hpin j hj).1 e
  rw [List.toFinset_card_of_nodup hinv.nodup] at hcard
  apply victim_of_readers hinv hshape (by simp [h.refs])
  exact hcard.trans_lt hlen

section

variable (h : Quiet start base ops s) (hop : (p, blocks) ∈ s.ops) (hhome : IsHome start b)
  (hfind : s.lh.length < LOGBLOCKS ∨ b ∈ s.lh)
include h hop hhome hfind

/-- An operation gets a block: a new one if the log is not full, one that is
logged in any case. -/
theorem Quiet.bget :
    ∃ s' i, Reachable ((cacheSystem start base).restrict (FsUse start)) s' ∧ s'.panic = none ∧
      s'.pos = .up ∧ s'.lh = s.lh ∧ s'.ops = s.ops ∧
      s'.refs = {⟨.op p, ROOTDEV, b, i, .waiting⟩} := by
  obtain ⟨_, hinv⟩ := Reserved.of_reachable h.reach
  have hshape := CacheShape.of_reachable h.reach.of_restrict
  have hask : s.Asks start ROOTDEV b (.op p) := ⟨blocks, hop⟩
  cases hcached : s.cached ROOTDEV b with
  | some i =>
    have hnext := h.reach.next ⟨⟨h.panic, .hit hask hcached⟩, ⟨rfl, hhome⟩, trivial⟩
    exact ⟨_, i, hnext, h.panic, h.up, rfl, rfl, by simp [h.refs]⟩
  | none =>
    have hlen : s.lh.length < LOGBLOCKS := by
      rcases hfind with hlen | hmem
      · exact hlen
      have hpend : b ∈ s.pending := by
        rw [CacheState.pending, h.up]
        exact hmem
      exact absurd hpend (hinv.not_pending hshape hcached)
    obtain ⟨i, hvictim⟩ := Option.ne_none_iff_exists'.1 (h.victim hlen)
    have hnext := h.reach.next ⟨⟨h.panic, .recycle hask hcached hvictim⟩, ⟨rfl, hhome⟩, trivial⟩
    exact ⟨_, i, hnext, h.panic, h.up, rfl, rfl, by simp [h.refs]⟩

/-- `bread` of the same block. -/
theorem Quiet.bread :
    ∃ s' i, Reachable ((cacheSystem start base).restrict (FsUse start)) s' ∧ s'.panic = none ∧
      s'.pos = .up ∧ s'.lh = s.lh ∧ s'.ops = s.ops ∧
      s'.refs = {⟨.op p, ROOTDEV, b, i, .locked false⟩} ∧ (s'.buf i).valid = true := by
  obtain ⟨s₁, i, hreach, hpanic, hup, hlh, hops, hrefs⟩ := h.bget hop hhome hfind
  have hlock := hreach.next ⟨⟨hpanic, @CacheStep.lock ι start _ ⟨.op p, ROOTDEV, b, i, .waiting⟩ 0
    hrefs rfl (by simp)⟩, trivial, trivial⟩
  by_cases hvalid : (s₁.buf i).valid = true
  · exact ⟨_, i, hlock, hpanic, hup, hlh, hops, rfl, hvalid⟩
  have hfill := hlock.next ⟨⟨hpanic, @CacheStep.fill ι start _
    ⟨.op p, ROOTDEV, b, i, .locked false⟩ false (mem_of_cons _ 0 rfl) rfl (by simpa using hvalid)⟩,
    trivial, trivial⟩
  exact ⟨_, i, hfill, hpanic, hup, hlh, hops, rfl, by simp⟩

end

/-- An operation that has not used up its limit logs one more block. -/
theorem Quiet.log (h : Quiet start base ((p, blocks) ::ₘ ops) s) (hhome : IsHome start b)
    (hnew : b ∉ s.lh) (hlen : s.lh.length < LOGBLOCKS) (hlimit : blocks.length < MAXOPBLOCKS)
    (hothers : ∀ bl, (p, bl) ∉ ops) :
    ∃ s', Quiet start base ((p, blocks ++ [b]) ::ₘ ops) s' ∧ s'.lh = s.lh ++ [b] := by
  have hop : (p, blocks) ∈ s.ops := mem_of_cons _ ops h.ops
  have hfresh : b ∉ blocks := fun hb =>
    hnew ((Reserved.of_reachable h.reach).1.logged _ hop b hb)
  obtain ⟨s₁, i, hreach, hpanic, hup, hlh, hops, hrefs, hvalid⟩ := h.bread hop hhome (.inl hlen)
  have hblock : (s₁.buf i).blockno = b :=
    ((Reserved.of_reachable hreach).2.asked _ (mem_of_cons _ 0 hrefs)).2.2
  have hout : 1 ≤ s₁.outstanding := by
    rw [outstanding_of_reachable hreach.of_restrict, hops, h.ops, Multiset.card_cons]
    omega
  have huse : FsUse start s₁ (.logWrite p i) := by
    refine ⟨trivial, ?_⟩
    intro bl hbl
    rw [hops, h.ops] at hbl
    rcases Multiset.mem_cons.1 hbl with e | hbl
    · obtain ⟨_, rfl⟩ := Prod.mk.inj e
      exact .inr hlimit
    · exact absurd hbl (hothers bl)
  have h₂ := hreach.next ⟨⟨hpanic, @CacheStep.logWrite ι start _
    ⟨.op p, ROOTDEV, b, i, .locked false⟩ p false blocks 0 ops hrefs rfl rfl hvalid
    (hops.trans h.ops) (hlh ▸ hlen) hout⟩, huse⟩
  have hbuf : (({ s₁.logWrite i p blocks ops with
      refs := {⟨.op p, ROOTDEV, b, i, .locked false⟩} } : CacheState ι).buf i).valid = true := by
    have hnot : (s₁.buf i).blockno ∉ s₁.lh := by
      rw [hblock, hlh]
      exact hnew
    simp [CacheState.logWrite, hnot, hvalid]
  have h₃ := h₂.next ⟨⟨hpanic, @CacheStep.unlock ι start _ ⟨.op p, ROOTDEV, b, i, .locked false⟩ 0
    rfl rfl (by simp) hbuf⟩, trivial, trivial⟩
  have h₄ := h₃.next ⟨⟨hpanic, @CacheStep.drop ι start _ ⟨.op p, ROOTDEV, b, i, .dropping⟩ 0
    rfl rfl⟩, trivial, trivial⟩
  refine ⟨_, ⟨h₄, hpanic, hup, rfl, ?_⟩, ?_⟩
  · simp [CacheState.logWrite, hblock, hfresh]
  · simp [CacheState.logWrite, hblock, hlh, hnew]

/-- Blocks `40`, `41`, … one after another. -/
theorem Quiet.log_many {k : Nat} (n : Nat) (h : Quiet 2 base ((p, blocks) ::ₘ ops) s)
    (hlh : s.lh = List.range' 40 k) (hn : blocks.length + n ≤ MAXOPBLOCKS)
    (hk : k + n ≤ LOGBLOCKS) (hothers : ∀ bl, (p, bl) ∉ ops) :
    ∃ s', Quiet 2 base ((p, blocks ++ List.range' (40 + k) n) ::ₘ ops) s' ∧
      s'.lh = List.range' 40 (k + n) := by
  induction n generalizing s blocks k with
  | zero => exact ⟨s, by simpa using h, by simpa using hlh⟩
  | succ n ih =>
    have hhome : IsHome 2 (40 + k) := by
      right
      have hlog : LOGBLOCKS = 30 := rfl
      omega
    have hnew : 40 + k ∉ s.lh := by
      rw [hlh, List.mem_range'_1]
      omega
    obtain ⟨s₁, h₁, hlh₁⟩ := h.log hhome hnew (by rw [hlh, List.length_range']; omega)
      (by omega) hothers
    have hnext : s₁.lh = List.range' 40 (k + 1) := by
      rw [hlh₁, hlh, List.range'_1_concat]
    obtain ⟨s₂, h₂, hlh₂⟩ := ih h₁ hnext (by simp; omega) (by omega)
    refine ⟨s₂, ?_, ?_⟩
    · rw [List.append_assoc] at h₂
      exact h₂
    · rw [hlh₂]
      congr 1
      omega

end Filling

/-- Three operations, each within its limit, fill the log. -/
theorem log_fills : ∃ s : CacheState (Fin 3),
    Quiet 2 zeroDisk ((2, List.range' 60 10) ::ₘ (1, List.range' 50 10) ::ₘ
      (0, List.range' 40 10) ::ₘ 0) s ∧ s.lh = List.range' 40 30 := by
  have h₀ : Reachable ((cacheSystem 2 zeroDisk).restrict (FsUse 2))
      (emptyCache zeroDisk : CacheState (Fin 3)) := .start rfl
  have h₁ := h₀.next ⟨⟨rfl, .beginOp (p := 0) rfl (by simp) (by decide)⟩,
    trivial, trivial⟩
  have h₂ := h₁.next ⟨⟨rfl, .beginOp (p := 1) rfl (by simp) (by decide)⟩,
    trivial, trivial⟩
  have h₃ := h₂.next ⟨⟨rfl, .beginOp (p := 2) rfl (by simp) (by decide)⟩,
    trivial, trivial⟩
  have hfirst : ((2, []) ::ₘ (1, []) ::ₘ (0, []) ::ₘ 0 : Multiset (Fin 3 × List Nat)) =
      (0, []) ::ₘ (1, []) ::ₘ (2, []) ::ₘ 0 := by decide
  obtain ⟨s₄, h₄, hlh₄⟩ := Quiet.log_many (k := 0) 10 ⟨h₃, rfl, rfl, rfl, hfirst⟩ rfl
    (by decide) (by decide) (by simp)
  rw [Multiset.cons_swap] at h₄
  obtain ⟨s₅, h₅, hlh₅⟩ := h₄.log_many 10 hlh₄ (by decide) (by decide) (by simp)
  rw [Multiset.cons_swap _ (2, []), Multiset.cons_swap _ (2, [])] at h₅
  obtain ⟨s₆, h₆, hlh₆⟩ := h₅.log_many 10 hlh₅ (by decide) (by decide) (by simp)
  exact ⟨s₆, h₆, hlh₆⟩

/-- The last operation logs block `60`, which it has logged already, once more. -/
theorem log_again_panics : ∃ s : CacheState (Fin 3),
    Reachable ((cacheSystem 2 zeroDisk).restrict (FsUse 2)) s ∧ s.panic = some .tooBig := by
  obtain ⟨s, h, hlh⟩ := log_fills
  have hop : ((2 : Fin 3), List.range' 60 10) ∈ s.ops := mem_of_cons _ _ h.ops
  have hmem : 60 ∈ s.lh := by
    rw [hlh]
    decide
  obtain ⟨s₁, i, hreach, hpanic, _, hlh₁, hops, hrefs, hvalid⟩ :=
    h.bread hop (b := 60) (.inr (by decide)) (.inr hmem)
  have hblock : (s₁.buf i).blockno = 60 :=
    ((Reserved.of_reachable hreach).2.asked _ (mem_of_cons _ 0 hrefs)).2.2
  have huse : FsUse 2 s₁ (.logWrite 2 i) := by
    refine ⟨trivial, ?_⟩
    intro bl hbl
    rw [hops, h.ops] at hbl
    left
    rw [hblock]
    simp at hbl
    rw [hbl]
    decide
  have hpanics := hreach.next ⟨⟨hpanic, @CacheStep.tooBig (Fin 3) 2 _
    ⟨.op 2, ROOTDEV, 60, i, .locked false⟩ 2 false (mem_of_cons _ 0 hrefs) rfl rfl hvalid
    (by rw [hlh₁, hlh]; decide)⟩, huse⟩
  exact ⟨_, hpanics, rfl⟩

/-- The operations end, and `commit` asks for the first log block. -/
theorem commit_panics : ∃ s : CacheState (Fin 3),
    Reachable ((cacheSystem 2 zeroDisk).restrict (FsUse 2)) s ∧
      s.panic = some (.noBuffers true) := by
  obtain ⟨s, h, hlh⟩ := log_fills
  have houts : s.outstanding = 3 := by
    rw [outstanding_of_reachable h.reach.of_restrict, h.ops]
    rfl
  have hrefs : ∀ (p : Fin 3), ∀ r ∈ s.refs, r.owner ≠ .op p := by simp [h.refs]
  have h₁ := h.reach.next ⟨⟨h.panic, .endOp h.ops (hrefs 2) h.up (by simp [houts])⟩,
    trivial, trivial⟩
  have h₂ := h₁.next ⟨⟨h.panic, @CacheStep.endOp (Fin 3) 2 _ 1 (List.range' 50 10)
    ((0, List.range' 40 10) ::ₘ 0) rfl (hrefs 1) h.up (by simp [houts])⟩, trivial, trivial⟩
  have h₃ := h₂.next ⟨⟨h.panic, @CacheStep.endLast (Fin 3) 2 _ 0 (List.range' 40 10) 0 rfl
    (hrefs 0) h.up (by simp [houts])⟩, trivial, trivial⟩
  have hlen : 0 < s.lh.length := by
    rw [hlh]
    decide
  simp only [if_pos hlen] at h₃
  -- all buffers are pinned, each for a block outside the log area
  generalize ht : ({ s with
      outstanding := s.outstanding - 1 - 1 - 1, ops := 0,
      pos := .pair .writeLog 0 .getLog } : CacheState (Fin 3)) = t at h₃
  have hfields : t.lh = s.lh ∧ t.refs = 0 ∧ t.panic = none ∧ t.pos = .pair .writeLog 0 .getLog := by
    rw [← ht]
    exact ⟨rfl, h.refs, h.panic, rfl⟩
  obtain ⟨htlh, htrefs, htpanic, htpos⟩ := hfields
  have hpending : t.pending = t.lh := by
    rw [CacheState.pending, htpos]
    rfl
  obtain ⟨_, hinv⟩ := Reserved.of_reachable h₃
  have hall : ∀ i, t.Pinned i := by
    intro i
    have hcard := length_le_taken hinv hpending
    rw [htlh, hlh, List.length_range'] at hcard
    have huniv : t.taken = Finset.univ := by
      apply Finset.eq_univ_of_card
      exact le_antisymm (Finset.card_le_univ _) hcard
    have hi : i ∈ t.taken := by
      rw [huniv]
      exact Finset.mem_univ i
    rcases CacheState.mem_taken.1 hi with hpin | ⟨r, hr, _⟩
    · exact hpin
    · simp [htrefs] at hr
  have hcached : t.cached ROOTDEV 3 = none := by
    cases hc : t.cached ROOTDEV 3 with
    | none => rfl
    | some i =>
      have hmem := (hall i).2
      rw [(cached_eq_some hc).2, hpending] at hmem
      exact absurd (hinv.logged 3 hmem) (not_isHome_log (t := 0) (by decide))
  have hvictim : t.victim = none := by
    cases hv : t.victim with
    | none => rfl
    | some i => exact absurd (hall i) (hinv.of_refcnt_zero (victim_eq_some hv)).2
  have hask : t.Asks 2 ROOTDEV 3 .commit := by
    refine ⟨rfl, ?_, by simp [htrefs]⟩
    rw [htpos, htlh]
    simp [hlen]
  have hpanics := h₃.next ⟨⟨htpanic, .noBuffers hask hcached hvictim⟩, trivial, trivial⟩
  exact ⟨_, hpanics, rfl⟩

/-- Three operations log `MAXOPBLOCKS` distinct blocks each and fill the log.  If
one of them logs a block of its own again, `log_write` panics although the block
would be absorbed; if they end, the first `bread` of `commit` panics. -/
theorem full_log_panics :
    (∃ s : CacheState (Fin 3), Reachable ((cacheSystem 2 zeroDisk).restrict (FsUse 2)) s ∧
      s.panic = some .tooBig) ∧
    ∃ s : CacheState (Fin 3), Reachable ((cacheSystem 2 zeroDisk).restrict (FsUse 2)) s ∧
      s.panic = some (.noBuffers true) :=
  ⟨log_again_panics, commit_panics⟩

end Kus.Bio
