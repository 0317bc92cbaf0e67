import Mathlib
import KusOs.InodeRefs
import KusOs.Log

/-!
# Reclaiming orphans at boot

An inode that was in use without a link when the machine stopped is an orphan.  Once the
log has been recovered, `ireclaim` frees the orphans, each in a transaction of its own.

* `ireclaim` — the function of `fs.c`;
* `Swept` — from one volume to another the inodes of a set have been freed, and the
  others have what they had;
* `reclaim_spec` — one inode; with a bitmap of one block its transaction logs that block
  and the block of the dinode;
* `boot_reclamation` — **exactly the orphans are freed, and with them their blocks**.
-/

namespace Kus.Names

open Hoare Ownership
open Itable (NINODE)
open Volume (Vol Held Same Quiet)
open Mkfs (BPB IPB)

/-- Wait for room in the log; nobody else commits. -/
def beginOp : MountM Unit := do
  let m ← get
  when (LOGBLOCKS < m.vol.log.length + MAXOPBLOCKS) (throw .asleep)

/-- Commit the only transaction.  With room left in the log, `log_write` has found room. -/
def endOp : MountM Unit := do
  let m ← get
  when (LOGBLOCKS ≤ m.vol.log.length) (throw .tooBig)
  set { m with vol := m.vol.commit }

/-- A round of `ireclaim`. -/
def reclaim (i : Nat) : MountM Unit := do
  let m ← get
  when ((m.vol.dinode i).type ≠ 0 ∧ (m.vol.dinode i).nlink = 0) do
    iget i
    beginOp
    ilock i
    iunlock i
    iput i
    endOp

def ireclaim (sb : Superblock) : MountM Unit := (List.range' 1 (sb.ninodes - 1)).forM reclaim

def Orphan (v : Vol) (i : Nat) : Prop := (v.dinode i).type ≠ 0 ∧ (v.dinode i).nlink = 0

section Commit

variable (v : Vol)

theorem view_commit : v.commit.view = v.view := by
  funext b
  unfold Vol.view Vol.commit
  cases hb : v.cache b with
  | none => simp [Vol.view, hb]
  | some buf => simp

theorem store_commit : v.commit.store = v.store := by
  unfold Vol.store Vol.word
  rw [view_commit]
  rfl

theorem node_commit : v.commit.node = v.node := by
  have hbyte : v.commit.byte = v.byte := by
    unfold Vol.byte Vol.block
    rw [view_commit, store_commit]
  funext i
  refine Volume.node_congr (v := v) rfl ?_
  unfold Vol.content Vol.bytes
  rw [hbyte]
  rfl

end Commit

/-- From `v` to `w` the inodes `O` have been freed. -/
structure Swept (v : Vol) (O : Nat → Prop) (w : Vol) : Prop where
  gone : ∀ i, O i → (w.dinode i).type = 0
  dinode : ∀ i, ¬ O i → w.dinode i = v.dinode i
  node : ∀ i, ¬ O i → w.node i = v.node i
  ptr : ∀ i x, ¬ O i → w.store.ptr (i, x) = v.store.ptr (i, x)

section Sweep

variable {sb : Superblock} {v w u : Vol} {R : Multiset Nat} {L : List Nat} {m : Mount} {i : Nat}
  {O O' : Nat → Prop} {E : Stop → Prop}

theorem Swept.refl (hO : ∀ i, ¬ O i) : Swept v O v :=
  ⟨fun i hi => absurd hi (hO i), fun _ _ => rfl, fun _ _ => rfl, fun _ _ _ => rfl⟩

theorem Swept.trans (h : Swept v O w) (h' : Swept w O' u) : Swept v (fun i => O i ∨ O' i) u := by
  constructor
  · intro i hi
    by_cases hnow : O' i
    · exact h'.gone i hnow
    · rw [h'.dinode i hnow]
      exact h.gone i (hi.resolve_right hnow)
  · intro i hi
    rw [h'.dinode i fun hn => hi (.inr hn), h.dinode i fun ho => hi (.inl ho)]
  · intro i hi
    rw [h'.node i fun hn => hi (.inr hn), h.node i fun ho => hi (.inl ho)]
  · intro i x hi
    rw [h'.ptr i x fun hn => hi (.inr hn), h.ptr i x fun ho => hi (.inl ho)]

theorem At.dinode (h : At sb v R L m) (i : Nat) : v.dinode i = v.ip i := by
  rw [← h.same.dinode, ← h.ip]
  exact h.held.dinode i

theorem At.owned (h : At sb v R L m) : Owned v.bitmap v.store.ptr sb.dataStart sb.size := by
  have hptr : m.vol.store.ptr = v.store.ptr := by
    funext p
    exact Volume.ptr_congr (congrFun h.ip p.1) h.same.view p.2
  have howned := h.held.consistent.owned
  rw [hptr] at howned
  rw [← h.same.bitmap]
  exact howned

theorem beginOp_spec (hlog : v.log = []) :
    Triple (At sb v R L) beginOp (fun _ => At sb v R L) E := by
  apply Triple.get_bind
  intro m h
  rw [when, if_neg (by rw [h.same.log, hlog]; decide)]
  exact .pure _ fun _ e => e ▸ h

section

variable (hsb : sb.size ≤ BPB) (hlog : v.log = [])
include hsb hlog

/-- The end of the transaction that has freed inode `i`. -/
theorem endOp_spec (howned : Owned v.bitmap v.store.ptr sb.dataStart sb.size)
    (hfreed : Freed i v w) : Triple (At sb w R []) endOp
      (fun _ m => ∃ u, At sb u R [] m ∧ u.log = [] ∧ Swept v (fun j => j = i) u) E := by
  obtain ⟨u, hsame, hquiet, hlogs, htype⟩ := hfreed
  have hview : w.view = v.view := hquiet.view.trans hsame.view
  have hip : ∀ j, j ≠ i → w.ip j = v.ip j := fun j hj => by rw [hquiet.ip hj, hsame.ip]
  have hlen : w.log.length ≤ 2 := by
    have hulog : u.log = [] := hsame.log.trans hlog
    have hsub : w.log ⊆ [.inode (i / IPB), .bitmap 0] := by
      intro y hy
      rcases hlogs.sub y hy with hy | hy | ⟨x, hx, hy⟩
      · rw [hulog] at hy
        cases hy
      · exact hy ▸ List.mem_cons_self
      · -- a block of the volume has its bit in the first block of the bitmap
        rw [Volume.ptr_congr (congrFun hsame.ip i) hsame.view] at hx hy
        have hlt := (howned.range _ hx).2
        rw [hy, Nat.div_eq_of_lt (by omega : v.store.ptr (i, x) < BPB)]
        simp
    have hnodup := hlogs.nodup (by rw [hulog]; exact List.nodup_nil)
    exact (hnodup.subperm hsub).length_le
  apply Triple.get_bind
  intro m h
  have hsize : (LOGBLOCKS : Nat) = 30 := rfl
  rw [when, if_neg (by rw [h.same.log]; omega)]
  apply Triple.bind_ok (a := ()) (t := m) rfl
  intro _ _
  have hat : At sb m.vol.commit R [] { m with vol := m.vol.commit } := by
    refine h.change ⟨?_, by simp⟩
    rw [store_commit]
    exact h.held.consistent
  have hmip := h.ip
  refine ⟨m.vol.commit, hat, rfl, ?_, ?_, ?_, ?_⟩
  · intro j hj
    rw [hat.dinode, hj]
    change (m.vol.ip i).type = 0
    rw [hmip]
    exact htype
  · intro j hj
    change m.vol.dinode j = v.dinode j
    rw [h.same.dinode, hquiet.dinode j hj, hsame.dinode]
  · intro j hj
    rw [node_commit, h.node, hquiet.node hj, hsame.node]
  · intro j x hj
    rw [store_commit, Volume.ptr_congr (congrFun hmip j) h.same.view,
      Volume.ptr_congr (hip j hj) hview]

/-- **One inode.** -/
theorem reclaim_spec (hout : Orphan v i → i ∉ R) : Triple (At sb v R []) (reclaim i)
      (fun _ m => ∃ w, At sb w R [] m ∧ w.log = [] ∧ Swept v (fun j => j = i ∧ Orphan v i) w)
      (fun e => e = .igetNone ∧ NINODE ≤ R.dedup.card) := by
  apply Triple.get_bind
  intro m h
  rw [h.same.dinode, when]
  apply Triple.ite
  · intro ho
    have hip := h.dinode i
    have hnode : v.node i ≠ none := by
      intro hnone
      exact ho.1 (hip ▸ Volume.node_eq_none.1 hnone)
    apply Triple.bind (.here (iget_spec fun hfull => ⟨rfl, hfull⟩) h)
    intro _
    apply Triple.bind (beginOp_spec hlog)
    intro _
    apply Triple.bind (ilock_spec (Multiset.mem_cons_self i R) (by simp) hnode)
    intro _
    apply Triple.bind (iunlock_spec List.mem_cons_self)
    intro _
    rw [List.erase_cons_head]
    apply Triple.bind (iput_free (hout ho) (by simp) (hip ▸ ho.2))
    intro _
    apply Triple.fix
    intro m' hm'
    obtain ⟨w, hat, hfreed⟩ := hm'
    refine .conseq (.here (endOp_spec hsb hlog h.owned hfreed) hat) (fun _ e => e) ?_ fun _ e => e
    intro _ m₂ hm₂
    obtain ⟨u, hu, hulog, hswept⟩ := hm₂
    have hset : (fun j => j = i) = fun j => j = i ∧ Orphan v i := by
      funext j
      exact propext (and_iff_left ho).symm
    exact ⟨u, hu, hulog, hset ▸ hswept⟩
  · intro ho
    apply Triple.pure
    intro _ e
    exact ⟨v, e ▸ h, hlog, .refl fun _ hj => ho hj.2⟩

theorem ireclaim_spec (hout : ∀ i, Orphan v i → i ∉ R) : Triple (At sb v R []) (ireclaim sb)
      (fun _ m => ∃ w, At sb w R [] m ∧ w.log = [] ∧
        Swept v (fun i => i ∈ List.range' 1 (sb.ninodes - 1) ∧ Orphan v i) w)
      (fun e => e = .igetNone ∧ NINODE ≤ R.dedup.card) := by
  refine .pre (.forM_done (I := fun done m => ∃ w, At sb w R [] m ∧ w.log = [] ∧
    Swept v (fun i => i ∈ done ∧ Orphan v i) w) ?_) ?_
  · intro done i rest hl
    apply Triple.fix
    intro m hm
    obtain ⟨w, hat, hwlog, hswept⟩ := hm
    have hnew : i ∉ done := by
      have hnodup : (done ++ i :: rest).Nodup := hl ▸ List.nodup_range'
      exact fun hi => (List.nodup_append.1 hnodup).2.2 i hi i List.mem_cons_self rfl
    have hsame : Orphan w i ↔ Orphan v i := by
      unfold Orphan
      rw [hswept.dinode i fun hi => hnew hi.1]
    refine .conseq (.here
      (reclaim_spec hsb hwlog fun ho => hout i (hsame.1 ho)) hat) (fun _ e => e) ?_ fun _ e => e
    intro _ m' hm'
    obtain ⟨u, hu, hulog, hnext⟩ := hm'
    have hset : (fun j => j ∈ done ∧ Orphan v j ∨ j = i ∧ Orphan w i) =
        fun j => j ∈ done ++ [i] ∧ Orphan v j := by
      funext j
      rw [hsame, List.mem_append, List.mem_singleton]
      by_cases e : j = i
      · simp [e]
      · simp [e]
    exact ⟨u, hu, hulog, hset ▸ hswept.trans hnext⟩
  · exact fun m h => ⟨v, h, hlog, .refl fun i hi => absurd hi.1 (by simp)⟩

end

/-- The blocks of the inodes that have been freed are free. -/
theorem Swept.bitmap (h : Swept v O w) (hv : Owned v.bitmap v.store.ptr sb.dataStart sb.size)
    (hw : At sb w R L m) (hi : O i) {x : Fs.Place} (hx : v.store.ptr (i, x) ≠ 0) :
    w.bitmap (v.store.ptr (i, x)) = false := by
  obtain ⟨hlo, hhi⟩ := hv.range _ hx
  rw [← Bool.not_eq_true]
  intro hbit
  -- the block would have an owner, which had it before
  obtain ⟨⟨j, y⟩, hy⟩ := (hw.owned.marked _ hlo hhi).1 hbit
  have hj : ¬ O j := by
    intro hj
    have hzero : (w.store.ip j).type = 0 := by
      change (w.ip j).type = 0
      rw [← hw.dinode]
      exact h.gone j hj
    apply hx
    rw [← hy]
    cases y <;> simp [Fs.Store.ptr, Fs.ptrOf, hzero]
  rw [h.ptr j y hj] at hy
  have hsame := hv.inj _ _ hx hy.symm
  exact hj ((Prod.mk.inj hsame).1 ▸ hi)

/-- **Boot-time reclamation is exact.**

On a consistent volume with a bitmap of one block, whose orphans nobody refers to,
`ireclaim` frees the orphans: afterwards there is none, the blocks they had are free, and
every other inode is as it was.  The references are those there were before, nothing is
locked and the log is empty.  It may only stop because the inode table is full. -/
theorem boot_reclamation (hsb : sb.size ≤ BPB) (h : Held sb [] m.vol) (hlocked : m.locked = [])
    (hlog : m.vol.log = []) (hout : ∀ i, Orphan m.vol i → i ∉ m.refs) :
    Triple (fun s => s = m) (ireclaim sb)
      (fun _ m' =>
        (∀ i, 1 ≤ i → i < sb.ninodes → ¬ Orphan m'.vol i) ∧
        (∀ i x, 1 ≤ i → i < sb.ninodes → Orphan m.vol i → m.vol.store.ptr (i, x) ≠ 0 →
          m'.vol.bitmap (m.vol.store.ptr (i, x)) = false) ∧
        (∀ i, ¬ (1 ≤ i ∧ i < sb.ninodes ∧ Orphan m.vol i) → m'.vol.node i = m.vol.node i) ∧
        m'.refs = m.refs ∧ m'.locked = [] ∧ m'.vol.log = [])
      (fun e => e = .igetNone ∧ NINODE ≤ m.refs.dedup.card) := by
  have hat : At sb m.vol m.refs [] m := ⟨.refl _, h, rfl, hlocked, by simp⟩
  refine .conseq (.here (ireclaim_spec hsb hlog hout) hat) (fun _ e => e) ?_ fun _ e => e
  intro _ m' hm'
  obtain ⟨w, hw, hwlog, hswept⟩ := hm'
  have hmem : ∀ i, 1 ≤ i → i < sb.ninodes → i ∈ List.range' 1 (sb.ninodes - 1) :=
    fun i hlo hhi => List.mem_range'_1.2 (by omega)
  refine ⟨?_, ?_, ?_, hw.refs, hw.locked, by rw [hw.same.log, hwlog]⟩
  · intro i hlo hhi ho
    unfold Orphan at ho
    rw [hw.same.dinode] at ho
    by_cases hold : Orphan m.vol i
    · exact ho.1 (hswept.gone i ⟨hmem i hlo hhi, hold⟩)
    · rw [hswept.dinode i fun hi => hold hi.2] at ho
      exact hold ho
  · intro i x hlo hhi ho hx
    rw [hw.same.bitmap]
    exact hswept.bitmap hat.owned hw ⟨hmem i hlo hhi, ho⟩ hx
  · intro i hi
    rw [hw.node]
    apply hswept.node
    intro hin
    have hrange := List.mem_range'_1.1 hin.1
    exact hi ⟨by omega, by omega, hin.2⟩

end Sweep

/-- The small volume, whose root directory has lost its link. -/
def orphanMount : Mount where
  vol := { Volume.smallVol with
    dinode := fun i => if i = 1 then { Fs.smallRoot with nlink := 0 } else Dinode.zero }
  refs := 0
  locked := []

theorem orphanMount_held : Held Fs.small [] orphanMount.vol := by
  have h := Volume.smallVol_consistent
  have hptr : orphanMount.vol.store.ptr = Volume.smallVol.store.ptr := by
    funext p
    obtain ⟨i, x⟩ := p
    by_cases hi : i = 1
    · subst hi
      cases x <;> rfl
    have hip : orphanMount.vol.ip i = Volume.smallVol.ip i := by
      change (if i = 1 then _ else Dinode.zero) = if i = 1 then _ else Dinode.zero
      rw [if_neg hi, if_neg hi]
    exact Volume.ptr_congr hip rfl x
  refine ⟨⟨?_, ?_⟩, by simp⟩
  · rw [hptr]
    exact h.owned
  · intro i
    refine ⟨nofun, ?_⟩
    have hfull := (h.inodes i).full
    unfold Fs.Store.Filled at hfull ⊢
    rw [hptr]
    by_cases hi : i = 1
    · subst hi
      exact hfull
    intro htype
    change (if i = 1 then _ else Dinode.zero).type ≠ 0 at htype
    rw [if_neg hi] at htype
    exact absurd rfl htype

/-- Its blocks are given back. -/
theorem boot_reclamation_small : ∃ m', ireclaim Fs.small orphanMount = .ok ((), m') ∧
    ¬ Orphan m'.vol 1 ∧ m'.vol.bitmap 5 = false ∧ m'.refs = 0 := by
  have hreclaim := boot_reclamation (by decide) orphanMount_held rfl rfl
    fun _ _ => Multiset.notMem_zero _
  obtain ⟨_, m', hrun, hgone, hfree, _, hrefs, _⟩ := Triple.returns
    (.weaken hreclaim fun e he => absurd he.2 (by decide)) rfl
  have horphan : Orphan orphanMount.vol 1 := ⟨by decide, rfl⟩
  exact ⟨m', hrun, hgone 1 le_rfl (by decide),
    hfree 1 (.inl 0) le_rfl (by decide) horphan (by decide), hrefs⟩

end Kus.Names
