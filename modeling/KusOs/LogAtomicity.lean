import KusOs.LogDisk

/-!
# Crash atomicity of the log

The writes of an operation all go to one transaction: `Brackets` says so of
every transaction committed so far and of the one being gathered, and `GroupInv`
says where the writes of the operations of the latest group are.  Together with
what the disk holds (`DiskInv`) this gives `crash_atomic`, a statement about the
last write of a recovery in any run.
-/

namespace Kus

open Redo Transition

variable {ι : Type} {start : Nat}

section Atomicity

variable {s s' : LogState ι} {ev : LogEvent}

/-- Who wrote what: the operations of open brackets wrote to no committed
transaction, and every transaction is whole. -/
structure Brackets (ops : List (ι × Nat)) (nextOp : Nat)
    (issued current : List (Write Nat Block)) (committed : List (List (Write Nat Block)))
    (group returned : List Nat) : Prop where
  opsGroup : ∀ x ∈ ops, x.2 ∈ group
  groupFresh : ∀ op ∈ group, op < nextOp
  issuedFresh : ∀ w ∈ issued, w.op < nextOp
  returnedFresh : ∀ op ∈ returned, op < nextOp
  currentIssued : ∀ w ∈ current, w ∈ issued
  committedIssued : ∀ t ∈ committed, ∀ w ∈ t, w ∈ issued
  closed : ∀ x ∈ ops, ∀ t ∈ committed, ∀ w ∈ t, w.op ≠ x.2
  returnedClosed : ∀ x ∈ ops, x.2 ∉ returned
  wholeCurrent : Whole issued current
  whole : ∀ t ∈ committed, Whole issued t
  returned : ∀ op ∈ returned, HasAll issued op committed.flatten

/-- Where the writes of the operations of the group are. -/
def GroupInv (issued current : List (Write Nat Block))
    (committed : List (List (Write Nat Block))) (group : List Nat) : LogStage ι → Prop
  | .up | .writeLog _ _ => ∀ op ∈ group, HasAll issued op current
  | .install _ _ | .clear _ | .finish _ => ∀ op ∈ group, HasAll issued op committed.flatten
  | .bootHead | .bootInstall _ | .bootClear => group = []

/-- The history of a state. -/
structure HistoryInv (s : LogState ι) : Prop where
  brackets : Brackets s.ops s.nextOp s.issued s.current s.committed s.group s.returned
  group : GroupInv s.issued s.current s.committed s.group s.stage
  order : s.committed <+: s.commitOrder

theorem HistoryInv.init (base : Nat → Block) :
    HistoryInv (firstBoot base : LogState ι) where
  brackets := by constructor <;> simp [firstBoot, Whole]
  group := rfl
  order := List.prefix_rfl

variable {ops ops' : List (ι × Nat)} {nextOp : Nat} {issued current : List (Write Nat Block)}
  {committed : List (List (Write Nat Block))} {group returned : List Nat}

section

variable (h : Brackets ops nextOp issued current committed group returned)
include h

/-- `begin_op` opens a bracket for an operation nobody has heard of. -/
theorem Brackets.begin_op (p : ι) :
    Brackets ((p, nextOp) :: ops) (nextOp + 1) issued current committed (nextOp :: group)
      returned where
  opsGroup := by
    intro x hx
    rcases List.mem_cons.mp hx with rfl | hx
    · exact List.mem_cons_self
    · exact List.mem_cons_of_mem _ (h.opsGroup x hx)
  groupFresh := by
    intro op hop
    rcases List.mem_cons.mp hop with rfl | hop
    · exact Nat.lt_succ_self _
    · exact Nat.lt_succ_of_lt (h.groupFresh op hop)
  issuedFresh := fun w hw => Nat.lt_succ_of_lt (h.issuedFresh w hw)
  returnedFresh := fun op hop => Nat.lt_succ_of_lt (h.returnedFresh op hop)
  currentIssued := h.currentIssued
  committedIssued := h.committedIssued
  closed := by
    intro x hx t ht w hw
    rcases List.mem_cons.mp hx with rfl | hx
    · exact Nat.ne_of_lt (h.issuedFresh w (h.committedIssued t ht w hw))
    · exact h.closed x hx t ht w hw
  returnedClosed := by
    intro x hx hmem
    rcases List.mem_cons.mp hx with rfl | hx
    · exact Nat.lt_irrefl _ (h.returnedFresh _ hmem)
    · exact h.returnedClosed x hx hmem
  wholeCurrent := h.wholeCurrent
  whole := h.whole
  returned := h.returned

/-- A write goes to the transaction that holds its operation's earlier ones. -/
theorem Brackets.log_write {x : ι × Nat} (hx : x ∈ ops) {w : Write Nat Block} (hw : w.op = x.2)
    (hall : HasAll issued x.2 current) :
    Brackets ops nextOp (issued ++ [w]) (current ++ [w]) committed group returned where
  opsGroup := h.opsGroup
  groupFresh := h.groupFresh
  issuedFresh := by
    intro w' hw'
    rcases List.mem_append.mp hw' with hw' | hw'
    · exact h.issuedFresh w' hw'
    · rw [List.mem_singleton.mp hw', hw]
      exact h.groupFresh _ (h.opsGroup x hx)
  returnedFresh := h.returnedFresh
  currentIssued := by
    intro w' hw'
    rcases List.mem_append.mp hw' with hw' | hw'
    · exact List.mem_append_left _ (h.currentIssued w' hw')
    · exact List.mem_append_right _ hw'
  committedIssued := fun t ht w' hw' => List.mem_append_left _ (h.committedIssued t ht w' hw')
  closed := h.closed
  returnedClosed := h.returnedClosed
  wholeCurrent := h.wholeCurrent.concat (hw ▸ hall)
  whole := by
    intro t ht
    refine (h.whole t ht).concat_other fun w' hw' => ?_
    rw [hw]
    exact h.closed x hx t ht w' hw'
  returned := by
    intro op hop
    refine (h.returned op hop).concat_other ?_
    rintro rfl
    rw [hw] at hop
    exact h.returnedClosed x hx hop

/-- Closing brackets. -/
theorem Brackets.end_op (hsub : ∀ x ∈ ops', x ∈ ops) :
    Brackets ops' nextOp issued current committed group returned :=
  { h with
    opsGroup := fun x hx => h.opsGroup x (hsub x hx)
    closed := fun x hx => h.closed x (hsub x hx)
    returnedClosed := fun x hx => h.returnedClosed x (hsub x hx) }

end

theorem mem_flatten_concat {w : Write Nat Block} (t : List (Write Nat Block))
    (hw : w ∈ committed.flatten) : w ∈ (committed ++ [t]).flatten := by
  rw [List.flatten_append]
  exact List.mem_append_left _ hw

/-- The transaction joins the committed ones. -/
theorem Brackets.commit
    (h : Brackets ([] : List (ι × Nat)) nextOp issued current committed group returned) :
    Brackets ([] : List (ι × Nat)) nextOp issued [] (committed ++ [current]) group returned where
  opsGroup := by simp
  groupFresh := h.groupFresh
  issuedFresh := h.issuedFresh
  returnedFresh := h.returnedFresh
  currentIssued := by simp
  committedIssued := by
    intro t ht
    rcases List.mem_append.mp ht with ht | ht
    · exact h.committedIssued t ht
    · rw [List.mem_singleton.mp ht]
      exact h.currentIssued
  closed := by simp
  returnedClosed := by simp
  wholeCurrent := by simp [Whole]
  whole := by
    intro t ht
    rcases List.mem_append.mp ht with ht | ht
    · exact h.whole t ht
    · rw [List.mem_singleton.mp ht]
      exact h.wholeCurrent
  returned := fun op hop => (h.returned op hop).mono fun w hw => mem_flatten_concat current hw

/-- The commit of the group returns. -/
theorem Brackets.finish
    (h : Brackets ([] : List (ι × Nat)) nextOp issued current committed group returned)
    (hall : ∀ op ∈ group, HasAll issued op committed.flatten) :
    Brackets ([] : List (ι × Nat)) nextOp issued current committed [] (group ++ returned) :=
  { h with
    opsGroup := by simp
    groupFresh := by simp
    returnedFresh := by
      intro op hop
      rcases List.mem_append.mp hop with hop | hop
      · exact h.groupFresh op hop
      · exact h.returnedFresh op hop
    returnedClosed := by simp
    returned := by
      intro op hop
      rcases List.mem_append.mp hop with hop | hop
      · exact hall op hop
      · exact h.returned op hop }

/-- A crash forgets the open brackets and what they wrote. -/
theorem Brackets.crash (h : Brackets ops nextOp issued current committed group returned) :
    Brackets ([] : List (ι × Nat)) nextOp issued [] committed [] returned :=
  { h with
    opsGroup := by simp
    groupFresh := by simp
    currentIssued := by simp
    closed := by simp
    returnedClosed := by simp
    wholeCurrent := by simp [Whole] }

variable [DecidableEq ι] {base : Nat → Block}

theorem HistoryInv.step (h : HistoryInv s) (hc : Counted s) (hd : DiskInv start base s)
    (hs : LogStep start s ev s') : HistoryInv s' := by
  obtain ⟨hb, hgroup, horder⟩ := h
  cases hs with
  | @beginOp p hup =>
    refine ⟨hb.begin_op p, ?_, horder⟩
    show GroupInv _ _ _ _ s.stage
    rw [hup] at hgroup ⊢
    intro op hop
    rcases List.mem_cons.mp hop with rfl | hop
    · intro w hw heq
      exact absurd heq (Nat.ne_of_lt (hb.issuedFresh w hw))
    · exact hgroup op hop
  | @logWrite p op b d hop hhome hroom hout =>
    have hup := hc.up_of_mem hop
    rw [hup] at hgroup
    refine ⟨hb.log_write hop rfl (hgroup op (hb.opsGroup _ hop)), ?_, ?_⟩
    · show GroupInv _ _ _ _ s.stage
      rw [hup]
      exact fun op' hop' => (hgroup op' hop').concat _
    · simp [LogState.commitOrder, LogState.logWrite, hup]
  | @endOp p op hop hup hout =>
    rw [hup] at hgroup
    exact ⟨hb.end_op fun x hx => List.mem_of_mem_erase hx, hgroup, List.prefix_rfl⟩
  | @commitStart p op hop hup hout hlh =>
    rw [hup] at hgroup
    exact ⟨hb.end_op fun x hx => List.mem_of_mem_erase hx, hgroup, List.prefix_append _ _⟩
  | @commitEmpty p op hop hup hout hlh =>
    -- nothing is in the header, so the group wrote nothing
    have hg : Gathering start (s.stable base) s.disk s.lh s.pinned s.current := by
      have hstage := hd.stage
      rw [hup] at hstage
      exact hstage
    rw [List.length_eq_zero_iff.mp hlh] at hg
    rw [hup] at hgroup
    refine ⟨hb.end_op fun x hx => List.mem_of_mem_erase hx, fun op' hop' => ?_, List.prefix_rfl⟩
    refine .mono (hgroup op' hop') fun w hw => ?_
    rw [hg.current_nil] at hw
    cases hw
  | writeLog hst =>
    rw [hst] at hgroup
    exact ⟨hb, hgroup, List.prefix_append _ _⟩
  | @writeHead p hst =>
    have hops := hc.quiet (by simp [hst])
    rw [hst] at hgroup
    refine ⟨?_, fun op hop => ?_, List.prefix_rfl⟩
    · show Brackets s.ops _ _ _ _ _ _
      rw [hops] at hb ⊢
      exact hb.commit
    · refine .mono (hgroup op hop) fun w hw => ?_
      show w ∈ (s.committed ++ [s.current]).flatten
      rw [List.flatten_append]
      exact List.mem_append_right _ (by simpa using hw)
  | install hst | clear hst | erase hst =>
    rw [hst] at hgroup
    exact ⟨hb, hgroup, List.prefix_rfl⟩
  | @finish p hst =>
    have hops := hc.quiet (by simp [hst])
    rw [hst] at hgroup
    refine ⟨?_, by simp [GroupInv], List.prefix_rfl⟩
    show Brackets s.ops _ _ _ _ _ _
    rw [hops] at hb ⊢
    exact hb.finish hgroup
  | bread | recycle => exact ⟨hb, hgroup, horder⟩
  | crash => exact ⟨hb.crash, rfl, horder⟩
  | readHead hst | recoverInstall hst | recoverClear hst =>
    rw [LogState.commitOrder, hst] at horder
    rw [hst] at hgroup
    exact ⟨hb, hgroup, horder⟩
  | recovered hst =>
    rw [hst] at hgroup
    have hnone : s.group = [] := hgroup
    refine ⟨hb, fun op hop => ?_, List.prefix_rfl⟩
    have hmem : op ∈ s.group := hop
    rw [hnone] at hmem
    cases hmem

/-- The invariants hold in every reachable state. -/
theorem logInv_of_reachable (hreach : Reachable (logSystem start base) s) :
    Counted s ∧ DiskInv start base s ∧ HistoryInv s := by
  refine hreach.invariant (P := fun s => Counted s ∧ DiskInv start base s ∧ HistoryInv s) ?_ ?_
  · rintro s ⟨rfl, hhead⟩
    exact ⟨⟨rfl, fun _ => rfl⟩, DiskInv.init hhead, HistoryInv.init base⟩
  · intro s ev s' _ h hs
    obtain ⟨hc, hd, hh⟩ := h
    exact ⟨hc.step hs, hd.step hc hs, hh.step hc hd hs⟩

/-- **Crash atomicity.**  Whatever operations ran and wherever the machine
stopped, also several times during recoveries: when a recovery has done its
last write, the home blocks hold exactly the transactions of a prefix of the
commit order.  It contains the writes of all operations whose commit had
returned, and of every operation either all writes or none. -/
theorem crash_atomic (hreach : Reachable (logSystem start base) s)
    (hs : LogStep start s .recovered s') :
    ∃ done, done <+: s.order ∧
      (∀ b, IsHome start b → s'.disk b = applyTxns base done b) ∧
      (∀ op ∈ s.returned, HasAll s.issued op done.flatten) ∧
      ∀ op, HasAll s.issued op done.flatten ∨ ∀ w ∈ done.flatten, w.op ≠ op := by
  obtain ⟨hc, hd, hh⟩ := logInv_of_reachable hreach
  have hd' := hd.step hc hs
  cases hs with
  | recovered hst =>
    refine ⟨s.committed, ?_, ?_, hh.brackets.returned, all_or_none hh.brackets.whole⟩
    · have horder := hh.order
      rw [LogState.commitOrder, hst] at horder
      exact horder
    · intro b hb
      have hg : Gathering _ _ _ _ _ _ := hd'.stage
      exact hg.agrees b hb (by simp)

/-- One process writes block 0 in one bracket; the machine stops right after
`write_head` and again after the recovery's first write. -/
theorem crash_atomic_after_head :
    ∃ s s' : LogState Unit, Reachable (logSystem 2 fun _ _ => 0) s ∧
      LogStep 2 s .recovered s' ∧ s.order = [[⟨0, 0, fun _ => 7⟩]] ∧ s'.disk 0 0 = 7 ∧
      ∃ done, done <+: s.order ∧
        ∀ b, IsHome 2 b → s'.disk b = applyTxns (fun _ _ => 0) done b := by
  have hboot : Reachable (logSystem 2 fun _ _ => 0) (firstBoot fun _ _ => 0 : LogState Unit) :=
    Reachable.start ⟨rfl, rfl⟩
  have hup := ((hboot.next (.readHead rfl)).next (.recoverClear rfl)).next (.recovered rfl)
  have hwritten := (hup.next (.beginOp (p := ()) rfl (by simp [firstBoot, LogState.bwrite])
    (by decide))).next (.logWrite (p := ()) (b := 0) (fun _ => 7) List.mem_cons_self
      (.inl (by decide)) (by decide) (by decide))
  have hlogged := ((hwritten.next (.commitStart (p := ()) List.mem_cons_self rfl rfl
    (by decide))).next (.writeLog rfl rfl)).next (.writeHead rfl)
  have hcrashed := ((hlogged.next LogStep.crash).next (.readHead rfl)).next
    (.recoverInstall rfl rfl)
  have hagain := (((hcrashed.next LogStep.crash).next (.readHead rfl)).next
    (.recoverInstall rfl rfl)).next (.recoverClear rfl)
  obtain ⟨done, hprefix, hdisk, -⟩ := crash_atomic hagain (.recovered rfl)
  exact ⟨_, _, hagain, .recovered rfl, rfl, rfl, done, hprefix, hdisk⟩

end Atomicity

end Kus
