import Mathlib
import KusOs.Dispatch
import KusOs.VictimScan

/-!
# The candidates of one cycle

`r2_collect_candidates` keeps the records of the processes with resident
memory and moves the largest of them to the front, one exchange per place of
the caller's list.  The selection is stated over any type of records: it reads
`rss_kb` and nothing else.

Without an API key the helper answers with `ask_mock`, which has its own list
of protected names and proposes one process only.
-/

namespace Coomd

open CString

section Selection

variable {α : Type} (rss : α → Nat)

/-- `tmp[j].rss_kb`. -/
def rssAt (tmp : List α) (j : Nat) : Nat := (tmp[j]?).elim 0 rss

/-- The inner loop: `max_idx` after `j` has run from `i + 1` to the end. -/
def maxIdx (tmp : List α) (i : Nat) : Nat :=
  (List.range' (i + 1) (tmp.length - (i + 1))).foldl
    (fun m j => if rssAt rss tmp m < rssAt rss tmp j then j else m) i

/-- The outer loop from `i` on, `limit - i` rounds of it: the records copied
to `list[i]`, `list[i + 1]`, .... -/
def selectLoop : Nat → Nat → List α → List α
  | 0, _, _ => []
  | k + 1, i, tmp =>
    let tmp := tmp.swap i (maxIdx rss tmp i)
    (tmp[i]?).toList ++ selectLoop k (i + 1) tmp

def R2_TMP_MAX : Nat := 1024

/-- `tmp`, from the records of the processes in the order of `readdir`. -/
def readRecords (records : List α) : List α :=
  (records.filter (fun c => rss c ≠ 0)).take R2_TMP_MAX

/-- What `r2_collect_candidates` writes to `list`. -/
def r2CollectCandidates (records : List α) (maxSize : Nat) : List α :=
  let tmp := readRecords rss records
  selectLoop rss (if tmp.length < maxSize then tmp.length else maxSize) 0 tmp

variable {rss}

theorem foldl_max (f : Nat → Nat) (js : List Nat) (i : Nat) :
    js.foldl (fun m j => if f m < f j then j else m) i ∈ i :: js ∧
      ∀ j ∈ i :: js, f j ≤ f (js.foldl (fun m j => if f m < f j then j else m) i) := by
  induction js generalizing i with
  | nil => simp
  | cons j js ih =>
    have hhead := (ih (if f i < f j then j else i)).2 _ List.mem_cons_self
    rw [List.foldl_cons]
    grind

/-- The inner loop ends at an index it looked at, and no other is larger. -/
theorem maxIdx_spec {tmp : List α} {i : Nat} (hi : i < tmp.length) :
    (i ≤ maxIdx rss tmp i ∧ maxIdx rss tmp i < tmp.length) ∧
      ∀ j, i ≤ j → j < tmp.length → rssAt rss tmp j ≤ rssAt rss tmp (maxIdx rss tmp i) := by
  have hmem : ∀ j, j ∈ i :: List.range' (i + 1) (tmp.length - (i + 1)) ↔
      i ≤ j ∧ j < tmp.length := by
    intro j
    rw [List.mem_cons, List.mem_range'_1]
    omega
  obtain ⟨hin, hmax⟩ := foldl_max (rssAt rss tmp) (List.range' (i + 1) (tmp.length - (i + 1))) i
  exact ⟨(hmem _).1 hin, fun j hle hlt => hmax j ((hmem j).2 ⟨hle, hlt⟩)⟩

theorem swap_append (done l : List α) (i j : Nat) :
    (done ++ l).swap (done.length + i) (done.length + j) = done ++ l.swap i j := by
  induction done with
  | nil => simp
  | cons a done ih => simp [Nat.succ_add, ih]

/-- One exchange puts a largest remaining record in front of the rest. -/
theorem swap_maxIdx (done : List α) {rest : List α} (hne : rest ≠ []) :
    ∃ x left, (done ++ rest).swap done.length (maxIdx rss (done ++ rest) done.length) =
        done ++ x :: left ∧
      (x :: left).Perm rest ∧ ∀ y ∈ rest, rss y ≤ rss x := by
  have hpos := List.length_pos_of_ne_nil hne
  have hlen : (done ++ rest).length = done.length + rest.length := List.length_append
  obtain ⟨⟨hle, hlt⟩, hmax⟩ := @maxIdx_spec α rss (done ++ rest) done.length (by omega)
  obtain ⟨k, hm⟩ := Nat.exists_eq_add_of_le hle
  rw [hm] at hlt hmax ⊢
  have hk : k < rest.length := by omega
  have hlargest : ∀ y ∈ rest, rss y ≤ rss rest[k] := by
    intro y hy
    obtain ⟨j, hj, rfl⟩ := List.getElem_of_mem hy
    have hle := hmax (done.length + j) (by omega) (by omega)
    simpa [rssAt, hj, hk] using hle
  have hfront : ∃ left, rest.swap 0 k = rest[k] :: left := by
    cases rest with
    | nil => exact absurd rfl hne
    | cons a rest =>
      cases k with
      | zero => exact ⟨rest, by simp [List.swap]⟩
      | succ j => exact ⟨rest.set j a, by simp [Nat.lt_of_succ_lt_succ hk]⟩
  obtain ⟨left, hleft⟩ := hfront
  refine ⟨rest[k], left, ?_, ?_, hlargest⟩
  · rw [← hleft]
    exact swap_append done rest 0 k
  · rw [← hleft]
    exact List.swap_perm rest 0 k

/-- What a selection is: `out` holds the largest of `tmp`, in order, and the
others are left. -/
def Selects (rss : α → Nat) (tmp out : List α) : Prop :=
  out.Pairwise (fun a b => rss b ≤ rss a) ∧
    ∃ left, (out ++ left).Perm tmp ∧ ∀ x ∈ out, ∀ y ∈ left, rss y ≤ rss x

theorem selectLoop_spec (k : Nat) (done : List α) {rest : List α} (hk : k ≤ rest.length) :
    (selectLoop rss k done.length (done ++ rest)).length = k ∧
      Selects rss rest (selectLoop rss k done.length (done ++ rest)) := by
  induction k generalizing done rest with
  | zero => exact ⟨rfl, List.Pairwise.nil, rest, List.Perm.refl rest, by simp [selectLoop]⟩
  | succ k ih =>
    obtain ⟨x, rest', hswap, hperm, hmax⟩ := @swap_maxIdx α rss done rest
      (List.ne_nil_of_length_pos (by omega))
    have hlen := hperm.length_eq
    rw [List.length_cons] at hlen
    obtain ⟨hcount, hsorted, left, hleft, hrest⟩ := @ih (done ++ [x]) rest' (by omega)
    have hround : selectLoop rss (k + 1) done.length (done ++ rest) =
        x :: selectLoop rss k (done ++ [x]).length ((done ++ [x]) ++ rest') := by
      rw [selectLoop, hswap]
      simp
    rw [hround]
    -- what the later rounds see was there when `x` was chosen
    have hlater : ∀ y ∈ selectLoop rss k (done ++ [x]).length ((done ++ [x]) ++ rest') ++ left,
        rss y ≤ rss x := by
      intro y hy
      exact hmax y (hperm.subset (List.mem_cons_of_mem x (hleft.subset hy)))
    refine ⟨by rw [List.length_cons, hcount], ?_, left, (hleft.cons x).trans hperm, ?_⟩
    · exact List.pairwise_cons.2 ⟨fun y hy => hlater y (List.mem_append_left _ hy), hsorted⟩
    · intro z hz y hy
      obtain rfl | hz := List.mem_cons.1 hz
      · exact hlater y (List.mem_append_right _ hy)
      · exact hrest z hz y hy

/-- The candidates are the largest of the records read, and none is lost. -/
theorem collected_largest (records : List α) (maxSize : Nat) :
    (r2CollectCandidates rss records maxSize).length =
        min (readRecords rss records).length maxSize ∧
      Selects rss (readRecords rss records) (r2CollectCandidates rss records maxSize) := by
  have hlimit : (if (readRecords rss records).length < maxSize then
      (readRecords rss records).length else maxSize) =
        min (readRecords rss records).length maxSize := by
    split <;> omega
  unfold r2CollectCandidates
  simp only [hlimit]
  exact selectLoop_spec _ [] (Nat.min_le_left _ _)

theorem collected_subset (records : List α) (maxSize : Nat) :
    r2CollectCandidates rss records maxSize ⊆ records := by
  intro c hc
  obtain ⟨-, -, left, hperm, -⟩ := @selectLoop_spec α rss
    (if (readRecords rss records).length < maxSize then (readRecords rss records).length
      else maxSize) [] (readRecords rss records) (by split <;> omega)
  have hread := hperm.subset (List.mem_append_left left hc)
  exact (List.mem_filter.1 (List.mem_of_mem_take hread)).1

end Selection

/-- `always_safe`. -/
def alwaysSafe : List (List Byte) :=
  [bytes "systemd", bytes "init", bytes "sshd", bytes "dbus-daemon"]

/-- `str.lower`, on the letters that occur in `always_safe`: no character
outside ASCII has one of them as its lower case. -/
def lower (name : List Byte) : List Byte :=
  name.map fun b => if 65 ≤ b ∧ b ≤ 90 then b + 32 else b

/-- The candidates `ask_mock` passes over. -/
def mockSkips (c : Candidate) : Bool := alwaysSafe.contains (lower c.comm) || c.pid == 1

/-- The pair `ask_mock` sorts by. -/
def mockKey (c : Candidate) : Nat ×ₗ Int := toLex (c.rss_kb, c.pid)

/-- `victims` of `ask_mock` after `sort(reverse=True)`. -/
def mockVictims (candidates : List Candidate) : List (Nat ×ₗ Int) :=
  ((candidates.filter fun c => !mockSkips c).map mockKey).insertionSort (· ≥ ·)

/-- The `"victims"` that `ask_mock` returns. -/
def askMock (candidates : List Candidate) : List Int :=
  ((mockVictims candidates).take 1).map fun v => (ofLex v).2

/-- What the fallback cycle is for: the victim proposed is a largest candidate
among those the validator accepts, and there is one if any is accepted. -/
def MockAgrees (self : Int) (procs : ProcTable) (candidates : List Candidate) : Prop :=
  (∀ pid ∈ askMock candidates, ∃ c ∈ candidates, c.pid = pid ∧ validatorOk self procs pid = true ∧
    ∀ d ∈ candidates, validatorOk self procs d.pid = true → d.rss_kb ≤ c.rss_kb) ∧
  ((∃ c ∈ candidates, validatorOk self procs c.pid = true) → askMock candidates ≠ [])

/-- `c` is what `ask_mock` sorts to the front. -/
def Foremost (candidates : List Candidate) (c : Candidate) : Prop :=
  (c ∈ candidates ∧ mockSkips c = false) ∧
    ∀ d ∈ candidates, mockSkips d = false → mockKey d ≤ mockKey c

theorem askMock_cases (candidates : List Candidate) :
    (askMock candidates = [] ∧ ∀ c ∈ candidates, mockSkips c = true) ∨
      ∃ c, Foremost candidates c ∧ askMock candidates = [c.pid] := by
  have hmem : ∀ v, v ∈ mockVictims candidates ↔
      ∃ c ∈ candidates, mockSkips c = false ∧ mockKey c = v := by
    intro v
    unfold mockVictims
    rw [(List.perm_insertionSort _ _).mem_iff]
    simp [and_assoc]
  have hsorted : (mockVictims candidates).Pairwise (· ≥ ·) := List.pairwise_insertionSort _ _
  unfold askMock
  generalize mockVictims candidates = sorted at hmem hsorted ⊢
  cases sorted with
  | nil =>
    refine .inl ⟨rfl, ?_⟩
    intro c hc
    by_contra hskip
    exact absurd ((hmem _).2 ⟨c, hc, by simpa using hskip, rfl⟩) List.not_mem_nil
  | cons v rest =>
    obtain ⟨c, hc, hskip, rfl⟩ := (hmem v).1 List.mem_cons_self
    refine .inr ⟨c, ⟨⟨hc, hskip⟩, ?_⟩, rfl⟩
    intro d hd hd'
    obtain heq | hin := List.mem_cons.1 ((hmem _).2 ⟨d, hd, hd', rfl⟩)
    · exact heq.le
    · exact (List.pairwise_cons.1 hsorted).1 _ hin

/-- The candidates of a cycle, from the records of the process table. -/
def cycleCandidates (records : List Candidate) : List Candidate :=
  r2CollectCandidates Candidate.rss_kb records MAX_CANDIDATES

/-- The mock agrees with the validator exactly when what it puts first is
accepted and no accepted candidate it passes over is larger. -/
theorem mock_agrees_iff (self : Int) (procs : ProcTable) {records : List Candidate}
    (hpids : (records.map Candidate.pid).Nodup) :
    MockAgrees self procs (cycleCandidates records) ↔
      (∀ c, Foremost (cycleCandidates records) c → validatorOk self procs c.pid = true) ∧
      ∀ d ∈ cycleCandidates records, validatorOk self procs d.pid = true →
        ∃ c ∈ cycleCandidates records, mockSkips c = false ∧ d.rss_kb ≤ c.rss_kb := by
  obtain ⟨hnone, hskips⟩ | ⟨t, ht, hmock⟩ := askMock_cases (cycleCandidates records)
  · -- nothing is proposed, so nothing may be accepted
    constructor
    · intro hagrees
      refine ⟨fun c hc => ?_, fun d hd hok => absurd hnone (hagrees.2 ⟨d, hd, hok⟩)⟩
      have hskip := hskips c hc.1.1
      rw [hc.1.2] at hskip
      cases hskip
    · intro hcond
      refine ⟨by simp [hnone], ?_⟩
      intro ⟨d, hd, hok⟩
      obtain ⟨c, hc, hkept, -⟩ := hcond.2 d hd hok
      have hskip := hskips c hc
      rw [hkept] at hskip
      cases hskip
  · have hin : t.pid ∈ askMock (cycleCandidates records) := by simp [hmock]
    constructor
    · intro hagrees
      obtain ⟨c, hc, hpid, hok, hmax⟩ := hagrees.1 t.pid hin
      -- a PID names one record, so the victim found is the one put first
      have hread := @collected_subset _ Candidate.rss_kb records MAX_CANDIDATES
      obtain rfl := List.inj_on_of_nodup_map hpids (hread hc) (hread ht.1.1) hpid
      refine ⟨fun d hd => ?_, fun d hd hd' => ⟨c, hc, ht.1.2, hmax d hd hd'⟩⟩
      have hkey : mockKey d = mockKey c := le_antisymm (ht.2 d hd.1.1 hd.1.2) (hd.2 c ht.1.1 ht.1.2)
      have hpids : d.pid = c.pid := congrArg (fun v => (ofLex v).2) hkey
      rw [hpids]
      exact hok
    · intro ⟨hfirst, hlarger⟩
      refine ⟨?_, fun _ => by simp [hmock]⟩
      intro pid hpid
      obtain rfl : pid = t.pid := by simpa [hmock] using hpid
      refine ⟨t, ht.1.1, rfl, hfirst t ht, ?_⟩
      intro d hd hok
      obtain ⟨c, hc, hkept, hle⟩ := hlarger d hd hok
      have hkey := Prod.Lex.monotone_fst _ _ (ht.2 c hc hkept)
      exact hle.trans hkey

theorem mock_agrees_iff_one :
    MockAgrees 50 (fun _ => some (bytes "stress"))
      (cycleCandidates [⟨60, bytes "stress", 500⟩]) := by
  apply (mock_agrees_iff 50 (fun _ => some (bytes "stress")) (by decide)).2
  have hone : cycleCandidates [⟨60, bytes "stress", 500⟩] = [⟨60, bytes "stress", 500⟩] := by decide
  rw [hone]
  refine ⟨fun c hc => ?_, fun d hd _ => ⟨d, hd, ?_, le_rfl⟩⟩
  · rw [List.mem_singleton.1 hc.1.1]
    decide
  · rw [List.mem_singleton.1 hd]
    decide

/-- The daemon, PID 50, is larger than the only other process. -/
def daemonLargest : List Candidate := [⟨50, bytes "coomd", 900⟩, ⟨60, bytes "stress", 500⟩]

theorem mock_proposes_daemon :
    askMock (cycleCandidates daemonLargest) = [50] ∧
      ¬ MockAgrees 50 (fun pid => some (if pid = 50 then bytes "coomd" else bytes "stress"))
        (cycleCandidates daemonLargest) := by
  have hmock : askMock (cycleCandidates daemonLargest) = [50] := by decide
  refine ⟨hmock, fun hagrees => ?_⟩
  obtain ⟨-, -, -, hok, -⟩ := hagrees.1 50 (by simp [hmock])
  exact absurd hok (by decide)

end Coomd
