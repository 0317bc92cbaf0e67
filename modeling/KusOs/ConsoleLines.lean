import Mathlib
import KusOs.Console

/-!
# The line discipline

The reference is a queue of committed bytes and an edit list, without a ring, indices or
sleeping processes.

* `Line.key`, `Line.read` — what a character and a read do to the lines;
* `Represents` — the ring `cons` holds a line;
* `consoleintr_represents`, `readLoop_represents` — the source's functions do what the
  reference does;
* `console_refines` — over every sequence of events the outputs are those of the
  reference, and the indices stay in order.
-/

namespace Kus.Console

open Function

/-! ### The reference -/

structure Line where
  committed : List UInt8
  edit : List UInt8
deriving DecidableEq, Repr

/-- A character arrives.  `^P` and NUL are no input. -/
def Line.key (c : UInt8) (l : Line) : Line × List Echo :=
  if c = ctrlP ∨ c = 0 then (l, [])
  else if c = ctrlU then (⟨l.committed, []⟩, List.replicate l.edit.length .backspace)
  else if c = ctrlH ∨ c = delete then
    (⟨l.committed, l.edit.dropLast⟩, if l.edit = [] then [] else [.backspace])
  else if l.committed.length + l.edit.length < INPUT_BUF_SIZE then
    let c := if c = carriageReturn then newline else c
    let pending := l.committed ++ l.edit ++ [c]
    if c = newline ∨ c = ctrlD ∨ pending.length = INPUT_BUF_SIZE then
      (⟨pending, []⟩, [.char c])
    else (⟨l.committed, l.edit ++ [c]⟩, [.char c])
  else (l, [])

/-- The bytes up to the first newline, and that newline. -/
def throughNewline (q : List UInt8) : List UInt8 :=
  q.takeWhile (· ≠ newline) ++ (q.dropWhile (· ≠ newline)).take 1

structure Taken where
  bytes : List UInt8
  rest : List UInt8
  ended : Bool
deriving DecidableEq, Repr

/-- A read of up to `n` bytes takes from the committed bytes what comes before a `^D`, up
to a newline.  A `^D` ends it, and is kept if bytes were delivered. -/
def takeLine (n : Nat) (delivered : Bool) (q : List UInt8) : Taken :=
  let bytes := (throughNewline (q.takeWhile (· ≠ ctrlD))).take n
  let rest := q.drop bytes.length
  if bytes.length = n ∨ bytes.getLast? = some newline then ⟨bytes, rest, true⟩
  else
    match rest with
    | [] => ⟨bytes, [], false⟩
    | _ :: tail => ⟨bytes, if delivered ∨ bytes ≠ [] then rest else tail, true⟩

/-- The lines, and the reads in progress: how many bytes they want and have got. -/
structure RefState (κ : Type) where
  line : Line
  reading : κ → Option (Nat × List UInt8)
  killed : κ → Bool

def RefState.init (κ : Type) : RefState κ := ⟨⟨[], []⟩, fun _ => none, fun _ => false⟩

section Reference

variable {κ : Type} [DecidableEq κ]

def refStep (s : RefState κ) : Event κ → RefState κ × List (Output κ)
  | .key c =>
    let (l, echo) := s.line.key c
    ({ s with line := l }, echo.map .echo)
  | .read k n =>
    if s.reading k = none then
      ({ s with reading := update s.reading k (some (n.toNat, [])) }, [])
    else (s, [])
  | .run k =>
    match s.reading k with
    | none => (s, [])
    | some (target, got) =>
      let t := takeLine (target - got.length) (got ≠ []) s.line.committed
      let got := got ++ t.bytes
      let line := { s.line with committed := t.rest }
      if t.ended then
        (⟨line, update s.reading k none, s.killed⟩, [.returned k got.length got])
      else if s.killed k then
        (⟨line, update s.reading k none, s.killed⟩, [.failed k got])
      else (⟨line, update s.reading k (some (target, got)), s.killed⟩, [])
  | .kill k => ({ s with killed := update s.killed k true }, [])

def refRun (s : RefState κ) : List (Event κ) → RefState κ × List (Output κ)
  | [] => (s, [])
  | e :: events =>
    let (s, out) := refStep s e
    let (s, rest) := refRun s events
    (s, out ++ rest)

end Reference

/-! ### Reading, one byte at a time -/

variable {n : Nat} {delivered : Bool} {q : List UInt8} {b : UInt8}

theorem takeLine_zero (delivered : Bool) (q : List UInt8) :
    takeLine 0 delivered q = ⟨[], q, true⟩ := by
  simp [takeLine]

theorem takeLine_nil (n : Nat) (delivered : Bool) :
    takeLine (n + 1) delivered [] = ⟨[], [], false⟩ := by
  simp [takeLine, throughNewline]

theorem takeLine_ctrlD (n : Nat) (delivered : Bool) (q : List UInt8) :
    takeLine (n + 1) delivered (ctrlD :: q) =
      ⟨[], if delivered then ctrlD :: q else q, true⟩ := by
  simp [takeLine, throughNewline]

theorem takeLine_newline (n : Nat) (delivered : Bool) (q : List UInt8) :
    takeLine (n + 1) delivered (newline :: q) = ⟨[newline], q, true⟩ := by
  have hne : newline ≠ ctrlD := by decide
  simp [takeLine, throughNewline, hne]

theorem takeLine_cons (n : Nat) (delivered : Bool) (q : List UInt8) (hd : b ≠ ctrlD)
    (hn : b ≠ newline) : takeLine (n + 1) delivered (b :: q) =
      ⟨b :: (takeLine n true q).bytes, (takeLine n true q).rest, (takeLine n true q).ended⟩ := by
  have hline : throughNewline ((b :: q).takeWhile (· ≠ ctrlD)) =
      b :: throughNewline (q.takeWhile (· ≠ ctrlD)) := by
    simp [throughNewline, hd, hn]
  unfold takeLine
  rw [hline]
  simp only [List.take_succ_cons, List.length_cons, List.drop_succ_cons, Nat.add_right_cancel_iff]
  generalize (throughNewline (q.takeWhile (· ≠ ctrlD))).take n = bytes
  have hlast : (b :: bytes).getLast? = some newline ↔ bytes.getLast? = some newline := by
    cases bytes with
    | nil => simp [hn]
    | cons c rest => simp [List.getLast?_cons_cons]
  by_cases hend : bytes.length = n ∨ bytes.getLast? = some newline
  · rw [if_pos hend, if_pos (by rw [hlast]; exact hend)]
  rw [if_neg hend, if_neg (by rw [hlast]; exact hend)]
  cases q.drop bytes.length with
  | nil => rfl
  | cons c tail => simp

/-! ### The ring holds a line -/

theorem size_dvd : INPUT_BUF_SIZE ∣ 2 ^ 32 := by decide

theorem size_lt : INPUT_BUF_SIZE < 2 ^ 32 := by decide

structure Represents (s : Cons) (l : Line) : Prop where
  ring : Ring.Holds (2 ^ 32) s.buf s.r.toNat s.e.toNat (l.committed ++ l.edit)
  w_eq : s.w.toNat = (s.r.toNat + l.committed.length) % 2 ^ 32
  clean : newline ∉ l.edit

namespace Represents

variable {s : Cons} {l : Line}

section

variable (h : Represents s l)
include h

/-- The committed bytes lie between `r` and `w`. -/
theorem front : Ring.Holds (2 ^ 32) s.buf s.r.toNat s.w.toNat l.committed := by
  rw [h.w_eq]
  exact h.ring.front

/-- The bytes that can be edited lie between `w` and `e`. -/
theorem back : Ring.Holds (2 ^ 32) s.buf s.w.toNat s.e.toNat l.edit := by
  rw [h.w_eq]
  exact h.ring.back size_dvd

theorem length_le : l.committed.length + l.edit.length ≤ INPUT_BUF_SIZE := by
  have hlen := h.ring.length_le
  rw [List.length_append] at hlen
  exact hlen

theorem r_eq_w_iff : s.r = s.w ↔ l.committed = [] := by
  rw [← UInt32.toNat_inj]
  exact h.front.eq_nil_iff size_lt

theorem e_eq_w_iff : s.e = s.w ↔ l.edit = [] := by
  have hiff := h.back.eq_nil_iff size_lt
  rw [← UInt32.toNat_inj, eq_comm]
  exact hiff

/-- `cons.e - cons.r`. -/
theorem pending : (s.e - s.r).toNat = l.committed.length + l.edit.length := by
  rw [UInt32.toNat_sub, ← List.length_append]
  exact h.ring.distance size_lt

theorem uncommitted : (s.e - s.w).toNat = l.edit.length := by
  rw [UInt32.toNat_sub]
  exact h.back.distance size_lt

/-- The order of the indices. -/
theorem indices : (s.w - s.r).toNat ≤ (s.e - s.r).toNat ∧ (s.e - s.r).toNat ≤ INPUT_BUF_SIZE := by
  have hcommitted : (s.w - s.r).toNat = l.committed.length := by
    rw [UInt32.toNat_sub]
    exact h.front.distance size_lt
  have hlen := h.length_le
  rw [hcommitted, h.pending]
  omega

end

theorem pred_toNat (e : UInt32) : (e - 1).toNat = (e.toNat + (2 ^ 32 - 1)) % 2 ^ 32 := by
  rw [UInt32.toNat_sub, Nat.add_comm]
  rfl

/-- The last byte of the edit list is erased. -/
theorem erase {edit : List UInt8} {b : UInt8} (h : Represents s ⟨l.committed, edit ++ [b]⟩) :
    s.at (s.e - 1) = b ∧ Represents { s with e := s.e - 1 } ⟨l.committed, edit⟩ := by
  have hring := h.ring
  rw [← List.append_assoc] at hring
  obtain ⟨hlast, hrest⟩ := hring.unpush size_dvd
  rw [← pred_toNat] at hlast hrest
  refine ⟨hlast, hrest, h.w_eq, ?_⟩
  intro hmem
  exact h.clean (List.mem_append_left _ hmem)

/-- A byte is stored at the end of the edit list. -/
theorem store (h : Represents s l) (hroom : l.committed.length + l.edit.length < INPUT_BUF_SIZE)
    (c : UInt8) :
    Ring.Holds (2 ^ 32) (update s.buf (Ring.cell INPUT_BUF_SIZE s.e.toNat) c)
      s.r.toNat (s.e + 1).toNat (l.committed ++ l.edit ++ [c]) := by
  have hlen : (l.committed ++ l.edit).length < INPUT_BUF_SIZE := by
    rw [List.length_append]
    exact hroom
  rw [UInt32.toNat_add]
  exact h.ring.push size_dvd hlen c

/-- The first committed byte is read. -/
theorem next {b : UInt8} {q : List UInt8} (h : Represents s ⟨b :: q, l.edit⟩) :
    s.at s.r = b ∧ Represents { s with r := s.r + 1 } ⟨q, l.edit⟩ := by
  obtain ⟨hfirst, hrest⟩ := Ring.Holds.pop h.ring size_dvd
  refine ⟨hfirst, ?_, ?_, h.clean⟩
  · rw [UInt32.toNat_add]
    exact hrest
  · have hw := h.w_eq
    simp only [List.length_cons] at hw ⊢
    rw [hw, UInt32.toNat_add, UInt32.toNat_one, Nat.mod_add_mod]
    congr 1
    omega

end Represents

/-! ### The interrupt handler -/

theorem killLine_represents {s : Cons} {committed edit : List UInt8}
    (h : Represents s ⟨committed, edit⟩) :
    ∃ s', killLine edit.length s = (s', List.replicate edit.length .backspace) ∧
      Represents s' ⟨committed, []⟩ := by
  induction edit using List.reverseRecOn generalizing s with
  | nil => exact ⟨s, rfl, h⟩
  | append_singleton edit b ih =>
    have hne : s.e ≠ s.w := by
      intro heq
      have hnil := h.e_eq_w_iff.1 heq
      simp at hnil
    obtain ⟨hlast, hrest⟩ := h.erase (l := ⟨committed, []⟩)
    have hb : b ≠ newline := by
      intro heq
      apply h.clean
      rw [heq]
      simp
    obtain ⟨s', hrun, hs'⟩ := ih hrest
    refine ⟨s', ?_, hs'⟩
    rw [List.length_append, List.length_singleton, killLine, if_pos ⟨hne, by rw [hlast]; exact hb⟩,
      hrun]
    rfl

/-- **`consoleintr` does what the reference does**, and it wakes the readers whenever
bytes are committed. -/
theorem consoleintr_represents {s : Cons} {l : Line} (h : Represents s l) (c : UInt8) :
    Represents (consoleintr c s).cons (l.key c).1 ∧ (consoleintr c s).echo = (l.key c).2 ∧
      ((consoleintr c s).woke = false → (l.key c).1.committed = l.committed) := by
  obtain ⟨committed, edit⟩ := l
  unfold consoleintr Line.key
  by_cases hP : c = ctrlP
  · rw [if_pos hP, if_pos (.inl hP)]
    exact ⟨h, rfl, fun _ => rfl⟩
  rw [if_neg hP]
  by_cases hU : c = ctrlU
  · have hzero : ¬ (c = ctrlP ∨ c = 0) := by
      rw [hU]
      decide
    obtain ⟨s', hrun, hs'⟩ := killLine_represents h
    have hcount : (s.e - s.w).toNat = edit.length := h.uncommitted
    rw [if_pos hU, if_neg hzero, if_pos hU]
    rw [hcount, hrun]
    exact ⟨hs', rfl, fun _ => rfl⟩
  rw [if_neg hU]
  by_cases hH : c = ctrlH ∨ c = delete
  · have hzero : ¬ (c = ctrlP ∨ c = 0) := by
      rcases hH with heq | heq
      · rw [heq]
        decide
      · rw [heq]
        decide
    rw [if_pos hH, if_neg hzero, if_neg hU, if_pos hH]
    by_cases hnil : edit = []
    · subst hnil
      have heq : s.e = s.w := h.e_eq_w_iff.2 rfl
      rw [if_neg fun hne => hne heq]
      exact ⟨h, rfl, fun _ => rfl⟩
    have hne : s.e ≠ s.w := fun heq => hnil (h.e_eq_w_iff.1 heq)
    obtain ⟨rest, b, rfl⟩ := (List.eq_nil_or_concat' edit).resolve_left hnil
    have herase := h.erase (l := ⟨committed, []⟩)
    rw [if_pos hne, List.dropLast_concat, if_neg hnil]
    exact ⟨herase.2, rfl, fun _ => rfl⟩
  rw [if_neg hH]
  have hpending := h.pending
  by_cases hzero : c = 0
  · rw [if_pos (Or.inr hzero), if_neg fun hc => hc.1 hzero]
    exact ⟨h, rfl, fun _ => rfl⟩
  have hother : ¬ (c = ctrlP ∨ c = 0) := by
    rw [not_or]
    exact ⟨hP, hzero⟩
  rw [if_neg hother, if_neg hU, if_neg hH]
  by_cases hroom : committed.length + edit.length < INPUT_BUF_SIZE
  · rw [if_pos ⟨hzero, by rw [hpending]; exact hroom⟩, if_pos hroom]
    generalize (if c = carriageReturn then newline else c) = c'
    have hring := h.store hroom c'
    have hlen : (s.e + 1 - s.r).toNat = (committed ++ edit ++ [c']).length := by
      rw [UInt32.toNat_sub]
      exact hring.distance size_lt
    simp only [hlen]
    by_cases hcommit : c' = newline ∨ c' = ctrlD ∨
        (committed ++ edit ++ [c']).length = INPUT_BUF_SIZE
    · rw [if_pos hcommit, if_pos hcommit]
      refine ⟨⟨?_, ?_, ?_⟩, rfl, ?_⟩
      · rw [List.append_nil]
        exact hring
      · exact hring.tail_eq
      · exact List.not_mem_nil
      · intro hwoke
        cases hwoke
    rw [if_neg hcommit, if_neg hcommit]
    rw [not_or] at hcommit
    refine ⟨⟨?_, h.w_eq, ?_⟩, rfl, fun _ => rfl⟩
    · rw [← List.append_assoc]
      exact hring
    · intro hmem
      rcases List.mem_append.1 hmem with hold | hnew
      · exact h.clean hold
      · exact hcommit.1 (List.mem_singleton.1 hnew).symm
  · rw [if_neg fun hc => hroom (by rw [← hpending]; exact hc.2), if_neg hroom]
    exact ⟨h, rfl, fun _ => rfl⟩

/-! ### Reading -/

/-- How the loop of `consoleread` ends, from what the reference takes. -/
def outcomeOf (killed : Bool) (got : List UInt8) (t : Taken) : Outcome :=
  if t.ended then .returned (got ++ t.bytes).length (got ++ t.bytes)
  else if killed then .killed (got ++ t.bytes)
  else .asleep (got ++ t.bytes)

/-- **`consoleread` does what the reference does.** -/
theorem readLoop_represents (killed : Bool) (target n : Nat) (got : List UInt8)
    {committed edit : List UInt8} {s : Cons} (h : Represents s ⟨committed, edit⟩)
    (hn : got.length + n = target) :
    ∃ s', readLoop killed target n got s =
        (outcomeOf killed got (takeLine n (decide (got ≠ [])) committed), s') ∧
      Represents s' ⟨(takeLine n (decide (got ≠ [])) committed).rest, edit⟩ := by
  induction n generalizing got committed s with
  | zero =>
    rw [takeLine_zero]
    refine ⟨s, ?_, h⟩
    simp [readLoop, outcomeOf, ← hn]
  | succ n ih =>
    unfold readLoop
    cases committed with
    | nil =>
      rw [if_pos (h.r_eq_w_iff.2 rfl), takeLine_nil]
      refine ⟨s, ?_, h⟩
      cases killed
      · simp [outcomeOf]
      · simp [outcomeOf]
    | cons b q =>
      have hne : s.r ≠ s.w := by
        intro heq
        have hnil := h.r_eq_w_iff.1 heq
        simp at hnil
      obtain ⟨hb, hrest⟩ := h.next (l := ⟨[], edit⟩)
      rw [if_neg hne]
      simp only [hb]
      by_cases hD : b = ctrlD
      · subst hD
        rw [if_pos rfl, takeLine_ctrlD]
        have hvalue : target - (n + 1) = (got ++ []).length := by
          rw [List.append_nil]
          omega
        by_cases hgot : got = []
        · have hlt : ¬ n + 1 < target := by
            rw [hgot, List.length_nil] at hn
            omega
          rw [if_neg hlt]
          refine ⟨{ s with r := s.r + 1 }, ?_, ?_⟩
          · rw [hvalue]
            simp [outcomeOf]
          · simpa [hgot] using hrest
        have hpos := List.length_pos_iff.2 hgot
        have hsame : s.r + 1 - 1 = s.r := by
          rw [UInt32.add_sub_cancel]
        rw [if_pos (by omega), hsame]
        refine ⟨s, ?_, ?_⟩
        · rw [hvalue]
          simp [outcomeOf]
        · simpa [hgot] using h
      · rw [if_neg hD]
        by_cases hN : b = newline
        · subst hN
          have hvalue : target - n = (got ++ [newline]).length := by
            rw [List.length_append, List.length_singleton]
            omega
          rw [if_pos rfl, takeLine_newline]
          refine ⟨{ s with r := s.r + 1 }, ?_, hrest⟩
          rw [hvalue]
          simp [outcomeOf]
        have hmore := ih (got ++ [b]) hrest (by
          rw [List.length_append, List.length_singleton]
          omega)
        have hdelivered : decide (got ++ [b] ≠ []) = true := by simp
        rw [hdelivered] at hmore
        rw [if_neg hN, takeLine_cons n _ q hD hN]
        obtain ⟨s', hrun, hs'⟩ := hmore
        refine ⟨s', ?_, hs'⟩
        rw [hrun]
        simp [outcomeOf]

/-! ### Runs -/

section Runs

variable {κ : Type}

/-- The read of a process, as the reference has it. -/
def Call.reading : Call → Option (Nat × List UInt8)
  | .idle => none
  | .ready target got => some (target, got)
  | .asleep target got => some (target, got)

/-- The kernel's state and the reference's agree.  A process sleeps only while there is
nothing to read. -/
structure Simulates (s : State κ) (t : RefState κ) : Prop where
  line : Represents s.cons t.line
  reading : ∀ k, t.reading k = (s.call k).reading
  killed : t.killed = s.killed
  bound : ∀ k target got, (s.call k).reading = some (target, got) → got.length ≤ target
  asleep : ∀ k target got, s.call k = .asleep target got →
    t.line.committed = [] ∧ s.killed k = false ∧ got.length < target

theorem Simulates.init : Simulates (State.init κ) (RefState.init κ) := by
  constructor
  · constructor
    · exact Ring.Holds.nil (by decide) _
    · rfl
    · exact List.not_mem_nil
  · intro k
    rfl
  · rfl
  · intro k target got hk
    cases hk
  · intro k target got hk
    cases hk

theorem Call.wake_reading (c : Call) : c.wake.reading = c.reading := by
  cases c <;> rfl

theorem Call.wake_ne_asleep (c : Call) (target : Nat) (got : List UInt8) :
    c.wake ≠ .asleep target got := by
  cases c <;> simp [Call.wake]

variable {s : State κ} {t : RefState κ}

/-- A character. -/
theorem Simulates.key [DecidableEq κ] (h : Simulates s t) (c : UInt8) :
    Simulates (step s (.key c)).1 (refStep t (.key c)).1 ∧
      (step s (.key c)).2 = (refStep t (.key c)).2 := by
  obtain ⟨hline, hecho, hwoke⟩ := consoleintr_represents h.line c
  refine ⟨⟨hline, ?_, h.killed, ?_, ?_⟩, ?_⟩
  · intro k
    rw [refStep]
    simp only [step]
    cases (consoleintr c s.cons).woke
    · exact h.reading k
    · simp only [if_true, Call.wake_reading]
      exact h.reading k
  · intro k target got
    simp only [step]
    cases (consoleintr c s.cons).woke
    · exact h.bound k target got
    · simp only [if_true, Call.wake_reading]
      exact h.bound k target got
  · intro k target got
    simp only [step]
    cases hw : (consoleintr c s.cons).woke
    · intro hk
      have hold := h.asleep k target got hk
      refine ⟨?_, hold.2⟩
      exact (hwoke hw).trans hold.1
    · simp only [if_true]
      intro hk
      exact absurd hk (Call.wake_ne_asleep _ _ _)
  · simp only [step, refStep, hecho]

variable [DecidableEq κ]

/-- A process calls `consoleread`. -/
theorem Simulates.read (h : Simulates s t) (k : κ) (n : Int) :
    Simulates (step s (.read k n)).1 (refStep t (.read k n)).1 ∧
      (step s (.read k n)).2 = (refStep t (.read k n)).2 := by
  have hk := h.reading k
  simp only [step, refStep]
  cases hcall : s.call k with
  | idle =>
    have hnone : t.reading k = none := by
      rw [hk, hcall]
      rfl
    rw [if_pos hnone]
    refine ⟨⟨h.line, ?_, h.killed, ?_, ?_⟩, rfl⟩
    · intro j
      by_cases hj : j = k
      · subst hj
        simp [Call.reading]
      · simp only [update_of_ne hj]
        exact h.reading j
    · intro j target got
      by_cases hj : j = k
      · subst hj
        simp only [update_self, Call.reading, Option.some.injEq, Prod.mk.injEq]
        rintro ⟨_, rfl⟩
        exact Nat.zero_le _
      · simp only [update_of_ne hj]
        exact h.bound j target got
    · intro j target got
      by_cases hj : j = k
      · subst hj
        simp
      · simp only [update_of_ne hj]
        exact h.asleep j target got
  | ready target got =>
    rw [hcall] at hk
    rw [if_neg (by rw [hk]; simp [Call.reading])]
    exact ⟨h, rfl⟩
  | asleep target got =>
    rw [hcall] at hk
    rw [if_neg (by rw [hk]; simp [Call.reading])]
    exact ⟨h, rfl⟩

/-- A process is killed. -/
theorem Simulates.kill (h : Simulates s t) (k : κ) :
    Simulates (step s (.kill k)).1 (refStep t (.kill k)).1 ∧
      (step s (.kill k)).2 = (refStep t (.kill k)).2 := by
  have hreading : ∀ j, (update s.call k (s.call k).wake j).reading =
      (s.call j).reading := by
    intro j
    by_cases hj : j = k
    · rw [hj, update_self, Call.wake_reading]
    · rw [update_of_ne hj]
  refine ⟨⟨h.line, ?_, ?_, ?_, ?_⟩, rfl⟩
  · intro j
    exact (h.reading j).trans (hreading j).symm
  · simp only [step, refStep, h.killed]
  · intro j target got hj
    exact h.bound j target got ((hreading j).symm.trans hj)
  · intro j target got
    simp only [step, refStep]
    by_cases hj : j = k
    · subst hj
      rw [update_self]
      intro hasleep
      exact absurd hasleep (Call.wake_ne_asleep _ _ _)
    · simp only [update_of_ne hj]
      exact h.asleep j target got

/-- What changes when the process `k` has run: the buffer and its own call. -/
theorem Simulates.move (h : Simulates s t) {k : κ} {cons : Cons} {rest : List UInt8} {c : Call}
    (hline : Represents cons ⟨rest, t.line.edit⟩) (hempty : t.line.committed = [] → rest = [])
    (hbound : ∀ target got, c.reading = some (target, got) → got.length ≤ target)
    (hasleep : ∀ target got, c = .asleep target got →
      rest = [] ∧ s.killed k = false ∧ got.length < target) :
    Simulates { s with cons := cons, call := update s.call k c }
      ⟨⟨rest, t.line.edit⟩, update t.reading k c.reading, t.killed⟩ := by
  refine ⟨hline, ?_, h.killed, ?_, ?_⟩
  · intro j
    by_cases hj : j = k
    · subst hj
      simp only [update_self]
    · simp only [update_of_ne hj]
      exact h.reading j
  · intro j
    by_cases hj : j = k
    · subst hj
      simp only [update_self]
      exact hbound
    · simp only [update_of_ne hj]
      exact h.bound j
  · intro j target got
    by_cases hj : j = k
    · subst hj
      simp only [update_self]
      exact hasleep target got
    simp only [update_of_ne hj]
    intro hcall
    have hold := h.asleep j target got hcall
    exact ⟨hempty hold.1, hold.2⟩

theorem takeLine_rest_nil (n : Nat) (delivered : Bool) : (takeLine n delivered []).rest = [] := by
  cases n with
  | zero => rw [takeLine_zero]
  | succ n => rw [takeLine_nil]

/-- A read that goes on waiting has taken everything and wants more. -/
theorem takeLine_waiting {n : Nat} {delivered : Bool} {q : List UInt8}
    (h : (takeLine n delivered q).ended = false) :
    (takeLine n delivered q).rest = [] ∧ (takeLine n delivered q).bytes.length < n := by
  induction n generalizing delivered q with
  | zero =>
    rw [takeLine_zero] at h
    cases h
  | succ n ih =>
    cases q with
    | nil =>
      rw [takeLine_nil]
      exact ⟨rfl, Nat.succ_pos n⟩
    | cons b q =>
      by_cases hD : b = ctrlD
      · rw [hD, takeLine_ctrlD] at h
        cases h
      by_cases hN : b = newline
      · rw [hN, takeLine_newline] at h
        cases h
      rw [takeLine_cons n _ q hD hN] at h ⊢
      obtain ⟨hrest, hlen⟩ := ih h
      exact ⟨hrest, by simpa using hlen⟩

/-- A process in `consoleread` gets the lock. -/
theorem Simulates.run (h : Simulates s t) (k : κ) :
    Simulates (step s (.run k)).1 (refStep t (.run k)).1 ∧
      (step s (.run k)).2 = (refStep t (.run k)).2 := by
  have hk := h.reading k
  simp only [step, refStep]
  cases hcall : s.call k with
  | idle =>
    rw [hcall] at hk
    simp only [hk, Call.reading]
    exact ⟨h, trivial⟩
  | asleep target got =>
    -- the reference finds nothing to read and goes on waiting
    obtain ⟨hempty, hkilled, hlen⟩ := h.asleep k target got hcall
    obtain ⟨n, hn⟩ := Nat.exists_eq_add_of_lt hlen
    have hwant : target - got.length = n + 1 := by omega
    have hreading : t.reading k = some (target, got) := by
      rw [hk, hcall]
      rfl
    have hself : update t.reading k (some (target, got)) = t.reading := by
      rw [← hreading]
      exact update_eq_self _ _
    have hline : (⟨[], t.line.edit⟩ : Line) = t.line := by
      rw [← hempty]
    simp only [hreading, hempty, hwant, takeLine_nil, h.killed, hkilled, List.append_nil, hself,
      hline]
    exact ⟨⟨h.line, h.reading, rfl, h.bound, h.asleep⟩, rfl⟩
  | ready target got =>
    have hbound := h.bound k target got (by rw [hcall]; rfl)
    rw [hcall] at hk
    obtain ⟨cons, hloop, hcons⟩ := readLoop_represents (s.killed k) target
      (target - got.length) got h.line (by omega)
    simp only [hk, Call.reading, h.killed, hloop]
    generalize htaken : takeLine (target - got.length) (decide (got ≠ [])) t.line.committed = taken
    rw [htaken] at hcons
    have hempty : t.line.committed = [] → taken.rest = [] := by
      intro hnil
      rw [← htaken, hnil]
      exact takeLine_rest_nil _ _
    cases hended : taken.ended with
    | true =>
      simp only [outcomeOf, hended, if_true, and_true]
      have hnext := h.move (k := k) (c := .idle) hcons hempty (by simp [Call.reading]) (by simp)
      rw [h.killed] at hnext
      exact hnext
    | false =>
      have hwait : (takeLine (target - got.length) (decide (got ≠ []))
          t.line.committed).ended = false := by
        rw [htaken]
        exact hended
      obtain ⟨hrest, hlen⟩ := takeLine_waiting hwait
      rw [htaken] at hrest hlen
      cases hkilled : s.killed k with
      | true =>
        simp only [outcomeOf, hended, if_true]
        refine ⟨?_, rfl⟩
        have hnext := h.move (k := k) (c := .idle) hcons hempty (by simp [Call.reading]) (by simp)
        rw [h.killed] at hnext
        exact hnext
      | false =>
        simp only [outcomeOf, hended]
        refine ⟨?_, rfl⟩
        have hlong : (got ++ taken.bytes).length < target := by
          rw [List.length_append]
          omega
        have hnext := h.move (k := k) (c := .asleep target (got ++ taken.bytes)) hcons hempty ?_ ?_
        · rw [h.killed] at hnext
          exact hnext
        · intro target' got' heq
          simp only [Call.reading, Option.some.injEq, Prod.mk.injEq] at heq
          rw [← heq.1, ← heq.2]
          omega
        · intro target' got' heq
          simp only [Call.asleep.injEq] at heq
          rw [← heq.1, ← heq.2]
          exact ⟨hrest, hkilled, hlong⟩

/-- **One event.** -/
theorem Simulates.step (h : Simulates s t) (e : Event κ) :
    Simulates (step s e).1 (refStep t e).1 ∧ (Console.step s e).2 = (refStep t e).2 := by
  cases e with
  | key c => exact h.key c
  | read k n => exact h.read k n
  | run k => exact h.run k
  | kill k => exact h.kill k

theorem Simulates.runs (h : Simulates s t) (events : List (Event κ)) :
    Simulates (Console.run s events).1 (refRun t events).1 ∧
      (Console.run s events).2 = (refRun t events).2 := by
  induction events generalizing s t with
  | nil => exact ⟨h, rfl⟩
  | cons e events ih =>
    obtain ⟨hnext, hout⟩ := h.step e
    obtain ⟨hlast, hrest⟩ := ih hnext
    refine ⟨hlast, ?_⟩
    simp only [Console.run, refRun, hout, hrest]

/-- **The console refines the line discipline.**  Over every sequence of characters and
calls of `consoleread`, by any processes, the outputs are those of the reference, the
indices stay in order, and no process sleeps while there are committed bytes. -/
theorem console_refines (events : List (Event κ)) :
    let s := (Console.run (State.init κ) events).1
    (Console.run (State.init κ) events).2 = (refRun (RefState.init κ) events).2 ∧
    (s.cons.w - s.cons.r).toNat ≤ (s.cons.e - s.cons.r).toNat ∧
    (s.cons.e - s.cons.r).toNat ≤ INPUT_BUF_SIZE ∧
    (∀ k target got, s.call k = .asleep target got → s.cons.r = s.cons.w) := by
  intro s
  obtain ⟨hsim, hout⟩ := (Simulates.init (κ := κ)).runs events
  obtain ⟨hw, he⟩ := hsim.line.indices
  refine ⟨hout, hw, he, ?_⟩
  intro k target got hk
  exact hsim.line.r_eq_w_iff.2 (hsim.asleep k target got hk).1

end Runs

end Kus.Console
