import Mathlib
import KusOs.HelperRequest

/-!
# The request as text

The helper reads its request in text mode, so the line has to be UTF-8.  On its
way into the request the policy passes `load_policy_file`, which reads at most
2047 bytes of the file and knows nothing of characters.

`Utf8` is the table of well-formed byte sequences as a machine that reads one
byte at a time; a text is valid if it leaves the machine between characters.
-/

namespace Utf8

/-- Where a decoder is: between characters, before the last one, two or three
bytes of a character, or behind a first byte that restricts the second. -/
inductive State
  | start | one | two | three | e0 | ed | f0 | f4 | bad
deriving DecidableEq, Repr

/-- A byte that only continues a character. -/
def isCont (b : UInt8) : Bool := 0x80 ≤ b && b < 0xC0

def step : State → UInt8 → State
  | .start, b =>
    if b < 0x80 then .start
    else if b < 0xC2 then .bad
    else if b < 0xE0 then .one
    else if b = 0xE0 then .e0
    else if b = 0xED then .ed
    else if b < 0xF0 then .two
    else if b = 0xF0 then .f0
    else if b < 0xF4 then .three
    else if b = 0xF4 then .f4
    else .bad
  | .one, b => if isCont b then .start else .bad
  | .two, b => if isCont b then .one else .bad
  | .three, b => if isCont b then .two else .bad
  | .e0, b => if isCont b && 0xA0 ≤ b then .one else .bad
  | .ed, b => if isCont b && b < 0xA0 then .one else .bad
  | .f0, b => if isCont b && 0x90 ≤ b then .two else .bad
  | .f4, b => if isCont b && b < 0x90 then .two else .bad
  | .bad, _ => .bad

def run (s : State) (l : List UInt8) : State := l.foldl step s

def Valid (l : List UInt8) : Prop := run .start l = .start

instance (l : List UInt8) : Decidable (Valid l) := inferInstanceAs (Decidable (_ = _))

variable {s : State} {b : UInt8} {l r : List UInt8}

@[simp] theorem run_append (s : State) (l r : List UInt8) : run s (l ++ r) = run (run s l) r :=
  List.foldl_append

@[simp] theorem run_cons (s : State) (b : UInt8) (l : List UInt8) :
    run s (b :: l) = run (step s b) l := rfl

@[simp] theorem run_bad (l : List UInt8) : run .bad l = .bad := by
  induction l with
  | nil => rfl
  | cons b l ih => exact ih

/-- Inside a character only a continuation byte is read. -/
theorem step_inside (hs : s ≠ .start) (hb : isCont b = false) : step s b = .bad := by
  cases s <;> simp [step, hb] at hs ⊢

/-- Between characters none is. -/
theorem step_between (hb : isCont b = true) : step .start b = .bad := by
  grind [step, isCont]

theorem step_ascii (hb : b < 0x80) : step s b = if s = .start then .start else .bad := by
  by_cases hs : s = .start
  · simp [hs, step, hb]
  · rw [if_neg hs]
    exact step_inside hs (by grind [isCont])

/-- A text that starts with ASCII is read between characters only. -/
theorem run_text_iff (hb : b < 0x80) (hr : Valid r) : run s (b :: r) = .start ↔ s = .start := by
  rw [run_cons, step_ascii hb]
  split
  case isTrue hs => exact iff_of_true hr hs
  case isFalse hs => simp [hs]

theorem valid_ascii (h : ∀ b ∈ l, b < 0x80) : Valid l := by
  induction l with
  | nil => rfl
  | cons b l ih =>
    exact (run_text_iff (h b List.mem_cons_self)
      (ih fun c hc => h c (List.mem_cons_of_mem b hc))).2 rfl

theorem run_ascii_iff (h : ∀ b ∈ l, b < 0x80) : run s l = .start ↔ s = .start := by
  cases l with
  | nil => rfl
  | cons b l =>
    exact run_text_iff (h b List.mem_cons_self)
      (valid_ascii fun c hc => h c (List.mem_cons_of_mem b hc))

/-- A text ends where an ASCII byte follows. -/
theorem valid_cut (h : Valid (l ++ b :: r)) (hb : b < 0x80) : Valid l := by
  by_contra hl
  unfold Valid at h hl
  rw [run_append, run_cons, step_ascii hb, if_neg hl, run_bad] at h
  cases h

/-- A valid text can be cut exactly where no continuation byte follows. -/
theorem valid_take_iff (h : Valid l) (n : Nat) :
    Valid (l.take n) ↔ ∀ b ∈ l[n]?, isCont b = false := by
  unfold Valid at h ⊢
  rw [← List.take_append_drop n l, run_append] at h
  rw [← List.head?_drop]
  cases hdrop : l.drop n with
  | nil =>
    rw [hdrop] at h
    simpa [run] using h
  | cons b r =>
    rw [hdrop, run_cons] at h
    constructor
    · intro hstart c hc
      obtain rfl : b = c := by simpa using hc
      by_contra hcont
      rw [hstart, step_between (by simpa using hcont), run_bad] at h
      cases h
    · intro hcont
      by_contra hs
      rw [step_inside hs (hcont b (by simp)), run_bad] at h
      cases h

end Utf8

namespace Coomd

open CString Utf8

/-- The bytes `load_policy_file` takes off the end. -/
def trimmed (b : Byte) : Bool := b == 10 || b == 13 || b == 32

/-- `load_policy_file(path, buf, buf_size)`; `file` is what the path opens. -/
def loadPolicyFile (file : Option (List Byte)) (bufSize : Nat) : Option (List Byte) := do
  let buf := ((← file).take (bufSize - 1)).rdropWhile trimmed
  if buf = [] then none else some (ofBuffer buf)

/-- `default_policy`. -/
def defaultPolicy : List Byte :=
  bytes "I am coding. Never kill VS Code, gcc, or firefox. " ++
    bytes "Chrome tabs and music apps are fine to kill first."

/-- `policy_text`. -/
def policyText (file : Option (List Byte)) : List Byte :=
  (loadPolicyFile file 2048).getD defaultPolicy

theorem policyText_eq (file : List Byte) :
    policyText (some file) = if (file.take 2047).rdropWhile trimmed = [] then defaultPolicy
      else ofBuffer ((file.take 2047).rdropWhile trimmed) := by
  change (if (file.take 2047).rdropWhile trimmed = [] then none else some _).getD _ = _
  split <;> rfl

theorem length_policyText_le (file : List Byte) : (policyText (some file)).length ≤ 2047 := by
  rw [policyText_eq]
  split
  · decide
  · have hcut := (List.takeWhile_prefix (· != 0) (l := (file.take 2047).rdropWhile
      trimmed)).length_le
    have htrim := (List.rdropWhile_prefix trimmed (l := file.take 2047)).length_le
    rw [List.length_take] at htrim
    unfold ofBuffer
    omega

theorem step_sanitize (s : State) (b : Byte) : step s (sanitizeByte b) = step s b := by
  unfold sanitizeByte
  split
  · rw [step_ascii (by decide), step_ascii (by grind)]
  · rfl

/-- The sanitizer changes ASCII for ASCII. -/
theorem valid_sanitize_iff {l : List Byte} {n : Nat} (hl : l.length ≤ n) :
    Valid (jsonSanitize l (n + 1)) ↔ Valid l := by
  have hrun : ∀ s, run s (l.map sanitizeByte) = run s l := by
    intro s
    induction l generalizing s with
    | nil => rfl
    | cons b l ih =>
      rw [List.map_cons, run_cons, run_cons, step_sanitize]
      exact ih (by simp at hl; omega) _
  rw [jsonSanitize_eq, List.take_of_length_le (by simpa using hl), Valid, hrun]
  rfl

theorem piecewise_valid : Piecewise Valid := by
  constructor
  · intro s t hs ht
    rw [Valid, run_append, hs]
    exact ht
  · intro t ht
    exact valid_ascii fun b hb => (ht b hb).2

/-- The policy is text unless the buffer ends inside a character; a NUL before
that ends it earlier. -/
theorem policyText_valid_iff {file : List Byte} (h : Valid file) :
    Valid (policyText (some file)) ↔
      0 ∈ file.take 2047 ∨ ∀ b ∈ file[2047]?, isCont b = false := by
  rw [← valid_take_iff h 2047]
  have hsplit : (file.take 2047).rdropWhile trimmed ++ (file.take 2047).rtakeWhile trimmed =
      file.take 2047 := List.rdropWhile_append_rtakeWhile
  have hblank : ∀ b ∈ (file.take 2047).rtakeWhile trimmed, b < 0x80 ∧ b ≠ 0 := by
    intro b hb
    have htrim := List.mem_rtakeWhile_imp hb
    unfold trimmed at htrim
    grind
  generalize hbuf : (file.take 2047).rdropWhile trimmed = buf at hsplit
  generalize (file.take 2047).rtakeWhile trimmed = blanks at hsplit hblank
  have htrim : Valid (file.take 2047) ↔ Valid buf := by
    rw [← hsplit, Valid, run_append, run_ascii_iff fun b hb => (hblank b hb).1]
    rfl
  rw [htrim, policyText_eq, hbuf]
  split
  case isTrue hnil =>
    rw [hnil]
    exact iff_of_true (by decide) (.inr rfl)
  by_cases hnul : 0 ∈ file.take 2047
  · refine iff_of_true ?_ (.inl hnul)
    rw [← hsplit, List.mem_append] at hnul
    obtain ⟨text, rest, rfl, htext⟩ := List.eq_append_cons_of_mem
      (hnul.resolve_right fun hin => (hblank 0 hin).2 rfl)
    have hcut : ofBuffer (text ++ 0 :: rest) = text := by
      rw [ofBuffer, List.takeWhile_append_of_pos (by grind)]
      simp
    rw [hcut]
    rw [← List.take_append_drop 2047 file, ← hsplit, List.append_assoc, List.append_assoc] at h
    exact valid_cut h (by decide)
  · have hall : ofBuffer buf = buf := by
      rw [ofBuffer, List.takeWhile_eq_self_iff]
      grind
    rw [hall, or_iff_right hnul]

/-- **The request is text** unless the policy buffer ends inside a character. -/
theorem request_decodable_iff {file : List Byte} {target : Int} {candidates : List Candidate}
    (hfile : Valid file) (hcomm : ∀ c ∈ candidates, Valid c.comm)
    (htarget : -2 ^ 31 ≤ target ∧ target < 2 ^ 31) (hfits : ∀ c ∈ candidates, c.Fits) :
    ∃ b, helperRequest (policyText (some file)) target candidates = some b ∧
      (Valid b.sent ↔ 0 ∈ file.take 2047 ∨ ∀ b ∈ file[2047]?, isCont b = false) := by
  obtain ⟨b, k, hrun, -, -, hsent, -, -⟩ :=
    helperRequest_sent (policyText (some file)) htarget hfits
  refine ⟨b, hrun, ?_⟩
  rw [← policyText_valid_iff hfile, ← valid_sanitize_iff (length_policyText_le file), hsent]
  generalize jsonSanitize (policyText (some file)) 2048 = policy
  have hrecords : Valid (recordsText true (candidates.take k)) := by
    apply piecewise_valid.records
    intro c hc
    have hin := List.mem_of_mem_take hc
    have hlen := (hfits c hin).comm
    exact (valid_sanitize_iff (n := 63) (by omega)).2 (hcomm c hin)
  have hquote : bytes "\", \"target_free_mb\": " = 34 :: bytes ", \"target_free_mb\": " := by decide
  have hrest : Valid (bytes ", \"target_free_mb\": " ++ (formatInt target ++
      (bytes ", \"candidates\": [" ++ (recordsText true (candidates.take k) ++
        bytes "]\x7d\n")))) := by
    apply piecewise_valid.append (piecewise_valid.ascii (ascii_literal (by decide)))
    apply piecewise_valid.append (piecewise_valid.ascii (ascii_formatInt target))
    apply piecewise_valid.append (piecewise_valid.ascii (ascii_literal (by decide)))
    exact piecewise_valid.append hrecords (by decide)
  have hopen : run .start (bytes "\x7b\"policy\": \"") = .start := by decide
  simp only [headerText, hquote, List.append_assoc, List.cons_append]
  rw [Valid, run_append, hopen, run_append, run_text_iff (by decide) hrest]
  rfl

theorem request_decodable_iff_short :
    ∃ b, helperRequest (policyText (some (bytes "keep gcc\n"))) 500 [] = some b ∧ Valid b.sent := by
  obtain ⟨b, hrun, hiff⟩ := @request_decodable_iff (bytes "keep gcc\n") 500 [] (by decide)
    (by simp) (by decide) (by simp)
  have hend : (bytes "keep gcc\n")[2047]? = none := by decide
  exact ⟨b, hrun, hiff.2 (.inr (by simp [hend]))⟩

/-- A policy whose last character is two bytes long and starts at byte 2046. -/
def longPolicy : List Byte := List.replicate 2046 97 ++ [0xC3, 0xA9]

theorem long_policy_cut :
    Valid longPolicy ∧ (helperRequest (policyText (some longPolicy)) 500 []).map
      (fun b => decide (Valid b.sent)) = some false := by
  decide +kernel

end Coomd
