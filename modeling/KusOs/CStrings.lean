import Mathlib

/-!
# C strings and the library calls that scan them

A C string is the list of its bytes without the terminating NUL, and a pointer
into it is the suffix it points at.  `strchr`, `strstr` and `strtol` are the
standard functions: the first two return the suffix found, `strtol` returns the
value and the suffix at which it stopped.  `p < q` for two pointers into one
string is a comparison of the lengths of their suffixes, the other way round.
-/

namespace CString

/-- A byte. -/
abbrev Byte := UInt8

/-- The bytes of a source literal (ASCII). -/
def bytes (s : String) : List Byte := s.toList.map fun c => c.toNat.toUInt8

/-- What a buffer of bytes is as a string: everything before the first NUL. -/
def ofBuffer (buf : List Byte) : List Byte := buf.takeWhile (· != 0)

/-- `strchr(s, c)` for a character other than NUL. -/
def strchr (c : Byte) : List Byte → Option (List Byte)
  | [] => none
  | b :: s => if b = c then some (b :: s) else strchr c s

/-- `strstr(s, needle)`. -/
def strstr (needle : List Byte) : List Byte → Option (List Byte)
  | [] => if needle = [] then some [] else none
  | b :: s => if needle.isPrefixOf (b :: s) then some (b :: s) else strstr needle s

/-- `isspace` in the C locale. -/
def isspace (b : Byte) : Bool := b == 32 || (9 ≤ b && b ≤ 13)

/-- `'0' <= b && b <= '9'`. -/
def isdigit (b : Byte) : Bool := 48 ≤ b && b ≤ 57

/-- The number a run of decimal digits spells. -/
def digitsVal (ds : List Byte) : Nat :=
  ds.foldl (fun n d => 10 * n + (d.toNat - 48)) 0

/-- Largest value of a 64-bit `long`. -/
def LONG_MAX : Int := 2 ^ 63 - 1

/-- Smallest value of a 64-bit `long`. -/
def LONG_MIN : Int := -2 ^ 63

/-- The value `strtol` gives for an exact number: out of range it saturates. -/
def clampLong (v : Int) : Int := max LONG_MIN (min LONG_MAX v)

/-- `strtol(s, &end, 10)`: blanks, an optional sign, then digits; without a
digit nothing is consumed. -/
def strtol (s : List Byte) : Int × List Byte :=
  let body := s.dropWhile isspace
  let neg := body.head? == some 45
  let num := if neg || body.head? == some 43 then body.tail else body
  let ds := num.takeWhile isdigit
  if ds = [] then (0, s)
  else (clampLong (if neg then -(digitsVal ds : Int) else digitsVal ds), num.dropWhile isdigit)

/-- Conversion of a `long` to a 32-bit `int`. -/
def toInt (v : Int) : Int := Int.bmod v (2 ^ 32)

/-- `fscanf(f, "%15s", buf)` on the rest of a file: the next blank-delimited
word, at most 15 bytes of it, or nothing at the end of the file. -/
def scanWord15 (file : List Byte) : Option (List Byte) :=
  let word := ((file.dropWhile isspace).takeWhile fun b => !isspace b).take 15
  if word = [] then none else some word

section Search

variable {c : Byte} {needle s t r : List Byte}

/-- `strchr` splits the string at the first occurrence. -/
theorem strchr_eq_some (h : strchr c s = some r) :
    ∃ pre rest, s = pre ++ r ∧ c ∉ pre ∧ r = c :: rest := by
  induction s with
  | nil => cases h
  | cons b s ih =>
    unfold strchr at h
    by_cases hb : b = c
    · rw [if_pos hb] at h
      obtain rfl := Option.some.inj h
      exact ⟨[], s, rfl, List.not_mem_nil, by rw [hb]⟩
    rw [if_neg hb] at h
    obtain ⟨pre, rest, rfl, hpre, hr⟩ := ih h
    refine ⟨b :: pre, rest, rfl, ?_, hr⟩
    simpa [hpre] using fun heq : c = b => hb heq.symm

theorem strchr_append (hpre : c ∉ s) : strchr c (s ++ c :: t) = some (c :: t) := by
  induction s with
  | nil => simp [strchr]
  | cons b s ih =>
    have hb : b ≠ c := fun heq => hpre (heq ▸ List.mem_cons_self)
    have hs : c ∉ s := fun hmem => hpre (List.mem_cons_of_mem _ hmem)
    simp [strchr, hb, ih hs]

/-- Text added at the end does not move the first occurrence. -/
theorem strchr_mono (h : strchr c s = some r) : strchr c (s ++ t) = some (r ++ t) := by
  obtain ⟨pre, rest, rfl, hpre, rfl⟩ := strchr_eq_some h
  simpa using strchr_append (t := rest ++ t) hpre

theorem strstr_length_le (h : strstr needle s = some r) : needle.length ≤ s.length := by
  induction s with
  | nil =>
    unfold strstr at h
    by_cases hn : needle = []
    · simp [hn]
    · simp [hn] at h
  | cons b s ih =>
    unfold strstr at h
    by_cases hpre : needle.isPrefixOf (b :: s) = true
    · exact (List.isPrefixOf_iff_prefix.mp hpre).length_le
    · rw [if_neg hpre] at h
      exact (ih h).trans (by simp)

/-- Text added at the end does not move the first occurrence: an earlier one
would have ended before the one found. -/
theorem strstr_mono (h : strstr needle s = some r) : strstr needle (s ++ t) = some (r ++ t) := by
  induction s with
  | nil =>
    unfold strstr at h
    by_cases hn : needle = []
    · obtain rfl : [] = r := by simpa [hn] using h
      cases t <;> simp [strstr, hn]
    · simp [hn] at h
  | cons b s ih =>
    unfold strstr at h
    by_cases hpre : needle.isPrefixOf (b :: s) = true
    · rw [if_pos hpre] at h
      obtain rfl := Option.some.inj h
      have hlong : needle.isPrefixOf (b :: (s ++ t)) = true := by
        rw [List.isPrefixOf_iff_prefix] at hpre ⊢
        exact hpre.trans (List.prefix_append (b :: s) t)
      simp [strstr, hlong]
    rw [if_neg hpre] at h
    have hlen : needle.length ≤ (b :: s).length := (strstr_length_le h).trans (by simp)
    have hshort : ¬ needle.isPrefixOf (b :: (s ++ t)) = true := by
      rw [List.isPrefixOf_iff_prefix] at hpre ⊢
      intro hlong
      exact hpre (List.prefix_of_prefix_length_le hlong (List.prefix_append (b :: s) t) hlen)
    rw [List.cons_append, strstr, if_neg hshort]
    exact ih h

/-- The needle is found where it starts if it does not start earlier. -/
theorem strstr_append (hclear : ∀ a b, s = a ++ b → b ≠ [] → ¬ needle <+: b ++ t)
    (hhere : needle <+: t) (ht : t ≠ []) : strstr needle (s ++ t) = some t := by
  induction s with
  | nil =>
    cases t with
    | nil => exact absurd rfl ht
    | cons b t => simp [strstr, List.isPrefixOf_iff_prefix, hhere]
  | cons b s ih =>
    have hnot : ¬ needle.isPrefixOf (b :: (s ++ t)) = true := by
      rw [List.isPrefixOf_iff_prefix]
      exact hclear [] (b :: s) rfl (List.cons_ne_nil _ _)
    rw [List.cons_append, strstr, if_neg hnot]
    exact ih fun a b' hs hb' => hclear (b :: a) b' (by simp [hs]) hb'

end Search

section Numbers

variable {s : List Byte} {b : Byte}

theorem isdigit_not_sign (h : isdigit b = true) : isspace b = false ∧ b ≠ 45 ∧ b ≠ 43 := by
  unfold isdigit at h
  unfold isspace
  grind

/-- At a digit `strtol` reads the maximal run of digits. -/
theorem strtol_digit (h : isdigit b = true) :
    strtol (b :: s) =
      (clampLong (digitsVal ((b :: s).takeWhile isdigit)), (b :: s).dropWhile isdigit) := by
  obtain ⟨hspace, hminus, hplus⟩ := isdigit_not_sign h
  simp [strtol, hspace, hminus, hplus, h]

/-- The maximal runs of digits of a text, in order. -/
def digitRuns (s : List Byte) : List (List Byte) :=
  (s.splitOnP fun b => !isdigit b).filter fun run => run ≠ []

theorem digitRuns_nil : digitRuns [] = [] := by
  simp [digitRuns]

theorem digitRuns_cons_of_not_digit (h : isdigit b = false) : digitRuns (b :: s) = digitRuns s := by
  simp [digitRuns, List.splitOnP_cons_eq_if_modifyHead, h]

theorem digitRuns_of_digits (hne : s ≠ []) (h : ∀ b ∈ s, isdigit b = true) : digitRuns s = [s] := by
  have hall : ∀ b ∈ s, (!isdigit b) = false := by
    intro b hb
    simp [h b hb]
  simp [digitRuns, List.splitOnP_eq_singleton hall, hne]

/-- A non-empty run of digits that ends at another byte is the first run. -/
theorem digitRuns_append {run : List Byte} (hne : run ≠ []) (hrun : ∀ d ∈ run, isdigit d = true)
    (hb : isdigit b = false) : digitRuns (run ++ b :: s) = run :: digitRuns (b :: s) := by
  have hall : ∀ d ∈ run, (!isdigit d) = false := by
    intro d hd
    simp [hrun d hd]
  rw [digitRuns_cons_of_not_digit hb]
  simp [digitRuns, List.splitOnP_append_cons_of_forall_mem hall b (by simp [hb]), hne]

theorem digitRuns_dropWhile : digitRuns (s.dropWhile fun b => !isdigit b) = digitRuns s := by
  induction s with
  | nil => rfl
  | cons b s ih =>
    cases hb : isdigit b with
    | true => simp [hb]
    | false => simpa [hb, digitRuns_cons_of_not_digit hb] using ih

/-- A text that starts with a digit splits off its first run. -/
theorem digitRuns_digit (h : isdigit b = true) :
    digitRuns (b :: s) =
      (b :: s).takeWhile isdigit :: digitRuns ((b :: s).dropWhile isdigit) := by
  have hne : (b :: s).takeWhile isdigit ≠ [] := by simp [h]
  have hrun : ∀ d ∈ (b :: s).takeWhile isdigit, isdigit d = true :=
    List.all_eq_true.mp List.all_takeWhile
  cases hrest : (b :: s).dropWhile isdigit with
  | nil =>
    have hall : (b :: s).takeWhile isdigit = b :: s := by
      have hsplit := List.takeWhile_append_dropWhile (p := isdigit) (l := b :: s)
      rwa [hrest, List.append_nil] at hsplit
    rw [hall] at hrun ⊢
    rw [digitRuns_of_digits (List.cons_ne_nil _ _) hrun, digitRuns_nil]
  | cons d rest =>
    have hd : isdigit d = false := by
      have hhead := List.head?_dropWhile_not isdigit (b :: s)
      simpa [hrest] using hhead
    have hsplit : b :: s = (b :: s).takeWhile isdigit ++ d :: rest := by
      rw [← hrest, List.takeWhile_append_dropWhile]
    calc digitRuns (b :: s)
        = digitRuns ((b :: s).takeWhile isdigit ++ d :: rest) := by rw [← hsplit]
      _ = _ := digitRuns_append hne hrun hd

end Numbers

end CString
