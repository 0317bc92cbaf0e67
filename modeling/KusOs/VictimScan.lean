import KusOs.CStrings

/-!
# How `coomd` reads PIDs out of the helper's answer

`ask_llm_helper` (`coomd/daemon/main.c`) does not parse the JSON it receives.
It looks for the bytes `"victims"`, takes the text from the next `[` to the
next `]`, and stores every run of digits in it, converted with `strtol` and
narrowed to `int`.  `victimLoop` is that loop over pointers.
-/

namespace Coomd

open CString

/-- `MAX_CANDIDATES`. -/
def MAX_CANDIDATES : Nat := 128

/-- `IPC_BUF_SIZE`. -/
def IPC_BUF_SIZE : Nat := 16384

/-- The key the scanner looks for, with its quotes. -/
def victimsKey : List Byte := bytes "\"victims\""

/-- `while (p < rb && (*p < '0' || *p > '9')) p++;` -/
def skipNonDigits (rb : List Byte) : List Byte → List Byte
  | [] => []
  | b :: p =>
    if rb.length < (b :: p).length && !isdigit b then skipNonDigits rb p else b :: p

/-- `while (p < rb && victim_count < max_victims) { ... }`, with `room` places
left in `out_victims`. -/
def victimLoop (rb : List Byte) : Nat → List Byte → List Int
  | 0, _ => []
  | room + 1, p =>
    if p.length ≤ rb.length then []
    else
      let q := skipNonDigits rb p
      if q.length ≤ rb.length then []
      else toInt (strtol q).1 :: victimLoop rb room (strtol q).2

/-- The victims stored for the string read from the helper. -/
def victimsIn (output : List Byte) (maxVictims : Nat) : List Int :=
  match strstr victimsKey output with
  | none => []
  | some vptr =>
    match strchr 91 vptr with
    | none => []
    | some lb =>
      match strchr 93 lb with
      | none => []
      | some rb => victimLoop rb maxVictims lb.tail

/-- The victims `ask_llm_helper` stores when `read` delivered the bytes
`reply`; `none` is its failure return. -/
def askLlmHelper (reply : List Byte) (maxVictims : Nat) : Option (List Int) :=
  if reply = [] then none
  else some (victimsIn (ofBuffer (reply.take (IPC_BUF_SIZE - 1))) maxVictims)

section Loop

variable {pre rb p s : List Byte} {room : Nat}

private theorem skipNonDigits_append :
    skipNonDigits rb (pre ++ rb) = (pre.dropWhile fun b => !isdigit b) ++ rb := by
  induction pre with
  | nil => cases rb <;> simp [skipNonDigits]
  | cons b pre ih =>
    cases hb : isdigit b with
    | true => simp [skipNonDigits, hb]
    | false =>
      have hlt : decide (rb.length < (b :: (pre ++ rb)).length) = true := by
        simp only [List.length_cons, List.length_append, decide_eq_true_eq]
        omega
      rw [List.cons_append, skipNonDigits, hlt, ih]
      simp [hb]

private theorem takeWhile_bracket {b : Byte} (hb : isdigit b = false) (post : List Byte) :
    (pre ++ b :: post).takeWhile isdigit = pre.takeWhile isdigit ∧
    (pre ++ b :: post).dropWhile isdigit = pre.dropWhile isdigit ++ b :: post := by
  induction pre with
  | nil => simp [hb]
  | cons d pre ih =>
    cases hd : isdigit d with
    | true => simpa [hd] using ih
    | false => simp [hd]

/-- The value stored for a run of digits. -/
def storedPid (run : List Byte) : Int := toInt (clampLong (digitsVal run))

/-- **The loop reads runs of digits.**  Between the brackets every maximal run
of digits is stored, in order, until the places run out. -/
theorem victimLoop_spec {b : Byte} (hb : isdigit b = false) (post : List Byte) :
    victimLoop (b :: post) room (pre ++ b :: post) =
      ((digitRuns pre).take room).map storedPid := by
  induction room generalizing pre with
  | zero => simp [victimLoop]
  | succ room ih =>
    unfold victimLoop
    rw [skipNonDigits_append, ← digitRuns_dropWhile (s := pre)]
    by_cases hpre : pre = []
    · simp [hpre, digitRuns_nil]
    have hlong : ¬ (pre ++ b :: post).length ≤ (b :: post).length := by
      have := List.length_pos_of_ne_nil hpre
      simp only [List.length_append]
      omega
    rw [if_neg hlong]
    cases hrest : pre.dropWhile fun b => !isdigit b with
    | nil => simp [digitRuns_nil]
    | cons d rest =>
      have hd : isdigit d = true := by
        have hhead := List.head?_dropWhile_not (fun b => !isdigit b) pre
        simpa [hrest] using hhead
      obtain ⟨htake, hdrop⟩ := @takeWhile_bracket (d :: rest) b hb post
      have hlong' : ¬ (d :: rest ++ b :: post).length ≤ (b :: post).length := by
        simp only [List.length_cons, List.length_append]
        omega
      have hstrtol : strtol (d :: rest ++ b :: post) =
          (clampLong (digitsVal ((d :: rest).takeWhile isdigit)),
            (d :: rest).dropWhile isdigit ++ b :: post) := by
        rw [← htake, ← hdrop, List.cons_append]
        exact strtol_digit hd
      rw [digitRuns_digit hd, List.take_succ_cons, List.map_cons, ← ih]
      simp only [hstrtol, if_neg hlong', storedPid]

/-- The text the scanner looks at: from the first `[` after the key to the
next `]`. -/
def scannedText (output : List Byte) : Option (List Byte) := do
  let vptr ← strstr victimsKey output
  let lb ← strchr 91 vptr
  let rb ← strchr 93 lb
  return (lb.take (lb.length - rb.length)).tail

/-- What is stored depends on the scanned text only. -/
theorem victimsIn_eq (output : List Byte) (maxVictims : Nat) :
    victimsIn output maxVictims =
      (((scannedText output).elim [] digitRuns).take maxVictims).map storedPid := by
  unfold victimsIn scannedText
  cases hv : strstr victimsKey output with
  | none => simp
  | some vptr =>
    cases hl : strchr 91 vptr with
    | none => simp [hl]
    | some lb =>
      cases hr : strchr 93 lb with
      | none => simp [hl, hr]
      | some rb =>
        obtain ⟨before, rest, _, _, rfl⟩ := strchr_eq_some hl
        obtain ⟨pre, post, hsplit, hpre, rfl⟩ := strchr_eq_some hr
        cases pre with
        | nil => simp at hsplit
        | cons d pre =>
          obtain ⟨rfl, rfl⟩ : (91 : Byte) = d ∧ rest = pre ++ 93 :: post := by
            simpa using hsplit
          have htext : ((91 :: (pre ++ 93 :: post)).take
              ((91 :: (pre ++ 93 :: post)).length - (93 :: post).length)).tail = pre := by
            have hlen : (91 :: (pre ++ 93 :: post)).length - (93 :: post).length =
                (91 :: pre).length := by
              simp only [List.length_cons, List.length_append]
              omega
            rw [hlen, ← List.cons_append, List.take_left]
            rfl
          simp only [hl, hr, List.tail_cons, bind, Option.bind, pure, Option.elim, htext]
          exact victimLoop_spec (by decide) post

theorem scannedText_mono {t text : List Byte} (h : scannedText p = some text) :
    scannedText (p ++ t) = some text := by
  simp only [scannedText, bind, Option.bind_eq_some_iff, pure, Option.some.injEq] at h ⊢
  obtain ⟨vptr, hv, lb, hl, rb, hr, rfl⟩ := h
  refine ⟨_, strstr_mono hv, _, strchr_mono hl, _, strchr_mono hr, ?_⟩
  have hle : rb.length ≤ lb.length := by
    obtain ⟨pre, rest, hsplit, _, _⟩ := strchr_eq_some hr
    simp [hsplit]
  have hlen : (lb ++ t).length - (rb ++ t).length = lb.length - rb.length := by
    simp only [List.length_append]
    omega
  rw [hlen, List.take_append_of_le_length (by omega)]

/-- A prefix of an answer yields nothing or what the whole answer yields. -/
theorem victimsIn_of_le (h : p <+: s) (maxVictims : Nat) :
    victimsIn p maxVictims = [] ∨ victimsIn p maxVictims = victimsIn s maxVictims := by
  obtain ⟨t, rfl⟩ := h
  cases htext : scannedText p with
  | none => exact .inl (by simp [victimsIn_eq, htext])
  | some text => exact .inr (by rw [victimsIn_eq, victimsIn_eq, htext, scannedText_mono htext])

theorem ofBuffer_mono (h : p <+: s) : ofBuffer p <+: ofBuffer s := by
  obtain ⟨t, rfl⟩ := h
  unfold ofBuffer
  induction p with
  | nil => exact List.nil_prefix
  | cons b p ih =>
    by_cases hb : (b != 0) = true
    · simpa [List.takeWhile_cons, hb] using ih
    · simp [hb]

/-- **A cut answer gives all the victims or none.**  What `ask_llm_helper` stores after a
`read` that delivered a prefix of the answer is nothing, or what it stores after a
`read` of the whole, or of as much of it as the buffer takes. -/
theorem truncated_answer {p s : List Byte} (h : p <+: s) (maxVictims : Nat) :
    ((askLlmHelper p maxVictims).getD [] = [] ∨
      (askLlmHelper p maxVictims).getD [] = (askLlmHelper s maxVictims).getD []) ∧
    ((askLlmHelper p maxVictims).getD [] = [] ∨
      (askLlmHelper p maxVictims).getD [] = victimsIn (ofBuffer s) maxVictims) := by
  by_cases hp : p = []
  · have hnone : (askLlmHelper p maxVictims).getD [] = [] := by
      rw [askLlmHelper, if_pos hp]
      rfl
    exact ⟨.inl hnone, .inl hnone⟩
  have hs : s ≠ [] := by
    intro hs
    rw [hs] at h
    exact hp (List.prefix_nil.1 h)
  rw [askLlmHelper, if_neg hp, askLlmHelper, if_neg hs, Option.getD_some, Option.getD_some]
  have hcut : p.take (IPC_BUF_SIZE - 1) <+: s.take (IPC_BUF_SIZE - 1) := h.take _
  have hwhole : p.take (IPC_BUF_SIZE - 1) <+: s := (List.take_prefix _ _).trans h
  exact ⟨victimsIn_of_le (ofBuffer_mono hcut) maxVictims,
    victimsIn_of_le (ofBuffer_mono hwhole) maxVictims⟩

/-- An answer cut inside its number. -/
theorem truncated_answer_number :
    let p := bytes "\"victims\": [12"
    let s := bytes "\"victims\": [123, 7]"
    (askLlmHelper s 128).getD [] = [123, 7] ∧
    ((askLlmHelper p 128).getD [] = [] ∨ (askLlmHelper p 128).getD [] = [123, 7]) := by
  intro p s
  have hs : (askLlmHelper s 128).getD [] = [123, 7] := by decide +kernel
  have hprefix : p <+: s := by decide +kernel
  refine ⟨hs, ?_⟩
  have h := (truncated_answer hprefix 128).1
  rw [hs] at h
  exact h

end Loop

end Coomd
