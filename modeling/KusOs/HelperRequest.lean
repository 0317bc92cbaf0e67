import Mathlib
import KusOs.Dispatch
import KusOs.JsonDecode

/-!
# The request `coomd` sends to its helper

`ask_llm_helper` builds its request by a sequence of `snprintf` calls into one
buffer, each at the running offset `off`.  `snprintf` returns the length the
text would have had, so `off` runs ahead of the text as soon as a call is cut
short; behind the end of the buffer the next call would write outside it
(`OutBuf.snprintf` is `none` there).

The loop over the candidates stops 100 bytes before the end of the buffer, and
a record has at most 81 bytes, so nothing is ever cut short.

* `recordLoop_spec`: what the loop has written when it stops;
* `helper_request_round_trip`: the request is one line of JSON and decodes to
  what it was built from.
-/

namespace Coomd

open CString

/-- The byte `json_sanitize` stores for `ch`. -/
def sanitizeByte (ch : Byte) : Byte := if ch = 34 ∨ ch = 92 ∨ ch < 32 then 32 else ch

/-- The loop of `json_sanitize` with `room` places left before the NUL. -/
def jsonSanitizeLoop : Nat → List Byte → List Byte
  | 0, _ => []
  | _ + 1, [] => []
  | room + 1, ch :: src => sanitizeByte ch :: jsonSanitizeLoop room src

/-- `json_sanitize(src, out, out_size)`. -/
def jsonSanitize (src : List Byte) (outSize : Nat) : List Byte := jsonSanitizeLoop (outSize - 1) src

/-- `input_json` up to its NUL, and `off`. -/
structure OutBuf where
  text : List Byte
  off : Nat

/-- `off += snprintf(input_json + off, sizeof(input_json) - off, ...)` for a call
that prints `s`.  Behind the end of the buffer it is undefined. -/
def OutBuf.snprintf (b : OutBuf) (s : List Byte) : Option OutBuf :=
  if b.off ≤ IPC_BUF_SIZE then
    some { text := b.text.take b.off ++ s.take (IPC_BUF_SIZE - b.off - 1), off := b.off + s.length }
  else none

/-- `%d`. -/
def formatInt (i : Int) : List Byte :=
  if i < 0 then 45 :: decimal i.natAbs else decimal i.natAbs

/-- The text before the candidates. -/
def headerText (safePolicy : List Byte) (targetFreeMb : Int) : List Byte :=
  bytes "\x7b\"policy\": \"" ++ safePolicy ++ bytes "\", \"target_free_mb\": " ++
    formatInt targetFreeMb ++ bytes ", \"candidates\": ["

/-- The text of one candidate. -/
def recordText (first : Bool) (c : Candidate) : List Byte :=
  (if first then bytes "" else bytes ", ") ++ bytes "\x7b\"pid\": " ++ formatInt c.pid ++
    bytes ", \"comm\": \"" ++ jsonSanitize c.comm 64 ++ bytes "\", \"rss_kb\": " ++
    decimal c.rss_kb ++ bytes "\x7d"

/-- `for (int i = 0; i < count; i++) { ... }`. -/
def recordLoop (first : Bool) : List Candidate → OutBuf → Option OutBuf
  | [], b => some b
  | c :: cs, b => do
      let b ← b.snprintf (recordText first c)
      if IPC_BUF_SIZE - 100 ≤ b.off then return b else recordLoop false cs b

/-- The buffer `ask_llm_helper` has built when it writes to the helper. -/
def helperRequest (policy : List Byte) (targetFreeMb : Int) (candidates : List Candidate) :
    Option OutBuf := do
  let b ← OutBuf.snprintf { text := [], off := 0 }
    (headerText (jsonSanitize policy 2048) targetFreeMb)
  let b ← recordLoop true candidates b
  b.snprintf (bytes "]\x7d\n")

/-- `write(to_child[1], input_json, strlen(input_json))`. -/
def OutBuf.sent (b : OutBuf) : List Byte := ofBuffer b.text

/-- The ranges of the C types: `comm` has at most 15 bytes, `pid` is an `int`
and `rss_kb` an `unsigned long`. -/
structure Candidate.Fits (c : Candidate) : Prop where
  comm : c.comm.length ≤ 15
  pid : -2 ^ 31 ≤ c.pid ∧ c.pid < 2 ^ 31
  rss : c.rss_kb < 2 ^ 64

/-- What the request says about a candidate. -/
def candidateJson (pid : Int) (comm : List Byte) (rssKb : Nat) : Json :=
  .obj [(bytes "pid", .int pid), (bytes "comm", .str comm), (bytes "rss_kb", .int rssKb)]

/-- What the request says. -/
def requestJson (policy : List Byte) (targetFreeMb : Int) (candidates : List Json) : Json :=
  .obj [(bytes "policy", .str policy), (bytes "target_free_mb", .int targetFreeMb),
    (bytes "candidates", .arr candidates)]

section Sanitize

variable {s t : List Byte}

theorem jsonSanitizeLoop_eq (room : Nat) (s : List Byte) :
    jsonSanitizeLoop room s = (s.take room).map sanitizeByte := by
  induction room generalizing s with
  | zero => rfl
  | succ room ih =>
    cases s with
    | nil => rfl
    | cons ch s => rw [jsonSanitizeLoop, ih, List.take_succ_cons, List.map_cons]

theorem jsonSanitize_eq (s : List Byte) (outSize : Nat) :
    jsonSanitize s outSize = (s.take (outSize - 1)).map sanitizeByte :=
  jsonSanitizeLoop_eq _ s

/-- Only printed bytes. -/
def Printed (t : List Byte) : Prop := ∀ b ∈ t, 32 ≤ b

theorem Printed.append (hs : Printed s) (ht : Printed t) : Printed (s ++ t) := by
  intro b hb
  rcases List.mem_append.1 hb with hb | hb
  · exact hs b hb
  · exact ht b hb

theorem sanitizeByte_plain (b : Byte) :
    sanitizeByte b ≠ 34 ∧ sanitizeByte b ≠ 92 ∧ 32 ≤ sanitizeByte b := by
  unfold sanitizeByte
  split
  · decide
  · rename_i h
    exact ⟨fun hq => h (.inl hq), fun hs => h (.inr (.inl hs)),
      UInt8.not_lt.1 fun hc => h (.inr (.inr hc))⟩

/-- A sanitized string is printed as it is. -/
theorem escaped_sanitize (s : List Byte) (outSize : Nat) :
    (jsonSanitize s outSize).flatMap escByte = jsonSanitize s outSize := by
  have hplain : ∀ b : Byte, b ≠ 34 ∧ b ≠ 92 ∧ 32 ≤ b → escByte b = [b] := by
    intro b hb
    unfold escByte
    grind
  rw [jsonSanitize_eq]
  generalize s.take (outSize - 1) = l
  induction l with
  | nil => rfl
  | cons b l ih => rw [List.map_cons, List.flatMap_cons, hplain _ (sanitizeByte_plain b), ih]; rfl

theorem printed_sanitize (s : List Byte) (outSize : Nat) : Printed (jsonSanitize s outSize) := by
  rw [jsonSanitize_eq]
  intro b hb
  obtain ⟨c, -, rfl⟩ := List.mem_map.1 hb
  exact (sanitizeByte_plain c).2.2

theorem length_sanitize_le (s : List Byte) (outSize : Nat) :
    (jsonSanitize s outSize).length ≤ min s.length (outSize - 1) := by
  rw [jsonSanitize_eq, List.length_map, List.length_take]
  omega

/-- Printable ASCII. -/
def Ascii (t : List Byte) : Prop := ∀ b ∈ t, 32 ≤ b ∧ b < 128

theorem ascii_literal {l : List Byte} (h : l.all (fun b => decide (32 ≤ b ∧ b < 128)) = true) :
    Ascii l := by
  intro b hb
  simpa using List.all_eq_true.1 h b hb

theorem ascii_decimal (n : Nat) : Ascii (decimal n) := by
  intro b hb
  have hdigit := decimal_isdigit n b hb
  unfold isdigit at hdigit
  grind

theorem ascii_formatInt (i : Int) : Ascii (formatInt i) := by
  unfold formatInt
  split
  · intro b hb
    rcases List.mem_cons.1 hb with rfl | hb
    · decide
    · exact ascii_decimal _ b hb
  · exact ascii_decimal _

end Sanitize

section Lengths

theorem length_decimal_le {k n : Nat} (hn : n < 10 ^ (k + 1)) : (decimal n).length ≤ k + 1 := by
  induction k generalizing n with
  | zero =>
    unfold decimal
    rw [Nat.toDigits_eq_if (by decide), if_pos (by simpa using hn)]
    simp
  | succ k ih =>
    by_cases hsmall : n < 10
    · unfold decimal
      rw [Nat.toDigits_eq_if (by decide), if_pos hsmall]
      simp
    have hdiv := ih (n := n / 10) (by rw [Nat.pow_succ] at hn; omega)
    unfold decimal at hdiv ⊢
    rw [Nat.toDigits_eq_if (by decide), if_neg hsmall, List.map_append, List.length_append]
    simp only [List.map_cons, List.map_nil, List.length_cons, List.length_nil]
    omega

theorem length_formatInt_le {i : Int} (h : -2 ^ 31 ≤ i ∧ i < 2 ^ 31) :
    (formatInt i).length ≤ 11 := by
  have hdecimal : (decimal i.natAbs).length ≤ 10 := length_decimal_le (by omega)
  unfold formatInt
  split
  · rw [List.length_cons]
    omega
  · omega

/-- A record has at most 81 bytes. -/
theorem length_recordText_le {c : Candidate} (hc : c.Fits) (first : Bool) :
    (recordText first c).length ≤ 81 := by
  have hpid := length_formatInt_le hc.pid
  have hrss : (decimal c.rss_kb).length ≤ 20 := length_decimal_le (by have := hc.rss; omega)
  have hcomm := length_sanitize_le c.comm 64
  have hlen := hc.comm
  have hfirst : (if first then bytes "" else bytes ", ").length ≤ 2 := by cases first <;> decide
  have h1 : (bytes "\x7b\"pid\": ").length = 8 := by decide
  have h2 : (bytes ", \"comm\": \"").length = 11 := by decide
  have h3 : (bytes "\", \"rss_kb\": ").length = 13 := by decide
  have h4 : (bytes "\x7d").length = 1 := by decide
  simp only [recordText, List.length_append, h1, h2, h3, h4]
  omega

/-- The text before the candidates has at most 2108 bytes. -/
theorem length_headerText_le (policy : List Byte) {target : Int}
    (h : -2 ^ 31 ≤ target ∧ target < 2 ^ 31) :
    (headerText (jsonSanitize policy 2048) target).length ≤ 2108 := by
  have htarget := length_formatInt_le h
  have hpolicy := length_sanitize_le policy 2048
  have h1 : (bytes "\x7b\"policy\": \"").length = 12 := by decide
  have h2 : (bytes "\", \"target_free_mb\": ").length = 21 := by decide
  have h3 : (bytes ", \"candidates\": [").length = 17 := by decide
  simp only [headerText, List.length_append, h1, h2, h3]
  omega

end Lengths

section Building

/-- A call that has room appends its text. -/
theorem OutBuf.snprintf_fits {b : OutBuf} {s : List Byte} (hoff : b.off = b.text.length)
    (hroom : b.off + s.length < IPC_BUF_SIZE) :
    b.snprintf s = some { text := b.text ++ s, off := (b.text ++ s).length } := by
  have htake : s.take (IPC_BUF_SIZE - b.off - 1) = s := List.take_of_length_le (by omega)
  rw [OutBuf.snprintf, if_pos (by omega), htake, hoff, List.take_length, List.length_append]

/-- The records of a list of candidates. -/
def recordsText : Bool → List Candidate → List Byte
  | _, [] => []
  | first, c :: cs => recordText first c ++ recordsText false cs

/-- **What the loop has written.**  The records of the first `k` candidates,
uncut; all of them if they leave the margin free. -/
theorem recordLoop_spec {cs : List Candidate} {b : OutBuf} {first : Bool}
    (hc : ∀ c ∈ cs, c.Fits) (hoff : b.off = b.text.length) (hroom : b.off < IPC_BUF_SIZE - 100) :
    ∃ k b', recordLoop first cs b = some b' ∧ k ≤ cs.length ∧
      b'.text = b.text ++ recordsText first (cs.take k) ∧ b'.off = b'.text.length ∧
      b'.off < IPC_BUF_SIZE - 19 ∧
      (b.off + 81 * cs.length < IPC_BUF_SIZE - 100 → k = cs.length) := by
  induction cs generalizing b first with
  | nil =>
    refine ⟨0, b, rfl, Nat.le_refl 0, by simp [recordsText], hoff, ?_, fun _ => rfl⟩
    unfold IPC_BUF_SIZE at *
    omega
  | cons c cs ih =>
    have hlen := length_recordText_le (hc c List.mem_cons_self) first
    have hstep := OutBuf.snprintf_fits (s := recordText first c) hoff
      (by unfold IPC_BUF_SIZE at *; omega)
    by_cases hstop : IPC_BUF_SIZE - 100 ≤ (b.text ++ recordText first c).length
    · refine ⟨1, ⟨b.text ++ recordText first c, (b.text ++ recordText first c).length⟩, ?_, by simp,
        ?_, rfl, ?_, ?_⟩
      · simp only [recordLoop, hstep, bind, Option.bind_some]
        rw [if_pos hstop]
        rfl
      · simp [recordsText]
      · simp only [List.length_append] at *
        unfold IPC_BUF_SIZE at *
        omega
      · intro hsmall
        simp only [List.length_append, List.length_cons] at *
        omega
    · obtain ⟨k, b', hrest, hk, htext, hoff', hbound, hall⟩ :=
        @ih ⟨b.text ++ recordText first c, (b.text ++ recordText first c).length⟩ false
          (fun c hc' => hc c (List.mem_cons_of_mem _ hc')) rfl (Nat.lt_of_not_le hstop)
      refine ⟨k + 1, b', ?_, by simp [hk], ?_, hoff', hbound, ?_⟩
      · simp only [recordLoop, hstep, bind, Option.bind_some]
        rw [if_neg hstop]
        exact hrest
      · rw [htext, List.take_succ_cons, recordsText, List.append_assoc]
      · intro hsmall
        simp only [List.length_append, List.length_cons] at *
        rw [hall (by omega)]

end Building

section Decoding

/-- A sanitized string between quotes. -/
theorem quoted_sanitize (s : List Byte) (outSize : Nat) :
    quoted (jsonSanitize s outSize) = 34 :: (jsonSanitize s outSize ++ [34]) := by
  rw [quoted, escaped_sanitize]

/-- The JSON of a candidate in the request. -/
def Candidate.json (c : Candidate) : Json := candidateJson c.pid (jsonSanitize c.comm 64) c.rss_kb

theorem recordText_eq (c : Candidate) : recordText true c = c.json.dumps := by
  have h1 : bytes "\x7b\"pid\": " = 123 :: (quoted (bytes "pid") ++ [58, 32]) := by decide
  have h2 : bytes ", \"comm\": \"" = [44, 32] ++ quoted (bytes "comm") ++ [58, 32, 34] := by decide
  have h3 : bytes "\", \"rss_kb\": " = [34, 44, 32] ++ quoted (bytes "rss_kb") ++ [58, 32] := by
    decide
  have h4 : bytes "\x7d" = [125] := by decide
  have h5 : bytes "" = [] := by decide
  have hrss : decimal c.rss_kb = formatInt c.rss_kb := by simp [formatInt]
  rw [recordText, hrss, h1, h2, h3, h4, h5]
  simp only [Candidate.json, candidateJson, Json.dumps, Json.dumpsMoreKeys, quoted_sanitize,
    formatInt, if_true, List.append_assoc, List.cons_append, List.nil_append, List.append_nil]

theorem recordText_more (c : Candidate) : recordText false c = [44, 32] ++ c.json.dumps := by
  have hsep : bytes ", " = [44, 32] := by decide
  have hnone : bytes "" = [] := by decide
  rw [← recordText_eq]
  simp only [recordText, hsep, hnone, if_true, Bool.false_eq_true, if_false, List.append_assoc,
    List.nil_append]

theorem recordsText_more (cs : List Candidate) :
    recordsText false cs = Json.dumpsMore (cs.map Candidate.json) := by
  induction cs with
  | nil => simp [recordsText]
  | cons c cs ih => rw [recordsText, recordText_more, ih, List.map_cons, Json.dumpsMore]

/-- The array of the candidates. -/
theorem recordsText_eq (cs : List Candidate) :
    91 :: (recordsText true cs ++ [93]) = (Json.arr (cs.map Candidate.json)).dumps := by
  cases cs with
  | nil => simp [recordsText, Json.dumps]
  | cons c cs =>
    rw [recordsText, recordText_eq, recordsText_more, List.map_cons, Json.dumps]

/-- **The request is the printed form of what it says.** -/
theorem request_eq (policy : List Byte) (target : Int) (cs : List Candidate) :
    headerText (jsonSanitize policy 2048) target ++ recordsText true cs ++ bytes "]\x7d\n" =
      (requestJson (jsonSanitize policy 2048) target (cs.map Candidate.json)).dumps ++ [10] := by
  have h1 : bytes "\x7b\"policy\": \"" = 123 :: (quoted (bytes "policy") ++ [58, 32, 34]) := by
    decide
  have h2 : bytes "\", \"target_free_mb\": " =
      [34, 44, 32] ++ quoted (bytes "target_free_mb") ++ [58, 32] := by decide
  have h3 : bytes ", \"candidates\": [" =
      [44, 32] ++ quoted (bytes "candidates") ++ [58, 32, 91] := by decide
  have h4 : bytes "]\x7d\n" = [93, 125, 10] := by decide
  have harr := recordsText_eq cs
  simp only [headerText, requestJson, Json.dumps, Json.dumpsMoreKeys, h1, h2, h3, h4,
    quoted_sanitize, ← harr]
  simp only [formatInt, List.append_assoc, List.cons_append, List.nil_append, List.append_nil]

theorem noFloats_candidates (cs : List Candidate) :
    Json.noFloats (cs.map Candidate.json) = true := by
  induction cs with
  | nil => rfl
  | cons c cs ih => rw [List.map_cons, Json.noFloats, ih]; rfl

/-- A property that texts have piece by piece. -/
structure Piecewise (P : List Byte → Prop) : Prop where
  append : ∀ {s t}, P s → P t → P (s ++ t)
  ascii : ∀ {t}, Ascii t → P t

variable {P : List Byte → Prop}

theorem Piecewise.header (hP : Piecewise P) {safe : List Byte} (hsafe : P safe) (target : Int) :
    P (headerText safe target) := by
  refine hP.append (hP.append (hP.append (hP.append ?_ hsafe) ?_) ?_) ?_
  · exact hP.ascii (ascii_literal (by decide))
  · exact hP.ascii (ascii_literal (by decide))
  · exact hP.ascii (ascii_formatInt _)
  · exact hP.ascii (ascii_literal (by decide))

theorem Piecewise.record (hP : Piecewise P) (first : Bool) {c : Candidate}
    (hc : P (jsonSanitize c.comm 64)) : P (recordText first c) := by
  refine hP.append (hP.append (hP.append (hP.append (hP.append (hP.append (hP.append
    ?_ ?_) ?_) ?_) hc) ?_) ?_) ?_
  · cases first <;> exact hP.ascii (ascii_literal (by decide))
  · exact hP.ascii (ascii_literal (by decide))
  · exact hP.ascii (ascii_formatInt _)
  · exact hP.ascii (ascii_literal (by decide))
  · exact hP.ascii (ascii_literal (by decide))
  · exact hP.ascii (ascii_decimal _)
  · exact hP.ascii (ascii_literal (by decide))

theorem Piecewise.records (hP : Piecewise P) (first : Bool) {cs : List Candidate}
    (hcs : ∀ c ∈ cs, P (jsonSanitize c.comm 64)) : P (recordsText first cs) := by
  induction cs generalizing first with
  | nil => exact hP.ascii (fun b hb => by cases hb)
  | cons c cs ih =>
    have hc := hcs c List.mem_cons_self
    exact hP.append (hP.record first hc) (ih false fun d hd => hcs d (List.mem_cons_of_mem c hd))

theorem piecewise_printed : Piecewise Printed :=
  ⟨Printed.append, fun h b hb => (h b hb).1⟩

theorem printed_request (policy : List Byte) (target : Int) (cs : List Candidate) :
    Printed (headerText (jsonSanitize policy 2048) target ++ recordsText true cs) :=
  .append (piecewise_printed.header (printed_sanitize policy 2048) target)
    (piecewise_printed.records true fun c _ => printed_sanitize c.comm 64)

end Decoding

/-- The request fits its buffer uncut, and all of it is sent. -/
theorem helperRequest_sent (policy : List Byte) {target : Int} {candidates : List Candidate}
    (htarget : -2 ^ 31 ≤ target ∧ target < 2 ^ 31) (hfits : ∀ c ∈ candidates, c.Fits) :
    ∃ b k, helperRequest policy target candidates = some b ∧
      b.off = b.text.length ∧ b.off < IPC_BUF_SIZE ∧
      b.sent = headerText (jsonSanitize policy 2048) target ++
        recordsText true (candidates.take k) ++ bytes "]\x7d\n" ∧
      k ≤ candidates.length ∧ (candidates.length ≤ MAX_CANDIDATES → k = candidates.length) := by
  have hheader := length_headerText_le policy htarget
  have hstart := OutBuf.snprintf_fits (b := ⟨[], 0⟩)
    (s := headerText (jsonSanitize policy 2048) target) rfl (by unfold IPC_BUF_SIZE; simp; omega)
  rw [List.nil_append] at hstart
  obtain ⟨k, b, hloop, hk, htext, hoff, hbound, hall⟩ := @recordLoop_spec candidates
    ⟨headerText (jsonSanitize policy 2048) target,
      (headerText (jsonSanitize policy 2048) target).length⟩ true hfits rfl
    (by unfold IPC_BUF_SIZE; simp only; omega)
  have hlen : (bytes "]\x7d\n").length = 3 := by decide
  have hend := OutBuf.snprintf_fits (s := bytes "]\x7d\n") hoff (by rw [hlen]; omega)
  have hprinted : Printed b.text := by
    rw [htext]
    exact printed_request policy target _
  have hsent : ofBuffer (b.text ++ bytes "]\x7d\n") = b.text ++ bytes "]\x7d\n" := by
    rw [ofBuffer, List.takeWhile_eq_self_iff]
    intro c hc
    rcases List.mem_append.1 hc with hc | hc
    · have hge := hprinted c hc
      grind
    · have hlit : (bytes "]\x7d\n").all (· != 0) = true := by decide
      exact List.all_eq_true.1 hlit c hc
  refine ⟨⟨b.text ++ bytes "]\x7d\n", (b.text ++ bytes "]\x7d\n").length⟩, k, ?_, rfl, ?_, ?_, hk,
    ?_⟩
  · simp only [helperRequest, hstart, bind, Option.bind_some, hloop]
    exact hend
  · simp only [List.length_append, hlen]
    omega
  · rw [OutBuf.sent, hsent, htext]
  · intro hcount
    apply hall
    unfold MAX_CANDIDATES at hcount
    unfold IPC_BUF_SIZE
    simp only
    omega

/-- **The request survives the trip.**  For every policy, target and list of
candidates the request fits its buffer uncut, is one line, and decodes to the
sanitized policy, the target and the candidates with sanitized names: all of
them, in order, if there are at most `MAX_CANDIDATES`, and a first part of the
list otherwise. -/
theorem helper_request_round_trip {policy : List Byte} {target : Int} {candidates : List Candidate}
    (htarget : -2 ^ 31 ≤ target ∧ target < 2 ^ 31) (hfits : ∀ c ∈ candidates, c.Fits) :
    ∃ b line k, helperRequest policy target candidates = some b ∧
      b.off = b.text.length ∧ b.off < IPC_BUF_SIZE ∧
      b.sent = line ++ [10] ∧ 10 ∉ line ∧
      k ≤ candidates.length ∧ (candidates.length ≤ MAX_CANDIDATES → k = candidates.length) ∧
      loads b.sent = some (requestJson ((policy.take 2047).map sanitizeByte) target
        ((candidates.take k).map fun c =>
          candidateJson c.pid (c.comm.map sanitizeByte) c.rss_kb)) := by
  obtain ⟨b, k, hrun, hoff, hsize, hsent, hk, hall⟩ := helperRequest_sent policy htarget hfits
  have hend : bytes "]\x7d\n" = [93, 125] ++ [10] := by decide
  refine ⟨b, _, k, hrun, hoff, hsize, by rw [hsent, hend, ← List.append_assoc], ?_, hk, hall, ?_⟩
  · intro hmem
    have hend : Printed [93, 125] := piecewise_printed.ascii (ascii_literal (by decide))
    exact absurd (Printed.append (printed_request policy target _) hend 10 hmem) (by decide)
  · have hcands : (candidates.take k).map Candidate.json = (candidates.take k).map fun c =>
        candidateJson c.pid (c.comm.map sanitizeByte) c.rss_kb := by
      apply List.map_congr_left
      intro c hc
      have hlen := (hfits c (List.mem_of_mem_take hc)).comm
      rw [Candidate.json, jsonSanitize_eq, List.take_of_length_le (by omega)]
    have hpol : jsonSanitize policy 2048 = (policy.take 2047).map sanitizeByte :=
      jsonSanitize_eq policy 2048
    rw [hsent, request_eq, ← hpol, ← hcands]
    apply loads_dumps
    simpa [requestJson, Json.noFloat, Json.noFloatKeys] using
      noFloats_candidates (candidates.take k)

/-- Two processes, one with a quote in its name. -/
def twoCandidates : List Candidate :=
  [{ pid := 4242, comm := bytes "chrome", rss_kb := 812345 },
    { pid := 7, comm := bytes "a\"b", rss_kb := 0 }]

/-- The request for them, under a policy of two lines. -/
theorem helper_request_round_trip_two :
    ∃ b, helperRequest (bytes "keep the\neditor") 500 twoCandidates = some b ∧
      loads b.sent = some (requestJson (bytes "keep the editor") 500
        [candidateJson 4242 (bytes "chrome") 812345, candidateJson 7 (bytes "a b") 0]) := by
  have hfits : ∀ c ∈ twoCandidates, c.Fits := by
    intro c hc
    simp only [twoCandidates, List.mem_cons, List.not_mem_nil, or_false] at hc
    rcases hc with rfl | rfl
    · exact ⟨by decide, by decide, by decide⟩
    · exact ⟨by decide, by decide, by decide⟩
  obtain ⟨b, line, k, hreq, -, -, -, -, -, hall, hloads⟩ :=
    @helper_request_round_trip (bytes "keep the\neditor") 500 _ (by decide) hfits
  obtain rfl : k = 2 := hall (by decide)
  exact ⟨b, hreq, hloads⟩

end Coomd
