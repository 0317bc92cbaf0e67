import Mathlib
import KusOs.JsonAnswer

/-!
# The victim list survives the trip

For an answer of the shape the helper prints (`victims`, `reasoning` and
`confidence`, in any order) the daemon stores the list it was sent, whatever the
reasoning says.

Escaping does not keep the reasoning from holding the bytes of the key: if the
reasoning is the word `victims`, or ends in a quote and that word, its closing
quote completes them, and when the reasoning is printed before the list the
scanner stops there (`marked_split`).  It makes no difference, because from there
to the bracket that opens the list no other bracket is printed.
-/

namespace Coomd

open CString

/-- A number as JSON prints it. -/
def Json.IsNumber : Json → Prop
  | .int _ | .float _ => True
  | _ => False

/-- The members of an answer, in the order of the prompt. -/
def answer (victims : List Int) (reasoning : List Byte) (confidence : Json) :
    List (List Byte × Json) :=
  [(victimsWord, .arr (victims.map .int)), (bytes "reasoning", .str reasoning),
    (bytes "confidence", confidence)]

section Texts

variable {s t k : List Byte} {v : Json} {kvs : List (List Byte × Json)}

theorem mem_textsKeys : t ∈ Json.textsKeys kvs ↔ ∃ kv ∈ kvs, t = kv.1 ∨ t ∈ kv.2.texts := by
  induction kvs with
  | nil => simp
  | cons kv kvs ih => simp [ih, or_assoc]

theorem Json.IsNumber.texts (hv : v.IsNumber) : v.texts = [] := by
  cases v <;> first | rfl | cases hv

/-- The bytes of a number. -/
theorem Json.IsNumber.bytes_dumps (hv : v.IsNumber) : ∀ b ∈ v.dumps, floatByte b = true := by
  cases v with
  | int i =>
    intro b hb
    have hdecimal : b ∈ decimal i.natAbs → floatByte b = true := by
      intro hmem
      rw [floatByte, decimal_isdigit _ b hmem, Bool.true_or]
    rw [Json.dumps] at hb
    split at hb
    · rcases List.mem_cons.1 hb with rfl | hb
      · decide
      · exact hdecimal hb
    · exact hdecimal hb
  | float f =>
    intro b hb
    rw [Json.dumps] at hb
    exact f.2 b hb
  | _ => cases hv

theorem mem_dumpsMoreKeys {b : Byte} :
    b ∈ Json.dumpsMoreKeys kvs ↔
      ∃ kv ∈ kvs, b ∈ [44, 32] ++ quoted kv.1 ++ [58, 32] ++ kv.2.dumps := by
  induction kvs with
  | nil => simp
  | cons kv kvs ih =>
    rw [Json.dumpsMoreKeys, List.mem_append, ih, List.exists_mem_cons_iff]

/-- No string is printed with a NUL. -/
theorem nul_not_mem_quoted (s : List Byte) : (0 : Byte) ∉ quoted s := by
  have hhex : ∀ n < 16, hexDigit n ≠ 0 := by decide
  have hesc : ∀ b : Byte, (0 : Byte) ∉ escByte b := by
    intro b
    have hhi := hhex (b.toNat / 16) (by have := b.toNat_lt; omega)
    have hlo := hhex (b.toNat % 16) (by omega)
    unfold escByte
    grind
  simp [quoted, hesc]

theorem nul_not_mem_printedLine (h : ∀ kv ∈ kvs, (0 : Byte) ∉ kv.2.dumps) :
    (0 : Byte) ∉ printedLine kvs := by
  cases kvs with
  | nil => decide
  | cons kv kvs =>
    have hmore : (0 : Byte) ∉ Json.dumpsMoreKeys kvs := by
      rw [mem_dumpsMoreKeys]
      rintro ⟨kv', hkv, hmem⟩
      have hval := h kv' (List.mem_cons_of_mem _ hkv)
      have hkey := nul_not_mem_quoted kv'.1
      simp [hval, hkey] at hmem
    have hval := h kv List.mem_cons_self
    have hkey := nul_not_mem_quoted kv.1
    simp [printedLine, Json.dumps, hmore, hval, hkey]

/-- **Where a marked string holds the key.**  At its end, and nowhere before. -/
theorem marked_split (h : Marks s) :
    ∃ p, quoted s = p ++ victimsKey ∧ ∀ k, Clear p (victimsKey ++ k) := by
  obtain ⟨w, hw⟩ := h
  cases w with
  | nil =>
    obtain rfl : s = victimsWord := by simpa using hw.symm
    exact ⟨[], by decide, fun k => .nil⟩
  | cons c w =>
    obtain ⟨rfl, hs⟩ : 34 = c ∧ s = w ++ 34 :: victimsWord := by simpa using hw.symm
    subst hs
    have hword : victimsWord.flatMap escByte = victimsWord := by decide
    have hquote : escByte 34 = [92, 34] := by decide
    refine ⟨34 :: (w.flatMap escByte ++ [92]), ?_, ?_⟩
    · simp [quoted, hword, hquote, victimsKey_eq]
    · intro k
      -- a quote inside the string starts the key only if the rest is the word
      have hrest : ∀ l : List Byte, ¬ victimsKey <+:
          34 :: (l.flatMap escByte ++ [92] ++ (victimsKey ++ k)) := by
        intro l hpre
        have htext : l.flatMap escByte ++ [92] ++ (victimsKey ++ k) =
            (l ++ 34 :: victimsWord).flatMap escByte ++ 34 :: k := by
          simp [hword, hquote, victimsKey_eq]
        rw [htext] at hpre
        have heq := key_at_quote hpre
        have hmem : (34 : Byte) ∈ victimsWord := by
          rw [← heq]
          simp
        exact absurd hmem (by decide)
      have hclear : ∀ l : List Byte, Clear (l.flatMap escByte ++ [92]) (victimsKey ++ k) := by
        intro l
        induction l with
        | nil => exact .of_no_quote (by decide)
        | cons c l ih =>
          rw [List.flatMap_cons, List.append_assoc]
          refine .append ?_ ih
          by_cases hc : c = 34
          · subst hc
            rw [hquote]
            refine clear_byte (by decide) (.cons ?_ Clear.nil)
            simpa using hrest l
          · exact .of_no_quote fun hmem => hc (quote_mem_escByte hmem)
      exact .cons (by simpa using hrest w) (hclear w)

end Texts

section RoundTrip

variable {o : List (List Byte × Json)} {L : List Int} {R : List Byte} {c : Json}

theorem word_not_marks : ¬ Marks (bytes "reasoning") ∧ ¬ Marks (bytes "confidence") := by
  unfold Marks
  decide

/-- Only members that are the confidence. -/
def OnlyConfidence (c : Json) (kvs : List (List Byte × Json)) : Prop :=
  ∀ kv ∈ kvs, kv = (bytes "confidence", c)

section

variable {kvs : List (List Byte × Json)} (h : OnlyConfidence c kvs) (hc : c.IsNumber)
include h hc

theorem OnlyConfidence.texts : ∀ t ∈ Json.textsKeys kvs, ¬ Marks t := by
  intro t ht
  obtain ⟨kv, hkv, htext⟩ := mem_textsKeys.1 ht
  rw [h kv hkv, hc.texts] at htext
  rcases htext with rfl | htext
  · exact word_not_marks.2
  · cases htext

/-- The confidence is printed without a bracket. -/
theorem OnlyConfidence.bracket : (91 : Byte) ∉ Json.dumpsMoreKeys kvs := by
  rw [mem_dumpsMoreKeys]
  rintro ⟨kv, hkv, hmem⟩
  rw [h kv hkv] at hmem
  have hkey : (91 : Byte) ∉ [44, 32] ++ quoted (bytes "confidence") ++ [58, 32] := by decide
  rcases List.mem_append.1 hmem with hmem | hmem
  · exact hkey hmem
  · exact absurd (hc.bytes_dumps 91 hmem) (by decide)

end

/-- The reasoning is printed before the list and ends like the key: the scanner
stops at its end and goes on to the list. -/
theorem victimsIn_marked {pre mid after : List (List Byte × Json)} (hR : Marks R)
    (hc : c.IsNumber) (hpre : OnlyConfidence c pre) (hmid : OnlyConfidence c mid)
    (hL : ∀ i ∈ L, 0 ≤ i ∧ i < 2 ^ 31) (room : Nat) :
    victimsIn (printedLine (pre ++ (bytes "reasoning", .str R) ::
      (mid ++ (victimsWord, .arr (L.map .int)) :: after))) room = L.take room := by
  obtain ⟨a, hline, ha⟩ := @printedLine_split pre
    (mid ++ (victimsWord, .arr (L.map .int)) :: after) (bytes "reasoning") (.str R) (hpre.texts hc)
  obtain ⟨p, hp, hclear⟩ := marked_split hR
  have hsplit : a ++ (quoted (bytes "reasoning") ++ [58, 32] ++ (Json.str R).dumps ++
        (Json.dumpsMoreKeys (mid ++ (victimsWord, .arr (L.map .int)) :: after) ++ [125, 10])) =
      (a ++ (quoted (bytes "reasoning") ++ ([58, 32] ++ p))) ++ (victimsKey ++
        ((Json.dumpsMoreKeys mid ++ ([44, 32] ++ quoted victimsWord ++ [58, 32])) ++
          91 :: (pidsText L ++ 93 :: (Json.dumpsMoreKeys after ++ [125, 10])))) := by
    simp [Json.dumps, hp, dumpsMoreKeys_append, arr_dumps]
  apply victimsIn_of_scanned _ hL
  rw [hline, hsplit]
  apply scannedText_key
  · refine .append (ha _) (.append (clear_quoted word_not_marks.1 (by simp)) ?_)
    exact clear_byte (by decide) (clear_byte (by decide) (hclear _))
  · have hword : (91 : Byte) ∉ [44, 32] ++ quoted victimsWord ++ [58, 32] := by decide
    intro hmem
    rcases List.mem_append.1 hmem with hmem | hmem
    · exact hmid.bracket hc hmem
    · exact hword hmem
  · exact not_mem_pidsText (fun i hi => (hL i hi).1) (by decide)

/-- The list is found whatever is printed before it. -/
theorem victimsIn_answer (horder : o.Perm (answer L R c)) (hc : c.IsNumber)
    (hL : ∀ i ∈ L, 0 ≤ i ∧ i < 2 ^ 31) (room : Nat) :
    victimsIn (printedLine o) room = L.take room := by
  obtain ⟨before, after, rfl⟩ := List.append_of_mem
    (horder.mem_iff.2 (List.mem_cons_self : (victimsWord, Json.arr (L.map .int)) ∈ answer L R c))
  have hrest : (before ++ after).Perm [(bytes "reasoning", .str R), (bytes "confidence", c)] :=
    (List.perm_middle.symm.trans horder).cons_inv
  by_cases hreason : (bytes "reasoning", Json.str R) ∈ before ∧ Marks R
  · obtain ⟨pre, mid, rfl⟩ := List.append_of_mem hreason.1
    have hothers : (pre ++ mid ++ after).Perm [(bytes "confidence", c)] := by
      have hperm : (pre ++ (bytes "reasoning", Json.str R) :: (mid ++ after)).Perm
          [(bytes "reasoning", .str R), (bytes "confidence", c)] := by simpa using hrest
      simpa using (List.perm_middle.symm.trans hperm).cons_inv
    have honly : ∀ kv ∈ pre ++ mid, kv = (bytes "confidence", c) := by
      intro kv hkv
      simpa using hothers.mem_iff.1 (List.mem_append_left after hkv)
    have hmarked := @victimsIn_marked L R c pre mid after hreason.2 hc
      (fun kv hkv => honly kv (List.mem_append_left _ hkv))
      (fun kv hkv => honly kv (List.mem_append_right _ hkv)) hL room
    simpa using hmarked
  · apply victimsIn_plain _ hL
    intro t ht hmarks
    obtain ⟨kv, hkv, htext⟩ := mem_textsKeys.1 ht
    have hmem : kv ∈ [(bytes "reasoning", Json.str R), (bytes "confidence", c)] :=
      hrest.mem_iff.1 (List.mem_append_left after hkv)
    rcases List.mem_cons.1 hmem with rfl | hmem
    · rcases htext with rfl | htext
      · exact word_not_marks.1 hmarks
      · obtain rfl : t = R := by simpa using htext
        exact hreason ⟨hkv, hmarks⟩
    obtain rfl := List.mem_singleton.1 hmem
    rw [hc.texts] at htext
    rcases htext with rfl | htext
    · exact word_not_marks.2 hmarks
    · cases htext

/-- **The victim list survives the trip.**  If the helper's whole line fits the
daemon's buffer, the daemon stores the first `MAX_CANDIDATES` elements of the
list, in order. -/
theorem victim_list_round_trip (horder : o.Perm (answer L R c)) (hc : c.IsNumber)
    (hL : ∀ i ∈ L, 0 ≤ i ∧ i < 2 ^ 31) (hfits : (printedLine o).length < IPC_BUF_SIZE) :
    askLlmHelper (printedLine o) MAX_CANDIDATES = some (L.take (min L.length 128)) := by
  have hnul : (0 : Byte) ∉ printedLine o := by
    apply nul_not_mem_printedLine
    intro kv hkv
    have hmem := horder.mem_iff.1 hkv
    simp only [answer, List.mem_cons, List.not_mem_nil, or_false] at hmem
    rcases hmem with rfl | rfl | rfl
    · have hpids := not_mem_pidsText (b := 0) (fun i hi => (hL i hi).1) (by decide)
      simp [arr_dumps, hpids]
    · rw [Json.dumps]
      exact nul_not_mem_quoted R
    · intro hmem
      exact absurd (hc.bytes_dumps 0 hmem) (by decide)
  have hwhole : ofBuffer ((printedLine o).take (IPC_BUF_SIZE - 1)) = printedLine o := by
    rw [List.take_of_length_le (by omega), ofBuffer, List.takeWhile_eq_self_iff]
    intro b hb
    have hne : b ≠ 0 := fun heq => hnul (heq ▸ hb)
    simpa using hne
  have hsome : printedLine o ≠ [] := by
    rw [printedLine]
    simp
  rw [askLlmHelper, if_neg hsome, hwhole, victimsIn_answer horder hc hL, Nat.min_comm,
    ← List.take_eq_take_min]
  rfl

/-- The reasoning comes first and ends in a quote and the word `victims`. -/
theorem victim_list_round_trip_marked :
    let o := [(bytes "reasoning", Json.str (bytes "see [9] in \"victims")),
      (victimsWord, .arr [.int 7, .int 42]), (bytes "confidence", .int 1)]
    strstr victimsKey (printedLine o) =
      some (victimsKey ++ bytes ", \"victims\": [7, 42], \"confidence\": 1\x7d\n") ∧
    askLlmHelper (printedLine o) MAX_CANDIDATES = some [7, 42] := by
  intro o
  have horder : o.Perm (answer [7, 42] (bytes "see [9] in \"victims") (.int 1)) :=
    List.Perm.swap _ _ _
  exact ⟨by decide, victim_list_round_trip horder trivial (by decide) (by decide)⟩

end RoundTrip

end Coomd
