import KusOs.JsonAnswer

/-!
# Decoding JSON

A recursive-descent decoder for JSON texts over bytes, as `json.loads` reads
them: blanks between tokens, strings with their escapes (a byte of 128 or more
stands for itself), integers, literals, arrays and objects.  Numbers with a
fraction or an exponent are not decoded; a text that has one is rejected.

The decoder is the inverse of `Json.dumps` on values without floats
(`loads_dumps`).  The induction follows the printer; each statement is about the
text of a value followed by an arbitrary rest, so that it can be used in the
middle of a text.
-/

namespace Coomd

open CString

/-- Blanks between tokens. -/
def isWs (b : Byte) : Bool := b == 32 || b == 9 || b == 10 || b == 13

def skipWs (s : List Byte) : List Byte := s.dropWhile isWs

/-- The value of a hexadecimal digit. -/
def hexVal (b : Byte) : Option Nat :=
  if 48 ≤ b ∧ b ≤ 57 then some (b.toNat - 48)
  else if 97 ≤ b ∧ b ≤ 102 then some (b.toNat - 87)
  else if 65 ≤ b ∧ b ≤ 70 then some (b.toNat - 55)
  else none

/-- Four hexadecimal digits. -/
def hex4 : List Byte → Option (Nat × List Byte)
  | a :: b :: c :: d :: rest => do
      let a ← hexVal a
      let b ← hexVal b
      let c ← hexVal c
      let d ← hexVal d
      return (((a * 16 + b) * 16 + c) * 16 + d, rest)
  | _ => none

/-- A code point in UTF-8. -/
def utf8 (cp : Nat) : List Byte :=
  if cp < 0x80 then [cp.toUInt8]
  else if cp < 0x800 then [(0xC0 + cp / 64).toUInt8, (0x80 + cp % 64).toUInt8]
  else if cp < 0x10000 then
    [(0xE0 + cp / 4096).toUInt8, (0x80 + cp / 64 % 64).toUInt8, (0x80 + cp % 64).toUInt8]
  else
    [(0xF0 + cp / 262144).toUInt8, (0x80 + cp / 4096 % 64).toUInt8,
      (0x80 + cp / 64 % 64).toUInt8, (0x80 + cp % 64).toUInt8]

/-- The low half of a surrogate pair, if one follows. -/
def lowSurrogate (rest : List Byte) : Option (Nat × List Byte) :=
  match rest with
  | 92 :: 117 :: rest => do
      let (v, rest) ← hex4 rest
      if 0xDC00 ≤ v ∧ v < 0xE000 then return (v - 0xDC00, rest) else none
  | _ => none

/-- What follows a backslash: the bytes it stands for, and the rest. -/
def decodeEscape : List Byte → Option (List Byte × List Byte)
  | 34 :: rest => some ([34], rest)
  | 92 :: rest => some ([92], rest)
  | 47 :: rest => some ([47], rest)
  | 98 :: rest => some ([8], rest)
  | 102 :: rest => some ([12], rest)
  | 110 :: rest => some ([10], rest)
  | 114 :: rest => some ([13], rest)
  | 116 :: rest => some ([9], rest)
  | 117 :: rest => do
      let (u, rest) ← hex4 rest
      if 0xD800 ≤ u ∧ u < 0xDC00 then
        match lowSurrogate rest with
        | some (v, rest) => return (utf8 (0x10000 + (u - 0xD800) * 0x400 + v), rest)
        | none => return (utf8 u, rest)
      else return (utf8 u, rest)
  | _ => none

/-- The rest of a string, up to its closing quote. -/
def parseStr : Nat → List Byte → Option (List Byte × List Byte)
  | 0, _ => none
  | _ + 1, [] => none
  | n + 1, b :: rest =>
    if b = 34 then some ([], rest)
    else if b = 92 then do
      let (c, rest) ← decodeEscape rest
      let (s, rest) ← parseStr n rest
      return (c ++ s, rest)
    else if b < 32 then none
    else do
      let (s, rest) ← parseStr n rest
      return (b :: s, rest)

/-- An unsigned integer without superfluous zeros; the byte behind it must not
continue the number. -/
def parseNat (s : List Byte) : Option (Nat × List Byte) :=
  let ds := s.takeWhile isdigit
  let rest := s.dropWhile isdigit
  if ds = [] ∨ (ds.head? = some 48 ∧ 1 < ds.length) then none
  else if rest.head? = some 46 ∨ rest.head? = some 101 ∨ rest.head? = some 69 then none
  else some (digitsVal ds, rest)

/-- An integer. -/
def parseInt : List Byte → Option (Int × List Byte)
  | 45 :: s => (parseNat s).map fun p => (-(p.1 : Int), p.2)
  | s => (parseNat s).map fun p => ((p.1 : Int), p.2)

/-- A literal or a number. -/
def parseScalar (s : List Byte) : Option (Json × List Byte) :=
  if (bytes "null").isPrefixOf s then some (.null, s.drop 4)
  else if (bytes "true").isPrefixOf s then some (.bool true, s.drop 4)
  else if (bytes "false").isPrefixOf s then some (.bool false, s.drop 5)
  else (parseInt s).map fun p => (.int p.1, p.2)

mutual

/-- A value. -/
def parseValue : Nat → List Byte → Option (Json × List Byte)
  | 0, _ => none
  | n + 1, s =>
    match s with
    | 34 :: rest => (parseStr (rest.length + 1) rest).map fun p => (.str p.1, p.2)
    | 91 :: rest =>
      match skipWs rest with
      | 93 :: rest => some (.arr [], rest)
      | rest => (parseElems n rest).map fun p => (.arr p.1, p.2)
    | 123 :: rest =>
      match skipWs rest with
      | 125 :: rest => some (.obj [], rest)
      | rest => (parseMembers n rest).map fun p => (.obj p.1, p.2)
    | s => parseScalar s

/-- The elements of an array, up to its bracket. -/
def parseElems : Nat → List Byte → Option (List Json × List Byte)
  | 0, _ => none
  | n + 1, s => do
      let (v, rest) ← parseValue n (skipWs s)
      match skipWs rest with
      | 93 :: rest => return ([v], rest)
      | 44 :: rest => do
          let (vs, rest) ← parseElems n rest
          return (v :: vs, rest)
      | _ => none

/-- The members of an object, up to its brace. -/
def parseMembers : Nat → List Byte → Option (List (List Byte × Json) × List Byte)
  | 0, _ => none
  | n + 1, s =>
    match skipWs s with
    | 34 :: rest => do
        let (key, rest) ← parseStr (rest.length + 1) rest
        match skipWs rest with
        | 58 :: rest => do
            let (v, rest) ← parseValue n (skipWs rest)
            match skipWs rest with
            | 125 :: rest => return ([(key, v)], rest)
            | 44 :: rest => do
                let (kvs, rest) ← parseMembers n rest
                return ((key, v) :: kvs, rest)
            | _ => none
        | _ => none
    | _ => none

end

/-- `json.loads(text)`: one value with blanks around it. -/
def loads (s : List Byte) : Option Json := do
  let (v, rest) ← parseValue (s.length + 1) (skipWs s)
  if skipWs rest = [] then return v else none

mutual

/-- No floats in the value. -/
def Json.noFloat : Json → Bool
  | .float _ => false
  | .arr xs => Json.noFloats xs
  | .obj kvs => Json.noFloatKeys kvs
  | _ => true

def Json.noFloats : List Json → Bool
  | [] => true
  | x :: xs => x.noFloat && Json.noFloats xs

def Json.noFloatKeys : List (List Byte × Json) → Bool
  | [] => true
  | (_, v) :: kvs => v.noFloat && Json.noFloatKeys kvs

end

section Tokens

variable {s r : List Byte} {b : Byte} {n : Nat}

theorem skipWs_cons (h : isWs b = false) : skipWs (b :: s) = b :: s := by
  simp [skipWs, h]

theorem skipWs_space : skipWs (32 :: s) = skipWs s := by
  simp [skipWs, isWs]

private theorem hexVal_hexDigit : ∀ d < 16, hexVal (hexDigit d) = some d := by
  decide

theorem parseStr_slash {c s' : List Byte} (h : decodeEscape s = some (c, s')) :
    parseStr (n + 1) (92 :: s) = (parseStr n s').map fun p => (c ++ p.1, p.2) := by
  have hne : (92 : Byte) ≠ 34 := by decide
  rw [parseStr, if_neg hne, if_pos rfl, h]
  simp only [bind, Option.bind_some]
  cases parseStr n s' <;> rfl

/-- One printed byte of a string is read back. -/
theorem parseStr_escByte (b : Byte) (n : Nat) (s : List Byte) :
    parseStr (n + 1) (escByte b ++ s) = (parseStr n s).map fun p => (b :: p.1, p.2) := by
  have hsimple : ∀ c, decodeEscape (c :: s) = some ([b], s) →
      parseStr (n + 1) ([92, c] ++ s) = (parseStr n s).map fun p => (b :: p.1, p.2) :=
    fun c hc => parseStr_slash hc
  unfold escByte
  split_ifs with hquote hslash hn hr ht hf hb hcontrol
  · exact hsimple 34 (by rw [hquote]; rfl)
  · exact hsimple 92 (by rw [hslash]; rfl)
  · exact hsimple 110 (by rw [hn]; rfl)
  · exact hsimple 114 (by rw [hr]; rfl)
  · exact hsimple 116 (by rw [ht]; rfl)
  · exact hsimple 102 (by rw [hf]; rfl)
  · exact hsimple 98 (by rw [hb]; rfl)
  · -- the four digits spell the byte
    have hlt : b.toNat < 32 := hcontrol
    have hhi := hexVal_hexDigit (b.toNat / 16) (by omega)
    have hlo := hexVal_hexDigit (b.toNat % 16) (by omega)
    have hzero : hexVal 48 = some 0 := by decide
    have hval : b.toNat / 16 * 16 + b.toNat % 16 = b.toNat := by omega
    have hescape : decodeEscape ([117, 48, 48, hexDigit (b.toNat / 16), hexDigit (b.toNat % 16)] ++
        s) = some ([b], s) := by
      have hsmall : ¬ (0xD800 ≤ b.toNat ∧ b.toNat < 0xDC00) := by omega
      simp only [List.cons_append, List.nil_append, decodeEscape, hex4, hzero, hhi, hlo,
        Option.bind_eq_bind, Option.bind_some, Nat.zero_mul, Nat.zero_add, hval, pure, hsmall,
        if_false]
      rw [utf8, if_pos (by omega)]
      simp
    exact parseStr_slash hescape
  · simp only [List.cons_append, List.nil_append, parseStr, if_neg hquote, if_neg hslash,
      if_neg hcontrol]
    cases parseStr n s <;> rfl

/-- **A printed string is read back.** -/
theorem parseStr_escaped (h : s.length < n) :
    parseStr n (s.flatMap escByte ++ 34 :: r) = some (s, r) := by
  induction s generalizing n with
  | nil =>
    obtain ⟨m, rfl⟩ := Nat.exists_eq_add_of_lt h
    simp [parseStr]
  | cons b s ih =>
    rw [List.length_cons] at h
    obtain ⟨m, rfl⟩ := Nat.exists_eq_add_of_lt (Nat.lt_of_le_of_lt (Nat.zero_le _) h)
    rw [Nat.zero_add] at h ⊢
    rw [List.flatMap_cons, List.append_assoc, parseStr_escByte, ih (by omega)]
    rfl

theorem escByte_length_pos (b : Byte) : 1 ≤ (escByte b).length := by
  unfold escByte
  split_ifs <;> simp

theorem length_le_escaped (s : List Byte) : s.length ≤ (s.flatMap escByte).length := by
  induction s with
  | nil => exact Nat.le_refl 0
  | cons b s ih =>
    have hb := escByte_length_pos b
    rw [List.flatMap_cons, List.length_append, List.length_cons]
    omega

/-- The rest does not continue a number. -/
def Ends (r : List Byte) : Prop :=
  ∀ b, r.head? = some b → isdigit b = false ∧ b ≠ 46 ∧ b ≠ 101 ∧ b ≠ 69

theorem Ends.of_head (h : isdigit b = false ∧ b ≠ 46 ∧ b ≠ 101 ∧ b ≠ 69) : Ends (b :: r) := by
  intro c hc
  obtain rfl : b = c := by simpa using hc
  exact h

private theorem decimal_no_zero (n : Nat) :
    ¬ ((decimal n).head? = some 48 ∧ 1 < (decimal n).length) := by
  induction n using Nat.strongRecOn with
  | ind n ih =>
    have hdigit : ∀ d < 10, d ≠ 0 → (Nat.digitChar d).toNat.toUInt8 ≠ 48 := by decide
    unfold decimal at ih ⊢
    rw [Nat.toDigits_eq_if (by decide)]
    by_cases hn : n < 10
    · simp [hn]
    rw [if_neg hn, List.map_append]
    have hprev := ih (n / 10) (by omega)
    -- the first digit is that of the quotient, which is not 0
    by_cases hq : n / 10 < 10
    · rw [Nat.toDigits_eq_if (by decide), if_pos hq]
      have hne := hdigit (n / 10) hq (by omega)
      simp [hne]
    have hlong : 1 < (List.map (fun c => c.toNat.toUInt8) (Nat.toDigits 10 (n / 10))).length := by
      rw [Nat.toDigits_eq_if (by decide), if_neg hq]
      have hpos : 0 < (Nat.toDigits 10 (n / 10 / 10)).length := List.length_pos_of_ne_nil (by simp)
      simpa using hpos
    have hhead : (List.map (fun c => c.toNat.toUInt8) (Nat.toDigits 10 (n / 10))).head? ≠
        some 48 := fun hhead => hprev ⟨hhead, hlong⟩
    intro hbad
    apply hhead
    rw [← hbad.1, List.head?_append_of_ne_nil]
    intro hnil
    rw [hnil] at hlong
    simp at hlong

theorem takeWhile_digits {ds : List Byte} (hds : ∀ d ∈ ds, isdigit d = true) (hr : Ends r) :
    (ds ++ r).takeWhile isdigit = ds ∧ (ds ++ r).dropWhile isdigit = r := by
  induction ds with
  | nil =>
    cases r with
    | nil => exact ⟨rfl, rfl⟩
    | cons b r => simp [(hr b rfl).1]
  | cons d ds ih =>
    have hd := hds d List.mem_cons_self
    have hrest := ih fun d hd => hds d (List.mem_cons_of_mem _ hd)
    simpa [hd] using hrest

theorem parseNat_decimal (n : Nat) (hr : Ends r) : parseNat (decimal n ++ r) = some (n, r) := by
  obtain ⟨htake, hdrop⟩ := takeWhile_digits (decimal_isdigit n) hr
  have hnot : ¬ (r.head? = some 46 ∨ r.head? = some 101 ∨ r.head? = some 69) := by
    rintro (h | h | h)
    · exact (hr _ h).2.1 rfl
    · exact (hr _ h).2.2.1 rfl
    · exact (hr _ h).2.2.2 rfl
  have hgood : ¬ (decimal n = [] ∨ (decimal n).head? = some 48 ∧ 1 < (decimal n).length) := by
    rintro (h | h)
    · exact decimal_ne_nil n h
    · exact decimal_no_zero n h
  simp only [parseNat, htake, hdrop, if_neg hgood, if_neg hnot, digitsVal_decimal]

theorem parseInt_dumps (i : Int) (hr : Ends r) :
    parseInt ((Json.int i).dumps ++ r) = some (i, r) := by
  rw [Json.dumps]
  by_cases hneg : i < 0
  · rw [if_pos hneg, List.cons_append, parseInt, parseNat_decimal _ hr]
    have habs : -(i.natAbs : Int) = i := by omega
    simp only [Option.map_some, habs]
  have habs : (i.natAbs : Int) = i := by omega
  have hfirst : ∀ rest, decimal i.natAbs ++ r ≠ 45 :: rest := by
    intro rest heq
    cases hd : decimal i.natAbs with
    | nil => exact decimal_ne_nil _ hd
    | cons d ds =>
      have hdigit := decimal_isdigit i.natAbs d (by rw [hd]; exact List.mem_cons_self)
      rw [hd, List.cons_append, List.cons.injEq] at heq
      rw [heq.1] at hdigit
      cases hdigit
  rw [if_neg hneg]
  unfold parseInt
  split
  · rename_i rest heq
    exact absurd heq (hfirst rest)
  · rw [parseNat_decimal _ hr]
    simp only [Option.map_some, habs]

end Tokens

section RoundTrip

variable {r s : List Byte} {n : Nat}

/-- The first byte of a printed value is no blank, and is none of the brackets
that close an array or an object. -/
theorem dumps_head (v : Json) (hv : v.noFloat = true) :
    ∃ b rest, v.dumps = b :: rest ∧ isWs b = false ∧ b ≠ 93 ∧ b ≠ 125 := by
  have hdigits : ∀ m, ∃ b rest, decimal m = b :: rest ∧ isWs b = false ∧ b ≠ 93 ∧ b ≠ 125 := by
    intro m
    cases hd : decimal m with
    | nil => exact absurd hd (decimal_ne_nil m)
    | cons b rest =>
      have hdigit := decimal_isdigit m b (by rw [hd]; exact List.mem_cons_self)
      refine ⟨b, rest, rfl, ?_⟩
      unfold isdigit at hdigit
      unfold isWs
      grind
  cases v with
  | null => exact ⟨_, _, rfl, by decide⟩
  | bool b => cases b <;> exact ⟨_, _, rfl, by decide⟩
  | int i =>
    rw [Json.dumps]
    by_cases hneg : i < 0
    · rw [if_pos hneg]
      exact ⟨45, _, rfl, by decide⟩
    · rw [if_neg hneg]
      exact hdigits _
  | float f => cases hv
  | str s => exact ⟨34, _, rfl, by decide⟩
  | arr xs => cases xs <;> exact ⟨91, _, by simp [Json.dumps]; rfl, by decide⟩
  | obj kvs =>
    cases kvs with
    | nil => exact ⟨123, _, by simp [Json.dumps]; rfl, by decide⟩
    | cons kv kvs => exact ⟨123, _, by simp [Json.dumps]; rfl, by decide⟩

theorem skipWs_dumps {v : Json} (hv : v.noFloat = true) : skipWs (v.dumps ++ r) = v.dumps ++ r := by
  obtain ⟨b, rest, hb, hws, -⟩ := dumps_head v hv
  rw [hb, List.cons_append]
  exact skipWs_cons hws

/-- A scalar is read back by `parseScalar`, and its first byte leads there. -/
theorem parseValue_scalar (hquote : s.head? ≠ some 34) (hbracket : s.head? ≠ some 91)
    (hbrace : s.head? ≠ some 123) : parseValue (n + 1) s = parseScalar s := by
  unfold parseValue
  split
  · simp at hquote
  · simp at hbracket
  · simp at hbrace
  · rfl

/-- The first byte of a printed integer begins no other kind of value. -/
theorem int_head (i : Int) : ∃ b rest, (Json.int i).dumps = b :: rest ∧
    (isdigit b = true ∨ b = 45) := by
  rw [Json.dumps]
  by_cases hneg : i < 0
  · rw [if_pos hneg]
    exact ⟨45, _, rfl, .inr rfl⟩
  rw [if_neg hneg]
  cases hd : decimal i.natAbs with
  | nil => exact absurd hd (decimal_ne_nil _)
  | cons b rest =>
    exact ⟨b, rest, rfl, .inl (decimal_isdigit i.natAbs b (by rw [hd]; exact List.mem_cons_self))⟩

theorem parseValue_int (i : Int) (hr : Ends r) :
    parseValue (n + 1) ((Json.int i).dumps ++ r) = some (.int i, r) := by
  obtain ⟨b, rest, hb, hfirst⟩ := int_head i
  have hnot : b ≠ 34 ∧ b ≠ 91 ∧ b ≠ 123 ∧ b ≠ 110 ∧ b ≠ 116 ∧ b ≠ 102 := by
    unfold isdigit at hfirst
    grind
  obtain ⟨hquote, hbracket, hbrace, hnull, htrue, hfalse⟩ := hnot
  have hlit : ∀ (c : Byte) (l : List Byte), b ≠ c → (c :: l).isPrefixOf (b :: (rest ++ r)) =
      false := by
    intro c l hc
    simp [List.isPrefixOf, Ne.symm hc]
  rw [parseValue_scalar (by simpa [hb] using hquote) (by simpa [hb] using hbracket)
    (by simpa [hb] using hbrace), parseScalar]
  have hint := parseInt_dumps i hr
  rw [hb, List.cons_append] at hint ⊢
  rw [hint]
  have h1 : (bytes "null").isPrefixOf (b :: (rest ++ r)) = false := hlit 110 _ hnull
  have h2 : (bytes "true").isPrefixOf (b :: (rest ++ r)) = false := hlit 116 _ htrue
  have h3 : (bytes "false").isPrefixOf (b :: (rest ++ r)) = false := hlit 102 _ hfalse
  simp [h1, h2, h3]

theorem parseValue_quote :
    parseValue (n + 1) (34 :: s) = (parseStr (s.length + 1) s).map fun p => (.str p.1, p.2) := rfl

theorem parseValue_bracket {t : List Byte} {b : Byte} (hs : skipWs s = b :: t) (hb : b ≠ 93) :
    parseValue (n + 1) (91 :: s) = (parseElems n (b :: t)).map fun p => (.arr p.1, p.2) := by
  simp only [parseValue, hs]
  split
  · rename_i heq
    exact absurd (List.cons.inj heq).1 hb
  · rfl

theorem parseValue_brace {t : List Byte} {b : Byte} (hs : skipWs s = b :: t) (hb : b ≠ 125) :
    parseValue (n + 1) (123 :: s) = (parseMembers n (b :: t)).map fun p => (.obj p.1, p.2) := by
  simp only [parseValue, hs]
  split
  · rename_i heq
    exact absurd (List.cons.inj heq).1 hb
  · rfl

theorem parseElems_space (s : List Byte) : parseElems n (32 :: s) = parseElems n s := by
  cases n with
  | zero => simp [parseElems]
  | succ n => rw [parseElems, parseElems, skipWs_space]

theorem parseMembers_space (s : List Byte) : parseMembers n (32 :: s) = parseMembers n s := by
  cases n with
  | zero => simp [parseMembers]
  | succ n => rw [parseMembers, parseMembers, skipWs_space]

/-- The string is read back from behind its opening quote. -/
theorem parseStr_quoted (s k : List Byte) :
    ∃ t, quoted s ++ k = 34 :: t ∧ parseStr (t.length + 1) t = some (s, k) := by
  refine ⟨s.flatMap escByte ++ 34 :: k, by simp [quoted], ?_⟩
  have hlen := length_le_escaped s
  apply parseStr_escaped
  simp only [List.length_append, List.length_cons]
  omega

theorem parseValue_str (s : List Byte) : parseValue (n + 1) (quoted s ++ r) = some (.str s, r) := by
  obtain ⟨t, htext, hparse⟩ := parseStr_quoted s r
  rw [htext, parseValue_quote, hparse]
  rfl

theorem Ends.comma : Ends (44 :: r) := .of_head (by decide)

theorem Ends.bracket : Ends (93 :: r) := .of_head (by decide)

theorem Ends.brace : Ends (125 :: r) := .of_head (by decide)

theorem ends_dumpsMore (xs : List Json) : Ends (Json.dumpsMore xs ++ 93 :: r) := by
  cases xs with
  | nil => exact .bracket
  | cons x xs => exact .comma

theorem ends_dumpsMoreKeys (kvs : List (List Byte × Json)) :
    Ends (Json.dumpsMoreKeys kvs ++ 125 :: r) := by
  cases kvs with
  | nil => exact .brace
  | cons kv kvs => exact .comma

mutual

/-- **A printed value is read back**, whatever follows it. -/
theorem parseValue_dumps (v : Json) (n : Nat) (r : List Byte) (hv : v.noFloat = true)
    (hn : v.dumps.length ≤ n) (hr : Ends r) : parseValue n (v.dumps ++ r) = some (v, r) := by
  have hpos : 0 < v.dumps.length := by
    obtain ⟨b, rest, hb, -⟩ := dumps_head v hv
    rw [hb]
    exact Nat.succ_pos _
  obtain ⟨n, rfl⟩ : ∃ m, n = m + 1 := ⟨n - 1, by omega⟩
  match v with
  | .null => rfl
  | .bool b => cases b <;> rfl
  | .int i => exact parseValue_int i hr
  | .float f => cases hv
  | .str s =>
    rw [Json.dumps]
    exact parseValue_str s
  | .arr [] => simp [Json.dumps, parseValue, skipWs, isWs]
  | .arr (x :: xs) =>
    simp only [Json.noFloat, Json.noFloats, Bool.and_eq_true] at hv
    have htext : (Json.arr (x :: xs)).dumps ++ r =
        91 :: (x.dumps ++ (Json.dumpsMore xs ++ 93 :: r)) := by simp [Json.dumps]
    have hlen : (x.dumps ++ (Json.dumpsMore xs ++ [93])).length ≤ n := by
      simp only [Json.dumps, List.length_cons, List.length_append] at hn ⊢
      omega
    obtain ⟨b, rest, hb, hws, hclose, -⟩ := dumps_head x hv.1
    have hskip : skipWs (x.dumps ++ (Json.dumpsMore xs ++ 93 :: r)) =
        b :: (rest ++ (Json.dumpsMore xs ++ 93 :: r)) := by
      rw [skipWs_dumps hv.1, hb]
      rfl
    have helems := parseElems_dumps x xs n r hv.1 hv.2 hlen
    rw [hb, List.cons_append] at helems
    rw [htext, parseValue_bracket hskip hclose, helems]
    rfl
  | .obj [] => simp [Json.dumps, parseValue, skipWs, isWs]
  | .obj ((key, x) :: kvs) =>
    simp only [Json.noFloat, Json.noFloatKeys, Bool.and_eq_true] at hv
    have htext : (Json.obj ((key, x) :: kvs)).dumps ++ r =
        123 :: (quoted key ++ (58 :: 32 :: (x.dumps ++ (Json.dumpsMoreKeys kvs ++ 125 :: r)))) := by
      simp [Json.dumps]
    have hlen : (quoted key ++ (58 :: 32 :: (x.dumps ++ (Json.dumpsMoreKeys kvs ++ [125])))).length
        ≤ n := by
      simp only [Json.dumps, List.length_cons, List.length_append] at hn ⊢
      omega
    have hmembers := parseMembers_dumps key x kvs n r hv.1 hv.2 hlen
    obtain ⟨t, hquoted, -⟩ := parseStr_quoted key
      (58 :: 32 :: (x.dumps ++ (Json.dumpsMoreKeys kvs ++ 125 :: r)))
    rw [hquoted] at hmembers
    rw [htext, hquoted, parseValue_brace (skipWs_cons (by decide)) (by decide), hmembers]
    rfl
termination_by n

theorem parseElems_dumps (x : Json) (xs : List Json) (n : Nat) (r : List Byte)
    (hx : x.noFloat = true) (hxs : Json.noFloats xs = true)
    (hn : (x.dumps ++ (Json.dumpsMore xs ++ [93])).length ≤ n) :
    parseElems n (x.dumps ++ (Json.dumpsMore xs ++ 93 :: r)) = some (x :: xs, r) := by
  simp only [List.length_append, List.length_singleton] at hn
  obtain ⟨n, rfl⟩ : ∃ m, n = m + 1 := ⟨n - 1, by omega⟩
  have hvalue := parseValue_dumps x n (Json.dumpsMore xs ++ 93 :: r) hx (by omega)
    (ends_dumpsMore xs)
  rw [parseElems, skipWs_dumps hx, hvalue]
  match xs with
  | [] => simp [skipWs, isWs]
  | y :: ys =>
    simp only [Json.noFloats, Bool.and_eq_true] at hxs
    have hmore : Json.dumpsMore (y :: ys) ++ 93 :: r =
        44 :: 32 :: (y.dumps ++ (Json.dumpsMore ys ++ 93 :: r)) := by simp
    have hlen : (y.dumps ++ (Json.dumpsMore ys ++ [93])).length ≤ n := by
      simp only [Json.dumpsMore, List.length_append, List.length_cons, List.length_nil] at hn ⊢
      omega
    have hrest := parseElems_dumps y ys n r hxs.1 hxs.2 hlen
    rw [hmore]
    simp only [bind, Option.bind_some, skipWs_cons (show isWs 44 = false by decide),
      parseElems_space, hrest]
    rfl
termination_by n

theorem parseMembers_dumps (key : List Byte) (x : Json) (kvs : List (List Byte × Json)) (n : Nat)
    (r : List Byte) (hx : x.noFloat = true) (hkvs : Json.noFloatKeys kvs = true)
    (hn : (quoted key ++ (58 :: 32 :: (x.dumps ++ (Json.dumpsMoreKeys kvs ++ [125])))).length ≤ n) :
    parseMembers n (quoted key ++ (58 :: 32 :: (x.dumps ++ (Json.dumpsMoreKeys kvs ++ 125 :: r)))) =
      some ((key, x) :: kvs, r) := by
  simp only [List.length_append, List.length_cons, List.length_nil] at hn
  obtain ⟨n, rfl⟩ : ∃ m, n = m + 1 := ⟨n - 1, by omega⟩
  obtain ⟨t, hquoted, hkey⟩ := parseStr_quoted key
    (58 :: 32 :: (x.dumps ++ (Json.dumpsMoreKeys kvs ++ 125 :: r)))
  have hvalue := parseValue_dumps x n (Json.dumpsMoreKeys kvs ++ 125 :: r) hx (by omega)
    (ends_dumpsMoreKeys kvs)
  rw [hquoted, parseMembers, skipWs_cons (by decide)]
  simp only [bind, hkey, Option.bind_some, skipWs_cons (show isWs 58 = false by decide),
    skipWs_space, skipWs_dumps hx, hvalue]
  match kvs with
  | [] => simp [skipWs, isWs]
  | (key', y) :: kvs =>
    simp only [Json.noFloatKeys, Bool.and_eq_true] at hkvs
    have hmore : Json.dumpsMoreKeys ((key', y) :: kvs) ++ 125 :: r =
        44 :: 32 :: (quoted key' ++
          (58 :: 32 :: (y.dumps ++ (Json.dumpsMoreKeys kvs ++ 125 :: r)))) := by
      simp
    have hlen : (quoted key' ++
        (58 :: 32 :: (y.dumps ++ (Json.dumpsMoreKeys kvs ++ [125])))).length ≤ n := by
      simp only [Json.dumpsMoreKeys, List.length_append, List.length_cons, List.length_nil] at hn ⊢
      omega
    have hrest := parseMembers_dumps key' y kvs n r hkvs.1 hkvs.2 hlen
    rw [hmore, skipWs_cons (by decide)]
    simp only [parseMembers_space, hrest, Option.bind_some]
    rfl
termination_by n

end

/-- **The decoder inverts the printer**, also with the newline `print` adds. -/
theorem loads_dumps {v : Json} (hv : v.noFloat = true) : loads (v.dumps ++ [10]) = some v := by
  have hvalue := parseValue_dumps v ((v.dumps ++ [10]).length + 1) [10] hv
    (by simp only [List.length_append]; omega) (.of_head (by decide))
  simp only [loads, skipWs_dumps hv, hvalue, bind, Option.bind_some]
  rfl

end RoundTrip

end Coomd
