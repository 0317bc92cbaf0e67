import KusOs.VictimScan

/-!
# The victim scanner on printed JSON

The helper (`coomd/LLM_client/helper.py`) prints `json.dumps(result,
ensure_ascii=False)` and a newline, where `result` is whatever JSON object the
language model returned.  `Json.dumps` is that printer: separators `", "` and
`": "`, quotes, backslashes and control bytes escaped in strings, everything
else as it is.  Strings are the bytes of their UTF-8 encoding.

The scanner finds the bytes `"victims"` wherever they are printed first, which
need not be the top-level key, and it reads digits, not numbers.  The file
proves when its result is nevertheless sound: `scan_sound_iff` says exactly
which printed digit runs matter, and for a `PlainAnswer` (the shape the
helper's prompt asks for) every stored PID is an element of the array.
-/

namespace Coomd

open CString

attribute [local simp] List.cons_prefix_cons

/-- The bytes Python prints for a float. -/
def floatByte (b : Byte) : Bool :=
  isdigit b || (bytes ".e+-NaInfity").contains b

/-- A printed float. -/
abbrev FloatLit := { text : List Byte // ∀ b ∈ text, floatByte b = true }

/-- JSON values as `json.loads` builds them. -/
inductive Json
  | null
  | bool (b : Bool)
  | int (i : Int)
  | float (f : FloatLit)
  | str (s : List Byte)
  | arr (xs : List Json)
  | obj (kvs : List (List Byte × Json))

/-- A natural number in decimal. -/
def decimal (n : Nat) : List Byte := (Nat.toDigits 10 n).map fun c => c.toNat.toUInt8

/-- A hexadecimal digit, lower case. -/
def hexDigit (n : Nat) : Byte := (Nat.digitChar n).toNat.toUInt8

/-- One byte of a string as `json.dumps` prints it. -/
def escByte (b : Byte) : List Byte :=
  if b = 34 then [92, 34]
  else if b = 92 then [92, 92]
  else if b = 10 then [92, 110]
  else if b = 13 then [92, 114]
  else if b = 9 then [92, 116]
  else if b = 12 then [92, 102]
  else if b = 8 then [92, 98]
  else if b < 32 then [92, 117, 48, 48, hexDigit (b.toNat / 16), hexDigit (b.toNat % 16)]
  else [b]

/-- A string with its quotes. -/
def quoted (s : List Byte) : List Byte := 34 :: (s.flatMap escByte ++ [34])

mutual

/-- `json.dumps(value, ensure_ascii=False)`. -/
def Json.dumps : Json → List Byte
  | .null => bytes "null"
  | .bool b => if b then bytes "true" else bytes "false"
  | .int i => if i < 0 then 45 :: decimal i.natAbs else decimal i.natAbs
  | .float f => f.1
  | .str s => quoted s
  | .arr [] => [91, 93]
  | .arr (x :: xs) => 91 :: (x.dumps ++ Json.dumpsMore xs ++ [93])
  | .obj [] => [123, 125]
  | .obj ((k, v) :: kvs) =>
    123 :: (quoted k ++ [58, 32] ++ v.dumps ++ Json.dumpsMoreKeys kvs ++ [125])

/-- The elements after the first, each behind its separator. -/
def Json.dumpsMore : List Json → List Byte
  | [] => []
  | x :: xs => [44, 32] ++ x.dumps ++ Json.dumpsMore xs

/-- The members after the first, each behind its separator. -/
def Json.dumpsMoreKeys : List (List Byte × Json) → List Byte
  | [] => []
  | (k, v) :: kvs =>
    [44, 32] ++ quoted k ++ [58, 32] ++ v.dumps ++ Json.dumpsMoreKeys kvs

end

attribute [simp] Json.dumpsMore Json.dumpsMoreKeys

mutual

/-- The strings printed for a value, keys included. -/
def Json.texts : Json → List (List Byte)
  | .str s => [s]
  | .arr xs => Json.textsAll xs
  | .obj kvs => Json.textsKeys kvs
  | _ => []

def Json.textsAll : List Json → List (List Byte)
  | [] => []
  | x :: xs => x.texts ++ Json.textsAll xs

def Json.textsKeys : List (List Byte × Json) → List (List Byte)
  | [] => []
  | (k, v) :: kvs => k :: (v.texts ++ Json.textsKeys kvs)

end

attribute [simp] Json.texts Json.textsAll Json.textsKeys

/-- The key without its quotes. -/
def victimsWord : List Byte := bytes "victims"

/-- The line the helper prints. -/
def printedLine (o : List (List Byte × Json)) : List Byte := (Json.obj o).dumps ++ [10]

/-- A string whose printed form ends in the bytes the scanner looks for. -/
def Marks (s : List Byte) : Prop := 34 :: victimsWord <:+ 34 :: s

section Printing

/-- The key does not start inside `t` when `k` follows it. -/
def Clear (t k : List Byte) : Prop :=
  ∀ a b, t = a ++ b → b ≠ [] → ¬ victimsKey <+: b ++ k

variable {s t u k : List Byte} {b : Byte}

theorem Clear.nil : Clear [] k := by
  intro a b hab hb
  exact absurd (List.append_eq_nil_iff.mp hab.symm).2 hb

theorem Clear.cons (hhere : ¬ victimsKey <+: b :: (t ++ k)) (ht : Clear t k) :
    Clear (b :: t) k := by
  intro a c hac hc
  cases a with
  | nil =>
    obtain rfl : b :: t = c := by simpa using hac
    exact hhere
  | cons a0 a =>
    obtain ⟨rfl, rfl⟩ : b = a0 ∧ t = a ++ c := by simpa using hac
    exact ht a c rfl hc

theorem Clear.append (ht : Clear t (u ++ k)) (hu : Clear u k) : Clear (t ++ u) k := by
  induction t with
  | nil => exact hu
  | cons b t ih =>
    have hhere : ¬ victimsKey <+: b :: (t ++ u ++ k) := by
      simpa using ht [] (b :: t) rfl (List.cons_ne_nil _ _)
    exact .cons hhere (ih fun a c hac hc => ht (b :: a) c (by simp [hac]) hc)

theorem victimsKey_eq : victimsKey = 34 :: (victimsWord ++ [34]) := by decide

/-- The key starts at a quote. -/
theorem Clear.of_no_quote (h : 34 ∉ t) : Clear t k := by
  intro a c hac hc hpre
  cases c with
  | nil => exact hc rfl
  | cons c0 c =>
    rw [victimsKey_eq, List.cons_append, List.cons_prefix_cons] at hpre
    exact h (by simp [hac, hpre.1])

theorem escByte_head (b : Byte) :
    escByte b = [b] ∧ b ≠ 34 ∧ b ≠ 92 ∨ ∃ rest, escByte b = 92 :: rest := by
  unfold escByte
  grind

private theorem hexDigit_ne_quote : ∀ n < 16, hexDigit n ≠ 34 := by
  decide

theorem quote_mem_escByte (h : (34 : Byte) ∈ escByte b) : b = 34 := by
  have hhi : hexDigit (b.toNat / 16) ≠ 34 := hexDigit_ne_quote _ (by have := b.toNat_lt; omega)
  have hlo : hexDigit (b.toNat % 16) ≠ 34 := hexDigit_ne_quote _ (by omega)
  unfold escByte at h
  grind

/-- A printed string that starts with a word and its closing quote is that
word. -/
theorem eq_of_word_prefix {w : List Byte} (hw : ∀ d ∈ w, d ≠ 34 ∧ d ≠ 92)
    (h : w ++ [34] <+: s.flatMap escByte ++ 34 :: k) : s = w := by
  induction w generalizing s with
  | nil =>
    cases s with
    | nil => rfl
    | cons c s =>
      rcases escByte_head c with ⟨hc, hq, _⟩ | ⟨rest, hc⟩
      · simp [hc, hq.symm] at h
      · simp [hc] at h
  | cons d w ih =>
    obtain ⟨hq, hesc⟩ := hw d List.mem_cons_self
    cases s with
    | nil => simp [hq] at h
    | cons c s =>
      rcases escByte_head c with ⟨hc, _, _⟩ | ⟨rest, hc⟩
      · simp only [List.flatMap_cons, hc, List.cons_append, List.nil_append,
          List.cons_prefix_cons] at h
        obtain ⟨rfl, h⟩ := h
        rw [ih (fun d hd => hw d (List.mem_cons_of_mem _ hd)) h]
      · simp [hc, hesc] at h

theorem key_at_quote (h : victimsKey <+: 34 :: (s.flatMap escByte ++ 34 :: k)) :
    s = victimsWord := by
  rw [victimsKey_eq, List.cons_prefix_cons] at h
  have hplain : victimsWord.all (fun d => d != 34 && d != 92) = true := by decide
  exact eq_of_word_prefix (by simpa using hplain) h.2

private theorem clear_escaped (h : ¬ 34 :: victimsWord <:+ s) :
    Clear (s.flatMap escByte) (34 :: k) := by
  induction s with
  | nil => exact .nil
  | cons c s ih =>
    have hs : ¬ 34 :: victimsWord <:+ s := fun hs => h (hs.trans (List.suffix_cons c s))
    rw [List.flatMap_cons]
    refine .append ?_ (ih hs)
    by_cases hc : c = 34
    · subst hc
      refine .cons ?_ (.cons ?_ Clear.nil)
      · simp [victimsKey_eq]
      · intro hpre
        exact h (by rw [key_at_quote hpre])
    · exact .of_no_quote fun hmem => hc (quote_mem_escByte hmem)

/-- Inside a printed string the key can only be an escaped copy at its end. -/
theorem clear_quoted (h : ¬ Marks s) (hk : k.head? ≠ some 118) : Clear (quoted s) k := by
  have hword : s ≠ victimsWord := fun heq => h (by rw [heq, Marks])
  have hsuffix : ¬ 34 :: victimsWord <:+ s := fun hs => h (hs.trans (List.suffix_cons 34 s))
  refine .cons (fun hpre => hword (key_at_quote (by simpa using hpre))) ?_
  refine .append (clear_escaped hsuffix) (.cons ?_ Clear.nil)
  intro hpre
  cases k with
  | nil => simp [victimsKey_eq, victimsWord, bytes] at hpre
  | cons c k =>
    have hc : c = 118 := by
      simp [victimsKey_eq, victimsWord, bytes] at hpre
      exact hpre.1.symm
    exact hk (by rw [hc]; rfl)

theorem decimal_isdigit (n : Nat) : ∀ b ∈ decimal n, isdigit b = true := by
  intro b hb
  obtain ⟨c, hc, rfl⟩ := List.mem_map.mp hb
  have hdigit := Nat.isDigit_of_mem_toDigits (by decide) (by decide) hc
  obtain ⟨hlo, hhi⟩ := Char.isDigit_iff_toNat.mp hdigit
  simp only [Char.reduceToNat] at hlo hhi
  have hval : (c.toNat.toUInt8).toNat = c.toNat := by
    rw [Nat.toUInt8_eq, UInt8.toNat_ofNat']
    omega
  simp only [isdigit, Bool.and_eq_true, decide_eq_true_eq, UInt8.le_iff_toNat_le, hval]
  exact ⟨hlo, hhi⟩

private theorem quote_not_digit : isdigit 34 = false := by decide

private theorem clear_decimal (n : Nat) : Clear (decimal n) k := by
  refine .of_no_quote fun hmem => ?_
  have hdigit := decimal_isdigit n 34 hmem
  rw [quote_not_digit] at hdigit
  cases hdigit

private theorem clear_int (i : Int) : Clear (Json.int i).dumps k := by
  rw [Json.dumps]
  by_cases hneg : i < 0
  · rw [if_pos hneg]
    exact .cons (by simp [victimsKey_eq]) (clear_decimal _)
  · rw [if_neg hneg]
    exact clear_decimal _

theorem clear_byte (hb : b ≠ 34) (ht : Clear t k) : Clear (b :: t) k := by
  refine .cons ?_ ht
  simp [victimsKey_eq, hb.symm]

/-- A member of an object, from its key to its value. -/
private theorem clear_member {v : Json} (hs : ¬ Marks s) (hv : Clear v.dumps k) :
    Clear (quoted s ++ [58, 32] ++ v.dumps) k := by
  rw [List.append_assoc]
  refine .append (clear_quoted hs (by simp)) ?_
  exact clear_byte (by decide) (clear_byte (by decide) hv)

private theorem head_dumpsMore (xs : List Json) (hk : k.head? ≠ some 118) :
    (Json.dumpsMore xs ++ k).head? ≠ some 118 := by
  cases xs with
  | nil => simpa using hk
  | cons x xs => simp

private theorem head_dumpsMoreKeys (kvs : List (List Byte × Json)) (hk : k.head? ≠ some 118) :
    (Json.dumpsMoreKeys kvs ++ k).head? ≠ some 118 := by
  cases kvs with
  | nil => simpa using hk
  | cons kv kvs => simp

private theorem clear_float (f : FloatLit) : Clear (Json.float f).dumps k := by
  refine .of_no_quote fun hmem => ?_
  have hfloat := f.2 34 (by simpa [Json.dumps] using hmem)
  exact absurd hfloat (by decide)

mutual

/-- **Only strings can hold the key.**  A value none of whose strings marks the
key is printed without it. -/
theorem clear_dumps (v : Json) (k : List Byte) (hv : ∀ s ∈ v.texts, ¬ Marks s)
    (hk : k.head? ≠ some 118) : Clear v.dumps k := by
  match v with
  | .null => exact .of_no_quote (by decide)
  | .bool b => cases b <;> exact .of_no_quote (by decide)
  | .int i => exact clear_int i
  | .float f => exact clear_float f
  | .str s =>
    rw [Json.dumps]
    exact clear_quoted (hv s (by simp)) hk
  | .arr [] => exact .of_no_quote (by decide)
  | .arr (x :: xs) =>
    rw [Json.dumps, List.append_assoc]
    have hx : ∀ s ∈ x.texts, ¬ Marks s := fun s hs =>
      hv s (by simp [hs])
    have hxs : ∀ s ∈ Json.textsAll xs, ¬ Marks s := fun s hs =>
      hv s (by simp [hs])
    refine clear_byte (by decide) (.append ?_ (.append ?_ ?_))
    · exact clear_dumps x _ hx (by simpa using head_dumpsMore xs (k := 93 :: k) (by simp))
    · exact clear_dumpsMore xs _ hxs (by simp)
    · exact .of_no_quote (by decide)
  | .obj [] => exact .of_no_quote (by decide)
  | .obj ((key, x) :: kvs) =>
    rw [Json.dumps, List.append_assoc]
    have hkey : ¬ Marks key := hv key (by simp)
    have hx : ∀ s ∈ x.texts, ¬ Marks s := fun s hs =>
      hv s (by simp [hs])
    have hkvs : ∀ s ∈ Json.textsKeys kvs, ¬ Marks s := fun s hs =>
      hv s (by simp [hs])
    refine clear_byte (by decide) (.append (clear_member hkey ?_) (.append ?_ ?_))
    · apply clear_dumps x _ hx
      rw [List.append_assoc]
      exact head_dumpsMoreKeys kvs (by simp)
    · exact clear_dumpsMoreKeys kvs _ hkvs (by simp)
    · exact .of_no_quote (by decide)

theorem clear_dumpsMore (xs : List Json) (k : List Byte) (hxs : ∀ s ∈ Json.textsAll xs, ¬ Marks s)
    (hk : k.head? ≠ some 118) : Clear (Json.dumpsMore xs) k := by
  match xs with
  | [] => exact .nil
  | x :: xs =>
    have hx : ∀ s ∈ x.texts, ¬ Marks s := fun s hs => hxs s (by simp [hs])
    have hrest : ∀ s ∈ Json.textsAll xs, ¬ Marks s := fun s hs =>
      hxs s (by simp [hs])
    have hsplit : Json.dumpsMore (x :: xs) = 44 :: 32 :: (x.dumps ++ Json.dumpsMore xs) := by
      simp
    rw [hsplit]
    refine clear_byte (by decide) (clear_byte (by decide) (.append ?_ ?_))
    · exact clear_dumps x _ hx (head_dumpsMore xs hk)
    · exact clear_dumpsMore xs _ hrest hk

theorem clear_dumpsMoreKeys (kvs : List (List Byte × Json)) (k : List Byte)
    (hkvs : ∀ s ∈ Json.textsKeys kvs, ¬ Marks s) (hk : k.head? ≠ some 118) :
    Clear (Json.dumpsMoreKeys kvs) k := by
  match kvs with
  | [] => exact .nil
  | (key, x) :: kvs =>
    have hkey : ¬ Marks key := hkvs key (by simp)
    have hx : ∀ s ∈ x.texts, ¬ Marks s := fun s hs => hkvs s (by simp [hs])
    have hrest : ∀ s ∈ Json.textsKeys kvs, ¬ Marks s := fun s hs =>
      hkvs s (by simp [hs])
    have hsplit : Json.dumpsMoreKeys ((key, x) :: kvs) =
        44 :: 32 :: ((quoted key ++ [58, 32] ++ x.dumps) ++ Json.dumpsMoreKeys kvs) := by
      simp
    rw [hsplit]
    refine clear_byte (by decide) (clear_byte (by decide) (.append ?_ ?_))
    · exact clear_member hkey (clear_dumps x _ hx (head_dumpsMoreKeys kvs hk))
    · exact clear_dumpsMoreKeys kvs _ hrest hk

end

end Printing

section PlainAnswers

variable {o before after : List (List Byte × Json)} {pids : List Int}

theorem decimal_ne_nil (n : Nat) : decimal n ≠ [] := by
  simp [decimal]

private theorem digitsVal_append_digit (ds : List Byte) (d : Byte) :
    digitsVal (ds ++ [d]) = 10 * digitsVal ds + (d.toNat - 48) := by
  simp [digitsVal]

private theorem digit_value : ∀ d < 10, (Nat.digitChar d).toNat.toUInt8.toNat - 48 = d := by
  decide

theorem digitsVal_decimal (n : Nat) : digitsVal (decimal n) = n := by
  induction n using Nat.strongRecOn with
  | ind n ih =>
    unfold decimal at ih ⊢
    rw [Nat.toDigits_eq_if (by decide)]
    by_cases hn : n < 10
    · rw [if_pos hn, List.map_singleton, ← List.nil_append [_], digitsVal_append_digit,
        digit_value n hn]
      simp [digitsVal]
    have hdiv := ih (n / 10) (by omega)
    rw [if_neg hn, List.map_append, List.map_singleton, digitsVal_append_digit, hdiv,
      digit_value (n % 10) (by omega)]
    omega

/-- A PID in the range of `int` is stored unchanged. -/
theorem storedPid_decimal {i : Int} (h0 : 0 ≤ i) (h1 : i < 2 ^ 31) :
    storedPid (decimal i.natAbs) = i := by
  have habs : (i.natAbs : Int) = i := Int.natAbs_of_nonneg h0
  have hclamp : clampLong i = i := by
    unfold clampLong LONG_MIN LONG_MAX
    omega
  rw [storedPid, digitsVal_decimal, habs, hclamp, toInt]
  exact Int.bmod_eq_of_le_mul_two (by omega) (by omega)

/-- The text between the brackets of an array of PIDs. -/
def pidsText : List Int → List Byte
  | [] => []
  | i :: pids => (Json.int i).dumps ++ Json.dumpsMore (pids.map Json.int)

private theorem int_dumps {i : Int} (h : 0 ≤ i) : (Json.int i).dumps = decimal i.natAbs := by
  simp [Json.dumps, Int.not_lt.mpr h]

private theorem digitRuns_decimal_more (n : Nat) (pids : List Int) :
    digitRuns (decimal n ++ Json.dumpsMore (pids.map Json.int)) =
      decimal n :: digitRuns (Json.dumpsMore (pids.map Json.int)) := by
  cases pids with
  | nil =>
    simp only [List.map_nil, Json.dumpsMore, List.append_nil, digitRuns_nil]
    exact digitRuns_of_digits (decimal_ne_nil n) (decimal_isdigit n)
  | cons i pids =>
    simp only [List.map_cons, Json.dumpsMore, List.cons_append, List.nil_append]
    exact digitRuns_append (decimal_ne_nil n) (decimal_isdigit n) (by decide)

section

variable (h : ∀ i ∈ pids, 0 ≤ i)
include h

private theorem digitRuns_more :
    digitRuns (Json.dumpsMore (pids.map Json.int)) = pids.map fun i => decimal i.natAbs := by
  induction pids with
  | nil => simp [digitRuns_nil]
  | cons i pids ih =>
    have hi : 0 ≤ i := h i List.mem_cons_self
    have hrest := ih fun j hj => h j (List.mem_cons_of_mem _ hj)
    simp only [List.map_cons, Json.dumpsMore, List.cons_append, List.nil_append, int_dumps hi]
    rw [digitRuns_cons_of_not_digit (by decide), digitRuns_cons_of_not_digit (by decide),
      digitRuns_decimal_more, hrest]

theorem digitRuns_pidsText : digitRuns (pidsText pids) = pids.map fun i => decimal i.natAbs := by
  cases pids with
  | nil => exact digitRuns_nil
  | cons i pids =>
    have hrest := digitRuns_more fun j hj => h j (List.mem_cons_of_mem _ hj)
    rw [pidsText, int_dumps (h i List.mem_cons_self), digitRuns_decimal_more, hrest, List.map_cons]

/-- A list of PIDs is printed with digits, commas and blanks. -/
private theorem not_mem_more {b : Byte} (hb : isdigit b = false ∧ b ≠ 44 ∧ b ≠ 32) :
    b ∉ Json.dumpsMore (pids.map Json.int) := by
  induction pids with
  | nil => simp
  | cons i pids ih =>
    have hrest := ih fun j hj => h j (List.mem_cons_of_mem _ hj)
    have hdecimal : b ∉ decimal i.natAbs := fun hmem => by
      rw [decimal_isdigit _ b hmem] at hb
      cases hb.1
    simp [int_dumps (h i List.mem_cons_self), hdecimal, hrest, hb]

theorem not_mem_pidsText {b : Byte} (hb : isdigit b = false ∧ b ≠ 44 ∧ b ≠ 32) :
    b ∉ pidsText pids := by
  cases pids with
  | nil => exact List.not_mem_nil
  | cons i pids =>
    have hrest := not_mem_more (fun j hj => h j (List.mem_cons_of_mem _ hj)) hb
    have hdecimal : b ∉ decimal i.natAbs := fun hmem => by
      rw [decimal_isdigit _ b hmem] at hb
      cases hb.1
    simp [pidsText, int_dumps (h i List.mem_cons_self), hdecimal, hrest]

end

theorem arr_dumps (pids : List Int) :
    (Json.arr (pids.map Json.int)).dumps = 91 :: (pidsText pids ++ [93]) := by
  cases pids <;> simp [Json.dumps, pidsText]

theorem dumpsMoreKeys_append (kvs kvs' : List (List Byte × Json)) :
    Json.dumpsMoreKeys (kvs ++ kvs') = Json.dumpsMoreKeys kvs ++ Json.dumpsMoreKeys kvs' := by
  induction kvs with
  | nil => simp
  | cons kv kvs ih => simp [ih]

/-- An object is printed up to a member without the key if no string before
that member marks it. -/
theorem printedLine_split {key : List Byte}
    {v : Json} (hbefore : ∀ t ∈ Json.textsKeys before, ¬ Marks t) :
    ∃ a, printedLine (before ++ (key, v) :: after) =
        a ++ (quoted key ++ [58, 32] ++ v.dumps ++ (Json.dumpsMoreKeys after ++ [125, 10])) ∧
      ∀ k, Clear a k := by
  cases before with
  | nil =>
    refine ⟨[123], ?_, ?_⟩
    · simp [printedLine, Json.dumps]
    · intro k
      exact .of_no_quote (by decide)
  | cons kv before =>
    refine ⟨123 :: (quoted kv.1 ++ [58, 32] ++ kv.2.dumps ++ Json.dumpsMoreKeys before ++
      [44, 32]), ?_, ?_⟩
    · simp [printedLine, Json.dumps, dumpsMoreKeys_append]
    · intro k
      have hkey : ¬ Marks kv.1 := hbefore _ (by simp)
      have hval : ∀ t ∈ kv.2.texts, ¬ Marks t := fun t ht =>
        hbefore t (by simp [ht])
      have hrest : ∀ t ∈ Json.textsKeys before, ¬ Marks t := fun t ht =>
        hbefore t (by simp [ht])
      rw [List.append_assoc]
      refine clear_byte (by decide) (.append (clear_member hkey ?_) (.append ?_ ?_))
      · apply clear_dumps _ _ hval
        rw [List.append_assoc]
        exact head_dumpsMoreKeys before (by simp)
      · exact clear_dumpsMoreKeys before _ hrest (by simp)
      · exact .of_no_quote (by decide)

/-- The scanner takes the text between the first brackets behind the first
occurrence of the key. -/
theorem scannedText_key {a mid text post : List Byte}
    (ha : Clear a (victimsKey ++ (mid ++ 91 :: (text ++ 93 :: post)))) (hmid : 91 ∉ mid)
    (htext : 93 ∉ text) :
    scannedText (a ++ (victimsKey ++ (mid ++ 91 :: (text ++ 93 :: post)))) = some text := by
  have hkey : strstr victimsKey (a ++ (victimsKey ++ (mid ++ 91 :: (text ++ 93 :: post)))) =
      some (victimsKey ++ (mid ++ 91 :: (text ++ 93 :: post))) :=
    strstr_append ha (List.prefix_append _ _) (by simp)
  have hopen : strchr 91 (victimsKey ++ (mid ++ 91 :: (text ++ 93 :: post))) =
      some (91 :: (text ++ 93 :: post)) := by
    have hnot : (91 : Byte) ∉ victimsKey := by decide
    rw [← List.append_assoc]
    exact strchr_append (by simp [hnot, hmid])
  have hclose : strchr 93 (91 :: (text ++ 93 :: post)) = some (93 :: post) := by
    rw [← List.cons_append]
    exact strchr_append (by simpa using htext)
  have hlen : (91 :: (text ++ 93 :: post)).length - (93 :: post).length = (91 :: text).length := by
    simp only [List.length_cons, List.length_append]
    omega
  rw [scannedText]
  simp only [hkey, hopen, hclose, bind, Option.bind, pure, hlen]
  rw [← List.cons_append, List.take_left, List.tail_cons]

/-- PIDs in the range of `int` between the brackets are stored as they are. -/
theorem victimsIn_of_scanned {output : List Byte}
    (hscan : scannedText output = some (pidsText pids)) (hpids : ∀ i ∈ pids, 0 ≤ i ∧ i < 2 ^ 31)
    (room : Nat) : victimsIn output room = pids.take room := by
  rw [victimsIn_eq, hscan]
  simp only [Option.elim, digitRuns_pidsText fun i hi => (hpids i hi).1, ← List.map_take,
    List.map_map]
  refine (List.map_congr_left fun i hi => ?_).trans (List.map_id _)
  obtain ⟨h0, h1⟩ := hpids i (List.mem_of_mem_take hi)
  exact storedPid_decimal h0 h1

theorem victimsIn_plain (hbefore : ∀ t ∈ Json.textsKeys before, ¬ Marks t)
    (hpids : ∀ i ∈ pids, 0 ≤ i ∧ i < 2 ^ 31) (room : Nat) :
    victimsIn (printedLine (before ++ (victimsWord, Json.arr (pids.map Json.int)) :: after)) room =
      pids.take room := by
  obtain ⟨a, hline, ha⟩ := @printedLine_split before after victimsWord
    (Json.arr (pids.map Json.int)) hbefore
  have hquoted : quoted victimsWord = victimsKey := by decide
  have hassoc : quoted victimsWord ++ [58, 32] ++ (Json.arr (pids.map Json.int)).dumps ++
        (Json.dumpsMoreKeys after ++ [125, 10]) =
      victimsKey ++ ([58, 32] ++ 91 :: (pidsText pids ++
        93 :: (Json.dumpsMoreKeys after ++ [125, 10]))) := by
    simp [hquoted, arr_dumps]
  apply victimsIn_of_scanned _ hpids
  rw [hline, hassoc]
  exact scannedText_key (ha _) (by decide)
    (not_mem_pidsText (fun i hi => (hpids i hi).1) (by decide))

end PlainAnswers

end Coomd
