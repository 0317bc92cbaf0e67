import Mathlib
import KusOs.CStrings

/-!
# Routines that the kernel and the user library both have

`memmove` is written twice (`kernel/string.c`, `user/ulib.c`), with different tests for
the direction of the copy, and so is `printint` (`kernel/printf.c`, `user/printf.c`).

* `memmove_moves` — both versions of `memmove` move the bytes, whatever the overlap;
* `printint_numeral` — both versions of `printint` print the numeral, inside `buf[20]`;
* `atoi_printint` — `atoi` reads it back.
-/

namespace Kus.Lib

open CString Function

section Move

/-- The bytes at the addresses below `2 ^ 64`. -/
abbrev Mem := Nat → Byte

/-- `while(n-- > 0) *d++ = *s++;` -/
def copyUp : Nat → Nat → Nat → Mem → Mem
  | 0, _, _, m => m
  | n + 1, d, s, m => copyUp n ((d + 1) % 2 ^ 64) ((s + 1) % 2 ^ 64) (update m d (m s))

/-- `while(n-- > 0) *--d = *--s;` -/
def copyDown : Nat → Nat → Nat → Mem → Mem
  | 0, _, _, m => m
  | n + 1, d, s, m =>
    let d := (d + (2 ^ 64 - 1)) % 2 ^ 64
    let s := (s + (2 ^ 64 - 1)) % 2 ^ 64
    copyDown n d s (update m d (m s))

/-- `memmove` of the kernel. -/
def memmove (dst src : Nat) (n : UInt32) (m : Mem) : Mem :=
  if n = 0 then m
  else if src < dst ∧ dst < (src + n.toNat) % 2 ^ 64 then
    copyDown n.toNat ((dst + n.toNat) % 2 ^ 64) ((src + n.toNat) % 2 ^ 64) m
  else copyUp n.toNat dst src m

/-- `memmove` of the user library, whose length is an `int`. -/
def umemmove (dst src : Nat) (n : Int32) (m : Mem) : Mem :=
  if dst < src then copyUp n.toNatClampNeg dst src m
  else
    copyDown n.toNatClampNeg ((dst + n.toInt) % 2 ^ 64).toNat ((src + n.toInt) % 2 ^ 64).toNat m

/-- The `n` bytes at `src` are at `dst` afterwards, and no other byte changes. -/
def Moved (dst src n : Nat) (m m' : Mem) : Prop :=
  ∀ a, m' a = if dst ≤ a ∧ a < dst + n then m (src + (a - dst)) else m a

variable {dst src n : Nat} {m : Mem}

theorem Moved.refl : Moved dst src 0 m m := by
  intro a
  rw [if_neg (by omega)]

/-- The first byte, then the others. -/
theorem Moved.up {m' : Mem} (h : Moved (dst + 1) (src + 1) n (update m dst (m src)) m')
    (hsafe : dst ≤ src ∨ src + (n + 1) ≤ dst) : Moved dst src (n + 1) m m' := by
  intro a
  have ha := h a
  by_cases hin : dst + 1 ≤ a ∧ a < dst + 1 + n
  · rw [if_pos hin, update_of_ne (by omega)] at ha
    rw [ha, if_pos (by omega), show src + 1 + (a - (dst + 1)) = src + (a - dst) by omega]
  · rw [if_neg hin, update_apply] at ha
    grind

/-- The last byte, then the others. -/
theorem Moved.down {m' : Mem} (h : Moved dst src n (update m (dst + n) (m (src + n))) m')
    (hsafe : src ≤ dst ∨ dst + (n + 1) ≤ src) : Moved dst src (n + 1) m m' := by
  intro a
  have ha := h a
  by_cases hin : dst ≤ a ∧ a < dst + n
  · rw [if_pos hin, update_of_ne (by omega)] at ha
    rw [ha, if_pos (by omega)]
  · rw [if_neg hin, update_apply] at ha
    grind

/-- Upwards, no byte is overwritten before it is read. -/
theorem copyUp_moves (hdst : dst + n ≤ 2 ^ 64) (hsrc : src + n ≤ 2 ^ 64)
    (hsafe : dst ≤ src ∨ src + n ≤ dst) : Moved dst src n m (copyUp n dst src m) := by
  induction n generalizing dst src m with
  | zero => exact .refl
  | succ n ih =>
    apply Moved.up _ hsafe
    rw [copyUp]
    by_cases hn : n = 0
    · subst hn
      exact .refl
    -- the pointers do not wrap before the last byte
    rw [Nat.mod_eq_of_lt (by omega : dst + 1 < 2 ^ 64),
      Nat.mod_eq_of_lt (by omega : src + 1 < 2 ^ 64)]
    exact ih (by omega) (by omega) (by omega)

/-- The same downwards; the pointers start behind the last byte. -/
theorem copyDown_moves (hdst : dst + n ≤ 2 ^ 64) (hsrc : src + n ≤ 2 ^ 64)
    (hsafe : src ≤ dst ∨ dst + n ≤ src) :
    Moved dst src n m (copyDown n ((dst + n) % 2 ^ 64) ((src + n) % 2 ^ 64) m) := by
  induction n generalizing m with
  | zero => exact .refl
  | succ n ih =>
    have hd : ((dst + (n + 1)) % 2 ^ 64 + (2 ^ 64 - 1)) % 2 ^ 64 = dst + n := by omega
    have hs : ((src + (n + 1)) % 2 ^ 64 + (2 ^ 64 - 1)) % 2 ^ 64 = src + n := by omega
    have hrest := @ih (update m (dst + n) (m (src + n))) (by omega) (by omega) (by omega)
    rw [Nat.mod_eq_of_lt (by omega : dst + n < 2 ^ 64),
      Nat.mod_eq_of_lt (by omega : src + n < 2 ^ 64)] at hrest
    rw [copyDown, hd, hs]
    exact .down hrest hsafe

/-- **`memmove` is correct for every overlap**, in the kernel and in the user library. -/
theorem memmove_moves (dst src : Nat) (m : Mem) :
    (∀ n : UInt32, dst + n.toNat ≤ 2 ^ 64 → src + n.toNat ≤ 2 ^ 64 →
      Moved dst src n.toNat m (memmove dst src n m)) ∧
    ∀ n : Int32, dst + n.toNatClampNeg ≤ 2 ^ 64 → src + n.toNatClampNeg ≤ 2 ^ 64 →
      Moved dst src n.toNatClampNeg m (umemmove dst src n m) := by
  constructor
  · intro n hdst hsrc
    unfold memmove
    split_ifs with hzero hdown
    · rw [hzero]
      exact .refl
    · exact copyDown_moves hdst hsrc (by omega)
    · exact copyUp_moves hdst hsrc (by omega)
  · intro n hdst hsrc
    unfold umemmove
    split_ifs with hup
    · exact copyUp_moves hdst hsrc (by omega)
    · by_cases hneg : n.toNatClampNeg = 0
      · rw [hneg]
        exact .refl
      · have hn : n.toInt = n.toNatClampNeg := by
          change n.toInt.toNat ≠ 0 at hneg
          change n.toInt = n.toInt.toNat
          omega
        rw [hn]
        exact copyDown_moves hdst hsrc (by omega)

/-- Four bytes, moved up by one and down by one. -/
theorem memmove_moves_overlap :
    (∀ m, Moved 101 100 4 m (memmove 101 100 4 m)) ∧ ∀ m, Moved 99 100 4 m (umemmove 99 100 4 m) :=
  ⟨fun m => (memmove_moves 101 100 m).1 4 (by decide) (by decide),
    fun m => (memmove_moves 99 100 m).2 4 (by decide) (by decide)⟩

end Move

section Print

/-- The `do` loop of `printint`, with `room` places left in `buf`; a digit that found
no room would be stored outside. -/
def digitLoop (digits : List Byte) (base : Nat) : Nat → Nat → List Byte → Option (List Byte)
  | 0, _, _ => none
  | room + 1, x, buf =>
    let buf := buf ++ [digits.getD (x % base) 0]
    if x / base = 0 then some buf else digitLoop digits base room (x / base) buf

/-- What `printint` prints with a table of digits, if it stays inside `buf[20]`. -/
def printintWith (digits : List Byte) (xx : Int64) (base : Nat) (sign : Bool) :
    Option (List Byte) := do
  let neg := sign && decide (xx < 0)
  let x := if neg then (-xx).toUInt64 else xx.toUInt64
  let buf ← digitLoop digits base 20 x.toNat []
  if neg then if buf.length < 20 then some (buf ++ [45]).reverse else none
  else some buf.reverse

/-- The digits of the kernel. -/
def kdigits : List Byte := bytes "0123456789abcdef"

/-- The digits of the user library. -/
def udigits : List Byte := bytes "0123456789ABCDEF"

/-- `printint` of the kernel. -/
def kprintint := printintWith kdigits

/-- `printint` of the user library. -/
def uprintint := printintWith udigits

/-- The numeral of a natural number: its digits without leading zeros, or one zero. -/
def natNumeral (digits : List Byte) (base n : Nat) : List Byte :=
  (if n = 0 then [0] else (Nat.digits base n).reverse).map (digits.getD · 0)

/-- The numeral of an integer. -/
def numeral (digits : List Byte) (base : Nat) (i : Int) : List Byte :=
  if i < 0 then 45 :: natNumeral digits base i.natAbs else natNumeral digits base i.natAbs

variable {digits : List Byte} {base : Nat}

theorem length_natNumeral_le (hbase : 1 < base) {k n : Nat} (hk : 0 < k) (hn : n < base ^ k) :
    (natNumeral digits base n).length ≤ k := by
  have hlen := (Nat.digits_length_le_iff hbase n).2 hn
  unfold natNumeral
  split_ifs <;> simpa

/-- The loop stores the digits from the last one to the first. -/
theorem digitLoop_eq (hbase : 1 < base) {room x : Nat} (hroom : 0 < room) (hx : x < base ^ room)
    (buf : List Byte) : digitLoop digits base room x buf =
      some (buf ++ (natNumeral digits base x).reverse) := by
  induction room generalizing x buf with
  | zero => exact absurd hroom (Nat.lt_irrefl 0)
  | succ room ih =>
    rw [digitLoop]
    by_cases hlt : x < base
    · by_cases hzero : x = 0
      · simp [natNumeral, hzero]
      · simp [natNumeral, hzero, Nat.div_eq_of_lt hlt, Nat.mod_eq_of_lt hlt,
          Nat.digits_of_lt base x hzero hlt]
    have hpos : 0 < x / base := Nat.div_pos (by omega) (by omega)
    have hdiv : x / base < base ^ room := Nat.div_lt_of_lt_mul (by rw [← Nat.pow_succ']; exact hx)
    have hmore : 0 < room := by
      apply Nat.pos_of_ne_zero
      intro hroom
      simp [hroom] at hx
      omega
    rw [if_neg hpos.ne', ih hmore hdiv]
    simp [natNumeral, hpos.ne', show x ≠ 0 by omega, Nat.digits_def' hbase (show 0 < x by omega)]

/-- The negation wraps for the least value, and is its absolute value all the same. -/
theorem toNat_neg_of_neg {xx : Int64} (h : xx < 0) : (-xx).toUInt64.toNat = xx.toInt.natAbs := by
  have hx : xx.toInt = xx.toBitVec.toInt := rfl
  have hneg : (-xx).toUInt64.toNat = (-xx.toBitVec).toNat := rfl
  have hlt := Int64.lt_iff_toInt_lt.1 h
  have hbound := xx.toBitVec.isLt
  rw [Int64.toInt_zero, hx, BitVec.toInt_eq_toNat_cond] at hlt
  rw [hneg, hx, BitVec.toNat_neg, BitVec.toInt_eq_toNat_cond]
  split_ifs at hlt ⊢ <;> omega

theorem toInt_of_not_neg {xx : Int64} (h : ¬ xx < 0) : xx.toInt = xx.toUInt64.toNat := by
  have hx : xx.toInt = xx.toBitVec.toInt := rfl
  have hnat : xx.toUInt64.toNat = xx.toBitVec.toNat := rfl
  have hle : ¬ xx.toInt < 0 := fun hlt => h (Int64.lt_iff_toInt_lt.2 hlt)
  rw [hx, BitVec.toInt_eq_toNat_cond] at hle
  rw [hx, hnat, BitVec.toInt_eq_toNat_cond]
  split_ifs at hle ⊢ <;> omega

theorem printintWith_eq (digits : List Byte) (xx : Int64) (hbase : base = 10 ∨ base = 16)
    (sign : Bool) : printintWith digits xx base sign =
      some (numeral digits base (if sign then xx.toInt else xx.toUInt64.toNat)) ∧
    (numeral digits base (if sign then xx.toInt else xx.toUInt64.toNat)).length ≤ 20 := by
  have hone : 1 < base := by omega
  have hpow : 2 ^ 63 < base ^ 19 ∧ 2 ^ 64 < base ^ 20 := by
    rcases hbase with rfl | rfl <;> decide
  by_cases hneg : sign = true ∧ xx < 0
  · -- at most 19 digits, so there is room for the sign
    obtain ⟨rfl, hlt⟩ := hneg
    have hmin := xx.le_toInt
    have hzero : xx.toInt < 0 := Int64.lt_iff_toInt_lt.1 hlt
    have hlen := @length_natNumeral_le digits _ hone 19 xx.toInt.natAbs (by decide) (by omega)
    have hloop := @digitLoop_eq digits _ hone 20 xx.toInt.natAbs (by decide) (by omega) []
    have hroom : (natNumeral digits base xx.toInt.natAbs).length < 20 := by omega
    simp only [printintWith, hlt, decide_true, Bool.true_and, if_true, toNat_neg_of_neg hlt, hloop]
    simp [numeral, hzero, hroom]
  have hval : (if sign then xx.toInt else xx.toUInt64.toNat) = (xx.toUInt64.toNat : Int) := by
    cases sign with
    | true => exact toInt_of_not_neg fun h => hneg ⟨rfl, h⟩
    | false => rfl
  have hx := Nat.lt_trans xx.toUInt64.toNat_lt hpow.2
  have hlen := @length_natNumeral_le digits _ hone 20 _ (by decide) hx
  have hloop := @digitLoop_eq digits _ hone 20 _ (by decide) hx []
  have hsign : (sign && decide (xx < 0)) = false := by simpa using hneg
  have hnat : ¬ (xx.toUInt64.toNat : Int) < 0 := by omega
  rw [hval]
  simp [printintWith, hsign, hloop, numeral, hlen, hnat]

/-- **`printint` prints the numeral** of the signed or unsigned value, in the kernel and in
the user library, and stores at most 20 characters in `buf[20]`. -/
theorem printint_numeral (xx : Int64) (hbase : base = 10 ∨ base = 16) (sign : Bool) :
    let v : Int := if sign then xx.toInt else xx.toUInt64.toNat
    (kprintint xx base sign = some (numeral kdigits base v) ∧
      (numeral kdigits base v).length ≤ 20) ∧
    uprintint xx base sign = some (numeral udigits base v) ∧
      (numeral udigits base v).length ≤ 20 :=
  ⟨printintWith_eq kdigits xx hbase sign, printintWith_eq udigits xx hbase sign⟩

/-- The least signed and the greatest unsigned value. -/
theorem printint_numeral_extremes :
    kprintint Int64.minValue 10 true = some (bytes "-9223372036854775808") ∧
    uprintint (-1) 16 false = some (bytes "FFFFFFFFFFFFFFFF") := by
  have hmin := (printint_numeral Int64.minValue (.inl rfl) true).1.1
  have hmax := (printint_numeral (-1) (.inr rfl) false).2.1
  exact ⟨hmin.trans (by decide +kernel), hmax.trans (by decide +kernel)⟩

/-- `atoi` when it has read `n`; `none` if `n*10 + *s` overflows. -/
def atoi : List Byte → Nat → Option Nat
  | [], n => some n
  | c :: s, n =>
    if 48 ≤ c.toNat ∧ c.toNat ≤ 57 then
      if n * 10 + c.toNat < 2 ^ 31 then atoi s (n * 10 + c.toNat - 48) else none
    else some n

theorem atoi_digits (ds : List Nat) (hds : ∀ d ∈ ds, d < 10)
    (hmax : Nat.ofDigits 10 ds < 2 ^ 31 - 48) (s : List Byte) :
    atoi (ds.reverse.map (udigits.getD · 0) ++ s) 0 = atoi s (Nat.ofDigits 10 ds) := by
  induction ds generalizing s with
  | nil => rfl
  | cons d ds ih =>
    have hdigit : ∀ d < 10, (udigits.getD d 0).toNat = 48 + d := by decide
    have hd := hds d List.mem_cons_self
    rw [Nat.ofDigits_cons] at hmax ⊢
    have hrest := ih (fun d hd => hds d (List.mem_cons_of_mem _ hd)) (by omega)
    rw [List.reverse_cons, List.map_append, List.append_assoc, hrest, List.map_singleton,
      List.singleton_append, atoi, hdigit d hd, if_pos (by omega), if_pos (by omega)]
    congr 1
    omega

/-- **`atoi` reads what `printint` prints**, up to where it overflows. -/
theorem atoi_printint (xx : Int64) (sign : Bool) (hpos : ¬ xx < 0)
    (hmax : xx.toInt < 2 ^ 31 - 48) :
    ∃ out, uprintint xx 10 sign = some out ∧ atoi out 0 = some xx.toInt.natAbs := by
  have hval := toInt_of_not_neg hpos
  have hout := (printintWith_eq udigits xx (.inl rfl) sign).1
  rw [← hval, ite_self, numeral, if_neg (by omega)] at hout
  refine ⟨_, hout, ?_⟩
  have hread := atoi_digits (Nat.digits 10 xx.toInt.natAbs)
    (fun d hd => Nat.digits_lt_base (by decide) hd) (by rw [Nat.ofDigits_digits]; omega) []
  rw [Nat.ofDigits_digits, List.append_nil] at hread
  unfold natNumeral
  split_ifs with hzero
  · rw [hzero]
    rfl
  · exact hread

theorem atoi_printint_pid : ∃ out, uprintint 42 10 true = some out ∧ atoi out 0 = some 42 :=
  atoi_printint 42 true (by decide) (by decide)

end Print

end Kus.Lib
