import Mathlib

/-!
# Little-endian numbers in a buffer

A buffer is a function from offsets to bytes.

* `getLE` — the number in `w` bytes, least significant first; `getLE_congr` says
  that it depends on these bytes only;
* `putLE`, `putWords` — storing a number, and an array of 32-bit words, with
  `getLE_putLE`, `getLE_putWords` and the frame facts `putLE_of_lt`, ...;
* `blit` — copying a string of bytes into a buffer.
-/

namespace LittleEndian

abbrev Buffer := Nat → UInt8

/-- The number in the `w` bytes from `off`. -/
def getLE (buf : Buffer) (off : Nat) : Nat → Nat
  | 0 => 0
  | w + 1 => (buf off).toNat + 256 * getLE buf (off + 1) w

/-- The byte of `v` at place `j`. -/
def byteAt (v j : Nat) : UInt8 := UInt8.ofNat (v / 256 ^ j)

/-- Store `v` in the `w` bytes from `off`. -/
def putLE (buf : Buffer) (off w v : Nat) : Buffer := fun k =>
  if off ≤ k ∧ k < off + w then byteAt v (k - off) else buf k

/-- Store an array of `n` words of four bytes from `off`. -/
def putWords (buf : Buffer) (off n : Nat) (f : Nat → Nat) : Buffer := fun k =>
  if off ≤ k ∧ k < off + 4 * n then byteAt (f ((k - off) / 4)) ((k - off) % 4) else buf k

/-- Copy a string into the buffer at `off`. -/
def blit (buf : Buffer) (off : Nat) (p : List UInt8) : Buffer := fun k =>
  if off ≤ k ∧ k < off + p.length then p.getD (k - off) 0 else buf k

variable {buf buf' : Buffer} {off w v k n : Nat} {f : Nat → Nat} {p : List UInt8}

theorem getLE_congr (h : ∀ k, off ≤ k → k < off + w → buf' k = buf k) :
    getLE buf' off w = getLE buf off w := by
  induction w generalizing off with
  | zero => rfl
  | succ w ih =>
    simp only [getLE]
    rw [h off (by omega) (by omega), ih]
    intro k hk hk'
    exact h k (by omega) (by omega)

/-- Bytes that are those of `v` make up `v`. -/
theorem getLE_of_bytes (h : ∀ j, j < w → buf (off + j) = byteAt v j) (hv : v < 256 ^ w) :
    getLE buf off w = v := by
  induction w generalizing off v with
  | zero =>
    simp only [Nat.pow_zero] at hv
    simp only [getLE]
    omega
  | succ w ih =>
    have hhead : (buf off).toNat = v % 256 := by
      have h0 := h 0 (by omega)
      simp only [Nat.add_zero, byteAt, Nat.pow_zero, Nat.div_one] at h0
      rw [h0, UInt8.toNat_ofNat']
    have htail : getLE buf (off + 1) w = v / 256 := by
      apply ih
      · intro j hj
        have hj' := h (j + 1) (by omega)
        rw [show off + 1 + j = off + (j + 1) by omega, hj', byteAt, byteAt, Nat.pow_succ',
          ← Nat.div_div_eq_div_mul]
      · rw [Nat.pow_succ'] at hv
        exact Nat.div_lt_of_lt_mul hv
    simp only [getLE, hhead, htail]
    omega

theorem getLE_zero (h : ∀ k, off ≤ k → k < off + w → buf k = 0) : getLE buf off w = 0 := by
  apply getLE_of_bytes
  · intro j hj
    rw [h (off + j) (by omega) (by omega)]
    simp [byteAt]
  · exact Nat.pow_pos (by omega)

theorem getLE_putLE (hv : v < 256 ^ w) : getLE (putLE buf off w v) off w = v := by
  apply getLE_of_bytes _ hv
  intro j hj
  unfold putLE
  rw [if_pos (by omega), Nat.add_sub_cancel_left]

theorem putLE_of_lt (h : k < off) : putLE buf off w v k = buf k := by
  unfold putLE
  rw [if_neg (by omega)]

theorem putLE_of_le (h : off + w ≤ k) : putLE buf off w v k = buf k := by
  unfold putLE
  rw [if_neg (by omega)]

theorem getLE_putWords {i : Nat} (hi : i < n) (hv : f i < 256 ^ 4) :
    getLE (putWords buf off n f) (off + 4 * i) 4 = f i := by
  apply getLE_of_bytes _ hv
  intro j hj
  unfold putWords
  rw [if_pos (by omega)]
  have hdiv : (off + 4 * i + j - off) / 4 = i := by omega
  have hmod : (off + 4 * i + j - off) % 4 = j := by omega
  rw [hdiv, hmod]

theorem putWords_of_lt (h : k < off) : putWords buf off n f k = buf k := by
  unfold putWords
  rw [if_neg (by omega)]

theorem putWords_of_le (h : off + 4 * n ≤ k) : putWords buf off n f k = buf k := by
  unfold putWords
  rw [if_neg (by omega)]

theorem blit_of_lt (h : k < off) : blit buf off p k = buf k := by
  unfold blit
  rw [if_neg (by omega)]

theorem blit_of_le (h : off + p.length ≤ k) : blit buf off p k = buf k := by
  unfold blit
  rw [if_neg (by omega)]

theorem blit_of_mem (h : off ≤ k) (h' : k < off + p.length) :
    blit buf off p k = p.getD (k - off) 0 := by
  unfold blit
  rw [if_pos ⟨h, h'⟩]

end LittleEndian
