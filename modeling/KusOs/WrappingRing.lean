import Mathlib

/-!
# Rings with free-running counters

A queue of at most `cap` elements kept in an array of `cap` cells, with two
counters that only ever count up and wrap at `M`.  A cell is found by taking a
counter modulo `cap`, which survives the wrap because `cap` divides `M`; full and
empty differ because `cap < M`.

* `Holds` — the queue `q` lies between the counters;
* `Holds.eq_nil_iff`, `Holds.full_iff`, `Holds.distance` — what comparing the
  counters tells;
* `Holds.push`, `Holds.pop` — the two operations; a push is `Holds.store` and then
  `Holds.advance`;
* `Holds.unpush` — taking the last element back;
* `Holds.front`, `Holds.back` — a third counter that cuts the queue in two.
-/

namespace Ring

open Function

variable {α : Type} {cap M : Nat} [NeZero cap]

/-- The cell a counter points to. -/
def cell (cap : Nat) [NeZero cap] (n : Nat) : Fin cap :=
  ⟨n % cap, Nat.mod_lt n (Nat.pos_of_ne_zero (NeZero.ne cap))⟩

/-- The queue `q` lies in the array from the counter `head` up to `tail`. -/
structure Holds (M : Nat) (data : Fin cap → α) (head tail : Nat) (q : List α) : Prop where
  head_lt : head < M
  length_le : q.length ≤ cap
  tail_eq : tail = (head + q.length) % M
  cells : ∀ i (h : i < q.length), data (cell cap (head + i)) = q[i]

/-- A sum of a counter and less than one lap, with the wrap written out. -/
theorem add_mod_cases {a b : Nat} (ha : a < M) (hb : b < M) :
    (a + b < M ∧ (a + b) % M = a + b) ∨ (M ≤ a + b ∧ (a + b) % M = a + b - M) := by
  by_cases h : a + b < M
  · exact .inl ⟨h, Nat.mod_eq_of_lt h⟩
  right
  have hle : M ≤ a + b := by omega
  refine ⟨hle, ?_⟩
  rw [Nat.mod_eq_sub_mod hle, Nat.mod_eq_of_lt (by omega)]

/-- Wrapping a counter does not move its cell. -/
theorem cell_mod (hdvd : cap ∣ M) (n : Nat) : cell cap (n % M) = cell cap n := by
  apply Fin.ext
  exact Nat.mod_mod_of_dvd n hdvd

/-- Two counters less than one lap of cells apart point to different cells. -/
theorem cell_ne {a i j : Nat} (hi : i < cap) (hj : j < cap) (hne : i ≠ j) :
    cell cap (a + i) ≠ cell cap (a + j) := by
  intro h
  have hmod : (a + i) ≡ (a + j) [MOD cap] := congrArg Fin.val h
  have hij : i ≡ j [MOD cap] := Nat.ModEq.add_left_cancel' a hmod
  have heq : i = j := by
    have := hij
    unfold Nat.ModEq at this
    rwa [Nat.mod_eq_of_lt hi, Nat.mod_eq_of_lt hj] at this
  exact hne heq

namespace Holds

variable {data : Fin cap → α} {head tail : Nat} {q : List α}

/-- The empty ring. -/
theorem nil (hM : 0 < M) (data : Fin cap → α) : Holds M data 0 0 [] := by
  refine ⟨hM, by simp, by simp, ?_⟩
  intro i h
  simp at h

section

variable (h : Holds M data head tail q)
include h

/-- Equal counters mean an empty queue. -/
theorem eq_nil_iff (hcap : cap < M) : head = tail ↔ q = [] := by
  have hlen := h.length_le
  have hhead := h.head_lt
  rw [h.tail_eq, ← List.length_eq_zero_iff]
  rcases add_mod_cases (b := q.length) hhead (by omega) with ⟨_, e⟩ | ⟨_, e⟩
  · rw [e]
    omega
  · rw [e]
    omega

/-- Counters one lap of cells apart mean a full queue. -/
theorem full_iff (hcap : cap < M) : tail = (head + cap) % M ↔ q.length = cap := by
  have hlen := h.length_le
  have hhead := h.head_lt
  rw [h.tail_eq]
  rcases add_mod_cases (b := q.length) hhead (by omega) with ⟨_, e⟩ | ⟨_, e⟩
  · rcases add_mod_cases (b := cap) hhead hcap with ⟨_, e'⟩ | ⟨_, e'⟩
    · rw [e, e']
      omega
    · rw [e, e']
      omega
  rcases add_mod_cases (b := cap) hhead hcap with ⟨_, e'⟩ | ⟨_, e'⟩
  · rw [e, e']
    omega
  · rw [e, e']
    omega

/-- The wrapping difference of the counters is the length of the queue. -/
theorem distance (hcap : cap < M) : (M - head + tail) % M = q.length := by
  have hlen := h.length_le
  have hhead := h.head_lt
  rw [h.tail_eq]
  rcases add_mod_cases (b := q.length) hhead (by omega) with ⟨_, e⟩ | ⟨_, e⟩
  · rw [e]
    have hsum : M - head + (head + q.length) = q.length + M := by omega
    rw [hsum, Nat.add_mod_right, Nat.mod_eq_of_lt (by omega)]
  rw [e]
  have hsum : M - head + (head + q.length - M) = q.length := by omega
  rw [hsum, Nat.mod_eq_of_lt (by omega)]

section

variable (hdvd : cap ∣ M) (hroom : q.length < cap)
include hdvd hroom

/-- Storing at the tail of a ring with room overwrites nothing. -/
theorem store (x : α) : Holds M (update data (cell cap tail) x) head tail q := by
  refine ⟨h.head_lt, h.length_le, h.tail_eq, ?_⟩
  intro i hi
  have hne : cell cap (head + i) ≠ cell cap tail := by
    rw [h.tail_eq, cell_mod hdvd]
    exact cell_ne (by omega) hroom (by omega)
  rw [update_of_ne hne, h.cells i hi]

/-- Counting the tail up takes in the cell it pointed to. -/
theorem advance : Holds M data head ((tail + 1) % M) (q ++ [data (cell cap tail)]) := by
  have htail : cell cap tail = cell cap (head + q.length) := by
    rw [h.tail_eq, cell_mod hdvd]
  refine ⟨h.head_lt, by simp; omega, ?_, ?_⟩
  · rw [h.tail_eq, Nat.mod_add_mod, List.length_append]
    rfl
  · intro i hi
    have hi' : i < q.length + 1 := by simpa using hi
    by_cases e : i = q.length
    · subst e
      rw [← htail]
      simp
    · rw [h.cells i (by omega), List.getElem_append_left]

/-- **Push.**  Store at the tail, then count it up. -/
theorem push (x : α) :
    Holds M (update data (cell cap tail) x) head ((tail + 1) % M) (q ++ [x]) := by
  have hnext := (h.store hdvd hroom x).advance hdvd hroom
  rwa [update_self] at hnext

end

end

/-- **Pop.**  The cell at the head is the first element, and counting it off
leaves the rest. -/
theorem pop {x : α} (h : Holds M data head tail (x :: q)) (hdvd : cap ∣ M) :
    data (cell cap head) = x ∧ Holds M data ((head + 1) % M) tail q := by
  have hlen := h.length_le
  rw [List.length_cons] at hlen
  constructor
  · have hfirst := h.cells 0 (by simp)
    simpa using hfirst
  · refine ⟨Nat.mod_lt _ (by have := h.head_lt; omega), by omega, ?_, ?_⟩
    · rw [h.tail_eq, Nat.mod_add_mod, List.length_cons]
      congr 1
      omega
    · intro i hi
      have hnext := h.cells (i + 1) (by simpa using hi)
      have hcell : cell cap ((head + 1) % M + i) = cell cap (head + (i + 1)) := by
        apply Fin.ext
        show ((head + 1) % M + i) % cap = (head + (i + 1)) % cap
        rw [Nat.add_mod, Nat.mod_mod_of_dvd _ hdvd, ← Nat.add_mod]
        congr 1
        omega
      rw [hcell, hnext]
      rfl

/-- **Taking back.**  Counting the tail down drops the last element. -/
theorem unpush {x : α} (h : Holds M data head tail (q ++ [x])) (hdvd : cap ∣ M) :
    data (cell cap ((tail + (M - 1)) % M)) = x ∧
      Holds M data head ((tail + (M - 1)) % M) q := by
  have hlen := h.length_le
  rw [List.length_append, List.length_singleton] at hlen
  have htail : (tail + (M - 1)) % M = (head + q.length) % M := by
    have hhead := h.head_lt
    have hsum : head + (q.length + 1) + (M - 1) = head + q.length + M := by omega
    rw [h.tail_eq, List.length_append, List.length_singleton, Nat.mod_add_mod, hsum,
      Nat.add_mod_right]
  rw [htail]
  constructor
  · have hlast := h.cells q.length (by simp)
    rw [cell_mod hdvd, hlast]
    simp
  · refine ⟨h.head_lt, by omega, rfl, ?_⟩
    intro i hi
    rw [h.cells i (by simp; omega), List.getElem_append_left hi]

/-- The part of the queue before a counter. -/
theorem front {p : List α} (h : Holds M data head tail (p ++ q)) :
    Holds M data head ((head + p.length) % M) p := by
  have hlen := h.length_le
  rw [List.length_append] at hlen
  refine ⟨h.head_lt, by omega, rfl, ?_⟩
  intro i hi
  rw [h.cells i (by simp; omega), List.getElem_append_left hi]

/-- The part of the queue behind a counter. -/
theorem back {p : List α} (h : Holds M data head tail (p ++ q)) (hdvd : cap ∣ M) :
    Holds M data ((head + p.length) % M) tail q := by
  have hlen := h.length_le
  rw [List.length_append] at hlen
  refine ⟨Nat.mod_lt _ (by have := h.head_lt; omega), by omega, ?_, ?_⟩
  · rw [h.tail_eq, List.length_append, Nat.mod_add_mod, Nat.add_assoc]
  · intro i hi
    have hcell : cell cap ((head + p.length) % M + i) = cell cap (head + (p.length + i)) := by
      apply Fin.ext
      show ((head + p.length) % M + i) % cap = (head + (p.length + i)) % cap
      rw [Nat.add_mod, Nat.mod_mod_of_dvd _ hdvd, ← Nat.add_mod, Nat.add_assoc]
    have hget := h.cells (p.length + i) (by simp; omega)
    rw [hcell, hget, List.getElem_append_right (Nat.le_add_right _ _)]
    simp

end Holds

end Ring
