import Mathlib

/-!
# An allocation map and the places that own what it hands out

Cells `lo ≤ b < hi` are handed out to places; a place holds the number of its
cell, or `0` for none.  `Owned` says that the allocation map and the places agree:

* a place holds only cells of the range, no cell is held twice, and a cell of the
  range is marked exactly if some place holds it;
* `Owned.take` and `Owned.give` — handing out a cell and taking it back.
-/

namespace Ownership

open Function

variable {π : Type}

structure Owned (bit : Nat → Bool) (ptr : π → Nat) (lo hi : Nat) : Prop where
  lo_pos : 0 < lo
  low : ∀ b, b < lo → bit b = true
  range : ∀ p, ptr p ≠ 0 → lo ≤ ptr p ∧ ptr p < hi
  inj : ∀ p q, ptr p ≠ 0 → ptr p = ptr q → p = q
  marked : ∀ b, lo ≤ b → b < hi → (bit b = true ↔ ∃ p, ptr p = b)

namespace Owned

variable {bit : Nat → Bool} {ptr : π → Nat} {lo hi b : Nat} {p : π}

theorem bit_ptr (h : Owned bit ptr lo hi) (hp : ptr p ≠ 0) : bit (ptr p) = true := by
  obtain ⟨hlo, hhi⟩ := h.range p hp
  exact (h.marked _ hlo hhi).2 ⟨p, rfl⟩

/-- A cell that is not marked is in the range and nobody's. -/
theorem of_clear (h : Owned bit ptr lo hi) (hbit : bit b = false) (hb : b < hi) :
    lo ≤ b ∧ ∀ p, ptr p ≠ b := by
  have hlo : lo ≤ b := by
    by_contra hn
    have hset := h.low b (by omega)
    rw [hbit] at hset
    cases hset
  refine ⟨hlo, ?_⟩
  intro p hp
  have hset := (h.marked b hlo hb).2 ⟨p, hp⟩
  rw [hbit] at hset
  cases hset

variable [DecidableEq π]

theorem take (h : Owned bit ptr lo hi) (hbit : bit b = false) (hb : b < hi) (hp : ptr p = 0) :
    Owned (update bit b true) (update ptr p b) lo hi := by
  obtain ⟨hlo, hnone⟩ := h.of_clear hbit hb
  constructor
  · exact h.lo_pos
  · intro c hc
    have hne : c ≠ b := by omega
    rw [update_of_ne hne]
    exact h.low c hc
  · intro q hq
    by_cases e : q = p
    · subst e
      rw [update_self]
      exact ⟨hlo, hb⟩
    · rw [update_of_ne e] at hq ⊢
      exact h.range q hq
  · intro q r hq hqr
    by_cases eq : q = p
    · by_cases er : r = p
      · rw [eq, er]
      · rw [eq, update_self, update_of_ne er] at hqr
        exact absurd hqr.symm (hnone r)
    rw [update_of_ne eq] at hq hqr
    by_cases er : r = p
    · rw [er, update_self] at hqr
      exact absurd hqr (hnone q)
    · rw [update_of_ne er] at hqr
      exact h.inj q r hq hqr
  · intro c hclo hchi
    by_cases e : c = b
    · subst e
      rw [update_self]
      exact ⟨fun _ => ⟨p, update_self p c ptr⟩, fun _ => rfl⟩
    rw [update_of_ne e, h.marked c hclo hchi]
    constructor
    · rintro ⟨q, hq⟩
      have hqp : q ≠ p := by
        rintro rfl
        have hpos := h.lo_pos
        omega
      exact ⟨q, by rw [update_of_ne hqp]; exact hq⟩
    · rintro ⟨q, hq⟩
      by_cases eq : q = p
      · rw [eq, update_self] at hq
        exact absurd hq.symm e
      · rw [update_of_ne eq] at hq
        exact ⟨q, hq⟩

theorem give (h : Owned bit ptr lo hi) (hp : ptr p ≠ 0) :
    Owned (update bit (ptr p) false) (update ptr p 0) lo hi := by
  obtain ⟨hlo, hhi⟩ := h.range p hp
  constructor
  · exact h.lo_pos
  · intro c hc
    have hne : c ≠ ptr p := by omega
    rw [update_of_ne hne]
    exact h.low c hc
  · intro q hq
    by_cases e : q = p
    · rw [e, update_self] at hq
      exact absurd rfl hq
    · rw [update_of_ne e] at hq ⊢
      exact h.range q hq
  · intro q r hq hqr
    by_cases eq : q = p
    · rw [eq, update_self] at hq
      exact absurd rfl hq
    rw [update_of_ne eq] at hq hqr
    by_cases er : r = p
    · rw [er, update_self] at hqr
      exact absurd hqr hq
    · rw [update_of_ne er] at hqr
      exact h.inj q r hq hqr
  · intro c hclo hchi
    have hpos := h.lo_pos
    by_cases e : c = ptr p
    · subst e
      rw [update_self]
      constructor
      · intro hno
        cases hno
      rintro ⟨q, hq⟩
      by_cases eq : q = p
      · rw [eq, update_self] at hq
        omega
      · rw [update_of_ne eq] at hq
        exact absurd (h.inj p q hp hq.symm).symm eq
    · rw [update_of_ne e, h.marked c hclo hchi]
      constructor
      · rintro ⟨q, hq⟩
        have hqp : q ≠ p := by
          rintro rfl
          exact e hq.symm
        exact ⟨q, by rw [update_of_ne hqp]; exact hq⟩
      · rintro ⟨q, hq⟩
        by_cases eq : q = p
        · rw [eq, update_self] at hq
          omega
        · rw [update_of_ne eq] at hq
          exact ⟨q, hq⟩

end Owned

end Ownership
