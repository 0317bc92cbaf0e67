import Mathlib

/-!
# Intervals that cover a range

An interval is a start and a length; `cover l x` counts the intervals of `l` that
contain `x`.

* `count_split` — an interval cut in two covers what it covered;
* `disjoint_of_cover` — intervals that cover no point twice are disjoint;
* `cover_perm`, `total_perm` — the order of the intervals does not matter;
* `len_le_total` — what intervals cover is not longer than they are together.
-/

namespace IntervalCover

structure Interval where
  lo : Nat
  len : Nat

def Interval.Has (i : Interval) (x : Nat) : Prop := i.lo ≤ x ∧ x < i.lo + i.len

def Interval.count (i : Interval) (x : Nat) : Nat :=
  if i.lo ≤ x ∧ x < i.lo + i.len then 1 else 0

def cover (l : List Interval) (x : Nat) : Nat := (l.map fun i => i.count x).sum

def total (l : List Interval) : Nat := (l.map fun i => i.len).sum

/-- The intervals have no point in common. -/
def Apart (i j : Interval) : Prop := ∀ x, i.Has x → ¬ j.Has x

variable {l m : List Interval} {i j : Interval} {x : Nat}

@[simp] theorem cover_nil (x : Nat) : cover [] x = 0 := rfl

@[simp] theorem cover_cons (i : Interval) (l : List Interval) (x : Nat) :
    cover (i :: l) x = i.count x + cover l x := rfl

@[simp] theorem total_nil : total [] = 0 := rfl

@[simp] theorem total_cons (i : Interval) (l : List Interval) :
    total (i :: l) = i.len + total l := rfl

theorem cover_perm (h : l.Perm m) (x : Nat) : cover l x = cover m x := (h.map _).sum_eq

theorem total_perm (h : l.Perm m) : total l = total m := (h.map _).sum_eq

theorem count_split (a m n x : Nat) :
    (⟨a, m + n⟩ : Interval).count x =
      (⟨a, m⟩ : Interval).count x + (⟨a + m, n⟩ : Interval).count x := by
  simp only [Interval.count]
  by_cases hlo : a ≤ x ∧ x < a + m
  · rw [if_pos hlo, if_pos (by omega), if_neg (by omega)]
  by_cases hhi : a + m ≤ x ∧ x < a + m + n
  · rw [if_neg hlo, if_pos hhi, if_pos (by omega)]
  · rw [if_neg hlo, if_neg hhi, if_neg (by omega)]

theorem count_has (h : i.Has x) : i.count x = 1 := if_pos h

theorem cover_pos (hi : i ∈ l) (h : i.Has x) : 0 < cover l x := by
  induction l with
  | nil => cases hi
  | cons j l ih =>
    rw [cover_cons]
    rcases List.mem_cons.1 hi with hi | hi
    · rw [← hi, count_has h]
      omega
    · have hrest := ih hi
      omega

/-- A point that is covered is in one of the intervals. -/
theorem has_of_cover (h : 0 < cover l x) : ∃ i ∈ l, i.Has x := by
  induction l with
  | nil => cases h
  | cons j l ih =>
    by_cases hj : j.Has x
    · exact ⟨j, List.mem_cons_self, hj⟩
    have hnone : j.count x = 0 := if_neg hj
    rw [cover_cons, hnone, Nat.zero_add] at h
    obtain ⟨i, hi, hx⟩ := ih h
    exact ⟨i, List.mem_cons_of_mem j hi, hx⟩

/-- Intervals that cover no point twice are disjoint. -/
theorem disjoint_of_cover (h : ∀ x, cover l x ≤ 1) : l.Pairwise Apart := by
  induction l with
  | nil => exact List.Pairwise.nil
  | cons i l ih =>
    refine List.Pairwise.cons ?_ (ih ?_)
    · intro j hj x hi hjx
      have hone := h x
      have hpos := cover_pos hj hjx
      rw [cover_cons, count_has hi] at hone
      omega
    · intro x
      have hone := h x
      rw [cover_cons] at hone
      omega

theorem count_points (i : Interval) (a m : Nat) :
    ∑ x ∈ Finset.Ico a (a + m), i.count x ≤ i.len := by
  have hcard : ((Finset.Ico a (a + m)).filter fun x => i.lo ≤ x ∧ x < i.lo + i.len).card ≤
      i.len := by
    have hsub : ((Finset.Ico a (a + m)).filter fun x => i.lo ≤ x ∧ x < i.lo + i.len) ⊆
        Finset.Ico i.lo (i.lo + i.len) := by
      intro x hx
      rw [Finset.mem_filter] at hx
      exact Finset.mem_Ico.2 hx.2
    have hle := Finset.card_le_card hsub
    rw [Nat.card_Ico] at hle
    omega
  rw [Finset.card_filter] at hcard
  exact hcard

theorem cover_points (l : List Interval) (a m : Nat) :
    ∑ x ∈ Finset.Ico a (a + m), cover l x ≤ total l := by
  induction l with
  | nil => simp [cover]
  | cons i l ih =>
    have hi := count_points i a m
    simp only [cover, total, List.map_cons, List.sum_cons, Finset.sum_add_distrib] at ih ⊢
    exact Nat.add_le_add hi ih

/-- Intervals that cover `m` points in a row have a length of `m` or more. -/
theorem len_le_total {a m : Nat} (h : ∀ x, a ≤ x → x < a + m → 0 < cover l x) : m ≤ total l := by
  have hall : ∑ x ∈ Finset.Ico a (a + m), 1 ≤ ∑ x ∈ Finset.Ico a (a + m), cover l x := by
    apply Finset.sum_le_sum
    intro x hx
    have hx' := Finset.mem_Ico.1 hx
    exact h x hx'.1 hx'.2
  have hcount : ∑ x ∈ Finset.Ico a (a + m), 1 = m := by simp
  have hcover := cover_points l a m
  omega

end IntervalCover
