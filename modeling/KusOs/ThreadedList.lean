import Mathlib

/-!
# Singly linked lists threaded through memory

A memory of cells is a function `next` from a cell to the cell it points at,
with one distinguished null pointer.  `Linked null next r xs` says that
following the pointers from `r` visits exactly the cells `xs`, in this order,
and then reaches null; in particular such a list has an end, so it is acyclic.

The lemmas are the ones a stack of free cells needs: a store into a cell that
is not on the list is invisible, pushing and popping act on the front, and the
contents are determined by the head pointer.
-/

namespace ThreadedList

variable {α : Type} {null r : α} {next : α → α} {xs : List α}

/-- The cells visited from `r` on the way to `null` are exactly `xs`. -/
def Linked (null : α) (next : α → α) : α → List α → Prop
  | r, [] => r = null
  | r, x :: xs => r = x ∧ x ≠ null ∧ Linked null next (next x) xs

section

variable (h : Linked null next r xs)
include h

/-- The head pointer is null exactly for the empty list. -/
theorem Linked.null_iff : r = null ↔ xs = [] := by
  cases xs with
  | nil => simpa [Linked] using h
  | cons x xs =>
    obtain ⟨rfl, hne, _⟩ := h
    simp [hne]

/-- A store into a cell off the list leaves the list as it is. -/
theorem Linked.update [DecidableEq α] {c v : α} (hc : c ∉ xs) :
    Linked null (Function.update next c v) r xs := by
  induction xs generalizing r with
  | nil => exact h
  | cons x xs ih =>
    obtain ⟨rfl, hne, htail⟩ := h
    have hx : r ≠ c := fun heq => hc (heq ▸ List.mem_cons_self)
    refine ⟨rfl, hne, ?_⟩
    rw [Function.update_of_ne hx]
    exact ih htail (fun hm => hc (List.mem_cons_of_mem _ hm))

/-- Pointing a fresh cell at the head puts it in front. -/
theorem Linked.push [DecidableEq α] {c : α} (hc : c ≠ null) (hfresh : c ∉ xs) :
    Linked null (Function.update next c r) c (c :: xs) := by
  refine ⟨rfl, hc, ?_⟩
  rw [Function.update_self]
  exact h.update hfresh

/-- A list with a non-null head is that head in front of the rest. -/
theorem Linked.pop (hr : r ≠ null) : ∃ rest, xs = r :: rest ∧ Linked null next (next r) rest := by
  cases xs with
  | nil => exact absurd h hr
  | cons x rest =>
    obtain ⟨rfl, _, htail⟩ := h
    exact ⟨rest, rfl, htail⟩

end

/-- The head pointer determines the whole list. -/
theorem Linked.unique {ys : List α} (hx : Linked null next r xs)
    (hy : Linked null next r ys) : xs = ys := by
  induction xs generalizing r ys with
  | nil => exact (hy.null_iff.mp hx).symm
  | cons x xs ih =>
    obtain ⟨rfl, hne, htail⟩ := hx
    obtain ⟨rest, rfl, hrest⟩ := hy.pop hne
    rw [ih htail hrest]

end ThreadedList
