import Mathlib

/-!
# Singly linked rings

`Path next a xs b` says that from `a` the pointers lead through exactly `xs` to `b`; a
ring is a path from a node to itself.

* `Path.append_iff` — paths concatenate and split at any node;
* `Path.frame` — stores outside a path are invisible to it;
* `Path.reroute` — the nodes behind one of a path's nodes exchanged for others;
* `Path.rotate` — a ring can be read from any of its nodes;
* `search` — following the pointers until a node satisfies a test; `search_path` says
  that on a path with such a node it ends at the first one.
-/

namespace PointerRing

variable {ν : Type} {next next' : ν → ν} {a b x y : ν} {xs ys : List ν}

/-- From `a` through `xs` to `b`. -/
def Path (next : ν → ν) : ν → List ν → ν → Prop
  | a, [], b => next a = b
  | a, x :: xs, b => next a = x ∧ Path next x xs b

theorem Path.append_iff : Path next a (xs ++ x :: ys) b ↔ Path next a xs x ∧ Path next x ys b := by
  induction xs generalizing a with
  | nil => exact Iff.rfl
  | cons y xs ih =>
    change next a = y ∧ Path next y (xs ++ x :: ys) b ↔ (next a = y ∧ Path next y xs x) ∧ _
    rw [ih, and_assoc]

/-- A path reads the pointers of its start and its nodes. -/
theorem Path.frame (h : Path next a xs b)
    (hsame : ∀ y ∈ a :: xs, next' y = next y) : Path next' a xs b := by
  induction xs generalizing a with
  | nil => exact (hsame a List.mem_cons_self).trans h
  | cons x xs ih =>
    refine ⟨(hsame a List.mem_cons_self).trans h.1, ih h.2 ?_⟩
    intro y hy
    exact hsame y (List.mem_cons_of_mem a hy)

/-- The rest of a path, from one of its nodes. -/
theorem Path.rest {before : List ν} (h : Path next a xs b)
    (hsplit : a :: xs = before ++ y :: ys) : Path next y ys b := by
  cases before with
  | nil =>
    rw [List.nil_append, List.cons.injEq] at hsplit
    rw [← hsplit.1, ← hsplit.2]
    exact h
  | cons z before =>
    rw [List.cons_append, List.cons.injEq] at hsplit
    rw [hsplit.2] at h
    exact (Path.append_iff.1 h).2

/-- The same rest behind another pointer to it. -/
theorem Path.restart (h : Path next a xs b) (hfirst : next' y = next a)
    (hsame : ∀ z ∈ xs, next' z = next z) : Path next' y xs b := by
  cases xs with
  | nil => exact hfirst.trans h
  | cons x xs => exact ⟨hfirst.trans h.1, Path.frame h.2 hsame⟩

/-- **New rest.**  A path whose nodes from `y` on are replaced by another rest. -/
theorem Path.reroute {before zs : List ν} (h : Path next a xs b)
    (hsplit : a :: xs = before ++ y :: ys) (hsame : ∀ z ∈ before, next' z = next z)
    (hrest : Path next' y zs b) : ∃ xs', a :: xs' = before ++ y :: zs ∧ Path next' a xs' b := by
  cases before with
  | nil =>
    rw [List.nil_append, List.cons.injEq] at hsplit
    refine ⟨zs, by rw [hsplit.1]; rfl, ?_⟩
    rw [hsplit.1]
    exact hrest
  | cons z before =>
    rw [List.cons_append, List.cons.injEq] at hsplit
    rw [hsplit.2] at h
    refine ⟨before ++ y :: zs, by rw [hsplit.1]; rfl, ?_⟩
    refine Path.append_iff.2 ⟨Path.frame (Path.append_iff.1 h).1 ?_, hrest⟩
    intro w hw
    rw [hsplit.1] at hw
    exact hsame w hw

/-- A ring read from another of its nodes. -/
theorem Path.rotate (h : Path next a xs a) (hy : y ∈ a :: xs) :
    ∃ ys, Path next y ys y ∧ (y :: ys).Perm (a :: xs) := by
  rcases List.mem_cons.1 hy with hy | hy
  · rw [hy]
    exact ⟨xs, h, List.Perm.refl _⟩
  obtain ⟨before, after, hsplit⟩ := List.append_of_mem hy
  rw [hsplit] at h ⊢
  obtain ⟨hbefore, hafter⟩ := Path.append_iff.1 h
  refine ⟨after ++ a :: before, Path.append_iff.2 ⟨hafter, hbefore⟩, ?_⟩
  have hswap : (y :: after ++ (a :: before)).Perm (a :: before ++ (y :: after)) :=
    List.perm_append_comm
  exact hswap

/-- Follow the pointers from `p` to a node with the test `stop`. -/
def search (next : ν → ν) (stop : ν → Bool) : Nat → ν → Option ν
  | 0, _ => none
  | fuel + 1, p => if stop p then some p else search next stop fuel (next p)

theorem search_here {stop : ν → Bool} (h : stop a = true) {fuel n : Nat} (hfuel : n < fuel) :
    search next stop fuel a = some a := by
  obtain ⟨k, rfl⟩ : ∃ k, fuel = k + 1 := ⟨fuel - 1, by omega⟩
  rw [search, if_pos h]

/-- **Search.**  On a path with a node that satisfies the test, the search ends, at the
same node for all fuel that covers the path. -/
theorem search_path {stop : ν → Bool} (h : Path next a xs b)
    (hstop : ∃ y ∈ a :: xs, stop y = true) :
    ∃ y ∈ a :: xs, stop y = true ∧
      ∀ fuel, xs.length < fuel → search next stop fuel a = some y := by
  induction xs generalizing a with
  | nil =>
    obtain ⟨y, hy, hyes⟩ := hstop
    rw [List.mem_singleton.1 hy] at hyes
    exact ⟨a, List.mem_cons_self, hyes, fun fuel hfuel => search_here hyes hfuel⟩
  | cons x xs ih =>
    by_cases ha : stop a = true
    · exact ⟨a, List.mem_cons_self, ha, fun fuel hfuel => search_here ha hfuel⟩
    obtain ⟨hx, hrest⟩ := h
    have hlater : ∃ y ∈ x :: xs, stop y = true := by
      obtain ⟨y, hy, hyes⟩ := hstop
      rcases List.mem_cons.1 hy with hy | hy
      · rw [hy] at hyes
        exact absurd hyes ha
      · exact ⟨y, hy, hyes⟩
    obtain ⟨y, hy, hyes, hfound⟩ := ih hrest hlater
    refine ⟨y, List.mem_cons_of_mem a hy, hyes, ?_⟩
    intro fuel hfuel
    obtain ⟨k, rfl⟩ : ∃ k, fuel = k + 1 := ⟨fuel - 1, by omega⟩
    rw [search, if_neg ha, hx]
    exact hfound k (Nat.lt_of_succ_lt_succ hfuel)

end PointerRing
