import Mathlib

/-!
# Exponential averages with truncating division

A moving average that weighs each new sample by `1 / n` and divides in the
natural numbers, beside the same average in the rationals.  The rounding loses
less than one unit a step, and the decay takes back the `n`-th part of what was
lost before, so the loss stays below `n` however long the history is.

* `floorAvg_le`, `floorAvg_mono`: one step stays in bounds and keeps the order;
* `drift_step`: one step keeps the loss between `0` and `n`;
* `floorAverage_le`, `floorAverage_mono`, `floorAverage_drift`: whole histories;
* `eventually_plateau`: under a constant sample the average settles `n - 1` below it,
  since the division takes nothing of a smaller difference.
-/

namespace FloorAverage

/-- One step in the natural numbers. -/
def floorAvg (n v x : Nat) : Nat := (x + (n - 1) * v) / n

/-- The same step without rounding. -/
def exactAvg (n : Nat) (e : ℚ) (x : Nat) : ℚ := (x + (n - 1) * e) / n

/-- The stored average of a history, oldest sample first. -/
def floorAverage (n : Nat) (samples : List Nat) : Nat := samples.foldl (floorAvg n) 0

/-- The exact average of a history. -/
def exactAverage (n : Nat) (samples : List Nat) : ℚ := samples.foldl (exactAvg n) 0

variable {n v x : Nat}

theorem floorAvg_le {b : Nat} (hn : 0 < n) (hv : v ≤ b) (hx : x ≤ b) : floorAvg n v x ≤ b := by
  have hsum : x + (n - 1) * v ≤ b + (n - 1) * b := Nat.add_le_add hx (Nat.mul_le_mul_left _ hv)
  have hall : b + (n - 1) * b = b * n := by
    obtain ⟨k, rfl⟩ := Nat.exists_eq_add_of_lt hn
    simp only [Nat.zero_add, Nat.add_sub_cancel]
    ring
  calc (x + (n - 1) * v) / n ≤ b * n / n := Nat.div_le_div_right (hall ▸ hsum)
    _ = b := Nat.mul_div_cancel b hn

theorem floorAvg_mono {w y : Nat} (hv : v ≤ w) (hx : x ≤ y) : floorAvg n v x ≤ floorAvg n w y :=
  Nat.div_le_div_right (Nat.add_le_add hx (Nat.mul_le_mul_left _ hv))

/-- **One step keeps the loss below `n`.**  What is lost is the decayed old
loss and the remainder of this division. -/
theorem drift_step {e : ℚ} (hn : 0 < n) (hlow : 0 ≤ e - v) (hhigh : e - v < n) :
    0 ≤ exactAvg n e x - floorAvg n v x ∧ exactAvg n e x - floorAvg n v x < n := by
  have hpos : (0 : ℚ) < n := by exact_mod_cast hn
  have hone : (1 : ℚ) ≤ n := by exact_mod_cast hn
  have hsplit : ((x : ℚ) + (n - 1) * v) =
      n * floorAvg n v x + ((x + (n - 1) * v) % n : Nat) := by
    have hdiv := Nat.div_add_mod (x + (n - 1) * v) n
    have hcast := congrArg (Nat.cast (R := ℚ)) hdiv
    rw [Nat.cast_add, Nat.cast_mul, Nat.cast_add, Nat.cast_mul, Nat.cast_sub hn] at hcast
    rw [floorAvg, hcast, Nat.cast_one]
  have hloss : exactAvg n e x - floorAvg n v x =
      ((n - 1) * (e - v) + ((x + (n - 1) * v) % n : Nat)) / n := by
    rw [exactAvg, eq_div_iff hpos.ne', sub_mul, div_mul_cancel₀ _ hpos.ne']
    linear_combination hsplit
  have hrem : (((x + (n - 1) * v) % n : Nat) : ℚ) < n := by
    exact_mod_cast Nat.mod_lt _ hn
  rw [hloss]
  constructor
  · apply div_nonneg _ hpos.le
    have hdecay := mul_nonneg (sub_nonneg.2 hone) hlow
    positivity
  · rw [div_lt_iff₀ hpos]
    have hdecay : (n - 1) * (e - v) ≤ ((n : ℚ) - 1) * n :=
      mul_le_mul_of_nonneg_left hhigh.le (sub_nonneg.2 hone)
    linarith

/-- A history of samples up to `b` has an average up to `b`. -/
theorem floorAverage_le {samples : List Nat} {b : Nat} (hn : 0 < n)
    (hx : ∀ x ∈ samples, x ≤ b) : floorAverage n samples ≤ b := by
  induction samples using List.reverseRecOn with
  | nil => exact Nat.zero_le b
  | append_singleton samples x ih =>
    have hrest := ih fun y hy => hx y (List.mem_append_left _ hy)
    have hlast := hx x (List.mem_append_right _ (List.mem_singleton_self x))
    rw [floorAverage, List.foldl_append]
    exact floorAvg_le hn hrest hlast

/-- Of two histories sampled together, the one with the smaller samples has the
smaller average. -/
theorem floorAverage_mono {α : Type} {f g : α → Nat} (history : List α)
    (hle : ∀ a ∈ history, f a ≤ g a) :
    floorAverage n (history.map f) ≤ floorAverage n (history.map g) := by
  induction history using List.reverseRecOn with
  | nil => exact Nat.le_refl _
  | append_singleton history a ih =>
    have hrest := ih fun b hb => hle b (List.mem_append_left _ hb)
    have hlast := hle a (List.mem_append_right _ (List.mem_singleton_self a))
    rw [floorAverage, floorAverage, List.map_append, List.map_append, List.foldl_append,
      List.foldl_append]
    exact floorAvg_mono hrest hlast

/-- **The loss of a whole history.** -/
theorem floorAverage_drift (hn : 0 < n) (samples : List Nat) :
    0 ≤ exactAverage n samples - floorAverage n samples ∧
    exactAverage n samples - floorAverage n samples < n := by
  induction samples using List.reverseRecOn with
  | nil =>
    simp only [exactAverage, floorAverage, List.foldl_nil, Nat.cast_zero, sub_self]
    exact ⟨le_refl 0, by exact_mod_cast hn⟩
  | append_singleton samples x ih =>
    rw [exactAverage, floorAverage, List.foldl_append, List.foldl_append]
    exact drift_step hn ih.1 ih.2

/-! ### Where the average settles -/

/-- A step over the difference to the sample. -/
theorem floorAvg_add {k : Nat} (hn : 0 < n) : floorAvg n v (v + k) = v + k / n := by
  have hsum : v + k + (n - 1) * v = k + n * v := by
    obtain ⟨m, rfl⟩ := Nat.exists_eq_add_of_lt hn
    simp only [Nat.zero_add, Nat.add_sub_cancel]
    ring
  rw [floorAvg, hsum, Nat.add_mul_div_left _ _ hn, Nat.add_comm]

/-- The plateau `p`, `n - 1` below the largest sample, is not passed. -/
theorem floorAvg_le_plateau {p : Nat} (hn : 0 < n) (hv : v ≤ p) (hx : x ≤ p + (n - 1)) :
    floorAvg n v x ≤ p := by
  have hplateau : floorAvg n p (p + (n - 1)) = p := by
    rw [floorAvg_add hn, Nat.div_eq_of_lt (by omega), Nat.add_zero]
  calc floorAvg n v x ≤ floorAvg n p (p + (n - 1)) := floorAvg_mono hv hx
    _ = p := hplateau

/-- Below the plateau the average rises. -/
theorem lt_floorAvg {p : Nat} (hn : 0 < n) (hv : v < p) : v < floorAvg n v (p + (n - 1)) := by
  obtain ⟨k, rfl⟩ := Nat.exists_eq_add_of_lt hv
  have hk : v + k + 1 + (n - 1) = v + (k + n) := by omega
  have hdiv : 1 ≤ (k + n) / n := (Nat.one_le_div_iff hn).2 (by omega)
  rw [hk, floorAvg_add hn]
  omega

/-- Without samples the average falls. -/
theorem floorAvg_zero_lt (hn : 0 < n) (hv : 0 < v) : floorAvg n v 0 < v := by
  have hlt : 0 + (n - 1) * v < v * n := by
    obtain ⟨m, rfl⟩ := Nat.exists_eq_add_of_lt hn
    simp only [Nat.zero_add, Nat.add_sub_cancel]
    calc m * v < m * v + v := by omega
      _ = v * (m + 1) := by ring
  rw [floorAvg]
  exact Nat.div_lt_of_lt_mul (by rw [Nat.mul_comm n v]; exact hlt)

variable {u : Nat → Nat} {N p : Nat}

/-- A sequence that from `N` on rises as long as it is below `p` reaches `p`. -/
theorem eventually_of_rising (hrise : ∀ k, N ≤ k → u k < p → u k < u (k + 1))
    (hstay : ∀ k, N ≤ k → u k = p → u (k + 1) = p) (hle : ∀ k, N ≤ k → u k ≤ p) :
    ∃ M, ∀ k, M ≤ k → u k = p := by
  -- after j steps at least j units are gained, or the top is reached
  have hgain : ∀ j, j ≤ u (N + j) ∨ u (N + j) = p := by
    intro j
    induction j with
    | zero => exact .inl (Nat.zero_le _)
    | succ j ih =>
      have hj := hle (N + j) (by omega)
      by_cases htop : u (N + j) = p
      · exact .inr (hstay (N + j) (by omega) htop)
      have hgrow := hrise (N + j) (by omega) (by omega)
      rw [Nat.add_assoc] at hgrow
      rcases ih with hlow | heq
      · left
        omega
      · exact absurd heq htop
  refine ⟨N + p, ?_⟩
  intro k hk
  obtain ⟨j, rfl⟩ := Nat.exists_eq_add_of_le (Nat.le_trans (Nat.le_add_right N p) hk)
  have hj := hle (N + j) (by omega)
  rcases hgain j with hlow | heq
  · omega
  · exact heq

/-- **Under a constant sample the average settles on the plateau.** -/
theorem eventually_plateau (hn : 0 < n) (hstart : u N ≤ p)
    (hstep : ∀ k, N ≤ k → u (k + 1) = floorAvg n (u k) (p + (n - 1))) :
    ∃ M, ∀ k, M ≤ k → u k = p := by
  have hle : ∀ k, N ≤ k → u k ≤ p := by
    intro k hk
    induction k, hk using Nat.le_induction with
    | base => exact hstart
    | succ k hk ih =>
      rw [hstep k hk]
      exact floorAvg_le_plateau hn ih (Nat.le_refl _)
  apply eventually_of_rising _ _ hle
  · intro k hk hlt
    rw [hstep k hk]
    exact lt_floorAvg hn hlt
  · intro k hk heq
    rw [hstep k hk, heq, floorAvg_add hn, Nat.div_eq_of_lt (by omega), Nat.add_zero]

/-- **Without samples the average falls to zero.** -/
theorem eventually_zero (hn : 0 < n) (hstep : ∀ k, N ≤ k → u (k + 1) = floorAvg n (u k) 0) :
    ∃ M, ∀ k, M ≤ k → u k = 0 := by
  have hfall : ∀ j, u (N + j) = 0 ∨ u (N + j) + j ≤ u N := by
    intro j
    induction j with
    | zero => exact .inr (Nat.le_refl _)
    | succ j ih =>
      have hnext := hstep (N + j) (by omega)
      rw [Nat.add_assoc] at hnext
      rcases Nat.eq_zero_or_pos (u (N + j)) with hzero | hpos
      · left
        rw [hnext, hzero, floorAvg, Nat.mul_zero, Nat.zero_div]
      have hlt := floorAvg_zero_lt hn hpos
      rw [← hnext] at hlt
      rcases ih with hzero | hlow
      · omega
      · right
        omega
  refine ⟨N + u N + 1, ?_⟩
  intro k hk
  obtain ⟨j, rfl⟩ := Nat.exists_eq_add_of_le (show N ≤ k by omega)
  rcases hfall j with hzero | hlow
  · exact hzero
  · omega

end FloorAverage
