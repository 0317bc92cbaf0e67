import KusOs.Hoare

/-!
# Two programs that run in lockstep

`Lockstep R x y` relates two programs over different states: from related states `x`
does what `y` does, with the same result or the same error, and the states stay
related.

* the rules for `pure`, `bind`, reading and changing the state, `throw`, branching and
  loops;
* `Lockstep.triple` — **what is proved about `y` holds of `x`**, through the relation.
-/

namespace Hoare

variable {σ τ ε α β : Type} {R : σ → τ → Prop}

def Lockstep (R : σ → τ → Prop) (x : StateT σ (Except ε) α) (y : StateT τ (Except ε) α) : Prop :=
  ∀ s t, R s t →
    match y t with
    | .ok (a, t') => ∃ s', x s = .ok (a, s') ∧ R s' t'
    | .error e => x s = .error e

namespace Lockstep

variable {x : StateT σ (Except ε) α} {y : StateT τ (Except ε) α}

/-- Programs that return, with states related again. -/
theorem of_runs (h : ∀ s t, R s t → ∃ a s' t', x s = .ok (a, s') ∧ y t = .ok (a, t') ∧ R s' t') :
    Lockstep R x y := by
  intro s t hst
  obtain ⟨a, s', t', hx, hy, h'⟩ := h s t hst
  rw [hy]
  exact ⟨s', hx, h'⟩

theorem pure (a : α) :
    Lockstep R (Pure.pure a : StateT σ (Except ε) α) (Pure.pure a : StateT τ (Except ε) α) :=
  fun s _ h => ⟨s, rfl, h⟩

theorem throw (e : ε) :
    Lockstep R (MonadExcept.throw e : StateT σ (Except ε) α)
      (MonadExcept.throw e : StateT τ (Except ε) α) :=
  fun _ _ _ => rfl

section

variable {f : α → StateT σ (Except ε) β} {g : α → StateT τ (Except ε) β} (hxy : Lockstep R x y)
include hxy

/-- The second parts are compared for the results that `y` can have. -/
theorem bind_of {P : α → Prop} (hy : ∀ t a t', y t = .ok (a, t') → P a)
    (hfg : ∀ a, P a → Lockstep R (f a) (g a)) : Lockstep R (x >>= f) (y >>= g) := by
  intro s t h
  have hrun := hxy s t h
  cases hyt : y t with
  | error e =>
    rw [hyt] at hrun
    rw [run_bind_error hyt]
    exact run_bind_error hrun
  | ok r =>
    obtain ⟨a, t'⟩ := r
    rw [hyt] at hrun
    obtain ⟨s', hx, h'⟩ := hrun
    rw [run_bind_ok hyt, run_bind_ok hx]
    exact hfg a (hy t a t' hyt) s' t' h'

theorem bind (hfg : ∀ a, Lockstep R (f a) (g a)) : Lockstep R (x >>= f) (y >>= g) :=
  bind_of (P := fun _ => True) hxy (fun _ _ _ _ => trivial) fun a _ => hfg a

end

/-- Both programs read their state; the rest is compared for states so related. -/
theorem get_bind {f : σ → StateT σ (Except ε) β} {g : τ → StateT τ (Except ε) β}
    (hfg : ∀ s t, R s t → Lockstep R (f s) (g t)) : Lockstep R (get >>= f) (get >>= g) :=
  fun s t h => hfg s t h s t h

theorem modify {f : σ → σ} {g : τ → τ} (hfg : ∀ s t, R s t → R (f s) (g t)) :
    Lockstep R (modify f : StateT σ (Except ε) PUnit)
      (modify g : StateT τ (Except ε) PUnit) :=
  fun s t h => ⟨f s, rfl, hfg s t h⟩

theorem ite {c d : Prop} [Decidable c] [Decidable d] {x' : StateT σ (Except ε) α}
    {y' : StateT τ (Except ε) α} (hcd : c ↔ d) (hxy : Lockstep R x y)
    (hxy' : Lockstep R x' y') : Lockstep R (if c then x else x') (if d then y else y') := by
  by_cases hc : c
  · rw [if_pos hc, if_pos (hcd.1 hc)]
    exact hxy
  · rw [if_neg hc, if_neg fun hd => hc (hcd.2 hd)]
    exact hxy'

/-- Loops over one list whose rounds run in lockstep. -/
theorem forM {f : β → StateT σ (Except ε) PUnit} {g : β → StateT τ (Except ε) PUnit}
    (hfg : ∀ b, Lockstep R (f b) (g b)) (l : List β) : Lockstep R (l.forM f) (l.forM g) := by
  induction l with
  | nil => exact pure _
  | cons b l ih => exact bind (hfg b) fun _ => ih

/-- **Transfer.**  A triple of `y` is one of `x`, about the states related to its own. -/
theorem triple {P : τ → Prop} {Q : α → τ → Prop} {E : ε → Prop} (hxy : Lockstep R x y)
    (hy : Triple P y Q E) :
    Triple (fun s => ∃ t, R s t ∧ P t) x (fun a s => ∃ t, R s t ∧ Q a t) E := by
  intro s hs
  obtain ⟨t, h, hp⟩ := hs
  have hrun := hxy s t h
  cases hyt : y t with
  | error e =>
    rw [hyt] at hrun
    rw [hrun]
    exact hy.of_error hp hyt
  | ok r =>
    obtain ⟨a, t'⟩ := r
    rw [hyt] at hrun
    obtain ⟨s', hx, h'⟩ := hrun
    rw [hx]
    exact ⟨t', h', hy.of_ok hp hyt⟩

end Lockstep

end Hoare
