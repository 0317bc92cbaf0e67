import Mathlib

/-!
# Labelled transition systems and their invariants

The concurrent parts of the development are transition systems: a state, an
initial condition and a step relation labelled by what happened.  This file
holds the few general rules the later files use.

* `Reachable` — states reached by finitely many steps from an initial state;
* `Reachable.invariant` — a predicate that holds initially and survives every
  step out of a reachable state holds in every reachable state;
* `System.restrict` — the same system with a guard on every step, so that
  "every run whose steps all meet a condition" is reachability in the
  restricted system;
* `System.observe` — the same system with a record of the run beside it, which
  the steps write and never read.
-/

namespace Transition

/-- A labelled transition system over states `σ` with labels `α`. -/
structure System (σ α : Type) where
  init : σ → Prop
  step : σ → α → σ → Prop

variable {σ α : Type} {M : System σ α}

/-- The states a finite run can end in. -/
inductive Reachable (M : System σ α) : σ → Prop
  | start {s : σ} (hinit : M.init s) : Reachable M s
  | next {s s' : σ} {a : α} (hreach : Reachable M s)
      (hstep : M.step s a s') : Reachable M s'

/-- **Invariant rule.**  The step case may use that the state it leaves is
itself reachable, so invariants proved earlier are available in it. -/
theorem Reachable.invariant {P : σ → Prop} (hinit : ∀ s, M.init s → P s)
    (hstep : ∀ s a s', Reachable M s → P s → M.step s a s' → P s') {s : σ} (h : Reachable M s) :
    P s := by
  induction h with
  | start hi => exact hinit _ hi
  | next hreach hs ih => exact hstep _ _ _ hreach ih hs

/-- The system that takes only those steps of `M` that meet `C`. -/
def System.restrict (M : System σ α) (C : σ → α → Prop) : System σ α where
  init := M.init
  step s a s' := M.step s a s' ∧ C s a

/-- A run whose steps all meet a condition is in particular a run. -/
theorem Reachable.of_restrict {C : σ → α → Prop} {s : σ}
    (h : Reachable (M.restrict C) s) : Reachable M s := by
  induction h with
  | start hi => exact .start hi
  | next _ hs ih => exact .next ih hs.1

/-- Runs under a condition are runs under a weaker one. -/
theorem Reachable.restrict_mono {C D : σ → α → Prop} (hCD : ∀ s a, C s a → D s a) {s : σ}
    (h : Reachable (M.restrict C) s) : Reachable (M.restrict D) s := by
  induction h with
  | start hi => exact .start hi
  | next _ hs ih => exact .next ih ⟨hs.1, hCD _ _ hs.2⟩

section Observe

variable {γ : Type} {start : σ → γ → Prop} {note : σ → α → γ → γ}

/-- The system with an observer that keeps notes about each step. -/
def System.observe (M : System σ α) (start : σ → γ → Prop) (note : σ → α → γ → γ) :
    System (σ × γ) α where
  init x := M.init x.1 ∧ start x.1 x.2
  step x a y := M.step x.1 a y.1 ∧ y.2 = note x.1 a x.2

/-- Observing a run does not change it. -/
theorem Reachable.observed {x : σ × γ} (h : Reachable (M.observe start note) x) :
    Reachable M x.1 := by
  induction h with
  | start hi => exact .start hi.1
  | next _ hs ih => exact .next ih hs.1

/-- An observed run goes on as the run does. -/
theorem Reachable.observe_next {s s' : σ} {a : α} {g : γ}
    (h : Reachable (M.observe start note) (s, g)) (hstep : M.step s a s') :
    Reachable (M.observe start note) (s', note s a g) :=
  Reachable.next h ⟨hstep, rfl⟩

/-- The same under a condition. -/
theorem Reachable.observe_next_restrict {C : σ × γ → α → Prop} {s s' : σ} {a : α} {g : γ}
    (h : Reachable ((M.observe start note).restrict C) (s, g)) (hstep : M.step s a s')
    (hC : C (s, g) a) : Reachable ((M.observe start note).restrict C) (s', note s a g) :=
  Reachable.next h ⟨⟨hstep, rfl⟩, hC⟩

end Observe

end Transition
