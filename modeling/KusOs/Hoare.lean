import Mathlib

/-!
# Pre- and postconditions for programs that can stop with an error

Programs are functions in `StateT σ (Except ε)`: they read and change a state
and may stop with an error.  `Triple P x Q E` says what a run of `x` from a
state with `P` can do: return with `Q`, or stop with an error in `E`.

* the rules for `pure`, `bind`, `get`, `modify`, `throw` and branching;
* `Triple.returns` — a program without admitted errors returns;
* `Triple.forM` and `Triple.forM_done` — a loop over a list keeps an invariant;
* `rounds` and `Triple.rounds` — an unbounded loop followed for a number of
  rounds, and its invariant rule;
* `Stops` — every run stops with a given error, with its two rules for `bind`.
-/

namespace Hoare

variable {σ ε α β : Type}

/-- Every run of `x` from a state with `P` returns with `Q` or stops with an
error in `E`. -/
def Triple (P : σ → Prop) (x : StateT σ (Except ε) α) (Q : α → σ → Prop) (E : ε → Prop) :
    Prop :=
  ∀ s, P s →
    match x s with
    | .ok (a, s') => Q a s'
    | .error e => E e

/-- Every run of `x` from a state with `P` stops with `e`. -/
def Stops (P : σ → Prop) (x : StateT σ (Except ε) α) (e : ε) : Prop :=
  ∀ s, P s → x s = .error e

section Rules

variable {P P' : σ → Prop} {x : StateT σ (Except ε) α} {Q : α → σ → Prop} {E E' : ε → Prop}
  {f : α → StateT σ (Except ε) β} {R : β → σ → Prop} {s : σ} {e : ε}

theorem run_bind_error (h : x s = .error e) : (x >>= f) s = .error e := by
  simp only [bind, StateT.bind, h, Except.bind]

theorem run_bind_ok {a : α} {t : σ} (h : x s = .ok (a, t)) : (x >>= f) s = f a t := by
  simp only [bind, StateT.bind, h, Except.bind]

theorem run_get {f : σ → StateT σ (Except ε) β} : (get >>= f) s = f s s := rfl

theorem run_modify {g : σ → σ} {f : PUnit → StateT σ (Except ε) β} :
    (modify g >>= f) s = f () (g s) := rfl

theorem Triple.pure (a : α) (h : ∀ s, P s → Q a s) :
    Triple P (Pure.pure a : StateT σ (Except ε) α) Q E := h

theorem Triple.bind (hx : Triple P x Q E) (hf : ∀ a, Triple (Q a) (f a) R E) :
    Triple P (x >>= f) R E := by
  intro s hs
  have hrun := hx s hs
  cases hxs : x s with
  | error e =>
    rw [run_bind_error hxs]
    rw [hxs] at hrun
    exact hrun
  | ok r =>
    obtain ⟨a, s'⟩ := r
    rw [run_bind_ok hxs]
    rw [hxs] at hrun
    exact hf a s' hrun

/-- A part whose outcome from the state is known. -/
theorem Triple.bind_ok {a : α} {t : σ} (h : x s = .ok (a, t))
    (hf : Triple (fun u => u = t) (f a) R E) : Triple (fun u => u = s) (x >>= f) R E := by
  rintro u rfl
  rw [run_bind_ok h]
  exact hf t rfl

theorem Triple.bind_error (h : x s = .error e) (he : E e) :
    Triple (fun u => u = s) (x >>= f) R E := by
  rintro u rfl
  rw [run_bind_error h]
  exact he

theorem Triple.run_ok {a : α} {t : σ} (h : x s = .ok (a, t)) (hq : Q a t) :
    Triple (fun u => u = s) x Q E := by
  rintro u rfl
  rw [h]
  exact hq

theorem Triple.conseq {Q' : α → σ → Prop} (hx : Triple P' x Q' E') (hpre : ∀ s, P s → P' s)
    (hpost : ∀ a s, Q' a s → Q a s) (herr : ∀ e, E' e → E e) : Triple P x Q E := by
  intro s hs
  have hrun := hx s (hpre s hs)
  cases hxs : x s with
  | error e =>
    rw [hxs] at hrun
    exact herr e hrun
  | ok r =>
    rw [hxs] at hrun
    exact hpost r.1 r.2 hrun

/-- Only the precondition changes. -/
theorem Triple.pre (hx : Triple P' x Q E) (hpre : ∀ s, P s → P' s) : Triple P x Q E :=
  fun s hs => hx s (hpre s hs)

theorem Triple.of_ok {a : α} {t : σ} (hx : Triple P x Q E) (hs : P s) (h : x s = .ok (a, t)) :
    Q a t := by
  have hrun := hx s hs
  rw [h] at hrun
  exact hrun

theorem Triple.of_error (hx : Triple P x Q E) (hs : P s) (h : x s = .error e) : E e := by
  have hrun := hx s hs
  rw [h] at hrun
  exact hrun

/-- Two triples of one program; the errors are those of the first. -/
theorem Triple.and {Q' : α → σ → Prop} (hx : Triple P x Q E) (hx' : Triple P' x Q' E') :
    Triple (fun s => P s ∧ P' s) x (fun a s => Q a s ∧ Q' a s) E := by
  intro s hs
  have hrun := hx s hs.1
  have hrun' := hx' s hs.2
  cases hxs : x s with
  | error e =>
    rw [hxs] at hrun
    exact hrun
  | ok r =>
    rw [hxs] at hrun hrun'
    exact ⟨hrun, hrun'⟩

/-- A program that cannot stop with an error returns. -/
theorem Triple.returns (hx : Triple P x Q fun _ => False) (hs : P s) :
    ∃ a t, x s = .ok (a, t) ∧ Q a t := by
  have hrun := hx s hs
  cases hxs : x s with
  | error e =>
    rw [hxs] at hrun
    exact hrun.elim
  | ok r =>
    rw [hxs] at hrun
    exact ⟨r.1, r.2, rfl, hrun⟩

/-- A run of which nothing is said. -/
theorem Triple.any (x : StateT σ (Except ε) α) : Triple P x (fun _ _ => True) fun _ => True := by
  intro s _
  cases x s with
  | error e => trivial
  | ok r => trivial

/-- Only the admitted errors change. -/
theorem Triple.weaken (hx : Triple P x Q E') (herr : ∀ e, E' e → E e) : Triple P x Q E :=
  hx.conseq (fun _ h => h) (fun _ _ h => h) herr

/-- The state before the program, named. -/
theorem Triple.fix (h : ∀ m, P m → Triple (fun s => s = m) x Q E) : Triple P x Q E :=
  fun s hs => h s hs s rfl

/-- A run from one state. -/
theorem Triple.here (hx : Triple P x Q E) (hs : P s) : Triple (fun u => u = s) x Q E := by
  intro u hu
  rw [hu]
  exact hx s hs

/-- Reading the state names it. -/
theorem Triple.get_bind {f : σ → StateT σ (Except ε) β}
    (hf : ∀ m, P m → Triple (fun s => s = m) (f m) R E) : Triple P (get >>= f) R E :=
  fun s hs => hf s hs s rfl

theorem Triple.modify {Q : PUnit → σ → Prop} {g : σ → σ} (h : ∀ s, P s → Q ⟨⟩ (g s)) :
    Triple P (modify g : StateT σ (Except ε) PUnit) Q E := h

theorem Triple.throw (h : ∀ s, P s → E e) :
    Triple P (throw e : StateT σ (Except ε) α) Q E := h

theorem Triple.ite {c : Prop} [Decidable c] {y : StateT σ (Except ε) α} (hx : c → Triple P x Q E)
    (hy : ¬ c → Triple P y Q E) : Triple P (if c then x else y) Q E := by
  by_cases hc : c
  · rw [if_pos hc]
    exact hx hc
  · rw [if_neg hc]
    exact hy hc

theorem Stops.left (hx : Stops P x e) : Stops P (x >>= f) e :=
  fun s hs => run_bind_error (hx s hs)

theorem Stops.right (hx : Triple P x Q fun _ => False)
    (hf : ∀ a, Stops (Q a) (f a) e) : Stops P (x >>= f) e := by
  intro s hs
  have hrun := hx s hs
  cases hxs : x s with
  | error e' =>
    rw [hxs] at hrun
    exact hrun.elim
  | ok r =>
    rw [run_bind_ok hxs]
    rw [hxs] at hrun
    exact hf r.1 r.2 hrun

end Rules

section Loops

variable {P : σ → Prop} {E : ε → Prop} {f : α → StateT σ (Except ε) PUnit} {l : List α}

/-- A loop over a list keeps an invariant that each round keeps. -/
theorem Triple.forM
    (hf : ∀ a ∈ l, Triple P (f a) (fun _ => P) E) : Triple P (l.forM f) (fun _ => P) E := by
  induction l with
  | nil => exact fun s hs => hs
  | cons a l ih =>
    have hrest := ih fun b hb => hf b (List.mem_cons_of_mem _ hb)
    exact .bind (hf a List.mem_cons_self) fun _ => hrest

/-- A loop over a list with an invariant that speaks of the part done. -/
theorem Triple.forM_done {I : List α → σ → Prop} (hf : ∀ done a rest, l = done ++ a :: rest →
      Triple (I done) (f a) (fun _ => I (done ++ [a])) E) :
    Triple (I []) (l.forM f) (fun _ => I l) E := by
  suffices h : ∀ rest done, l = done ++ rest → Triple (I done) (rest.forM f) (fun _ => I l) E from
    h l [] rfl
  intro rest
  induction rest with
  | nil =>
    intro done hl
    rw [hl, List.append_nil]
    exact fun s hs => hs
  | cons a rest ih =>
    intro done hl
    have hnext := ih (done ++ [a]) (by rw [hl, List.append_assoc]; rfl)
    exact .bind (hf done a rest hl) fun _ => hnext

/-- If the rounds before it keep the precondition, a round that stops with an
error stops the loop. -/
theorem Stops.forM {e : ε}
    (hf : ∀ a ∈ l, Stops P (f a) e ∨ Triple P (f a) (fun _ => P) fun _ => False)
    (hstop : ∃ a ∈ l, Stops P (f a) e) : Stops P (l.forM f) e := by
  induction l with
  | nil =>
    obtain ⟨a, ha, _⟩ := hstop
    cases ha
  | cons a l ih =>
    show Stops P (f a >>= fun _ => l.forM f) e
    obtain ⟨b, hb, hbs⟩ := hstop
    rcases List.mem_cons.mp hb with rfl | hb
    · exact hbs.left
    rcases hf a List.mem_cons_self with hnow | hok
    · exact hnow.left
    · exact .right hok fun _ =>
        ih (fun c hc => hf c (List.mem_cons_of_mem _ hc)) ⟨b, hb, hbs⟩

/-- `for(;;)` with the loop variables `b`, followed for `n` rounds: a round
goes on with new values or leaves the loop with a result. -/
def rounds (e : ε) (body : β → StateT σ (Except ε) (β ⊕ α)) :
    Nat → β → StateT σ (Except ε) α
  | 0, _ => throw e
  | n + 1, b => do
      match ← body b with
      | .inl b' => rounds e body n b'
      | .inr a => pure a

/-- **Loop rule.**  What every round keeps until it leaves holds when the loop
is left. -/
theorem Triple.rounds {e : ε} {body : β → StateT σ (Except ε) (β ⊕ α)} {I : β → σ → Prop}
    {Q : α → σ → Prop}
    (hbody : ∀ b, Triple (I b) (body b) (fun r s => r.elim (fun b' => I b' s) (fun a => Q a s)) E)
    (hout : E e) (n : Nat) (b : β) : Triple (I b) (Hoare.rounds e body n b) Q E := by
  induction n generalizing b with
  | zero => exact fun _ _ => hout
  | succ n ih =>
    refine .bind (hbody b) fun r => ?_
    cases r with
    | inl b' => exact ih b'
    | inr a => exact fun _ h => h

end Loops

end Hoare
