import Mathlib

/-!
# Forests with one root

`up a b` says that `b` is a parent of `a`.

* `Rooted.change` — taking elements away, adding new ones below live ones and moving
  some below the root keeps the way to the root;
* `Rooted.irrefl` — if parents are unique, no live element is above itself.
-/

namespace Forest

open Relation

variable {α : Type*} {live live' : α → Prop} {up up' : α → α → Prop} {root : α}

/-- A chain of parents leads from every live element to the root. -/
def Rooted (live : α → Prop) (up : α → α → Prop) (root : α) : Prop :=
  ∀ c, live c → ReflTransGen up c root

/-- The elements that stay are in `K`; a new one is below one of them. -/
theorem Rooted.change {K : α → Prop} (h : Rooted live up root)
    (hkept : ∀ a b, K a → up a b → up' a b ∧ K b ∨ up' a root)
    (hlive : ∀ c, live' c → live c ∧ K c ∨ ∃ d, up' c d ∧ live d ∧ K d) :
    Rooted live' up' root := by
  have hchain : ∀ c, ReflTransGen up c root → K c → ReflTransGen up' c root := by
    intro c hup
    induction hup using ReflTransGen.head_induction_on with
    | refl => exact fun _ => .refl
    | @head a b hab _ ih =>
      intro hk
      rcases hkept a b hk hab with ⟨hab', hb⟩ | hroot
      · exact .head hab' (ih hb)
      · exact .single hroot
  intro c hc
  rcases hlive c hc with ⟨hold, hk⟩ | ⟨d, hcd, hd, hk⟩
  · exact hchain c (h c hold) hk
  · exact .head hcd (hchain d (h d hd) hk)

theorem Rooted.irrefl (h : Rooted live up root) (hlive : ∀ a b, up a b → live b)
    (hroot : ∀ b, ¬ up root b) (hone : ∀ a b c, live a → up a b → up a c → b = c) {c : α}
    (hc : live c) : ¬ TransGen up c c := by
  have hup := h c hc
  induction hup using ReflTransGen.head_induction_on with
  | refl =>
    intro hloop
    obtain ⟨b, hb, _⟩ := TransGen.head'_iff.1 hloop
    exact hroot b hb
  | @head a b hab _ ih =>
    intro hloop
    obtain ⟨b', hab', hback⟩ := TransGen.head'_iff.1 hloop
    rw [← hone a b b' hc hab hab'] at hback
    exact ih (hlive a b hab) (.tail' hback hab)

end Forest
