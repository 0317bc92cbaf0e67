import Mathlib

/-!
# Things taken once and given back once

Things of a type `τ` are taken, kept at places and at last given back.
`Custody taken back hand held` says where every thing that was ever taken is:
among those given back, in the hands of whoever is at work, or at exactly one
place.

* `Custody.take`, `Custody.put`, `Custody.lift`, `Custody.giveBack` — a thing is
  taken, put at an empty place, lifted from its place, given back;
* `holders` — how many places point to a cell, and `holders_update`, its change
  when one pointer is set.
-/

namespace Ownership

open Function

section Custody

variable {τ π : Type}

structure Custody (taken : τ → Prop) (back hand : List τ) (held : π → Option τ) : Prop where
  of_held : ∀ p t, held p = some t → taken t ∧ t ∉ back ∧ t ∉ hand
  of_hand : ∀ t, t ∈ hand → taken t ∧ t ∉ back
  of_back : ∀ t, t ∈ back → taken t
  inj : ∀ p q t, held p = some t → held q = some t → p = q
  all : ∀ t, taken t → t ∈ back ∨ t ∈ hand ∨ ∃ p, held p = some t
  back_nodup : back.Nodup
  hand_nodup : hand.Nodup

namespace Custody

variable {taken taken' : τ → Prop} {back hand : List τ} {held : π → Option τ} {t : τ} {p : π}

/-- A thing that was never taken before comes to hand. -/
theorem take (h : Custody taken back hand held) (hnew : ¬ taken t)
    (hiff : ∀ u, taken' u ↔ u = t ∨ taken u) : Custody taken' back (t :: hand) held := by
  constructor
  · intro q u hq
    obtain ⟨htaken, hback, hhand⟩ := h.of_held q u hq
    have hne : u ≠ t := by
      rintro rfl
      exact hnew htaken
    exact ⟨(hiff u).2 (.inr htaken), hback, by simp [hne, hhand]⟩
  · intro u hu
    rcases List.mem_cons.1 hu with rfl | hu
    · exact ⟨(hiff u).2 (.inl rfl), fun hb => hnew (h.of_back u hb)⟩
    · obtain ⟨htaken, hback⟩ := h.of_hand u hu
      exact ⟨(hiff u).2 (.inr htaken), hback⟩
  · intro u hu
    exact (hiff u).2 (.inr (h.of_back u hu))
  · exact h.inj
  · intro u hu
    rcases (hiff u).1 hu with rfl | hu
    · exact .inr (.inl List.mem_cons_self)
    rcases h.all u hu with hb | hh | hp
    · exact .inl hb
    · exact .inr (.inl (List.mem_cons_of_mem _ hh))
    · exact .inr (.inr hp)
  · exact h.back_nodup
  · exact List.nodup_cons.2 ⟨fun hh => hnew (h.of_hand t hh).1, h.hand_nodup⟩

/-- The thing at hand is given back. -/
theorem giveBack (h : Custody taken back (t :: hand) held) :
    Custody taken (t :: back) hand held := by
  obtain ⟨ht, hnd⟩ := List.nodup_cons.1 h.hand_nodup
  obtain ⟨htaken, htback⟩ := h.of_hand t List.mem_cons_self
  constructor
  · intro q u hq
    obtain ⟨hu, hback, hhand⟩ := h.of_held q u hq
    rw [List.mem_cons, not_or] at hhand
    exact ⟨hu, by simp [hback, hhand.1], hhand.2⟩
  · intro u hu
    obtain ⟨hutaken, hback⟩ := h.of_hand u (List.mem_cons_of_mem _ hu)
    have hne : u ≠ t := by
      rintro rfl
      exact ht hu
    exact ⟨hutaken, by simp [hback, hne]⟩
  · intro u hu
    rcases List.mem_cons.1 hu with rfl | hu
    · exact htaken
    · exact h.of_back u hu
  · exact h.inj
  · intro u hu
    rcases h.all u hu with hb | hh | hp
    · exact .inl (List.mem_cons_of_mem _ hb)
    · rcases List.mem_cons.1 hh with rfl | hh
      · exact .inl List.mem_cons_self
      · exact .inr (.inl hh)
    · exact .inr (.inr hp)
  · exact List.nodup_cons.2 ⟨htback, h.back_nodup⟩
  · exact hnd

variable [DecidableEq π]

/-- The thing at hand is put at a place that has none. -/
theorem put (h : Custody taken back (t :: hand) held) (hp : held p = none) :
    Custody taken back hand (update held p (some t)) := by
  obtain ⟨ht, hnd⟩ := List.nodup_cons.1 h.hand_nodup
  obtain ⟨htaken, htback⟩ := h.of_hand t List.mem_cons_self
  -- what another place holds is not `t`, which is still at hand
  have hother : ∀ q u, held q = some u → u ≠ t := by
    rintro q u hq rfl
    exact (h.of_held q u hq).2.2 List.mem_cons_self
  constructor
  · intro q u hq
    by_cases e : q = p
    · subst e
      rw [update_self, Option.some.injEq] at hq
      subst hq
      exact ⟨htaken, htback, ht⟩
    rw [update_of_ne e] at hq
    obtain ⟨hu, hback, hhand⟩ := h.of_held q u hq
    exact ⟨hu, hback, fun hh => hhand (List.mem_cons_of_mem _ hh)⟩
  · intro u hu
    exact h.of_hand u (List.mem_cons_of_mem _ hu)
  · exact h.of_back
  · intro q r u hq hr
    by_cases eq : q = p <;> by_cases er : r = p
    · rw [eq, er]
    · subst eq
      rw [update_self, Option.some.injEq] at hq
      rw [update_of_ne er] at hr
      exact absurd hq.symm (hother r u hr)
    · subst er
      rw [update_self, Option.some.injEq] at hr
      rw [update_of_ne eq] at hq
      exact absurd hr.symm (hother q u hq)
    · rw [update_of_ne eq] at hq
      rw [update_of_ne er] at hr
      exact h.inj q r u hq hr
  · intro u hu
    rcases h.all u hu with hb | hh | ⟨q, hq⟩
    · exact .inl hb
    · rcases List.mem_cons.1 hh with rfl | hh
      · exact .inr (.inr ⟨p, update_self ..⟩)
      · exact .inr (.inl hh)
    · have hne : q ≠ p := by
        rintro rfl
        rw [hp] at hq
        cases hq
      exact .inr (.inr ⟨q, by rw [update_of_ne hne, hq]⟩)
  · exact h.back_nodup
  · exact hnd

/-- The thing at a place comes to hand. -/
theorem lift (h : Custody taken back hand held) (hp : held p = some t) :
    Custody taken back (t :: hand) (update held p none) := by
  obtain ⟨htaken, htback, hthand⟩ := h.of_held p t hp
  have hheld : ∀ q u, update held p none q = some u → q ≠ p ∧ held q = some u := by
    intro q u hq
    by_cases e : q = p
    · rw [e, update_self] at hq
      cases hq
    · rw [update_of_ne e] at hq
      exact ⟨e, hq⟩
  constructor
  · intro q u hq
    obtain ⟨hne, hq⟩ := hheld q u hq
    obtain ⟨hu, hback, hhand⟩ := h.of_held q u hq
    have hut : u ≠ t := by
      rintro rfl
      exact hne (h.inj q p u hq hp)
    exact ⟨hu, hback, by simp [hut, hhand]⟩
  · intro u hu
    rcases List.mem_cons.1 hu with rfl | hu
    · exact ⟨htaken, htback⟩
    · exact h.of_hand u hu
  · exact h.of_back
  · intro q r u hq hr
    exact h.inj q r u (hheld q u hq).2 (hheld r u hr).2
  · intro u hu
    rcases h.all u hu with hb | hh | ⟨q, hq⟩
    · exact .inl hb
    · exact .inr (.inl (List.mem_cons_of_mem _ hh))
    · by_cases e : q = p
      · rw [e, hp, Option.some.injEq] at hq
        exact .inr (.inl (by simp [hq]))
      · exact .inr (.inr ⟨q, by rw [update_of_ne e, hq]⟩)
  · exact h.back_nodup
  · exact List.nodup_cons.2 ⟨hthand, h.hand_nodup⟩

end Custody

end Custody

section Holders

variable {π β : Type} [DecidableEq β]

/-- How many places point to `b`. -/
def holders [Fintype π] (ptr : π → Option β) (b : β) : Nat :=
  (Finset.univ.filter fun p => ptr p = some b).card

/-- One if the pointer is to the cell, as a function of the cell. -/
def points (o : Option β) : β → Int := fun b => if o = some b then 1 else 0

@[simp] theorem points_none : points (none : Option β) = 0 := by
  funext b
  simp [points]

variable [Fintype π]

theorem holders_pos {ptr : π → Option β} {b : β} : 0 < holders ptr b ↔ ∃ p, ptr p = some b := by
  unfold holders
  rw [Finset.card_pos]
  constructor
  · rintro ⟨p, hp⟩
    exact ⟨p, (Finset.mem_filter.1 hp).2⟩
  · rintro ⟨p, hp⟩
    exact ⟨p, Finset.mem_filter.2 ⟨Finset.mem_univ p, hp⟩⟩

/-- Setting one pointer moves one unit from the old cell to the new one. -/
theorem holders_update [DecidableEq π] (ptr : π → Option β) (p : π) (o : Option β) (b : β) :
    (holders (update ptr p o) b : Int) + points (ptr p) b =
      holders ptr b + points o b := by
  -- the other places count alike on both sides
  have hsplit : ∀ f : π → Option β, (holders f b : Int) =
      ((Finset.univ.erase p).filter fun q => f q = some b).card + points (f p) b := by
    intro f
    have huniv : (Finset.univ : Finset π) = insert p (Finset.univ.erase p) := by simp
    unfold holders points
    rw [huniv, Finset.filter_insert]
    by_cases hp : f p = some b
    · rw [if_pos hp, if_pos hp, Finset.card_insert_of_notMem (by simp)]
      simp
    · rw [if_neg hp, if_neg hp]
      simp
  have hrest : ((Finset.univ.erase p).filter fun q => update ptr p o q = some b) =
      (Finset.univ.erase p).filter fun q => ptr q = some b := by
    apply Finset.filter_congr
    intro q hq
    rw [update_of_ne (Finset.ne_of_mem_erase hq)]
  rw [hsplit (update ptr p o), hsplit ptr, hrest, update_self]
  ring

end Holders

end Ownership
