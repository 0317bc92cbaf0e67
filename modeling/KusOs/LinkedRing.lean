import Mathlib

/-!
# Doubly linked rings

Nodes with two pointers, `next` and `prev`, closed to a ring through a sentinel
node `head`.  `Seg a xs b` says that from `a` the pointers lead through exactly
`xs` to `b`, and back; a ring is a segment from the sentinel to itself.

* `Seg.append_iff` — segments concatenate and split at any node;
* `Seg.frame` — stores outside a segment are invisible to it;
* `IsRing.unlink`, `IsRing.insert` — taking a node out and putting one in front;
* `IsRing.moveFront` — **move to front**: the two together keep a ring of the
  same nodes;
* `IsRing.walkNext`, `IsRing.walkPrev` — a walk either way visits every node once.
-/

namespace LinkedRing

open Function

variable {ν : Type}

/-- From `a` through `xs` to `b`, by `next`; and back, by `prev`. -/
def Seg (next prev : ν → ν) : ν → List ν → ν → Prop
  | a, [], b => next a = b ∧ prev b = a
  | a, x :: xs, b => next a = x ∧ prev x = a ∧ Seg next prev x xs b

/-- The nodes `xs` between the sentinel and itself, all different. -/
structure IsRing (next prev : ν → ν) (head : ν) (xs : List ν) : Prop where
  seg : Seg next prev head xs head
  nodup : (head :: xs).Nodup

variable {next prev : ν → ν} {a b head x : ν} {xs ys : List ν}

theorem Seg.append_iff :
    Seg next prev a (xs ++ x :: ys) b ↔ Seg next prev a xs x ∧ Seg next prev x ys b := by
  induction xs generalizing a with
  | nil => simp [Seg, and_assoc]
  | cons y xs ih => simp [Seg, ih, and_assoc]

/-- Pointers that agree on the segment give the same segment: `next` is read at
its start and its nodes, `prev` at its nodes and its end. -/
theorem Seg.frame {next' prev' : ν → ν} (h : Seg next prev a xs b)
    (hnext : ∀ y ∈ a :: xs, next' y = next y) (hprev : ∀ y ∈ b :: xs, prev' y = prev y) :
    Seg next' prev' a xs b := by
  induction xs generalizing a with
  | nil =>
    obtain ⟨hn, hp⟩ := h
    exact ⟨(hnext a (by simp)).trans hn, (hprev b (by simp)).trans hp⟩
  | cons y xs ih =>
    obtain ⟨hn, hp, hrest⟩ := h
    refine ⟨(hnext a (by simp)).trans hn, (hprev y (by simp)).trans hp, ?_⟩
    apply ih hrest
    · intro z hz
      exact hnext z (List.mem_cons_of_mem a hz)
    · intro z hz
      apply hprev z
      rcases List.mem_cons.1 hz with e | hz
      · rw [e]; exact List.mem_cons_self
      · exact List.mem_cons_of_mem b (List.mem_cons_of_mem y hz)

/-- The last node before the end of a segment. -/
theorem Seg.prev_end (h : Seg next prev a xs b) : prev b ∈ a :: xs := by
  induction xs generalizing a with
  | nil =>
    rw [h.2]
    exact List.mem_cons_self
  | cons y xs ih => exact List.mem_cons_of_mem a (ih h.2.2)

/-- Read backwards, a segment is one with the pointers exchanged. -/
theorem Seg.reverse (h : Seg next prev a xs b) : Seg prev next b xs.reverse a := by
  induction xs generalizing a with
  | nil => exact ⟨h.2, h.1⟩
  | cons y xs ih =>
    obtain ⟨hn, hp, hrest⟩ := h
    rw [List.reverse_cons]
    exact Seg.append_iff.2 ⟨ih hrest, hp, hn⟩

theorem IsRing.reverse (h : IsRing next prev head xs) : IsRing prev next head xs.reverse := by
  refine ⟨h.seg.reverse, ?_⟩
  have hnodup := List.nodup_cons.1 h.nodup
  apply List.nodup_cons.2
  exact ⟨fun hm => hnodup.1 (List.mem_reverse.1 hm), List.nodup_reverse.2 hnodup.2⟩

variable [DecidableEq ν]

/-- Redirect the end of a segment: its last `next`, and the `prev` of a new end. -/
theorem Seg.redirect {c : ν} (h : Seg next prev a xs b) (hnodup : (a :: xs).Nodup) (hb : b ∉ xs)
    (hc : c ∉ xs) : Seg (update next (prev b) c) (update prev c (prev b)) a xs c := by
  induction xs generalizing a with
  | nil =>
    obtain ⟨_, hp⟩ := h
    simp [Seg, hp]
  | cons y xs ih =>
    obtain ⟨hn, hp, hrest⟩ := h
    have hy : (y :: xs).Nodup := (List.nodup_cons.1 hnodup).2
    have ha : a ∉ y :: xs := (List.nodup_cons.1 hnodup).1
    -- the last node is past `a`
    have hlast : prev b ∈ y :: xs := hrest.prev_end
    have hne : a ≠ prev b := fun e => ha (e ▸ hlast)
    have hcy : y ≠ c := fun e => hc (e ▸ List.mem_cons_self)
    refine ⟨?_, ?_, ?_⟩
    · rw [update_of_ne hne]
      exact hn
    · rw [update_of_ne hcy]
      exact hp
    · apply ih hrest hy
      · exact fun hm => hb (List.mem_cons_of_mem y hm)
      · exact fun hm => hc (List.mem_cons_of_mem y hm)

/-- `x->next->prev = x->prev; x->prev->next = x->next`. -/
def unlink (x : ν) (p : (ν → ν) × (ν → ν)) : (ν → ν) × (ν → ν) :=
  let prev := update p.2 (p.1 x) (p.2 x)
  (update p.1 (prev x) (p.1 x), prev)

/-- `x->next = head->next; x->prev = head; head->next->prev = x; head->next = x`. -/
def insert (head x : ν) (p : (ν → ν) × (ν → ν)) : (ν → ν) × (ν → ν) :=
  let next := update p.1 x (p.1 head)
  let prev := update p.2 x head
  let prev := update prev (next head) x
  (update next head x, prev)

theorem IsRing.unlink (h : IsRing next prev head (xs ++ x :: ys)) :
    IsRing (LinkedRing.unlink x (next, prev)).1 (LinkedRing.unlink x (next, prev)).2 head
      (xs ++ ys) := by
  obtain ⟨hhead, hlist⟩ := List.nodup_cons.1 h.nodup
  obtain ⟨hxs, hxys, hdisj⟩ := List.nodup_append.1 hlist
  obtain ⟨hx, hys⟩ := List.nodup_cons.1 hxys
  have hheadxs : head ∉ xs := fun hm => hhead (by simp [hm])
  have hxxs : x ∉ xs := fun hm => hdisj x hm x (by simp) rfl
  have hleftNodup : (head :: xs).Nodup := List.nodup_cons.2 ⟨hheadxs, hxs⟩
  obtain ⟨hleft, hright⟩ := Seg.append_iff.1 h.seg
  have hlast : prev x ∈ head :: xs := hleft.prev_end
  have hresult : (head :: (xs ++ ys)).Nodup := by
    apply List.nodup_cons.2
    refine ⟨fun hm => hhead ?_, ?_⟩
    · rcases List.mem_append.1 hm with hm | hm
      · simp [hm]
      · simp [hm]
    · apply List.nodup_append.2
      exact ⟨hxs, hys, fun u hu v hv => hdisj u hu v (List.mem_cons_of_mem x hv)⟩
  -- the first store does not touch the `prev` of `x` that the second one reads
  have hself : next x ≠ x := by
    cases ys with
    | nil =>
      rw [hright.1]
      exact fun e => hhead (by simp [e])
    | cons y ys =>
      rw [hright.1]
      exact fun e => hx (by simp [e])
  have hstores : LinkedRing.unlink x (next, prev) =
      (update next (prev x) (next x), update prev (next x) (prev x)) := by
    simp only [LinkedRing.unlink, update_of_ne (Ne.symm hself)]
  rw [hstores]
  refine ⟨?_, hresult⟩
  cases ys with
  | nil =>
    rw [hright.1, List.append_nil]
    exact hleft.redirect hleftNodup hxxs hheadxs
  | cons y ys =>
    obtain ⟨hnext, _, htail⟩ := hright
    have hyxs : y ∉ xs := fun hm => hdisj y hm y (by simp) rfl
    rw [hnext]
    apply Seg.append_iff.2
    refine ⟨hleft.redirect hleftNodup hxxs hyxs, ?_⟩
    apply htail.frame
    · intro z hz
      have hne : z ≠ prev x := by
        intro e
        rcases List.mem_cons.1 hlast with e' | hm
        · exact hhead (by rw [← e', ← e]; simp [hz])
        · exact hdisj (prev x) hm z (List.mem_cons_of_mem x hz) e.symm
      exact update_of_ne hne _ _
    · intro z hz
      have hne : z ≠ y := by
        intro e
        rcases List.mem_cons.1 hz with e' | hm
        · exact hhead (by simp [← e', e])
        · exact (List.nodup_cons.1 hys).1 (e ▸ hm)
      exact update_of_ne hne _ _

theorem IsRing.insert (h : IsRing next prev head xs) (hx : x ∉ head :: xs) :
    IsRing (LinkedRing.insert head x (next, prev)).1 (LinkedRing.insert head x (next, prev)).2
      head (x :: xs) := by
  have hxhead : head ≠ x := fun e => hx (by simp [e])
  obtain ⟨hhead, hxs⟩ := List.nodup_cons.1 h.nodup
  have hresult : (head :: x :: xs).Nodup := by
    apply List.nodup_cons.2
    constructor
    · intro hm
      rcases List.mem_cons.1 hm with e | hm
      · exact hxhead e
      · exact hhead hm
    · exact List.nodup_cons.2 ⟨fun hm => hx (List.mem_cons_of_mem head hm), hxs⟩
  have hstores : LinkedRing.insert head x (next, prev) =
      (update (update next x (next head)) head x,
        update (update prev x head) (next head) x) := by
    simp only [LinkedRing.insert, update_of_ne hxhead]
  rw [hstores]
  refine ⟨?_, hresult⟩
  have hseg := h.seg
  cases xs with
  | nil =>
    have hne : x ≠ next head := by
      rw [hseg.1]
      exact Ne.symm hxhead
    simp [Seg, hseg.1, Ne.symm hxhead]
  | cons y ys =>
    obtain ⟨hnext, hprev, htail⟩ := hseg
    have hxy : x ≠ y := fun e => hx (by simp [e])
    have hyhead : y ≠ head := fun e => hhead (by simp [e])
    rw [hnext]
    refine ⟨by simp, by simp [hxy], by simp [Ne.symm hxhead], by simp, ?_⟩
    apply htail.frame
    · intro z hz
      have hzx : z ≠ x := fun e => hx (by rw [← e]; exact List.mem_cons_of_mem head hz)
      have hzhead : z ≠ head := fun e => hhead (e ▸ hz)
      simp [hzx, hzhead]
    · intro z hz
      have hzx : z ≠ x := by
        intro e
        rcases List.mem_cons.1 hz with e' | hm
        · exact hxhead (e'.symm.trans e)
        · exact hx (by rw [← e]; simp [hm])
      have hzy : z ≠ y := by
        intro e
        rcases List.mem_cons.1 hz with e' | hm
        · exact hyhead (e.symm.trans e')
        · exact (List.nodup_cons.1 hxs).1 (e ▸ hm)
      simp [hzx, hzy]

/-- Take `x` out and put it in front. -/
def moveFront (head x : ν) (p : (ν → ν) × (ν → ν)) : (ν → ν) × (ν → ν) :=
  insert head x (unlink x p)

/-- **Move to front.** -/
theorem IsRing.moveFront (h : IsRing next prev head (xs ++ x :: ys)) :
    IsRing (LinkedRing.moveFront head x (next, prev)).1
      (LinkedRing.moveFront head x (next, prev)).2 head (x :: (xs ++ ys)) := by
  obtain ⟨hhead, hnodup⟩ := List.nodup_cons.1 h.nodup
  obtain ⟨_, hxys, hdisj⟩ := List.nodup_append.1 hnodup
  apply h.unlink.insert
  intro hm
  rcases List.mem_cons.1 hm with e | hm
  · exact hhead (by simp [e])
  rcases List.mem_append.1 hm with hm | hm
  · exact hdisj x hm x (by simp) rfl
  · exact (List.nodup_cons.1 hxys).1 hm

/-- The nodes met by following `step` from `a` up to the sentinel, at most `n`. -/
def walk (step : ν → ν) (head : ν) : Nat → ν → List ν
  | 0, _ => []
  | n + 1, a => if a = head then [] else a :: walk step head n (step a)

theorem Seg.walk {n : Nat} (h : Seg next prev a xs head) (hhead : head ∉ xs)
    (hn : xs.length ≤ n) : walk next head n (next a) = xs := by
  induction xs generalizing a n with
  | nil =>
    rw [h.1]
    cases n with
    | zero => rfl
    | succ n => simp [LinkedRing.walk]
  | cons y xs ih =>
    obtain ⟨hnext, _, hrest⟩ := h
    have hy : y ≠ head := fun e => hhead (by simp [e])
    cases n with
    | zero => simp at hn
    | succ n =>
      have hlen : xs.length ≤ n := by simpa using hn
      have htail : head ∉ xs := fun hm => hhead (List.mem_cons_of_mem y hm)
      rw [hnext, LinkedRing.walk, if_neg hy, ih hrest htail hlen]

/-- A walk along `next` visits the ring in order. -/
theorem IsRing.walkNext {n : Nat} (h : IsRing next prev head xs) (hn : xs.length ≤ n) :
    walk next head n (next head) = xs :=
  h.seg.walk (List.nodup_cons.1 h.nodup).1 hn

/-- A walk along `prev` visits it in the opposite order. -/
theorem IsRing.walkPrev {n : Nat} (h : IsRing next prev head xs) (hn : xs.length ≤ n) :
    walk prev head n (prev head) = xs.reverse :=
  h.reverse.walkNext (by simpa using hn)

end LinkedRing
