import Mathlib
import KusOs.BufferCache

/-!
# The shape of the buffer cache

What holds of the LRU ring and of the blocks the buffers stand for, whoever uses
the cache and however.

* `CacheShape.forward_eq` — the two loops of `bget` meet every buffer once;
* `cached_eq_some`, `CacheShape.cached_eq_none`, `victim_eq_some`,
  `CacheShape.victim_eq_none` — what `bget` has found when a loop ends;
* `CacheShape.of_reachable` — **the ring stays a ring of all buffers, and no two
  buffers stand for the same block**.
-/

namespace Kus.Bio

open Transition LinkedRing

variable {ι : Type}

/-- The LRU list is a doubly linked ring of all the buffers, and a block of a
real device is cached at most once. -/
structure CacheShape (s : CacheState ι) : Prop where
  ring : ∃ order : List Idx,
    IsRing s.links.1 s.links.2 none (order.map some) ∧ ∀ i, i ∈ order
  unique : ∀ i j, (s.buf i).dev ≠ 0 → (s.buf i).dev = (s.buf j).dev →
    (s.buf i).blockno = (s.buf j).blockno → i = j

section

variable {links : (Option Idx → Option Idx) × (Option Idx → Option Idx)} {order : List Idx}
  (h : IsRing links.1 links.2 none (order.map some))
include h

theorem IsRing.nodup_of_map : order.Nodup :=
  List.Nodup.of_map some (List.nodup_cons.1 h.nodup).2

theorem IsRing.length_le : (order.map some).length ≤ NBUF := by
  have hcard := List.Nodup.length_le_card (IsRing.nodup_of_map h)
  simpa using hcard

end

section Scan

variable {s : CacheState ι} {order : List Idx}

theorem forward_eq (h : IsRing s.links.1 s.links.2 none (order.map some)) : s.forward = order := by
  unfold CacheState.forward
  rw [h.walkNext (IsRing.length_le h)]
  simp [List.filterMap_map]

theorem backward_eq (h : IsRing s.links.1 s.links.2 none (order.map some)) :
    s.backward = order.reverse := by
  unfold CacheState.backward
  rw [h.walkPrev (IsRing.length_le h), ← List.map_reverse]
  simp [List.filterMap_map]

theorem cached_eq_some {dev b : Nat} {i : Idx} (h : s.cached dev b = some i) :
    (s.buf i).dev = dev ∧ (s.buf i).blockno = b := by
  have hfound := List.find?_some h
  simpa using hfound

theorem victim_eq_some {i : Idx} (h : s.victim = some i) : (s.buf i).refcnt = 0 := by
  have hfound := List.find?_some h
  simpa using hfound

theorem CacheShape.cached_eq_none (hs : CacheShape s) {dev b : Nat} (h : s.cached dev b = none)
    (i : Idx) : ¬ ((s.buf i).dev = dev ∧ (s.buf i).blockno = b) := by
  obtain ⟨order, hring, hall⟩ := hs.ring
  unfold CacheState.cached at h
  rw [forward_eq hring] at h
  have hno := List.find?_eq_none.1 h i (hall i)
  simpa using hno

theorem CacheShape.victim_eq_none (hs : CacheShape s) (h : s.victim = none) (i : Idx) :
    (s.buf i).refcnt ≠ 0 := by
  obtain ⟨order, hring, hall⟩ := hs.ring
  unfold CacheState.victim at h
  rw [backward_eq hring] at h
  have hno := List.find?_eq_none.1 h i (List.mem_reverse.2 (hall i))
  simpa using hno

end Scan

variable {s' s : CacheState ι}

/-- The buffers stand for the same blocks. -/
def SameBlocks (s s' : CacheState ι) : Prop :=
  ∀ i, (s'.buf i).dev = (s.buf i).dev ∧ (s'.buf i).blockno = (s.buf i).blockno

theorem SameBlocks.of_update {i : Idx} {x : Buf} (hbuf : s'.buf = Function.update s.buf i x)
    (hdev : x.dev = (s.buf i).dev) (hblock : x.blockno = (s.buf i).blockno) : SameBlocks s s' := by
  intro j
  rw [hbuf]
  by_cases e : j = i
  · subst e
    simp [hdev, hblock]
  · simp [Function.update_of_ne e]

theorem SameBlocks.of_eq (hbuf : s'.buf = s.buf) : SameBlocks s s' := by
  intro j
  rw [hbuf]
  exact ⟨rfl, rfl⟩

/-- A step moves a buffer to the front in `brelse` only, and gives it to another
block in `bget` only. -/
theorem SameBlocks.of_step {start : Nat} {a : CacheEvent ι} (hstep : CacheStep start s a s') :
    (s'.links = s.links ∧ SameBlocks s s') ∨ (∃ (r : Ref ι) (refs : _), s' = s.drop r.buf refs) ∨
      ∃ o dev b i, s.cached dev b = none ∧ s' = s.recycle o dev b i := by
  cases hstep with
  | hit hask hcached => exact .inl ⟨rfl, .of_update rfl rfl rfl⟩
  | recycle hask hcached hvictim => exact .inr (.inr ⟨_, _, _, _, hcached, rfl⟩)
  | fill href hr hvalid => exact .inl ⟨rfl, .of_update rfl rfl rfl⟩
  | modify href hr howner hvalid => exact .inl ⟨rfl, .of_update rfl rfl rfl⟩
  | @logWrite r p d blocks refs ops href hr howner hvalid hop hroom hout =>
    refine .inl ⟨rfl, ?_⟩
    by_cases hmem : (s.buf r.buf).blockno ∈ s.lh
    · exact .of_eq (by simp [CacheState.logWrite, hmem])
    exact .of_update
      (x := { s.buf r.buf with refcnt := (s.buf r.buf).refcnt + 1 })
      (by simp [CacheState.logWrite, hmem]) rfl rfl
  | drop href hr => exact .inr (.inl ⟨_, _, rfl⟩)
  | copyToLog hpos ha hva hb hvb => exact .inl ⟨rfl, .of_update rfl rfl rfl⟩
  | copyHome hpos ha hva hb hvb => exact .inl ⟨rfl, .of_update rfl rfl rfl⟩
  | writeHead hpos ha hva => exact .inl ⟨rfl, .of_update rfl rfl rfl⟩
  | _ => exact .inl ⟨rfl, .of_eq rfl⟩

namespace CacheShape

variable {s s' : CacheState ι}

theorem of_same (h : CacheShape s) (hlinks : s'.links = s.links) (hsame : SameBlocks s s') :
    CacheShape s' := by
  constructor
  · rw [hlinks]
    exact h.ring
  · intro i j hdev hdevs hblocks
    rw [(hsame i).1] at hdev
    rw [(hsame i).1, (hsame j).1] at hdevs
    rw [(hsame i).2, (hsame j).2] at hblocks
    exact h.unique i j hdev hdevs hblocks

theorem recycle (h : CacheShape s) (o : Owner ι) {dev b : Nat} {i : Idx}
    (hcached : s.cached dev b = none) : CacheShape (s.recycle o dev b i) := by
  have hnone := h.cached_eq_none hcached
  constructor
  · exact h.ring
  · intro j k hdev hdevs hblocks
    by_cases ej : j = i
    · by_cases ek : k = i
      · rw [ej, ek]
      · -- no other buffer stands for the block asked for
        rw [ej] at hdevs hblocks
        simp [ek] at hdevs hblocks
        exact absurd ⟨hdevs.symm, hblocks.symm⟩ (hnone k)
    by_cases ek : k = i
    · rw [ek] at hdevs hblocks
      simp [ej] at hdevs hblocks
      exact absurd ⟨hdevs, hblocks⟩ (hnone j)
    simp [ej] at hdev
    simp [ej, ek] at hdevs hblocks
    exact h.unique j k hdev hdevs hblocks

theorem drop (h : CacheShape s) (i : Idx) (refs : Multiset (Ref ι)) :
    CacheShape (s.drop i refs) := by
  have hsame : SameBlocks s (s.drop i refs) := .of_update rfl rfl rfl
  obtain ⟨order, hring, hall⟩ := h.ring
  constructor
  · by_cases hlast : (s.buf i).refcnt - 1 = 0
    · obtain ⟨xs, ys, rfl⟩ := List.append_of_mem (hall i)
      rw [List.map_append, List.map_cons] at hring
      refine ⟨i :: (xs ++ ys), ?_, ?_⟩
      · have hmoved := hring.moveFront
        rw [← List.map_append, ← List.map_cons] at hmoved
        simpa [hlast] using hmoved
      · intro j
        have hj := hall j
        simp only [List.mem_append, List.mem_cons] at hj ⊢
        tauto
    · exact ⟨order, by simpa [hlast] using hring, hall⟩
  · intro j k hdev hdevs hblocks
    rw [(hsame j).1] at hdev
    rw [(hsame j).1, (hsame k).1] at hdevs
    rw [(hsame j).2, (hsame k).2] at hblocks
    exact h.unique j k hdev hdevs hblocks

/-- **Every step keeps the shape.** -/
theorem step {start : Nat} {a : CacheEvent ι} (h : CacheShape s) (hstep : CacheStep start s a s') :
    CacheShape s' := by
  rcases SameBlocks.of_step hstep with ⟨hlinks, hsame⟩ | ⟨r, refs, rfl⟩ |
    ⟨o, dev, b, i, hcached, rfl⟩
  · exact h.of_same hlinks hsame
  · exact h.drop r.buf refs
  · exact h.recycle o hcached

/-- `binit` makes a ring of the buffers it has been through. -/
theorem insert_all {links : (Option Idx → Option Idx) × (Option Idx → Option Idx)}
    {order todo : List Idx} (hring : IsRing links.1 links.2 none (order.map some))
    (hnodup : todo.Nodup) (hdisj : ∀ i ∈ todo, i ∉ order) :
    let done := todo.foldl (fun links i => LinkedRing.insert none (some i) links) links
    IsRing done.1 done.2 none ((todo.reverse ++ order).map some) := by
  induction todo generalizing links order with
  | nil => simpa using hring
  | cons i todo ih =>
    obtain ⟨hi, htodo⟩ := List.nodup_cons.1 hnodup
    have hfresh : some i ∉ none :: order.map some := by
      simpa using hdisj i List.mem_cons_self
    have hnext : IsRing (LinkedRing.insert none (some i) links).1
        (LinkedRing.insert none (some i) links).2 none ((i :: order).map some) :=
      hring.insert hfresh
    have hrest := ih hnext htodo (by
      intro j hj hm
      rcases List.mem_cons.1 hm with e | hm
      · exact hi (e ▸ hj)
      · exact hdisj j (List.mem_cons_of_mem i hj) hm)
    simpa using hrest

theorem emptyCache (base : Nat → Block) : CacheShape (emptyCache base : CacheState ι) := by
  constructor
  · have hempty : IsRing (fun _ : Option Idx => none) (fun _ => none) none
        (([] : List Idx).map some) := ⟨⟨rfl, rfl⟩, by simp⟩
    have hring := @insert_all (fun _ => none, fun _ => none) [] (List.finRange NBUF) hempty
      (List.nodup_finRange NBUF) (by simp)
    exact ⟨_, hring, by simp⟩
  · intro i j hdev
    exact absurd rfl hdev

theorem of_reachable {start : Nat} {base : Nat → Block}
    (h : Reachable (cacheSystem start base) s) : CacheShape s := by
  apply h.invariant (P := CacheShape)
  · intro s hinit
    rw [hinit]
    exact emptyCache base
  · intro s a s' _ hs hstep
    exact hs.step hstep.2

end CacheShape

end Kus.Bio
