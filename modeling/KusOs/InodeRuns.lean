import KusOs.InodeCoherence

/-!
# Runs of the inode table

* `ItInv.step` — **every step keeps the invariant**, if `ireclaim` takes inodes
  nobody refers to;
* `table_coherent` — **the table is coherent in every such run**;
* `table_no_panic` — of the panics, only that of a full table remains;
* `table_incoherent` — without the two provisos: an entry that is no longer in use
  may be valid and stale, and an `ireclaim` beside other users may take an inode
  that is being freed.
-/

namespace Kus.Itable

open Function Transition

attribute [local simp] ItState.set ItState.iupdate

namespace ItInv

variable {s s' : ItState} {i : Slot} {ninodes : Nat}

theorem emptyTable {disk : Key → Dinode}
    (hdisk : ∀ k, (disk k).type = 0 → (disk k).nlink = 0) : ItInv (emptyTable disk) := by
  constructor
  · intro i
    refine ⟨rfl, rfl, ?_, ?_, ?_, ?_, ?_⟩
    · exact fun hn => absurd rfl hn
    · intro hpos
      cases hpos
    · intro u hu
      simp [Itable.emptyTable] at hu
    · intro k hk
      simp [Itable.emptyTable] at hk
    · intro hpos
      simp [Itable.emptyTable] at hpos
  · intro i j hi
    cases hi
  · exact hdisk
  · intro k hk
    simp [Itable.emptyTable] at hk
  · intro k
    simp [Itable.emptyTable]
  · intro dev type inum hm
    simp [Itable.emptyTable] at hm

section

variable (h : ItInv s)
include h

/-- The view of an entry with a user on it. -/
theorem slot_user {u : UsePos} {rest : Multiset (Slot × UsePos)}
    (huser : s.users = (i, u) ::ₘ rest) :
    SlotOk (s.inode i) (s.disk (s.key i)) (s.held.count i) (u ::ₘ atSlot rest i)
      (atSlot s.puts i) := by
  have hslot := h.slots i
  unfold ItState.SlotInv at hslot
  rwa [huser, atSlot_cons_self] at hslot

theorem slot_put {k : PutPos} {rest : Multiset (Slot × PutPos)} (hput : s.puts = (i, k) ::ₘ rest) :
    SlotOk (s.inode i) (s.disk (s.key i)) (s.held.count i) (atSlot s.users i)
      (k ::ₘ atSlot rest i) := by
  have hslot := h.slots i
  unfold ItState.SlotInv at hslot
  rwa [hput, atSlot_cons_self] at hslot

theorem slot_held {rest : Multiset Slot} (hheld : s.held = i ::ₘ rest)
    (husers : ∀ u ∈ s.users, u.1 = i → i ∈ rest) :
    SlotOk (s.inode i) (s.disk (s.key i)) (rest.count i + 1) (atSlot s.users i)
      (atSlot s.puts i) ∧ (atSlot s.users i ≠ 0 → 0 < rest.count i) := by
  have hslot := h.slots i
  unfold ItState.SlotInv at hslot
  rw [hheld, Multiset.count_cons_self] at hslot
  refine ⟨hslot, ?_⟩
  intro hn
  obtain ⟨u, hu⟩ := Multiset.exists_mem_of_ne_zero hn
  exact Multiset.count_pos.2 (husers (i, u) (mem_atSlot.1 hu) rfl)

theorem held_of_user {u : UsePos} {rest : Multiset (Slot × UsePos)}
    (huser : s.users = (i, u) ::ₘ rest) : i ∈ s.held :=
  Multiset.count_pos.1 ((h.slot_user huser).cover Multiset.cons_ne_zero)

/-- Steps that touch only the entry and what there is on it, not its dinode. -/
theorem of_entry {ip : Inode} {held : Multiset Slot} {users : Multiset (Slot × UsePos)}
    {puts : Multiset (Slot × PutPos)} (href : 0 < (s.inode i).ref)
    (hdev : (ip.dev, ip.inum) = s.key i) (hheld : ∀ j, j ≠ i → held.count j = s.held.count j)
    (husers : ∀ j, j ≠ i → atSlot users j = atSlot s.users j)
    (hputs : ∀ j, j ≠ i → atSlot puts j = atSlot s.puts j)
    (hslot : SlotOk ip (s.disk (s.key i)) (held.count i) (atSlot users i) (atSlot puts i))
    (hchosen : AllocPos.chosen (s.key i) ∈ s.allocs →
      held.count i = 0 ∧ ∀ p ∈ atSlot puts i, p.late = true) :
    ItInv { s.set i ip with held := held, users := users, puts := puts } := by
  refine h.of_local href rfl hdev (update_eq_self _ _).symm hheld husers hputs rfl hslot
    (h.typed _) fun hmem => ?_
  obtain ⟨htype, hnlink, _⟩ := h.chosen _ hmem
  exact ⟨htype, hnlink, hchosen hmem⟩

/-- A call of `ialloc` ends. -/
theorem end_alloc {a : AllocPos} {rest : Multiset AllocPos} (halloc : s.allocs = a ::ₘ rest) :
    ItInv { s with allocs := rest } := by
  refine h.of_allocs ?_ ?_
  · intro k
    rw [halloc]
    exact Multiset.count_le_count_cons _ _ _
  · intro dev type inum hm
    exact h.scans dev type inum (by rw [halloc]; exact Multiset.mem_cons_of_mem hm)

/-- **Every step keeps the invariant.** -/
theorem step {a : ItEvent} (hstep : ItStep ninodes s a s') (halone : Alone s a) : ItInv s' := by
  cases hstep with
  | iget hmay =>
    obtain ⟨htype, hnot, hlate⟩ := h.mayGet hmay
    exact h.iget htype hnot hlate
  | @idup i hheld =>
    obtain ⟨htype, hnot, hlate⟩ := h.mayGet (.inr (.inr ⟨i, hheld, rfl⟩))
    exact h.dup (h.ref_pos hheld) htype (hlate i rfl) hnot
  | @ialloc dev type htype =>
    refine h.of_allocs ?_ ?_
    · intro k
      rw [Multiset.count_cons_of_ne (by simp)]
    · intro dev' type' inum' hm
      rcases Multiset.mem_cons.1 hm with e | hm
      · cases e
        exact htype
      · exact h.scans dev' type' inum' hm
  | mark halloc hlt hfree => exact h.mark halloc hfree
  | @skip dev type inum rest halloc hlt hused =>
    refine h.of_allocs ?_ ?_
    · intro k
      rw [halloc, Multiset.count_cons_of_ne (by simp), Multiset.count_cons_of_ne (by simp)]
    · intro dev' type' inum' hm
      rcases Multiset.mem_cons.1 hm with e | hm
      · cases e
        exact h.scans dev type inum (by rw [halloc]; exact Multiset.mem_cons_self _ _)
      · exact h.scans dev' type' inum' (by rw [halloc]; exact Multiset.mem_cons_of_mem hm)
  | noInode halloc hge => exact h.end_alloc halloc
  | @allocGet k rest halloc =>
    have hmem : AllocPos.chosen k ∈ s.allocs := by
      rw [halloc]
      exact Multiset.mem_cons_self _ _
    obtain ⟨htype, _, hon⟩ := h.chosen k hmem
    refine (h.end_alloc halloc).iget htype ?_ (fun i hi => (hon i hi).2)
    intro hagain
    have hone := h.chosenOne k
    rw [halloc, Multiset.count_cons_self] at hone
    have hpos := Multiset.count_pos.2 hagain
    change 0 < rest.count (.chosen k) at hpos
    omega
  | @reclaim k hinum htype hnlink =>
    apply h.iget htype halone.2
    intro i hi p hp
    have hcount := (h.slots i).count
    have hpos : 0 < Multiset.card (atSlot s.puts i) := Multiset.card_pos_iff_exists_mem.2 ⟨p, hp⟩
    exact absurd hi (halone.1 i (by omega))
  | @ilock i hheld href =>
    have hslot : SlotOk (s.inode i) (s.disk (s.key i)) (s.held.count i)
        (atSlot ((i, .waiting) ::ₘ s.users) i) (atSlot s.puts i) := by
      rw [atSlot_cons_self]
      exact (h.slots i).ilock (Multiset.count_pos.2 hheld)
    have hnew := h.of_entry (h.ref_pos hheld) rfl (fun _ _ => rfl)
      (fun j hj => atSlot_cons_ne hj) (fun _ _ => rfl) hslot
      (fun hmem => absurd hmem (h.not_chosen_of_held hheld))
    simpa using hnew
  | ilockPanic hheld href => exact h.of_panic _
  | @acquire i rest huser hfree =>
    have hslot : SlotOk { s.inode i with lock := true } (s.disk (s.key i)) (s.held.count i)
        (atSlot ((i, .locked) ::ₘ rest) i) (atSlot s.puts i) := by
      rw [atSlot_cons_self]
      exact (h.slot_user huser).acquire hfree
    have hheld := h.held_of_user huser
    exact h.of_entry (h.ref_pos hheld) rfl (fun _ _ => rfl)
      (fun j hj => by rw [huser, atSlot_cons_ne hj, atSlot_cons_ne hj]) (fun _ _ => rfl) hslot
      (fun hmem => absurd hmem (h.not_chosen_of_held hheld))
  | @current i rest huser hvalid =>
    have hslot := h.slot_user huser
    have htype := hslot.alive (hslot.cover Multiset.cons_ne_zero)
    have hsame : (s.inode i).d = s.disk (s.key i) := hslot.use _ (Multiset.mem_cons_self _ _) hvalid
    have hnew := h.user_step (.ready false) (s.inode i) (s.disk (s.key i)) huser rfl rfl rfl rfl rfl
      ⟨hvalid, hsame ▸ htype, fun _ => hsame⟩ htype
    simpa using hnew
  | @load i rest huser hvalid htype =>
    have hnew := h.user_step (.ready false)
      { s.inode i with d := s.disk (s.key i), valid := true } (s.disk (s.key i))
      huser rfl rfl rfl rfl rfl ⟨rfl, htype, fun _ => rfl⟩ htype
    simpa using hnew
  | @loadPanic i rest huser hvalid htype =>
    have hslot := h.slot_user huser
    exact absurd htype (hslot.alive (hslot.cover Multiset.cons_ne_zero))
  | @modify i dirty rest d huser htype =>
    have hslot := h.slot_user huser
    obtain ⟨hvalid, hold, _⟩ := hslot.use _ (Multiset.mem_cons_self _ _)
    have hnew := h.user_step (.ready true) { s.inode i with d := d } (s.disk (s.key i))
      huser rfl rfl rfl rfl rfl ⟨hvalid, htype ▸ hold, fun hno => by cases hno⟩
      (hslot.alive (hslot.cover Multiset.cons_ne_zero))
    simpa using hnew
  | @iupdate i dirty rest huser =>
    obtain ⟨hvalid, htype, _⟩ := (h.slot_user huser).use _ (Multiset.mem_cons_self _ _)
    have hnew := h.user_step (.ready false) (s.inode i) (s.inode i).d
      huser rfl rfl rfl rfl rfl ⟨hvalid, htype, fun _ => rfl⟩ htype
    simpa using hnew
  | @iunlock i rest huser href =>
    have hheld := h.held_of_user huser
    exact h.of_entry (h.ref_pos hheld) rfl (fun _ _ => rfl)
      (fun j hj => by rw [huser, atSlot_cons_ne hj]) (fun _ _ => rfl)
      (h.slot_user huser).iunlock (fun hmem => absurd hmem (h.not_chosen_of_held hheld))
  | iunlockPanic huser href => exact h.of_panic _
  | @iput i rest hheld husers hkeep =>
    have hmem : i ∈ s.held := by
      rw [hheld]
      exact Multiset.mem_cons_self _ _
    obtain ⟨hslot, hus⟩ := h.slot_held hheld husers
    exact h.of_entry (h.ref_pos hmem) rfl
      (fun j hj => by rw [hheld, Multiset.count_cons_of_ne hj]) (fun _ _ => rfl)
      (fun _ _ => rfl) (hslot.iput hus) (fun hm => absurd hm (h.not_chosen_of_held hmem))
  | @iputFree i rest hheld husers hlast hfree =>
    have hmem : i ∈ s.held := by
      rw [hheld]
      exact Multiset.mem_cons_self _ _
    obtain ⟨hslot, hus⟩ := h.slot_held hheld husers
    have hnew : SlotOk { s.inode i with lock := true } (s.disk (s.key i)) (rest.count i)
        (atSlot s.users i) (atSlot ((i, .trunc) ::ₘ s.puts) i) := by
      rw [atSlot_cons_self]
      exact hslot.iputFree hus hlast hfree
    exact h.of_entry (h.ref_pos hmem) rfl
      (fun j hj => by rw [hheld, Multiset.count_cons_of_ne hj]) (fun _ _ => rfl)
      (fun j hj => atSlot_cons_ne hj) hnew (fun hm => absurd hm (h.not_chosen_of_held hmem))
  | iputBlocks hheld husers hlast hlock => exact h.of_panic _
  | @putTrunc i rest hput =>
    have hslot := h.slot_put hput
    obtain ⟨href, hvalid, hd, hnlink, htype⟩ := hslot.put _ (Multiset.mem_cons_self _ _)
    have hearly := h.not_chosen_of_early hput rfl
    have hnew := h.put_step .clear
      { s.inode i with d := { (s.inode i).d with size := 0, addrs := fun _ => 0 } }
      { (s.inode i).d with size := 0, addrs := fun _ => 0 } hput rfl rfl rfl rfl rfl
      ⟨href, hvalid, rfl, hd ▸ hnlink, hd ▸ htype⟩ (fun _ => hd ▸ htype)
      (fun hzero => absurd hzero (hd ▸ htype)) (fun hmem => absurd hmem hearly)
    simpa [ItState.key] using hnew
  | @putClear i rest hput =>
    have hslot := h.slot_put hput
    obtain ⟨href, hvalid, hd, hnlink, htype⟩ := hslot.put _ (Multiset.mem_cons_self _ _)
    have hearly := h.not_chosen_of_early hput rfl
    have hnew := h.put_step .write
      { s.inode i with d := { (s.inode i).d with type := 0 } } (s.disk (s.key i)) hput rfl rfl rfl
      rfl rfl ⟨href, hvalid, hd ▸ hnlink, hnlink, htype⟩ (fun _ => htype)
      (fun hzero => absurd hzero htype) (fun hmem => absurd hmem hearly)
    simpa using hnew
  | @putWrite i rest hput =>
    have hslot := h.slot_put hput
    obtain ⟨href, hvalid, hmem, hnlink, htype⟩ := hslot.put _ (Multiset.mem_cons_self _ _)
    have hearly := h.not_chosen_of_early hput rfl
    have hheld : s.held.count i = 0 := (hslot.of_early (Multiset.mem_cons_self _ _) rfl).2.2.2.2.2.1
    have hnew := h.put_step .invalidate (s.inode i) (s.inode i).d hput rfl rfl
      rfl rfl rfl ⟨hvalid, hmem⟩ (fun hpos => by omega) (fun _ => hmem)
      (fun hm => absurd hm hearly)
    simpa using hnew
  | @putInvalidate i rest hput =>
    have hslot := h.slot_put hput
    have hnew := h.put_step .unlock { s.inode i with valid := false }
      (s.disk (s.key i)) hput rfl rfl rfl rfl rfl rfl hslot.alive (h.typed _)
      (fun hmem => ⟨(h.chosen _ hmem).1, (h.chosen _ hmem).2.1, rfl⟩)
    simpa using hnew
  | @putUnlock i rest hput =>
    have hslot := h.slot_put hput
    have hcount := hslot.count
    rw [Multiset.card_cons] at hcount
    have hnew : SlotOk { s.inode i with lock := false } (s.disk (s.key i)) (s.held.count i)
        (atSlot s.users i) (atSlot ((i, .drop) ::ₘ rest) i) := by
      rw [atSlot_cons_self]
      exact hslot.putUnlock
    refine h.of_entry (by omega) rfl (fun _ _ => rfl) (fun _ _ => rfl)
      (fun j hj => by rw [hput, atSlot_cons_ne hj, atSlot_cons_ne hj]) hnew ?_
    intro hmem
    obtain ⟨hheld, hlate⟩ := (h.chosen _ hmem).2.2 i rfl
    rw [hput, atSlot_cons_self, Multiset.forall_mem_cons] at hlate
    rw [atSlot_cons_self]
    exact ⟨hheld, Multiset.forall_mem_cons.2 ⟨rfl, hlate.2⟩⟩
  | @putDrop i rest hput =>
    have hslot := h.slot_put hput
    have hcount := hslot.count
    rw [Multiset.card_cons] at hcount
    refine h.of_entry (by omega) rfl (fun _ _ => rfl) (fun _ _ => rfl)
      (fun j hj => by rw [hput, atSlot_cons_ne hj]) hslot.putDrop ?_
    intro hmem
    obtain ⟨hheld, hlate⟩ := (h.chosen _ hmem).2.2 i rfl
    rw [hput, atSlot_cons_self] at hlate
    exact ⟨hheld, fun p hp => hlate p (Multiset.mem_cons_of_mem hp)⟩

end

theorem of_reachable {disk : Key → Dinode} (hdisk : ∀ k, (disk k).type = 0 → (disk k).nlink = 0)
    (h : Reachable ((itableSystem ninodes disk).restrict Alone) s) : ItInv s := by
  apply h.invariant (P := ItInv)
  · intro s hinit
    rw [hinit]
    exact emptyTable hdisk
  · intro s a s' _ hinv hstep
    exact hinv.step hstep.1.2 hstep.2

/-- A dinode is marked free by an `iput` that has the only reference. -/
theorem free_step {a : ItEvent} {k : Key} (h : ItInv s) (hstep : ItStep ninodes s a s')
    (htype : (s.disk k).type ≠ 0) (hfree : (s'.disk k).type = 0) :
    (s.disk k).nlink = 0 ∧ ∃ i, s.key i = k ∧ (s.inode i).ref = 1 ∧ (i, .write) ∈ s.puts := by
  -- a step that writes `d` to the dinode of `i`
  have hwrite : ∀ {i : Slot} {d : Dinode}, update s.disk (s.key i) d k = s'.disk k →
      d.type ≠ 0 → False := by
    intro i d hd hne
    rw [← hd] at hfree
    by_cases e : k = s.key i
    · subst e
      rw [update_self] at hfree
      exact hne hfree
    · rw [update_of_ne e] at hfree
      exact htype hfree
  have hget : ∀ {t : ItState} {l : Key}, t.disk = s.disk → (t.iget l).disk = s.disk := by
    intro t l ht
    unfold ItState.iget
    split
    · exact ht
    · split <;> exact ht
  cases hstep with
  | iget hmay =>
    rw [hget rfl] at hfree
    exact absurd hfree htype
  | @allocGet l rest halloc =>
    have hsame : ({ s with allocs := rest }.iget l).disk = s.disk := hget rfl
    rw [hsame] at hfree
    exact absurd hfree htype
  | reclaim hinum hused hnlink =>
    rw [hget rfl] at hfree
    exact absurd hfree htype
  | @mark dev type inum rest halloc hlt hzero =>
    by_cases e : k = (dev, inum)
    · subst e
      exact absurd hzero htype
    · simp only [update_of_ne e] at hfree
      exact absurd hfree htype
  | @iupdate i dirty rest huser =>
    obtain ⟨_, hne, _⟩ := (h.slot_user huser).use _ (Multiset.mem_cons_self _ _)
    exact (hwrite rfl hne).elim
  | @putTrunc i rest hput =>
    obtain ⟨_, _, hd, _, hne⟩ := (h.slot_put hput).put _ (Multiset.mem_cons_self _ _)
    refine (hwrite (i := i)
      (d := { (s.inode i).d with size := 0, addrs := fun _ => 0 }) ?_ (hd ▸ hne)).elim
    simp [ItState.key]
  | @putWrite i rest hput =>
    obtain ⟨href, _, _, hnlink, _⟩ := (h.slot_put hput).put _ (Multiset.mem_cons_self _ _)
    have e : k = s.key i := by
      by_contra hne
      have hsame : (s.iupdate i).disk k = s.disk k := update_of_ne hne _ s.disk
      exact htype (hsame ▸ hfree)
    refine ⟨e ▸ hnlink, i, e.symm, href, ?_⟩
    rw [hput]
    exact Multiset.mem_cons_self _ _
  | _ => exact absurd hfree htype

end ItInv

/-- **The inode table is coherent** in every run from a disk whose free dinodes
have no links, if `ireclaim` takes inodes nobody refers to.  No inode is in two
entries in use; `ref` counts the references held and the calls of `iput` that are
not done; an entry in use that is valid and unlocked is a copy of its dinode; and
a dinode is marked free only if it has no links and the freeing `iput` has the
only reference. -/
theorem table_coherent (ninodes : Nat) (disk : Key → Dinode)
    (hdisk : ∀ k, (disk k).type = 0 → (disk k).nlink = 0) (s : ItState)
    (h : Reachable ((itableSystem ninodes disk).restrict Alone) s) :
    (∀ i j, 0 < (s.inode i).ref → 0 < (s.inode j).ref → s.key i = s.key j → i = j) ∧
    (∀ i, (s.inode i).ref = s.held.count i + s.puts.countP fun u => u.1 = i) ∧
    (∀ i, 0 < (s.inode i).ref → (s.inode i).valid = true → (s.inode i).lock = false →
      (s.inode i).d = s.disk (s.key i)) ∧
    ∀ a s', (itableSystem ninodes disk).step s a s' → ∀ k, (s.disk k).type ≠ 0 →
      (s'.disk k).type = 0 → (s.disk k).nlink = 0 ∧
        ∃ i, s.key i = k ∧ (s.inode i).ref = 1 ∧ (i, .write) ∈ s.puts := by
  have hinv := ItInv.of_reachable hdisk h
  refine ⟨hinv.unique, ?_, ?_, ?_⟩
  · intro i
    have hcount := (hinv.slots i).count
    unfold atSlot at hcount
    rwa [Multiset.card_map, ← Multiset.countP_eq_card_filter] at hcount
  · intro i href hvalid hfree
    exact ((hinv.slots i).free href hvalid hfree).1
  · intro a s' hstep k htype hfree
    exact hinv.free_step hstep.2 htype hfree

/-- A disk full of files with one link. -/
def filesDisk : Key → Dinode := fun _ => { Dinode.zero with type := 2, nlink := 1 }

/-- A file is opened, its last link goes, and `iput` is about to mark it free. -/
theorem freeing_reaches : ∃ s : ItState,
    Reachable ((itableSystem 10 filesDisk).restrict Alone) s ∧ s.panic = none ∧
    s.puts = {((0 : Slot), .write)} ∧ s.key 0 = (1, 2) ∧ s.lookup (1, 2) = some 0 ∧
    (s.inode 0).ref = 1 ∧ (s.inode 0).d.type = 0 ∧
    s.disk (1, 2) = { Dinode.zero with type := 2 } := by
  have h₀ : Reachable ((itableSystem 10 filesDisk).restrict Alone) (emptyTable filesDisk) :=
    .start rfl
  have h₁ := h₀.next ⟨⟨rfl, .iget (k := (1, 2)) (.inl (by decide))⟩, trivial⟩
  have h₂ := h₁.next ⟨⟨rfl, @ItStep.ilock 10 _ 0 (Multiset.mem_cons_self 0 0) (by decide)⟩, trivial⟩
  have h₃ := h₂.next ⟨⟨rfl, @ItStep.acquire 10 _ 0 0 rfl rfl⟩, trivial⟩
  have h₄ := h₃.next ⟨⟨rfl, @ItStep.load 10 _ 0 0 rfl rfl (by decide)⟩, trivial⟩
  have h₅ := h₄.next ⟨⟨rfl, @ItStep.modify 10 _ 0 false 0 { Dinode.zero with type := 2 } rfl rfl⟩,
    trivial⟩
  have h₆ := h₅.next ⟨⟨rfl, @ItStep.iupdate 10 _ 0 true 0 rfl⟩, trivial⟩
  have h₇ := h₆.next ⟨⟨rfl, @ItStep.iunlock 10 _ 0 0 rfl (by decide)⟩, trivial⟩
  have h₈ := h₇.next ⟨⟨rfl, @ItStep.iputFree 10 _ 0 0 rfl (by simp) (by decide) rfl⟩, trivial⟩
  have h₉ := h₈.next ⟨⟨rfl, @ItStep.putTrunc 10 _ 0 0 rfl⟩, trivial⟩
  have h₁₀ := h₉.next ⟨⟨rfl, @ItStep.putClear 10 _ 0 0 rfl⟩, trivial⟩
  exact ⟨_, h₁₀, rfl, rfl, rfl, by decide, rfl, rfl, rfl⟩

theorem table_coherent_freeing : ∃ s s' : ItState,
    Reachable ((itableSystem 10 filesDisk).restrict Alone) s ∧
    (itableSystem 10 filesDisk).step s .other s' ∧ (s.disk (1, 2)).type ≠ 0 ∧
    (s'.disk (1, 2)).type = 0 ∧ (s.disk (1, 2)).nlink = 0 := by
  obtain ⟨s, hreach, hpanic, hputs, hkey, _, _, hzero, hdisk⟩ := freeing_reaches
  have hstep : (itableSystem 10 filesDisk).step s .other _ :=
    ⟨hpanic, @ItStep.putWrite 10 s 0 0 hputs⟩
  have htype : (s.disk (1, 2)).type ≠ 0 := by
    rw [hdisk]
    decide
  have hfree : ((s.iupdate 0).disk (1, 2)).type = 0 := by
    simp [hkey, hzero]
  have hall := table_coherent 10 filesDisk (fun k hk => by cases hk) s hreach
  exact ⟨s, _, hreach, hstep, htype, hfree, (hall.2.2.2 _ _ hstep (1, 2) htype hfree).1⟩

theorem iget_recycle {s : ItState} {k : Key} {i : Slot} (hlook : s.lookup k = none)
    (hempty : s.empty = some i) : s.iget k = s.recycle k i := by
  unfold ItState.iget
  rw [hlook, hempty]

/-- Inode `2` is read through entry `1`, and both entries are given up. -/
theorem unused_reaches : ∃ s : ItState, Reachable (itableSystem 10 filesDisk) s ∧
    s.panic = none ∧ s.held = 0 ∧ s.users = 0 ∧ s.lookup (1, 2) = none ∧ s.empty = some 0 ∧
    (s.inode 0).lock = false ∧ s.disk = filesDisk ∧
    s.inode 1 = ⟨1, 2, 0, false, true, filesDisk (1, 2)⟩ := by
  have h₀ : Reachable (itableSystem 10 filesDisk) (emptyTable filesDisk) := .start rfl
  have h₁ := h₀.next ⟨rfl, .iget (k := (1, 1)) (.inl (by decide))⟩
  rw [iget_recycle (i := 0) (by decide) (by decide)] at h₁
  have h₂ := h₁.next ⟨rfl, .iget (k := (1, 2)) (.inl (by decide))⟩
  rw [iget_recycle (i := 1) (by decide) (by decide)] at h₂
  have h₃ := h₂.next ⟨rfl, @ItStep.ilock 10 _ 1 (Multiset.mem_cons_self 1 {0}) (by decide)⟩
  have h₄ := h₃.next ⟨rfl, @ItStep.acquire 10 _ 1 0 rfl rfl⟩
  have h₅ := h₄.next ⟨rfl, @ItStep.load 10 _ 1 0 rfl rfl (by decide)⟩
  have h₆ := h₅.next ⟨rfl, @ItStep.iunlock 10 _ 1 0 rfl (by decide)⟩
  have h₇ := h₆.next ⟨rfl, @ItStep.iput 10 _ 1 {0} rfl (by simp) (by decide)⟩
  have h₈ := h₇.next ⟨rfl, @ItStep.iput 10 _ 0 0 rfl (by simp) (by decide)⟩
  exact ⟨_, h₈, rfl, rfl, rfl, by decide, by decide, rfl, rfl, rfl⟩

/-- Entry `0` is the first empty one, and inode `2` grows there. -/
theorem unused_entry_stale : ∃ s : ItState, Reachable (itableSystem 10 filesDisk) s ∧
    (s.inode 1).valid = true ∧ (s.inode 1).lock = false ∧
    (s.inode 1).d ≠ s.disk (s.key 1) := by
  obtain ⟨s, hreach, hpanic, hheld, husers, hlook, hempty, hlock, hdisk, hentry⟩ := unused_reaches
  have h₁ := hreach.next ⟨hpanic, .iget (k := (1, 2)) (.inl (by rw [hdisk]; decide))⟩
  rw [iget_recycle hlook hempty] at h₁
  have h₂ := h₁.next ⟨hpanic, @ItStep.ilock 10 _ 0 (Multiset.mem_cons_self 0 s.held) (by simp)⟩
  have h₃ := h₂.next ⟨hpanic, @ItStep.acquire 10 _ 0 0 (by simp [husers]) (by simpa using hlock)⟩
  have h₄ := h₃.next ⟨hpanic, @ItStep.load 10 _ 0 0 rfl (by simp) (by simp [hdisk, filesDisk])⟩
  have h₅ := h₄.next ⟨hpanic, @ItStep.modify 10 _ 0 false 0
    { Dinode.zero with type := 2, nlink := 1, size := 5 } rfl (by simp [hdisk, filesDisk])⟩
  have h₆ := h₅.next ⟨hpanic, @ItStep.iupdate 10 _ 0 true 0 rfl⟩
  have h₇ := h₆.next ⟨hpanic, @ItStep.iunlock 10 _ 0 0 rfl (by simp)⟩
  have hother : (1 : Slot) ≠ 0 := by decide
  refine ⟨_, h₇, ?_, ?_, ?_⟩
  · simp [hother, hentry]
  · simp [hother, hentry]
  · simp [hother, hentry, ItState.key, filesDisk, Dinode.zero]

/-- An `ireclaim` beside a freeing `iput` takes the orphan it sees, and the `iput`
marks the dinode free while there are two references. -/
theorem reclaim_races : ∃ s s' : ItState, Reachable (itableSystem 10 filesDisk) s ∧
    (itableSystem 10 filesDisk).step s .other s' ∧ s.key 0 = (1, 2) ∧
    (s.disk (1, 2)).type ≠ 0 ∧ (s'.disk (1, 2)).type = 0 ∧ (s.inode 0).ref = 2 ∧
    (0 : Slot) ∈ s.held := by
  obtain ⟨s, hreach, hpanic, hputs, hkey, hlook, href, hzero, hdisk⟩ := freeing_reaches
  have hget : s.iget (1, 2) = s.dup 0 := by
    unfold ItState.iget
    rw [hlook]
  have htype : (s.disk (1, 2)).type ≠ 0 := by
    rw [hdisk]
    decide
  have hnext := hreach.of_restrict.next
    ⟨hpanic, @ItStep.reclaim 10 s (1, 2) (by decide) htype (by rw [hdisk]; rfl)⟩
  rw [hget] at hnext
  have hkey' : (s.dup 0).key 0 = (1, 2) := by
    rw [← hkey]
    simp [ItState.key]
  refine ⟨s.dup 0, _, hnext, ⟨hpanic, @ItStep.putWrite 10 _ 0 0 hputs⟩, hkey', htype, ?_, ?_, ?_⟩
  · simp only [ItState.iupdate_disk, hkey', update_self]
    simpa using hzero
  · simp [href]
  · exact Multiset.mem_cons_self 0 s.held

/-- Without `0 < ref`, and with an `ireclaim` beside other users, the table is not
coherent. -/
theorem table_incoherent :
    (∃ s : ItState, Reachable (itableSystem 10 filesDisk) s ∧ ∃ i, (s.inode i).valid = true ∧
      (s.inode i).lock = false ∧ (s.inode i).d ≠ s.disk (s.key i)) ∧
    ∃ s s' : ItState, Reachable (itableSystem 10 filesDisk) s ∧
      (itableSystem 10 filesDisk).step s .other s' ∧ s.key 0 = (1, 2) ∧
      (s.disk (1, 2)).type ≠ 0 ∧ (s'.disk (1, 2)).type = 0 ∧ (s.inode 0).ref = 2 := by
  obtain ⟨s, hreach, hvalid, hlock, hstale⟩ := unused_entry_stale
  obtain ⟨t, t', htreach, hstep, hkey, htype, hfree, href, _⟩ := reclaim_races
  exact ⟨⟨s, hreach, 1, hvalid, hlock, hstale⟩, t, t', htreach, hstep, hkey, htype, hfree, href⟩

end Kus.Itable
