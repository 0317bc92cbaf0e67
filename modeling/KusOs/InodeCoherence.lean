import KusOs.InodeTable

/-!
# Coherence of the inode table

What one entry must satisfy depends on the entry, its dinode and the references,
users and freeing calls there are on it, and on nothing else:

* `SlotOk` — the invariant of one entry, with one lemma for each thing that can
  happen to it;
* `ItInv` — all entries, no inode in two entries in use, and what an `ialloc` may
  rely on between its choice and its `iget`;
* `ItInv.of_local` — what happens to one entry in use leaves the others alone;
* `ItInv.iget` — the one step that gives an entry to an inode.
-/

namespace Kus.Itable

open Function Transition

def UsePos.hasLock : UsePos → Bool
  | .waiting => false
  | _ => true

def PutPos.hasLock : PutPos → Bool
  | .drop => false
  | _ => true

/-- Is the dinode already marked free? -/
def PutPos.late : PutPos → Bool
  | .trunc | .clear | .write => false
  | _ => true

/-- What a user relies on. -/
def UseOk (ip : Inode) (d : Dinode) : UsePos → Prop
  | .waiting => True
  | .locked => ip.valid = true → ip.d = d
  | .ready dirty => ip.valid = true ∧ ip.d.type ≠ 0 ∧ (dirty = false → ip.d = d)

/-- What a freeing `iput` relies on. -/
def PutOk (ip : Inode) (d : Dinode) : PutPos → Prop
  | .trunc | .clear => ip.ref = 1 ∧ ip.valid = true ∧ ip.d = d ∧ d.nlink = 0 ∧ d.type ≠ 0
  | .write => ip.ref = 1 ∧ ip.valid = true ∧ ip.d.nlink = 0 ∧ d.nlink = 0 ∧ d.type ≠ 0
  | .invalidate => ip.valid = true ∧ ip.d.nlink = 0
  | .unlock => ip.valid = false
  | .drop => True

/-- Once the dinode is marked free, only the entry counts. -/
theorem PutOk.of_late {ip ip' : Inode} {d d' : Dinode} {k : PutPos} (hok : PutOk ip d k)
    (hlate : k.late = true) (hvalid : ip'.valid = ip.valid) (hd : ip'.d = ip.d) :
    PutOk ip' d' k := by
  cases k with
  | trunc => cases hlate
  | clear => cases hlate
  | write => cases hlate
  | drop => trivial
  | _ => simpa [PutOk, hvalid, hd] using hok

/-- An entry `ip` with dinode `d`, `held` references, users and freeing calls. -/
structure SlotOk (ip : Inode) (d : Dinode) (held : Nat) (us : Multiset UsePos)
    (ps : Multiset PutPos) : Prop where
  count : ip.ref = held + Multiset.card ps
  lockOne : us.countP (·.hasLock) + ps.countP (·.hasLock) = if ip.lock then 1 else 0
  cover : us ≠ 0 → 0 < held
  free : 0 < ip.ref → ip.valid = true → ip.lock = false → ip.d = d ∧ d.type ≠ 0
  use : ∀ u ∈ us, UseOk ip d u
  put : ∀ k ∈ ps, PutOk ip d k
  alive : 0 < held → d.type ≠ 0

namespace SlotOk

variable {ip ip' : Inode} {d d' : Dinode} {held : Nat} {us : Multiset UsePos}
  {ps : Multiset PutPos} {u u' : UsePos} {k k' : PutPos}

/-- An early `iput` has the only reference. -/
theorem of_early (h : SlotOk ip d held us ps) (hk : k ∈ ps) (hearly : k.late = false) :
    ip.ref = 1 ∧ ip.valid = true ∧ ip.d.nlink = 0 ∧ d.nlink = 0 ∧ d.type ≠ 0 ∧ held = 0 ∧
      Multiset.card ps = 1 := by
  have hput := h.put k hk
  have hcount := h.count
  have hcard : 0 < Multiset.card ps := Multiset.card_pos_iff_exists_mem.2 ⟨k, hk⟩
  have hshape : ip.ref = 1 ∧ ip.valid = true ∧ ip.d.nlink = 0 ∧ d.nlink = 0 ∧ d.type ≠ 0 := by
    cases k with
    | trunc =>
      obtain ⟨href, hvalid, hd, hnlink, htype⟩ := hput
      exact ⟨href, hvalid, hd ▸ hnlink, hnlink, htype⟩
    | clear =>
      obtain ⟨href, hvalid, hd, hnlink, htype⟩ := hput
      exact ⟨href, hvalid, hd ▸ hnlink, hnlink, htype⟩
    | write => exact hput
    | invalidate => cases hearly
    | unlock => cases hearly
    | drop => cases hearly
  obtain ⟨href, hvalid, hmem, hnlink, htype⟩ := hshape
  exact ⟨href, hvalid, hmem, hnlink, htype, by omega, by omega⟩

/-- Those without the lock wait for it or are done with it. -/
theorem of_no_lock (hus : us.countP (·.hasLock) = 0) (hps : ps.countP (·.hasLock) = 0) :
    (∀ v ∈ us, v = .waiting) ∧ ∀ k ∈ ps, k = .drop := by
  rw [Multiset.countP_eq_zero] at hus hps
  constructor
  · intro v hv
    have hno := hus v hv
    cases v with
    | waiting => rfl
    | locked => exact absurd rfl hno
    | ready dirty => exact absurd rfl hno
  · intro k hk
    have hno := hps k hk
    cases k with
    | drop => rfl
    | _ => exact absurd rfl hno

/-- Whoever has the lock is alone with it. -/
theorem of_user_lock (h : SlotOk ip d held (u ::ₘ us) ps) (hu : u.hasLock = true) :
    ip.lock = true ∧ us.countP (·.hasLock) = 0 ∧ ps.countP (·.hasLock) = 0 := by
  have hone := h.lockOne
  rw [Multiset.countP_cons_of_pos (p := fun v : UsePos => v.hasLock = true) us hu] at hone
  by_cases hlock : ip.lock = true
  · rw [if_pos hlock] at hone
    exact ⟨hlock, by omega, by omega⟩
  · rw [if_neg hlock] at hone
    omega

theorem of_put_lock (h : SlotOk ip d held us (k ::ₘ ps)) (hk : k.hasLock = true) :
    ip.lock = true ∧ us.countP (·.hasLock) = 0 ∧ ps.countP (·.hasLock) = 0 := by
  have hone := h.lockOne
  rw [Multiset.countP_cons_of_pos (p := fun v : PutPos => v.hasLock = true) ps hk] at hone
  by_cases hlock : ip.lock = true
  · rw [if_pos hlock] at hone
    exact ⟨hlock, by omega, by omega⟩
  · rw [if_neg hlock] at hone
    omega

/-- While a user has the lock, it may change the entry and the dinode. -/
theorem user_step (h : SlotOk ip d held (u ::ₘ us) ps) (hu : u.hasLock = true)
    (hu' : u'.hasLock = true) (href : ip'.ref = ip.ref) (hlock : ip'.lock = ip.lock)
    (hok : UseOk ip' d' u') (htype : d'.type ≠ 0) : SlotOk ip' d' held (u' ::ₘ us) ps := by
  obtain ⟨htaken, hus, hps⟩ := h.of_user_lock hu
  obtain ⟨hwait, hdrop⟩ := of_no_lock hus hps
  constructor
  · rw [href]
    exact h.count
  · rw [Multiset.countP_cons_of_pos (p := fun v : UsePos => v.hasLock = true) us hu', hus, hps,
      hlock, htaken]
    rfl
  · intro _
    exact h.cover (Multiset.cons_ne_zero)
  · intro _ _ hfree
    rw [hlock, htaken] at hfree
    cases hfree
  · refine Multiset.forall_mem_cons.2 ⟨hok, fun v hv => ?_⟩
    rw [hwait v hv]
    trivial
  · intro j hj
    rw [hdrop j hj]
    trivial
  · exact fun _ => htype

/-- The same for a freeing `iput`. -/
theorem put_step (h : SlotOk ip d held us (k ::ₘ ps)) (hk : k.hasLock = true)
    (hk' : k'.hasLock = true) (href : ip'.ref = ip.ref) (hlock : ip'.lock = ip.lock)
    (hok : PutOk ip' d' k') (htype : 0 < held → d'.type ≠ 0) :
    SlotOk ip' d' held us (k' ::ₘ ps) := by
  obtain ⟨htaken, hus, hps⟩ := h.of_put_lock hk
  obtain ⟨hwait, hdrop⟩ := of_no_lock hus hps
  constructor
  · rw [href, Multiset.card_cons]
    simpa using h.count
  · rw [Multiset.countP_cons_of_pos (p := fun v : PutPos => v.hasLock = true) ps hk', hus, hps,
      hlock, htaken]
    rfl
  · exact h.cover
  · intro _ _ hfree
    rw [hlock, htaken] at hfree
    cases hfree
  · intro v hv
    rw [hwait v hv]
    trivial
  · refine Multiset.forall_mem_cons.2 ⟨hok, fun j hj => ?_⟩
    rw [hdrop j hj]
    trivial
  · exact htype

/-- One more reference. -/
theorem dup (h : SlotOk ip d held us ps) (href : 0 < ip.ref) (htype : d.type ≠ 0)
    (hlate : ∀ k ∈ ps, k.late = true) :
    SlotOk { ip with ref := ip.ref + 1 } d (held + 1) us ps where
  count := by
    have hcount := h.count
    change ip.ref + 1 = _
    omega
  lockOne := h.lockOne
  cover _ := Nat.succ_pos held
  free _ := h.free href
  use u hu := by
    have hok := h.use u hu
    cases u <;> exact hok
  put k hk := (h.put k hk).of_late (hlate k hk) rfl rfl
  alive _ := htype

/-- An `ilock` begins. -/
theorem ilock (h : SlotOk ip d held us ps) (hheld : 0 < held) :
    SlotOk ip d held (.waiting ::ₘ us) ps where
  count := h.count
  lockOne := by
    rw [Multiset.countP_cons_of_neg (p := fun v : UsePos => v.hasLock = true) us (by decide)]
    exact h.lockOne
  cover _ := hheld
  free := h.free
  use := Multiset.forall_mem_cons.2 ⟨trivial, h.use⟩
  put := h.put
  alive := h.alive

/-- `acquiresleep` in `ilock`. -/
theorem acquire (h : SlotOk ip d held (.waiting ::ₘ us) ps) (hfree : ip.lock = false) :
    SlotOk { ip with lock := true } d held (.locked ::ₘ us) ps where
  count := h.count
  lockOne := by
    have hone := h.lockOne
    rw [Multiset.countP_cons_of_neg (p := fun v : UsePos => v.hasLock = true) us (by decide),
      hfree] at hone
    rw [Multiset.countP_cons_of_pos (p := fun v : UsePos => v.hasLock = true) us (by decide)]
    simp only [if_true, Bool.false_eq_true, if_false] at hone ⊢
    omega
  cover _ := h.cover Multiset.cons_ne_zero
  free _ _ hno := by cases hno
  use u hu := by
    rcases Multiset.mem_cons.1 hu with rfl | hu
    · intro hvalid
      have hheld := h.cover Multiset.cons_ne_zero
      have hcount := h.count
      exact (h.free (by omega) hvalid hfree).1
    · have hok := h.use u (Multiset.mem_cons_of_mem hu)
      cases u <;> exact hok
  put k hk := by
    have hok := h.put k hk
    cases k <;> exact hok
  alive := h.alive

/-- `iunlock` after the last `iupdate`. -/
theorem iunlock (h : SlotOk ip d held (.ready false ::ₘ us) ps) :
    SlotOk { ip with lock := false } d held us ps := by
  obtain ⟨_, hus, hps⟩ := h.of_user_lock rfl
  obtain ⟨hwait, hdrop⟩ := of_no_lock hus hps
  have hheld := h.cover Multiset.cons_ne_zero
  obtain ⟨_, _, hclean⟩ := h.use _ (Multiset.mem_cons_self _ us)
  constructor
  · exact h.count
  · rw [hus, hps]
    rfl
  · exact fun _ => hheld
  · exact fun _ _ _ => ⟨hclean rfl, h.alive hheld⟩
  · intro v hv
    rw [hwait v hv]
    trivial
  · intro j hj
    rw [hdrop j hj]
    trivial
  · exact h.alive

section

variable (h : SlotOk ip d (held + 1) us ps) (hus : us ≠ 0 → 0 < held)
include h hus

/-- `iput` of a reference that is not the last, or of a linked inode. -/
theorem iput : SlotOk { ip with ref := ip.ref - 1 } d held us ps where
  count := by
    have hcount := h.count
    change ip.ref - 1 = _
    omega
  lockOne := h.lockOne
  cover := hus
  free href := by
    have hlt : 0 < ip.ref - 1 := href
    exact h.free (by omega)
  use u hu := by
    have hok := h.use u hu
    cases u <;> exact hok
  put k hk := by
    refine (h.put k hk).of_late ?_ rfl rfl
    by_contra hn
    have hheld := (h.of_early hk (by simpa using hn)).2.2.2.2.2.1
    omega
  alive hheld := h.alive (Nat.succ_pos held)

/-- The last reference is alone on its entry. -/
theorem of_last (href : ip.ref = 1) : held = 0 ∧ us = 0 ∧ ps = 0 := by
  have hcount := h.count
  have hnone : us = 0 := by
    by_contra hn
    have hpos := hus hn
    omega
  exact ⟨by omega, hnone, Multiset.card_eq_zero.1 (by omega)⟩

/-- `iput` starts to free the inode: nobody else uses the entry. -/
theorem iputFree (hlast : ip.ref = 1 ∧ ip.valid = true ∧ ip.d.nlink = 0) (hfree : ip.lock = false) :
    SlotOk { ip with lock := true } d held us (.trunc ::ₘ ps) := by
  obtain ⟨href, hvalid, hnlink⟩ := hlast
  have hcount := h.count
  obtain ⟨rfl, rfl, rfl⟩ := h.of_last hus href
  obtain ⟨hd, htype⟩ := h.free (by omega) hvalid hfree
  constructor
  · simpa using hcount
  · rfl
  · exact fun hn => absurd rfl hn
  · intro _ _ hno
    cases hno
  · intro u hu
    simp at hu
  · intro k hk
    rw [Multiset.cons_zero, Multiset.mem_singleton] at hk
    rw [hk]
    exact ⟨href, hvalid, hd, hd ▸ hnlink, htype⟩
  · exact fun _ => htype

end

/-- `releasesleep` in `iput`. -/
theorem putUnlock (h : SlotOk ip d held us (.unlock ::ₘ ps)) :
    SlotOk { ip with lock := false } d held us (.drop ::ₘ ps) := by
  obtain ⟨_, hus, hps⟩ := h.of_put_lock rfl
  obtain ⟨hwait, hdrop⟩ := of_no_lock hus hps
  have hinvalid : ip.valid = false := h.put _ (Multiset.mem_cons_self _ ps)
  constructor
  · simpa using h.count
  · rw [Multiset.countP_cons_of_neg (p := fun v : PutPos => v.hasLock = true) ps (by decide),
      hus, hps]
    rfl
  · exact h.cover
  · intro _ hvalid _
    rw [show ip.valid = true from hvalid] at hinvalid
    cases hinvalid
  · intro v hv
    rw [hwait v hv]
    trivial
  · refine Multiset.forall_mem_cons.2 ⟨trivial, fun j hj => ?_⟩
    rw [hdrop j hj]
    trivial
  · exact h.alive

/-- The last section of `iput`. -/
theorem putDrop (h : SlotOk ip d held us (.drop ::ₘ ps)) :
    SlotOk { ip with ref := ip.ref - 1 } d held us ps where
  count := by
    have hcount := h.count
    rw [Multiset.card_cons] at hcount
    change ip.ref - 1 = _
    omega
  lockOne := by
    have hone := h.lockOne
    rw [Multiset.countP_cons_of_neg (p := fun v : PutPos => v.hasLock = true) ps
      (by decide)] at hone
    exact hone
  cover := h.cover
  free href := by
    have hlt : 0 < ip.ref - 1 := href
    exact h.free (by omega)
  use u hu := by
    have hok := h.use u hu
    cases u <;> exact hok
  put k hk := by
    have hmem := Multiset.mem_cons_of_mem (a := k) (b := .drop) hk
    refine (h.put k hmem).of_late ?_ rfl rfl
    by_contra hn
    have hcard := (h.of_early hmem (by simpa using hn)).2.2.2.2.2.2
    have hpos : 0 < Multiset.card ps := Multiset.card_pos_iff_exists_mem.2 ⟨k, hk⟩
    rw [Multiset.card_cons] at hcard
    omega
  alive := h.alive

section

variable (h : SlotOk ip d held us ps)
include h

theorem no_users (hheld : held = 0) : us = 0 := by
  by_contra hn
  have hpos := h.cover hn
  omega

/-- Nothing is on an entry that is not in use. -/
theorem of_ref_zero (href : ip.ref = 0) : held = 0 ∧ us = 0 ∧ ps = 0 := by
  have hcount := h.count
  exact ⟨by omega, h.no_users (by omega), Multiset.card_eq_zero.1 (by omega)⟩

/-- An entry that is not in use has no dinode to agree with. -/
theorem of_unused (href : ip.ref = 0) : SlotOk ip d' held us ps := by
  obtain ⟨rfl, rfl, rfl⟩ := h.of_ref_zero href
  refine ⟨h.count, h.lockOne, h.cover, ?_, by simp, by simp, ?_⟩
  · intro hpos
    omega
  · intro hpos
    omega

/-- `ialloc` takes a free dinode: at most calls of `iput` that have marked it are
still on the entry. -/
theorem mark (htype : d.type = 0) (d' : Dinode) :
    SlotOk ip d' held us ps ∧ held = 0 ∧ ∀ k ∈ ps, k.late = true := by
  have hheld : held = 0 := by
    by_contra hn
    exact h.alive (Nat.pos_of_ne_zero hn) htype
  have hus := h.no_users hheld
  have hlate : ∀ k ∈ ps, k.late = true := by
    intro k hk
    by_contra hn
    exact (h.of_early hk (by simpa using hn)).2.2.2.2.1 htype
  refine ⟨⟨h.count, h.lockOne, h.cover, ?_, ?_, ?_, ?_⟩, hheld, hlate⟩
  · intro href hvalid hfree
    exact absurd htype (h.free href hvalid hfree).2
  · intro u hu
    rw [hus] at hu
    simp at hu
  · exact fun k hk => (h.put k hk).of_late (hlate k hk) rfl rfl
  · intro hpos
    omega

/-- A valid entry in use has an allocated dinode, unless it is just being freed. -/
theorem type_of_linked (href : 0 < ip.ref) (hvalid : ip.valid = true) (hnlink : ip.d.nlink ≠ 0) :
    d.type ≠ 0 ∧ (held = 0 → ip.d = d) := by
  cases hlock : ip.lock with
  | false =>
    obtain ⟨hd, htype⟩ := h.free href hvalid hlock
    exact ⟨htype, fun _ => hd⟩
  | true =>
    have hone := h.lockOne
    rw [hlock] at hone
    by_cases hheld : held = 0
    · -- without a reference held there is no user, so an `iput` has the lock
      rw [h.no_users hheld] at hone
      have hpos : 0 < ps.countP (·.hasLock) := by
        simp at hone
        omega
      obtain ⟨k, hk, hkl⟩ := Multiset.countP_pos.1 hpos
      have hok := h.put k hk
      cases k with
      | trunc => exact absurd (hok.2.2.1 ▸ hok.2.2.2.1) hnlink
      | clear => exact absurd (hok.2.2.1 ▸ hok.2.2.2.1) hnlink
      | write => exact absurd hok.2.2.1 hnlink
      | invalidate => exact absurd hok.2 hnlink
      | unlock => exact absurd (hvalid.symm.trans hok) (by simp)
      | drop => cases hkl
    · exact ⟨h.alive (Nat.pos_of_ne_zero hheld), fun hno => absurd hno hheld⟩

end

end SlotOk

/-- What there is on the entry `i`. -/
def atSlot {α : Type} (m : Multiset (Slot × α)) (i : Slot) : Multiset α :=
  (m.filter fun x => x.1 = i).map Prod.snd

section AtSlot

variable {α : Type} {m : Multiset (Slot × α)} {i j : Slot} {x : α}

@[simp] theorem atSlot_zero : atSlot (0 : Multiset (Slot × α)) i = 0 := rfl

@[simp] theorem atSlot_cons_self : atSlot ((i, x) ::ₘ m) i = x ::ₘ atSlot m i := by
  simp [atSlot]

theorem atSlot_cons_ne (hne : j ≠ i) : atSlot ((i, x) ::ₘ m) j = atSlot m j := by
  simp [atSlot, Ne.symm hne]

theorem mem_atSlot : x ∈ atSlot m i ↔ (i, x) ∈ m := by
  simp [atSlot]

end AtSlot

/-- The entry `i` as `SlotOk` looks at it. -/
def ItState.SlotInv (s : ItState) (i : Slot) : Prop :=
  SlotOk (s.inode i) (s.disk (s.key i)) (s.held.count i) (atSlot s.users i) (atSlot s.puts i)

/-- The invariant of the table. -/
structure ItInv (s : ItState) : Prop where
  slots : ∀ i, s.SlotInv i
  unique : ∀ i j, 0 < (s.inode i).ref → 0 < (s.inode j).ref → s.key i = s.key j → i = j
  typed : ∀ k, (s.disk k).type = 0 → (s.disk k).nlink = 0
  chosen : ∀ k, AllocPos.chosen k ∈ s.allocs → (s.disk k).type ≠ 0 ∧ (s.disk k).nlink = 0 ∧
    ∀ i, s.key i = k → s.held.count i = 0 ∧ ∀ p ∈ atSlot s.puts i, p.late = true
  chosenOne : ∀ k, s.allocs.count (.chosen k) ≤ 1
  scans : ∀ dev type inum, AllocPos.scan dev type inum ∈ s.allocs → type ≠ 0

namespace ItInv

variable {s s' : ItState} {i : Slot}

section

variable (h : ItInv s)
include h

theorem ref_pos (hheld : i ∈ s.held) : 0 < (s.inode i).ref := by
  have hcount := (h.slots i).count
  have hpos := Multiset.count_pos.2 hheld
  omega

theorem not_chosen_of_held (hheld : i ∈ s.held) : AllocPos.chosen (s.key i) ∉ s.allocs := by
  intro hmem
  have hnone := ((h.chosen _ hmem).2.2 i rfl).1
  have hpos := Multiset.count_pos.2 hheld
  omega

/-- **What happens to one entry in use**, its dinode and what there is on it,
leaves all others alone. -/
theorem of_local {ip : Inode} {d : Dinode} (href : 0 < (s.inode i).ref)
    (hinode : s'.inode = update s.inode i ip) (hdev : (ip.dev, ip.inum) = s.key i)
    (hdisk : s'.disk = update s.disk (s.key i) d)
    (hheld : ∀ j, j ≠ i → s'.held.count j = s.held.count j)
    (husers : ∀ j, j ≠ i → atSlot s'.users j = atSlot s.users j)
    (hputs : ∀ j, j ≠ i → atSlot s'.puts j = atSlot s.puts j) (hallocs : s'.allocs = s.allocs)
    (hslot : SlotOk ip d (s'.held.count i) (atSlot s'.users i) (atSlot s'.puts i))
    (htyped : d.type = 0 → d.nlink = 0)
    (hchosen : AllocPos.chosen (s.key i) ∈ s.allocs →
      d.type ≠ 0 ∧ d.nlink = 0 ∧ s'.held.count i = 0 ∧ ∀ p ∈ atSlot s'.puts i, p.late = true) :
    ItInv s' := by
  have hkeys : ∀ j, s'.key j = s.key j := by
    intro j
    unfold ItState.key
    rw [hinode]
    by_cases e : j = i
    · rw [e, update_self]
      exact hdev
    · rw [update_of_ne e]
  have hpos : ∀ j, 0 < (s'.inode j).ref → 0 < (s.inode j).ref := by
    intro j hj
    by_cases e : j = i
    · rw [e]
      exact href
    · rwa [hinode, update_of_ne e] at hj
  constructor
  · intro j
    have hold := h.slots j
    unfold ItState.SlotInv at hold ⊢
    rw [hkeys, hinode, hdisk]
    by_cases e : j = i
    · rw [e, update_self, update_self]
      exact hslot
    rw [update_of_ne e, hheld j e, husers j e, hputs j e]
    by_cases ek : s.key j = s.key i
    · -- two entries for one inode are not both in use
      have hzero : (s.inode j).ref = 0 := by
        by_contra hn
        exact e (h.unique j i (Nat.pos_of_ne_zero hn) href ek)
      exact hold.of_unused hzero
    · rw [update_of_ne ek]
      exact hold
  · intro j k hj hk hjk
    rw [hkeys, hkeys] at hjk
    exact h.unique j k (hpos j hj) (hpos k hk) hjk
  · intro k
    rw [hdisk]
    by_cases e : k = s.key i
    · rw [e, update_self]
      exact htyped
    · rw [update_of_ne e]
      exact h.typed k
  · intro k hk
    rw [hallocs] at hk
    rw [hdisk]
    obtain ⟨htype, hnlink, hon⟩ := h.chosen k hk
    by_cases e : k = s.key i
    · subst e
      obtain ⟨htype', hnlink', hheld', hlate'⟩ := hchosen hk
      rw [update_self]
      refine ⟨htype', hnlink', ?_⟩
      intro j hj
      rw [hkeys] at hj
      by_cases ej : j = i
      · rw [ej]
        exact ⟨hheld', hlate'⟩
      · rw [hheld j ej, hputs j ej]
        exact hon j hj
    rw [update_of_ne e]
    refine ⟨htype, hnlink, ?_⟩
    intro j hj
    rw [hkeys] at hj
    have ej : j ≠ i := by
      rintro rfl
      exact e hj.symm
    rw [hheld j ej, hputs j ej]
    exact hon j hj
  · rw [hallocs]
    exact h.chosenOne
  · rw [hallocs]
    exact h.scans

/-- A user that has the lock acts. -/
theorem user_step {u : UsePos} (u' : UsePos) {rest : Multiset (Slot × UsePos)} (ip : Inode)
    (d : Dinode) (huser : s.users = (i, u) ::ₘ rest) (hu : u.hasLock = true)
    (hu' : u'.hasLock = true) (hdev : (ip.dev, ip.inum) = s.key i) (href : ip.ref = (s.inode i).ref)
    (hlock : ip.lock = (s.inode i).lock) (hok : UseOk ip d u') (htype : d.type ≠ 0) : ItInv { s with
      inode := update s.inode i ip
      disk := update s.disk (s.key i) d
      users := (i, u') ::ₘ rest } := by
  have hslot := h.slots i
  unfold ItState.SlotInv at hslot
  rw [huser, atSlot_cons_self] at hslot
  have hheld : i ∈ s.held := Multiset.count_pos.1 (hslot.cover Multiset.cons_ne_zero)
  refine h.of_local (h.ref_pos hheld) rfl hdev rfl (fun _ _ => rfl) ?_ (fun _ _ => rfl) rfl ?_ ?_ ?_
  · intro j hj
    rw [huser, atSlot_cons_ne hj, atSlot_cons_ne hj]
  · rw [atSlot_cons_self]
    exact hslot.user_step hu hu' href hlock hok htype
  · exact fun hzero => absurd hzero htype
  · exact fun hmem => absurd hmem (h.not_chosen_of_held hheld)

/-- A freeing `iput` that has the lock acts. -/
theorem put_step {k : PutPos} (k' : PutPos) {rest : Multiset (Slot × PutPos)} (ip : Inode)
    (d : Dinode) (hput : s.puts = (i, k) ::ₘ rest) (hk : k.hasLock = true) (hk' : k'.hasLock = true)
    (hdev : (ip.dev, ip.inum) = s.key i) (href : ip.ref = (s.inode i).ref)
    (hlock : ip.lock = (s.inode i).lock) (hok : PutOk ip d k')
    (hlive : 0 < s.held.count i → d.type ≠ 0) (htyped : d.type = 0 → d.nlink = 0)
    (hchosen : AllocPos.chosen (s.key i) ∈ s.allocs → d.type ≠ 0 ∧ d.nlink = 0 ∧ k'.late = true) :
    ItInv { s with
      inode := update s.inode i ip
      disk := update s.disk (s.key i) d
      puts := (i, k') ::ₘ rest } := by
  have hslot := h.slots i
  unfold ItState.SlotInv at hslot
  rw [hput, atSlot_cons_self] at hslot
  have hpos : 0 < (s.inode i).ref := by
    have hcount := hslot.count
    rw [Multiset.card_cons] at hcount
    omega
  refine h.of_local hpos rfl hdev rfl (fun _ _ => rfl) (fun _ _ => rfl) ?_ rfl ?_ htyped ?_
  · intro j hj
    rw [hput, atSlot_cons_ne hj, atSlot_cons_ne hj]
  · rw [atSlot_cons_self]
    exact hslot.put_step hk hk' href hlock hok hlive
  · intro hmem
    obtain ⟨htype, hnlink, hlate⟩ := hchosen hmem
    obtain ⟨hheld, hothers⟩ := (h.chosen _ hmem).2.2 i rfl
    rw [hput, atSlot_cons_self, Multiset.forall_mem_cons] at hothers
    refine ⟨htype, hnlink, hheld, ?_⟩
    rw [atSlot_cons_self]
    exact Multiset.forall_mem_cons.2 ⟨hlate, hothers.2⟩

/-- An `ialloc` that has chosen a dinode excludes an `iput` that has not marked it. -/
theorem not_chosen_of_early {k : PutPos} {rest : Multiset (Slot × PutPos)}
    (hput : s.puts = (i, k) ::ₘ rest) (hearly : k.late = false) :
    AllocPos.chosen (s.key i) ∉ s.allocs := by
  intro hmem
  have hlate := ((h.chosen _ hmem).2.2 i rfl).2
  rw [hput, atSlot_cons_self, Multiset.forall_mem_cons, hearly] at hlate
  cases hlate.1

/-- One more reference to an entry. -/
theorem dup (href : 0 < (s.inode i).ref) (htype : (s.disk (s.key i)).type ≠ 0)
    (hlate : ∀ p ∈ atSlot s.puts i, p.late = true) (hnot : AllocPos.chosen (s.key i) ∉ s.allocs) :
    ItInv (s.dup i) := by
  refine h.of_local href rfl rfl (update_eq_self _ _).symm ?_ (fun _ _ => rfl) (fun _ _ => rfl) rfl
    ?_ (h.typed _) ?_
  · intro j hj
    exact Multiset.count_cons_of_ne hj s.held
  · simpa using (h.slots i).dup href htype hlate
  · exact fun hmem => absurd hmem hnot

/-- An empty entry for an inode that is not in the table. -/
theorem recycle {k : Key} (hempty : (s.inode i).ref = 0)
    (hnone : ∀ j, 0 < (s.inode j).ref → s.key j ≠ k) (htype : (s.disk k).type ≠ 0)
    (hnot : AllocPos.chosen k ∉ s.allocs) : ItInv (s.recycle k i) := by
  have hself : (s.recycle k i).key i = k := by simp [ItState.key]
  have hother : ∀ j, j ≠ i → (s.recycle k i).inode j = s.inode j := fun j hj =>
    update_of_ne hj _ s.inode
  have hkeys : ∀ j, j ≠ i → (s.recycle k i).key j = s.key j := by
    intro j hj
    unfold ItState.key
    rw [hother j hj]
  have hcounts : ∀ j, j ≠ i → (s.recycle k i).held.count j = s.held.count j := fun j hj =>
    Multiset.count_cons_of_ne hj s.held
  -- nothing is on an empty entry
  have hslot := h.slots i
  unfold ItState.SlotInv at hslot
  obtain ⟨hheld, hus, hps⟩ := hslot.of_ref_zero hempty
  constructor
  · intro j
    by_cases e : j = i
    · subst e
      unfold ItState.SlotInv
      rw [hself]
      refine ⟨?_, ?_, ?_, ?_, ?_, ?_, ?_⟩
      · simp [hheld, hps]
      · simpa using hslot.lockOne
      · simp [hus]
      · simp
      · simp [hus]
      · simp [hps]
      · exact fun _ => htype
    · unfold ItState.SlotInv
      rw [hkeys j e, hother j e, hcounts j e]
      exact h.slots j
  · intro j l hj hl hjl
    by_cases ej : j = i
    · by_cases el : l = i
      · rw [ej, el]
      · rw [hother l el] at hl
        rw [ej, hself, hkeys l el] at hjl
        exact absurd hjl.symm (hnone l hl)
    by_cases el : l = i
    · rw [hother j ej] at hj
      rw [el, hself, hkeys j ej] at hjl
      exact absurd hjl (hnone j hj)
    rw [hother j ej] at hj
    rw [hother l el] at hl
    rw [hkeys j ej, hkeys l el] at hjl
    exact h.unique j l hj hl hjl
  · exact h.typed
  · intro k' hk'
    obtain ⟨htype', hnlink', hon⟩ := h.chosen k' hk'
    refine ⟨htype', hnlink', ?_⟩
    intro j hj
    by_cases e : j = i
    · rw [e, hself] at hj
      exact absurd (hj ▸ hk') hnot
    rw [hkeys j e] at hj
    rw [hcounts j e]
    exact hon j hj
  · exact h.chosenOne
  · exact h.scans

end

end ItInv

variable {s : ItState}

theorem lookup_eq_some {k : Key} {i : Slot} (h : s.lookup k = some i) :
    0 < (s.inode i).ref ∧ s.key i = k := by
  have hfound := List.find?_some h
  simpa using hfound

theorem lookup_eq_none {k : Key} (h : s.lookup k = none) (j : Slot)
    (hj : 0 < (s.inode j).ref) : s.key j ≠ k := by
  have hno := List.find?_eq_none.1 h j (List.mem_finRange j)
  intro e
  simp [hj, e] at hno

theorem empty_eq_some {i : Slot} (h : s.empty = some i) : (s.inode i).ref = 0 := by
  have hfound := List.find?_some h
  simpa using hfound

namespace ItInv

variable {s s' : ItState} {i : Slot}

theorem of_panic (h : ItInv s) (p : Option ItPanic) : ItInv { s with panic := p } :=
  ⟨h.slots, h.unique, h.typed, h.chosen, h.chosenOne, h.scans⟩

/-- **`iget`** of an allocated inode that no `iput` is about to free. -/
theorem iget (h : ItInv s) {k : Key} (htype : (s.disk k).type ≠ 0)
    (hnot : AllocPos.chosen k ∉ s.allocs)
    (hlate : ∀ i, s.key i = k → ∀ p ∈ atSlot s.puts i, p.late = true) : ItInv (s.iget k) := by
  unfold ItState.iget
  cases hlook : s.lookup k with
  | some i =>
    obtain ⟨href, hkey⟩ := lookup_eq_some hlook
    exact h.dup href (hkey ▸ htype) (hlate i hkey) (hkey ▸ hnot)
  | none =>
    cases hempty : s.empty with
    | some i => exact h.recycle (empty_eq_some hempty) (lookup_eq_none hlook) htype hnot
    | none => exact h.of_panic _

/-- What callers know about an inode they call `iget` for is enough. -/
theorem mayGet (h : ItInv s) {k : Key} (hmay : s.MayGet k) :
    (s.disk k).type ≠ 0 ∧ AllocPos.chosen k ∉ s.allocs ∧
      ∀ i, s.key i = k → ∀ p ∈ atSlot s.puts i, p.late = true := by
  rcases hmay with hlinks | ⟨j, href, rfl, hvalid, hlinks⟩ | ⟨j, hheld, rfl⟩
  · refine ⟨?_, ?_, ?_⟩
    · intro htype
      rw [h.typed k htype] at hlinks
      exact absurd hlinks (by decide)
    · intro hmem
      rw [(h.chosen k hmem).2.1] at hlinks
      exact absurd hlinks (by decide)
    · rintro i rfl p hp
      by_contra hn
      rw [((h.slots i).of_early hp (by simpa using hn)).2.2.2.1] at hlinks
      exact absurd hlinks (by decide)
  · have hnlink : (s.inode j).d.nlink ≠ 0 := by
      intro e
      rw [e] at hlinks
      exact absurd hlinks (by decide)
    obtain ⟨htype, hsame⟩ := (h.slots j).type_of_linked href hvalid hnlink
    refine ⟨htype, ?_, ?_⟩
    · intro hmem
      obtain ⟨_, hzero, hon⟩ := h.chosen _ hmem
      rw [← hsame (hon j rfl).1] at hzero
      exact hnlink hzero
    · intro i hi p hp
      by_contra hn
      have hearly := (h.slots i).of_early hp (by simpa using hn)
      have e : i = j := h.unique i j (by omega) href hi
      subst e
      exact hnlink hearly.2.2.1
  · refine ⟨(h.slots j).alive (Multiset.count_pos.2 hheld), h.not_chosen_of_held hheld, ?_⟩
    intro i hi p hp
    by_contra hn
    have hearly := (h.slots i).of_early hp (by simpa using hn)
    have e : i = j := h.unique i j (by omega) (h.ref_pos hheld) hi
    subst e
    have hpos := Multiset.count_pos.2 hheld
    omega

/-- A call of `ialloc` goes on or ends. -/
theorem of_allocs (h : ItInv s) {allocs : Multiset AllocPos}
    (hchosen : ∀ k, allocs.count (.chosen k) ≤ s.allocs.count (.chosen k))
    (hscans : ∀ dev type inum, AllocPos.scan dev type inum ∈ allocs → type ≠ 0) :
    ItInv { s with allocs := allocs } := by
  refine ⟨h.slots, h.unique, h.typed, ?_, ?_, hscans⟩
  · intro k hk
    apply h.chosen k
    have hpos := Multiset.count_pos.2 hk
    exact Multiset.count_pos.1 (hpos.trans_le (hchosen k))
  · intro k
    exact (hchosen k).trans (h.chosenOne k)

/-- `ialloc` marks a free dinode. -/
theorem mark (h : ItInv s) {dev inum : Nat} {type : Int16} {rest : Multiset AllocPos}
    (halloc : s.allocs = .scan dev type inum ::ₘ rest) (hfree : (s.disk (dev, inum)).type = 0) :
    ItInv { s with
      disk := update s.disk (dev, inum) { Dinode.zero with type := type }
      allocs := .chosen (dev, inum) ::ₘ rest } := by
  have hmem : ∀ a ∈ rest, a ∈ s.allocs := by
    intro a ha
    rw [halloc]
    exact Multiset.mem_cons_of_mem ha
  have htype : type ≠ 0 := by
    apply h.scans dev type inum
    rw [halloc]
    exact Multiset.mem_cons_self _ _
  have hnot : AllocPos.chosen (dev, inum) ∉ s.allocs := fun hm =>
    (h.chosen _ hm).1 hfree
  constructor
  · intro i
    have hold := h.slots i
    unfold ItState.SlotInv at hold ⊢
    by_cases e : s.key i = (dev, inum)
    · rw [e] at hold
      exact (hold.mark hfree _).1
    have hsame : update s.disk (dev, inum) { Dinode.zero with type := type } (s.key i) =
        s.disk (s.key i) := update_of_ne e _ s.disk
    change SlotOk _ (update s.disk _ _ (s.key i)) _ _ _
    rw [hsame]
    exact hold
  · exact h.unique
  · intro k hk
    by_cases e : k = (dev, inum)
    · subst e
      simp [htype] at hk
    · simp only [update_of_ne e] at hk ⊢
      exact h.typed k hk
  · intro k hk
    by_cases e : k = (dev, inum)
    · subst e
      refine ⟨by simpa using htype, by simp [Dinode.zero], ?_⟩
      intro i hi
      have hold := h.slots i
      unfold ItState.SlotInv at hold
      rw [show s.key i = (dev, inum) from hi] at hold
      exact (hold.mark hfree Dinode.zero).2
    have hk' : AllocPos.chosen k ∈ s.allocs := by
      rcases Multiset.mem_cons.1 hk with e' | hk
      · cases e'
        exact absurd rfl e
      · exact hmem _ hk
    simp only [update_of_ne e]
    exact h.chosen k hk'
  · intro k
    by_cases e : k = (dev, inum)
    · subst e
      have hzero : rest.count (.chosen (dev, inum)) = 0 := by
        apply Multiset.count_eq_zero.2
        exact fun hm => hnot (hmem _ hm)
      simp [hzero]
    have hone := h.chosenOne k
    rw [halloc, Multiset.count_cons_of_ne (by simp)] at hone
    rw [Multiset.count_cons_of_ne (by simpa using e)]
    exact hone
  · intro dev' type' inum' hm
    rcases Multiset.mem_cons.1 hm with e | hm
    · cases e
    · exact h.scans dev' type' inum' (hmem _ hm)

end ItInv

end Kus.Itable
