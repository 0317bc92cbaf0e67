import KusOs.DiskDriver

/-!
# Descriptors and chains of the disk driver

* `alloc3_desc_cases`, `free_chain_eq` — what the descriptor functions do;
* `Linked` — the chain of a formatted request;
* `Chains` — the descriptors of the requests and the `free` map;
* `Rings` — every request that was made available is in one place: the `avail`
  ring, the device, the `used` ring, or processed;
* `DiskOk` — the invariant of the driver.
-/

namespace Kus.Virtio

open Function Transition

variable {T Buf : Type}

attribute [local simp] Disk.format

/-- The descriptors of a chain. -/
def Idx.toList (x : Idx) : List (Fin NUM) := [x.i0, x.i1, x.i2]

/-! ### Descriptors -/

section Descriptors

variable {d d' : Disk Buf} {i : Fin NUM} {x : Idx}

theorem alloc_desc_some (h : alloc_desc d = some (i, d')) :
    d.free i = true ∧ d' = { d with free := update d.free i false } := by
  unfold alloc_desc at h
  obtain ⟨j, hj, heq⟩ := Option.map_eq_some_iff.1 h
  obtain ⟨rfl, rfl⟩ := Prod.mk.inj heq
  exact ⟨List.find?_some hj, rfl⟩

/-- The descriptor `i` is given back. -/
def Disk.release (d : Disk Buf) (i : Fin NUM) : Disk Buf :=
  { d with
    desc := update d.desc i .zero
    free := update d.free i true }

theorem free_desc_run (h : d.free i = false) : free_desc i d = .ok (d.release i) := by
  unfold free_desc
  rw [dif_pos i.isLt]
  simp [h, Disk.release, pure, Except.pure]

/-- The disk after a failed search: descriptors that are free may be cleared. -/
structure Disk.Same (d d' : Disk Buf) : Prop where
  free : d'.free = d.free
  desc : ∀ i, d.free i = false → d'.desc i = d.desc i
  avail : d'.avail = d.avail
  used : d'.used = d.used
  used_idx : d'.used_idx = d.used_idx
  info : d'.info = d.info

/-- The disk after a search that found the chain `x`. -/
def Disk.claim (d : Disk Buf) (x : Idx) : Disk Buf :=
  { d with
    free := update (update (update d.free x.i0 false) x.i1 false)
      x.i2 false }

/-- **`alloc3_desc`** never panics: it finds three distinct free descriptors, or
leaves the `free` map as it was. -/
theorem alloc3_desc_cases (d : Disk Buf) :
    (∃ x, alloc3_desc d = .ok (some x, d.claim x) ∧ x.toList.Nodup ∧
      ∀ i ∈ x.toList, d.free i = true) ∨
    ∃ d', alloc3_desc d = .ok (none, d') ∧ d.Same d' := by
  unfold alloc3_desc
  cases h0 : alloc_desc d with
  | none => exact .inr ⟨d, rfl, rfl, fun _ _ => rfl, rfl, rfl, rfl, rfl⟩
  | some r0 =>
    obtain ⟨i0, d0⟩ := r0
    obtain ⟨hfree0, hd0⟩ := alloc_desc_some h0
    have hheld0 : d0.free i0 = false := by rw [hd0]; simp
    simp only
    cases h1 : alloc_desc d0 with
    | none =>
      right
      refine ⟨d0.release i0, by simp only [free_desc_run hheld0]; rfl, ?_⟩
      constructor
      · rw [hd0]
        simp [Disk.release, ← hfree0]
      · intro i hi
        have hne : i ≠ i0 := by
          rintro rfl
          rw [hfree0] at hi
          cases hi
        rw [hd0]
        simp [Disk.release, hne]
      all_goals rw [hd0]; rfl
    | some r1 =>
      obtain ⟨i1, d1⟩ := r1
      obtain ⟨hfree1, hd1⟩ := alloc_desc_some h1
      have hne1 : i1 ≠ i0 := by
        rintro rfl
        rw [hheld0] at hfree1
        cases hfree1
      have hfree1' : d.free i1 = true := by
        rw [hd0] at hfree1
        simpa [hne1] using hfree1
      have hheld10 : d1.free i0 = false := by
        rw [hd1]
        simpa [Ne.symm hne1] using hheld0
      have hheld11 : d1.free i1 = false := by rw [hd1]; simp
      simp only
      cases h2 : alloc_desc d1 with
      | none =>
        right
        have hheld1 : (d1.release i0).free i1 = false := by
          simpa [Disk.release, hne1] using hheld11
        refine ⟨(d1.release i0).release i1, ?_, ?_⟩
        · simp only [free_desc_run hheld10, bind, Except.bind, free_desc_run hheld1]
          rfl
        · constructor
          · rw [hd1, hd0]
            funext i
            by_cases e1 : i = i1
            · simp [Disk.release, e1, hfree1']
            by_cases e0 : i = i0
            · simp [Disk.release, e0, Ne.symm hne1, hfree0]
            · simp [Disk.release, e1, e0]
          · intro i hi
            have e0 : i ≠ i0 := by
              rintro rfl
              rw [hfree0] at hi
              cases hi
            have e1 : i ≠ i1 := by
              rintro rfl
              rw [hfree1'] at hi
              cases hi
            rw [hd1, hd0]
            simp [Disk.release, e0, e1]
          all_goals rw [hd1, hd0]; rfl
      | some r2 =>
        obtain ⟨i2, d2⟩ := r2
        obtain ⟨hfree2, hd2⟩ := alloc_desc_some h2
        have hne20 : i2 ≠ i0 := by
          rintro rfl
          rw [hheld10] at hfree2
          cases hfree2
        have hne21 : i2 ≠ i1 := by
          rintro rfl
          rw [hheld11] at hfree2
          cases hfree2
        have hfree2' : d.free i2 = true := by
          rw [hd1, hd0] at hfree2
          simpa [hne20, hne21] using hfree2
        left
        refine ⟨⟨i0, i1, i2⟩, ?_, ?_, ?_⟩
        · rw [hd2, hd1, hd0]
          rfl
        · simp [Idx.toList, Ne.symm hne1, Ne.symm hne20, Ne.symm hne21]
        · intro i hi
          simp only [Idx.toList, List.mem_cons, List.not_mem_nil, or_false] at hi
          rcases hi with rfl | rfl | rfl
          · exact hfree0
          · exact hfree1'
          · exact hfree2'

/-- The chain of a formatted request: three descriptors, the last one without a
successor and with the address of the request's status. -/
structure Linked (d : Disk Buf) (b : Buf) (x : Idx) : Prop where
  flags0 : (d.desc x.i0).flags &&& VRING_DESC_F_NEXT ≠ 0
  next0 : (d.desc x.i0).next = x.i1
  flags1 : (d.desc x.i1).flags &&& VRING_DESC_F_NEXT ≠ 0
  next1 : (d.desc x.i1).next = x.i2
  flags2 : (d.desc x.i2).flags &&& VRING_DESC_F_NEXT = 0
  status : (d.desc x.i2).addr = .status x.i0
  buf : (d.info x.i0).b = some b

/-- The disk with the chain `x` given back. -/
def Disk.freed (d : Disk Buf) (x : Idx) : Disk Buf :=
  ((d.release x.i0).release x.i1).release x.i2

/-- **`free_chain`** on a chain in use is over after three rounds and gives back its
three descriptors. -/
theorem free_chain_eq (hlink0 : (d.desc x.i0).flags &&& VRING_DESC_F_NEXT ≠ 0 ∧
      (d.desc x.i0).next = x.i1)
    (hlink1 : (d.desc x.i1).flags &&& VRING_DESC_F_NEXT ≠ 0 ∧ (d.desc x.i1).next = x.i2)
    (hlast : (d.desc x.i2).flags &&& VRING_DESC_F_NEXT = 0)
    (hnd : x.toList.Nodup) (hheld : ∀ i ∈ x.toList, d.free i = false) (n : Nat) :
    free_chain n x.i0 d = if n < 3 then none else some (.ok (d.freed x)) := by
  simp only [Idx.toList, List.nodup_cons, List.mem_cons, List.not_mem_nil, or_false, not_or,
    not_false_eq_true, List.nodup_nil, and_true] at hnd
  obtain ⟨⟨h01, h02⟩, h12⟩ := hnd
  have hheld0 : d.free x.i0 = false := hheld _ (by simp [Idx.toList])
  have hheld1 : (d.release x.i0).free x.i1 = false := by
    simpa [Disk.release, Ne.symm h01] using hheld x.i1 (by simp [Idx.toList])
  have hheld2 : ((d.release x.i0).release x.i1).free x.i2 = false := by
    simpa [Disk.release, Ne.symm h02, Ne.symm h12] using hheld x.i2 (by simp [Idx.toList])
  have hdesc1 : (d.release x.i0).desc x.i1 = d.desc x.i1 := by
    simp [Disk.release, Ne.symm h01]
  have hdesc2 : ((d.release x.i0).release x.i1).desc x.i2 = d.desc x.i2 := by
    simp [Disk.release, Ne.symm h02, Ne.symm h12]
  rcases n with _ | _ | _ | n
  · rfl
  · simp [free_chain, free_desc_run hheld0, hlink0.1]
  · simp [free_chain, free_desc_run hheld0, hlink0.1, hlink0.2, free_desc_run hheld1, hdesc1,
      hlink1.1]
  · simp [free_chain, free_desc_run hheld0, hlink0.1, hlink0.2, free_desc_run hheld1, hdesc1,
      hlink1.1, hlink1.2, free_desc_run hheld2, hdesc2, hlast, Disk.freed]

end Descriptors

/-! ### Where a request is -/

namespace Phase

variable {ph : Phase Buf}

/-- The descriptors of the request. -/
def idx : Phase Buf → Option Idx
  | got _ _ x | formatted _ x | ringed _ x | test _ x | asleep _ x => some x
  | out | enter .. | search .. => none

/-- The buffer of the call. -/
def buf : Phase Buf → Option Buf
  | enter b _ | search b _ | got b _ _ => some b
  | formatted b _ | ringed b _ | test b _ | asleep b _ => some b
  | out => none

/-- The thread has `disk.vdisk_lock`. -/
def locked : Phase Buf → Bool
  | search .. | got .. | formatted .. | ringed .. | test .. => true
  | out | enter .. | asleep .. => false

/-- A request whose chain is formatted. -/
def ready : Phase Buf → Option (Buf × Idx)
  | formatted b x | ringed b x | test b x | asleep b x => some (b, x)
  | out | enter .. | search .. | got .. => none

/-- A request that was made available to the device. -/
def sent : Phase Buf → Option (Buf × Idx)
  | test b x | asleep b x => some (b, x)
  | out | enter .. | search .. | got .. | formatted .. | ringed .. => none

theorem idx_of_ready {b : Buf} {x : Idx} (h : ph.ready = some (b, x)) : ph.idx = some x := by
  cases ph <;> simp_all [ready, idx]

theorem buf_of_ready {b : Buf} {x : Idx} (h : ph.ready = some (b, x)) : ph.buf = some b := by
  cases ph <;> simp_all [ready, buf]

theorem ready_of_sent {b : Buf} {x : Idx} (h : ph.sent = some (b, x)) : ph.ready = some (b, x) := by
  cases ph <;> simp_all [ready, sent]

end Phase

/-- The descriptors of the requests, and the `free` map as their complement. -/
structure Chains (idx : T → Option Idx) (free : Fin NUM → Bool) : Prop where
  nodup : ∀ t x, idx t = some x → x.toList.Nodup
  disjoint : ∀ t u x y i, idx t = some x → idx u = some y → i ∈ x.toList → i ∈ y.toList → t = u
  free_iff : ∀ i, free i = true ↔ ∀ t x, idx t = some x → i ∉ x.toList

namespace Chains

variable {idx : T → Option Idx} {free free' : Fin NUM → Bool} {t : T} {x : Idx} {i : Fin NUM}

theorem held (h : Chains idx free) (ht : idx t = some x) (hi : i ∈ x.toList) : free i = false := by
  by_contra hne
  rw [Bool.not_eq_false] at hne
  exact (h.free_iff i).1 hne t x ht hi

variable [DecidableEq T]

/-- A thread without a chain gets one of free descriptors. -/
theorem claim (h : Chains idx free) (ht : idx t = none) (hnd : x.toList.Nodup)
    (hfree : ∀ i ∈ x.toList, free i = true)
    (hfree' : ∀ i, free' i = true ↔ free i = true ∧ i ∉ x.toList) :
    Chains (update idx t (some x)) free' := by
  -- a free descriptor is in no other chain
  have hnew : ∀ u y i, idx u = some y → i ∈ y.toList → i ∉ x.toList := by
    intro u y i hu hi hx
    exact (h.free_iff i).1 (hfree i hx) u y hu hi
  have hcases : ∀ u y, update idx t (some x) u = some y →
      (u = t ∧ y = x) ∨ (u ≠ t ∧ idx u = some y) := by
    intro u y hu
    by_cases e : u = t
    · rw [e, update_self, Option.some.injEq] at hu
      exact .inl ⟨e, hu.symm⟩
    · rw [update_of_ne e] at hu
      exact .inr ⟨e, hu⟩
  constructor
  · intro u y hu
    rcases hcases u y hu with ⟨_, rfl⟩ | ⟨_, hu⟩
    · exact hnd
    · exact h.nodup u y hu
  · intro u v y z i hu hv hy hz
    rcases hcases u y hu with ⟨hut, rfl⟩ | ⟨_, hold⟩
    · rcases hcases v z hv with ⟨hvt, _⟩ | ⟨_, hold⟩
      · rw [hut, hvt]
      · exact absurd hy (hnew v z i hold hz)
    rcases hcases v z hv with ⟨_, rfl⟩ | ⟨_, hold'⟩
    · exact absurd hz (hnew u y i hold hy)
    · exact h.disjoint u v y z i hold hold' hy hz
  · intro i
    rw [hfree', h.free_iff]
    constructor
    · rintro ⟨hnone, hx⟩ u y hu
      rcases hcases u y hu with ⟨_, rfl⟩ | ⟨_, hu⟩
      · exact hx
      · exact hnone u y hu
    · intro hall
      refine ⟨?_, hall t x (update_self ..)⟩
      intro u y hu
      have hne : u ≠ t := by
        rintro rfl
        rw [ht] at hu
        cases hu
      exact hall u y (by rw [update_of_ne hne, hu])

/-- A thread gives its chain back. -/
theorem freed (h : Chains idx free) (ht : idx t = some x)
    (hfree' : ∀ i, free' i = true ↔ free i = true ∨ i ∈ x.toList) :
    Chains (update idx t none) free' := by
  have hold : ∀ u y, update idx t none u = some y → u ≠ t ∧ idx u = some y := by
    intro u y hu
    by_cases e : u = t
    · rw [e, update_self] at hu
      cases hu
    · rw [update_of_ne e] at hu
      exact ⟨e, hu⟩
  constructor
  · intro u y hu
    exact h.nodup u y (hold u y hu).2
  · intro u v y z i hu hv
    exact h.disjoint u v y z i (hold u y hu).2 (hold v z hv).2
  · intro i
    rw [hfree', h.free_iff]
    constructor
    · rintro (hnone | hx) u y hu hy
      · exact hnone u y (hold u y hu).2 hy
      · exact (hold u y hu).1 (h.disjoint u t y x i (hold u y hu).2 ht hy hx)
    · intro hall
      by_cases hx : i ∈ x.toList
      · exact .inr hx
      refine .inl ?_
      intro u y hu hy
      by_cases e : u = t
      · rw [e, ht, Option.some.injEq] at hu
        exact hx (hu ▸ hy)
      · exact hall u y (by rw [update_of_ne e, hu]) hy

end Chains

/-- A request that the handler has not processed, by the head of its chain. -/
def Outstanding (sent : T → Option (Buf × Idx)) (flag : Buf → Bool) (h : Nat) : Prop :=
  ∃ t b x, sent t = some (b, x) ∧ flag b = true ∧ (x.i0 : Nat) = h

theorem outstanding_congr {sent : T → Option (Buf × Idx)} {flag flag' : Buf → Bool}
    (h : ∀ t b x, sent t = some (b, x) → flag' b = flag b) (k : Nat) :
    Outstanding sent flag' k ↔ Outstanding sent flag k := by
  constructor
  · rintro ⟨t, b, x, ht, hb, heq⟩
    exact ⟨t, b, x, ht, (h t b x ht).symm.trans hb, heq⟩
  · rintro ⟨t, b, x, ht, hb, heq⟩
    exact ⟨t, b, x, ht, (h t b x ht).trans hb, heq⟩

/-- The rings and the device: `aq` is in the `avail` ring, `uq` in the `used` ring. -/
structure Rings (s : DiskState T Buf) (aq uq : List Nat) : Prop where
  avail : Ring.Holds (2 ^ 16) s.disk.avail.ring s.lastAvail.toNat s.disk.avail.idx.toNat aq
  used : Ring.Holds (2 ^ 16) s.disk.used.ring s.disk.used_idx.toNat s.disk.used.idx.toNat uq
  once : (aq ++ s.taken ++ uq).Nodup
  outstanding : ∀ h, h ∈ aq ++ s.taken ++ uq ↔
    Outstanding (fun t => (s.phase t).sent) s.flag h
  status : ∀ i : Fin NUM, (i : Nat) ∈ uq → (s.disk.info i).status = 0
  published : ∀ h, s.published h = s.completed h + (aq ++ s.taken).count h
  completed : ∀ h, s.completed h = s.processed h + uq.count h

/-- **The invariant of the driver.** -/
structure DiskOk (s : DiskState T Buf) (aq uq : List Nat) : Prop where
  lock : ∀ t, s.lock = some (.caller t) ↔ (s.phase t).locked = true
  bufs : ∀ t b, (s.phase t).buf = some b → s.bufLock b = some t
  chains : Chains (fun t => (s.phase t).idx) s.disk.free
  linked : ∀ t b x, (s.phase t).ready = some (b, x) → Linked s.disk b x
  raised : ∀ t b x, (s.phase t).ready = some (b, x) → (s.phase t).sent = none → s.flag b = true
  ringed : ∀ t b x, s.phase t = .ringed b x →
    s.disk.avail.ring (Ring.cell NUM s.disk.avail.idx.toNat) = x.i0
  rings : Rings s aq uq
  panic : s.panic = none

theorem num_dvd : NUM ∣ 2 ^ 16 := by decide

theorem num_lt : NUM < 2 ^ 16 := by decide

/-- Different numbers of descriptors are at most `NUM`. -/
theorem length_le_num {l : List Nat} (hnd : l.Nodup) (hlt : ∀ h ∈ l, h < NUM) : l.length ≤ NUM := by
  have hsub : l ⊆ List.range NUM := by
    intro h hh
    exact List.mem_range.2 (hlt h hh)
  have hle := (List.subperm_of_subset hnd hsub).length_le
  simpa using hle

namespace DiskOk

variable {s : DiskState T Buf} {aq uq : List Nat} {t u : T} {b c : Buf} {x y : Idx}

section

variable (h : DiskOk s aq uq)
include h

/-- Two threads work on different buffers. -/
theorem buf_inj (ht : (s.phase t).buf = some b) (hu : (s.phase u).buf = some b) : t = u := by
  have hlt := h.bufs t b ht
  rw [h.bufs u b hu, Option.some.injEq] at hlt
  exact hlt.symm

/-- Nobody else has the lock while `t` does. -/
theorem unlocked (ht : (s.phase t).locked = true) (hu : u ≠ t) : (s.phase u).locked = false := by
  have hlock := (h.lock t).2 ht
  by_contra hne
  rw [Bool.not_eq_false, ← h.lock u, hlock, Option.some.injEq, Holder.caller.injEq] at hne
  exact hu hne.symm

/-- Two requests have different heads. -/
theorem head_inj (ht : (s.phase t).idx = some x) (hu : (s.phase u).idx = some y)
    (heq : x.i0 = y.i0) : t = u :=
  h.chains.disjoint t u x y x.i0 ht hu (by simp [Idx.toList]) (by simp [Idx.toList, heq])

section

variable (ht : (s.phase t).idx = some x) (hu : u ≠ t) (hr : (s.phase u).ready = some (c, y))
include ht hu hr

/-- A descriptor of another request is not in the chain of `t`. -/
theorem foreign (i : Fin NUM) (hi : i ∈ y.toList) : i ∉ x.toList :=
  fun hx => hu (h.chains.disjoint u t y x i (Phase.idx_of_ready hr) ht hi hx)

theorem head_ne : y.i0 ≠ x.i0 :=
  fun heq => hu (h.head_inj (Phase.idx_of_ready hr) ht heq)

end

theorem outstanding_lt {k : Nat} (hk : k ∈ aq ++ s.taken ++ uq) : k < NUM := by
  obtain ⟨_, _, x, _, _, rfl⟩ := (h.rings.outstanding k).1 hk
  exact x.i0.isLt

/-- Before it is made available a request's head is in neither ring nor the device. -/
theorem head_fresh (ht : (s.phase t).idx = some x) (hsent : (s.phase t).sent = none) :
    (x.i0 : Nat) ∉ aq ++ s.taken ++ uq := by
  intro hmem
  obtain ⟨u, b, y, hu, _, heq⟩ := (h.rings.outstanding _).1 hmem
  have htu : t = u := h.head_inj ht (Phase.idx_of_ready (Phase.ready_of_sent hu)) (Fin.ext heq.symm)
  subst htu
  have hnone : (s.phase t).sent = some (b, y) := hu
  rw [hsent] at hnone
  cases hnone

/-- Setting the flag of one thread's buffer changes no other request. -/
theorem flag_other [DecidableEq Buf] (ht : (s.phase t).buf = some b) (hu : u ≠ t)
    (hr : (s.phase u).ready = some (c, y)) (v : Bool) : update s.flag b v c = s.flag c := by
  apply update_of_ne
  rintro rfl
  exact hu (h.buf_inj (Phase.buf_of_ready hr) ht)

/-- There is room in the `avail` ring for a request that is not in it. -/
theorem avail_room (ht : (s.phase t).idx = some x) (hsent : (s.phase t).sent = none) :
    aq.length < NUM := by
  have hnew := h.head_fresh ht hsent
  have hnd : ((x.i0 : Nat) :: aq).Nodup := by
    refine List.nodup_cons.2 ⟨fun hmem => hnew (by simp [hmem]), ?_⟩
    have honce := h.rings.once
    rw [List.append_assoc] at honce
    exact (List.nodup_append.1 honce).1
  have hle := length_le_num hnd (by
    intro k hk
    rcases List.mem_cons.1 hk with rfl | hk
    · exact x.i0.isLt
    · exact h.outstanding_lt (by simp [hk]))
  simp only [List.length_cons] at hle
  omega

end

end DiskOk

variable {d : Disk Buf} {x : Idx} {b : Buf}

theorem Linked.congr {d' : Disk Buf} (h : Linked d b x)
    (hdesc : ∀ i ∈ x.toList, d'.desc i = d.desc i) (hinfo : (d'.info x.i0).b = (d.info x.i0).b) :
    Linked d' b x := by
  have h0 := hdesc x.i0 (by simp [Idx.toList])
  have h1 := hdesc x.i1 (by simp [Idx.toList])
  have h2 := hdesc x.i2 (by simp [Idx.toList])
  constructor
  · rw [h0]; exact h.flags0
  · rw [h0]; exact h.next0
  · rw [h1]; exact h.flags1
  · rw [h1]; exact h.next1
  · rw [h2]; exact h.flags2
  · rw [h2]; exact h.status
  · rw [hinfo]; exact h.buf

theorem Disk.claim_free (i : Fin NUM) :
    (d.claim x).free i = true ↔ d.free i = true ∧ i ∉ x.toList := by
  simp only [Disk.claim, Idx.toList, update_apply, List.mem_cons, List.not_mem_nil,
    or_false, not_or]
  by_cases h0 : i = x.i0 <;> by_cases h1 : i = x.i1 <;> by_cases h2 : i = x.i2 <;>
    simp [h0, h1, h2]

theorem Disk.freed_free (i : Fin NUM) :
    (d.freed x).free i = true ↔ d.free i = true ∨ i ∈ x.toList := by
  simp only [Disk.freed, Disk.release, Idx.toList, update_apply, List.mem_cons,
    List.not_mem_nil, or_false]
  by_cases h0 : i = x.i0 <;> by_cases h1 : i = x.i1 <;> by_cases h2 : i = x.i2 <;>
    simp [h0, h1, h2]

theorem Disk.freed_desc {i : Fin NUM} (hi : i ∉ x.toList) : (d.freed x).desc i = d.desc i := by
  simp only [Idx.toList, List.mem_cons, List.not_mem_nil, or_false, not_or] at hi
  simp [Disk.freed, Disk.release, hi]

theorem Disk.format_desc {n : Nat} {write : Bool} {i : Fin NUM} (hi : i ∉ x.toList) :
    (d.format b n write x).desc i = d.desc i := by
  simp only [Idx.toList, List.mem_cons, List.not_mem_nil, or_false, not_or] at hi
  simp [hi]

/-- The chain that was formatted is linked. -/
theorem Disk.format_linked {n : Nat} {write : Bool} (hnd : x.toList.Nodup) :
    Linked (d.format b n write x) b x := by
  simp only [Idx.toList, List.nodup_cons, List.mem_cons, List.not_mem_nil, or_false, not_or,
    not_false_eq_true, List.nodup_nil, and_true] at hnd
  obtain ⟨⟨h01, h02⟩, h12⟩ := hnd
  constructor
  · simp [h01, h02, VRING_DESC_F_NEXT]
  · simp [h01, h02]
  · have hflags : ((d.format b n write x).desc x.i1).flags =
        (if write then 0 else VRING_DESC_F_WRITE) ||| VRING_DESC_F_NEXT := by
      simp [h12]
    rw [hflags]
    cases write <;> decide
  · simp [h12]
  · have hflags : ((d.format b n write x).desc x.i2).flags = VRING_DESC_F_WRITE := by
      simp
    rw [hflags]
    decide
  · simp
  · simp

/-- The device finds the status byte of the request at the end of its chain. -/
theorem Linked.statusAddr_eq (h : Linked d b x) : d.statusAddr x.i0 = .status x.i0 := by
  have h0 : d.descAt x.i0 = d.desc x.i0 := by simp [Disk.descAt]
  have h1 : d.descAt x.i1 = d.desc x.i1 := by simp [Disk.descAt]
  have h2 : d.descAt x.i2 = d.desc x.i2 := by simp [Disk.descAt]
  unfold Disk.statusAddr
  rw [h0, h.next0, h1, h.next1, h2, h.status]

end Kus.Virtio
