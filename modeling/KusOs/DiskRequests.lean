import KusOs.DiskChains

/-!
# Requests of the disk driver

* `DiskOk.move` — what a step of a caller has to show; `DiskOk.publish`,
  `DiskOk.testDone` and the others use it;
* `DiskOk.intrRound`, `DiskOk.take`, `DiskOk.complete` — the interrupt handler and
  the device;
* `DiskOk.step` — every step keeps the invariant;
* `disk_requests` — the protocol, over runs of any length.
-/

namespace Kus.Virtio

open Function Transition

variable {T Buf : Type}

attribute [local simp] Disk.storeStatus Disk.pushUsed

section Steps

variable [DecidableEq T] {s : DiskState T Buf} {aq uq : List Nat} {t : T} {ph : Phase Buf}
  {b : Buf} {x : Idx} {write : Bool} {d : Disk Buf} {lock : Option (Holder T)} {flag : Buf → Bool}

/-! ### Going on to another phase -/

/-- What is read off the phases changes at the thread that moves. -/
theorem goto_update {γ : Type} (f : Phase Buf → γ) :
    (fun u => f ((s.goto t ph).phase u)) = update (fun u => f (s.phase u)) t (f ph) := by
  funext u
  by_cases e : u = t
  · subst e
    simp
  · simp [e]

theorem goto_same {γ : Type} (f : Phase Buf → γ) (h : f ph = f (s.phase t)) :
    (fun u => f ((s.goto t ph).phase u)) = fun u => f (s.phase u) := by
  rw [goto_update, h]
  exact update_eq_self t fun u => f (s.phase u)

/-- A fact about every phase, after a thread has moved. -/
theorem goto_forall {P : T → Phase Buf → Prop} (hold : ∀ u, u ≠ t → P u (s.phase u))
    (hnew : P t ph) (u : T) : P u ((s.goto t ph).phase u) := by
  by_cases e : u = t
  · subst e
    simpa using hnew
  · simpa [e] using hold u e

/-- What a thread in the phase `ph` relies on. -/
structure Fits (d : Disk Buf) (flag : Buf → Bool) (ph : Phase Buf) : Prop where
  linked : ∀ b x, ph.ready = some (b, x) → Linked d b x
  raised : ∀ b x, ph.ready = some (b, x) → ph.sent = none → flag b = true
  ringed : ∀ b x, ph = .ringed b x → d.avail.ring (Ring.cell NUM d.avail.idx.toNat) = x.i0

omit [DecidableEq T] in
theorem DiskOk.fits (h : DiskOk s aq uq) (u : T) : Fits s.disk s.flag (s.phase u) :=
  ⟨h.linked u, h.raised u, h.ringed u⟩

/-- A thread without a request relies on nothing. -/
theorem Fits.of_idle (h : ph.ready = none) : Fits d flag ph := by
  constructor
  · intro b x hr
    rw [h] at hr
    cases hr
  · intro b x hr
    rw [h] at hr
    cases hr
  · intro b x hr
    rw [hr] at h
    cases h

/-- The request stays as it is while the disk and the flags change. -/
theorem Fits.mono {d' : Disk Buf} {flag' : Buf → Bool} (h : Fits d flag ph)
    (hlink : ∀ b x, ph.ready = some (b, x) → Linked d b x → Linked d' b x)
    (hflag : ∀ b x, ph.ready = some (b, x) → flag' b = flag b)
    (hringed : ∀ b x, ph = .ringed b x → d'.avail = d.avail) : Fits d' flag' ph := by
  constructor
  · intro b x hr
    exact hlink b x hr (h.linked b x hr)
  · intro b x hr hs
    rw [hflag b x hr]
    exact h.raised b x hr hs
  · intro b x hr
    rw [hringed b x hr]
    exact h.ringed b x hr

/-- The lock stays as it is. -/
theorem DiskOk.lock_keep (h : DiskOk s aq uq) (hself : ph.locked = (s.phase t).locked) (u : T) :
    s.lock = some (.caller u) ↔ ((s.goto t ph).phase u).locked = true := by
  apply goto_forall (P := fun u ph => s.lock = some (.caller u) ↔ ph.locked = true)
  · exact fun u _ => h.lock u
  · rw [hself]
    exact h.lock t

/-- The thread that moves drops the lock. -/
theorem DiskOk.lock_drop (h : DiskOk s aq uq) (hold : (s.phase t).locked = true)
    (hself : ph.locked = false) (u : T) :
    (none : Option (Holder T)) = some (.caller u) ↔ ((s.goto t ph).phase u).locked = true := by
  apply goto_forall (P := fun u ph => none = some (Holder.caller u) ↔ ph.locked = true)
  · intro u hu
    simp [h.unlocked hold hu]
  · simp [hself]

/-- The thread that moves takes the lock. -/
theorem DiskOk.lock_take (h : DiskOk s aq uq) (hfree : s.lock = none) (hself : ph.locked = true)
    (u : T) : some (Holder.caller t) = some (.caller u) ↔
      ((s.goto t ph).phase u).locked = true := by
  apply goto_forall (P := fun u ph => some (Holder.caller t) = some (.caller u) ↔ ph.locked = true)
  · intro u hu
    rw [← h.lock u, hfree]
    simp [Ne.symm hu]
  · simp [hself]

omit [DecidableEq T] in
theorem DiskOk.buf_same (h : DiskOk s aq uq) (hbuf : ph.buf = (s.phase t).buf) (b : Buf)
    (hb : ph.buf = some b) : s.bufLock b = some t :=
  h.bufs t b (hbuf ▸ hb)

theorem DiskOk.chains_same (h : DiskOk s aq uq) (hidx : ph.idx = (s.phase t).idx) :
    Chains (update (fun u => (s.phase u).idx) t ph.idx) s.disk.free := by
  rw [hidx, update_eq_self t fun u => (s.phase u).idx]
  exact h.chains

/-- A move that makes nothing available. -/
theorem Rings.goto (h : Rings s aq uq) (hsent : ph.sent = (s.phase t).sent)
    (havail : d.avail = s.disk.avail) (hused : d.used = s.disk.used ∧ d.used_idx = s.disk.used_idx)
    (hstatus : ∀ i : Fin NUM, (d.info i).status = (s.disk.info i).status) :
    Rings { s.goto t ph with disk := d, lock := lock } aq uq := by
  have hout := h.outstanding
  rw [← goto_same Phase.sent hsent] at hout
  refine ⟨?_, ?_, h.once, hout, ?_, h.published, h.completed⟩
  · simp only [havail]
    exact h.avail
  · simp only [hused]
    exact h.used
  · intro i hi
    exact (hstatus i).trans (h.status i hi)

section

variable (h : DiskOk s aq uq)
include h

/-- **Moves of one thread.**  The thread goes on to `ph`; the disk, the flags, the lock and
the count of what is available may change with it. -/
theorem DiskOk.move {published : Nat → Nat} {aq' : List Nat}
    (hlock : ∀ u, lock = some (.caller u) ↔ ((s.goto t ph).phase u).locked = true)
    (hbuf : ∀ b, ph.buf = some b → s.bufLock b = some t)
    (hchains : Chains (update (fun u => (s.phase u).idx) t ph.idx) d.free)
    (hothers : ∀ u, u ≠ t → Fits d flag (s.phase u)) (hself : Fits d flag ph)
    (hrings : Rings
      { s.goto t ph with disk := d, flag := flag, lock := lock, published := published } aq' uq) :
    DiskOk { s.goto t ph with disk := d, flag := flag, lock := lock, published := published }
      aq' uq := by
  have hfits := goto_forall (P := fun _ ph => Fits d flag ph) hothers hself
  constructor
  · exact hlock
  · exact goto_forall (P := fun u ph => ∀ b, ph.buf = some b → s.bufLock b = some u)
      (fun u _ => h.bufs u) hbuf
  · rw [← goto_update] at hchains
    exact hchains
  · exact fun u => (hfits u).linked
  · exact fun u => (hfits u).raised
  · exact fun u => (hfits u).ringed
  · exact hrings
  · exact h.panic

/-- **Quiet moves.**  The thread keeps its buffer and its request; only the lock
changes hands. -/
theorem DiskOk.quiet {ph₀ : Phase Buf} (hph : s.phase t = ph₀) (hbuf : ph.buf = ph₀.buf)
    (hidx : ph.idx = ph₀.idx) (hready : ph.ready = ph₀.ready) (hsent : ph.sent = ph₀.sent)
    (hringed : ∀ b x, ph ≠ .ringed b x)
    (hlock : ∀ u, lock = some (.caller u) ↔ ((s.goto t ph).phase u).locked = true) :
    DiskOk { s.goto t ph with lock := lock } aq uq := by
  subst hph
  apply h.move hlock (h.buf_same hbuf) (h.chains_same hidx) (fun u _ => h.fits u)
  · refine ⟨?_, ?_, fun b x hr => absurd hr (hringed b x)⟩
    · rw [hready]
      exact h.linked t
    · rw [hready, hsent]
      exact h.raised t
  · exact h.rings.goto hsent rfl ⟨rfl, rfl⟩ fun _ => rfl

theorem DiskOk.acquire (hph : s.phase t = .enter b write) (hlock : s.lock = none) :
    DiskOk { s.goto t (.search b write) with lock := some (.caller t) } aq uq :=
  h.quiet hph rfl rfl rfl rfl (by simp) (h.lock_take hlock rfl)

theorem DiskOk.wake (hph : s.phase t = .asleep b x) (hlock : s.lock = none) :
    DiskOk { s.goto t (.test b x) with lock := some (.caller t) } aq uq :=
  h.quiet hph rfl rfl rfl rfl (by simp) (h.lock_take hlock rfl)

theorem DiskOk.testSleep (hph : s.phase t = .test b x) :
    DiskOk { s.goto t (.asleep b x) with lock := none } aq uq :=
  h.quiet hph rfl rfl rfl rfl (by simp) (h.lock_drop (by rw [hph]; rfl) rfl)

/-! ### The steps of a caller -/

theorem DiskOk.call (hph : s.phase t = .out) (hown : s.bufLock b = some t) :
    DiskOk (s.goto t (.enter b write)) aq uq := by
  apply h.move (h.lock_keep (by rw [hph]; rfl))
  · intro c hc
    rw [← Option.some.inj hc]
    exact hown
  · exact h.chains_same (by rw [hph]; rfl)
  · exact fun u _ => h.fits u
  · exact .of_idle rfl
  · exact h.rings.goto (by rw [hph]; rfl) rfl ⟨rfl, rfl⟩ fun _ => rfl

/-- The descriptors were found. -/
theorem DiskOk.allocOk (hph : s.phase t = .search b write) (hnd : x.toList.Nodup)
    (hfree : ∀ i ∈ x.toList, s.disk.free i = true) :
    DiskOk { s.goto t (.got b write x) with disk := s.disk.claim x } aq uq := by
  apply h.move (h.lock_keep (by rw [hph]; rfl)) (h.buf_same (by rw [hph]; rfl))
  · exact h.chains.claim (by rw [hph]; rfl) hnd hfree Disk.claim_free
  · intro u _
    exact (h.fits u).mono (fun _ _ _ hl => hl.congr (fun _ _ => rfl) rfl) (fun _ _ _ => rfl)
      fun _ _ _ => rfl
  · exact .of_idle rfl
  · exact h.rings.goto (by rw [hph]; rfl) rfl ⟨rfl, rfl⟩ fun _ => rfl

/-- There were no three descriptors. -/
theorem DiskOk.allocSleep (hph : s.phase t = .search b write) (hsame : s.disk.Same d) :
    DiskOk { s.goto t (.enter b write) with disk := d, lock := none } aq uq := by
  apply h.move (h.lock_drop (by rw [hph]; rfl) rfl) (h.buf_same (by rw [hph]; rfl))
  · rw [hsame.free]
    exact h.chains_same (by rw [hph]; rfl)
  · intro u _
    refine (h.fits u).mono ?_ (fun _ _ _ => rfl) fun _ _ _ => hsame.avail
    intro c y hr hl
    apply hl.congr
    · intro i hi
      exact hsame.desc i (h.chains.held (Phase.idx_of_ready hr) hi)
    · rw [hsame.info]
  · exact .of_idle rfl
  · exact h.rings.goto (by rw [hph]; rfl) hsame.avail ⟨hsame.used, hsame.used_idx⟩
      fun i => by rw [hsame.info]

end

omit [DecidableEq T] in
/-- Nobody else writes the `avail` ring while `t` has the lock. -/
theorem DiskOk.not_ringed (h : DiskOk s aq uq) (ht : (s.phase t).locked = true) {u : T}
    (hu : u ≠ t) (c : Buf) (y : Idx) : s.phase u ≠ .ringed c y := by
  intro hr
  have hfree := h.unlocked ht hu
  rw [hr] at hfree
  cases hfree

/-- The entry of the ring is written; the device does not look at it yet. -/
theorem DiskOk.ring (h : DiskOk s aq uq) (hph : s.phase t = .formatted b x) :
    DiskOk { s.goto t (.ringed b x) with disk := s.disk.writeAvail x.i0 } aq uq := by
  have hidx : (s.phase t).idx = some x := by rw [hph]; rfl
  have hsent : (Phase.ringed b x).sent = (s.phase t).sent := by rw [hph]; rfl
  have hready : (Phase.ringed b x).ready = (s.phase t).ready := by rw [hph]; rfl
  have hroom := h.avail_room hidx (by rw [hph]; rfl)
  apply h.move (h.lock_keep (by rw [hph]; rfl)) (h.buf_same (by rw [hph]; rfl))
  · exact h.chains_same (by rw [hph]; rfl)
  · intro u hu
    exact (h.fits u).mono (fun _ _ _ hl => hl.congr (fun _ _ => rfl) rfl) (fun _ _ _ => rfl)
      fun c y hr => absurd hr (h.not_ringed (by rw [hph]; rfl) hu c y)
  · refine ⟨?_, ?_, ?_⟩
    · rw [hready]
      exact fun c y hr => (h.linked t c y hr).congr (fun _ _ => rfl) rfl
    · rw [hready, hsent]
      exact h.raised t
    · intro c y hr
      cases hr
      exact update_self ..
  · have hout := h.rings.outstanding
    rw [← goto_same Phase.sent hsent] at hout
    exact ⟨h.rings.avail.store num_dvd hroom _, h.rings.used, h.rings.once, hout, h.rings.status,
      h.rings.published, h.rings.completed⟩

/-- **Publishing.**  With `avail->idx` counted up the request is the device's. -/
theorem DiskOk.publish (h : DiskOk s aq uq) (hph : s.phase t = .ringed b x) :
    DiskOk { s.goto t (.test b x) with
      disk := s.disk.bumpAvail
      published := update s.published x.i0 (s.published x.i0 + 1) }
      (aq ++ [(x.i0 : Nat)]) uq := by
  have hidx : (s.phase t).idx = some x := by rw [hph]; rfl
  have hready : (Phase.test b x).ready = (s.phase t).ready := by rw [hph]; rfl
  have hnone : (s.phase t).sent = none := by rw [hph]; rfl
  have hflag : s.flag b = true := h.raised t b x (by rw [hph]; rfl) hnone
  have hroom := h.avail_room hidx hnone
  have hnew := h.head_fresh hidx hnone
  apply h.move (h.lock_keep (by rw [hph]; rfl)) (h.buf_same (by rw [hph]; rfl))
  · exact h.chains_same (by rw [hph]; rfl)
  · intro u hu
    exact (h.fits u).mono (fun _ _ _ hl => hl.congr (fun _ _ => rfl) rfl) (fun _ _ _ => rfl)
      fun c y hr => absurd hr (h.not_ringed (by rw [hph]; rfl) hu c y)
  · refine ⟨?_, (fun c y _ hs => nomatch hs), fun c y hr => nomatch hr⟩
    rw [hready]
    exact fun c y hr => (h.linked t c y hr).congr (fun _ _ => rfl) rfl
  · constructor
    · have hnext := h.rings.avail.advance num_dvd hroom
      rw [h.ringed t b x hph, ← UInt16.toNat_one, ← UInt16.toNat_add] at hnext
      exact hnext
    · exact h.rings.used
    · have hperm : (aq ++ [(x.i0 : Nat)] ++ s.taken ++ uq).Perm
          ((x.i0 : Nat) :: (aq ++ s.taken ++ uq)) := by
        simp only [List.append_assoc, List.singleton_append]
        exact List.perm_middle
      exact hperm.nodup_iff.2 (List.nodup_cons.2 ⟨hnew, h.rings.once⟩)
    · intro k
      have hmem : k ∈ aq ++ [(x.i0 : Nat)] ++ s.taken ++ uq ↔
          k = x.i0 ∨ k ∈ aq ++ s.taken ++ uq := by
        simp only [List.mem_append, List.mem_singleton]
        tauto
      apply hmem.trans
      rw [h.rings.outstanding k]
      constructor
      · rintro (rfl | ⟨u, c, y, hu, hc, heq⟩)
        · exact ⟨t, b, x, by simp [Phase.sent], hflag, rfl⟩
        · have hne : u ≠ t := by
            rintro rfl
            cases hnone.symm.trans hu
          exact ⟨u, c, y, by simpa [hne] using hu, hc, heq⟩
      · rintro ⟨u, c, y, hu, hc, heq⟩
        by_cases e : u = t
        · subst e
          have hself : (Phase.test b x).sent = some (c, y) := by simpa using hu
          obtain ⟨_, rfl⟩ := Prod.mk.inj (Option.some.inj hself)
          exact .inl heq.symm
        · exact .inr ⟨u, c, y, by simpa [e] using hu, hc, heq⟩
    · exact h.rings.status
    · intro k
      have hold := h.rings.published k
      by_cases e : k = x.i0
      · subst e
        simp only [update_self, List.count_append, List.count_singleton_self]
        rw [List.count_append] at hold
        change s.published x.i0 + 1 =
          s.completed x.i0 + (aq.count ↑x.i0 + 1 + s.taken.count ↑x.i0)
        omega
      simp only [update_of_ne e]
      rw [List.count_append] at hold
      have hzero : List.count k [(x.i0 : Nat)] = 0 := by
        simp [Ne.symm e]
      rw [List.count_append, List.count_append, hzero]
      exact hold
    · exact h.rings.completed

/-- The chain goes back to the free descriptors. -/
theorem DiskOk.testDone (h : DiskOk s aq uq) (hph : s.phase t = .test b x)
    (hflag : s.flag b = false) :
    DiskOk { s.goto t .out with disk := (s.disk.forget x.i0).freed x, lock := none } aq uq := by
  have hidx : (s.phase t).idx = some x := by rw [hph]; rfl
  have hsent : (s.phase t).sent = some (b, x) := by rw [hph]; rfl
  apply h.move (h.lock_drop (by rw [hph]; rfl) rfl)
  · intro c hc
    cases hc
  · exact h.chains.freed hidx Disk.freed_free
  · intro u hu
    refine (h.fits u).mono ?_ (fun _ _ _ => rfl) fun _ _ _ => rfl
    intro c y hr hl
    apply hl.congr
    · intro i hi
      exact Disk.freed_desc (h.foreign hidx hu hr i hi)
    · simp [Disk.freed, Disk.release, Disk.forget, h.head_ne hidx hu hr]
  · exact .of_idle rfl
  · refine ⟨h.rings.avail, h.rings.used, h.rings.once, ?_, ?_, h.rings.published,
      h.rings.completed⟩
    · intro k
      refine (h.rings.outstanding k).trans ?_
      constructor
      · rintro ⟨u, c, y, hu, hc, heq⟩
        have hne : u ≠ t := by
          rintro rfl
          obtain ⟨rfl, _⟩ := Prod.mk.inj (Option.some.inj (hsent.symm.trans hu))
          exact Bool.false_ne_true (hflag.symm.trans hc)
        exact ⟨u, c, y, by simpa [hne] using hu, hc, heq⟩
      · rintro ⟨u, c, y, hu, hc, heq⟩
        have hne : u ≠ t := by
          rintro rfl
          simp [Phase.sent] at hu
        exact ⟨u, c, y, by simpa [hne] using hu, hc, heq⟩
    · intro i hi
      have hold := h.rings.status i hi
      by_cases e : i = x.i0
      · subst e
        simpa [Disk.freed, Disk.release, Disk.forget] using hold
      · simpa [Disk.freed, Disk.release, Disk.forget, e] using hold

variable [DecidableEq Buf]

theorem DiskOk.format (h : DiskOk s aq uq) (hph : s.phase t = .got b write x) :
    DiskOk { s.goto t (.formatted b x) with
      disk := s.disk.format b (s.blockno b) write x
      flag := update s.flag b true } aq uq := by
  have hidx : (s.phase t).idx = some x := by rw [hph]; rfl
  have hbuf : (s.phase t).buf = some b := by rw [hph]; rfl
  have hsent : (Phase.formatted b x).sent = (s.phase t).sent := by rw [hph]; rfl
  have hhead : (x.i0 : Nat) ∉ aq ++ s.taken ++ uq := h.head_fresh hidx (by rw [hph]; rfl)
  apply h.move (h.lock_keep (by rw [hph]; rfl)) (h.buf_same (by rw [hph]; rfl))
  · exact h.chains_same (by rw [hph]; rfl)
  · intro u hu
    refine (h.fits u).mono ?_ (fun c y hr => h.flag_other hbuf hu hr true) fun _ _ _ => rfl
    intro c y hr hl
    apply hl.congr
    · intro i hi
      exact Disk.format_desc (h.foreign hidx hu hr i hi)
    · simp [Disk.format, h.head_ne hidx hu hr]
  · refine ⟨?_, ?_, fun c y hr => nomatch hr⟩
    · intro c y hr
      obtain ⟨rfl, rfl⟩ := Prod.mk.inj (Option.some.inj hr)
      exact Disk.format_linked (h.chains.nodup t x hidx)
    · intro c y hr _
      obtain ⟨rfl, rfl⟩ := Prod.mk.inj (Option.some.inj hr)
      exact update_self ..
  · have hout := h.rings.outstanding
    rw [← goto_same Phase.sent hsent] at hout
    refine ⟨h.rings.avail, h.rings.used, h.rings.once, ?_, ?_, h.rings.published, h.rings.completed⟩
    · intro k
      -- the flag that changes belongs to no request the device knows of
      have hflag : ∀ u c y, ((s.goto t (.formatted b x)).phase u).sent = some (c, y) →
          update s.flag b true c = s.flag c := by
        intro u c y hu
        have hold : (s.phase u).sent = some (c, y) := by
          have hfun := congrFun (goto_same Phase.sent hsent) u
          exact hfun.symm.trans hu
        have hne : u ≠ t := by
          rintro rfl
          rw [hph] at hold
          cases hold
        exact h.flag_other hbuf hne (Phase.ready_of_sent hold) true
      exact (hout k).trans (outstanding_congr hflag k).symm
    · intro i hi
      have hne : i ≠ x.i0 := by
        rintro rfl
        exact hhead (by simp [hi])
      simp only [Disk.format, update_of_ne hne]
      exact h.rings.status i hi

end Steps

/-! ### The interrupt handler -/

section Handler

variable {s : DiskState T Buf} {aq uq : List Nat}

/-- The handler takes and drops the lock while no caller has it. -/
theorem DiskOk.intrLock {lock : Option (Holder T)} (h : DiskOk s aq uq)
    (hold : ∀ t, s.lock ≠ some (.caller t)) (hnew : ∀ t, lock ≠ some (.caller t)) :
    DiskOk { s with lock := lock } aq uq := by
  refine ⟨?_, h.bufs, h.chains, h.linked, h.raised, h.ringed, ?_, h.panic⟩
  · intro t
    have hfree : (s.phase t).locked ≠ true := fun hl => hold t ((h.lock t).2 hl)
    exact ⟨fun hl => absurd hl (hnew t), fun hl => absurd hl hfree⟩
  · exact ⟨h.rings.avail, h.rings.used, h.rings.once, h.rings.outstanding, h.rings.status,
      h.rings.published, h.rings.completed⟩

/-- A completion that is not processed yet is that of a request. -/
theorem DiskOk.next_used (h : DiskOk s aq uq) (hmore : s.disk.used_idx ≠ s.disk.used.idx) :
    ∃ uq' t b x, uq = (x.i0 : Nat) :: uq' ∧ s.disk.nextUsed = x.i0 ∧
      (s.phase t).sent = some (b, x) ∧ s.flag b = true := by
  cases uq with
  | nil =>
    have heq := (h.rings.used.eq_nil_iff num_lt).2 rfl
    exact absurd (UInt16.toNat_inj.1 heq) hmore
  | cons k uq' =>
    have hk : k ∈ aq ++ s.taken ++ k :: uq' := by simp
    obtain ⟨t, b, x, ht, hb, rfl⟩ := (h.rings.outstanding k).1 hk
    exact ⟨uq', t, b, x, rfl, (h.rings.used.pop num_dvd).1, ht, hb⟩

variable [DecidableEq Buf]

/-- **One completion.**  The round clears the flag of the buffer of the request and
counts the completion off. -/
theorem DiskOk.intr_round_eq (h : DiskOk s aq uq) {uq' : List Nat} {t : T} {b : Buf} {x : Idx}
    (huq : uq = (x.i0 : Nat) :: uq') (hnext : s.disk.nextUsed = x.i0)
    (hsent : (s.phase t).sent = some (b, x)) :
    virtio_disk_intr_round s = { s with
      flag := update s.flag b false
      disk.used_idx := s.disk.used_idx + 1
      processed := update s.processed x.i0 (s.processed x.i0 + 1) } := by
  have hstatus := h.rings.status x.i0 (by rw [huq]; exact List.mem_cons_self)
  have hbuf := (h.linked t b x (Phase.ready_of_sent hsent)).buf
  unfold virtio_disk_intr_round
  simp only [hnext]
  rw [dif_pos x.i0.isLt]
  simp [hstatus, hbuf]

theorem DiskOk.intrRound (h : DiskOk s aq uq) {uq' : List Nat} {t : T} {b : Buf} {x : Idx}
    (huq : uq = (x.i0 : Nat) :: uq') (hsent : (s.phase t).sent = some (b, x))
    (hflag : s.flag b = true) :
    DiskOk { s with
      flag := update s.flag b false
      disk.used_idx := s.disk.used_idx + 1
      processed := update s.processed x.i0 (s.processed x.i0 + 1) } aq uq' := by
  subst huq
  have hready := Phase.ready_of_sent hsent
  have hbuf := Phase.buf_of_ready hready
  refine ⟨h.lock, h.bufs, h.chains, ?_, ?_, h.ringed, ?_, h.panic⟩
  · intro u c y hr
    exact (h.linked u c y hr).congr (fun _ _ => rfl) rfl
  · intro u c y hr hs
    have hne : u ≠ t := by
      rintro rfl
      rw [hsent] at hs
      cases hs
    simp only [h.flag_other hbuf hne hr]
    exact h.raised u c y hr hs
  · have hnd := h.rings.once
    have hperm : (aq ++ s.taken ++ (x.i0 : Nat) :: uq').Perm
        ((x.i0 : Nat) :: (aq ++ s.taken ++ uq')) := List.perm_middle
    obtain ⟨hnew, hnd'⟩ := List.nodup_cons.1 (hperm.nodup_iff.1 hnd)
    constructor
    · exact h.rings.avail
    · have hpop := (h.rings.used.pop num_dvd).2
      rw [← UInt16.toNat_one, ← UInt16.toNat_add] at hpop
      exact hpop
    · exact hnd'
    · intro k
      constructor
      · intro hk
        have hne : k ≠ x.i0 := by
          rintro rfl
          exact hnew hk
        obtain ⟨u, c, y, hu, hc, heq⟩ :=
          (h.rings.outstanding k).1 (hperm.mem_iff.2 (List.mem_cons_of_mem _ hk))
        have hut : u ≠ t := by
          rintro rfl
          obtain ⟨_, rfl⟩ := Prod.mk.inj (Option.some.inj (hsent.symm.trans hu))
          exact hne heq.symm
        exact ⟨u, c, y, hu, (h.flag_other hbuf hut (Phase.ready_of_sent hu) false).trans hc, heq⟩
      · rintro ⟨u, c, y, hu, hc, heq⟩
        have hcb : c ≠ b := by
          rintro rfl
          simp at hc
        have hc' : s.flag c = true := by simpa [hcb] using hc
        have hk := (h.rings.outstanding k).2 ⟨u, c, y, hu, hc', heq⟩
        rcases List.mem_cons.1 (hperm.mem_iff.1 hk) with rfl | hk
        · have hut : u = t := h.head_inj (Phase.idx_of_ready (Phase.ready_of_sent hu))
            (Phase.idx_of_ready hready) (Fin.ext heq)
          subst hut
          exact absurd (Prod.mk.inj (Option.some.inj (hsent.symm.trans hu))).1.symm hcb
        · exact hk
    · intro i hi
      exact h.rings.status i (List.mem_cons_of_mem _ hi)
    · exact h.rings.published
    · intro k
      have hold := h.rings.completed k
      by_cases e : k = x.i0
      · subst e
        rw [List.count_cons_self] at hold
        simp only [update_self]
        omega
      rw [List.count_cons_of_ne (Ne.symm e)] at hold
      simp only [update_of_ne e]
      exact hold

end Handler

/-! ### The device -/

section Device

variable {s : DiskState T Buf} {aq uq : List Nat}

/-- The device takes the oldest chain of the `avail` ring. -/
theorem DiskOk.take (h : DiskOk s aq uq) (hmore : s.lastAvail ≠ s.disk.avail.idx) :
    ∃ aq', DiskOk { s with
      taken := s.disk.avail.ring (Ring.cell NUM s.lastAvail.toNat) :: s.taken
      lastAvail := s.lastAvail + 1 } aq' uq := by
  cases aq with
  | nil =>
    have heq := (h.rings.avail.eq_nil_iff num_lt).2 rfl
    exact absurd (UInt16.toNat_inj.1 heq) hmore
  | cons k aq' =>
    obtain ⟨hhead, hpop⟩ := h.rings.avail.pop num_dvd
    rw [← UInt16.toNat_one, ← UInt16.toNat_add] at hpop
    have hperm : (aq' ++ k :: s.taken).Perm (k :: aq' ++ s.taken) := List.perm_middle
    refine ⟨aq', h.lock, h.bufs, h.chains, h.linked, h.raised, h.ringed, ?_, h.panic⟩
    rw [hhead]
    constructor
    · exact hpop
    · exact h.rings.used
    · exact (hperm.append_right uq).nodup_iff.2 h.rings.once
    · intro n
      exact (hperm.append_right uq).mem_iff.trans (h.rings.outstanding n)
    · exact h.rings.status
    · intro n
      rw [hperm.count_eq]
      exact h.rings.published n
    · exact h.rings.completed

/-- There is room in the `used` ring for a chain the device has. -/
theorem DiskOk.used_room (h : DiskOk s aq uq) {k : Nat} (hk : k ∈ s.taken) : uq.length < NUM := by
  have honce := h.rings.once
  rw [List.append_assoc] at honce
  obtain ⟨_, hnd, _⟩ := List.nodup_append.1 honce
  obtain ⟨_, huq, hdis⟩ := List.nodup_append.1 hnd
  have hle := length_le_num (l := k :: uq)
    (List.nodup_cons.2 ⟨fun hmem => hdis k hk k hmem rfl, huq⟩) (by
      intro n hn
      rcases List.mem_cons.1 hn with rfl | hn
      · exact h.outstanding_lt (by simp [hk])
      · exact h.outstanding_lt (by simp [hn]))
  simp only [List.length_cons] at hle
  omega

/-- The device completes a chain it has taken. -/
theorem DiskOk.complete (h : DiskOk s aq uq) {k : Nat} (hk : k ∈ s.taken) :
    DiskOk { s with
      disk := (s.disk.storeStatus (s.disk.statusAddr k)).pushUsed k
      taken := s.taken.erase k
      completed := update s.completed k (s.completed k + 1) } aq (uq ++ [k]) := by
  obtain ⟨t, b, x, ht, hb, rfl⟩ := (h.rings.outstanding k).1 (by simp [hk])
  have hlink := h.linked t b x (Phase.ready_of_sent ht)
  rw [hlink.statusAddr_eq]
  have htaken : s.taken.Perm ((x.i0 : Nat) :: s.taken.erase x.i0) := List.perm_cons_erase hk
  -- the chain moves from the device to the end of the ring
  have hperm : (aq ++ s.taken.erase x.i0 ++ (uq ++ [(x.i0 : Nat)])).Perm (aq ++ s.taken ++ uq) := by
    have hend : (uq ++ [(x.i0 : Nat)]).Perm ((x.i0 : Nat) :: uq) := List.perm_append_singleton _ _
    have hmid : (s.taken.erase x.i0 ++ (uq ++ [(x.i0 : Nat)])).Perm (s.taken ++ uq) := by
      have hback : (s.taken.erase x.i0 ++ (x.i0 : Nat) :: uq).Perm (s.taken ++ uq) :=
        List.perm_middle.trans (htaken.append_right uq).symm
      exact (hend.append_left _).trans hback
    simp only [List.append_assoc]
    exact hmid.append_left aq
  refine ⟨h.lock, h.bufs, h.chains, ?_, h.raised, h.ringed, ?_, h.panic⟩
  · intro u c y hr
    apply (h.linked u c y hr).congr
    · intro _ _
      rfl
    · by_cases e : y.i0 = x.i0
      · simp [e]
      · simp [e]
  · constructor
    · exact h.rings.avail
    · have hpush := h.rings.used.push num_dvd (h.used_room hk) (x.i0 : Nat)
      rw [← UInt16.toNat_one, ← UInt16.toNat_add] at hpush
      exact hpush
    · exact hperm.nodup_iff.2 h.rings.once
    · intro n
      exact hperm.mem_iff.trans (h.rings.outstanding n)
    · intro i hi
      by_cases e : i = x.i0
      · simp [e]
      have hold : (i : Nat) ∈ uq := by
        rcases List.mem_append.1 hi with hi | hi
        · exact hi
        · exact absurd (Fin.ext (List.mem_singleton.1 hi)) e
      simpa [e] using h.rings.status i hold
    · intro n
      have hold := h.rings.published n
      rw [List.count_append, htaken.count_eq] at hold
      rw [List.count_append]
      by_cases e : n = x.i0
      · subst e
        rw [List.count_cons_self] at hold
        simp only [update_self]
        omega
      rw [List.count_cons_of_ne (Ne.symm e)] at hold
      simp only [update_of_ne e]
      exact hold
    · intro n
      have hold := h.rings.completed n
      rw [List.count_append]
      by_cases e : n = x.i0
      · subst e
        simp only [update_self, List.count_singleton_self]
        omega
      have hzero : List.count n [(x.i0 : Nat)] = 0 := by simp [Ne.symm e]
      simp only [update_of_ne e, hzero]
      exact hold

end Device

/-! ### Runs -/

section Runs

variable {s s' : DiskState T Buf} {aq uq : List Nat}

/-- `free_chain` on the chain of a request that is done. -/
theorem DiskOk.free_chain_done (h : DiskOk s aq uq) {t : T} {b : Buf} {x : Idx}
    (hph : s.phase t = .test b x) (n : Nat) :
    free_chain n x.i0 (s.disk.forget x.i0) =
      if n < 3 then none else some (.ok ((s.disk.forget x.i0).freed x)) := by
  have hidx : (s.phase t).idx = some x := by rw [hph]; rfl
  have hlink := h.linked t b x (by rw [hph]; rfl)
  apply free_chain_eq
  · exact ⟨hlink.flags0, hlink.next0⟩
  · exact ⟨hlink.flags1, hlink.next1⟩
  · exact hlink.flags2
  · exact h.chains.nodup t x hidx
  · intro i hi
    exact h.chains.held hidx hi

theorem diskOk_init (h : s.Init) : DiskOk s [] [] := by
  obtain ⟨hfree, havail, hused, hidx, hout, hlock, hlast, htaken, hpanic, hpub, hcomp, hproc⟩ := h
  constructor
  · intro t
    simp [hlock, hout, Phase.locked]
  · intro t b hb
    rw [hout] at hb
    cases hb
  · constructor
    · intro t x ht
      rw [hout] at ht
      cases ht
    · intro t u x y i ht
      rw [hout] at ht
      cases ht
    · intro i
      simp [hfree, hout, Phase.idx]
  · intro t b x hr
    rw [hout] at hr
    cases hr
  · intro t b x hr
    rw [hout] at hr
    cases hr
  · intro t b x hr
    rw [hout] at hr
    cases hr
  · constructor
    · rw [hlast, havail]
      exact Ring.Holds.nil (by decide) _
    · rw [hidx, hused]
      exact Ring.Holds.nil (by decide) _
    · simp [htaken]
    · intro k
      simp [htaken, Outstanding, hout, Phase.sent]
    · intro i hi
      cases hi
    · intro k
      simp [hpub, hcomp, htaken]
    · intro k
      simp [hcomp, hproc]
  · exact hpanic

variable [DecidableEq Buf]

/-- The sleep-lock of a buffer changes hands while no call works on the buffer. -/
theorem DiskOk.bufLock {b : Buf} {o : Option T} (h : DiskOk s aq uq)
    (hidle : ∀ t, (s.phase t).buf ≠ some b) :
    DiskOk { s with bufLock := update s.bufLock b o } aq uq := by
  refine ⟨h.lock, ?_, h.chains, h.linked, h.raised, h.ringed, ?_, h.panic⟩
  · intro t c hc
    have hne : c ≠ b := by
      rintro rfl
      exact hidle t hc
    simp only [update_of_ne hne]
    exact h.bufs t c hc
  · exact ⟨h.rings.avail, h.rings.used, h.rings.once, h.rings.outstanding, h.rings.status,
      h.rings.published, h.rings.completed⟩

variable [DecidableEq T]

/-- **Every step keeps the invariant.** -/
theorem DiskOk.step {a : Act T Buf} (h : DiskOk s aq uq) (hstep : Step s a s') :
    ∃ aq' uq', DiskOk s' aq' uq' := by
  cases hstep with
  | @acquiresleep t b hout hfree =>
    refine ⟨aq, uq, h.bufLock ?_⟩
    intro u hu
    rw [h.bufs u b hu] at hfree
    cases hfree
  | @releasesleep t b hout hown =>
    refine ⟨aq, uq, h.bufLock ?_⟩
    intro u hu
    have hut : u = t := by
      rw [h.bufs u b hu, Option.some.injEq] at hown
      exact hown
    rw [hut, hout] at hu
    cases hu
  | call hout hown => exact ⟨aq, uq, h.call hout hown⟩
  | acquire hph hlock => exact ⟨aq, uq, h.acquire hph hlock⟩
  | @allocOk t b write x d hph hrun =>
    rcases alloc3_desc_cases s.disk with ⟨y, hy, hnd, hfree⟩ | ⟨d', hd', _⟩
    · rw [hy] at hrun
      cases hrun
      exact ⟨aq, uq, h.allocOk hph hnd hfree⟩
    · rw [hd'] at hrun
      cases hrun
  | @allocSleep t b write d hph hrun =>
    rcases alloc3_desc_cases s.disk with ⟨y, hy, _⟩ | ⟨d', hd', hsame⟩
    · rw [hy] at hrun
      cases hrun
    rw [hd'] at hrun
    cases hrun
    exact ⟨aq, uq, h.allocSleep hph hsame⟩
  | @allocPanic t b write e hph hrun =>
    rcases alloc3_desc_cases s.disk with ⟨y, hy, _⟩ | ⟨d', hd', _⟩
    · rw [hy] at hrun
      cases hrun
    · rw [hd'] at hrun
      cases hrun
  | format hph => exact ⟨aq, uq, h.format hph⟩
  | ring hph => exact ⟨aq, uq, h.ring hph⟩
  | publish hph => exact ⟨_, uq, h.publish hph⟩
  | testSleep hph _ => exact ⟨aq, uq, h.testSleep hph⟩
  | @testDone t b x n d hph hflag hrun =>
    rw [h.free_chain_done hph] at hrun
    by_cases hn : n < 3
    · simp [hn] at hrun
    simp only [if_neg hn, Option.some.injEq, Except.ok.injEq] at hrun
    rw [← hrun]
    exact ⟨aq, uq, h.testDone hph hflag⟩
  | @testPanic t b x n e hph hflag hrun =>
    rw [h.free_chain_done hph] at hrun
    by_cases hn : n < 3
    · simp [hn] at hrun
    · simp [hn] at hrun
  | wake hph hlock => exact ⟨aq, uq, h.wake hph hlock⟩
  | intrEnter hlock => exact ⟨aq, uq, h.intrLock (by simp [hlock]) (by simp)⟩
  | intrRound hlock hmore =>
    obtain ⟨uq', t, b, x, huq, hnext, hsent, hflag⟩ := h.next_used hmore
    rw [h.intr_round_eq huq hnext hsent]
    exact ⟨aq, uq', h.intrRound huq hsent hflag⟩
  | intrExit hlock _ => exact ⟨aq, uq, h.intrLock (by simp [hlock]) (by simp)⟩
  | take hmore =>
    obtain ⟨aq', hok⟩ := h.take hmore
    exact ⟨aq', uq, hok⟩
  | complete hmem => exact ⟨aq, _, h.complete hmem⟩

theorem diskOk_reachable (hs : Reachable (diskSystem T Buf) s) : ∃ aq uq, DiskOk s aq uq := by
  apply hs.invariant (P := fun s => ∃ aq uq, DiskOk s aq uq)
  · intro s hinit
    exact ⟨[], [], diskOk_init hinit⟩
  · rintro s a s' _ ⟨aq, uq, hok⟩ ⟨_, hstep⟩
    exact hok.step hstep

/-- **The protocol of the disk driver.**  In every reachable state

* a request has three different descriptors that no other request has, linked from
  the first to the last once they are formatted;
* the free descriptors are those of no request;
* every chain that was made available was completed and processed as often, up to
  one that is under way, and all completions are processed when the handler has
  caught up;
* the flag of a request's buffer is down exactly if its completion was processed;
* a completion that is not processed is that of a request whose flag is up, and the
  round of the handler clears this flag and no other;
* `free_chain` of a request that is done is over after three rounds, having given
  back the three descriptors and nothing else;
* nothing has panicked. -/
theorem disk_requests (hs : Reachable (diskSystem T Buf) s) :
    (∀ t x, (s.phase t).idx = some x → x.toList.Nodup ∧
      ∀ u y, u ≠ t → (s.phase u).idx = some y → ∀ i ∈ x.toList, i ∉ y.toList) ∧
    (∀ t b x, (s.phase t).ready = some (b, x) → Linked s.disk b x) ∧
    (∀ i, s.disk.free i = true ↔ ∀ t x, (s.phase t).idx = some x → i ∉ x.toList) ∧
    (∀ k, s.processed k ≤ s.completed k ∧ s.completed k ≤ s.published k ∧
      s.published k ≤ s.processed k + 1) ∧
    (s.disk.used_idx = s.disk.used.idx → ∀ k, s.processed k = s.completed k) ∧
    (∀ t b x, (s.phase t).sent = some (b, x) →
      (s.flag b = false ↔ s.processed x.i0 = s.published x.i0)) ∧
    (s.disk.used_idx ≠ s.disk.used.idx → ∃ t b x, (s.phase t).sent = some (b, x) ∧
      s.disk.nextUsed = x.i0 ∧ s.flag b = true ∧
      virtio_disk_intr_round s = { s with
        flag := update s.flag b false
        disk.used_idx := s.disk.used_idx + 1
        processed := update s.processed x.i0 (s.processed x.i0 + 1) }) ∧
    (∀ t b x, s.phase t = .test b x → ∀ n, 3 ≤ n → ∃ d,
      free_chain n x.i0 (s.disk.forget x.i0) = some (.ok d) ∧
      (∀ i, d.free i = true ↔ s.disk.free i = true ∨ i ∈ x.toList) ∧
      ∀ i, i ∉ x.toList → d.desc i = s.disk.desc i) ∧
    s.panic = none := by
  obtain ⟨aq, uq, h⟩ := diskOk_reachable hs
  have hcount : ∀ k, (aq ++ s.taken ++ uq).count k ≤ 1 := List.nodup_iff_count_le_one.1 h.rings.once
  have hsplit : ∀ k, s.published k = s.processed k + (aq ++ s.taken ++ uq).count k := by
    intro k
    have hpub := h.rings.published k
    have hcomp := h.rings.completed k
    rw [List.count_append]
    omega
  refine ⟨?_, h.linked, h.chains.free_iff, ?_, ?_, ?_, ?_, ?_, h.panic⟩
  · intro t x ht
    refine ⟨h.chains.nodup t x ht, ?_⟩
    intro u y hu hy i hx hi
    exact hu (h.chains.disjoint u t y x i hy ht hi hx)
  · intro k
    have hpub := h.rings.published k
    have hcomp := h.rings.completed k
    have hone := hcount k
    have hall := hsplit k
    omega
  · intro hdone k
    have hnil : uq = [] := (h.rings.used.eq_nil_iff num_lt).1 (by rw [hdone])
    have hcomp := h.rings.completed k
    rw [hnil] at hcomp
    simpa using hcomp.symm
  · intro t b x ht
    have hout : (x.i0 : Nat) ∈ aq ++ s.taken ++ uq ↔ s.flag b = true := by
      rw [h.rings.outstanding]
      constructor
      · rintro ⟨u, c, y, hu, hc, heq⟩
        have hut : u = t := h.head_inj (Phase.idx_of_ready (Phase.ready_of_sent hu))
          (Phase.idx_of_ready (Phase.ready_of_sent ht)) (Fin.ext heq)
        subst hut
        rw [(Prod.mk.inj (Option.some.inj (ht.symm.trans hu))).1]
        exact hc
      · intro hb
        exact ⟨t, b, x, ht, hb, rfl⟩
    have hall := hsplit x.i0
    rw [← Bool.not_eq_true, ← hout, ← List.count_eq_zero]
    omega
  · intro hmore
    obtain ⟨uq', t, b, x, huq, hnext, hsent, hflag⟩ := h.next_used hmore
    exact ⟨t, b, x, hsent, hnext, hflag, h.intr_round_eq huq hnext hsent⟩
  · intro t b x hph n hn
    refine ⟨(s.disk.forget x.i0).freed x, ?_, Disk.freed_free, ?_⟩
    · rw [h.free_chain_done hph, if_neg (by omega)]
    · intro i hi
      exact Disk.freed_desc hi

end Runs

/-! ### A run -/

/-- One thread and one buffer, after `virtio_disk_init`. -/
def bootDisk : DiskState Unit Unit where
  disk :=
    { desc := fun _ => .zero
      avail := ⟨0, fun _ => 0⟩
      used := ⟨0, fun _ => 0⟩
      free := fun _ => true
      used_idx := 0
      info := fun _ => ⟨none, 0⟩
      ops := fun _ => ⟨0, 0, 0⟩ }
  flag _ := false
  blockno _ := 7
  bufLock _ := none
  phase _ := .out
  lock := none
  lastAvail := 0
  taken := []
  panic := none
  published _ := 0
  completed _ := 0
  processed _ := 0

/-- A read whose completion waits for the handler. -/
theorem reachable_completed :
    ∃ s, Reachable (diskSystem Unit Unit) s ∧ s.disk.used_idx ≠ s.disk.used.idx := by
  have h0 : Reachable (diskSystem Unit Unit) bootDisk := by
    apply Reachable.start
    simp [diskSystem, DiskState.Init, bootDisk]
  have h1 := Reachable.next h0 ⟨rfl, Step.acquiresleep (t := ()) (b := ()) rfl rfl⟩
  have h2 := Reachable.next h1 ⟨rfl, @Step.call _ _ _ _ _ () () false rfl rfl⟩
  have h3 := Reachable.next h2 ⟨rfl, Step.acquire (t := ()) rfl rfl⟩
  have h4 := Reachable.next h3 ⟨rfl, Step.allocOk (t := ()) rfl rfl⟩
  have h5 := Reachable.next h4 ⟨rfl, Step.format (t := ()) rfl⟩
  have h6 := Reachable.next h5 ⟨rfl, Step.ring (t := ()) rfl⟩
  have h7 := Reachable.next h6 ⟨rfl, Step.publish (t := ()) rfl⟩
  have h8 := Reachable.next h7 ⟨rfl, Step.take (by decide)⟩
  have h9 := Reachable.next h8 ⟨rfl, Step.complete (h := 0) (by decide)⟩
  exact ⟨_, h9, by decide⟩

/-- The handler's next round clears the flag of the buffer that was read. -/
theorem disk_requests_completed : ∃ s : DiskState Unit Unit, s.panic = none ∧
    s.flag () = true ∧ (virtio_disk_intr_round s).flag () = false := by
  obtain ⟨s, hs, hmore⟩ := reachable_completed
  obtain ⟨_, _, _, _, _, _, hround, _, hpanic⟩ := disk_requests hs
  obtain ⟨_, b, _, _, _, hflag, heq⟩ := hround hmore
  refine ⟨s, hpanic, hflag, ?_⟩
  rw [heq]
  exact update_self b false s.flag

end Kus.Virtio
