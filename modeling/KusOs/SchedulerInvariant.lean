import KusOs.Scheduler

/-!
# The invariant of the scheduler

What the process locks protect across `swtch`, for any number of CPUs.

* `holds`, `keeps` — the slot whose lock a CPU holds, and the slot a CPU has
  made `RUNNING`, both read off from positions only;
* `SchedInv` — the locks agree with `holds`, `RUNNING` agrees with `keeps`, and
  no two CPUs keep the same slot;
* `Change` — what one step of the CPU `c` may do, and that the positions of all
  other CPUs stay; the invariant follows from this alone (`SchedInv.of_change`).
-/

namespace Kus

open Function Transition

/-- The slot whose lock a thread at this position holds. -/
@[simp]
def ThreadPos.holds (t : Slot) : ThreadPos → Option Slot
  | .run | .saved _ => none
  | .leave _ | .leaving _ | .resumed _ => some t
  | .visit q _ => some q

/-- Is the process still `RUNNING` at this position of its thread? -/
@[simp]
def ThreadPos.keeps (t : Slot) : ThreadPos → Option Slot
  | .leaving _ => none
  | _ => some t

/-- What `c->proc` is at a position of the CPU. -/
@[simp]
def CpuPos.proc : CpuPos → Option Slot
  | .going p | .thread p | .back p => some p
  | _ => none

/-- What a thread in the middle of a visit knows of the process it creates. -/
@[simp]
def Visit.Ready (q : Slot) (make : Making) : Visit → Prop
  | .alloc => make = .none
  | .context => make = .pages q
  | .publish => make = .ready q
  | .undo => make = .pages q ∨ make = .copy q
  | _ => True

theorem Visit.Allowed.ready {op : Visit} {p q : Slot} {make : Making} {slot : Proc}
    (h : op.Allowed p q make slot) : op.Ready q make := by
  cases op <;> first | exact h | exact trivial

section Safety

variable {κ : Type}

namespace SchedState

/-- The slot whose lock the CPU holds. -/
@[simp]
def holds (s : SchedState κ) (c : κ) : Option Slot :=
  match s.cpu c with
  | .scan _ => none
  | .check p | .chosen p | .going p | .back p | .done p | .irq p _ _ => some p
  | .thread t => (s.pos t).holds t

/-- The slot that is `RUNNING` because of this CPU. -/
@[simp]
def keeps (s : SchedState κ) (c : κ) : Option Slot :=
  match s.cpu c with
  | .chosen p | .going p => some p
  | .thread t => (s.pos t).keeps t
  | _ => none

end SchedState

/-- The invariant of the scheduler. -/
structure SchedInv (s : SchedState κ) : Prop where
  lock : ∀ c q, s.lock q = some c ↔ s.holds c = some q
  myproc : ∀ c, s.cpuProc c = (s.cpu c).proc
  awake : ∀ c t f, s.cpu c = .thread t → s.pos t ≠ .saved f
  parked : ∀ t, (∀ c, s.cpu c ≠ .thread t) → ∃ f, s.pos t = .saved f
  running : ∀ q, (s.proc q).state = .RUNNING ↔ ∃ c, s.keeps c = some q
  unique : ∀ c c' q, s.keeps c = some q → s.keeps c' = some q → c = c'
  back : ∀ c q, s.cpu c = .back q → (s.proc q).state ≠ .RUNNING
  making : ∀ t np, (s.making t).slot = some np → (s.proc np).state = .USED
  maker : ∀ t t' np, (s.making t).slot = some np → (s.making t').slot = some np → t = t'
  visits : ∀ t q op, s.pos t = .visit q op → op.Ready q (s.making t)

namespace SchedInv

variable {s : SchedState κ} {c : κ} {q t : Slot}

section

variable (h : SchedInv s)
include h

/-- Two CPUs never run the same thread. -/
theorem thread_unique {c' : κ} (hc : s.cpu c = .thread t) (hc' : s.cpu c' = .thread t) :
    c = c' := by
  by_cases hleaving : ∃ how, s.pos t = .leaving how
  · obtain ⟨how, hhow⟩ := hleaving
    have hl : s.lock t = some c := (h.lock c t).2 (by simp [hc, hhow])
    have hl' : s.lock t = some c' := (h.lock c' t).2 (by simp [hc', hhow])
    exact Option.some.inj (hl.symm.trans hl')
  have hkeep : (s.pos t).keeps t = some t := by
    cases hpos : s.pos t with
    | leaving how => exact absurd ⟨how, hpos⟩ hleaving
    | _ => rfl
  apply h.unique c c' t
  · simpa [hc] using hkeep
  · simpa [hc'] using hkeep

/-- A slot whose lock the CPU `c` holds, with its thread not running on `c`, has
a thread that runs only if the slot is `RUNNING`. -/
theorem off_cpu {c' : κ} (hlock : s.holds c = some q) (hne : s.cpu c ≠ .thread q)
    (hstate : ∀ c₁, s.keeps c₁ = some q → c₁ = c) : s.cpu c' ≠ .thread q := by
  intro hc'
  have hcc : c' = c := by
    by_cases hleaving : ∃ how, s.pos q = .leaving how
    · obtain ⟨how, hhow⟩ := hleaving
      have hl : s.lock q = some c := (h.lock c q).2 hlock
      have hl' : s.lock q = some c' := (h.lock c' q).2 (by simp [hc', hhow])
      exact Option.some.inj (hl'.symm.trans hl)
    apply hstate
    cases hpos : s.pos q with
    | leaving how => exact absurd ⟨how, hpos⟩ hleaving
    | _ => simp [hc', hpos]
  exact hne (hcc ▸ hc')

/-- The process a thread runs as is its own. -/
theorem self {p : Slot} (hcpu : s.cpu c = .thread t) (hp : s.cpuProc c = some p) : p = t := by
  have hproc := h.myproc c
  rw [hp, hcpu] at hproc
  exact Option.some.inj hproc

/-- A thread that has not written its state is `RUNNING`. -/
theorem thread_running (hcpu : s.cpu c = .thread t) (hpos : (s.pos t).keeps t = some t) :
    (s.proc t).state = .RUNNING := by
  apply (h.running t).2
  exact ⟨c, by simpa [hcpu] using hpos⟩

/-- `c->proc` is right for the next position too if that has the same process. -/
theorem myproc_eq {k k' : CpuPos} (hcpu : s.cpu c = k) (hk : k.proc = k'.proc) :
    s.cpuProc c = k'.proc := by
  rw [h.myproc c, hcpu, hk]

/-- The scheduler switches to a thread that is on no CPU. -/
theorem going_off_cpu {p : Slot} (hcpu : s.cpu c = .going p) (c' : κ) : s.cpu c' ≠ .thread p := by
  have hkeeps : s.keeps c = some p := by simp [hcpu]
  apply h.off_cpu (c := c)
  · simp [hcpu]
  · simp [hcpu]
  · exact fun c₁ h₁ => h.unique c₁ c p h₁ hkeeps

/-- The slot a thread sets a first context for is on no CPU. -/
theorem context_off_cpu (hcpu : s.cpu c = .thread t) (hpos : s.pos t = .visit q .context)
    (hne : q ≠ t) (c' : κ) : s.cpu c' ≠ .thread q := by
  have hused : (s.proc q).state = .USED := by
    apply h.making t q
    rw [h.visits t q .context hpos]
    rfl
  apply h.off_cpu (c := c)
  · simp [hcpu, hpos]
  · simp [hcpu, Ne.symm hne]
  · intro c₁ h₁
    have hrun := (h.running q).2 ⟨c₁, h₁⟩
    rw [hused] at hrun
    cases hrun

end

/-- A CPU keeps a slot running in its scheduler, with the lock, or by running
its thread. -/
theorem keeps_cases (hkeep : s.keeps c = some q) :
    (s.holds c = some q ∧ ∀ t, s.cpu c ≠ .thread t) ∨
      s.cpu c = .thread q ∧ ∀ how, s.pos q ≠ .leaving how := by
  cases hcpu : s.cpu c with
  | chosen p =>
    have e : p = q := by simpa [hcpu] using hkeep
    exact .inl ⟨by simp [hcpu, e], by simp⟩
  | going p =>
    have e : p = q := by simpa [hcpu] using hkeep
    exact .inl ⟨by simp [hcpu, e], by simp⟩
  | thread p =>
    right
    cases hpos : s.pos p with
    | leaving how => simp [hcpu, hpos] at hkeep
    | _ =>
      have e : p = q := by simpa [hcpu, hpos] using hkeep
      subst e
      exact ⟨rfl, by simp [hpos]⟩
  | _ => simp [hcpu] at hkeep

/-- A thread that has written its state is not `RUNNING` any more. -/
theorem not_running_of_leaving (h : SchedInv s) {p : Slot} {how : Parting}
    (hcpu : s.cpu c = .thread p) (hpos : s.pos p = .leaving how) : (s.proc p).state ≠ .RUNNING := by
  intro hrun
  obtain ⟨c₁, hkeep⟩ := (h.running p).1 hrun
  rcases keeps_cases hkeep with ⟨hholds, hsched⟩ | ⟨_, hnot⟩
  · have hlock : s.lock p = some c := (h.lock c p).2 (by simp [hcpu, hpos])
    have hlock₁ : s.lock p = some c₁ := (h.lock c₁ p).2 hholds
    have e : c = c₁ := Option.some.inj (hlock.symm.trans hlock₁)
    exact hsched p (e ▸ hcpu)
  · exact hnot how hpos

/-- A CPU with a process keeps it running, or is on its way out with the lock. -/
theorem proc_cases (h : SchedInv s) (hc : s.cpuProc c = some q) :
    s.keeps c = some q ∨ s.lock q = some c ∧ (s.proc q).state ≠ .RUNNING := by
  rw [h.myproc c] at hc
  cases hcpu : s.cpu c with
  | going p =>
    have e : p = q := by simpa [hcpu] using hc
    exact .inl (by simp [hcpu, e])
  | back p =>
    have e : p = q := by simpa [hcpu] using hc
    subst e
    exact .inr ⟨(h.lock c p).2 (by simp [hcpu]), h.back c p hcpu⟩
  | thread p =>
    have e : p = q := by simpa [hcpu] using hc
    subst e
    cases hpos : s.pos p with
    | leaving how =>
      right
      exact ⟨(h.lock c p).2 (by simp [hcpu, hpos]), h.not_running_of_leaving hcpu hpos⟩
    | _ => exact .inl (by simp [hcpu, hpos])
  | _ => simp [hcpu] at hc

/-- No two CPUs have the same process. -/
theorem proc_unique (h : SchedInv s) {c' : κ} (hc : s.cpuProc c = some q)
    (hc' : s.cpuProc c' = some q) : c = c' := by
  rcases h.proc_cases hc with hkeep | ⟨hlock, hstate⟩
  · rcases h.proc_cases hc' with hkeep' | ⟨_, hstate'⟩
    · exact h.unique c c' q hkeep hkeep'
    · exact absurd ((h.running q).2 ⟨c, hkeep⟩) hstate'
  rcases h.proc_cases hc' with hkeep' | ⟨hlock', _⟩
  · exact absurd ((h.running q).2 ⟨c', hkeep'⟩) hstate
  · exact Option.some.inj (hlock.symm.trans hlock')

/-- While a slot's lock is free, the CPUs that keep it running are those that
have it as their process. -/
theorem keeps_iff (h : SchedInv s)
    (hfree : s.lock q = none) (c : κ) : s.keeps c = some q ↔ s.cpuProc c = some q := by
  have hnot : s.holds c ≠ some q := by
    intro hholds
    rw [(h.lock c q).2 hholds] at hfree
    cases hfree
  rw [h.myproc c]
  cases hcpu : s.cpu c with
  | thread t =>
    cases hpos : s.pos t with
    | leaving how => simpa [hcpu, hpos] using hnot
    | _ => simp [hcpu, hpos]
  | chosen p => simpa [hcpu] using hnot
  | back p => simpa [hcpu] using hnot
  | _ => simp [hcpu]

end SchedInv

/-- What a step of the CPU `c` does to the locks. -/
inductive LockMove (c : κ) (s s' : SchedState κ) : Prop
  | same (hlock : s'.lock = s.lock) (hholds : s'.holds c = s.holds c)
  | take (q : Slot) (hfree : s.lock q = none)
      (hlock : s'.lock = update s.lock q (some c))
      (hbefore : s.holds c = none) (hafter : s'.holds c = some q)
  | drop (q : Slot) (hlock : s'.lock = update s.lock q none)
      (hbefore : s.holds c = some q) (hafter : s'.holds c = none)

/-- What a step of the CPU `c` does to the slots that are `RUNNING`. -/
inductive RunMove (c : κ) (s s' : SchedState κ) : Prop
  | same (hkeeps : s'.keeps c = s.keeps c)
      (hstate : ∀ q, (s'.proc q).state = .RUNNING ↔ (s.proc q).state = .RUNNING)
  | dispatch (p : Slot) (hlock : s.holds c = some p) (hbefore : s.keeps c = none)
      (hafter : s'.keeps c = some p) (hready : (s.proc p).state ≠ .RUNNING)
      (hstate : ∀ q, (s'.proc q).state = .RUNNING ↔ q = p ∨ (s.proc q).state = .RUNNING)
  | leave (p : Slot) (hbefore : s.keeps c = some p) (hafter : s'.keeps c = none)
      (hstate : ∀ q, (s'.proc q).state = .RUNNING ↔ q ≠ p ∧ (s.proc q).state = .RUNNING)

/-- What a step does to the slots under construction. -/
inductive MakeMove (s s' : SchedState κ) : Prop
  | same (hslot : ∀ t, (s'.making t).slot = (s.making t).slot)
      (hstate : ∀ q, (s.proc q).state = .USED → (s'.proc q).state = .USED)
  | start (t q : Slot) (hfree : (s.proc q).state ≠ .USED)
      (hslot : ∀ t', (s'.making t').slot = if t' = t then some q else (s.making t').slot)
      (hstate : ∀ r, r = q ∨ (s.proc r).state = .USED → (s'.proc r).state = .USED)
  | finish (t q : Slot) (hmine : (s.making t).slot = some q)
      (hslot : ∀ t', (s'.making t').slot = if t' = t then none else (s.making t').slot)
      (hstate : ∀ r, r ≠ q → (s.proc r).state = .USED → (s'.proc r).state = .USED)

/-- What a step of the CPU `c` may do. -/
structure Change (c : κ) (s s' : SchedState κ) : Prop where
  cpu : ∀ c', c' ≠ c → s'.cpu c' = s.cpu c'
  cpuProc : ∀ c', c' ≠ c → s'.cpuProc c' = s.cpuProc c'
  myproc : s'.cpuProc c = (s'.cpu c).proc
  pos : ∀ t, s'.pos t = s.pos t ∨ ∀ c', c' ≠ c → s.cpu c' ≠ .thread t
  awake : ∀ t f, s'.cpu c = .thread t → s'.pos t ≠ .saved f
  parked : ∀ t, s'.cpu c ≠ .thread t → (s.cpu c = .thread t ∨ s'.pos t ≠ s.pos t) →
    ∃ f, s'.pos t = .saved f
  locks : LockMove c s s'
  runs : RunMove c s s'
  back : ∀ q, s'.cpu c = .back q → (s'.proc q).state ≠ .RUNNING
  makes : MakeMove s s'
  visits : ∀ t q op, s'.pos t = .visit q op →
    (s.pos t = .visit q op ∧ s'.making t = s.making t) ∨ op.Ready q (s'.making t)

namespace Change

variable {c c' : κ} {s s' : SchedState κ} {t : Slot}

/-- The positions another CPU's thread can see stay. -/
theorem pos_other (h : Change c s s') (hne : c' ≠ c)
    (hcpu : s.cpu c' = .thread t) : s'.pos t = s.pos t := by
  rcases h.pos t with hsame | hoff
  · exact hsame
  · exact absurd hcpu (hoff c' hne)

/-- **Frame rule** for the locks held. -/
theorem holds_other (h : Change c s s') (hne : c' ≠ c) : s'.holds c' = s.holds c' := by
  unfold SchedState.holds
  rw [h.cpu c' hne]
  cases hcpu : s.cpu c' with
  | thread t => simp only [h.pos_other hne hcpu]
  | _ => rfl

/-- **Frame rule** for the slots kept running. -/
theorem keeps_other (h : Change c s s') (hne : c' ≠ c) : s'.keeps c' = s.keeps c' := by
  unfold SchedState.keeps
  rw [h.cpu c' hne]
  cases hcpu : s.cpu c' with
  | thread t => simp only [h.pos_other hne hcpu]
  | _ => rfl

section

variable (h : Change c s s') (hinv : SchedInv s)
include h hinv

theorem lock_step (c' : κ) (q : Slot) : s'.lock q = some c' ↔ s'.holds c' = some q := by
  by_cases hc : c' = c
  · subst c'
    cases h.locks with
    | same hlock hholds => rw [hlock, hholds]; exact hinv.lock c q
    | take p hfree hlock hbefore hafter =>
      rw [hlock, hafter]
      by_cases hq : q = p
      · simp [hq]
      have hnot : s.lock q ≠ some c := by
        intro hl
        rw [(hinv.lock c q).1 hl] at hbefore
        cases hbefore
      simp [update_of_ne hq, hnot, Ne.symm hq]
    | drop p hlock hbefore hafter =>
      rw [hlock, hafter]
      by_cases hq : q = p
      · simp [hq]
      have hnot : s.lock q ≠ some c := by
        intro hl
        rw [(hinv.lock c q).1 hl] at hbefore
        exact hq (Option.some.inj hbefore)
      simp [update_of_ne hq, hnot]
  · rw [h.holds_other hc, ← hinv.lock c' q]
    cases h.locks with
    | same hlock hholds => rw [hlock]
    | take p hfree hlock hbefore hafter =>
      rw [hlock]
      by_cases hq : q = p
      · subst hq
        simp [hfree, Ne.symm hc]
      · simp [update_of_ne hq]
    | drop p hlock hbefore hafter =>
      rw [hlock]
      by_cases hq : q = p
      · subst hq
        have hl := (hinv.lock c q).2 hbefore
        simp [hl, Ne.symm hc]
      · simp [update_of_ne hq]

theorem unique_step {c₁ c₂ : κ} {q : Slot} (h₁ : s'.keeps c₁ = some q) (h₂ : s'.keeps c₂ = some q) :
    c₁ = c₂ := by
  -- one of the two is `c`, or both kept `q` before
  have main : ∀ c', c' ≠ c → s'.keeps c' = some q → s'.keeps c ≠ some q := by
    intro c' hne hkeep hc
    rw [h.keeps_other hne] at hkeep
    cases h.runs with
    | same hkeeps hstate => exact hne (hinv.unique c' c q hkeep (hkeeps ▸ hc))
    | dispatch p hlock hbefore hafter hready hstate =>
      have hp : p = q := Option.some.inj (hafter.symm.trans hc)
      exact hready (hp ▸ (hinv.running q).2 ⟨c', hkeep⟩)
    | leave p hbefore hafter hstate => cases hafter.symm.trans hc
  by_cases e₁ : c₁ = c
  · by_cases e₂ : c₂ = c
    · rw [e₁, e₂]
    · exact absurd (e₁ ▸ h₁) (main c₂ e₂ h₂)
  by_cases e₂ : c₂ = c
  · exact absurd (e₂ ▸ h₂) (main c₁ e₁ h₁)
  rw [h.keeps_other e₁] at h₁
  rw [h.keeps_other e₂] at h₂
  exact hinv.unique c₁ c₂ q h₁ h₂

theorem running_step (q : Slot) : (s'.proc q).state = .RUNNING ↔ ∃ c', s'.keeps c' = some q := by
  constructor
  · intro hrun
    cases h.runs with
    | same hkeeps hstate =>
      obtain ⟨c', hc'⟩ := (hinv.running q).1 ((hstate q).1 hrun)
      by_cases e : c' = c
      · exact ⟨c, by rw [hkeeps, ← e]; exact hc'⟩
      · exact ⟨c', by rw [h.keeps_other e]; exact hc'⟩
    | dispatch p hlock hbefore hafter hready hstate =>
      rcases (hstate q).1 hrun with hq | hold
      · exact ⟨c, hq ▸ hafter⟩
      obtain ⟨c', hc'⟩ := (hinv.running q).1 hold
      have e : c' ≠ c := by
        intro e
        rw [e, hbefore] at hc'
        cases hc'
      exact ⟨c', by rw [h.keeps_other e]; exact hc'⟩
    | leave p hbefore hafter hstate =>
      obtain ⟨hq, hold⟩ := (hstate q).1 hrun
      obtain ⟨c', hc'⟩ := (hinv.running q).1 hold
      have e : c' ≠ c := by
        intro e
        rw [e, hbefore] at hc'
        exact hq (Option.some.inj hc').symm
      exact ⟨c', by rw [h.keeps_other e]; exact hc'⟩
  · rintro ⟨c', hc'⟩
    by_cases e : c' = c
    · subst c'
      cases h.runs with
      | same hkeeps hstate => exact (hstate q).2 ((hinv.running q).2 ⟨c, hkeeps ▸ hc'⟩)
      | dispatch p hlock hbefore hafter hready hstate =>
        exact (hstate q).2 (.inl (Option.some.inj (hc'.symm.trans hafter)))
      | leave p hbefore hafter hstate => cases hafter.symm.trans hc'
    rw [h.keeps_other e] at hc'
    have hold := (hinv.running q).2 ⟨c', hc'⟩
    cases h.runs with
    | same hkeeps hstate => exact (hstate q).2 hold
    | dispatch p hlock hbefore hafter hready hstate => exact (hstate q).2 (.inr hold)
    | leave p hbefore hafter hstate =>
      refine (hstate q).2 ⟨?_, hold⟩
      intro hq
      exact e (hinv.unique c' c q hc' (hq ▸ hbefore))

theorem back_step {q : Slot} (hback : s'.cpu c' = .back q) : (s'.proc q).state ≠ .RUNNING := by
  by_cases e : c' = c
  · exact h.back q (e ▸ hback)
  rw [h.cpu c' e] at hback
  have hold := hinv.back c' q hback
  have hlock : s.lock q = some c' := (hinv.lock c' q).2 (by simp [hback])
  cases h.runs with
  | same hkeeps hstate => exact fun hr => hold ((hstate q).1 hr)
  | dispatch p hholds hbefore hafter hready hstate =>
    intro hr
    rcases (hstate q).1 hr with hq | hr
    · -- the lock of a slot about to run is held by `c`, not by `c'`
      have hl := (hinv.lock c p).2 hholds
      rw [← hq, hlock] at hl
      exact e (Option.some.inj hl)
    · exact hold hr
  | leave p hbefore hafter hstate => exact fun hr => hold ((hstate q).1 hr).2

theorem making_step {np : Slot} (hmake : (s'.making t).slot = some np) :
    (s'.proc np).state = .USED := by
  cases h.makes with
  | same hslot hstate => exact hstate np (hinv.making t np (hslot t ▸ hmake))
  | start t₀ q hfree hslot hstate =>
    rw [hslot t] at hmake
    split at hmake
    · exact hstate np (.inl (Option.some.inj hmake).symm)
    · exact hstate np (.inr (hinv.making t np hmake))
  | finish t₀ q hmine hslot hstate =>
    rw [hslot t] at hmake
    split at hmake
    · cases hmake
    · rename_i hne
      refine hstate np ?_ (hinv.making t np hmake)
      intro hq
      exact hne (hinv.maker t t₀ np hmake (hq ▸ hmine))

theorem maker_step {t' np : Slot} (hmake : (s'.making t).slot = some np)
    (hmake' : (s'.making t').slot = some np) : t = t' := by
  cases h.makes with
  | same hslot hstate => exact hinv.maker t t' np (hslot t ▸ hmake) (hslot t' ▸ hmake')
  | start t₀ q hfree hslot hstate =>
    -- nobody else was making the slot, which was not `USED`
    have hnew : ∀ t₁, t₁ ≠ t₀ → (s.making t₁).slot ≠ some q :=
      fun t₁ _ hm => hfree (hinv.making t₁ q hm)
    rw [hslot] at hmake hmake'
    split at hmake <;> split at hmake'
    · rename_i e e'
      rw [e, e']
    · rename_i e e'
      exact absurd (hmake'.trans hmake.symm) (hnew t' e')
    · rename_i e e'
      exact absurd (hmake.trans hmake'.symm) (hnew t e)
    · exact hinv.maker t t' np hmake hmake'
  | finish t₀ q hmine hslot hstate =>
    rw [hslot] at hmake hmake'
    split at hmake <;> split at hmake'
    · cases hmake
    · cases hmake
    · cases hmake'
    · exact hinv.maker t t' np hmake hmake'

theorem parked_step (hoff : ∀ c', s'.cpu c' ≠ .thread t) : ∃ f, s'.pos t = .saved f := by
  by_cases hmoved : s.cpu c = .thread t ∨ s'.pos t ≠ s.pos t
  · exact h.parked t (hoff c) hmoved
  obtain ⟨hc, hpos⟩ := not_or.1 hmoved
  have hbefore : ∀ c', s.cpu c' ≠ .thread t := by
    intro c'
    by_cases e : c' = c
    · exact e ▸ hc
    · rw [← h.cpu c' e]
      exact hoff c'
  obtain ⟨f, hf⟩ := hinv.parked t hbefore
  exact ⟨f, (not_not.1 hpos).trans hf⟩

end

end Change

/-- **The invariant follows from the frame of a step.** -/
theorem SchedInv.of_change {c : κ} {s s' : SchedState κ} (hinv : SchedInv s)
    (h : Change c s s') : SchedInv s' where
  lock := h.lock_step hinv
  myproc c' := by
    by_cases e : c' = c
    · rw [e]; exact h.myproc
    · rw [h.cpuProc c' e, h.cpu c' e]; exact hinv.myproc c'
  awake c' t f hcpu := by
    by_cases e : c' = c
    · exact h.awake t f (e ▸ hcpu)
    rw [h.cpu c' e] at hcpu
    rw [h.pos_other e hcpu]
    exact hinv.awake c' t f hcpu
  parked _ hoff := h.parked_step hinv hoff
  running := h.running_step hinv
  unique _ _ _ h₁ h₂ := h.unique_step hinv h₁ h₂
  back _ _ hback := h.back_step hinv hback
  making _ _ hmake := h.making_step hinv hmake
  maker _ _ _ hmake hmake' := h.maker_step hinv hmake hmake'
  visits t q op hpos := by
    rcases h.visits t q op hpos with ⟨hsame, hmake⟩ | hready
    · rw [hmake]; exact hinv.visits t q op hsame
    · exact hready

end Safety

end Kus
