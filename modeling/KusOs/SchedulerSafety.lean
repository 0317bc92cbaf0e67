import KusOs.SchedulerInvariant

/-!
# Scheduler safety

Every step of the scheduler model is a `Change`, so the invariant holds in every
run.

* `Visit.update_quiet` — what one thread does to another's slot never starts or
  stops a process;
* `SchedInv.change` — **the step lemma**, one case for each step;
* `SchedInv.arrow` — the changes of `p->state`;
* `scheduler_safe` — **the safety theorem**, over every run.
-/

namespace Kus

open Function Transition

attribute [local simp] Visit.update Making.slot

section Safety

variable {κ : Type}

/-- A change of state by a thread that is not the slot's own and not the
scheduler: none, or one of the arrows that have nothing to do with `RUNNING`. -/
def QuietChange (x y : ProcState) : Prop :=
  y = x ∨ StateArrow x y ∧ x ≠ .RUNNING ∧ y ≠ .RUNNING

theorem QuietChange.running {x y : ProcState} (h : QuietChange x y) :
    y = .RUNNING ↔ x = .RUNNING := by
  rcases h with e | ⟨_, hx, hy⟩
  · rw [e]
  · exact ⟨fun e => absurd e hy, fun e => absurd e hx⟩

theorem QuietChange.arrow {x y : ProcState} (h : QuietChange x y) : y = x ∨ StateArrow x y := by
  rcases h with e | ⟨harrow, _⟩
  · exact .inl e
  · exact .inr harrow

theorem Proc.wake_quiet (chan : Chan) (x : Proc) : QuietChange x.state (x.wake chan).state := by
  by_cases h : x.state = .SLEEPING ∧ x.chan = chan
  · right
    simpa [h] using StateArrow.wake
  · left
    simp [h]

theorem Proc.kill_quiet (x : Proc) : QuietChange x.state x.kill.state := by
  by_cases h : x.state = .SLEEPING
  · right
    simpa [h] using StateArrow.wake
  · left
    simp [h]

/-- What a visit does to the state of the slot. -/
theorem Visit.update_quiet {op : Visit} {q : Slot} {make : Making} {x : Proc} (n : Int)
    (hready : op.Ready q make) (hmine : make.slot = some q → x.state = .USED) :
    QuietChange x.state (op.update n x).state := by
  cases op with
  | wakeup chan => exact x.wake_quiet chan
  | kill pid =>
    by_cases h : x.pid = pid
    · simpa only [Visit.update, if_pos h] using x.kill_quiet
    · exact .inl (by simp [h])
  | peek => exact .inl rfl
  | alloc =>
    by_cases h : x.state = .UNUSED
    · right
      simpa [h] using StateArrow.alloc
    · exact .inl (by simp [h])
  | context => exact .inl rfl
  | publish =>
    have h : x.state = .USED := hmine (by rw [hready]; rfl)
    right
    simpa [h] using StateArrow.publish
  | undo =>
    have h : x.state = .USED := by
      rcases hready with e | e
      · exact hmine (by rw [e]; rfl)
      · exact hmine (by rw [e]; rfl)
    right
    simpa [h] using StateArrow.undo
  | reap =>
    by_cases h : x.state = .ZOMBIE
    · right
      simpa [h] using StateArrow.reap
    · exact .inl (by simp [h])

/-- A quiet change of one slot changes nothing of which slots are `RUNNING`. -/
theorem running_of_quiet {proc : Slot → Proc} {q : Slot} {x : Proc}
    (h : QuietChange (proc q).state x.state) (r : Slot) :
    (update proc q x r).state = .RUNNING ↔ (proc r).state = .RUNNING := by
  by_cases e : r = q
  · subst e
    simpa using h.running
  · rw [update_of_ne e]

/-- A slot that is `USED` stays so in the table if it does where the table
changes. -/
theorem used_of_update {proc : Slot → Proc} {q : Slot} {x : Proc}
    (hx : (proc q).state = .USED → x.state = .USED) (r : Slot) (h : (proc r).state = .USED) :
    (update proc q x r).state = .USED := by
  by_cases e : r = q
  · subst e
    simpa using hx h
  · rw [update_of_ne e]
    exact h

namespace Change

variable {c : κ} {s s' : SchedState κ}

section

variable {t : Slot} (hinv : SchedInv s) (ht : s.cpu c = .thread t) (hcpu : s'.cpu = s.cpu)
  (hcpuProc : s'.cpuProc = s.cpuProc)
include hinv ht hcpu hcpuProc

/-- A step of the thread of `t` that leaves it on its CPU.  The thread of a
process it creates, which is on no CPU, may get its first context. -/
theorem of_thread {k : ThreadPos} (hself : s'.pos t = k)
    (hrest : ∀ t', t' ≠ t →
      s'.pos t' = s.pos t' ∨ (∀ c', s.cpu c' ≠ .thread t') ∧ ∃ f, s'.pos t' = .saved f)
    (hk : ∀ f, k ≠ .saved f) (hlocks : LockMove c s s') (hruns : RunMove c s s')
    (hmakes : MakeMove s s') (hothers : ∀ t', t' ≠ t → s'.making t' = s.making t')
    (hvisit : ∀ q op, k = .visit q op → op.Ready q (s'.making t)) : Change c s s' where
  cpu c' _ := by rw [hcpu]
  cpuProc c' _ := by rw [hcpuProc]
  myproc := by rw [hcpu, hcpuProc]; exact hinv.myproc c
  pos t' := by
    by_cases e : t' = t
    · right
      intro c' hne hc'
      exact hne (hinv.thread_unique (e ▸ hc') ht)
    rcases hrest t' e with hsame | ⟨hoff, _⟩
    · exact .inl hsame
    · exact .inr fun c' _ => hoff c'
  awake t' f ht' := by
    have e : t = t' := by
      rw [hcpu, ht] at ht'
      exact CpuPos.thread.inj ht'
    rw [← e, hself]
    exact hk f
  parked t' hoff hmoved := by
    have e : t' ≠ t := by
      intro e
      rw [hcpu, e] at hoff
      exact hoff ht
    rcases hrest t' e with hsame | ⟨_, hsaved⟩
    · rcases hmoved with h | h
      · rw [ht] at h
        exact absurd (CpuPos.thread.inj h).symm e
      · exact absurd hsame h
    · exact hsaved
  locks := hlocks
  runs := hruns
  back q hq := by
    rw [hcpu, ht] at hq
    cases hq
  makes := hmakes
  visits t' q op h := by
    by_cases e : t' = t
    · subst e
      exact .inr (hvisit q op (hself.symm.trans h))
    rcases hrest t' e with hsame | ⟨_, f, hf⟩
    · exact .inl ⟨hsame ▸ h, hothers t' e⟩
    · rw [hf] at h
      cases h

/-- A step of the thread of `t` that does not move it. -/
theorem of_still (hpos : s'.pos = s.pos) (hlock : s'.lock = s.lock)
    (hstate : ∀ q, (s'.proc q).state = .RUNNING ↔ (s.proc q).state = .RUNNING)
    (hmakes : MakeMove s s') (hothers : ∀ t', t' ≠ t → s'.making t' = s.making t')
    (hvisit : ∀ q op, s.pos t = .visit q op → op.Ready q (s'.making t)) : Change c s s' := by
  apply of_thread (k := s.pos t) hinv ht hcpu hcpuProc (by rw [hpos])
  · exact fun t' _ => .inl (by rw [hpos])
  · exact fun f => hinv.awake c t f ht
  · exact .same hlock (by simp [hcpu, hpos])
  · exact .same (by simp [hcpu, hpos]) hstate
  · exact hmakes
  · exact hothers
  · exact hvisit

end

end Change

section ThreadSteps

variable {s : SchedState κ} {c : κ} {t : Slot}

/-- Taking a lock from `run`. -/
theorem take_change (hinv : SchedInv s) {q : Slot} {k : ThreadPos}
    (hcpu : s.cpu c = .thread t) (hpos : s.pos t = .run) (hlock : s.lock q = none)
    (hholds : k.holds t = some q) (hkeeps : k.keeps t = some t) (hk : ∀ f, k ≠ .saved f)
    (hvisit : ∀ r op, k = .visit r op → op.Ready r (s.making t)) :
    Change c s ((s.setLock q (some c)).moveThread t k) := by
  apply Change.of_thread (k := k) hinv hcpu
  · rfl
  · rfl
  · simp
  · exact fun t' e => .inl (by simp [e])
  · exact hk
  · exact .take q hlock rfl (by simp [hcpu, hpos])
      (by simpa [hcpu] using hholds)
  · exact .same (by simpa [hcpu, hpos] using hkeeps) (fun _ => Iff.rfl)
  · exact .same (fun _ => rfl) (fun _ h => h)
  · exact fun _ _ => rfl
  · exact hvisit

theorem Parting.write_state (how : Parting) (x : Proc) :
    (how.write x).state ≠ .RUNNING ∧
      (x.state = .RUNNING → StateArrow x.state (how.write x).state) := by
  cases how with
  | yield => exact ⟨by simp [Parting.write], fun h => h ▸ .yield⟩
  | sleep chan => exact ⟨by simp [Parting.write], fun h => h ▸ .sleep⟩
  | exit status => exact ⟨by simp [Parting.write], fun h => h ▸ .exit⟩

theorem write_change (hinv : SchedInv s) {p : Slot} {how : Parting}
    (hcpu : s.cpu c = .thread t) (hpos : s.pos t = .leave how) (hp : s.cpuProc c = some p) :
    Change c s ((s.setProc p (how.write (s.proc p))).moveThread t (.leaving how)) := by
  obtain rfl := hinv.self hcpu hp
  have hrun : (s.proc p).state = .RUNNING := hinv.thread_running hcpu (by simp [hpos])
  apply Change.of_thread (k := .leaving how) hinv hcpu
  · rfl
  · rfl
  · simp
  · exact fun t' e => .inl (by simp [e])
  · simp
  · exact .same rfl (by simp [hcpu, hpos])
  · apply RunMove.leave p
    · simp [hcpu, hpos]
    · simp [hcpu]
    · intro q
      by_cases e : q = p
      · simpa [e] using (how.write_state (s.proc p)).1
      · simp [e]
  · refine .same (fun _ => rfl) ?_
    apply used_of_update
    intro h
    rw [hrun] at h
    cases h
  · exact fun _ _ => rfl
  · simp

theorem Frame.tidy_state (frame : Frame) (x : Proc) : (frame.tidy x).state = x.state := by
  cases frame <;> rfl

theorem resume_change (hinv : SchedInv s) {p : Slot} {frame : Frame}
    (hcpu : s.cpu c = .thread t) (hpos : s.pos t = .resumed frame) (hp : s.cpuProc c = some p) :
    Change c s
      (((s.setProc p (frame.tidy (s.proc p))).setLock p none).moveThread t .run) := by
  obtain rfl := hinv.self hcpu hp
  have hquiet := frame.tidy_state (s.proc p)
  apply Change.of_thread (k := .run) hinv hcpu
  · rfl
  · rfl
  · simp
  · exact fun t' e => .inl (by simp [e])
  · simp
  · exact .drop p rfl (by simp [hcpu, hpos])
      (by simp [hcpu])
  · exact .same (by simp [hcpu, hpos]) (running_of_quiet (.inl hquiet))
  · exact .same (fun _ => rfl) (used_of_update fun h => hquiet.trans h)
  · exact fun _ _ => rfl
  · simp

/-- How a visit moves the creation of a process along. -/
theorem endVisit_makes (hinv : SchedInv s) {q : Slot} {op : Visit}
    (hpos : s.pos t = .visit q op) : MakeMove s (s.endVisit t q op) := by
  have hready := hinv.visits t q op hpos
  -- the visits that leave `making` and a slot that is `USED` alone
  have same : (op.advance q (s.proc q) (s.making t)).slot = (s.making t).slot →
      ((s.proc q).state = .USED → (op.update s.nextpid (s.proc q)).state = .USED) →
      MakeMove s (s.endVisit t q op) := by
    intro hslot hused
    constructor
    · intro t'
      by_cases e : t' = t
      · simpa [e] using hslot
      · simp [e]
    · intro r hr
      by_cases e : r = q
      · subst e
        simpa using hused hr
      · simpa [e] using hr
  -- the visits that end the creation
  have finish : (s.making t).slot = some q →
      op.advance q (s.proc q) (s.making t) = .none → MakeMove s (s.endVisit t q op) := by
    intro hmine hnone
    apply MakeMove.finish t q hmine
    · intro t'
      by_cases e : t' = t
      · simp [e, hnone]
      · simp [e]
    · intro r e hr
      simpa [e] using hr
  cases op with
  | wakeup chan => exact same rfl fun h => by simp [h]
  | kill pid =>
    apply same rfl
    intro h
    by_cases e : (s.proc q).pid = pid
    · simp [e, h]
    · simp [e, h]
  | peek => exact same rfl fun h => h
  | alloc =>
    by_cases h : (s.proc q).state = .UNUSED
    · apply MakeMove.start t q (by simp [h])
      · intro t'
        by_cases e : t' = t
        · simp [e, Visit.advance, h]
        · simp [e]
      · intro r hr
        by_cases e : r = q
        · simp [e, h]
        · simpa [e] using hr
    · exact same (by simp [Visit.advance, h]) fun hu => by simp [hu]
  | context => exact same (by rw [hready]; rfl) fun h => h
  | publish => exact finish (by rw [hready]; rfl) rfl
  | undo =>
    apply finish _ rfl
    rcases hready with e | e
    · rw [e]; rfl
    · rw [e]; rfl
  | reap => exact same rfl fun h => by simp [h]

theorem endVisit_change (hinv : SchedInv s) {q : Slot} {op : Visit} (hcpu : s.cpu c = .thread t)
    (hpos : s.pos t = .visit q op) : Change c s (s.endVisit t q op) := by
  have hquiet : QuietChange (s.proc q).state (op.update s.nextpid (s.proc q)).state :=
    Visit.update_quiet _ (hinv.visits t q op hpos) (hinv.making t q)
  apply Change.of_thread (k := .run) hinv hcpu
  · rfl
  · rfl
  · simp
  · intro t' e
    by_cases hq : t' = q
    · subst hq
      cases op with
      | context =>
        right
        exact ⟨hinv.context_off_cpu hcpu hpos e, .forkret, by simp [e, Visit.target]⟩
      | _ => exact .inl (by simp [e, Visit.target])
    · exact .inl (by simp [e, hq])
  · simp
  · exact .drop q rfl (by simp [hcpu, hpos])
      (by simp [hcpu])
  · exact .same (by simp [hcpu, hpos]) (running_of_quiet hquiet)
  · exact endVisit_makes hinv hpos
  · exact fun t' e => by simp [e]
  · simp

end ThreadSteps

variable [DecidableEq κ]

/-- A step inside the scheduler, or inside an interrupt handler it took: no
thread moves. -/
theorem Change.of_scheduler {c : κ} {s s' : SchedState κ} {k : CpuPos} (hinv : SchedInv s)
    (hbefore : ∀ t, s.cpu c ≠ .thread t) (hk : ∀ t, k ≠ .thread t) (hback : ∀ q, k ≠ .back q)
    (hcpu : s'.cpu = update s.cpu c k) (hcpuProc : ∀ c', c' ≠ c → s'.cpuProc c' = s.cpuProc c')
    (hmyproc : s'.cpuProc c = k.proc) (hpos : s'.pos = s.pos) (hmaking : s'.making = s.making)
    (hused : ∀ q, (s.proc q).state = .USED → (s'.proc q).state = .USED) (hlocks : LockMove c s s')
    (hruns : RunMove c s s') : Change c s s' where
  cpu c' hne := by rw [hcpu, update_of_ne hne]
  cpuProc := hcpuProc
  myproc := by rw [hcpu, update_self, hmyproc]
  pos t := .inl (by rw [hpos])
  awake t f ht := by
    rw [hcpu, update_self] at ht
    exact absurd ht (hk t)
  parked t _ hmoved := by
    rcases hmoved with ht | hne
    · exact absurd ht (hbefore t)
    · exact absurd (by rw [hpos]) hne
  locks := hlocks
  runs := hruns
  back q hq := by
    rw [hcpu, update_self] at hq
    exact absurd hq (hback q)
  makes := .same (fun t => by rw [hmaking]) hused
  visits t q op hvisit := .inr (by rw [hmaking]; exact hinv.visits t q op (hpos ▸ hvisit))

section SchedulerSteps

variable {s : SchedState κ} {c : κ}

theorem choose_change (hinv : SchedInv s) {p : Slot} (hcpu : s.cpu c = .check p)
    (hstate : (s.proc p).state = .RUNNABLE) :
    Change c s ((s.setProc p { s.proc p with state := .RUNNING }).moveCpu c (.chosen p)) := by
  apply Change.of_scheduler (k := .chosen p) hinv (by simp [hcpu]) (by simp) (by simp)
  · rfl
  · exact fun _ _ => rfl
  · exact hinv.myproc_eq hcpu rfl
  · rfl
  · rfl
  · apply used_of_update
    intro h
    rw [hstate] at h
    cases h
  · exact .same rfl (by simp [hcpu])
  · apply RunMove.dispatch p
    · simp [hcpu]
    · simp [hcpu]
    · simp
    · simp [hstate]
    · intro q
      by_cases e : q = p
      · simp [e]
      · simp [e]

theorem swtch_change (hinv : SchedInv s) {p : Slot} (hcpu : s.cpu c = .going p) :
    Change c s ((s.moveThread p (s.pos p).resume).moveCpu c (.thread p)) := by
  have hoff := hinv.going_off_cpu hcpu
  obtain ⟨f, hf⟩ := hinv.parked p hoff
  have hresume : (s.pos p).resume = .resumed f := by rw [hf]; rfl
  rw [hresume]
  refine ⟨fun c' hne => by simp [hne], fun _ _ => rfl, ?_, ?_, ?_, ?_, ?_, ?_, ?_, ?_, ?_⟩
  · have hproc : s.cpuProc c = (CpuPos.thread p).proc := hinv.myproc_eq hcpu rfl
    simpa using hproc
  · intro t
    by_cases e : t = p
    · exact .inr fun c' _ => e ▸ hoff c'
    · exact .inl (by simp [e])
  · intro t f' ht
    have e : p = t := by simpa using ht
    simp [← e]
  · intro t hne hmoved
    have e : t ≠ p := by
      intro e
      simp [e] at hne
    simp [hcpu, e] at hmoved
  · exact .same rfl (by simp [hcpu])
  · exact .same (by simp [hcpu]) (fun _ => Iff.rfl)
  · simp
  · exact .same (fun _ => rfl) (fun _ h => h)
  · intro t q op h
    by_cases e : t = p
    · simp [e] at h
    · exact .inl ⟨by simpa [e] using h, rfl⟩

theorem sched_change (hinv : SchedInv s) {t p : Slot} {how : Parting}
    (hcpu : s.cpu c = .thread t) (hpos : s.pos t = .leaving how) (hp : s.cpuProc c = some p)
    (hstate : (s.proc p).state ≠ .RUNNING) :
    Change c s ((s.moveThread t (.saved how.frame)).moveCpu c (.back t)) := by
  obtain rfl := hinv.self hcpu hp
  refine ⟨fun c' hne => by simp [hne], fun _ _ => rfl, ?_, ?_, ?_, ?_, ?_, ?_, ?_, ?_, ?_⟩
  · simpa using hp
  · intro t
    by_cases e : t = p
    · right
      intro c' hne hc'
      exact hne (hinv.thread_unique (e ▸ hc') hcpu)
    · exact .inl (by simp [e])
  · simp
  · intro t _ hmoved
    by_cases e : t = p
    · exact ⟨how.frame, by simp [e]⟩
    · simp [hcpu, e, Ne.symm e] at hmoved
  · exact .same rfl (by simp [hcpu, hpos])
  · exact .same (by simp [hcpu, hpos]) (fun _ => Iff.rfl)
  · intro q hq
    have e : p = q := by simpa using hq
    exact e ▸ hstate
  · exact .same (fun _ => rfl) (fun _ h => h)
  · intro t q op h
    by_cases e : t = p
    · simp [e] at h
    · exact .inl ⟨by simpa [e] using h, rfl⟩

end SchedulerSteps

variable {s : SchedState κ}

/-- **What every step does.**  The cases follow the steps of the model. -/
theorem SchedInv.change {s' : SchedState κ} {ev : SchedEvent} (hinv : SchedInv s)
    (hstep : SchedStep s ev s') : ∃ c, Change c s s' := by
  cases hstep with
  | @acquire c p hcpu hlock =>
    refine ⟨c, Change.of_scheduler (k := .check p) hinv (by simp [hcpu]) (by simp) (by simp) rfl
      (fun _ _ => rfl) (hinv.myproc_eq hcpu rfl) rfl rfl (fun _ h => h) ?_ ?_⟩
    · exact .take p hlock rfl (by simp [hcpu]) (by simp)
    · exact .same (by simp [hcpu]) (fun _ => Iff.rfl)
  | @wrap c hcpu =>
    refine ⟨c, Change.of_scheduler (k := .scan 0) hinv (by simp [hcpu]) (by simp) (by simp) rfl
      (fun _ _ => rfl) (hinv.myproc_eq hcpu rfl) rfl rfl (fun _ h => h) ?_ ?_⟩
    · exact .same rfl (by simp [hcpu])
    · exact .same (by simp [hcpu]) (fun _ => Iff.rfl)
  | @skip c p hcpu hstate =>
    refine ⟨c, Change.of_scheduler (k := .scan (p + 1)) hinv (by simp [hcpu]) (by simp) (by simp)
      rfl (fun _ _ => rfl) (hinv.myproc_eq hcpu rfl) rfl rfl (fun _ h => h) ?_ ?_⟩
    · exact .drop p rfl (by simp [hcpu]) (by simp)
    · exact .same (by simp [hcpu]) (fun _ => Iff.rfl)
  | @choose c p hcpu hstate => exact ⟨c, choose_change hinv hcpu hstate⟩
  | @setProc c p hcpu =>
    refine ⟨c, Change.of_scheduler (k := .going p) hinv (by simp [hcpu]) (by simp) (by simp) rfl
      (fun _ e => by simp [e]) (by simp) rfl rfl (fun _ h => h) ?_ ?_⟩
    · exact .same rfl (by simp [hcpu])
    · exact .same (by simp [hcpu]) (fun _ => Iff.rfl)
  | @swtch c p hcpu => exact ⟨c, swtch_change hinv hcpu⟩
  | @clearProc c p hcpu =>
    refine ⟨c, Change.of_scheduler (k := .done p) hinv (by simp [hcpu]) (by simp) (by simp) rfl
      (fun _ e => by simp [e]) (by simp) rfl rfl (fun _ h => h) ?_ ?_⟩
    · exact .same rfl (by simp [hcpu])
    · exact .same (by simp [hcpu]) (fun _ => Iff.rfl)
  | @release c p hcpu =>
    refine ⟨c, Change.of_scheduler (k := .scan (p + 1)) hinv (by simp [hcpu]) (by simp) (by simp)
      rfl (fun _ _ => rfl) (hinv.myproc_eq hcpu rfl) rfl rfl (fun _ h => h) ?_ ?_⟩
    · exact .drop p rfl (by simp [hcpu]) (by simp)
    · exact .same (by simp [hcpu]) (fun _ => Iff.rfl)
  | @irqAcquire c i q chan hcpu hq hlock =>
    refine ⟨c, Change.of_scheduler (k := .irq q chan i) hinv (by simp [hcpu]) (by simp) (by simp)
      rfl (fun _ _ => rfl) (hinv.myproc_eq hcpu rfl) rfl rfl (fun _ h => h) ?_ ?_⟩
    · exact .take q hlock rfl (by simp [hcpu]) (by simp)
    · exact .same (by simp [hcpu]) (fun _ => Iff.rfl)
  | @irqRelease c i q chan hcpu =>
    refine ⟨c, Change.of_scheduler (k := .scan i) hinv (by simp [hcpu]) (by simp) (by simp) rfl
      (fun _ _ => rfl) (hinv.myproc_eq hcpu rfl) rfl rfl ?_ ?_ ?_⟩
    · exact used_of_update fun h => by simp [h]
    · exact .drop q rfl (by simp [hcpu]) (by simp)
    · exact .same (by simp [hcpu])
        (running_of_quiet ((s.proc q).wake_quiet chan))
  | @leave c t p how hcpu hpos hp hlock hexit =>
    obtain rfl := hinv.self hcpu hp
    exact ⟨c, take_change hinv hcpu hpos hlock rfl rfl (by simp) (by simp)⟩
  | @write c t p how hcpu hpos hp => exact ⟨c, write_change hinv hcpu hpos hp⟩
  | @sched c t p how hcpu hpos hp hlock hstate =>
    exact ⟨c, sched_change hinv hcpu hpos hp hstate⟩
  | @resume c t p frame hcpu hpos hp hframe => exact ⟨c, resume_change hinv hcpu hpos hp⟩
  | @visit c t p q op hcpu hpos hp hlock hop =>
    refine ⟨c, take_change hinv hcpu hpos hlock rfl rfl (by simp) ?_⟩
    intro r op' e
    obtain ⟨rfl, rfl⟩ := ThreadPos.visit.inj e
    exact hop.ready
  | @endVisit c t q op hcpu hpos => exact ⟨c, endVisit_change hinv hcpu hpos⟩
  | @freeWake c t p q r op hcpu hpos hop hp hr hlock =>
    refine ⟨c, Change.of_still hinv hcpu rfl rfl rfl rfl ?_ ?_ (fun _ _ => rfl) ?_⟩
    · exact running_of_quiet ((s.proc r).wake_quiet .kmem)
    · exact .same (fun _ => rfl) (used_of_update fun h => by simp [h])
    · exact fun q op h => hinv.visits t q op h
  | @setParent c t p np hcpu hpos hp hmake =>
    refine ⟨c, Change.of_still hinv hcpu rfl rfl rfl rfl ?_ ?_ (fun t' e => by simp [e]) ?_⟩
    · exact running_of_quiet (.inl rfl)
    · constructor
      · intro t'
        by_cases e : t' = t
        · simp [e, hmake]
        · simp [e]
      · exact used_of_update fun h => h
    · simp [hpos]
  | @reparent c t p q hcpu hpos hp hparent =>
    refine ⟨c, Change.of_still hinv hcpu rfl rfl rfl rfl ?_ ?_ (fun _ _ => rfl) ?_⟩
    · exact running_of_quiet (.inl rfl)
    · exact .same (fun _ => rfl) (used_of_update fun h => h)
    · simp [hpos]

theorem SchedInv.of_init (hinit : (schedSystem κ).init s) : SchedInv s := by
  obtain ⟨hcpu, hcpuProc, hlock, hmaking, hpos, hfirst, hunused⟩ := hinit
  have hstate : ∀ q, (s.proc q).state ≠ .RUNNING := by
    intro q
    by_cases e : q = s.initproc
    · rw [e, hfirst]
      decide
    · rw [hunused q e]
      decide
  constructor
  · intro c q
    simp [hlock, hcpu]
  · intro c
    simp [hcpuProc, hcpu]
  · intro c t f h
    simp [hcpu] at h
  · intro t _
    exact ⟨.forkret, hpos t⟩
  · intro q
    simp [hstate, hcpu]
  · intro c c' q h
    simp [hcpu] at h
  · intro c q h
    simp [hcpu] at h
  · intro t np h
    simp [hmaking] at h
  · intro t t' np h
    simp [hmaking] at h
  · intro t q op h
    simp [hpos] at h

/-- **The invariant holds in every run.** -/
theorem SchedInv.of_reachable (h : Reachable (schedSystem κ) s) : SchedInv s := by
  apply h.invariant (P := SchedInv)
  · intro s hinit
    exact SchedInv.of_init hinit
  · intro s ev s' _ hinv hstep
    obtain ⟨c, hchange⟩ := hinv.change hstep
    exact hinv.of_change hchange

/-- In a table changed at one slot, the change there is the only one. -/
theorem arrow_of_update {proc : Slot → Proc} {p : Slot} {x : Proc}
    (h : x.state = (proc p).state ∨ StateArrow (proc p).state x.state) (q : Slot) :
    (update proc p x q).state = (proc q).state ∨
      StateArrow (proc q).state (update proc p x q).state := by
  by_cases e : q = p
  · subst e
    simpa using h
  · left
    rw [update_of_ne e]

/-- The changes of `p->state` by one step. -/
theorem SchedInv.arrow {s' : SchedState κ} {ev : SchedEvent} (hinv : SchedInv s)
    (hstep : SchedStep s ev s') (q : Slot) :
    (s'.proc q).state = (s.proc q).state ∨ StateArrow (s.proc q).state (s'.proc q).state := by
  cases hstep with
  | @choose c p hcpu hstate =>
    apply arrow_of_update
    right
    simpa [hstate] using StateArrow.dispatch
  | @irqRelease c i r chan hcpu => exact arrow_of_update ((s.proc r).wake_quiet chan).arrow q
  | @write c t p how hcpu hpos hp =>
    obtain rfl := hinv.self hcpu hp
    have hrun : (s.proc p).state = .RUNNING := hinv.thread_running hcpu (by simp [hpos])
    exact arrow_of_update (.inr ((how.write_state (s.proc p)).2 hrun)) q
  | @resume c t p frame hcpu hpos hp hframe =>
    exact arrow_of_update (.inl (frame.tidy_state (s.proc p))) q
  | @endVisit c t r op hcpu hpos =>
    have hquiet : QuietChange (s.proc r).state (op.update s.nextpid (s.proc r)).state :=
      Visit.update_quiet _ (hinv.visits t r op hpos) (hinv.making t r)
    exact arrow_of_update hquiet.arrow q
  | @freeWake c t p r₀ r op hcpu hpos hop hp hr hlock =>
    exact arrow_of_update ((s.proc r).wake_quiet .kmem).arrow q
  | @setParent c t p np hcpu hpos hp hmake =>
    exact arrow_of_update (x := { s.proc np with parent := some p }) (.inl rfl) q
  | @reparent c t p r hcpu hpos hp hparent =>
    exact arrow_of_update (x := { s.proc r with parent := some s.initproc }) (.inl rfl) q
  | _ => exact .inl rfl

/-- **Scheduler safety.**  In every state of every run, with any CPUs: a slot
whose lock is free is `RUNNING` exactly if one CPU has it as `c->proc`; no two
CPUs have the same process; and whatever step comes next, it switches to no
`ZOMBIE` or `UNUSED` slot and changes `p->state` along the arrows only. -/
theorem scheduler_safe {s : SchedState κ} (h : Reachable (schedSystem κ) s) :
    (∀ q, s.lock q = none →
      ((s.proc q).state = .RUNNING ↔ ∃! c, s.cpuProc c = some q)) ∧
    (∀ c c' q, s.cpuProc c = some q → s.cpuProc c' = some q → c = c') ∧
    ∀ ev s', (schedSystem κ).step s ev s' →
      (∀ p, ev = .swtch p → (s.proc p).state ≠ .ZOMBIE ∧ (s.proc p).state ≠ .UNUSED) ∧
      ∀ q, (s'.proc q).state = (s.proc q).state ∨
        StateArrow (s.proc q).state (s'.proc q).state := by
  have hinv := SchedInv.of_reachable h
  refine ⟨?_, fun c c' q => hinv.proc_unique, ?_⟩
  · intro q hfree
    rw [hinv.running q]
    constructor
    · rintro ⟨c, hc⟩
      have hproc := (hinv.keeps_iff hfree c).1 hc
      exact ⟨c, hproc, fun c' hc' => hinv.proc_unique hc' hproc⟩
    · rintro ⟨c, hc, _⟩
      exact ⟨c, (hinv.keeps_iff hfree c).2 hc⟩
  · intro ev s' hstep
    refine ⟨?_, hinv.arrow hstep⟩
    rintro p rfl
    cases hstep with
    | @swtch c _ hcpu =>
      have hrun : (s.proc p).state = .RUNNING := (hinv.running p).2 ⟨c, by simp [hcpu]⟩
      rw [hrun]
      decide

/-- Two CPUs after `userinit`. -/
def bootSched : SchedState Bool where
  proc p := if p = 0 then { Proc.unused with state := .RUNNABLE, pid := 1 } else .unused
  nextpid := 2
  initproc := 0
  lock _ := none
  cpu _ := .scan 0
  cpuProc _ := none
  pos _ := .saved .forkret
  making _ := .none

/-- The first process gets to run, and has dropped its lock in `forkret`. -/
theorem first_process_runs : ∃ s : SchedState Bool, Reachable (schedSystem Bool) s ∧
    s.lock 0 = none ∧ (s.proc 0).state = .RUNNING := by
  have h₀ : Reachable (schedSystem Bool) bootSched := by
    apply Reachable.start
    refine ⟨fun _ => rfl, fun _ => rfl, fun _ => rfl, fun _ => rfl, fun _ => rfl, rfl, ?_⟩
    intro p hp
    exact if_neg hp
  have h₁ := h₀.next (.acquire (c := true) (p := 0) rfl rfl)
  have h₂ := h₁.next (.choose (c := true) (p := 0) rfl rfl)
  have h₃ := h₂.next (.setProc (c := true) (p := 0) rfl)
  have h₄ := h₃.next (.swtch (c := true) (p := 0) rfl)
  have h₅ := h₄.next (@SchedStep.resume Bool _ _ true 0 0 .forkret rfl rfl rfl (by decide))
  exact ⟨_, h₅, rfl, rfl⟩

theorem scheduler_safe_first_process : ∃ s : SchedState Bool, Reachable (schedSystem Bool) s ∧
    s.lock 0 = none ∧ ∃! c, s.cpuProc c = some 0 := by
  obtain ⟨s, hreach, hfree, hrun⟩ := first_process_runs
  exact ⟨s, hreach, hfree, ((scheduler_safe hreach).1 0 hfree).1 hrun⟩

end Safety

end Kus
