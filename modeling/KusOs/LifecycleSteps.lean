import KusOs.Lifecycle

/-!
# What a step can do to the process table

The case analysis over the steps of `lifeSystem`, done once for each part of the
state: the state field of a slot, its parent, the slot a thread is creating,
`wait_lock` and the slot locks.  The invariants of the later files are derived
from these lemmas and look at no step again.
-/

namespace Kus

open Transition

variable {s s' : LifeState} {ev : LifeEvent} {who : Option Slot}

/-- How a step can change the state of slot `q`. -/
@[grind cases]
inductive StateChange (s s' : LifeState) (ev : LifeEvent) (who : Option Slot) (q : Slot) :
    ProcState → ProcState → Prop
  | same {a} : StateChange s s' ev who q a a
  | found {t pid} (hev : ev = .allocFound q pid) (hwho : who = some t) (hpc : s.pc t = .scan q)
      (hpc' : s'.pc t = .kalloc (.trapframe q)) : StateChange s s' ev who q .UNUSED .USED
  | runnable {t a} (hwho : who = some t) (hpc : s.pc t = .forkRunnable q) (hpc' : s'.pc t = .run) :
      StateChange s s' ev who q a .RUNNABLE
  | freed {t c a} (hwho : who = some t) (hpc : s.pc t = .fail q c)
      (hpc' : (s'.pc t).creates = none) (hself : s'.proc q = .unused) :
      StateChange s s' ev who q a .UNUSED
  | reaped {t a} (hev : ev = .waitReap q (s.proc q).pid (s.proc q).xstate) (hwho : who = some t)
      (hpc : s.pc t = .waitFound q) (hpc' : s'.pc t = .run) (hself : s'.proc q = .unused) :
      StateChange s s' ev who q a .UNUSED
  | dispatched : StateChange s s' ev who q .RUNNABLE .RUNNING
  | preempted (hwait : (s'.pc q).holdsWait = false) : StateChange s s' ev who q .RUNNING .RUNNABLE
  | slept (hwho : who = some q) (hwait : (s'.pc q).holdsWait = false)
      (hchan : (∃ addr, (s'.proc q).chan = .other addr) ∨ ev = .kallocStall ∨ ev = .kallocRetry ∨
        ev = .waitSleep) : StateChange s s' ev who q .RUNNING .SLEEPING
  | woken : StateChange s s' ev who q .SLEEPING .RUNNABLE
  | exited {status} (hev : ev = .exitZombie status) (hwho : who = some q)
      (hpc : s.pc q = .exitZombie status)
      (hpc' : s'.pc q = .run) : StateChange s s' ev who q .RUNNING .ZOMBIE



section StateChange

variable {q : Slot} {a b : ProcState}

theorem StateChange.of_eq (h : b = a) : StateChange s s' ev who q a b :=
  h ▸ .same

theorem StateChange.of_woken (h : b = a ∨ a = .SLEEPING ∧ b = .RUNNABLE) :
    StateChange s s' ev who q a b := by
  rcases h with rfl | ⟨rfl, rfl⟩
  · exact .same
  · exact .woken

end StateChange

/-- **What a step can do to a slot's state.** -/
theorem LifeStep.state_change (hs : LifeStep s (ev, who) s') (q : Slot) :
    StateChange s s' ev who q (s.proc q).state (s'.proc q).state := by
  cases hs with
  | move | updatePsi | lockNew | forkRelease | exitLock | waitLock | waitFound | waitCopyFail
  | waitNone => exact .same
  | ownSz | ownExec | ownKilled | ownWoken | kallocTake | kallocKilled | kallocWoken | tableDone
  | forkSz | forkParent | waitWoken =>
    exact .of_eq (by simp [apply_ite Proc.state])
  | ownKfree | copyUndo | dropTable | exitAdopt | exitWake | killHit | wakeOther =>
    refine .of_woken ?_
    simp only [LifeState.goto, LifeState.setProc, LifeState.kfree, LifeState.wakeup, Proc.wake,
      Proc.kill]
    grind
  | @ownSleep t _ hrun | @kallocStall t _ hrun | @waitSleep t hrun =>
    by_cases hq : q = t
    · subst hq
      simpa [hrun] using StateChange.slept rfl (by simp [Pc.holdsWait]) (by simp)
    · exact .of_eq (by simp [hq])
  | @kallocRetry t _ hrun hpc =>
    by_cases hq : q = t
    · subst hq
      simpa [hrun] using StateChange.slept rfl (by simp [hpc, Pc.holdsWait]) (by simp)
    · exact .of_eq (by simp [hq])
  | @allocFound t i hrun hpc hlock hstate =>
    by_cases hq : q = i
    · subst hq
      simpa [hstate] using StateChange.found rfl rfl hpc (by simp)
    · exact .of_eq (by simp [hq])
  | @forkRunnable t np hrun hpc =>
    by_cases hq : q = np
    · subst hq
      simpa using StateChange.runnable rfl hpc (by simp)
    · exact .of_eq (by simp [hq])
  | @allocFree t np hrun hpc | @forkFree t np hrun hpc =>
    by_cases hq : q = np
    · subst hq
      simpa using StateChange.freed rfl hpc (by simp [Pc.creates]) (by simp)
    refine .of_woken ?_
    simp [hq]
    grind
  | @waitReap t i hrun hpc =>
    by_cases hq : q = i
    · subst hq
      simpa using StateChange.reaped rfl rfl hpc (by simp) (by simp)
    refine .of_woken ?_
    simp [hq]
    grind
  | @exitZombie t status hrun hpc =>
    by_cases hq : q = t
    · subst hq
      simpa [hrun] using StateChange.exited rfl rfl hpc (by simp)
    · exact .of_eq (by simp [hq])
  | @dispatch p hstate =>
    by_cases hq : q = p
    · subst hq
      simpa [hstate] using StateChange.dispatched
    · exact .of_eq (by simp [hq])
  | @preempt t hrun hlock hwait =>
    by_cases hq : q = t
    · subst hq
      simpa [hrun] using StateChange.preempted (by simpa using hwait)
    · exact .of_eq (by simp [hq])

/-- A step moves no thread but its own. -/
theorem LifeStep.pc_other (hs : LifeStep s (ev, who) s') {u : Slot} (hu : who ≠ some u) :
    s'.pc u = s.pc u := by
  have hne : ∀ t, who = some t → u ≠ t := fun t hwho hut => hu (hut ▸ hwho)
  cases hs with
  | dispatch | wakeOther | updatePsi => rfl
  | _ => simp [hne _ rfl]

theorem LifeStep.initproc_eq (hs : LifeStep s (ev, who) s') : s'.initproc = s.initproc := by
  cases hs <;> simp

@[simp] theorem Site.next_creates (site : Site) (r : Nat) :
    (site.next r).creates = site.creates := by
  cases site <;> rfl

@[simp] theorem Site.failed_creates (site : Site) : site.failed.creates = site.creates := by
  cases site <;> rfl

@[simp] theorem Site.next_holdsWait (site : Site) (r : Nat) : (site.next r).holdsWait = false := by
  cases site <;> rfl

@[simp] theorem Site.failed_holdsWait (site : Site) : site.failed.holdsWait = false := by
  cases site <;> rfl

@[simp] theorem Site.next_holdsSlot (site : Site) (r : Nat) : (site.next r).holdsSlot = none := by
  cases site <;> rfl

@[simp] theorem Site.failed_holdsSlot (site : Site) : site.failed.holdsSlot = none := by
  cases site <;> rfl

/-- How a step can change the slot the thread `t` is creating. -/
@[grind cases]
inductive CreatesChange (s s' : LifeState) (who : Option Slot) (t : Slot) :
    Option Slot → Option Slot → Prop
  | same {o} : CreatesChange s s' who t o o
  | began {np : Slot} (hwho : who = some t) (hpc : s.pc t = .scan np)
      (hstate : (s.proc np).state = .UNUSED) (hstate' : (s'.proc np).state = .USED) :
      CreatesChange s s' who t none (some np)
  | runnable {np} (hwho : who = some t) (hpc : s.pc t = .forkRunnable np)
      (hstate' : (s'.proc np).state = .RUNNABLE) : CreatesChange s s' who t (some np) none
  | freed {np c} (hwho : who = some t) (hpc : s.pc t = .fail np c)
      (hstate' : (s'.proc np).state = .UNUSED) : CreatesChange s s' who t (some np) none

theorem CreatesChange.of_eq {t : Slot} {a b : Option Slot} (h : b = a) :
    CreatesChange s s' who t a b :=
  h ▸ .same

theorem Move.creates_eq {t : Slot} {k k' : Pc} (h : Move s t k k') : k'.creates = k.creates := by
  cases h <;> rfl

/-- **What a step can do to who creates what.** -/
theorem LifeStep.creates_change (hs : LifeStep s (ev, who) s') (t : Slot) :
    CreatesChange s s' who t (s.pc t).creates (s'.pc t).creates := by
  by_cases hwho : who = some t
  · subst hwho
    cases hs with
    | move hrun hpc hmove =>
      subst hpc
      exact .of_eq (by simpa using hmove.creates_eq)
    | allocFound hrun hpc hlock hstate =>
      simpa [hpc, Pc.creates, Site.creates] using CreatesChange.began rfl hpc hstate (by simp)
    | forkRunnable hrun hpc =>
      simpa [hpc, Pc.creates] using CreatesChange.runnable rfl hpc (by simp)
    | allocFree hrun hpc | forkFree hrun hpc =>
      simpa [hpc, Pc.creates] using CreatesChange.freed rfl hpc (by simp)
    | kallocTake hrun hpc | kallocKilled hrun hpc | kallocWoken hrun hpc =>
      exact .of_eq (by simpa [hpc] using by rfl)
    | _ => exact .of_eq (by simp_all [Pc.creates])
  · exact .of_eq (by rw [hs.pc_other hwho])

/-- How a step can change `wait_lock`, and with it which thread holds it. -/
@[grind cases]
inductive WaitLockChange (s s' : LifeState) (who : Option Slot) : Prop
  | same (hlock : s'.waitLock = s.waitLock)
      (hpc : ∀ t, (s'.pc t).holdsWait = (s.pc t).holdsWait)
  | acquired {t} (hwho : who = some t) (hfree : s.waitLock = none) (hlock : s'.waitLock = some t)
      (hpc : (s.pc t).holdsWait = false) (hpc' : (s'.pc t).holdsWait = true)
  | released {t} (hwho : who = some t) (hlock : s'.waitLock = none)
      (hpc : (s.pc t).holdsWait = true) (hpc' : (s'.pc t).holdsWait = false)

theorem Move.holdsWait_eq {t : Slot} {k k' : Pc} (h : Move s t k k') :
    k'.holdsWait = k.holdsWait := by
  cases h <;> rfl

/-- What the positions say, if it stays so for the thread that acts. -/
private theorem pc_of_actor {α : Type} (f : Pc → α) (hs : LifeStep s (ev, who) s') {t : Slot}
    (hwho : who = some t) (ht : f (s'.pc t) = f (s.pc t)) (u : Slot) :
    f (s'.pc u) = f (s.pc u) := by
  by_cases hu : u = t
  · rw [hu, ht]
  · rw [hs.pc_other (by simpa [hwho] using fun h => hu h.symm)]

/-- **What a step can do to `wait_lock`.** -/
theorem LifeStep.waitLock_change (hs : LifeStep s (ev, who) s') : WaitLockChange s s' who := by
  have hsame := fun {t} => pc_of_actor (t := t) Pc.holdsWait hs
  cases hs with
  | dispatch | wakeOther | updatePsi => exact .same rfl fun _ => rfl
  | move hrun hpc hmove =>
    subst hpc
    exact .same rfl (hsame rfl (by simpa using hmove.holdsWait_eq))
  | exitLock hrun hpc hlock | waitLock hrun hpc hlock =>
    exact .acquired rfl hlock rfl (by simp [hpc, Pc.holdsWait]) (by simp [Pc.holdsWait])
  | exitZombie hrun hpc | waitCopyFail hrun hpc | waitReap hrun hpc | waitNone hrun hpc
  | waitSleep hrun hpc =>
    exact .released rfl rfl (by simp [hpc, Pc.holdsWait]) (by simp [Pc.holdsWait])
  | kallocTake hrun hpc | kallocKilled hrun hpc | kallocWoken hrun hpc =>
    exact .same rfl (hsame rfl (by simpa [hpc] using by rfl))
  | preempt => exact .same rfl fun _ => rfl
  | _ => exact .same (by simp) (hsame rfl (by simp [*, -hsame, Pc.holdsWait]))

/-- How a step can change the slot locks, and with them which thread holds
which. -/
@[grind cases]
inductive SlotLockChange (s s' : LifeState) (who : Option Slot) : Prop
  | same (hlock : ∀ q, s'.plock q = s.plock q)
      (hpc : ∀ t, (s'.pc t).holdsSlot = (s.pc t).holdsSlot)
  | acquired {t p} (hwho : who = some t) (hfree : s.plock p = none)
      (hlock : ∀ q, s'.plock q = if q = p then some t else s.plock q)
      (hpc : (s.pc t).holdsSlot = none) (hpc' : (s'.pc t).holdsSlot = some p)
  | released {t p} (hwho : who = some t)
      (hlock : ∀ q, s'.plock q = if q = p then none else s.plock q)
      (hpc : (s.pc t).holdsSlot = some p) (hpc' : (s'.pc t).holdsSlot = none)

theorem Move.holdsSlot_eq {t : Slot} {k k' : Pc} (h : Move s t k k') :
    k'.holdsSlot = k.holdsSlot := by
  cases h <;> rfl

/-- **What a step can do to the slot locks.** -/
theorem LifeStep.slotLock_change (hs : LifeStep s (ev, who) s') : SlotLockChange s s' who := by
  have hsame := fun {t} => pc_of_actor (t := t) Pc.holdsSlot hs
  cases hs with
  | dispatch | wakeOther | updatePsi => exact .same (fun _ => rfl) fun _ => rfl
  | move hrun hpc hmove =>
    subst hpc
    exact .same (fun _ => rfl) (hsame rfl (by simpa using hmove.holdsSlot_eq))
  | lockNew hrun hpc hlock | waitFound hrun hpc hparent hlock =>
    exact .acquired rfl hlock (fun _ => rfl) (by simp [hpc, Pc.holdsSlot]) (by simp [Pc.holdsSlot])
  | forkRelease hrun hpc | waitCopyFail hrun hpc =>
    exact .released rfl (fun _ => rfl) (by simp [hpc, Pc.holdsSlot]) (by simp [Pc.holdsSlot])
  | @waitReap t i hrun hpc =>
    exact .released (p := i) rfl (fun _ => by simp) (by simp [hpc, Pc.holdsSlot])
      (by simp [Pc.holdsSlot])
  | kallocTake hrun hpc | kallocKilled hrun hpc | kallocWoken hrun hpc =>
    exact .same (fun _ => rfl) (hsame rfl (by simpa [hpc] using by rfl))
  | preempt => exact .same (fun _ => rfl) fun _ => rfl
  | _ => exact .same (fun _ => by simp) (hsame rfl (by simp [*, -hsame, Pc.holdsSlot]))

/-- Asleep in `kwait`. -/
def LifeState.WaitAsleep (s : LifeState) (p : Slot) : Prop :=
  (s.proc p).state = .SLEEPING ∧ (s.proc p).chan = .proc p

/-- How a step can change the parent of slot `q`. -/
@[grind cases]
inductive ParentChange (s s' : LifeState) (who : Option Slot) (q : Slot) :
    Option Slot → Option Slot → Prop
  | same {o} : ParentChange s s' who q o o
  | set {t o} (hwho : who = some t) (hpc : s.pc t = .forkParent q)
      (hpc' : s'.pc t = .forkRunnable q) (hfree : s.waitLock = none) :
      ParentChange s s' who q o (some t)
  | adopted {t status} (hwho : who = some t) (hpc : s.pc t = .exitScan status q)
      (hwoken : ¬ s'.WaitAsleep s.initproc) :
      ParentChange s s' who q (some t) (some s.initproc)
  | cleared {o} (hstate' : (s'.proc q).state = .UNUSED) : ParentChange s s' who q o none

theorem ParentChange.of_eq {q : Slot} {a b : Option Slot} (h : b = a) :
    ParentChange s s' who q a b :=
  h ▸ .same

/-- **What a step can do to a slot's parent.** -/
theorem LifeStep.parent_change (hs : LifeStep s (ev, who) s') (q : Slot) :
    ParentChange s s' who q (s.proc q).parent (s'.proc q).parent := by
  cases hs with
  | @forkParent t np hrun hpc hfree =>
    by_cases hq : q = np
    · subst hq
      simpa using ParentChange.set rfl hpc (by simp) hfree
    · exact .of_eq (by simp [hq])
  | @exitAdopt t status i hrun hpc hparent =>
    by_cases hq : q = i
    · subst hq
      have hwoken : ¬ LifeState.WaitAsleep (((s.setProc q fun x =>
          { x with parent := some s.initproc }).wakeup t (.proc s.initproc)).goto t
          (.exitScan status (q + 1))) s.initproc := by
        simp only [LifeState.WaitAsleep, LifeState.goto, LifeState.wakeup, LifeState.setProc,
          Proc.wake]
        grind
      have hset := ParentChange.adopted rfl hpc hwoken
      simpa [hparent, apply_ite Proc.parent] using hset
    · exact .of_eq (by simp [hq, apply_ite Proc.parent])
  | @allocFree t np | @forkFree t np | @waitReap t np =>
    by_cases hq : q = np
    · subst hq
      simpa using ParentChange.cleared (by simp)
    · exact .of_eq (by simp [hq, apply_ite Proc.parent])
  | _ => exact .of_eq (by simp [apply_ite Proc.parent])

/-- How a thread gets to a position at which it holds `wait_lock`. -/
@[grind cases]
inductive WaitMove (s s' : LifeState) (t : Slot) : Pc → Pc → Prop
  | stay {k} : WaitMove s s' t k k
  | exitLock {status} : WaitMove s s' t (.exitStart status) (.exitScan status 0)
  | exitNext {status} {i : Slot}
      (hparent : (s'.proc i).parent ≠ some t ∨ (s'.proc i).parent = some s.initproc) :
      WaitMove s s' t (.exitScan status i) (.exitScan status (i + 1))
  | exitWake {status} (hwoken : ∀ r, (s.proc t).parent = some r → ¬ s'.WaitAsleep r) :
      WaitMove s s' t (.exitScan status NPROC) (.exitZombie status)
  | waitLock : WaitMove s s' t .waitStart (.waitScan 0 false)
  | waitSkip {i : Slot} {havekids} (hparent : (s.proc i).parent ≠ some t) :
      WaitMove s s' t (.waitScan i havekids) (.waitScan (i + 1) havekids)
  | waitChild {i : Slot} {havekids} (hparent : (s.proc i).parent = some t)
      (hstate : (s.proc i).state ≠ .ZOMBIE) :
      WaitMove s s' t (.waitScan i havekids) (.waitScan (i + 1) true)
  | waitFound {i : Slot} {havekids} (hparent : (s.proc i).parent = some t)
      (hstate : (s.proc i).state = .ZOMBIE) :
      WaitMove s s' t (.waitScan i havekids) (.waitFound i)
  | waitGo : WaitMove s s' t (.waitScan NPROC true) .waitGo

/-- **How a thread comes to hold `wait_lock`, and what it knows then.** -/
theorem LifeStep.wait_move (hs : LifeStep s (ev, who) s') {t : Slot}
    (h' : (s'.pc t).holdsWait = true) : WaitMove s s' t (s.pc t) (s'.pc t) := by
  by_cases hwho : who = some t
  · subst hwho
    cases hs with
    | move hrun hpc hmove =>
      subst hpc
      generalize hk : s.pc t = k at hmove
      cases hmove with
      | exitSkip hparent => simpa using WaitMove.exitNext (.inl (by simpa using hparent))
      | waitSkip hparent => simpa using WaitMove.waitSkip hparent
      | waitChild hparent hlock hstate => simpa using WaitMove.waitChild hparent hstate
      | waitGo => simpa using WaitMove.waitGo
      | _ => simp [Pc.holdsWait] at h'
    | exitLock hrun hpc => simpa [hpc] using WaitMove.exitLock
    | exitAdopt hrun hpc hparent =>
      simpa [hpc] using WaitMove.exitNext (.inr (by simp [apply_ite Proc.parent]))
    | @exitWake t status chan hrun hpc hchan =>
      have hwoken : ∀ r, (s.proc t).parent = some r →
          ¬ ((s.wakeup t chan).goto t (.exitZombie status)).WaitAsleep r := by
        intro r hr
        rw [hr] at hchan
        simp only [LifeState.WaitAsleep, LifeState.goto, LifeState.wakeup, Proc.wake]
        grind
      simpa [hpc] using WaitMove.exitWake hwoken
    | kallocTake | kallocKilled | kallocWoken => simp at h'
    | waitLock hrun hpc => simpa [hpc] using WaitMove.waitLock
    | waitFound hrun hpc hparent hlock hstate => simpa [hpc] using WaitMove.waitFound hparent hstate
    | preempt => exact .stay
    | _ => simp_all [Pc.holdsWait]
  · rw [hs.pc_other hwho]
    exact .stay

theorem LifeStep.actor_running (hs : LifeStep s (ev, who) s') {t : Slot} (hwho : who = some t) :
    (s.proc t).state = .RUNNING := by
  cases hs <;> simp_all

/-- The positions inside `kexit`. -/
def Pc.exiting : Pc → Bool
  | .exitStart _ | .exitScan _ _ | .exitZombie _ => true
  | _ => false

/-- The first process does not call `kexit` (the source panics). -/
theorem LifeStep.to_exiting (hs : LifeStep s (ev, who) s') {t : Slot}
    (h' : (s'.pc t).exiting = true) : (s.pc t).exiting = true ∨ t ≠ s.initproc := by
  by_cases hwho : who = some t
  · subst hwho
    cases hs with
    | move hrun hpc hmove =>
      subst hpc
      generalize hk : s.pc t = k at hmove
      cases hmove with
      | callExit hinit => exact .inr hinit
      | exitSkip => exact .inl rfl
      | _ => simp [Pc.exiting] at h'
    | exitLock hrun hpc | exitAdopt hrun hpc | exitWake hrun hpc => exact .inl (by rw [hpc]; rfl)
    | @kallocTake _ site | @kallocKilled _ site | @kallocWoken _ site =>
      cases site <;> simp [Pc.exiting, Site.next, Site.failed] at h'
    | preempt => exact .inl h'
    | _ => simp_all [Pc.exiting]
  · exact .inl (hs.pc_other hwho ▸ h')

/-- A process falls asleep in `kwait` only from the end of a scan. -/
theorem LifeStep.to_waitAsleep (hs : LifeStep s (ev, who) s') {t : Slot} (h' : s'.WaitAsleep t) :
    s.WaitAsleep t ∨ who = some t ∧ s.pc t = .waitGo := by
  unfold LifeState.WaitAsleep at *
  cases hs with
  | @waitSleep u hrun hpc =>
    by_cases ht : t = u
    · exact .inr ⟨by rw [ht], by rw [ht, hpc]⟩
    · left
      simpa [ht] using h'
  | updatePsi => exact .inl h'
  | _ =>
    left
    simp only [LifeState.goto, LifeState.setProc, LifeState.setPlock, LifeState.kfree,
      LifeState.wakeup, LifeState.freeproc_eq, LifeState.deliver, LifeState.refuse,
      LifeState.sleep, Proc.wake, Proc.kill, Site.store, Site.storeNull, Proc.unused] at h'
    grind

/-- How a step can change pids, exit statuses and the recorded history. -/
@[grind cases]
inductive HistoryChange (s s' : LifeState) (who : Option Slot) : LifeEvent → Prop
  | same {e : LifeEvent} (hfound : ∀ np pid, e ≠ .allocFound np pid)
      (hexited : ∀ st, e ≠ .exitZombie st) (hreaped : ∀ i pid st, e ≠ .waitReap i pid st)
      (hnext : s'.nextpid = s.nextpid) (hissued : s'.issued = s.issued)
      (hbirths : s'.births = s.births) (hinc : ∀ q, s'.inc q = s.inc q)
      (hexits : s'.exits = s.exits) (hreaps : s'.reaps = s.reaps)
      (hproc : ∀ q, (s'.proc q).state = .UNUSED ∨
        (s'.proc q).pid = (s.proc q).pid ∧ (s'.proc q).xstate = (s.proc q).xstate) :
      HistoryChange s s' who e
  | found {t np : Slot} (hwho : who = some t) (hstate : (s.proc np).state = .UNUSED)
      (hnext : s'.nextpid = Int.bmod (s.nextpid + 1) (2 ^ 32))
      (hissued : s'.issued = s.nextpid :: s.issued) (hbirths : s'.births = s.births + 1)
      (hinc : ∀ q, s'.inc q = if q = np then s.births else s.inc q)
      (hexits : s'.exits = s.exits) (hreaps : s'.reaps = s.reaps)
      (hnp : (s'.proc np).pid = s.nextpid)
      (hproc : ∀ q, q ≠ np → s'.proc q = s.proc q) :
      HistoryChange s s' who (.allocFound np s.nextpid)
  | exited {t : Slot} {status} (hwho : who = some t)
      (hnext : s'.nextpid = s.nextpid) (hissued : s'.issued = s.issued)
      (hbirths : s'.births = s.births) (hinc : ∀ q, s'.inc q = s.inc q)
      (hexits : s'.exits = s.exitRecord t status :: s.exits)
      (hreaps : s'.reaps = s.reaps)
      (hself : s'.proc t = { s.proc t with xstate := status, state := .ZOMBIE })
      (hproc : ∀ q, q ≠ t → s'.proc q = s.proc q) :
      HistoryChange s s' who (.exitZombie status)
  | reaped {t i : Slot} (hwho : who = some t) (hpc : s.pc t = .waitFound i)
      (hnext : s'.nextpid = s.nextpid) (hissued : s'.issued = s.issued)
      (hbirths : s'.births = s.births) (hinc : ∀ q, s'.inc q = s.inc q)
      (hexits : s'.exits = s.exits)
      (hreaps : s'.reaps = s.reapRecord t i :: s.reaps)
      (hself : s'.proc i = .unused)
      (hproc : ∀ q, q ≠ i → (s'.proc q).pid = (s.proc q).pid ∧
        (s'.proc q).xstate = (s.proc q).xstate) :
      HistoryChange s s' who (.waitReap i (s.proc i).pid (s.proc i).xstate)

/-- **What a step can do to the history.** -/
theorem LifeStep.history_change (hs : LifeStep s (ev, who) s') : HistoryChange s s' who ev := by
  cases hs with
  | @allocFound t i hrun hpc hlock hstate =>
    refine .found rfl hstate rfl rfl rfl (fun q => ?_) rfl rfl (by simp) fun q hq => by simp [hq]
    simp [Function.update_apply]
  | @exitZombie t status hrun hpc =>
    exact .exited rfl rfl rfl rfl (fun _ => rfl) rfl rfl (by simp) fun q hq => by simp [hq]
  | @waitReap t i hrun hpc =>
    refine .reaped rfl hpc ?_ ?_ ?_ (fun _ => ?_) ?_ ?_ (by simp) fun q hq => ?_
    all_goals simp [*, apply_ite Proc.pid, apply_ite Proc.xstate]
  | @allocFree t np | @forkFree t np =>
    refine .same (by simp) (by simp) (by simp) ?_ ?_ ?_ (fun _ => ?_) ?_ ?_ fun q => ?_
    all_goals try simp
    by_cases hq : q = np <;> simp [hq, apply_ite Proc.pid, apply_ite Proc.xstate]
  | _ =>
    refine .same (by simp) (by simp) (by simp) rfl rfl rfl (fun _ => rfl) rfl rfl fun q => ?_
    right
    simp [apply_ite Proc.pid, apply_ite Proc.xstate]

end Kus
