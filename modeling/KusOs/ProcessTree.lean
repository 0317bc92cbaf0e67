import Mathlib
import KusOs.RootedForest
import KusOs.WaitProtocol

/-!
# The tree of processes

`kfork` puts a new process below its caller, and `reparent` hands the children of
one that exits to `init`, one slot at a time, while others fork and are reaped.
-/

namespace Kus

open Transition Relation Forest

variable {s s' : LifeState} {ev : LifeEvent} {who : Option Slot}

/-- A process was started in slot `q`; it may be a zombie by now. -/
def LifeState.Started (s : LifeState) (q : Slot) : Prop :=
  (s.proc q).state ≠ .UNUSED ∧ (s.proc q).state ≠ .USED

def LifeState.ChildOf (s : LifeState) (q r : Slot) : Prop := (s.proc q).parent = some r

/-- The processes form a tree below `init`. -/
structure Descent (s : LifeState) : Prop where
  rooted : Rooted s.Started s.ChildOf s.initproc
  top : (s.proc s.initproc).parent = none
  /-- A child has its parent before it can run. -/
  hung : ∀ t np, s.pc t = .forkRunnable np → s.ChildOf np t

/-- Only by setting the parent. -/
theorem LifeStep.forkRunnable_from (hs : LifeStep s (ev, who) s') {t np : Slot}
    (ht : s'.pc t = .forkRunnable np) : s.pc t = .forkRunnable np ∨ s'.ChildOf np t := by
  by_cases hwho : who = some t
  · subst hwho
    cases hs with
    | forkParent hrun hpc hfree => simp_all [LifeState.ChildOf]
    | move hrun hpc hmove =>
      left
      cases hmove <;> simp_all
    | @kallocTake _ site _ _ _ _ | @kallocKilled _ site _ _ _ | @kallocWoken _ site _ _ _ _ =>
      cases site <;> simp [Site.next, Site.failed] at ht
    | _ => simp_all
  · rw [hs.pc_other hwho] at ht
    exact .inl ht

/-- Nobody else sets or clears the parent of a new process. -/
theorem LifeState.ChildOf.stays {t np : Slot} (h : s.ChildOf np t) (hc : Control s)
    (hs : LifeStep s (ev, who) s') (ht : s.pc t = .forkRunnable np)
    (hnp : (s'.proc np).state ≠ .UNUSED) : s'.ChildOf np t := by
  have hparent := hs.parent_change np
  have hunique := fun u => hc.unique t u np (creates_of_forkRunnable ht)
  grind [LifeState.ChildOf]

theorem LifeState.ChildOf.started {q r : Slot} (h : s.ChildOf q r) (hf : Family s) :
    s.Started r := by
  have hlive := hf.parentLive q r h
  constructor <;> grind

theorem Descent.step (h : Descent s) (hc : Control s) (hf : Family s) (hf' : Family s')
    (hs : LifeStep s (ev, who) s') : Descent s' := by
  have hparent := hs.parent_change
  have hinit := hs.initproc_eq
  have hused := hc.used
  refine ⟨?_, ?_, ?_⟩
  · rw [hinit]
    apply h.rooted.change (K := fun q => s.Started q ∧ s'.Started q)
    · intro a b ha hab
      have hchange := hparent a
      have hb := hab.started hf
      have hb' := fun hab' : s'.ChildOf a b => hab'.started hf'
      grind [LifeState.Started, LifeState.ChildOf]
    · -- only `kfork` starts a process
      intro c hnew
      have hfrom : s.Started c ∨ ∃ t, s.pc t = .forkRunnable c := by
        have hstate := hs.state_change c
        grind [LifeState.Started]
      rcases hfrom with hold | ⟨t, ht⟩
      · exact .inl ⟨hold, hold, hnew⟩
      · have hchild := h.hung t c ht
        have hchild' := hchild.stays hc hs ht hnew.1
        exact .inr ⟨t, hchild', hchild.started hf, hchild.started hf, hchild'.started hf'⟩
  · rw [hinit]
    have hchange := hparent s.initproc
    have htop := h.top
    have hlive := hf.initLive
    grind
  · intro t np ht
    rcases hs.forkRunnable_from ht with hold | hnew
    · have hnp := (hc.step hs).used t np (creates_of_forkRunnable ht)
      exact (h.hung t np hold).stays hc hs hold (by simp [hnp])
    · exact hnew

theorem descent_of_reachable (hreach : Reachable lifeSystem s) : Descent s := by
  refine hreach.invariant (P := Descent) ?_ ?_
  · intro s hinit
    obtain ⟨-, -, -, hpc, -, -, -, -, -, hstate, -, hparent, -, -, -, hother⟩ := hinit
    refine ⟨?_, hparent, ?_⟩
    · intro q hq
      by_cases hne : q = s.initproc
      · exact hne ▸ .refl
      · exact absurd (by rw [hother q hne]; rfl) hq.1
    · intro t np ht
      rw [hpc] at ht
      cases ht
  · intro s ev s' hreach h hs
    exact h.step (control_of_reachable hreach) (family_of_reachable hreach)
      (family_of_reachable (hreach.next hs)) hs

/-- **The processes form a tree.**  In every reachable state the parents of every
process, running or zombie, lead to `init`, and no process is its own ancestor: none
is left without a parent that can wait for it, not even in the middle of `reparent`. -/
theorem process_tree (hreach : Reachable lifeSystem s) {q : Slot} (hq : s.Started q) :
    ReflTransGen s.ChildOf q s.initproc ∧ ¬ TransGen s.ChildOf q q := by
  have h := descent_of_reachable hreach
  refine ⟨h.rooted q hq, h.rooted.irrefl ?_ ?_ ?_ hq⟩
  · intro a b hab
    exact hab.started (family_of_reachable hreach)
  · intro b hb
    exact absurd (h.top.symm.trans hb) (by simp)
  · intro a b c _ hb hc
    exact Option.some.inj (hb.symm.trans hc)

theorem process_tree_forked : ReflTransGen forkedState.ChildOf 1 forkedState.initproc :=
  (process_tree forkedState_reachable (q := 1) ⟨by decide, by decide⟩).1

end Kus
