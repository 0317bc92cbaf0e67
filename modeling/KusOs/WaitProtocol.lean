import KusOs.SlotOwnership

/-!
# Exit, reparenting and wait

`kexit` gives its children to the first process, wakes its parent and becomes a
zombie, all under `wait_lock`; `kwait` scans, reaps or goes to sleep under the
same lock.  That is why the order in `kexit` (wake the parent first, become a
zombie afterwards) loses no wakeup, and why nobody's parent is gone.

* `Family` — parents are live, and an exiting process runs out of children;
* `Waiting` — what a scanning or sleeping parent knows about its children;
* `History` — every exit is either still a zombie or has been handed out once;
* `exit_wait_protocol` — the result.
-/

namespace Kus

open Transition

variable {s s' : LifeState} {ev : LifeEvent} {who : Option Slot}

section Family

/-- Parents are live processes. -/
structure Family (s : LifeState) : Prop where
  initLive : (s.proc s.initproc).state.live = true
  parentLive : ∀ q r, (s.proc q).parent = some r → (s.proc r).state.live = true
  exitInit : ∀ t, (s.pc t).exiting = true → t ≠ s.initproc
  exitScan : ∀ t st i, s.pc t = .exitScan st i → ∀ j : Slot, j < i → (s.proc j).parent ≠ some t
  exitZombie : ∀ t st, s.pc t = .exitZombie st → ∀ j, (s.proc j).parent ≠ some t

theorem exiting_exitZombie (st : Int) : (Pc.exitZombie st).exiting = true := rfl

theorem exiting_exitScan (st : Int) (i : Nat) : (Pc.exitScan st i).exiting = true := rfl

theorem Family.initLive_step (h : Family s) (hc : Control s) (hs : LifeStep s (ev, who) s') :
    (s'.proc s'.initproc).state.live = true := by
  rw [hs.initproc_eq]
  have hstate := hs.state_change s.initproc
  have hinit := h.initLive
  have hexit := h.exitInit s.initproc
  obtain ⟨hused, -, -, -, -, -, -, hfound, -, -⟩ := hc
  grind [exiting_exitZombie]

theorem Family.parentLive_step (h : Family s) (hc : Control s) (hs : LifeStep s (ev, who) s')
    (q r : Slot) (hqr : (s'.proc q).parent = some r) : (s'.proc r).state.live = true := by
  have hstate := hs.state_change r
  have hparent := hs.parent_change q
  have hinit := h.initLive_step hc hs
  have hactor := fun t => hs.actor_running (t := t)
  rw [hs.initproc_eq] at hinit
  obtain ⟨-, hlive, -, -, hchildless⟩ := h
  obtain ⟨hused, -, -, -, -, -, -, hfound, -, -⟩ := hc
  grind

theorem Family.exitInit_step (h : Family s) (hs : LifeStep s (ev, who) s') (t : Slot)
    (ht : (s'.pc t).exiting = true) : t ≠ s'.initproc := by
  rw [hs.initproc_eq]
  rcases hs.to_exiting ht with hexit | hne
  · exact h.exitInit t hexit
  · exact hne

section

variable (h : Family s) (hc : Control s) (hs : LifeStep s (ev, who) s')
include h hc hs

/-- While a process exits, nobody acquires it as a parent: `kfork` would need
`wait_lock`, and adoption is by the first process. -/
theorem Family.no_new_child {t j : Slot} (hexit : (s.pc t).exiting = true)
    (hwait : (s.pc t).holdsWait = true) (hj : (s.proc j).parent ≠ some t) :
    (s'.proc j).parent ≠ some t := by
  have hparent := hs.parent_change j
  have hlock := (hc.waitLock t).mpr hwait
  have hinit := h.exitInit t hexit
  grind

theorem Family.exitScan_step (t : Slot) (st : Int) (i : Nat) (ht : s'.pc t = .exitScan st i)
    (j : Slot) (hj : j < i) : (s'.proc j).parent ≠ some t := by
  have hmove := hs.wait_move (t := t) (by rw [ht]; rfl)
  have hnew := fun hexit hwait => h.no_new_child hc hs (t := t) (j := j) hexit hwait
  have hinit := h.exitInit_step hs t (by rw [ht]; rfl)
  rw [hs.initproc_eq] at hinit
  rw [ht] at hmove
  generalize hk : s.pc t = k at hmove
  cases hmove with
  | stay => exact hnew (by rw [hk]; rfl) (by rw [hk]; rfl) (h.exitScan t st i hk j hj)
  | exitLock => exact absurd hj (by simp)
  | @exitNext _ i hparent =>
    by_cases hij : j = i
    · subst hij
      intro hp
      rcases hparent with hparent | hparent
      · exact hparent hp
      · rw [hp] at hparent
        exact hinit (Option.some.inj hparent)
    have hlt : (j : Nat) < i := by
      have hne : (j : Nat) ≠ i := fun heq => hij (Fin.ext heq)
      omega
    exact hnew (by rw [hk]; rfl) (by rw [hk]; rfl) (h.exitScan t st i hk j hlt)

theorem Family.exitZombie_step (t : Slot) (st : Int) (ht : s'.pc t = .exitZombie st) (j : Slot) :
    (s'.proc j).parent ≠ some t := by
  have hmove := hs.wait_move (t := t) (by rw [ht]; rfl)
  have hnew := fun hexit hwait => h.no_new_child hc hs (t := t) (j := j) hexit hwait
  rw [ht] at hmove
  generalize hk : s.pc t = k at hmove
  cases hmove with
  | stay => exact hnew (by rw [hk]; rfl) (by rw [hk]; rfl) (h.exitZombie t st hk j)
  | exitWake => exact hnew (by rw [hk]; rfl) (by rw [hk]; rfl) (h.exitScan t st _ hk j j.isLt)

end

theorem family_of_reachable (hreach : Reachable lifeSystem s) : Family s := by
  refine hreach.invariant (P := Family) ?_ ?_
  · intro s hinit
    obtain ⟨-, -, -, hpc, -, -, -, -, -, hstate, -, hparent, -, -, -, hother⟩ := hinit
    have hexiting : ∀ t, (s.pc t).exiting = false := fun t => by rw [hpc]; rfl
    constructor <;> grind [Proc.unused]
  · intro s ev s' hreach h hs
    have hc := control_of_reachable hreach
    exact ⟨h.initLive_step hc hs, h.parentLive_step hc hs, h.exitInit_step hs,
      h.exitScan_step hc hs, h.exitZombie_step hc hs⟩

end Family

section Waiting

/-- What a parent in `kwait` knows about its children, and what an exiting
child knows about its parent. -/
structure Waiting (s : LifeState) : Prop where
  scan : ∀ t i havekids, s.pc t = .waitScan i havekids → ∀ j : Slot, j < i →
    (s.proc j).parent = some t → (s.proc j).state ≠ .ZOMBIE ∧ havekids = true
  go : ∀ t, s.pc t = .waitGo → ∀ j, (s.proc j).parent = some t → (s.proc j).state ≠ .ZOMBIE
  asleep : ∀ t, s.WaitAsleep t → ∀ j, (s.proc j).parent = some t → (s.proc j).state ≠ .ZOMBIE
  woken : ∀ j st t, s.pc j = .exitZombie st → (s.proc j).parent = some t → ¬ s.WaitAsleep t

/-- Under a thread's `wait_lock` no other process becomes a zombie and no
parent changes. -/
theorem Control.children_same (hc : Control s) (hs : LifeStep s (ev, who) s') {t j : Slot}
    (hwait : (s.pc t).holdsWait = true) (hexit : (s.pc t).exiting = false)
    (hj : (s'.proc j).parent = some t) :
    (s.proc j).parent = some t ∧ ((s'.proc j).state = .ZOMBIE → (s.proc j).state = .ZOMBIE) := by
  have hparent := hs.parent_change j
  have hstate := hs.state_change j
  have hlock := (hc.waitLock t).mpr hwait
  have hother := hc.waitLock
  have hexited := fun st => exiting_exitZombie st
  have hscan := fun st i => exiting_exitScan st i
  have hholds : ∀ st i, (Pc.exitScan st i).holdsWait = true := fun _ _ => rfl
  have hholds' : ∀ st, (Pc.exitZombie st).holdsWait = true := fun _ => rfl
  grind

section

variable (h : Waiting s) (hc : Control s) (hs : LifeStep s (ev, who) s')
include h hc hs

theorem Waiting.scan_step (t : Slot) (i : Nat) (havekids : Bool)
    (ht : s'.pc t = .waitScan i havekids) (j : Slot) (hj : j < i)
    (hchild : (s'.proc j).parent = some t) : (s'.proc j).state ≠ .ZOMBIE ∧ havekids = true := by
  have hmove := hs.wait_move (t := t) (by rw [ht]; rfl)
  have hsame := fun hwait hexit => hc.children_same hs (t := t) (j := j) hwait hexit hchild
  rw [ht] at hmove
  generalize hk : s.pc t = k at hmove
  cases hmove with
  | stay =>
    obtain ⟨hparent, hzombie⟩ := hsame (by rw [hk]; rfl) (by rw [hk]; rfl)
    obtain ⟨hstate, hkids⟩ := h.scan t i _ hk j hj hparent
    exact ⟨fun hz => hstate (hzombie hz), hkids⟩
  | waitLock => exact absurd hj (by simp)
  | @waitSkip i _ hskip =>
    obtain ⟨hparent, hzombie⟩ := hsame (by rw [hk]; rfl) (by rw [hk]; rfl)
    have hne : j ≠ i := fun hij => hskip (hij ▸ hparent)
    have hlt : (j : Nat) < i := by
      have hval : (j : Nat) ≠ i := fun heq => hne (Fin.ext heq)
      omega
    obtain ⟨hstate, hkids⟩ := h.scan t i _ hk j hlt hparent
    exact ⟨fun hz => hstate (hzombie hz), hkids⟩
  | @waitChild i _ _ hlive =>
    obtain ⟨hparent, hzombie⟩ := hsame (by rw [hk]; rfl) (by rw [hk]; rfl)
    refine ⟨fun hz => ?_, rfl⟩
    by_cases hij : j = i
    · exact hlive (hij ▸ hzombie hz)
    have hlt : (j : Nat) < i := by
      have hval : (j : Nat) ≠ i := fun heq => hij (Fin.ext heq)
      omega
    exact (h.scan t i _ hk j hlt hparent).1 (hzombie hz)

theorem Waiting.go_step (t : Slot) (ht : s'.pc t = .waitGo) (j : Slot)
    (hchild : (s'.proc j).parent = some t) : (s'.proc j).state ≠ .ZOMBIE := by
  have hmove := hs.wait_move (t := t) (by rw [ht]; rfl)
  have hsame := fun hwait hexit => hc.children_same hs (t := t) (j := j) hwait hexit hchild
  rw [ht] at hmove
  generalize hk : s.pc t = k at hmove
  cases hmove with
  | stay =>
    obtain ⟨hparent, hzombie⟩ := hsame (by rw [hk]; rfl) (by rw [hk]; rfl)
    exact fun hz => h.go t hk j hparent (hzombie hz)
  | waitGo =>
    obtain ⟨hparent, hzombie⟩ := hsame (by rw [hk]; rfl) (by rw [hk]; rfl)
    exact fun hz => (h.scan t _ _ hk j j.isLt hparent).1 (hzombie hz)

/-- The first process is awake when it adopts a child, an exiting process has
woken its parent before it becomes a zombie, and a parent that falls asleep has
just seen that it has no zombie child. -/
theorem Waiting.asleep_step (t : Slot) (ht : s'.WaitAsleep t) (j : Slot)
    (hchild : (s'.proc j).parent = some t) : (s'.proc j).state ≠ .ZOMBIE := by
  have hparent := hs.parent_change j
  have hstate := hs.state_change j
  have hactor := fun t => hs.actor_running (t := t)
  rcases hs.to_waitAsleep ht with hold | ⟨hwho, hgo⟩
  · have hasleep := h.asleep t hold
    have hwoken := h.woken j
    have hsleeping := hold.1
    have hused := hc.used
    grind
  · obtain ⟨hparent, hzombie⟩ := hc.children_same hs (by rw [hgo]; rfl) (by rw [hgo]; rfl) hchild
    exact fun hz => h.go t hgo j hparent (hzombie hz)

/-- While `j` is between waking its parent and becoming a zombie it holds
`wait_lock`, so neither its parent nor the parent's sleep can change. -/
theorem Waiting.woken_step (j : Slot) (st : Int) (t : Slot) (hj : s'.pc j = .exitZombie st)
    (hchild : (s'.proc j).parent = some t) : ¬ s'.WaitAsleep t := by
  have hmove := hs.wait_move (t := j) (by rw [hj]; rfl)
  rw [hj] at hmove
  have hwait : (s.pc j).holdsWait = true := by
    generalize s.pc j = k at hmove
    cases hmove <;> rfl
  have hlock : s.waitLock = some j := (hc.waitLock j).mpr hwait
  have hholder : ∀ u, (s.pc u).holdsWait = true → u = j := by
    intro u hu
    have := (hc.waitLock u).mpr hu
    grind
  have hold : (s.proc j).parent = some t := by
    have hparent := hs.parent_change j
    rw [hchild] at hparent
    generalize ho : (s.proc j).parent = o at hparent
    cases hparent with
    | same => rfl
    | set hwho hpc hpc' hfree =>
      rw [hfree] at hlock
      cases hlock
    | @adopted u status hwho hpc hwoken =>
      obtain rfl := hholder u (by rw [hpc]; rfl)
      rw [hpc] at hmove
      generalize hn : (u : Nat) = n at hmove
      cases hmove with
      | exitWake => exact absurd hn u.isLt.ne
  generalize hk : s.pc j = k at hmove
  cases hmove with
  | exitWake hwoken => exact hwoken t hold
  | stay =>
    intro ht
    rcases hs.to_waitAsleep ht with hasleep | ⟨-, hgo⟩
    · exact h.woken j st t hk hold hasleep
    obtain rfl := hholder t (by rw [hgo]; rfl)
    rw [hgo] at hk
    cases hk

end

theorem waiting_of_reachable (hreach : Reachable lifeSystem s) : Waiting s := by
  refine hreach.invariant (P := Waiting) ?_ ?_
  · intro s hinit
    obtain ⟨-, -, -, hpc, -, -, -, -, -, hstate, -, hparent, -, -, -, hother⟩ := hinit
    constructor <;> grind [Proc.unused]
  · intro s ev s' hreach h hs
    have hc := control_of_reachable hreach
    exact ⟨h.scan_step hc hs, h.go_step hc hs, h.asleep_step hc hs, h.woken_step hc hs⟩

end Waiting

section History

/-- The exit recorded as `e` is still waiting in its slot. -/
def LifeState.Pending (s : LifeState) (e : Exit) : Prop :=
  (s.proc e.slot).state = .ZOMBIE ∧ s.inc e.slot = e.inc ∧ (s.proc e.slot).pid = e.pid ∧
    (s.proc e.slot).xstate = e.status ∧
    ((s.proc e.slot).parent = e.parent ∨ (s.proc e.slot).parent = some s.initproc)

/-- `r` handed out the exit `e`, to its parent or to the first process. -/
def LifeState.HandsOut (s : LifeState) (r : Reap) (e : Exit) : Prop :=
  r.inc = e.inc ∧ r.pid = e.pid ∧ r.status = e.status ∧
    (e.parent = some r.caller ∨ r.caller = s.initproc)

/-- Every incarnation exits at most once, and every exit is pending or has been
handed out, once. -/
structure History (s : LifeState) : Prop where
  incLt : ∀ q, (s.proc q).state ≠ .UNUSED → s.inc q < s.births
  incInj : ∀ p q, (s.proc p).state ≠ .UNUSED → (s.proc q).state ≠ .UNUSED →
    s.inc p = s.inc q → p = q
  exitLt : ∀ e ∈ s.exits, e.inc < s.births
  exitNodup : (s.exits.map Exit.inc).Nodup
  alive : ∀ q, (s.proc q).state ≠ .UNUSED → (s.proc q).state ≠ .ZOMBIE →
    ∀ e ∈ s.exits, e.inc ≠ s.inc q
  zombie : ∀ q, (s.proc q).state = .ZOMBIE → ∃ e ∈ s.exits, e.slot = q ∧ s.Pending e
  reapNodup : (s.reaps.map Reap.inc).Nodup
  reapExit : ∀ r ∈ s.reaps, ∃ e ∈ s.exits, s.HandsOut r e
  reapGone : ∀ r ∈ s.reaps, ∀ q, (s.proc q).state ≠ .UNUSED → r.inc ≠ s.inc q
  settled : ∀ e ∈ s.exits, (∃ r ∈ s.reaps, r.inc = e.inc) ∨ s.Pending e

section

variable (hc : Control s) (hs : LifeStep s (ev, who) s')
include hc hs

/-- A step that reaps nothing leaves a pending exit pending. -/
theorem Control.pending_step {e : Exit} (h : s.Pending e) (hinc : s'.inc e.slot = s.inc e.slot)
    (hproc : (s'.proc e.slot).state = .UNUSED ∨
      (s'.proc e.slot).pid = (s.proc e.slot).pid ∧ (s'.proc e.slot).xstate = (s.proc e.slot).xstate)
    (hev : ∀ pid st, ev ≠ .waitReap e.slot pid st) : s'.Pending e := by
  have hstate := hs.state_change e.slot
  have hparent := hs.parent_change e.slot
  have hinit := hs.initproc_eq
  obtain ⟨hz, hi, hpid, hx, hpar⟩ := h
  unfold LifeState.Pending
  obtain ⟨hused, -, -, -, -, -, -, -, -, -⟩ := hc
  grind

theorem Control.zombie_same {q : Slot} (hexited : ∀ st, ev ≠ .exitZombie st)
    (hreaped : ∀ i pid st, ev ≠ .waitReap i pid st) :
    (s'.proc q).state = .ZOMBIE ↔ (s.proc q).state = .ZOMBIE := by
  have hstate := hs.state_change q
  have hused := hc.used
  grind

theorem Control.inUse_same {q : Slot} (hfound : ∀ np pid, ev ≠ .allocFound np pid)
    (hq : (s'.proc q).state ≠ .UNUSED) : (s.proc q).state ≠ .UNUSED := by
  rcases hc.inUse_of_step hs hq with hold | ⟨pid, hev⟩
  · exact hold
  · exact absurd hev (hfound q pid)

end

private theorem History.step_same (h : History s) (hc : Control s) (hs : LifeStep s (ev, who) s')
    (hfound : ∀ np pid, ev ≠ .allocFound np pid) (hexited : ∀ st, ev ≠ .exitZombie st)
    (hreaped : ∀ i pid st, ev ≠ .waitReap i pid st) (hbirths : s'.births = s.births)
    (hinc : ∀ q, s'.inc q = s.inc q) (hexits : s'.exits = s.exits) (hreaps : s'.reaps = s.reaps)
    (hproc : ∀ q, (s'.proc q).state = .UNUSED ∨
      (s'.proc q).pid = (s.proc q).pid ∧ (s'.proc q).xstate = (s.proc q).xstate) : History s' := by
  have hinUse := fun q hq => hc.inUse_same hs (q := q) hfound hq
  have hzombie := fun q => hc.zombie_same hs (q := q) hexited hreaped
  have hpending := fun e hp => hc.pending_step hs (e := e) hp (hinc _) (hproc _) (hreaped _)
  constructor <;> simp only [hinc, hbirths, hexits, hreaps, LifeState.HandsOut, hs.initproc_eq]
  · exact fun q hq => h.incLt q (hinUse q hq)
  · exact fun p q hp hq hpq => h.incInj p q (hinUse p hp) (hinUse q hq) hpq
  · exact h.exitLt
  · exact h.exitNodup
  · exact fun q hq hqz => h.alive q (hinUse q hq) fun hz => hqz ((hzombie q).mpr hz)
  · intro q hq
    obtain ⟨e, he, hslot, hp⟩ := h.zombie q ((hzombie q).mp hq)
    exact ⟨e, he, hslot, hpending e hp⟩
  · exact h.reapNodup
  · exact h.reapExit
  · exact fun r hr q hq => h.reapGone r hr q (hinUse q hq)
  · exact fun e he => (h.settled e he).imp_right (hpending e)

private theorem History.step_found (h : History s) {np : Slot} (hinit : s'.initproc = s.initproc)
    (hstate : (s.proc np).state = .UNUSED) (hstate' : (s'.proc np).state ≠ .ZOMBIE)
    (hbirths : s'.births = s.births + 1)
    (hinc : ∀ q, s'.inc q = if q = np then s.births else s.inc q) (hexits : s'.exits = s.exits)
    (hreaps : s'.reaps = s.reaps) (hproc : ∀ q, q ≠ np → s'.proc q = s.proc q) : History s' := by
  have hnp : s'.inc np = s.births := by simp [hinc]
  have hne : ∀ q, q ≠ np → s'.inc q = s.inc q := fun q hq => by simp [hinc, hq]
  have hzombie : ∀ q, (s'.proc q).state = .ZOMBIE → q ≠ np ∧ (s.proc q).state = .ZOMBIE := by
    intro q hq
    by_cases hqnp : q = np
    · exact absurd (hqnp ▸ hq) hstate'
    · exact ⟨hqnp, hproc q hqnp ▸ hq⟩
  have hpending : ∀ e, s.Pending e → s'.Pending e := by
    intro e hp
    have hslot : e.slot ≠ np := by
      intro heq
      have hz := hp.1
      rw [heq, hstate] at hz
      cases hz
    unfold LifeState.Pending
    rw [hproc _ hslot, hne _ hslot, hinit]
    exact hp
  have hreapLt : ∀ r ∈ s.reaps, r.inc < s.births := by
    intro r hr
    obtain ⟨e, he, hre⟩ := h.reapExit r hr
    rw [hre.1]
    exact h.exitLt e he
  constructor <;> try simp only [hbirths, hexits, hreaps, LifeState.HandsOut, hinit]
  · intro q hq
    by_cases hqnp : q = np
    · rw [hqnp, hnp]
      omega
    have := h.incLt q (hproc q hqnp ▸ hq)
    rw [hne q hqnp]
    omega
  · intro p q hp hq hpq
    have hlt := h.incLt
    have hinj := h.incInj p q
    grind
  · intro e he
    have := h.exitLt e he
    omega
  · exact h.exitNodup
  · intro q hq hqz e he
    by_cases hqnp : q = np
    · have := h.exitLt e he
      rw [hqnp, hnp]
      omega
    · rw [hne q hqnp]
      exact h.alive q (hproc q hqnp ▸ hq) (hproc q hqnp ▸ hqz) e he
  · intro q hq
    obtain ⟨e, he, hslot, hp⟩ := h.zombie q (hzombie q hq).2
    exact ⟨e, he, hslot, hpending e hp⟩
  · exact h.reapNodup
  · exact h.reapExit
  · intro r hr q hq
    by_cases hqnp : q = np
    · have := hreapLt r hr
      rw [hqnp, hnp]
      omega
    · rw [hne q hqnp]
      exact h.reapGone r hr q (hproc q hqnp ▸ hq)
  · exact fun e he => (h.settled e he).imp_right (hpending e)

private theorem History.step_exited (h : History s) {t : Slot} {status : Int}
    (hinit : s'.initproc = s.initproc) (hrun : (s.proc t).state = .RUNNING)
    (hbirths : s'.births = s.births) (hinc : ∀ q, s'.inc q = s.inc q)
    (hexits : s'.exits = s.exitRecord t status :: s.exits) (hreaps : s'.reaps = s.reaps)
    (hself : s'.proc t = { s.proc t with xstate := status, state := .ZOMBIE })
    (hproc : ∀ q, q ≠ t → s'.proc q = s.proc q) : History s' := by
  have hinUse : ∀ q, (s'.proc q).state ≠ .UNUSED → (s.proc q).state ≠ .UNUSED := by
    intro q hq
    by_cases hqt : q = t
    · rw [hqt, hrun]
      decide
    · exact hproc q hqt ▸ hq
  have htUse : (s.proc t).state ≠ .UNUSED := by
    rw [hrun]
    decide
  have hpending : ∀ e, s.Pending e → s'.Pending e := by
    intro e hp
    have hslot : e.slot ≠ t := by
      intro heq
      have hz := hp.1
      rw [heq, hrun] at hz
      cases hz
    unfold LifeState.Pending
    rw [hproc _ hslot, hinc, hinit]
    exact hp
  have hnew : s'.Pending (s.exitRecord t status) := by
    simp [LifeState.Pending, LifeState.exitRecord, hself, hinc]
  have hfresh : ∀ e ∈ s.exits, e.inc ≠ s.inc t := h.alive t htUse (by rw [hrun]; decide)
  constructor <;> simp only [hbirths, hinc, hreaps, LifeState.HandsOut, hinit, hexits,
    List.forall_mem_cons, List.map_cons, List.nodup_cons]
  · exact fun q hq => h.incLt q (hinUse q hq)
  · exact fun p q hp hq hpq => h.incInj p q (hinUse p hp) (hinUse q hq) hpq
  · exact ⟨h.incLt t htUse, h.exitLt⟩
  · refine ⟨?_, h.exitNodup⟩
    intro hmem
    obtain ⟨e, he, heq⟩ := List.mem_map.mp hmem
    exact hfresh e he heq
  · intro q hq hqz
    have hqt : q ≠ t := by
      intro heq
      rw [heq, hself] at hqz
      exact hqz rfl
    refine ⟨fun heq => hqt (h.incInj t q htUse (hinUse q hq) heq).symm, ?_⟩
    exact h.alive q (hinUse q hq) (hproc q hqt ▸ hqz)
  · intro q hq
    by_cases hqt : q = t
    · subst hqt
      exact ⟨_, List.mem_cons_self, rfl, hnew⟩
    · obtain ⟨e, he, hslot, hp⟩ := h.zombie q (hproc q hqt ▸ hq)
      exact ⟨e, List.mem_cons_of_mem _ he, hslot, hpending e hp⟩
  · exact h.reapNodup
  · intro r hr
    obtain ⟨e, he, hre⟩ := h.reapExit r hr
    exact ⟨e, List.mem_cons_of_mem _ he, hre⟩
  · exact fun r hr q hq => h.reapGone r hr q (hinUse q hq)
  · exact ⟨.inr hnew, fun e he => (h.settled e he).imp_right (hpending e)⟩

private theorem History.step_reaped (h : History s) (hc : Control s) {t i : Slot}
    (hs : LifeStep s (.waitReap i (s.proc i).pid (s.proc i).xstate, who) s')
    (hpc : s.pc t = .waitFound i) (hbirths : s'.births = s.births) (hinc : ∀ q, s'.inc q = s.inc q)
    (hexits : s'.exits = s.exits) (hreaps : s'.reaps = s.reapRecord t i :: s.reaps)
    (hself : s'.proc i = .unused) (hproc : ∀ q, q ≠ i → (s'.proc q).pid = (s.proc q).pid ∧
      (s'.proc q).xstate = (s.proc q).xstate) : History s' := by
  obtain ⟨hzi, hparent⟩ := hc.found t i hpc
  have hiUse : (s.proc i).state ≠ .UNUSED := by
    rw [hzi]
    decide
  have hinUse := fun q hq => hc.inUse_same hs (q := q) (by simp) hq
  have hne : ∀ q, (s'.proc q).state ≠ .UNUSED → q ≠ i := by
    intro q hq heq
    rw [heq, hself] at hq
    exact hq rfl
  have hzombie : ∀ q, q ≠ i → ((s'.proc q).state = .ZOMBIE ↔ (s.proc q).state = .ZOMBIE) := by
    intro q hq
    have hstate := hs.state_change q
    have hused := hc.used
    grind
  have hpending : ∀ e, e.slot ≠ i → s.Pending e → s'.Pending e := fun e hslot hp =>
    hc.pending_step hs hp (hinc _) (.inr (hproc _ hslot)) (by simp [hslot.symm])
  constructor <;> simp only [hbirths, hinc, hexits, LifeState.HandsOut, hs.initproc_eq, hreaps,
    List.forall_mem_cons, List.map_cons, List.nodup_cons]
  · exact fun q hq => h.incLt q (hinUse q hq)
  · exact fun p q hp hq hpq => h.incInj p q (hinUse p hp) (hinUse q hq) hpq
  · exact h.exitLt
  · exact h.exitNodup
  · exact fun q hq hqz => h.alive q (hinUse q hq) fun hz => hqz ((hzombie q (hne q hq)).mpr hz)
  · intro q hq
    have hqi : q ≠ i := hne q (by rw [hq]; decide)
    obtain ⟨e, he, hslot, hp⟩ := h.zombie q ((hzombie q hqi).mp hq)
    exact ⟨e, he, hslot, hpending e (hslot ▸ hqi) hp⟩
  · refine ⟨?_, h.reapNodup⟩
    intro hmem
    obtain ⟨r, hr, heq⟩ := List.mem_map.mp hmem
    exact h.reapGone r hr i hiUse heq
  · refine ⟨?_, h.reapExit⟩
    obtain ⟨e, he, hslot, hz, hi, hpid, hx, hpar⟩ := h.zombie i hzi
    subst hslot
    refine ⟨e, he, hi, hpid, hx, ?_⟩
    rcases hpar with hpar | hpar
    · exact .inl (hpar ▸ hparent)
    · rw [hparent] at hpar
      exact .inr (Option.some.inj hpar)
  · refine ⟨fun q hq heq => hne q hq (h.incInj i q hiUse (hinUse q hq) heq).symm, ?_⟩
    exact fun r hr q hq => h.reapGone r hr q (hinUse q hq)
  · intro e he
    rcases h.settled e he with ⟨r, hr, heq⟩ | hp
    · exact .inl ⟨r, List.mem_cons_of_mem _ hr, heq⟩
    by_cases hslot : e.slot = i
    · exact .inl ⟨_, List.mem_cons_self, hslot ▸ hp.2.1⟩
    · exact .inr (hpending e hslot hp)

theorem History.step (h : History s) (hc : Control s) (hs : LifeStep s (ev, who) s') :
    History s' := by
  have hrun := fun t => hs.actor_running (t := t)
  have hinit := hs.initproc_eq
  cases hs.history_change with
  | same hfound hexited hreaped _ _ hbirths hinc hexits hreaps hproc =>
    exact h.step_same hc hs hfound hexited hreaped hbirths hinc hexits hreaps hproc
  | @found t np hwho hstate _ _ hbirths hinc hexits hreaps _ hproc =>
    have hstate' : (s'.proc np).state ≠ .ZOMBIE := by
      have hchange := hs.state_change np
      grind
    exact h.step_found hinit hstate hstate' hbirths hinc hexits hreaps hproc
  | exited hwho _ _ hbirths hinc hexits hreaps hself hproc =>
    exact h.step_exited hinit (hrun _ hwho) hbirths hinc hexits hreaps hself hproc
  | reaped hwho hpc _ _ hbirths hinc hexits hreaps hself hproc =>
    exact h.step_reaped hc hs hpc hbirths hinc hexits hreaps hself hproc

theorem history_of_reachable (hreach : Reachable lifeSystem s) : History s := by
  refine hreach.invariant (P := History) ?_ ?_
  · intro s hinit
    obtain ⟨-, -, -, -, -, hbirths, hinc, hexits, hreaps, hstate, -, -, -, -, -, hother⟩ := hinit
    constructor <;> grind [Proc.unused]
  · intro s ev s' hreach h hs
    exact h.step (control_of_reachable hreach) hs

end History

section Protocol

/-- The steps at which `kwait` returns -1. -/
def LifeEvent.kwaitFailed : LifeEvent → Bool
  | .waitCopyFail _ | .waitNone _ => true
  | _ => false

/-- A zombie's slot is freed by the `kwait` of its parent only. -/
theorem Control.zombie_freed (hc : Control s) (hs : LifeStep s (ev, who) s') {q : Slot}
    (hq : (s.proc q).state = .ZOMBIE) (hq' : (s'.proc q).state ≠ .ZOMBIE) :
    ∃ t, who = some t ∧ (s.proc q).parent = some t ∧
      ev = .waitReap q (s.proc q).pid (s.proc q).xstate := by
  have hstate := hs.state_change q
  generalize hb : (s'.proc q).state = b at hstate hq'
  rw [hq] at hstate
  cases hstate with
  | same => exact absurd rfl hq'
  | runnable hwho hpc hpc' =>
    have hused := hc.used _ q (by rw [hpc]; rfl)
    rw [hq] at hused
    cases hused
  | freed hwho hpc hpc' hself =>
    have hused := hc.used _ q (by rw [hpc]; rfl)
    rw [hq] at hused
    cases hused
  | reaped hev hwho hpc hpc' hself => exact ⟨_, hwho, (hc.found _ q hpc).2, hev⟩

/-- What a caller of `kwait` that gets -1 may conclude. -/
theorem kwait_failed (hc : Control s) (hw : Waiting s) {t : Slot}
    (hs : LifeStep s (ev, some t) s') (hfail : ev.kwaitFailed = true) :
    (∀ q, (s.proc q).parent ≠ some t) ∨ (s.proc t).killed = true ∨
    ∃ i, ev = .waitCopyFail i ∧ (s.proc i).parent = some t ∧ (s'.proc i).state = .ZOMBIE ∧
      s'.proc i = s.proc i ∧ s'.reaps = s.reaps := by
  cases hs with
  | @waitCopyFail _ i hrun hpc =>
    obtain ⟨hzombie, hparent⟩ := hc.found t i hpc
    exact .inr (.inr ⟨i, rfl, hparent, hzombie, rfl, rfl⟩)
  | @waitNone _ havekids hrun hpc hnone =>
    rcases hnone with hkids | hkilled
    · left
      intro q hq
      have hseen := (hw.scan t _ _ hpc q q.isLt hq).2
      rw [hkids] at hseen
      cases hseen
    · exact .inr (.inl hkilled)
  | _ => cases hfail

/-- **Exit, reparenting and wait.**  In every reachable state:
(a) the parent of a process in use is neither `UNUSED` nor a zombie;
(b) every incarnation exits at most once, every exit is either pending in its
slot or has been handed out by exactly one `kwait`, with its pid and status, to
its parent or the first process, and only that `kwait` frees the slot;
(c) nobody sleeps in `kwait` with a zombie child;
(d) `kwait` fails only without children, when killed, or when the status could
not be copied out, and then the child stays. -/
theorem exit_wait_protocol (hreach : Reachable lifeSystem s) :
    (s.waitLock = none → ∀ q r, (s.proc q).state ≠ .UNUSED → (s.proc q).parent = some r →
      (s.proc r).state ≠ .UNUSED ∧ (s.proc r).state ≠ .ZOMBIE) ∧
    ((s.exits.map Exit.inc).Nodup ∧ (s.reaps.map Reap.inc).Nodup ∧
      (∀ q, (s.proc q).state = .ZOMBIE → ∃ e ∈ s.exits, e.slot = q ∧ s.Pending e) ∧
      (∀ e ∈ s.exits, (s.Pending e ∧ ∀ r ∈ s.reaps, r.inc ≠ e.inc) ∨
        (¬ s.Pending e ∧ ∃ r ∈ s.reaps, s.HandsOut r e)) ∧
      (∀ ev who s' q, LifeStep s (ev, who) s' → (s.proc q).state = .ZOMBIE →
        (s'.proc q).state ≠ .ZOMBIE → ∃ t, who = some t ∧ (s.proc q).parent = some t ∧
          ev = .waitReap q (s.proc q).pid (s.proc q).xstate)) ∧
    (s.waitLock = none → ∀ t, s.WaitAsleep t → ∀ j, (s.proc j).parent = some t →
      (s.proc j).state ≠ .ZOMBIE) ∧
    (∀ ev t s', LifeStep s (ev, some t) s' → ev.kwaitFailed = true →
      (∀ q, (s.proc q).parent ≠ some t) ∨ (s.proc t).killed = true ∨
      ∃ i, ev = .waitCopyFail i ∧ (s.proc i).parent = some t ∧ (s'.proc i).state = .ZOMBIE ∧
        s'.proc i = s.proc i ∧ s'.reaps = s.reaps) := by
  have hc := control_of_reachable hreach
  have hf := family_of_reachable hreach
  have hw := waiting_of_reachable hreach
  have hh := history_of_reachable hreach
  refine ⟨?_, ⟨hh.exitNodup, hh.reapNodup, hh.zombie, ?_, ?_⟩, fun _ => hw.asleep, ?_⟩
  · intro _ q r _ hqr
    have hlive := hf.parentLive q r hqr
    constructor <;> intro hr <;> rw [hr] at hlive <;> cases hlive
  · intro e he
    have hgone : s.Pending e → ∀ r ∈ s.reaps, r.inc ≠ e.inc := by
      intro hp r hr
      rw [← hp.2.1]
      exact hh.reapGone r hr e.slot (by rw [hp.1]; decide)
    by_cases hp : s.Pending e
    · exact .inl ⟨hp, hgone hp⟩
    refine .inr ⟨hp, ?_⟩
    obtain ⟨r, hr, hinc⟩ := (hh.settled e he).resolve_right hp
    obtain ⟨e', he', hre⟩ := hh.reapExit r hr
    have heq : e' = e := List.inj_on_of_nodup_map hh.exitNodup he' he (hre.1.symm.trans hinc)
    exact ⟨r, hr, heq ▸ hre⟩
  · exact fun ev who s' q hs hq hq' => hc.zombie_freed hs hq hq'
  · exact fun ev t s' hs hfail => kwait_failed hc hw hs hfail

/-- The four pages below those of the first process. -/
def fourPages : Kmem :=
  [6, 5, 4, 3].foldl (fun m i => m.push (PHYSTOP - i * PGSIZE))
    { next := fun _ => 0, freelist := 0 }

/-- The first process has forked a child without memory of its own, which used
up the free pages. -/
def forkedState : LifeState :=
  let trapframe := (forkingState fourPages).deliver 0 (.trapframe 1) (PHYSTOP - 3 * PGSIZE)
  let root := trapframe.deliver 0 (.root 1) (PHYSTOP - 4 * PGSIZE)
  let mid := root.deliver 0 (.mid 1 (PHYSTOP - 4 * PGSIZE)) (PHYSTOP - 5 * PGSIZE)
  let leaf := mid.deliver 0 (.leaf 1 (PHYSTOP - 4 * PGSIZE) (PHYSTOP - 5 * PGSIZE))
    (PHYSTOP - 6 * PGSIZE)
  let table := (leaf.setProc 1 fun q =>
    { q with
      pagetable := PHYSTOP - 4 * PGSIZE
      pages := [PHYSTOP - 6 * PGSIZE, PHYSTOP - 5 * PGSIZE] }).goto 0 (.lockNew 1)
  let locked := (table.setPlock 1 (some 0)).goto 0 (.allocReturn (some 1))
  let copied := ((locked.setPlock 1 none).goto 0 (.copy 1)).goto 0 (.forkSz 1)
  let sized := (copied.setProc 1 fun q => { q with sz := (copied.proc 0).sz }).goto 0 (.forkRegs 1)
  let parented := ((sized.goto 0 (.forkParent 1)).setProc 1 fun q =>
    { q with parent := some 0 }).goto 0 (.forkRunnable 1)
  (parented.setProc 1 fun q => { q with state := .RUNNABLE }).goto 0 .run

theorem forkedState_reachable : Reachable lifeSystem forkedState := by
  refine .next (.next (.next (.next (.next
    (.next (.next (.next (.next (.next (.next
    (.next (forkingState_reachable fourPages)
    (.kallocTake (t := 0) rfl rfl ?_))
    (.kallocTake (t := 0) rfl rfl ?_))
    (.kallocTake (t := 0) rfl rfl ?_))
    (.kallocTake (t := 0) rfl rfl ?_))
    (.tableDone (t := 0) rfl rfl))
    (.lockNew (t := 0) rfl rfl rfl))
    (.forkRelease (t := 0) rfl rfl))
    (.move (t := 0) rfl rfl .copyDone))
    (.forkSz (t := 0) rfl rfl))
    (.move (t := 0) rfl rfl (.forkRegs rfl)))
    (.forkParent (t := 0) rfl rfl rfl))
    (.forkRunnable (t := 0) rfl rfl rfl)
  all_goals decide

/-- The child's parent is the first process, and it is alive. -/
theorem exit_wait_protocol_forked :
    (forkedState.proc 1).parent = some 0 ∧ (forkedState.proc 0).state ≠ .ZOMBIE := by
  have hparent : (forkedState.proc 1).parent = some 0 := rfl
  obtain ⟨hlive, -⟩ := exit_wait_protocol forkedState_reachable
  exact ⟨hparent, (hlive rfl 1 0 (by decide) hparent).2⟩

end Protocol

end Kus
