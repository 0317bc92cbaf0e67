import KusOs.Hoare
import KusOs.Lifecycle

/-!
# A kernel thread and the spinlocks of its CPU

The lock discipline of the kernel is a property of single threads: which
spinlocks the CPU holds at which call, and whose `myproc()` it is.  A thread is
a program over `Kernel`, the state of its CPU and of memory, and it may stop
with one of the source's panics.

The other CPUs are in the state as a stream of memory contents, `others`.  At
every `acquire`, and while the thread is switched out in `sched`, whatever the
thread has not locked takes the next of these contents: `Kernel.interfere`.  A
statement for every stream is a statement for everything the others can do.
The thread's own slot, and a slot it is in the middle of creating, change in
`killed` and `parent` only.  `acquire` spins until the lock is free; a thread
that spins for ever takes no further step and is not looked at.

Loops without a bound are followed for `rounds` rounds; a thread that needs
more stops with `Stop.rounds`, which is no panic.
-/

namespace Kus

open Hoare

/-- The spinlocks.  `fs` stands for those of the file system and the devices
(`log.lock`, `itable.lock`, `bcache.lock`, the locks inside sleep-locks, `tx_lock`
of the UART), which their functions take and drop before they return. -/
inductive Lock
  | proc (p : Slot)
  | kmem | ticks | wait | pid | pipe | cons | ftable | fs
deriving DecidableEq, Repr

/-- Why a thread stopped.  All but the last two are `panic`s. -/
inductive Stop
  | acquire | release
  | popOff | popOffInterruptible
  | schedLock | schedLocks | schedRunning | schedInterruptible
  | kfree | walk | mappagesAlign | mappagesRemap | uvmclear | loadseg
  /-- a null pointer is used -/
  | nullDeref
  /-- a loop goes on for longer than it is followed -/
  | rounds
deriving DecidableEq, Repr

/-- `struct cpu`: the locks it holds, `noff`, whether interrupts are on,
`intena` and `c->proc`. -/
structure Cpu where
  held : List Lock
  noff : Nat
  intr : Bool
  intena : Bool
  proc : Option Slot

/-- A valid page-table entry. -/
structure Pte where
  pa : Nat
  write : Bool
  user : Bool

/-- A page table: which entries of the two upper levels are valid, the last
level, and the pages it consists of or maps for the user, the root apart. -/
structure AddressSpace where
  mid : Nat → Bool
  low : Nat → Bool
  leaf : Nat → Option Pte
  pages : List Nat

/-- `struct pipe` without its bytes. -/
structure Pipe where
  nread : UInt32
  nwrite : UInt32
  readopen : Bool
  writeopen : Bool

/-- The console's input buffer. -/
structure Cons where
  buf : UInt32 → UInt8
  r : UInt32
  w : UInt32

/-- The memory that other CPUs change too. -/
structure World where
  kmem : Kmem
  table : Slot → Proc
  nextpid : Int
  pipe : Pipe
  cons : Cons

/-- What a thread runs on. -/
structure Kernel where
  cpu : Cpu
  world : World
  /-- The page tables, by root. -/
  space : Nat → AddressSpace
  /-- The slot this thread is in the middle of creating. -/
  building : Option Slot
  others : Nat → World
  clock : Nat
  rounds : Nat
  img : Image
  /-- Where the trampoline code is. -/
  trampoline : Nat

/-- A kernel thread. -/
abbrev K := StateT Kernel (Except Stop)

namespace Kernel

/-- Change the slot `p`. -/
def setProc (m : Kernel) (p : Slot) (f : Proc → Proc) : Kernel :=
  { m with world := { m.world with
      table := Function.update m.world.table p (f (m.world.table p)) } }

/-- Change the allocator. -/
def setKmem (m : Kernel) (f : Kmem → Kmem) : Kernel :=
  { m with world := { m.world with kmem := f m.world.kmem } }

/-- Change the page table with root `root`. -/
def setSpace (m : Kernel) (root : Nat) (f : AddressSpace → AddressSpace) : Kernel :=
  { m with space := Function.update m.space root (f (m.space root)) }

/-- The slot `q` when the others have made `w` of memory. -/
def slotAfter (m : Kernel) (w : World) (q : Slot) : Proc :=
  let own := m.world.table q
  let new := w.table q
  let kept : Proc :=
    if .proc q ∈ m.cpu.held then own
    else if m.cpu.proc = some q ∨ m.building = some q then { own with killed := new.killed }
    else new
  { kept with parent := if .wait ∈ m.cpu.held then own.parent else new.parent }

/-- The others run: what is locked stays as it is. -/
def interfere (m : Kernel) : Kernel :=
  let w := m.others m.clock
  { m with
    world :=
      { kmem := if .kmem ∈ m.cpu.held then m.world.kmem else w.kmem
        table := m.slotAfter w
        nextpid := if .pid ∈ m.cpu.held then m.world.nextpid else w.nextpid
        pipe := if .pipe ∈ m.cpu.held then m.world.pipe else w.pipe
        cons := if .cons ∈ m.cpu.held then m.world.cons else w.cons }
    clock := m.clock + 1 }

/-- `swtch` to the scheduler and back: meanwhile the scheduler has released
`p->lock`, and when it returns it has made the process `RUNNING`. -/
def swtch (p : Slot) (m : Kernel) : Kernel :=
  let away :=
    ({ m with cpu := { m.cpu with held := m.cpu.held.erase (.proc p) } } : Kernel).interfere
  ({ away with cpu := m.cpu } : Kernel).setProc p fun q => { q with state := .RUNNING }

end Kernel

/-- The effect of `push_off` on the CPU. -/
def Cpu.push (c : Cpu) : Cpu :=
  { c with
    intena := if c.noff = 0 then c.intr else c.intena
    intr := false
    noff := c.noff + 1 }

/-- The effect of `pop_off` on the CPU. -/
def Cpu.pop (c : Cpu) : Cpu :=
  { c with
    noff := c.noff - 1
    intr := if c.noff - 1 = 0 ∧ c.intena = true then true else c.intr }

namespace Thread

/-- An action taken under a condition. -/
def when (c : Prop) [Decidable c] (x : K Unit) : K Unit := if c then x else pure ()

/-- A `for(;;)` or `while` loop. -/
def forever {α β : Type} (body : β → K (β ⊕ α)) (b : β) : K α := do
  let m ← get
  rounds .rounds body m.rounds b

/-- `push_off`. -/
def pushOff : K Unit := modify fun m => { m with cpu := m.cpu.push }

/-- `pop_off`. -/
def popOff : K Unit := do
  let m ← get
  if m.cpu.intr then throw .popOffInterruptible
  else if m.cpu.noff < 1 then throw .popOff
  else modify fun m => { m with cpu := m.cpu.pop }

/-- `acquire`. -/
def acquire (l : Lock) : K Unit := do
  pushOff
  let m ← get
  if l ∈ m.cpu.held then throw .acquire
  else modify fun m => { m.interfere with cpu := { m.cpu with held := l :: m.cpu.held } }

/-- `release`. -/
def release (l : Lock) : K Unit := do
  let m ← get
  if l ∈ m.cpu.held then do
    modify fun m => { m with cpu := { m.cpu with held := m.cpu.held.erase l } }
    popOff
  else throw .release

/-- `myproc`. -/
def myproc : K (Option Slot) := do
  pushOff
  let m ← get
  popOff
  pure m.cpu.proc

/-- `myproc` where the result is used as a pointer. -/
def curproc : K Slot := do
  match ← myproc with
  | some p => pure p
  | none => throw .nullDeref

/-- `sched`. -/
def sched : K Unit := do
  let p ← curproc
  let m ← get
  if .proc p ∉ m.cpu.held then throw .schedLock
  else if m.cpu.noff ≠ 1 then throw .schedLocks
  else if (m.world.table p).state = .RUNNING then throw .schedRunning
  else if m.cpu.intr then throw .schedInterruptible
  else modify (Kernel.swtch p)

/-- `sleep`. -/
def sleep (chan : Chan) (lk : Lock) : K Unit := do
  let p ← curproc
  acquire (.proc p)
  release lk
  modify fun m => m.setProc p fun q => { q with chan := chan, state := .SLEEPING }
  sched
  modify fun m => m.setProc p fun q => { q with chan := .null }
  release (.proc p)
  acquire lk

/-- The body of `wakeup`'s loop. -/
def wakeOne (chan : Chan) (q : Slot) : K Unit := do
  let p ← myproc
  when (p ≠ some q) do
    acquire (.proc q)
    modify fun m => m.setProc q (Proc.wake chan)
    release (.proc q)

/-- `wakeup`. -/
def wakeup (chan : Chan) : K Unit := (List.finRange NPROC).forM (wakeOne chan)

/-- `killed`. -/
def killed (p : Slot) : K Bool := do
  acquire (.proc p)
  let m ← get
  release (.proc p)
  pure (m.world.table p).killed

end Thread

section Specs

variable {p : Slot} {H : List Lock} {R : Kernel → Prop} {m : Kernel}

/-- The thread of `p` runs and its CPU holds the locks `H`. -/
structure At (p : Slot) (H : List Lock) (m : Kernel) : Prop where
  proc : m.cpu.proc = some p
  held : m.cpu.held = H
  noff : m.cpu.noff = H.length
  intr : H ≠ [] → m.cpu.intr = false

theorem At.of_cpu {m' : Kernel} (h : At p H m) (hcpu : m'.cpu = m.cpu) : At p H m' := by
  obtain ⟨hproc, hheld, hnoff, hintr⟩ := h
  rw [← hcpu] at hproc hheld hnoff hintr
  exact ⟨hproc, hheld, hnoff, hintr⟩

theorem Cpu.pop_intr {c : Cpu} (hnoff : 1 < c.noff) : c.pop.intr = c.intr := by
  have hne : ¬ (c.noff - 1 = 0 ∧ c.intena = true) := fun h => by omega
  exact if_neg hne

/-- A balanced `push_off` and `pop_off`. -/
theorem At.pushPop (h : At p H m) : At p H { m with cpu := m.cpu.push.pop } where
  proc := h.proc
  held := h.held
  noff := h.noff
  intr := by
    intro hne
    have hpos := List.length_pos_of_ne_nil hne
    rw [Cpu.pop_intr (by show 1 < m.cpu.noff + 1; rw [h.noff]; omega)]
    rfl

/-- The state in which `acquire(l)` returns. -/
def acquired (l : Lock) (m : Kernel) : Kernel :=
  { ({ m with cpu := m.cpu.push } : Kernel).interfere with
    cpu := { m.cpu.push with held := l :: m.cpu.held } }

/-- The state in which `release(l)` returns. -/
def released (l : Lock) (m : Kernel) : Kernel :=
  { m with cpu := ({ m.cpu with held := m.cpu.held.erase l } : Cpu).pop }

theorem At.acquired (h : At p H m) (l : Lock) : At p (l :: H) (acquired l m) where
  proc := h.proc
  held := congrArg (List.cons l) h.held
  noff := congrArg Nat.succ h.noff
  intr := fun _ => rfl

theorem At.released {l : Lock} (h : At p H m) (hl : l ∈ H) : At p (H.erase l) (released l m) where
  proc := h.proc
  held := congrArg (fun x => x.erase l) h.held
  noff := by
    show m.cpu.noff - 1 = _
    rw [h.noff, List.length_erase_of_mem hl]
  intr := by
    intro hne
    have hpos := List.length_pos_of_ne_nil hne
    rw [List.length_erase_of_mem hl] at hpos
    show (Cpu.pop { m.cpu with held := m.cpu.held.erase l }).intr = false
    rw [Cpu.pop_intr (by show 1 < m.cpu.noff; rw [h.noff]; omega)]
    exact h.intr (List.ne_nil_of_mem hl)

/-- A property of memory that neither the other CPUs nor the thread's own use
of locks, sleeps and wake-ups can change. -/
structure Stable (p : Slot) (R : Kernel → Prop) : Prop where
  cpu : ∀ m c, R m → R { m with cpu := c }
  interfere : ∀ m, m.cpu.proc = some p → R m → R m.interfere
  wake : ∀ m q chan, q ≠ p → R m → R (m.setProc q (Proc.wake chan))
  sleep : ∀ m f, (∀ q : Proc, ∃ chan state, f q = { q with chan := chan, state := state }) →
    R m → R (m.setProc p f)

theorem Stable.true (p : Slot) : Stable p fun _ => True :=
  ⟨fun _ _ _ => trivial, fun _ _ _ => trivial, fun _ _ _ _ _ => trivial,
    fun _ _ _ _ => trivial⟩

/-- The thread's position together with a property of memory. -/
def On (p : Slot) (H : List Lock) (R : Kernel → Prop) (m : Kernel) : Prop := At p H m ∧ R m

namespace Thread

variable {l lk : Lock} {chan : Chan} {q : Slot}

theorem acquire_run (l : Lock) (m : Kernel) :
    acquire l m = if l ∈ m.cpu.held then .error .acquire else .ok ((), acquired l m) := by
  by_cases hl : l ∈ m.cpu.held
  · rw [if_pos hl]
    show (if l ∈ m.cpu.held then throw .acquire else _ : K Unit) _ = _
    rw [if_pos hl]
    rfl
  rw [if_neg hl]
  show (if l ∈ m.cpu.held then throw .acquire else _ : K Unit) _ = _
  rw [if_neg hl]
  rfl

theorem popOff_run (hintr : m.cpu.intr = false) (hnoff : 0 < m.cpu.noff) :
    popOff m = .ok ((), { m with cpu := m.cpu.pop }) := by
  show (if m.cpu.intr = true then throw .popOffInterruptible else _ : K Unit) m = _
  rw [if_neg (by simp [hintr]), if_neg (by omega)]
  rfl

theorem myproc_run (m : Kernel) :
    myproc m = .ok (m.cpu.proc, { m with cpu := m.cpu.push.pop }) := by
  have hpop := popOff_run (m := { m with cpu := m.cpu.push }) rfl (Nat.succ_pos _)
  show (popOff >>= fun _ => pure m.cpu.push.proc : K (Option Slot))
    { m with cpu := m.cpu.push } = _
  rw [run_bind_ok hpop]
  rfl

theorem release_run (h : At p H m) (hl : l ∈ H) : release l m = .ok ((), released l m) := by
  have hne : H ≠ [] := List.ne_nil_of_mem hl
  have hpos : 0 < m.cpu.noff := by
    rw [h.noff]
    exact List.length_pos_of_ne_nil hne
  show (if l ∈ m.cpu.held then _ else throw .release : K Unit) m = _
  rw [if_pos (by rw [h.held]; exact hl)]
  exact popOff_run (m := { m with cpu := { m.cpu with held := m.cpu.held.erase l } })
    (h.intr hne) hpos

theorem acquire_spec (hR : Stable p R) (l : Lock) :
    Triple (On p H R) (acquire l) (fun _ => On p (l :: H) R)
      (fun e => e = .acquire ∧ l ∈ H) := by
  intro m hm
  obtain ⟨hat, hmem⟩ := hm
  rw [acquire_run, hat.held]
  by_cases hl : l ∈ H
  · rw [if_pos hl]
    exact ⟨rfl, hl⟩
  rw [if_neg hl]
  refine ⟨hat.acquired l, ?_⟩
  exact hR.cpu _ _ (hR.interfere _ hat.proc (hR.cpu _ _ hmem))

/-- **Taking a lock twice.** -/
theorem acquire_stops (hl : l ∈ H) : Stops (At p H) (acquire l) .acquire := by
  intro m h
  rw [acquire_run, if_pos (by rw [h.held]; exact hl)]

theorem release_spec (hR : Stable p R) (hl : l ∈ H) :
    Triple (On p H R) (release l) (fun _ => On p (H.erase l) R) fun _ => False := by
  intro m hm
  rw [release_run hm.1 hl]
  exact ⟨hm.1.released hl, hR.cpu _ _ hm.2⟩

/-- `release` of the lock taken last. -/
theorem release_last (hR : Stable p R) :
    Triple (On p (l :: H) R) (release l) (fun _ => On p H R) fun _ => False := by
  have h := release_spec (H := l :: H) hR List.mem_cons_self
  rwa [List.erase_cons_head] at h

theorem myproc_spec (hR : Stable p R) :
    Triple (On p H R) myproc (fun r m => r = some p ∧ On p H R m) fun _ => False := by
  intro m hm
  rw [myproc_run]
  exact ⟨hm.1.proc, hm.1.pushPop, hR.cpu _ _ hm.2⟩

theorem curproc_run (h : m.cpu.proc = some p) :
    curproc m = .ok (p, { m with cpu := m.cpu.push.pop }) := by
  show (myproc >>= _ : K Slot) m = _
  rw [run_bind_ok (myproc_run m), h]
  rfl

theorem curproc_spec (hR : Stable p R) :
    Triple (On p H R) curproc (fun r m => r = p ∧ On p H R m) fun _ => False := by
  intro m hm
  rw [curproc_run hm.1.proc]
  exact ⟨rfl, hm.1.pushPop, hR.cpu _ _ hm.2⟩

/-- The first check of `sched` passes when the own lock is held. -/
theorem sched_run (h : At p H m) (hl : .proc p ∈ H) :
    sched m =
      (if m.cpu.noff ≠ 1 then throw .schedLocks
      else if (m.world.table p).state = .RUNNING then throw .schedRunning
      else if m.cpu.push.pop.intr then throw .schedInterruptible
      else modify (Kernel.swtch p) : K Unit) { m with cpu := m.cpu.push.pop } := by
  show (curproc >>= _ : K Unit) m = _
  rw [run_bind_ok (curproc_run h.proc)]
  show (if .proc p ∉ m.cpu.held then throw .schedLock else _ : K Unit) _ = _
  rw [if_neg (by rw [h.held]; exact not_not_intro hl)]
  rfl

/-- `sched` with the own lock and no other. -/
theorem sched_spec (hR : Stable p R) :
    Triple (fun m => On p [.proc p] R m ∧ (m.world.table p).state ≠ .RUNNING) sched
      (fun _ => On p [.proc p] R) fun _ => False := by
  intro m hm
  obtain ⟨⟨hat, hmem⟩, hstate⟩ := hm
  have hat' := hat.pushPop
  have hintr : m.cpu.push.pop.intr = false := hat'.intr (by simp)
  have hnoff : m.cpu.noff = 1 := hat.noff
  rw [sched_run hat List.mem_cons_self, if_neg (by simp [hnoff]), if_neg hstate,
    if_neg (by simp [hintr])]
  refine ⟨hat'.of_cpu rfl, ?_⟩
  refine hR.sleep _ _ (fun q => ⟨q.chan, .RUNNING, rfl⟩) ?_
  refine hR.cpu _ _ (hR.interfere _ hat.proc ?_)
  exact hR.cpu _ _ (hR.cpu _ _ hmem)

/-- **`sched` with a second lock held.** -/
theorem sched_stops (hl : .proc p ∈ H) (hlen : H.length ≠ 1) :
    Stops (At p H) sched .schedLocks := by
  intro m h
  rw [sched_run h hl, if_pos (by rw [h.noff]; exact hlen)]
  rfl

theorem sleep_spec (hR : Stable p R) (hlk : lk ≠ .proc p) (chan : Chan) :
    Triple (On p [lk] R) (sleep chan lk) (fun _ => On p [lk] R) fun _ => False := by
  have hfree : Lock.proc p ∉ [lk] := by simpa using hlk.symm
  have hdrop : [Lock.proc p, lk].erase lk = [.proc p] := by
    rw [List.erase_cons_tail (by simpa using hlk.symm), List.erase_cons_head]
  refine .bind (curproc_spec hR) fun r => ?_
  intro m hm
  obtain ⟨rfl, hon⟩ := hm
  refine Triple.bind ((acquire_spec hR (.proc r)).weaken fun e he => hfree he.2) (fun _ => ?_) m hon
  refine Triple.bind (release_spec hR (l := lk) (by simp)) fun _ => ?_
  rw [hdrop]
  refine .bind (Q := fun _ m => On r [.proc r] R m ∧ (m.world.table r).state ≠ .RUNNING)
    (.modify fun m hm => ?_) fun _ => ?_
  · refine ⟨⟨hm.1.of_cpu rfl,
      hR.sleep _ _ (fun q => ⟨chan, .SLEEPING, rfl⟩) hm.2⟩, ?_⟩
    simp [Kernel.setProc]
  refine .bind (sched_spec hR) fun _ => ?_
  refine .bind (Q := fun _ => On r [.proc r] R) (.modify fun m hm => ?_) fun _ => ?_
  · exact ⟨hm.1.of_cpu rfl,
      hR.sleep _ _ (fun q => ⟨.null, q.state, rfl⟩) hm.2⟩
  refine .bind (release_last hR) fun _ => ?_
  exact (acquire_spec hR lk).weaken fun e he => by cases he.2

/-- **Sleeping with a second lock held.** -/
theorem sleep_stops (hlk : lk ∈ H) (hown : .proc p ∉ H) (hlen : H.length ≠ 1) (chan : Chan) :
    Stops (At p H) (sleep chan lk) .schedLocks := by
  have hR := Stable.true p
  have hne : lk ≠ .proc p := by
    rintro rfl
    exact hown hlk
  have hdrop : (Lock.proc p :: H).erase lk = .proc p :: H.erase lk :=
    List.erase_cons_tail (by simpa using hne.symm)
  have hlen' : (Lock.proc p :: H.erase lk).length ≠ 1 := by
    have hpos := List.length_pos_of_mem hlk
    rw [List.length_cons, List.length_erase_of_mem hlk]
    omega
  intro m h
  refine Stops.right (P := On p H fun _ => True) (curproc_spec hR) (fun r => ?_) m ⟨h, trivial⟩
  intro m hm
  obtain ⟨rfl, hon⟩ := hm
  refine Stops.right ((acquire_spec hR (.proc r)).weaken fun e he => hown he.2) (fun _ => ?_) m hon
  refine Stops.right (release_spec hR (List.mem_cons_of_mem _ hlk)) fun _ => ?_
  rw [hdrop]
  refine .right (Q := fun _ => At r (.proc r :: H.erase lk))
    (.modify fun m hm => hm.1.of_cpu rfl) fun _ => ?_
  exact (sched_stops List.mem_cons_self hlen').left

theorem wakeOne_spec (hR : Stable p R) (chan : Chan) (q : Slot) :
    Triple (On p H R) (wakeOne chan q) (fun _ => On p H R)
      (fun e => e = .acquire ∧ q ≠ p ∧ .proc q ∈ H) := by
  refine .bind ((myproc_spec hR).weaken fun _ he => he.elim) fun r => ?_
  intro m hm
  obtain ⟨rfl, hon⟩ := hm
  refine Triple.ite (fun hq => ?_) (fun _ => Triple.pure _ fun _ h => h) m hon
  have hne : q ≠ p := fun heq => hq (congrArg some heq.symm)
  refine .bind ((acquire_spec hR (.proc q)).weaken fun e he => ⟨he.1, hne, he.2⟩) fun _ => ?_
  refine .bind (Q := fun _ => On p (.proc q :: H) R) (.modify fun m hm => ?_) fun _ => ?_
  · exact ⟨hm.1.of_cpu rfl, hR.wake _ _ _ hne hm.2⟩
  · exact (release_last hR).weaken fun _ he => he.elim

/-- `wakeup` fails only on the lock of another process that is held. -/
theorem wakeup_spec (hR : Stable p R) (chan : Chan) :
    Triple (On p H R) (wakeup chan) (fun _ => On p H R)
      (fun e => e = .acquire ∧ ∃ q, q ≠ p ∧ .proc q ∈ H) :=
  Triple.forM fun q _ => (wakeOne_spec hR chan q).weaken fun _ he => ⟨he.1, q, he.2⟩

/-- **`wakeup` with another process's lock held.** -/
theorem wakeup_stops (hq : q ≠ p) (hheld : .proc q ∈ H) (chan : Chan) :
    Stops (At p H) (wakeup chan) .acquire := by
  have hR := Stable.true p
  have hstop : ∀ q, q ≠ p → .proc q ∈ H →
      Stops (On p H fun _ => True) (wakeOne chan q) .acquire := by
    intro q hq hheld
    refine .right (myproc_spec hR) fun r => ?_
    intro m hm
    obtain ⟨rfl, hon⟩ := hm
    have hne : some p ≠ some q := fun heq => hq (Option.some.inj heq).symm
    show (if some p ≠ some q then _ else _ : K Unit) m = _
    rw [if_pos hne]
    exact run_bind_error (acquire_stops hheld m hon.1)
  have hall : Stops (On p H fun _ => True) (wakeup chan) .acquire := by
    refine .forM (fun r _ => ?_) ⟨q, List.mem_finRange q, hstop q hq hheld⟩
    by_cases hr : r ≠ p ∧ .proc r ∈ H
    · exact .inl (hstop r hr.1 hr.2)
    · exact .inr ((wakeOne_spec hR chan r).weaken fun e he => hr he.2)
  exact fun m hm => hall m ⟨hm, trivial⟩

end Thread

end Specs

section Represents

variable {m : Kernel} {s : LifeState} {t : Slot}

/-- A kernel in which the thread of `t` stands where the process system is in
the state `s`. -/
structure Represents (m : Kernel) (s : LifeState) (t : Slot) : Prop where
  proc : m.cpu.proc = some t
  held : ∀ l, l ∈ m.cpu.held ↔
    (∃ q, l = .proc q ∧ s.plock q = some t) ∨ l = .wait ∧ s.waitLock = some t
  noff : m.cpu.noff = m.cpu.held.length
  intr : m.cpu.held ≠ [] → m.cpu.intr = false
  table : m.world.table = s.proc
  kmem : m.world.kmem = s.kmem
  pages : ∀ q, (s.proc q).pagetable ≠ 0 →
    (m.space (s.proc q).pagetable).pages = (s.proc q).pages
  building : m.building = (s.pc t).creates

theorem Represents.at (hm : Represents m s t) : At t m.cpu.held m :=
  ⟨hm.proc, rfl, hm.noff, hm.intr⟩

end Represents

end Kus
