import KusOs.KernelPaths

/-!
# Paths that allocate with no spinlock held

`kalloc` may sleep, and `sched` panics when a sleeper holds a spinlock besides
its own process's.  A thread is *calm* when it does not run into that panic;
it may sleep, return, or stop for another reason.

* the rules of `Calm`, and the primitives that are calm under any locks;
* `kalloc_free` — `kalloc` is calm when it is called with no lock;
* from there up, every function that allocates only when no lock is held.
-/

namespace Kus

open Hoare

variable {p q : Slot} {R : Kernel → Prop} {H : List Lock} {α β : Type}

/-- From the locks `H`, and with `R` in memory, `x` returns with the locks `H'`
and with `R`, or stops with something else than `panic("sched locks")`. -/
def Calm (p : Slot) (R : Kernel → Prop) (H : List Lock) (x : K α) (H' : α → List Lock) : Prop :=
  Triple (On p H R) x (fun a => On p (H' a) R) (· ≠ .schedLocks)

/-- Calm with no lock before and after. -/
def Free (p : Slot) (x : K α) : Prop := Calm p (fun _ => True) [] x fun _ => []

section Rules

variable {H' : α → List Lock} {H'' : β → List Lock} {x y : K α} {f : α → K β}

theorem Calm.ret (a : α) : Calm p R H (pure a) fun _ => H := fun _ h => h

theorem Calm.stop {e : Stop} (he : e ≠ .schedLocks) : Calm p R H (throw e : K α) H' :=
  fun _ _ => he

theorem Calm.bind (hx : Calm p R H x H') (hf : ∀ a, Calm p R (H' a) (f a) H'') :
    Calm p R H (x >>= f) H'' :=
  Triple.bind hx hf

theorem Calm.ite {c : Prop} [Decidable c] (hx : Calm p R H x H') (hy : Calm p R H y H') :
    Calm p R H (if c then x else y) H' :=
  Triple.ite (fun _ => hx) fun _ => hy

/-- Reading memory, knowing `R` of what is read. -/
theorem Calm.read {f : Kernel → K β} (hf : ∀ m, R m → Calm p R H (f m) H'') :
    Calm p R H (get >>= f) H'' :=
  fun m h => hf m h.2 m h

/-- Reading memory, when nothing depends on what is read. -/
theorem Calm.get {f : Kernel → K β} (hf : ∀ m, Calm p R H (f m) H'') : Calm p R H (get >>= f) H'' :=
  Calm.read fun m _ => hf m

/-- Changing memory in a way that `R` does not see. -/
theorem Calm.change {g : Kernel → Kernel} (hcpu : ∀ m, (g m).cpu = m.cpu)
    (hR : ∀ m, R m → R (g m)) : Calm p R H (modify g) fun _ => H :=
  fun m h => ⟨h.1.of_cpu (hcpu m), hR m h.2⟩

theorem Calm.update {g : Kernel → Kernel} (hcpu : ∀ m, (g m).cpu = m.cpu) :
    Calm p (fun _ => True) H (modify g) fun _ => H :=
  Calm.change hcpu fun _ h => h

theorem Calm.when {c : Prop} [Decidable c] {x : K Unit} (hx : Calm p R H x fun _ => H) :
    Calm p R H (Thread.when c x) fun _ => H :=
  Calm.ite hx (.ret ())

theorem Calm.forM {f : β → K Unit} {l : List β} (hf : ∀ b, Calm p R H (f b) fun _ => H) :
    Calm p R H (l.forM f) fun _ => H :=
  Triple.forM fun b _ => hf b

end Rules

namespace Thread

section Primitives

variable {l lk : Lock}

section

variable (hR : Stable p R)
include hR

theorem acquire_calm (l : Lock) : Calm p R H (acquire l) fun _ => l :: H := by
  refine (acquire_spec hR l).weaken fun e he => ?_
  rw [he.1]
  decide

theorem releaseLast_calm : Calm p R (l :: H) (release l) fun _ => H :=
  (release_last hR).weaken fun _ he => he.elim

/-- A lock taken and dropped. -/
theorem passLock_calm (l : Lock) : Calm p R H (acquire l >>= fun _ => release l) fun _ => H :=
  (acquire_calm hR l).bind fun _ => releaseLast_calm hR

theorem sleep_calm (hlk : lk ≠ .proc p) (chan : Chan) :
    Calm p R [lk] (sleep chan lk) fun _ => [lk] :=
  (sleep_spec hR hlk chan).weaken fun _ he => he.elim

theorem wakeup_calm (chan : Chan) : Calm p R H (wakeup chan) fun _ => H := by
  refine (wakeup_spec hR chan).weaken fun e he => ?_
  rw [he.1]
  decide

theorem killed_calm (q : Slot) : Calm p R H (killed q) fun _ => H := by
  refine (acquire_calm hR _).bind fun _ => .get fun m => ?_
  exact (releaseLast_calm hR).bind fun _ => .ret _

end

/-- A loop without a bound: `I` is what every round starts with. -/
theorem forever_spec {I : β → Kernel → Prop} {Q : α → Kernel → Prop} {body : β → K (β ⊕ α)}
    (hbody : ∀ b, Triple (I b) (body b)
      (fun r m => r.elim (fun b' => I b' m) fun a => Q a m) (· ≠ .schedLocks)) (b : β) :
    Triple (I b) (forever body b) Q (· ≠ .schedLocks) :=
  fun m h => Triple.rounds hbody (by decide) m.rounds b m h

theorem curproc_calm (hR : Stable p R) :
    Triple (On p H R) curproc (fun r m => r = p ∧ On p H R m) (· ≠ .schedLocks) :=
  (curproc_spec hR).weaken fun _ he => he.elim

theorem curproc_free : Free p curproc :=
  (curproc_calm (.true p)).conseq (fun _ h => h) (fun _ _ h => h.2) fun _ he => he

end Primitives

section Allocator

theorem kfree_calm (pa : Nat) : Calm p (fun _ => True) H (kfree pa) fun _ => H := by
  have hR := Stable.true p
  refine .get fun m => .ite (.stop (by decide)) ?_
  refine .bind (.update fun _ => rfl) fun _ => ?_
  refine (acquire_calm hR _).bind fun _ => ?_
  refine .bind (.update fun _ => rfl) fun _ => ?_
  exact (wakeup_calm hR _).bind fun _ => releaseLast_calm hR

theorem stallRound_calm (q : Slot) :
    Calm p (fun _ => True) [.kmem] (stallRound q ()) fun _ => [.kmem] := by
  refine (sleep_calm (.true p) (by simp) _).bind fun _ => .get fun m => ?_
  cases kallocResume (m.world.table q).killed m.world.kmem with
  | null => exact .ret _
  | stall => exact .ret _
  | page r => exact .ret _

theorem stall_calm (q : Slot) : Calm p (fun _ => True) [.kmem] (stall q) fun _ => [.kmem] := by
  have hR := Stable.true p
  have hloop : Calm p (fun _ => True) [.kmem] (forever (stallRound q) ()) fun _ => [.kmem] := by
    refine forever_spec (I := fun _ => On p [.kmem] fun _ => True) (fun b => ?_) ()
    refine (stallRound_calm q).conseq (fun _ h => h) (fun r m h => ?_) fun _ he => he
    cases r <;> exact h
  refine (acquire_calm hR .ticks).bind fun _ => ?_
  refine (releaseLast_calm hR).bind fun _ => hloop.bind fun r => ?_
  cases r with
  | none => exact .ret _
  | some r =>
    refine (acquire_calm hR .ticks).bind fun _ => ?_
    exact (releaseLast_calm hR).bind fun _ => .ret _

theorem takePage_calm (r : Nat) : Calm p (fun _ => True) [.kmem] (takePage r) fun _ => [] := by
  refine .bind (.when (.update fun _ => rfl)) fun _ => ?_
  refine (releaseLast_calm (.true p)).bind fun _ => ?_
  exact .bind (.when (.update fun _ => rfl)) fun _ => .ret _

/-- **`kalloc` is calm where no lock is held.** -/
theorem kalloc_free : Free p kalloc := by
  have hR := Stable.true p
  have hmyproc : Free p myproc := by
    refine .conseq (E := (· ≠ .schedLocks)) (myproc_spec hR) (fun _ h => h)
      (fun _ _ h => h.2) fun _ he => he.elim
  refine hmyproc.bind fun o => ?_
  refine (acquire_calm hR .kmem).bind fun _ => .get fun m => ?_
  cases o with
  | none => cases kallocEnter none.isSome m.world.kmem <;> exact takePage_calm _
  | some q =>
    cases kallocEnter (some q).isSome m.world.kmem with
    | page r => exact takePage_calm _
    | null => exact takePage_calm _
    | stall =>
      refine (stall_calm q).bind fun r => ?_
      cases r with
      | none => exact (releaseLast_calm hR).bind fun _ => .ret 0
      | some r => exact takePage_calm r

theorem freePagetable_calm (root : Nat) :
    Calm p (fun _ => True) H (freePagetable root) fun _ => H :=
  Calm.get fun _ => (Calm.forM kfree_calm).bind fun _ => kfree_calm root

theorem freeproc_calm (q : Slot) : Calm p (fun _ => True) H (freeproc q) fun _ => H := by
  refine Calm.get fun m => (Calm.when (kfree_calm _)).bind fun _ => ?_
  refine Calm.bind (Calm.update fun _ => rfl) fun _ => ?_
  exact (Calm.when (freePagetable_calm _)).bind fun _ => Calm.update fun _ => rfl

end Allocator

section Vm

variable {root va newsz : Nat} {write : Bool}

theorem walkLevel_free {alloc : Bool} {valid : AddressSpace → Bool}
    {mark : AddressSpace → AddressSpace} : Free p (walkLevel root alloc valid mark) := by
  refine .get fun m => .ite (.ret _) (.ite ?_ (.ret _))
  refine .bind kalloc_free fun r => .ite (.ret _) ?_
  exact .bind (.update fun _ => rfl) fun _ => .ret _

theorem walk_free {alloc : Bool} : Free p (walk root va alloc) :=
  Calm.ite (.stop (by decide)) <|
    Calm.bind walkLevel_free fun _ => .ite walkLevel_free (.ret _)

theorem pte_calm : Calm p R H (pte root va) fun _ => H := .get fun _ => .ret _

theorem walkaddr_free : Free p (walkaddr root va) := by
  refine .ite (.ret _) ?_
  refine .bind walk_free fun _ => .ite (.bind pte_calm fun e => ?_) (.ret _)
  cases e <;> exact .ret _

theorem ismapped_free : Free p (ismapped root va) :=
  Calm.bind walk_free fun _ => .ite (.bind pte_calm fun _ => .ret _) (.ret _)

theorem mappages_free {pa : Nat} {user : Bool} : Free p (mappages root va pa write user) := by
  refine .ite (.stop (by decide)) ?_
  refine .bind walk_free fun _ => .ite (.bind pte_calm fun e => ?_) (.ret _)
  cases e with
  | some e => exact .stop (by decide)
  | none => exact .bind (.update fun _ => rfl) fun _ => .ret _

theorem uvmcreate_free : Free p uvmcreate :=
  Calm.bind kalloc_free fun _ => .ite (.ret _) <|
    Calm.bind (.update fun _ => rfl) fun _ => .ret _

theorem unmapPage_free : Free p (unmapPage root va) := by
  refine .bind walk_free fun _ => .when (.bind pte_calm fun e => ?_)
  cases e with
  | none => exact .ret _
  | some e => exact (kfree_calm _).bind fun _ => .update fun _ => rfl

theorem uvmunmap_free {npages : Nat} : Free p (uvmunmap root va npages) :=
  Calm.forM fun _ => unmapPage_free

theorem uvmdealloc_free {oldsz : Nat} : Free p (uvmdealloc root oldsz newsz) :=
  Calm.ite (Calm.ret _) <| (Calm.when uvmunmap_free).bind fun _ => Calm.ret _

theorem uvmallocFrom_free {start : Nat} (k a : Nat) :
    Free p (uvmallocFrom root start newsz write k a) := by
  induction k generalizing a with
  | zero => exact .ret _
  | succ k ih =>
    refine .bind kalloc_free fun mem => .ite ?_ ?_
    · exact .bind uvmdealloc_free fun _ => .ret _
    · refine .bind mappages_free fun ok => .ite (ih _) ?_
      exact (kfree_calm _).bind fun _ => .bind uvmdealloc_free fun _ => .ret _

theorem uvmalloc_free {oldsz : Nat} : Free p (uvmalloc root oldsz newsz write) :=
  Calm.ite (.ret _) (uvmallocFrom_free _ _)

theorem uvmcopyFrom_free {old new : Nat} (k i : Nat) : Free p (uvmcopyFrom old new k i) := by
  induction k generalizing i with
  | zero => exact .ret _
  | succ k ih =>
    refine .bind walk_free fun found => ?_
    refine .bind (.ite pte_calm (.ret none)) fun e => ?_
    cases e with
    | none => exact ih _
    | some e =>
      refine .bind kalloc_free fun mem => .ite ?_ ?_
      · exact .bind uvmunmap_free fun _ => .ret _
      · refine .bind mappages_free fun ok => .ite (ih _) ?_
        exact (kfree_calm _).bind fun _ => .bind uvmunmap_free fun _ => .ret _

theorem vmfault_free : Free p (vmfault root va) := by
  refine .bind curproc_free fun _ => .get fun m => .ite (.ret _) ?_
  refine .bind ismapped_free fun _ => .ite (.ret _) ?_
  refine .bind kalloc_free fun mem => .ite (.ret _) (.get fun m => ?_)
  refine .bind mappages_free fun ok => .ite (.ret _) ?_
  exact (kfree_calm _).bind fun _ => .ret _

theorem userPage_free : Free p (userPage root va) :=
  Calm.bind walkaddr_free fun _ => .ite vmfault_free (.ret _)

theorem copyoutFrom_free (k dstva len : Nat) : Free p (copyoutFrom root k dstva len) := by
  induction k generalizing dstva len with
  | zero => exact .ret _
  | succ k ih =>
    refine .ite (.ret _) (.ite (.ret _) ?_)
    refine .bind userPage_free fun pa0 => .ite (.ret _) ?_
    refine .bind walk_free fun found => .ite ?_ (.stop (by decide))
    refine .bind pte_calm fun e => ?_
    cases e with
    | none => exact .ret _
    | some e => exact .ite (ih _ _) (.ret _)

theorem copyout_free {dstva len : Nat} : Free p (copyout root dstva len) :=
  copyoutFrom_free _ _ _

theorem copyinFrom_free (k srcva len : Nat) : Free p (copyinFrom root k srcva len) := by
  induction k generalizing srcva len with
  | zero => exact .ret _
  | succ k ih =>
    refine .ite (.ret _) ?_
    exact .bind userPage_free fun pa0 => .ite (.ret _) (ih _ _)

theorem copyin_free {srcva len : Nat} : Free p (copyin root srcva len) :=
  copyinFrom_free _ _ _

theorem ownPagetable_free : Free p ownPagetable :=
  Calm.bind curproc_free fun _ => .get fun _ => .ret _

theorem eitherCopyin_free {user : Bool} {src len : Nat} : Free p (eitherCopyin user src len) :=
  Calm.bind ownPagetable_free fun _ => .ite copyin_free (.ret _)

end Vm

section Processes

theorem fsCall_calm : Calm p (fun _ => True) H fsCall fun _ => H :=
  passLock_calm (.true p) _

theorem ftableCall_calm : Calm p (fun _ => True) H ftableCall fun _ => H :=
  passLock_calm (.true p) _

theorem setBuilding_calm (o : Option Slot) : Calm p (fun _ => True) H (setBuilding o) fun _ => H :=
  Calm.update fun _ => rfl

theorem allocpid_calm : Calm p (fun _ => True) H allocpid fun _ => H := by
  have hR := Stable.true p
  refine (acquire_calm hR _).bind fun _ => .get fun m => ?_
  refine .bind (.update fun _ => rfl) fun _ => ?_
  exact (releaseLast_calm hR).bind fun _ => .ret _

theorem procPagetable_free : Free p (procPagetable q) := by
  refine .bind uvmcreate_free fun root => .ite (.ret _) (.get fun m => ?_)
  have hfail : Free p (do freePagetable root; pure 0) := (freePagetable_calm _).bind fun _ => .ret _
  refine .bind mappages_free fun ok => .ite ?_ hfail
  exact .bind mappages_free fun ok => .ite (.ret _) hfail

/-- The lock with which `allocproc` returns. -/
def slotLock (o : Option Slot) : List Lock := o.elim [] fun q => [.proc q]

theorem allocScan_calm (l : List Slot) : Calm p (fun _ => True) [] (allocScan l) slotLock := by
  have hR := Stable.true p
  induction l with
  | nil => exact fun _ h => h
  | cons q rest ih =>
    refine (acquire_calm hR _).bind fun _ => .get fun m => .ite ?_ ?_
    · exact fun _ h => h
    · exact (releaseLast_calm hR).bind fun _ => ih

theorem giveUp_free : Free p (giveUp q) := by
  have hR := Stable.true p
  refine (acquire_calm hR _).bind fun _ => ?_
  exact (freeproc_calm _).bind fun _ => releaseLast_calm hR

/-- `allocproc` allocates after it has dropped the new slot's lock. -/
theorem allocproc_calm : Calm p (fun _ => True) [] allocproc slotLock := by
  have hR := Stable.true p
  have hfail : ∀ np : Slot, Calm p (fun _ => True) []
      (do giveUp np; setBuilding none; pure none) slotLock := fun np =>
    Calm.bind giveUp_free fun _ => (setBuilding_calm _).bind fun _ => fun _ h => h
  refine (allocScan_calm _).bind fun o => ?_
  cases o with
  | none => exact fun _ h => h
  | some np =>
    refine .bind allocpid_calm fun pid => .bind (.update fun _ => rfl) fun _ => ?_
    refine (setBuilding_calm _).bind fun _ => (releaseLast_calm hR).bind fun _ => ?_
    refine .bind kalloc_free fun trapframe => .bind (.update fun _ => rfl) fun _ => ?_
    refine .ite (hfail np) (.bind procPagetable_free fun root => ?_)
    refine .bind (.update fun _ => rfl) fun _ => .ite (hfail np) ?_
    exact (acquire_calm hR _).bind fun _ => fun _ h => h

theorem kfork_free (files : Nat) : Free p (kfork files) := by
  have hR := Stable.true p
  refine .bind curproc_free fun _ => .bind allocproc_calm fun o => ?_
  cases o with
  | none => exact .ret _
  | some np =>
    refine (releaseLast_calm hR).bind fun _ => .get fun m => ?_
    refine (uvmcopyFrom_free _ _).bind fun ok => .ite ?_ ?_
    · refine .bind (.update fun _ => rfl) fun _ => (acquire_calm hR _).bind fun _ => ?_
      refine (Calm.forM fun _ => ftableCall_calm).bind fun _ => Calm.bind fsCall_calm fun _ => ?_
      refine Calm.get fun m => (releaseLast_calm hR).bind fun _ => ?_
      refine (acquire_calm hR _).bind fun _ => .bind (.update fun _ => rfl) fun _ => ?_
      refine (releaseLast_calm hR).bind fun _ => (acquire_calm hR _).bind fun _ => ?_
      refine .bind (.update fun _ => rfl) fun _ => (setBuilding_calm _).bind fun _ => ?_
      exact (releaseLast_calm hR).bind fun _ => .ret _
    · refine .bind giveUp_free fun _ => (setBuilding_calm _).bind fun _ => .ret _

theorem growproc_free (n : Int) : Free p (growproc n) := by
  refine .bind curproc_free fun _ => .get fun m => .ite (.ite (.ret _) ?_) ?_
  · refine .bind uvmalloc_free fun sz => .ite (.ret _) ?_
    exact .bind (.update fun _ => rfl) fun _ => .ret _
  · refine .bind (.ite uvmdealloc_free (.ret _)) fun sz => ?_
    exact .bind (.update fun _ => rfl) fun _ => .ret _

end Processes

section Exec

variable {root : Nat}

theorem loadsegFrom_free {va pagesRead : Nat} (k i : Nat) :
    Free p (loadsegFrom root va pagesRead k i) := by
  induction k generalizing i with
  | zero => exact .ret _
  | succ k ih =>
    refine .bind walkaddr_free fun pa => .ite (.stop (by decide)) ?_
    exact .bind fsCall_calm fun _ => .ite (ih _) (.ret _)

theorem loadSegments_free (headers : List ProgHeader) (sz : Nat) :
    Free p (loadSegments root headers sz) := by
  induction headers generalizing sz with
  | nil => exact .ret _
  | cons ph rest ih =>
    refine .bind fsCall_calm fun _ => .ite (.ret _) (.ite (ih _) ?_)
    refine .ite (.ret _) (.ite (.ret _) (.ite (.ret _) ?_))
    refine .bind uvmalloc_free fun sz1 => .ite (.ret _) ?_
    exact (loadsegFrom_free _ _).bind fun ok => .ite (ih _) (.ret _)

theorem pushArgs_free {stackbase : Nat} (args : List Nat) (argc sp : Nat) :
    Free p (pushArgs root stackbase args argc sp) := by
  induction args generalizing argc sp with
  | nil => exact .ret _
  | cons len rest ih =>
    refine .ite (.ret _) (.ite (.ret _) ?_)
    exact .bind copyout_free fun ok => .ite (ih _ _) (.ret _)

theorem uvmclear_free {va : Nat} : Free p (uvmclear root va) :=
  Calm.bind walk_free fun _ => .ite (.update fun _ => rfl) (.stop (by decide))

theorem execStack_free {args : List Nat} {sz : Nat} : Free p (execStack q root args sz) := by
  refine .bind uvmalloc_free fun sz1 => .ite (.ret _) ?_
  -- the unifier would count the bytes of the stack down one by one
  generalize (USERSTACK + 1) * PGSIZE = guard
  generalize USERSTACK * PGSIZE = stack
  refine .bind uvmclear_free fun _ => ?_
  refine (pushArgs_free _ _ _).bind fun o => ?_
  cases o with
  | none => exact .ret _
  | some sp =>
    refine .ite (.ret _) (.bind copyout_free fun ok => .ite ?_ (.ret _))
    refine .get fun m => .bind (.update fun _ => rfl) fun _ => ?_
    exact (freePagetable_calm _).bind fun _ => .ret _

theorem kexec_free (file : Option (List ProgHeader)) (args : List Nat) :
    Free p (kexec file args) := by
  refine .bind curproc_free fun q => .bind fsCall_calm fun _ => ?_
  cases file with
  | none => exact .bind fsCall_calm fun _ => .ret _
  | some headers =>
    refine .bind procPagetable_free fun root => .ite ?_ ?_
    · exact .bind fsCall_calm fun _ => .ret _
    refine (loadSegments_free _ _).bind fun o => ?_
    cases o with
    | none =>
      exact (freePagetable_calm _).bind fun _ => .bind fsCall_calm fun _ => .ret _
    | some sz =>
      refine .bind fsCall_calm fun _ => .bind execStack_free fun o => ?_
      cases o with
      | none => exact (freePagetable_calm _).bind fun _ => .ret _
      | some argc => exact .ret _

theorem fetchaddr_free {addr : Nat} : Free p (fetchaddr addr) :=
  Calm.bind curproc_free fun _ => .get fun _ => .ite (.ret _) copyin_free

theorem fetchArgs_free {uargv : Nat} (rest : List (Option Nat)) (i : Nat) (got : List Nat) :
    Free p (fetchArgs uargv rest i got) := by
  induction rest generalizing i got with
  | nil =>
    rw [fetchArgs]
    refine .ite (.ret _) (.bind fetchaddr_free fun ok => ?_)
    exact .ite (.ret _) (.ret _)
  | cons arg rest ih =>
    rw [fetchArgs]
    refine .ite (.ret _) (.bind fetchaddr_free fun ok => .ite ?_ (.ret _))
    refine .bind kalloc_free fun page => .ite (.ret _) ?_
    cases arg with
    | none => exact .ret _
    | some len => exact ih _ _

theorem sysExec_free (uargv : Nat) (file : Option (List ProgHeader))
    (args : List (Option Nat)) : Free p (sysExec uargv file args) := by
  refine (fetchArgs_free _ _ _).bind fun r => ?_
  refine .bind (.ite (kexec_free _ _) (.ret _)) fun ret => ?_
  exact (Calm.forM kfree_calm).bind fun _ => Calm.ret _

end Exec

section Files

theorem pipealloc_free (entries : Nat) : Free p (pipealloc entries) := by
  refine Calm.bind ftableCall_calm fun _ => (Calm.when ftableCall_calm).bind fun _ => Calm.ite ?_ ?_
  · exact (Calm.when ftableCall_calm).bind fun _ => Calm.ret _
  · refine .bind kalloc_free fun pi => .ite ?_ (.ret _)
    exact .bind ftableCall_calm fun _ => .bind ftableCall_calm fun _ => .ret _

theorem consolewriteFrom_free {user : Bool} {src n : Nat} (k i : Nat) :
    Free p (consolewriteFrom user src n k i) := by
  induction k generalizing i with
  | zero => exact .ret _
  | succ k ih =>
    refine .ite (.bind eitherCopyin_free fun ok => .ite ?_ (.ret _)) (.ret _)
    exact .bind fsCall_calm fun _ => ih _

end Files

end Thread

end Kus
