import KusOs.CalmPaths
import KusOs.WaitProtocol

/-!
# Copies to user memory under a spinlock

`pipewrite`, `piperead`, `consoleread` and `kwait` copy to or from user memory
with a spinlock held.  A copy that meets a page which is part of the process
but not allocated yet calls `vmfault`, hence `kalloc`; with no page free
`kalloc` sleeps, and `sched` panics.

* `Lazy` — a page that is still to be allocated;
* `userPage_stops`, `userPage_calm` — a copy under a lock runs into the panic at
  such a page, and at no other;
* `KernelPath` — the ways into `kalloc`; `KernelPath.Resident` — what is copied
  under a lock is allocated;
* `sched_locks_iff` — the result.
-/

namespace Kus

open Hoare Transition

/-- A page below the size of the process that has no entry in its page table. -/
def Lazy (a : AddressSpace) (sz va : Nat) : Prop :=
  va < sz ∧ va < MAXVA ∧ a.entry va = none

instance (a : AddressSpace) (sz va : Nat) : Decidable (Lazy a sz va) := by
  unfold Lazy
  infer_instance

/-- The memory of the process `p`: its page table and its size. -/
structure OwnMemory (p : Slot) (root sz : Nat) (a : AddressSpace) (m : Kernel) : Prop where
  pagetable : (m.world.table p).pagetable = root
  size : (m.world.table p).sz = sz
  space : m.space root = a

section OwnMemory

variable {p : Slot} {root sz : Nat} {a : AddressSpace}

/-- Nobody else touches the memory of a process. -/
theorem Stable.ownMemory : Stable p (OwnMemory p root sz a) where
  cpu m c h := ⟨h.pagetable, h.size, h.space⟩
  interfere m hproc h := by
    have hslot : (m.interfere.world.table p).pagetable = (m.world.table p).pagetable ∧
        (m.interfere.world.table p).sz = (m.world.table p).sz := by
      simp only [Kernel.interfere, Kernel.slotAfter, hproc, true_or, if_true]
      by_cases hheld : .proc p ∈ m.cpu.held
      · rw [if_pos hheld]
        exact ⟨rfl, rfl⟩
      · rw [if_neg hheld]
        exact ⟨rfl, rfl⟩
    exact ⟨hslot.1.trans h.pagetable, hslot.2.trans h.size, h.space⟩
  wake m q chan hq h := by
    have hslot : (m.setProc q (Proc.wake chan)).world.table p = m.world.table p :=
      Function.update_of_ne hq.symm _ _
    exact ⟨hslot ▸ h.pagetable, hslot ▸ h.size, h.space⟩
  sleep m f hf h := by
    obtain ⟨chan, state, heq⟩ := hf (m.world.table p)
    have hslot : (m.setProc p f).world.table p =
        { m.world.table p with chan := chan, state := state } := by
      rw [← heq]
      exact Function.update_self ..
    exact ⟨by rw [hslot]; exact h.pagetable, by rw [hslot]; exact h.size, h.space⟩

end OwnMemory

namespace Thread

section Lookup

variable {root va : Nat}

theorem walk_lookup (hva : va < MAXVA) (m : Kernel) :
    walk root va false m =
      .ok ((m.space root).mid (va / 2 ^ 30) && (m.space root).low (va / 2 ^ 21), m) := by
  have hlevel : ∀ valid mark, walkLevel root false valid mark m =
      .ok (valid (m.space root), m) := by
    intro valid mark
    show (if valid (m.space root) = true then _ else _ : K Bool) m = _
    by_cases h : valid (m.space root) = true
    · rw [if_pos h, h]
      rfl
    · rw [if_neg h, Bool.eq_false_iff.mpr h]
      rfl
  rw [walk, if_neg (by omega), run_bind_ok (hlevel _ _)]
  by_cases hmid : (m.space root).mid (va / 2 ^ 30) = true
  · rw [if_pos hmid, hlevel, hmid, Bool.true_and]
  · rw [if_neg hmid, Bool.eq_false_iff.mpr hmid, Bool.false_and]
    rfl

theorem ismapped_run (hva : va < MAXVA) (m : Kernel) :
    ismapped root va m = .ok (((m.space root).entry va).isSome, m) := by
  rw [ismapped, run_bind_ok (walk_lookup hva m), AddressSpace.entry]
  split_ifs with hfound
  · rfl
  · rfl

/-- What `walkaddr` makes of an entry. -/
def userAddr (e : Option Pte) : Nat := e.elim 0 fun e => if e.user then e.pa else 0

theorem walkaddr_run (m : Kernel) :
    walkaddr root va m =
      .ok (if MAXVA ≤ va then 0 else userAddr ((m.space root).entry va), m) := by
  rw [walkaddr]
  split_ifs with hva
  · rfl
  · rw [run_bind_ok (walk_lookup (by omega) m), AddressSpace.entry]
    split_ifs with hfound
    · rw [run_bind_ok (show pte root va m = .ok ((m.space root).leaf (va / PGSIZE), m) from rfl)]
      cases (m.space root).leaf (va / PGSIZE) <;> rfl
    · rfl

theorem entry_pgrounddown (a : AddressSpace) (va : Nat) :
    a.entry (PGROUNDDOWN va) = a.entry va := by
  have hpage : PGROUNDDOWN va / PGSIZE = va / PGSIZE := by
    unfold PGROUNDDOWN PGSIZE
    omega
  have hlow : PGROUNDDOWN va / 2 ^ 21 = va / 2 ^ 21 := by
    unfold PGROUNDDOWN PGSIZE
    omega
  have hmid : PGROUNDDOWN va / 2 ^ 30 = va / 2 ^ 30 := by
    unfold PGROUNDDOWN PGSIZE
    omega
  rw [AddressSpace.entry, AddressSpace.entry, hpage, hlow, hmid]

end Lookup

section Resident

variable {p : Slot} {H : List Lock} {root sz addr n : Nat} {a : AddressSpace} {user : Bool}

/-- The bytes `[addr, addr + n)` are on no page that is still to be allocated. -/
abbrev Present (a : AddressSpace) (sz addr n : Nat) : Prop :=
  ∀ i < n, ¬ Lazy a sz (PGROUNDDOWN (addr + i))

/-- Looking up an entry changes nothing. -/
theorem walk_calm {R : Kernel → Prop} (va : Nat) : Calm p R H (walk root va false) fun _ => H := by
  intro m h
  by_cases hva : MAXVA ≤ va
  · rw [walk, if_pos hva]
    exact (by decide : Stop.walk ≠ .schedLocks)
  · rw [walk_lookup (by omega)]
    exact h

/-- `vmfault` at a page that is not to be allocated does not call `kalloc`. -/
theorem vmfault_calm {va : Nat} (hlazy : ¬ Lazy a sz va) :
    Calm p (OwnMemory p root sz a) H (vmfault root va) fun _ => H := by
  refine Triple.bind (curproc_calm .ownMemory) fun r => Triple.get_bind fun m hm => ?_
  obtain ⟨rfl, hat, hmem⟩ := hm
  refine .ite (fun _ => .pure _ fun _ h => h ▸ ⟨hat, hmem⟩) fun hsz => ?_
  intro m' hm'
  subst hm'
  by_cases hva : MAXVA ≤ PGROUNDDOWN va
  · have hwalk : ismapped root (PGROUNDDOWN va) m' = .error .walk := by
      rw [ismapped, walk, if_pos hva]
      rfl
    rw [run_bind_error hwalk]
    exact (by decide : Stop.walk ≠ .schedLocks)
  have hlt : va < MAXVA := by
    unfold PGROUNDDOWN MAXVA PGSIZE at *
    omega
  have hmapped : (a.entry va).isSome = true := by
    rw [Option.isSome_iff_ne_none]
    intro hnone
    exact hlazy ⟨by rw [← hmem.size]; omega, hlt, hnone⟩
  rw [run_bind_ok (ismapped_run (by omega) m'), entry_pgrounddown, hmem.space, hmapped]
  exact ⟨hat, hmem⟩

/-- A copy under a lock that meets only allocated pages, or none. -/
theorem userPage_calm {va : Nat} (hlazy : ¬ Lazy a sz va) :
    Calm p (OwnMemory p root sz a) H (userPage root va) fun _ => H := by
  intro m h
  rw [userPage, run_bind_ok (walkaddr_run m)]
  exact Calm.ite (vmfault_calm hlazy) (Calm.ret _) m h

/-- The bytes after the first page of a copy. -/
private theorem next_page (va j : Nat) :
    PGROUNDDOWN va + PGSIZE + j = va + (PGSIZE - (va - PGROUNDDOWN va) + j) := by
  unfold PGROUNDDOWN PGSIZE
  omega

theorem copyoutFrom_calm (k dstva len : Nat)
    (hlazy : Present a sz dstva len) :
    Calm p (OwnMemory p root sz a) H (copyoutFrom root k dstva len) fun _ => H := by
  induction k generalizing dstva len with
  | zero => exact .ret _
  | succ k ih =>
    refine Triple.ite (fun _ => Calm.ret _) fun hlen => Calm.ite (Calm.ret _) ?_
    have hfirst : ¬ Lazy a sz (PGROUNDDOWN dstva) := hlazy 0 (by omega)
    refine (userPage_calm hfirst).bind fun pa0 => .ite (.ret _) ?_
    refine (walk_calm _).bind fun found => .ite ?_ (.stop (by decide))
    refine pte_calm.bind fun e => ?_
    cases e with
    | none => exact .ret _
    | some e =>
      refine .ite (ih _ _ fun j hj => ?_) (.ret _)
      rw [next_page]
      exact hlazy _ (by omega)

theorem copyinFrom_calm (k srcva len : Nat)
    (hlazy : Present a sz srcva len) :
    Calm p (OwnMemory p root sz a) H (copyinFrom root k srcva len) fun _ => H := by
  induction k generalizing srcva len with
  | zero => exact .ret _
  | succ k ih =>
    refine Triple.ite (fun _ => Calm.ret _) fun hlen => ?_
    have hfirst : ¬ Lazy a sz (PGROUNDDOWN srcva) := hlazy 0 (by omega)
    refine (userPage_calm hfirst).bind fun pa0 => Calm.ite (Calm.ret _) ?_
    refine ih _ _ fun j hj => ?_
    rw [next_page]
    exact hlazy _ (by omega)

/-- One byte of a copy. -/
theorem byte_resident {i : Nat} (hlazy : Present a sz addr n)
    (hi : i < n) : Present a sz (addr + i) 1 := by
  intro j hj
  obtain rfl : j = 0 := by omega
  exact hlazy i hi

/-- Where `pipewrite` and the others leave the lock they hold: `none` stands for
the exit that has dropped it. -/
def stillHeld (l : Lock) (o : Option α) : List Lock := o.elim [] fun _ => [l]

theorem pipewriteRound_calm (hlazy : Present a sz addr n) (i : Nat) :
    Calm p (OwnMemory p root sz a) [.pipe] (pipewriteRound p addr n i)
      (Sum.elim (fun _ => [.pipe]) (stillHeld .pipe)) := by
  refine Triple.ite (fun hi => Calm.get fun m => ?_) fun _ => fun _ h => h
  refine Calm.bind (Calm.ite (killed_calm .ownMemory p) (Calm.ret _)) fun stop => Calm.ite ?_ ?_
  · exact (releaseLast_calm .ownMemory).bind fun _ => fun _ h => h
  refine .read fun m hm => .ite ?_ ?_
  · refine (wakeup_calm .ownMemory _).bind fun _ =>
      (sleep_calm .ownMemory (by simp) _).bind fun _ => ?_
    exact fun _ h => h
  rw [hm.pagetable]
  refine (copyinFrom_calm _ _ _ (byte_resident hlazy hi)).bind fun ok => .ite ?_ ?_
  · refine .bind (.change (fun _ => rfl) fun _ h => ⟨h.pagetable, h.size, h.space⟩)
      fun _ => ?_
    exact fun _ h => h
  · exact fun _ h => h

/-- A loop that keeps its lock until it is left. -/
theorem forever_calm {R : Kernel → Prop} {l : Lock} {α β : Type} {body : β → K (β ⊕ α)}
    {H' : α → List Lock} (hbody : ∀ b, Calm p R [l] (body b) (Sum.elim (fun _ => [l]) H'))
    (b : β) : Calm p R [l] (forever body b) H' := by
  refine forever_spec (I := fun _ => On p [l] R) (fun b => ?_) b
  refine (hbody b).conseq (fun _ h => h) (fun r m h => ?_) fun _ he => he
  cases r <;> exact h

theorem pipewrite_calm (hlazy : Present a sz addr n) :
    Calm p (OwnMemory p root sz a) [] (pipewrite addr n) fun _ => [] := by
  refine Triple.bind (curproc_calm .ownMemory) fun pr => ?_
  intro m hm
  obtain ⟨rfl, hon⟩ := hm
  refine Calm.bind (acquire_calm .ownMemory .pipe) (fun _ => ?_) m hon
  refine (forever_calm (pipewriteRound_calm hlazy) 0).bind fun o => ?_
  cases o with
  | none => exact .ret _
  | some i =>
    exact (wakeup_calm .ownMemory _).bind fun _ =>
      (releaseLast_calm .ownMemory).bind fun _ => .ret _

theorem pipeWait_calm (b : Unit) :
    Calm p (OwnMemory p root sz a) [.pipe] (pipeWait p b)
      (Sum.elim (fun _ => [.pipe]) fun ok => if ok then [.pipe] else []) := by
  refine .get fun m => .ite ?_ fun _ h => h
  refine (killed_calm .ownMemory p).bind fun stop => .ite ?_ ?_
  · exact (releaseLast_calm .ownMemory).bind fun _ => fun _ h => h
  · exact (sleep_calm .ownMemory (by simp) _).bind fun _ => fun _ h => h

theorem pipeCopy_calm (hlazy : Present a sz addr n) (k i : Nat)
    (hk : i + k ≤ n) : Calm p (OwnMemory p root sz a) H (pipeCopy p addr k i) fun _ => H := by
  induction k generalizing i with
  | zero => exact .ret _
  | succ k ih =>
    refine .read fun m hm => .ite (.ret _) ?_
    rw [hm.pagetable]
    refine (copyoutFrom_calm _ _ _ (byte_resident hlazy (by omega))).bind fun ok => ?_
    refine .ite ?_ (.ret _)
    refine .bind (.change (fun _ => rfl) fun _ h => ⟨h.pagetable, h.size, h.space⟩) fun _ => ?_
    exact ih (i + 1) (by omega)

theorem piperead_calm (hlazy : Present a sz addr n) :
    Calm p (OwnMemory p root sz a) [] (piperead addr n) fun _ => [] := by
  refine Triple.bind (curproc_calm .ownMemory) fun pr => ?_
  intro m hm
  obtain ⟨rfl, hon⟩ := hm
  refine Calm.bind (acquire_calm .ownMemory .pipe) (fun _ => ?_) m hon
  refine (forever_calm pipeWait_calm ()).bind fun ok => ?_
  cases ok with
  | false => exact .ret _
  | true =>
    refine (pipeCopy_calm hlazy n 0 (by omega)).bind fun i => ?_
    exact (wakeup_calm .ownMemory _).bind fun _ =>
      (releaseLast_calm .ownMemory).bind fun _ => .ret _

theorem eitherCopyout_calm {dst len : Nat}
    (hlazy : user = true → Present a sz dst len) :
    Calm p (OwnMemory p root sz a) H (eitherCopyout user dst len) fun _ => H := by
  have hown : Triple (On p H (OwnMemory p root sz a)) ownPagetable
      (fun r m => r = root ∧ On p H (OwnMemory p root sz a) m) (· ≠ .schedLocks) := by
    refine .bind (curproc_calm .ownMemory) fun q => .get_bind fun m hm => ?_
    obtain ⟨rfl, hon⟩ := hm
    refine .pure _ fun m' h => ?_
    subst h
    exact ⟨hon.2.pagetable, hon⟩
  refine Triple.bind hown fun r => ?_
  intro m hm
  obtain ⟨rfl, hon⟩ := hm
  exact Triple.ite (fun huser => copyoutFrom_calm _ _ _ (hlazy huser)) (fun _ => Calm.ret _) m hon

theorem inputWait_calm (b : Unit) :
    Calm p (OwnMemory p root sz a) [.cons] (inputWait b)
      (Sum.elim (fun _ => [.cons]) fun ok => if ok then [.cons] else []) := by
  have hcurproc : Calm p (OwnMemory p root sz a) [.cons] curproc fun _ => [.cons] :=
    (curproc_calm .ownMemory).conseq (fun _ h => h) (fun _ _ h => h.2) fun _ he => he
  refine .get fun m => .ite ?_ fun _ h => h
  refine hcurproc.bind fun q => (killed_calm .ownMemory q).bind fun stop => .ite ?_ ?_
  · exact (releaseLast_calm .ownMemory).bind fun _ => fun _ h => h
  · exact (sleep_calm .ownMemory (by simp) _).bind fun _ => fun _ h => h

theorem consoleFrom_calm {target : Nat} (n dst : Nat)
    (hlazy : user = true → Present a sz dst n) :
    Calm p (OwnMemory p root sz a) [.cons] (consoleFrom user target n dst)
      (stillHeld .cons) := by
  induction n generalizing dst with
  | zero => exact fun _ h => h
  | succ n ih =>
    refine (forever_calm inputWait_calm ()).bind fun ok => ?_
    cases ok with
    | false => exact fun _ h => h
    | true =>
      refine .get fun m => ?_
      refine .bind (.change (fun _ => rfl)
        fun _ h => ⟨h.pagetable, h.size, h.space⟩) fun _ => .ite ?_ ?_
      · refine .bind (.when (.change (fun _ => rfl)
          fun _ h => ⟨h.pagetable, h.size, h.space⟩)) fun _ => ?_
        exact fun _ h => h
      have hbyte : user = true → Present a sz dst 1 :=
        fun huser j hj => hlazy huser j (by omega)
      refine (eitherCopyout_calm hbyte).bind fun copied => ?_
      refine .ite (.ite (fun _ h => h) (ih (dst + 1) fun huser i hi => ?_)) fun _ h => h
      rw [Nat.add_assoc, Nat.add_comm 1 i]
      exact hlazy huser (i + 1) (by omega)

theorem consoleread_calm {dst : Nat}
    (hlazy : user = true → Present a sz dst n) :
    Calm p (OwnMemory p root sz a) [] (consoleread user dst n) fun _ => [] := by
  refine (acquire_calm .ownMemory .cons).bind fun _ =>
    (consoleFrom_calm n dst hlazy).bind fun o => ?_
  cases o with
  | none => exact .ret _
  | some left => exact (releaseLast_calm .ownMemory).bind fun _ => .ret _

/-- `kwait` from `freeproc` on. -/
theorem reap_calm (pp : Slot) : Calm p (fun _ => True) [.proc pp, .wait] (reap pp) fun _ => [] := by
  have hR := Stable.true p
  refine (freeproc_calm pp).bind fun _ => (releaseLast_calm hR).bind fun _ => ?_
  exact releaseLast_calm hR

/-- What `kwait`'s loops keep: while they go on, `wait_lock` and the memory;
when they are left, nothing is held. -/
def WaitPost (p : Slot) (root sz : Nat) (a : AddressSpace) (β : Type) (r : β ⊕ Int)
    (m : Kernel) : Prop :=
  r.elim (fun _ => On p [.wait] (OwnMemory p root sz a) m) fun _ => On p [] (fun _ => True) m

theorem waitScan_calm (hlazy : addr ≠ 0 → Present a sz addr 4)
    (slots : List Slot) (havekids : Bool) :
    Triple (On p [.wait] (OwnMemory p root sz a)) (waitScan p addr slots havekids)
      (WaitPost p root sz a Bool) (· ≠ .schedLocks) := by
  induction slots generalizing havekids with
  | nil => exact fun _ h => h
  | cons pp rest ih =>
    refine fun m hm => Triple.ite (fun _ => ?_) (fun _ => ih havekids) m hm
    refine Triple.bind (acquire_calm .ownMemory _) fun _ => ?_
    intro m hm
    refine Triple.ite (fun _ => ?_) (fun _ => ?_) m hm
    · rw [hm.2.pagetable]
      have hcopy : Calm p (OwnMemory p root sz a) [.proc pp, .wait]
          (if addr ≠ 0 then copyout root addr 4 else pure true) fun _ => [.proc pp, .wait] :=
        Triple.ite (fun haddr => copyoutFrom_calm _ _ _ (hlazy haddr)) fun _ => Calm.ret _
      have hforget : ∀ {H : List Lock} {m : Kernel}, On p H (OwnMemory p root sz a) m →
          On p H (fun _ => True) m := fun h => ⟨h.1, trivial⟩
      refine .bind hcopy fun ok => .ite (fun _ => ?_) fun _ => ?_
      · refine .bind ((reap_calm pp).pre fun _ h => hforget h) fun _ => ?_
        exact fun _ h => h
      · refine .bind (releaseLast_calm .ownMemory) fun _ => ?_
        refine .bind (releaseLast_calm .ownMemory) fun _ => ?_
        exact fun _ h => hforget h
    · exact .bind (releaseLast_calm .ownMemory) fun _ => ih true

theorem kwait_calm (hlazy : addr ≠ 0 → Present a sz addr 4) :
    Triple (On p [] (OwnMemory p root sz a)) (kwait addr) (fun _ => On p [] fun _ => True)
      (· ≠ .schedLocks) := by
  have hround : ∀ b : Unit, Triple (On p [.wait] (OwnMemory p root sz a)) (waitRound p addr b)
      (WaitPost p root sz a Unit) (· ≠ .schedLocks) := by
    intro b
    refine .bind (waitScan_calm hlazy _ false) fun r => ?_
    cases r with
    | inr r => exact fun _ h => h
    | inl havekids =>
      refine Triple.bind (Calm.ite (killed_calm .ownMemory p) (Calm.ret _)) fun stop => ?_
      refine .ite (fun _ => ?_) fun _ => ?_
      · exact .bind (releaseLast_calm .ownMemory) fun _ => fun _ h => ⟨h.1, trivial⟩
      · exact .bind (sleep_calm .ownMemory (by simp) _) fun _ => fun _ h => h
  refine .bind (curproc_calm .ownMemory) fun q => ?_
  intro m hm
  obtain ⟨rfl, hon⟩ := hm
  refine Triple.bind (acquire_calm .ownMemory .wait) (fun _ => ?_) m hon
  exact forever_spec (I := fun _ => On q [.wait] (OwnMemory q root sz a)) hround ()

end Resident

section Stalls

variable {p : Slot} {H : List Lock} {m : Kernel}

theorem acquire_ok {l : Lock} (h : At p H m) (hl : l ∉ H) :
    acquire l m = .ok ((), acquired l m) := by
  rw [acquire_run, h.held, if_neg hl]

/-- What `acquire(&kmem.lock)` finds is what the others left. -/
theorem acquired_kmem (h : At p H m) (hkmem : .kmem ∉ H) :
    (acquired .kmem m).world.kmem = (m.others m.clock).kmem :=
  if_neg fun hmem => hkmem (h.held ▸ hmem)

/-- The first `sleep` of the stall loop, with another lock held. -/
theorem stall_stops (h : At p (.kmem :: H) m) (hne : H ≠ []) (hticks : .ticks ∉ H)
    (hown : .proc p ∉ H) (hrounds : 0 < m.rounds) : stall p m = .error .schedLocks := by
  have htake := acquire_ok h (l := .ticks) (by simpa using hticks)
  have hat := h.acquired .ticks
  have hdrop := release_run hat (l := .ticks) List.mem_cons_self
  have hat' := hat.released (l := .ticks) List.mem_cons_self
  rw [List.erase_cons_head] at hat'
  have hlen : (Lock.kmem :: H).length ≠ 1 := by
    have hpos := List.length_pos_of_ne_nil hne
    rw [List.length_cons]
    omega
  have hsleep : sleep .kmem .kmem (released .ticks (acquired .ticks m)) = .error .schedLocks :=
    sleep_stops List.mem_cons_self (by simpa using hown) hlen .kmem _ hat'
  obtain ⟨n, hn⟩ := Nat.exists_eq_add_of_lt hrounds
  have hloop : forever (stallRound p) () (released .ticks (acquired .ticks m)) =
      .error .schedLocks := by
    show rounds Stop.rounds (stallRound p) m.rounds () (released .ticks (acquired .ticks m)) = _
    rw [hn, rounds]
    exact run_bind_error (run_bind_error hsleep)
  rw [stall, run_bind_ok htake, run_bind_ok hdrop]
  exact run_bind_error hloop

section

variable (h : At p H m) (hne : H ≠ []) (hkmem : .kmem ∉ H) (hticks : .ticks ∉ H)
  (hown : .proc p ∉ H) (hrounds : 0 < m.rounds) (hempty : (m.others m.clock).kmem.freelist = 0)
include h hne hkmem hticks hown hrounds hempty

/-- **Stalling with a lock held.**  `kalloc` finds the list empty while its
caller holds a lock. -/
theorem kalloc_stops : kalloc m = .error .schedLocks := by
  have hat := h.pushPop
  have hfound := acquired_kmem hat hkmem
  have hstall := stall_stops (hat.acquired .kmem) hne hticks hown hrounds
  rw [kalloc, run_bind_ok (myproc_run m), h.proc, run_bind_ok (acquire_ok hat hkmem)]
  refine (run_bind_ok (a := acquired .kmem { m with cpu := m.cpu.push.pop }) rfl).trans ?_
  rw [hfound, Option.isSome_some, kallocEnter, if_pos hempty, if_pos rfl]
  exact run_bind_error hstall

/-- A copy under a lock that meets a page still to be allocated. -/
theorem userPage_stops {va root : Nat} (hlazy : Lazy (m.space root) (m.world.table p).sz va) :
    userPage root va m = .error .schedLocks := by
  obtain ⟨hsz, hva, hnone⟩ := hlazy
  have hround : PGROUNDDOWN va ≤ va := Nat.div_mul_le_self va PGSIZE
  have hstop := kalloc_stops h.pushPop hne hkmem hticks hown hrounds hempty
  have hmapped := @ismapped_run root (PGROUNDDOWN va) (by omega) { m with cpu := m.cpu.push.pop }
  rw [entry_pgrounddown, hnone, Option.isSome_none] at hmapped
  have hpa : (if MAXVA ≤ va then 0 else userAddr ((m.space root).entry va)) = 0 := by
    rw [hnone]
    exact ite_self 0
  rw [userPage, run_bind_ok (walkaddr_run m), hpa, if_pos rfl, vmfault,
    run_bind_ok (curproc_run h.proc)]
  refine (run_bind_ok (a := { m with cpu := m.cpu.push.pop }) rfl).trans ?_
  rw [if_neg (Nat.not_le.mpr hsz), run_bind_ok hmapped]
  exact run_bind_error hstop

end

end Stalls

end Thread

section Paths

open Thread

/-- The ways a process gets to `kalloc`.  `copyout` and `copyin` are those of
`filestat`, `readi`, `writei`, `sys_pipe` and `sys_get_mem_pressure`; `vmfault` is
that of the page-fault handler. -/
inductive KernelPath
  | pipealloc (entries : Nat)
  | vmfault (va : Nat)
  | copyout (dstva len : Nat)
  | copyin (srcva len : Nat)
  | growproc (n : Int)
  | kfork (files : Nat)
  | sysExec (uargv : Nat) (file : Option (List ProgHeader)) (args : List (Option Nat))
  | consolewrite (userSrc : Bool) (src n : Nat)
  | kwait (addr : Nat)
  | pipewrite (addr n : Nat)
  | piperead (addr n : Nat)
  | consoleread (userDst : Bool) (dst n : Nat)

/-- Run a path for its effect. -/
def KernelPath.run : KernelPath → K Unit
  | .pipealloc entries => do let _ ← Thread.pipealloc entries
  | .vmfault va => do
      let root ← ownPagetable
      let _ ← Thread.vmfault root va
  | .copyout dstva len => do
      let root ← ownPagetable
      let _ ← Thread.copyout root dstva len
  | .copyin srcva len => do
      let root ← ownPagetable
      let _ ← Thread.copyin root srcva len
  | .growproc n => do let _ ← Thread.growproc n
  | .kfork files => do let _ ← Thread.kfork files
  | .sysExec uargv file args => do let _ ← Thread.sysExec uargv file args
  | .consolewrite userSrc src n => do let _ ← Thread.consolewrite userSrc src n
  | .kwait addr => do let _ ← Thread.kwait addr
  | .pipewrite addr n => do let _ ← Thread.pipewrite addr n
  | .piperead addr n => do let _ ← Thread.piperead addr n
  | .consoleread userDst dst n => do let _ ← Thread.consoleread userDst dst n

/-- The bytes `[addr, addr + n)` of user memory are on no page that is still to
be allocated. -/
def Kernel.Resident (m : Kernel) (p : Slot) (addr n : Nat) : Prop :=
  ∀ i < n, ¬ Lazy (m.space (m.world.table p).pagetable) (m.world.table p).sz
    (PGROUNDDOWN (addr + i))

/-- What the path copies under a spinlock is resident. -/
def KernelPath.Resident (path : KernelPath) (p : Slot) (m : Kernel) : Prop :=
  match path with
  | .pipewrite addr n | .piperead addr n => m.Resident p addr n
  | .consoleread userDst dst n => userDst = true → m.Resident p dst n
  | .kwait addr => addr ≠ 0 → m.Resident p addr 4
  | _ => True

variable {p : Slot} {m : Kernel}

/-- A path without the locks of its thread, and with its memory as it is. -/
private theorem not_stopped {α : Type} {x : K α} {P : Kernel → Prop} {Q : α → Kernel → Prop}
    (hx : Triple P x Q (· ≠ .schedLocks)) (hm : P m) : x m ≠ .error .schedLocks := by
  intro hstop
  have hrun := hx m hm
  rw [hstop] at hrun
  exact hrun rfl

theorem KernelPath.calm (path : KernelPath) (h : At p [] m) (hres : path.Resident p m) :
    path.run m ≠ .error .schedLocks := by
  have hfree : On p [] (fun _ => True) m := ⟨h, trivial⟩
  have hown : On p [] (OwnMemory p (m.world.table p).pagetable (m.world.table p).sz
      (m.space (m.world.table p).pagetable)) m := ⟨h, rfl, rfl, rfl⟩
  cases path with
  | pipealloc entries => exact not_stopped ((pipealloc_free _).bind fun _ => .ret _) hfree
  | vmfault va =>
    exact not_stopped (ownPagetable_free.bind fun _ => vmfault_free.bind fun _ => .ret _) hfree
  | copyout dstva len =>
    exact not_stopped (ownPagetable_free.bind fun _ => copyout_free.bind fun _ => .ret _) hfree
  | copyin srcva len =>
    exact not_stopped (ownPagetable_free.bind fun _ => copyin_free.bind fun _ => .ret _) hfree
  | growproc n => exact not_stopped ((growproc_free _).bind fun _ => .ret _) hfree
  | kfork files => exact not_stopped ((kfork_free _).bind fun _ => .ret _) hfree
  | sysExec uargv file args =>
    exact not_stopped ((sysExec_free _ _ _).bind fun _ => .ret _) hfree
  | consolewrite userSrc src n =>
    exact not_stopped ((consolewriteFrom_free _ _).bind fun _ => .ret _) hfree
  | kwait addr =>
    exact not_stopped (Q := fun _ => On p [] fun _ => True)
      (.bind (kwait_calm hres) fun _ => .pure _ fun _ h => h) hown
  | pipewrite addr n =>
    exact not_stopped ((pipewrite_calm hres).bind fun _ => .ret _) hown
  | piperead addr n => exact not_stopped ((piperead_calm hres).bind fun _ => .ret _) hown
  | consoleread userDst dst n =>
    exact not_stopped ((consoleread_calm hres).bind fun _ => .ret _) hown

/-- **When a stall panics.**  Whatever the other CPUs do, no path into `kalloc`
reaches `panic("sched locks")` as long as what it copies under a spinlock is
resident.  And wherever user memory is copied with a lock held and no page
free, the panic is reached exactly when the page is still to be allocated. -/
theorem sched_locks_iff (h : At p [] m) (path : KernelPath) :
    (path.Resident p m → path.run m ≠ .error .schedLocks) ∧
    ∀ (H : List Lock) (m' : Kernel) (va : Nat), At p H m' → H ≠ [] → .kmem ∉ H → .ticks ∉ H →
      .proc p ∉ H → 0 < m'.rounds → (m'.others m'.clock).kmem.freelist = 0 →
      (userPage (m'.world.table p).pagetable va m' = .error .schedLocks ↔
        Lazy (m'.space (m'.world.table p).pagetable) (m'.world.table p).sz va) := by
  refine ⟨path.calm h, fun H m' va hat hne hkmem hticks hown hrounds hempty => ⟨?_, ?_⟩⟩
  · intro hstop
    by_contra hlazy
    exact not_stopped (userPage_calm hlazy) ⟨hat, rfl, rfl, rfl⟩ hstop
  · exact userPage_stops hat hne hkmem hticks hown hrounds hempty

/-- The first process has asked `sbrk` for a page, which is not allocated yet,
and no page is free. -/
def lazyState : LifeState :=
  ((bootState { next := fun _ => 0, freelist := 0 }).setProc 0 fun q =>
    { q with state := .RUNNING }).setProc 0 fun q => { q with sz := PGSIZE }

theorem lazyState_reachable : Reachable lifeSystem lazyState :=
  Reachable.next (.next (.start (bootState_init _))
    (.dispatch (p := 0) rfl rfl))
    (.ownSz (t := 0) rfl rfl)

/-- Memory in that state, with a pipe that has room. -/
def lazyWorld : World where
  kmem := lazyState.kmem
  table := lazyState.proc
  nextpid := lazyState.nextpid
  pipe := { nread := 0, nwrite := 0, readopen := true, writeopen := true }
  cons := { buf := fun _ => 0, r := 0, w := 0 }

/-- The CPU of the first process in that state. -/
def writerKernel : Kernel where
  cpu := { held := [], noff := 0, intr := true, intena := true, proc := some 0 }
  world := lazyWorld
  space := fun _ => .empty
  building := none
  others := fun _ => lazyWorld
  clock := 0
  rounds := 1
  img := ⟨KERNBASE, Nat.le_refl _⟩
  trampoline := KERNBASE

theorem writerKernel_represents : Represents writerKernel lazyState 0 where
  proc := rfl
  held := by
    have hplock : ∀ q, lazyState.plock q ≠ some 0 := by decide
    intro l
    simp [writerKernel, hplock, show lazyState.waitLock = none from rfl]
  noff := rfl
  intr := fun h => absurd rfl h
  table := rfl
  kmem := rfl
  pages := by decide
  building := rfl

/-- **Writing to a pipe panics.**  A process writes a byte of its new page to a
pipe while no page is free. -/
theorem pipewrite_panics :
    Reachable lifeSystem lazyState ∧ Represents writerKernel lazyState 0 ∧
    writerKernel.world.kmem.freelist = 0 ∧
    (KernelPath.pipewrite 0 1).run writerKernel = .error .schedLocks :=
  ⟨lazyState_reachable, writerKernel_represents, rfl, rfl⟩

/-- The same process may fork, but not read the byte with the pipe's lock held. -/
theorem sched_locks_iff_writer :
    (KernelPath.kfork 0).run writerKernel ≠ .error .schedLocks ∧
    userPage (PHYSTOP - 2 * PGSIZE) 0 (acquired .pipe writerKernel) = .error .schedLocks := by
  have hat : At 0 [] writerKernel := ⟨rfl, rfl, rfl, fun h => absurd rfl h⟩
  have hlazy : Lazy .empty PGSIZE 0 := by decide
  obtain ⟨hfork, hcopy⟩ := sched_locks_iff hat (.kfork 0)
  refine ⟨hfork trivial, (hcopy [.pipe] _ 0 (hat.acquired .pipe) ?_ ?_ ?_ ?_ ?_ rfl).mpr hlazy⟩
  all_goals decide

end Paths

end Kus
