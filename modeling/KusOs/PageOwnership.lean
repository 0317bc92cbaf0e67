import KusOs.Kmem
import KusOs.ThreadedList
import KusOs.TransitionSystem

/-!
# Every page is free once or held once

The allocator as a transition system.  Any number of callers (processes, or
boot code that runs without one) interleave their calls of `kalloc` and
`kfree`; each critical section under `kmem.lock` is one step.  A caller that
finds the list empty goes to sleep in the middle of its `kalloc`; it is made
runnable again by a later `kfree` or by being killed, and then passes through
the loop body `kallocResume`, possibly to sleep once more.

`held` is bookkeeping the kernel does not have: which caller received which
page and has not freed it since.  The only discipline asked of callers is that
they free what they hold.  The invariant `Conserved` says that the list is a
proper null-terminated chain and that the chain and `held` together enumerate
the pages of `[PGROUNDUP(end), PHYSTOP)` without repetition.
-/

namespace Kus

open Function ThreadedList Transition

/-- The pages the allocator manages. -/
def IsPage (img : Image) (pa : Nat) : Prop :=
  pa % PGSIZE = 0 ∧ PGROUNDUP img.kernelEnd ≤ pa ∧ pa < PHYSTOP

instance (img : Image) (pa : Nat) : Decidable (IsPage img pa) :=
  inferInstanceAs (Decidable (_ ∧ _ ∧ _))

/-- How far a process is inside `kalloc`. -/
inductive KallocCall
  | idle
  /-- asleep in the stall loop -/
  | asleep
  /-- made runnable, not yet back at the loop body -/
  | woken
deriving DecidableEq, Repr

/-- The allocator with its callers; `none` is code that runs without a
process. -/
structure AllocState (ι : Type) where
  kmem : Kmem
  held : List (Option ι × Nat)
  call : ι → KallocCall
  killed : ι → Bool

/-- What a step of the allocator was. -/
inductive AllocEvent (ι : Type)
  /-- `kalloc` entered by the caller -/
  | kalloc (c : Option ι) (o : KallocOutcome)
  /-- the stall loop's body after `sleep` -/
  | resume (p : ι) (o : KallocOutcome)
  | kfree (c : Option ι) (pa : Nat)
  | kkill (p : ι)
  /-- a holder overwrites the first word of its page -/
  | store (c : Option ι) (pa : Nat) (w : Nat)

section System

variable {ι : Type} [DecidableEq ι]

/-- Record where a caller's `kalloc` stands; boot code has no record. -/
def setCall (call : ι → KallocCall) (c : Option ι) (v : KallocCall) : ι → KallocCall :=
  match c with
  | none => call
  | some p => update call p v

/-- Leave a critical section of `kalloc` with the given outcome: a page taken
is filled with junk and belongs to the caller from then on. -/
def AllocState.leave (s : AllocState ι) (c : Option ι) (o : KallocOutcome) : AllocState ι :=
  match o with
  | .page r =>
    { s with
      kmem := s.kmem.pop.store r (junkWord 5)
      held := (c, r) :: s.held
      call := setCall s.call c .idle }
  | .null => { s with call := setCall s.call c .idle }
  | .stall => { s with call := setCall s.call c .asleep }

/-- `wakeup(&kmem)`: every sleeper becomes runnable. -/
def wakeAll (call : ι → KallocCall) : ι → KallocCall :=
  fun p => if call p = .asleep then .woken else call p

/-- One critical section of the allocator. -/
inductive AllocStep (img : Image) :
    AllocState ι → AllocEvent ι → AllocState ι → Prop
  | kalloc {s : AllocState ι} {c : Option ι}
      (hidle : ∀ p, c = some p → s.call p = .idle) :
      AllocStep img s (.kalloc c (kallocEnter c.isSome s.kmem))
        (s.leave c (kallocEnter c.isSome s.kmem))
  | resume {s : AllocState ι} {p : ι} (hwoken : s.call p = .woken) :
      AllocStep img s (.resume p (kallocResume (s.killed p) s.kmem))
        (s.leave (some p) (kallocResume (s.killed p) s.kmem))
  | kfree {s : AllocState ι} {c : Option ι} {pa : Nat} {m : Kmem}
      (hidle : ∀ p, c = some p → s.call p = .idle)
      (hheld : (c, pa) ∈ s.held) (hfree : kfree img s.kmem pa = .ok m) :
      AllocStep img s (.kfree c pa)
        { s with kmem := m, held := s.held.erase (c, pa), call := wakeAll s.call }
  | kkill {s : AllocState ι} {p : ι} :
      AllocStep img s (.kkill p)
        { s with
          killed := update s.killed p true
          call := if s.call p = .asleep then update s.call p .woken else s.call }
  | store {s : AllocState ι} {c : Option ι} {pa w : Nat} (hheld : (c, pa) ∈ s.held) :
      AllocStep img s (.store c pa w) { s with kmem := s.kmem.store pa w }

/-- The allocator from boot on: the list is what `kinit` leaves behind. -/
def allocSystem (ι : Type) [DecidableEq ι] (img : Image) :
    System (AllocState ι) (AllocEvent ι) where
  init s := ∃ words, kinit img words = .ok s.kmem ∧ s.held = [] ∧
    (∀ p, s.call p = .idle) ∧ ∀ p, s.killed p = false
  step := AllocStep img

end System

section Boot

variable {img : Image} {m : Kmem} {pa : Nat}

/-- A page on the managed range passes `kfree`'s test. -/
theorem IsPage.not_rejected (hpage : IsPage img pa) : kfreeRejects img pa = false := by
  obtain ⟨halign, hlow, hhigh⟩ := hpage
  have hend : img.kernelEnd ≤ pa := by
    unfold PGROUNDUP PGSIZE at hlow
    omega
  simp [kfreeRejects, halign]
  omega

theorem kfree_ok_of_page (hpage : IsPage img pa) :
    kfree img m pa = .ok ((m.store pa (junkWord 1)).push pa) := by
  simp [kfree, hpage.not_rejected]

/-- No managed page is the null pointer. -/
theorem IsPage.ne_zero (hpage : IsPage img pa) : pa ≠ 0 := by
  have hbase := img.kernbase_le
  have hlow := hpage.2.1
  unfold PGROUNDUP PGSIZE at hlow
  unfold KERNBASE at hbase
  omega

/-- Pushing a page off the list puts it in front, whatever it contained. -/
theorem linked_push {free : List Nat}
    (h : Linked 0 m.next m.freelist free) (hne : pa ≠ 0) (hfresh : pa ∉ free) (w : Nat) :
    Linked 0 ((m.store pa w).push pa).next ((m.store pa w).push pa).freelist (pa :: free) := by
  have hstored : Linked 0 (m.store pa w).next (m.store pa w).freelist free := h.update hfresh
  exact hstored.push hne hfresh

/-- The boot loop frees exactly the pages from `p` on, in front of what is
already on the list. -/
theorem freerangeFrom_spec {p : Nat} {free : List Nat} (halign : p % PGSIZE = 0)
    (hlow : PGROUNDUP img.kernelEnd ≤ p) (hlinked : Linked 0 m.next m.freelist free)
    (hnodup : free.Nodup) (hbelow : ∀ pa ∈ free, pa < p) :
    ∃ m' free', freerangeFrom img PHYSTOP p m = .ok m' ∧
      Linked 0 m'.next m'.freelist free' ∧ free'.Nodup ∧
      ∀ pa, pa ∈ free' ↔ pa ∈ free ∨ (pa % PGSIZE = 0 ∧ p ≤ pa ∧ pa < PHYSTOP) := by
  -- Induction on the pages that are left.
  obtain ⟨k, hk⟩ : ∃ k, k = PHYSTOP - p := ⟨_, rfl⟩
  induction k using Nat.strongRecOn generalizing p m free with
  | ind k ih =>
    have htop : PHYSTOP % PGSIZE = 0 := by decide
    unfold freerangeFrom
    by_cases hroom : p + PGSIZE ≤ PHYSTOP
    · have hsize : 0 < PGSIZE := by decide
      have hpage : IsPage img p := ⟨halign, hlow, by omega⟩
      have hfresh : p ∉ free := fun hmem => Nat.lt_irrefl _ (hbelow p hmem)
      rw [if_pos hroom, kfree_ok_of_page hpage]
      obtain ⟨m', free', hrun, hlink', hnodup', hmem'⟩ :=
        ih (PHYSTOP - (p + PGSIZE)) (by omega)
          (p := p + PGSIZE) (by simpa using halign) (by omega)
          (linked_push hlinked hpage.ne_zero hfresh (junkWord 1))
          (List.nodup_cons.mpr ⟨hfresh, hnodup⟩)
          (by
            intro pa hpa
            rcases List.mem_cons.mp hpa with rfl | hpa
            · omega
            · have := hbelow pa hpa
              omega) rfl
      refine ⟨m', free', hrun, hlink', hnodup', ?_⟩
      intro pa
      rw [hmem' pa, List.mem_cons]
      unfold PGSIZE at *
      constructor
      · rintro ((rfl | hold) | ⟨ha, hl, hh⟩)
        · exact .inr ⟨halign, Nat.le_refl _, by omega⟩
        · exact .inl hold
        · exact .inr ⟨ha, by omega, hh⟩
      · rintro (hold | ⟨ha, hl, hh⟩)
        · exact .inl (.inr hold)
        · by_cases heq : pa = p
          · exact .inl (.inl heq)
          · exact .inr ⟨ha, by omega, hh⟩
    · rw [if_neg hroom]
      refine ⟨m, free, rfl, hlinked, hnodup, ?_⟩
      intro pa
      constructor
      · exact .inl
      · rintro (hold | ⟨ha, hl, hh⟩)
        · exact hold
        · unfold PGSIZE at *
          omega

/-- `kinit` succeeds and leaves every managed page on the list, once. -/
theorem kinit_spec (img : Image) (words : Nat → Nat) :
    ∃ m free, kinit img words = .ok m ∧ Linked 0 m.next m.freelist free ∧
      free.Nodup ∧ ∀ pa, pa ∈ free ↔ IsPage img pa := by
  have halign : PGROUNDUP img.kernelEnd % PGSIZE = 0 := by
    unfold PGROUNDUP
    exact Nat.mul_mod_left _ _
  have hempty : Linked 0 words 0 [] := rfl
  obtain ⟨m, free, hrun, hlinked, hnodup, hmem⟩ :=
    freerangeFrom_spec (m := { next := words, freelist := 0 })
      halign (Nat.le_refl _) hempty List.nodup_nil (by simp)
  exact ⟨m, free, hrun, hlinked, hnodup, fun pa => by simpa [IsPage] using hmem pa⟩

end Boot

section Conservation

variable {ι : Type} [DecidableEq ι] {img : Image} {s s' : AllocState ι} {c : Option ι} {pa : Nat}

/-- The pages some caller holds, with repetitions. -/
def AllocState.heldPages (s : AllocState ι) : List Nat := s.held.map Prod.snd

/-- The chain of free pages and the held pages enumerate the managed pages,
each exactly once. -/
structure Conserved (img : Image) (s : AllocState ι) (free : List Nat) : Prop where
  linked : Linked 0 s.kmem.next s.kmem.freelist free
  nodup : (free ++ s.heldPages).Nodup
  pages : ∀ pa, pa ∈ free ++ s.heldPages ↔ IsPage img pa

omit [DecidableEq ι] in
/-- The calls and the kill flags play no part in conservation. -/
theorem Conserved.congr {free : List Nat} (h : Conserved img s free)
    (hkmem : s'.kmem = s.kmem) (hheld : s'.held = s.held) : Conserved img s' free := by
  have hpages : s'.heldPages = s.heldPages := by rw [AllocState.heldPages, hheld]; rfl
  refine ⟨?_, ?_, ?_⟩
  · rw [hkmem]; exact h.linked
  · rw [hpages]; exact h.nodup
  · rw [hpages]; exact h.pages

omit [DecidableEq ι] in
/-- A write into a held page does not reach the list. -/
theorem Conserved.store {free : List Nat} {w : Nat} (h : Conserved img s free)
    (hheld : pa ∈ s.heldPages) : Conserved img { s with kmem := s.kmem.store pa w } free := by
  have hoff : pa ∉ free := fun hfree =>
    (List.nodup_append.mp h.nodup).2.2 pa hfree pa hheld rfl
  exact ⟨h.linked.update hoff, h.nodup, h.pages⟩

omit [DecidableEq ι] in
/-- Taking the head moves it from the chain to the holder. -/
theorem Conserved.take {free : List Nat} (h : Conserved img s free) (hne : s.kmem.freelist ≠ 0) :
    ∃ rest, free = s.kmem.freelist :: rest ∧
      Conserved img { s with
        kmem := s.kmem.pop
        held := (c, s.kmem.freelist) :: s.held } rest := by
  obtain ⟨rest, rfl, hrest⟩ := h.linked.pop hne
  have hperm : (s.kmem.freelist :: rest ++ s.heldPages).Perm
      (rest ++ s.kmem.freelist :: s.heldPages) := List.perm_middle.symm
  refine ⟨rest, rfl, hrest, ?_, ?_⟩
  · exact hperm.nodup_iff.mp h.nodup
  · intro pa
    exact (hperm.mem_iff).symm.trans (h.pages pa)

/-- Freeing a held page moves it from its holder to the front of the chain. -/
theorem Conserved.free {free : List Nat} {w : Nat}
    (h : Conserved img s free) (hheld : (c, pa) ∈ s.held) :
    Conserved img { s with
      kmem := (s.kmem.store pa w).push pa
      held := s.held.erase (c, pa) } (pa :: free) := by
  have hmem : pa ∈ s.heldPages := List.mem_map_of_mem hheld
  have hoff : pa ∉ free := fun hfree =>
    (List.nodup_append.mp h.nodup).2.2 pa hfree pa hmem rfl
  have hpage : IsPage img pa := (h.pages pa).mp (List.mem_append_right _ hmem)
  have hperm : (free ++ s.heldPages).Perm
      (pa :: free ++ (s.held.erase (c, pa)).map Prod.snd) := by
    have hcons : s.heldPages.Perm (pa :: (s.held.erase (c, pa)).map Prod.snd) :=
      (List.perm_cons_erase hheld).map Prod.snd
    exact (hcons.append_left free).trans List.perm_middle
  refine ⟨linked_push h.linked hpage.ne_zero hoff w, hperm.nodup_iff.mp h.nodup, ?_⟩
  intro pa'
  exact hperm.mem_iff.symm.trans (h.pages pa')

/-- Leaving a critical section of `kalloc` conserves the pages; a page is only
handed out when it is the head of the chain. -/
theorem Conserved.leave {free : List Nat} {o : KallocOutcome} (h : Conserved img s free)
    (hpage : ∀ r, o = .page r → r = s.kmem.freelist ∧ s.kmem.freelist ≠ 0) :
    ∃ free', Conserved img (s.leave c o) free' := by
  cases o with
  | page r =>
    obtain ⟨rfl, hne⟩ := hpage r rfl
    obtain ⟨rest, _, htaken⟩ := h.take (c := c) hne
    have hstored := htaken.store (w := junkWord 5) List.mem_cons_self
    exact ⟨rest, hstored.congr rfl rfl⟩
  | null => exact ⟨free, h.congr rfl rfl⟩
  | stall => exact ⟨free, h.congr rfl rfl⟩

/-- `kalloc`'s first critical section hands out the head or nothing. -/
theorem kallocEnter_page {hasProc : Bool} {m : Kmem} {r : Nat}
    (h : kallocEnter hasProc m = .page r) : r = m.freelist ∧ m.freelist ≠ 0 := by
  unfold kallocEnter at h
  grind

/-- So does the body of the stall loop. -/
theorem kallocResume_page {killed : Bool} {m : Kmem} {r : Nat}
    (h : kallocResume killed m = .page r) : r = m.freelist ∧ m.freelist ≠ 0 := by
  unfold kallocResume at h
  grind

/-- One step of the allocator conserves the pages. -/
theorem Conserved.step {free : List Nat} {ev : AllocEvent ι} (h : Conserved img s free)
    (hstep : AllocStep img s ev s') : ∃ free', Conserved img s' free' := by
  cases hstep with
  | kalloc hidle => exact h.leave (fun r hr => kallocEnter_page hr)
  | resume hwoken => exact h.leave (fun r hr => kallocResume_page hr)
  | @kfree c pa m hidle hheld hfree =>
    have hpage : IsPage img pa :=
      (h.pages pa).mp (List.mem_append_right _ (List.mem_map_of_mem hheld))
    rw [kfree_ok_of_page hpage] at hfree
    obtain rfl := Except.ok.inj hfree
    exact ⟨pa :: free, (h.free (w := junkWord 1) hheld).congr rfl rfl⟩
  | kkill => exact ⟨free, h.congr rfl rfl⟩
  | store hheld => exact ⟨free, h.store (List.mem_map_of_mem hheld)⟩

/-- In every reachable state the pages are conserved. -/
theorem conserved_of_reachable (hreach : Reachable (allocSystem ι img) s) :
    ∃ free, Conserved img s free := by
  refine hreach.invariant (P := fun s => ∃ free, Conserved img s free) ?_ ?_
  · rintro s ⟨words, hinit, hheld, _, _⟩
    obtain ⟨m, free, hrun, hlinked, hnodup, hpages⟩ := kinit_spec img words
    obtain rfl : m = s.kmem := Except.ok.inj (hrun.symm.trans hinit)
    have hnone : s.heldPages = [] := by rw [AllocState.heldPages, hheld]; rfl
    exact ⟨free, hlinked, by simpa [hnone] using hnodup, by simpa [hnone] using hpages⟩
  · rintro s ev s' _ ⟨free, h⟩ hstep
    exact h.step hstep

/-- The event hands the page `r` to the caller `c`. -/
def AllocEvent.HandsOut (ev : AllocEvent ι) (c : Option ι) (r : Nat) : Prop :=
  ev = .kalloc c (.page r) ∨ ∃ p, c = some p ∧ ev = .resume p (.page r)

omit [DecidableEq ι] in
/-- Conservation, read off for one page. -/
theorem Conserved.free_or_held {free : List Nat} (h : Conserved img s free)
    (hpage : IsPage img pa) :
    (free.count pa = 1 ∧ s.heldPages.count pa = 0) ∨
      (free.count pa = 0 ∧ s.heldPages.count pa = 1) := by
  have hone : (free ++ s.heldPages).count pa = 1 :=
    List.count_eq_one_of_mem h.nodup ((h.pages pa).mpr hpage)
  rw [List.count_append] at hone
  omega

omit [DecidableEq ι] in
/-- A page is held by at most one caller. -/
theorem Conserved.holder_unique {free : List Nat} {c' : Option ι}
    (h : Conserved img s free) (hc : (c, pa) ∈ s.held) (hc' : (c', pa) ∈ s.held) : c = c' := by
  have hnodup : (s.held.map Prod.snd).Nodup := (List.nodup_append.mp h.nodup).2.1
  exact congrArg Prod.fst (List.inj_on_of_nodup_map hnodup hc hc' rfl)

/-- **Exclusivity and conservation of pages.**  After any interleaving of
allocator calls the free list is one null-terminated chain without repetition,
and every managed page is on it exactly once and held by nobody, or off it and
held exactly once, by one caller.  A page handed out was held by nobody
before, and a call that returns null because its process was killed takes no
page. -/
theorem pages_free_once_or_held_once (hreach : Reachable (allocSystem ι img) s) :
    (∃! free, Linked 0 s.kmem.next s.kmem.freelist free ∧ free.Nodup ∧
      ∀ pa, IsPage img pa →
        (free.count pa = 1 ∧ ∀ c, (c, pa) ∉ s.held) ∨
        (pa ∉ free ∧ s.heldPages.count pa = 1 ∧ ∃! c, (c, pa) ∈ s.held)) ∧
    (∀ ev s' c r, AllocStep img s ev s' → ev.HandsOut c r →
      IsPage img r ∧ (∀ c', (c', r) ∉ s.held) ∧ s'.held = (c, r) :: s.held) ∧
    (∀ p s', AllocStep img s (.resume p .null) s' →
      s.killed p = true ∧ s'.kmem = s.kmem ∧ s'.held = s.held) := by
  obtain ⟨free, h⟩ := conserved_of_reachable hreach
  refine ⟨⟨free, ⟨h.linked, (List.nodup_append.mp h.nodup).1, ?_⟩, ?_⟩, ?_, ?_⟩
  · intro pa hpage
    rcases h.free_or_held hpage with ⟨hfree, hheld⟩ | ⟨hfree, hheld⟩
    · left
      refine ⟨hfree, fun c hc => ?_⟩
      have hpos : 0 < s.heldPages.count pa := List.count_pos_iff.mpr (List.mem_map_of_mem hc)
      omega
    right
    have hmem : pa ∈ s.heldPages := List.count_pos_iff.mp (by omega)
    obtain ⟨⟨c, q⟩, hc, rfl⟩ := List.mem_map.mp hmem
    exact ⟨List.count_eq_zero.mp hfree, hheld, c, hc, fun c' hc' => h.holder_unique hc' hc⟩
  · rintro free' ⟨hlinked, _, _⟩
    exact hlinked.unique h.linked
  · intro ev s' c r hstep hhands
    have hhead : r = s.kmem.freelist → s.kmem.freelist ≠ 0 →
        IsPage img r ∧ ∀ c', (c', r) ∉ s.held := by
      rintro rfl hne
      obtain ⟨rest, rfl, _⟩ := h.linked.pop hne
      refine ⟨(h.pages _).mp (by simp), fun c' hc' => ?_⟩
      exact (List.nodup_append.mp h.nodup).2.2 _ List.mem_cons_self _ (List.mem_map_of_mem hc') rfl
    rcases hhands with rfl | ⟨p, rfl, rfl⟩
    · generalize ho : KallocOutcome.page r = o at hstep
      cases hstep with
      | kalloc hidle =>
        obtain ⟨heq, hne⟩ := kallocEnter_page ho.symm
        refine ⟨(hhead heq hne).1, (hhead heq hne).2, ?_⟩
        rw [← ho]
        rfl
    generalize ho : KallocOutcome.page r = o at hstep
    cases hstep with
    | resume hwoken =>
      obtain ⟨heq, hne⟩ := kallocResume_page ho.symm
      refine ⟨(hhead heq hne).1, (hhead heq hne).2, ?_⟩
      rw [← ho]
      rfl
  · intro p s' hstep
    generalize ho : KallocOutcome.null = o at hstep
    cases hstep with
    | resume hwoken =>
      have hkilled : s.killed p = true := by
        unfold kallocResume at ho
        grind
      rw [← ho]
      exact ⟨hkilled, rfl, rfl⟩

/-- A kernel image that leaves a single page. -/
def onePageImage : Image := ⟨PHYSTOP - PGSIZE, by decide⟩

/-- Process `7` holds the only page: the state after its `kalloc`. -/
def onePageHeld : AllocState Nat :=
  { kmem := { next := fun pa => if pa = 0x87fff000 then junkWord 5 else 0, freelist := 0 }
    held := [(some 7, 0x87fff000)]
    call := fun _ => .idle
    killed := fun _ => false }

private theorem onePage_boot : kinit onePageImage (fun _ => 0) =
    .ok ((({ next := fun _ => 0, freelist := 0 } : Kmem).store 0x87fff000 (junkWord 1)).push
      0x87fff000) := by
  have hfirst : kfree onePageImage { next := fun _ => 0, freelist := 0 }
      (PGROUNDUP onePageImage.kernelEnd) = .ok ((({ next := fun _ => 0, freelist := 0 } :
        Kmem).store 0x87fff000 (junkWord 1)).push 0x87fff000) :=
    kfree_ok_of_page (by decide)
  unfold kinit freerange freerangeFrom
  rw [if_pos (by decide)]
  simp only [hfirst]
  unfold freerangeFrom
  rw [if_neg (by decide)]

private theorem onePageHeld_reachable : Reachable (allocSystem Nat onePageImage) onePageHeld := by
  let boot : AllocState Nat :=
    { kmem := (({ next := fun _ => 0, freelist := 0 } : Kmem).store 0x87fff000
        (junkWord 1)).push 0x87fff000
      held := [], call := fun _ => .idle, killed := fun _ => false }
  have hboot : Reachable (allocSystem Nat onePageImage) boot :=
    Reachable.start ⟨fun _ => 0, onePage_boot, rfl, fun _ => rfl, fun _ => rfl⟩
  have hleave : boot.leave (some 7) (kallocEnter true boot.kmem) = onePageHeld := by
    have hkmem : boot.kmem.pop.store 0x87fff000 (junkWord 5) = onePageHeld.kmem := by
      refine Kmem.ext (funext fun pa => ?_) rfl
      by_cases hpa : pa = 0x87fff000 <;>
        simp [boot, onePageHeld, Kmem.store, Kmem.push, Kmem.pop, hpa]
    have hcall : setCall boot.call (some 7) .idle = onePageHeld.call := update_eq_self 7 boot.call
    have hpage : kallocEnter true boot.kmem = .page 0x87fff000 := rfl
    rw [hpage, AllocState.leave, hkmem, hcall]
    rfl
  rw [← hleave]
  exact hboot.next (.kalloc (fun p _ => rfl))

/-- The statement at a concrete state: one page, held by process `7`. -/
theorem pages_free_once_or_held_once_one_page :
    Reachable (allocSystem Nat onePageImage) onePageHeld ∧
    (∃! free, Linked 0 onePageHeld.kmem.next onePageHeld.kmem.freelist free ∧ free.Nodup ∧
      ∀ pa, IsPage onePageImage pa →
        (free.count pa = 1 ∧ ∀ c, (c, pa) ∉ onePageHeld.held) ∨
        (pa ∉ free ∧ onePageHeld.heldPages.count pa = 1 ∧
          ∃! c, (c, pa) ∈ onePageHeld.held)) :=
  ⟨onePageHeld_reachable, (pages_free_once_or_held_once onePageHeld_reachable).1⟩

end Conservation

end Kus
