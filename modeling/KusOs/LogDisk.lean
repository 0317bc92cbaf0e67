import KusOs.Log

/-!
# What the log keeps on disk

What the disk holds is judged against the committed transactions: `stable` is
the initial disk with all of them applied.

* `Counted` — `outstanding` counts the open brackets, and there is none while a
  commit or a recovery is under way;
* `CacheInv` — an unpinned buffer equals its disk block, a pinned one holds what
  the transaction being gathered wrote;
* `StageInv` — stage by stage, how header, log area and home blocks relate; in
  every stage it implies `Restorable`, which is what a recovery starts from.

`DiskInv.step` goes through the writes of a commit and of a recovery one by one.
-/

namespace Kus

open Function Redo Transition

variable {ι : Type} {start : Nat}

section Disk

variable {C disk A : Nat → Block} {cache : Nat → Option Block} {lh pinned xs : List Nat}
  {current : List (Write Nat Block)} {tail a b : Nat} {v : Block}

theorem not_home_start : ¬ IsHome start start := by
  unfold IsHome
  omega

theorem not_home_log (h : tail < LOGBLOCKS) : ¬ IsHome start (start + tail + 1) := by
  unfold IsHome
  omega

/-- The header on disk lists `xs`, and the log area holds what these blocks
are to hold. -/
structure Logged (start : Nat) (C disk : Nat → Block) (xs : List Nat) : Prop where
  head : readHead (disk start) = xs
  room : xs.length ≤ LOGBLOCKS
  home : ∀ b ∈ xs, IsHome start b
  copies : ∀ j b, xs[j]? = some b → disk (start + j + 1) = C b

theorem Logged.nil (h : readHead (disk start) = []) : Logged start C disk [] where
  head := h
  room := Nat.zero_le _
  home := by simp
  copies := by simp

/-- Writing a home block leaves the log alone. -/
theorem Logged.write_home (h : Logged start C disk xs) (ha : IsHome start a) :
    Logged start C (update disk a v) xs where
  head := by
    have hne : start ≠ a := by
      rintro rfl
      exact not_home_start ha
    rw [update_of_ne hne]
    exact h.head
  room := h.room
  home := h.home
  copies := by
    intro j b hj
    have hlt : j < xs.length := (List.getElem?_eq_some_iff.mp hj).1
    have hne : start + j + 1 ≠ a := by
      rintro rfl
      exact not_home_log (Nat.lt_of_lt_of_le hlt h.room) ha
    rw [update_of_ne hne]
    exact h.copies j b hj

/-- A disk from which a recovery produces `C`. -/
def Restorable (start : Nat) (C disk : Nat → Block) : Prop :=
  ∃ xs, Logged start C disk xs ∧ Agrees (IsHome start) disk C xs

/-- Cached blocks: clean unless pinned, and pinned ones hold `A`. -/
structure CacheInv (start : Nat) (A disk : Nat → Block) (cache : Nat → Option Block)
    (pinned : List Nat) : Prop where
  clean : ∀ b d, cache b = some d → b ∉ pinned → d = disk b
  dirty : ∀ b ∈ pinned, IsHome start b ∧ cache b = some (A b)
  nodup : pinned.Nodup

/-- `bread` of a log block returns what is on disk. -/
theorem CacheInv.bread_log {s : LogState ι} (h : CacheInv start A s.disk s.cache s.pinned)
    (hb : ¬ IsHome start b) : s.bread b = s.disk b := by
  have hfree : b ∉ s.pinned := fun hmem => hb (h.dirty b hmem).1
  unfold LogState.bread
  cases hc : s.cache b with
  | none => rfl
  | some d => exact h.clean b d hc hfree

theorem CacheInv.bread_pinned {s : LogState ι} (h : CacheInv start A s.disk s.cache s.pinned)
    (hb : b ∈ s.pinned) : s.bread b = A b := by
  rw [LogState.bread, (h.dirty b hb).2]
  rfl

section

variable (h : CacheInv start A disk cache pinned)
include h

/-- `bwrite` of a log block. -/
theorem CacheInv.write_log (ha : ¬ IsHome start a) :
    CacheInv start A (update disk a v) (update cache a (some v)) pinned where
  clean := by
    intro b d hc hfree
    by_cases hba : b = a
    · subst hba
      rw [update_self] at hc ⊢
      exact (Option.some.inj hc).symm
    · rw [update_of_ne hba] at hc ⊢
      exact h.clean b d hc hfree
  dirty := by
    intro b hb
    have hba : b ≠ a := by
      rintro rfl
      exact ha (h.dirty b hb).1
    rw [update_of_ne hba]
    exact h.dirty b hb
  nodup := h.nodup

/-- `bwrite` of a home block, which unpins it. -/
theorem CacheInv.write_home : CacheInv start A (update disk a v) (update cache a (some v))
      (pinned.erase a) where
  clean := by
    intro b d hc hfree
    by_cases hba : b = a
    · subst hba
      rw [update_self] at hc ⊢
      exact (Option.some.inj hc).symm
    · rw [update_of_ne hba] at hc ⊢
      exact h.clean b d hc fun hmem => hfree ((List.mem_erase_of_ne hba).mpr hmem)
  dirty := by
    intro b hb
    obtain ⟨hba, hmem⟩ := h.nodup.mem_erase_iff.mp hb
    rw [update_of_ne hba]
    exact h.dirty b hmem
  nodup := h.nodup.erase a

theorem CacheInv.load (hmiss : cache b = none) :
    CacheInv start A disk (update cache b (some (disk b))) pinned where
  clean := by
    intro a d hc hfree
    by_cases hab : a = b
    · subst hab
      rw [update_self] at hc
      exact (Option.some.inj hc).symm
    · rw [update_of_ne hab] at hc
      exact h.clean a d hc hfree
  dirty := by
    intro a ha
    have hab : a ≠ b := by
      rintro rfl
      rw [(h.dirty a ha).2] at hmiss
      cases hmiss
    rw [update_of_ne hab]
    exact h.dirty a ha
  nodup := h.nodup

theorem CacheInv.recycle (hfree : b ∉ pinned) :
    CacheInv start A disk (update cache b none) pinned where
  clean := by
    intro a d hc hfree'
    by_cases hab : a = b
    · subst hab
      rw [update_self] at hc
      cases hc
    · rw [update_of_ne hab] at hc
      exact h.clean a d hc hfree'
  dirty := by
    intro a ha
    have hab : a ≠ b := by
      rintro rfl
      exact hfree ha
    rw [update_of_ne hab]
    exact h.dirty a ha
  nodup := h.nodup

end

/-- No transaction is on disk: the home blocks hold `C` and the header lists
nothing.  The in-memory header lists the blocks written since. -/
structure Gathering (start : Nat) (C disk : Nat → Block) (lh pinned : List Nat)
    (current : List (Write Nat Block)) : Prop where
  head : readHead (disk start) = []
  agrees : Agrees (IsHome start) disk C []
  room : lh.length ≤ LOGBLOCKS
  home : ∀ b ∈ lh, IsHome start b
  lists : ∀ b, b ∈ lh ↔ ∃ w ∈ current, w.block = b
  pinned : ∀ b, b ∈ pinned ↔ b ∈ lh

/-- The transaction is on disk and its blocks before `tail` are home. -/
structure Installing (start : Nat) (C disk : Nat → Block) (lh pinned : List Nat)
    (current : List (Write Nat Block)) (tail : Nat) : Prop where
  logged : Logged start C disk lh
  agrees : Agrees (IsHome start) disk C (lh.drop tail)
  current : current = []
  pinned : ∀ b ∈ pinned, b ∈ lh.drop tail

/-- Everything is home; the header on disk may still list the transaction. -/
structure Installed (start : Nat) (C disk : Nat → Block) (lh pinned : List Nat)
    (current : List (Write Nat Block)) : Prop where
  restorable : Restorable start C disk
  agrees : Agrees (IsHome start) disk C []
  lh : lh = []
  current : current = []
  pinned : pinned = []

theorem Gathering.restorable (h : Gathering start C disk lh pinned current) :
    Restorable start C disk :=
  ⟨[], Logged.nil h.head, h.agrees⟩

theorem Installing.restorable (h : Installing start C disk lh pinned current tail) :
    Restorable start C disk :=
  ⟨lh, h.logged, h.agrees.mono fun _ hb => List.mem_of_mem_drop hb⟩

/-- With nothing in the header, nothing was written. -/
theorem Gathering.current_nil (h : Gathering start C disk [] pinned current) : current = [] := by
  cases current with
  | nil => rfl
  | cons w ws =>
    have hmem : w.block ∈ ([] : List Nat) := (h.lists w.block).mpr ⟨w, List.mem_cons_self, rfl⟩
    cases hmem

/-- Writing a data block of the log while the header lists nothing. -/
theorem Gathering.write_log (h : Gathering start C disk lh pinned current)
    (htail : tail < LOGBLOCKS) :
    Gathering start C (update disk (start + tail + 1) v) lh pinned current where
  head := by
    rw [update_of_ne (by omega)]
    exact h.head
  agrees := h.agrees.write_off (not_home_log htail)
  room := h.room
  home := h.home
  lists := h.lists
  pinned := h.pinned

/-- **The commit point.**  Writing the header turns a fully copied transaction
into the stable contents. -/
theorem Gathering.commit (h : Gathering start C disk lh pinned current)
    (hcopies : ∀ j b, lh[j]? = some b → disk (start + j + 1) = applyWrites C current b) :
    Installing start (applyWrites C current)
      (update disk start (writeHead lh v)) lh pinned [] 0 where
  logged :=
    { head := by rw [update_self, readHead_writeHead]
      room := h.room
      home := h.home
      copies := by
        intro j b hj
        rw [update_of_ne (by omega)]
        exact hcopies j b hj }
  agrees := by
    refine .write_off ?_ not_home_start
    intro b hb hnot
    have hunwritten : ∀ w ∈ current, w.block ≠ b := by
      intro w hw heq
      exact hnot ((h.lists b).mpr ⟨w, hw, heq⟩)
    rw [applyWrites_of_not_written hunwritten]
    exact h.agrees b hb (by simp)
  current := rfl
  pinned := fun b hb => (h.pinned b).mp hb

/-- One round of `install_trans`. -/
theorem Installing.round (h : Installing start C disk lh pinned current tail)
    (hb : lh[tail]? = some b) {pinned' : List Nat} (hpinned : ∀ a ∈ pinned', a ∈ pinned ∧ a ≠ b) :
    Installing start C (update disk b (disk (start + tail + 1))) lh pinned' current
      (tail + 1) where
  logged := h.logged.write_home (h.logged.home b (List.mem_of_getElem? hb))
  agrees := by
    rw [h.logged.copies tail b hb]
    exact h.agrees.install hb
  current := h.current
  pinned := by
    intro a ha
    obtain ⟨hmem, hne⟩ := hpinned a ha
    have hdrop := h.pinned a hmem
    obtain ⟨hlt, hget⟩ := List.getElem?_eq_some_iff.mp hb
    rw [List.drop_eq_getElem_cons hlt, List.mem_cons, hget] at hdrop
    exact hdrop.resolve_left hne

/-- The end of the install loop. -/
theorem Installing.done (h : Installing start C disk lh pinned current lh.length) :
    Installed start C disk [] pinned current where
  restorable := h.restorable
  agrees := by simpa using h.agrees
  lh := rfl
  current := h.current
  pinned := by
    have hnone : ∀ b, b ∉ pinned := by
      intro b hb
      simpa using h.pinned b hb
    exact List.eq_nil_iff_forall_not_mem.mpr hnone

/-- Erasing the header. -/
theorem Installed.erase (h : Installed start C disk lh pinned current) :
    Gathering start C (update disk start (writeHead lh v)) lh pinned current where
  head := by rw [update_self, readHead_writeHead, h.lh]
  agrees := h.agrees.write_off not_home_start
  room := by simp [h.lh]
  home := by simp [h.lh]
  lists := by simp [h.lh, h.current]
  pinned := by simp [h.lh, h.pinned]

/-- `log_write` records the block, once. -/
theorem Gathering.log_write (h : Gathering start C disk lh pinned current)
    (hroom : lh.length < LOGBLOCKS) {w : Write Nat Block} (hhome : IsHome start w.block) :
    Gathering start C disk (if w.block ∈ lh then lh else lh ++ [w.block])
      (if w.block ∈ lh then pinned else w.block :: pinned) (current ++ [w]) := by
  by_cases hmem : w.block ∈ lh
  · rw [if_pos hmem, if_pos hmem]
    refine ⟨h.head, h.agrees, h.room, h.home, fun b => ?_, h.pinned⟩
    rw [h.lists b]
    constructor
    · rintro ⟨x, hx, heq⟩
      exact ⟨x, List.mem_append_left _ hx, heq⟩
    · rintro ⟨x, hx, heq⟩
      rcases List.mem_append.mp hx with hx | hx
      · exact ⟨x, hx, heq⟩
      · rw [List.mem_singleton.mp hx] at heq
        exact (h.lists b).mp (heq ▸ hmem)
  · rw [if_neg hmem, if_neg hmem]
    refine ⟨h.head, h.agrees, by rw [List.length_append]; exact hroom, ?_, fun b => ?_, fun b => ?_⟩
    · intro b hb
      rcases List.mem_append.mp hb with hb | hb
      · exact h.home b hb
      · rw [List.mem_singleton.mp hb]
        exact hhome
    · rw [List.mem_append, List.mem_singleton, h.lists b]
      constructor
      · rintro (⟨x, hx, heq⟩ | rfl)
        · exact ⟨x, List.mem_append_left _ hx, heq⟩
        · exact ⟨w, List.mem_append_right _ (List.mem_singleton_self w), rfl⟩
      · rintro ⟨x, hx, heq⟩
        rcases List.mem_append.mp hx with hx | hx
        · exact .inl ⟨x, hx, heq⟩
        · rw [List.mem_singleton.mp hx] at heq
          exact .inr heq.symm
    · rw [List.mem_cons, List.mem_append, List.mem_singleton, h.pinned b, or_comm]

/-- The buffer of a logged block is pinned with its new contents. -/
theorem CacheInv.log_write (h : CacheInv start A disk cache pinned)
    (hpinned : ∀ b, b ∈ pinned ↔ b ∈ lh) (hhome : IsHome start a) :
    CacheInv start (update A a v) disk (update cache a (some v))
      (if a ∈ lh then pinned else a :: pinned) := by
  have hpins : ∀ b, b ∈ (if a ∈ lh then pinned else a :: pinned) ↔ b = a ∨ b ∈ pinned := by
    intro b
    split_ifs with hmem
    · refine ⟨.inr, ?_⟩
      rintro (rfl | hb)
      · exact (hpinned b).mpr hmem
      · exact hb
    · exact List.mem_cons
  refine ⟨fun b d hc hfree => ?_, fun b hb => ?_, ?_⟩
  · rw [hpins, not_or] at hfree
    rw [update_of_ne hfree.1] at hc
    exact h.clean b d hc hfree.2
  · by_cases hba : b = a
    · subst hba
      rw [update_self, update_self]
      exact ⟨hhome, rfl⟩
    · rw [update_of_ne hba, update_of_ne hba]
      exact h.dirty b (((hpins b).mp hb).resolve_left hba)
  · split_ifs with hmem
    · exact h.nodup
    · exact List.nodup_cons.mpr ⟨fun hin => hmem ((hpinned a).mp hin), h.nodup⟩

end Disk

section Stages

variable {base : Nat → Block} {s s' : LogState ι} {ev : LogEvent}

/-- The initial disk with the committed transactions applied. -/
def LogState.stable (base : Nat → Block) (s : LogState ι) : Nat → Block :=
  applyTxns base s.committed

/-- The stable contents with the transaction being gathered on top. -/
def LogState.target (base : Nat → Block) (s : LogState ι) : Nat → Block :=
  applyWrites (s.stable base) s.current

/-- What the disk holds at each stage. -/
def StageInv (start : Nat) (C disk : Nat → Block) (lh pinned : List Nat)
    (current : List (Write Nat Block)) : LogStage ι → Prop
  | .up => Gathering start C disk lh pinned current
  | .writeLog _ tail =>
    Gathering start C disk lh pinned current ∧
    ∀ j b, j < tail → lh[j]? = some b → disk (start + j + 1) = applyWrites C current b
  | .install _ tail => Installing start C disk lh pinned current tail
  | .clear _ => Installed start C disk lh pinned current
  | .finish _ => Gathering start C disk lh pinned current ∧ lh = []
  | .bootHead => Restorable start C disk ∧ current = [] ∧ pinned = []
  | .bootInstall tail => Installing start C disk lh pinned current tail ∧ pinned = []
  | .bootClear => Installed start C disk lh pinned current

/-- Whenever the machine stops, the disk can be recovered from. -/
theorem StageInv.restorable {C disk : Nat → Block} {lh pinned : List Nat}
    {current : List (Write Nat Block)} {stage : LogStage ι}
    (h : StageInv start C disk lh pinned current stage) : Restorable start C disk := by
  cases stage with
  | up => exact Gathering.restorable h
  | writeLog p tail => exact h.1.restorable
  | install p tail => exact Installing.restorable h
  | clear p => exact Installed.restorable h
  | finish p => exact h.1.restorable
  | bootHead => exact h.1
  | bootInstall tail => exact h.1.restorable
  | bootClear => exact Installed.restorable h

/-- `outstanding` counts the brackets that are open, and none is open while
the log is not up. -/
structure Counted (s : LogState ι) : Prop where
  count : s.outstanding = s.ops.length
  quiet : s.stage ≠ .up → s.ops = []

theorem Counted.up_of_mem {x : ι × Nat} (h : Counted s) (hx : x ∈ s.ops) : s.stage = .up := by
  by_contra hne
  rw [h.quiet hne] at hx
  cases hx

/-- The invariant of cache and disk. -/
structure DiskInv (start : Nat) (base : Nat → Block) (s : LogState ι) : Prop where
  cache : CacheInv start (s.target base) s.disk s.cache s.pinned
  stage : StageInv start (s.stable base) s.disk s.lh s.pinned s.current s.stage

theorem DiskInv.init (hhead : base start 0 = 0) :
    DiskInv start base (firstBoot base : LogState ι) where
  cache := by constructor <;> simp [firstBoot]
  stage := ⟨⟨[], Logged.nil (readHead_of_zero hhead), fun b _ _ => rfl⟩, rfl, rfl⟩

variable [DecidableEq ι]

/-- The bracket that `end_op` closes was the last one when the count drops to
zero. -/
theorem Counted.last {p : ι} {op : Nat} (h : Counted s) (hop : (p, op) ∈ s.ops)
    (hout : s.outstanding - 1 = 0) : s.ops.erase (p, op) = [] := by
  have hlen : (s.ops.erase (p, op)).length = s.ops.length - 1 := List.length_erase_of_mem hop
  rw [← h.count, hout] at hlen
  exact List.length_eq_zero_iff.mp hlen

theorem Counted.step (h : Counted s) (hs : LogStep start s ev s') : Counted s' := by
  cases hs with
  | @beginOp p hup => exact ⟨by simp [h.count], fun hne => absurd hup hne⟩
  | logWrite => exact ⟨h.count, h.quiet⟩
  | endOp hop hup hout =>
    refine ⟨?_, fun hne => absurd rfl hne⟩
    simp only [LogState.endOp, List.length_erase_of_mem hop, h.count]
  | commitStart hop hup hout hlh | commitEmpty hop hup hout hlh =>
    have hlast := h.last hop hout
    exact ⟨by simp [LogState.endOp, hout, hlast], fun _ => hlast⟩
  | writeLog hst | writeHead hst | install hst | clear hst | erase hst | readHead hst
  | recoverInstall hst | recoverClear hst =>
    exact ⟨h.count, fun _ => h.quiet (by simp [hst])⟩
  | finish hst | recovered hst => exact ⟨h.count, fun hne => absurd rfl hne⟩
  | bread | recycle => exact ⟨h.count, h.quiet⟩
  | crash => exact ⟨rfl, fun _ => rfl⟩

/-- **Every step keeps the disk recoverable.**  Each write of a commit or of a
recovery moves the disk from one stage's picture to the next one's. -/
theorem DiskInv.step (h : DiskInv start base s) (hc : Counted s)
    (hs : LogStep start s ev s') : DiskInv start base s' := by
  obtain ⟨hcache, hstage⟩ := h
  cases hs with
  | beginOp => exact ⟨hcache, hstage⟩
  | @logWrite p op b d hop hhome hroom hout =>
    have hup := hc.up_of_mem hop
    rw [hup] at hstage
    have hg : Gathering start (s.stable base) s.disk s.lh s.pinned s.current := hstage
    refine ⟨?_, ?_⟩
    · have htarget : (s.logWrite op b d).target base =
          update (s.target base) b d := applyWrites_concat _ _ _
      rw [htarget]
      exact hcache.log_write hg.pinned hhome
    · show StageInv _ _ _ _ _ _ s.stage
      rw [hup]
      exact hg.log_write hroom (w := ⟨op, b, d⟩) hhome
  | endOp hop hup =>
    rw [hup] at hstage
    exact ⟨hcache, hstage⟩
  | commitStart hop hup hout hlh =>
    rw [hup] at hstage
    exact ⟨hcache, hstage, fun j b hj => absurd hj (Nat.not_lt_zero j)⟩
  | commitEmpty hop hup hout hlh =>
    rw [hup] at hstage
    exact ⟨hcache, hstage, List.length_eq_zero_iff.mp hlh⟩
  | @writeLog p tail b hst hb =>
    rw [hst] at hstage
    obtain ⟨hg, hcopies⟩ := hstage
    have hlt : tail < LOGBLOCKS := Nat.lt_of_lt_of_le (List.getElem?_eq_some_iff.mp hb).1 hg.room
    have hpinned : b ∈ s.pinned := (hg.pinned b).mpr (List.mem_of_getElem? hb)
    refine ⟨hcache.write_log (not_home_log hlt), hg.write_log hlt, fun j a hj ha => ?_⟩
    by_cases hjt : j = tail
    · subst hjt
      obtain rfl : a = b := Option.some.inj (ha.symm.trans hb)
      exact (update_self ..).trans (hcache.bread_pinned hpinned)
    · have hne : start + j + 1 ≠ start + tail + 1 := by omega
      exact (update_of_ne hne ..).trans (hcopies j a (by omega) ha)
  | @writeHead p hst =>
    rw [hst] at hstage
    obtain ⟨hg, hcopies⟩ := hstage
    have hall : ∀ j b, s.lh[j]? = some b → s.disk (start + j + 1) = s.target base b :=
      fun j b hj => hcopies j b (List.getElem?_eq_some_iff.mp hj).1 hj
    -- the transaction becomes part of the stable contents
    have hstable : applyTxns base (s.committed ++ [s.current]) = s.target base :=
      applyTxns_concat _ _ _
    refine ⟨?_, ?_⟩
    · show CacheInv start (applyTxns base (s.committed ++ [s.current])) _ _ _
      rw [hstable]
      exact hcache.write_log not_home_start
    · show Installing start (applyTxns base (s.committed ++ [s.current])) _ _ _ _ _
      rw [hstable]
      exact hg.commit hall
  | @install p tail b hst hb =>
    rw [hst] at hstage
    have hi : Installing start (s.stable base) s.disk s.lh s.pinned s.current tail := hstage
    have hlt : tail < LOGBLOCKS :=
      Nat.lt_of_lt_of_le (List.getElem?_eq_some_iff.mp hb).1 hi.logged.room
    have hround := hi.round hb fun a ha => (hcache.nodup.mem_erase_iff.mp ha).symm
    rw [← hcache.bread_log (not_home_log hlt)] at hround
    exact ⟨hcache.write_home, hround⟩
  | clear hst =>
    rw [hst] at hstage
    exact ⟨hcache, Installing.done hstage⟩
  | erase hst =>
    rw [hst] at hstage
    exact ⟨hcache.write_log not_home_start, Installed.erase hstage, Installed.lh hstage⟩
  | finish hst =>
    rw [hst] at hstage
    exact ⟨hcache, hstage.1⟩
  | bread hmiss => exact ⟨hcache.load hmiss, hstage⟩
  | recycle hfree => exact ⟨hcache.recycle hfree, hstage⟩
  | crash =>
    refine ⟨?_, hstage.restorable, rfl, rfl⟩
    constructor <;> simp [LogState.crash]
  | readHead hst =>
    rw [hst] at hstage
    obtain ⟨⟨xs, hlogged, hagrees⟩, hcurrent, hpinned⟩ := hstage
    have hhead : Kus.readHead (s.bread start) = xs := by
      rw [hcache.bread_log not_home_start, hlogged.head]
    rw [hhead]
    exact ⟨hcache, ⟨hlogged, hagrees, hcurrent, by simp [hpinned]⟩, hpinned⟩
  | @recoverInstall tail b hst hb =>
    rw [hst] at hstage
    obtain ⟨hi, hpinned⟩ := hstage
    have hlt : tail < LOGBLOCKS :=
      Nat.lt_of_lt_of_le (List.getElem?_eq_some_iff.mp hb).1 hi.logged.room
    have hround := hi.round hb fun a ha => (hcache.nodup.mem_erase_iff.mp ha).symm
    -- nothing is pinned during a recovery, so there is nothing to unpin
    have hnone : s.pinned.erase b = s.pinned := by rw [hpinned]; rfl
    rw [← hcache.bread_log (not_home_log hlt), hnone] at hround
    have hcache' := hcache.write_home (a := b) (v := s.bread (start + tail + 1))
    rw [hnone] at hcache'
    exact ⟨hcache', hround, hpinned⟩
  | recoverClear hst =>
    rw [hst] at hstage
    exact ⟨hcache, hstage.1.done⟩
  | recovered hst =>
    rw [hst] at hstage
    exact ⟨hcache.write_log not_home_start, Installed.erase hstage⟩

end Stages

end Kus
