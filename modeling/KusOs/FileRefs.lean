import Mathlib
import KusOs.Custody
import KusOs.FileTable

/-!
# Reference counts of open files

`FilesOk δ hand s` holds at every point of a call: the `ref` of a file is the
number of descriptors that point to it plus `δ`, what the running call has taken
and not yet stored (or stored and not yet counted, when negative), and every
inode reference and pipe end is at one file, dropped, or in `hand`.

* `FilesOk.setFile`, `FilesOk.setFd`, `FilesOk.takeInode` — the small changes of
  the state;
* `filealloc_cases`, `fdalloc_cases`, `filedup_run`, `fileclose_run` — what the
  functions of `file.c` do;
* `FileCall.run_ok` — every call returns, with nothing left in its hands;
* `file_refs_counted` — the counts, and what is dropped when, in every reachable
  state.
-/

namespace Kus.Files

open Function Transition Ownership Hoare

attribute [local simp] points File.holds

/-- The inode references and pipe ends that were ever taken. -/
def Taken (s : FileState) : Held → Prop
  | .inode r => r < s.irefs
  | .pipeEnd pi _ => pi < s.pipes

/-- Both ends of the pipe were dropped. -/
def Gone (dropped : List Held) (pi : Nat) : Prop :=
  Held.pipeEnd pi false ∈ dropped ∧ Held.pipeEnd pi true ∈ dropped

/-- The ends of the pipe that were not dropped. -/
def endsLeft (dropped : List Held) (pi : Nat) : PipeEnds where
  readopen := decide (Held.pipeEnd pi false ∉ dropped)
  writeopen := decide (Held.pipeEnd pi true ∉ dropped)

/-- What the files hold. -/
def FileState.held (s : FileState) (f : FileIdx) : Option Held := (s.file f).holds

structure FilesOk (δ : FileIdx → Int) (hand : List Held) (s : FileState) : Prop where
  refs : ∀ f, ((s.file f).ref : Int) = holders s.ofile f + δ f
  idle : ∀ p fd, s.live p = false → s.ofile (p, fd) = none
  closed : ∀ f, (s.file f).ref = 0 → (s.file f).type = .FD_NONE
  custody : Custody (Taken s) s.dropped hand s.held
  pipe : ∀ pi, pi < s.pipes → ¬ Gone s.dropped pi → s.pipe pi = some (endsLeft s.dropped pi)
  freed_nodup : s.freed.Nodup
  freed : ∀ pi, pi ∈ s.freed ↔ Gone s.dropped pi

variable {s t : FileState} {δ δ' : FileIdx → Int} {hand hand' : List Held} {f g : FileIdx}
  {p : Slot}

theorem held_setFile (s : FileState) (f : FileIdx) (v : File) :
    (s.setFile f v).held = update s.held f v.holds := by
  funext g
  by_cases e : g = f
  · subst e
    simp [FileState.held]
  · simp [FileState.held, e]

theorem File.holds_of_none {v : File} (h : v.type = .FD_NONE) : v.holds = none := by
  simp [h]

namespace FilesOk

section

variable (h : FilesOk δ hand s)
include h

/-- A file without references holds nothing. -/
theorem held_of_ref (hf : (s.file f).ref = 0) : s.held f = none :=
  File.holds_of_none (h.closed f hf)

/-- A file is changed: the difference of the counts goes to the balance. -/
theorem setFile {v : File} (hcust : Custody (Taken s) s.dropped hand' (update s.held f v.holds))
    (hclosed : v.ref = 0 → v.type = .FD_NONE) (hf : (v.ref : Int) = (s.file f).ref + (δ' f - δ f))
    (hother : ∀ g, g ≠ f → δ' g = δ g) : FilesOk δ' hand' (s.setFile f v) := by
  constructor
  · intro g
    by_cases e : g = f
    · subst e
      have hg := h.refs g
      change (((s.setFile g v).file g).ref : Int) = holders s.ofile g + δ' g
      simp only [FileState.setFile_file, update_self]
      omega
    · simp only [FileState.setFile_file, update_of_ne e, hother g e]
      exact h.refs g
  · exact h.idle
  · intro g hg
    by_cases e : g = f
    · subst e
      simp only [FileState.setFile_file, update_self] at hg ⊢
      exact hclosed hg
    · simp only [FileState.setFile_file, update_of_ne e] at hg ⊢
      exact h.closed g hg
  · rw [held_setFile]
    exact hcust
  · exact h.pipe
  · exact h.freed_nodup
  · exact h.freed

/-- Only the count of a file is changed. -/
theorem setRef {n : Nat} (hclosed : n = 0 → (s.file f).type = .FD_NONE)
    (hf : (n : Int) = (s.file f).ref + (δ' f - δ f)) (hother : ∀ g, g ≠ f → δ' g = δ g) :
    FilesOk δ' hand (s.setFile f { s.file f with ref := n }) := by
  have hholds : ({ s.file f with ref := n } : File).holds = s.held f := rfl
  have hsame : update s.held f ({ s.file f with ref := n } : File).holds = s.held := by
    rw [hholds, update_eq_self]
  have hcust := h.custody
  rw [← hsame] at hcust
  exact h.setFile hcust hclosed hf hother

/-- A descriptor is set: the balance gains the old file and loses the new one. -/
theorem setFd {x : Fd} {o : Option FileIdx} (hlive : o = none ∨ s.live x.1 = true) :
    FilesOk (δ + points (s.ofile x) - points o) hand (s.setFd x o) := by
  constructor
  · intro g
    have hg := h.refs g
    have hcount := holders_update s.ofile x o g
    change ((s.file g).ref : Int) = holders (update s.ofile x o) g +
      (δ g + points (s.ofile x) g - points o g)
    omega
  · intro q fd hq
    simp only [FileState.setFd_live, FileState.setFd_ofile] at hq ⊢
    by_cases e : (q, fd) = x
    · subst e
      rcases hlive with hnone | hlive
      · simpa using hnone
      · rw [hlive] at hq
        cases hq
    · rw [update_of_ne e]
      exact h.idle q fd hq
  · exact h.closed
  · exact h.custody
  · exact h.pipe
  · exact h.freed_nodup
  · exact h.freed

/-- A file some descriptor points to has a reference. -/
theorem ref_pos {x : Fd} (hx : s.ofile x = some f) (hδ : 0 ≤ δ f) : 0 < (s.file f).ref := by
  have hpos := holders_pos.2 ⟨x, hx⟩
  have hf := h.refs f
  omega

/-- A file the call has a reference to. -/
theorem ref_pos_of_balance (hδ : 0 < δ f) : 0 < (s.file f).ref := by
  have hf := h.refs f
  omega

/-- The next inode reference is taken. -/
theorem takeInode : FilesOk δ (.inode s.irefs :: hand) { s with irefs := s.irefs + 1 } := by
  refine ⟨h.refs, h.idle, h.closed, ?_, h.pipe, h.freed_nodup, h.freed⟩
  apply h.custody.take
  · simp [Taken]
  · intro u
    cases u with
    | inode r => simp only [Taken, Held.inode.injEq]; omega
    | pipeEnd pi w => simp [Taken]

end

/-- The inode reference at hand is dropped. -/
theorem dropInode {r : Nat} (h : FilesOk δ (.inode r :: hand) s) :
    FilesOk δ hand { s with dropped := .inode r :: s.dropped } := by
  have hgone : ∀ pi, Gone (.inode r :: s.dropped) pi ↔ Gone s.dropped pi := by
    intro pi
    simp [Gone]
  refine ⟨h.refs, h.idle, h.closed, h.custody.giveBack, ?_, h.freed_nodup, ?_⟩
  · intro pi hpi hnot
    rw [hgone] at hnot
    have hleft := h.pipe pi hpi hnot
    simpa [endsLeft] using hleft
  · intro pi
    rw [hgone]
    exact h.freed pi

end FilesOk

/-! ### The functions of `file.c` and `pipe.c` -/

theorem iput_run {r : Nat} (s : FileState) :
    iput r s = .ok ((), { s with dropped := .inode r :: s.dropped }) := rfl

/-- Dropping the pipe end at hand; the page goes with the second one. -/
theorem pipeclose_run {pi : Nat} {w : Bool} (h : FilesOk δ (.pipeEnd pi w :: hand) s) :
    ∃ t, pipeclose pi w s = .ok ((), t) ∧ FilesOk δ hand t ∧
      t.file = s.file ∧ t.ofile = s.ofile ∧ t.live = s.live := by
  obtain ⟨htaken, hnew⟩ := h.custody.of_hand _ List.mem_cons_self
  have hnot : ¬ Gone s.dropped pi := by
    intro hgone
    cases w with
    | false => exact hnew hgone.1
    | true => exact hnew hgone.2
  have hpipe := h.pipe pi htaken hnot
  -- another pipe has the ends it had
  have hother : ∀ k, k ≠ pi → (Gone (.pipeEnd pi w :: s.dropped) k ↔ Gone s.dropped k) ∧
      endsLeft (.pipeEnd pi w :: s.dropped) k = endsLeft s.dropped k := by
    intro k hk
    simp [Gone, endsLeft, hk]
  have hends : (if w then { endsLeft s.dropped pi with writeopen := false }
      else { endsLeft s.dropped pi with readopen := false }) =
      endsLeft (.pipeEnd pi w :: s.dropped) pi := by
    cases w <;> simp [endsLeft]
  have hboth : (endsLeft (.pipeEnd pi w :: s.dropped) pi).readopen = false ∧
      (endsLeft (.pipeEnd pi w :: s.dropped) pi).writeopen = false ↔
      Gone (.pipeEnd pi w :: s.dropped) pi := by
    simp only [endsLeft, Gone, decide_eq_false_iff_not, not_not]
  by_cases hgone : Gone (.pipeEnd pi w :: s.dropped) pi
  · refine ⟨{ s with
      dropped := .pipeEnd pi w :: s.dropped
      pipe := update s.pipe pi none
      freed := pi :: s.freed }, ?_, ?_, rfl, rfl, rfl⟩
    · unfold pipeclose
      rw [run_get, hpipe]
      simp only [hends]
      rw [if_pos (hboth.2 hgone)]
      rfl
    · refine ⟨h.refs, h.idle, h.closed, h.custody.giveBack, ?_, ?_, ?_⟩
      · intro k hk hleft
        have hne : k ≠ pi := by
          rintro rfl
          exact hleft hgone
        obtain ⟨hiff, heq⟩ := hother k hne
        simp only [update_of_ne hne, heq]
        exact h.pipe k hk fun hg => hleft (hiff.2 hg)
      · exact List.nodup_cons.2 ⟨fun hmem => hnot ((h.freed pi).1 hmem), h.freed_nodup⟩
      · intro k
        by_cases e : k = pi
        · subst e
          simp [hgone]
        · rw [(hother k e).1, ← h.freed k]
          simp [e]
  · refine ⟨{ s with
      dropped := .pipeEnd pi w :: s.dropped
      pipe := update s.pipe pi (some (endsLeft (.pipeEnd pi w :: s.dropped) pi)) },
      ?_, ?_, rfl, rfl, rfl⟩
    · unfold pipeclose
      rw [run_get, hpipe]
      simp only [hends]
      rw [if_neg fun hc => hgone (hboth.1 hc)]
      rfl
    · refine ⟨h.refs, h.idle, h.closed, h.custody.giveBack, ?_, h.freed_nodup, ?_⟩
      · intro k hk hleft
        by_cases e : k = pi
        · subst e
          simp
        obtain ⟨hiff, heq⟩ := hother k e
        simp only [update_of_ne e, heq]
        exact h.pipe k hk fun hg => hleft (hiff.2 hg)
      · intro k
        by_cases e : k = pi
        · subst e
          exact ⟨fun hmem => absurd ((h.freed k).1 hmem) hnot, fun hg => absurd hg hgone⟩
        · rw [(hother k e).1]
          exact h.freed k

theorem filealloc_cases (s : FileState) :
    filealloc s = .ok (none, s) ∨ ∃ f, (s.file f).ref = 0 ∧
      filealloc s = .ok (some f, s.setFile f { s.file f with ref := 1 }) := by
  cases hfind : (List.finRange NFILE).find? fun f => (s.file f).ref == 0 with
  | none =>
    left
    unfold filealloc
    rw [run_get, hfind]
    rfl
  | some f =>
    right
    refine ⟨f, by simpa using List.find?_some hfind, ?_⟩
    unfold filealloc
    rw [run_get, hfind]
    rfl

theorem fdalloc_cases (p : Slot) (f : FileIdx) (s : FileState) :
    fdalloc p f s = .ok (none, s) ∨ ∃ fd, s.ofile (p, fd) = none ∧
      fdalloc p f s = .ok (some fd, s.setFd (p, fd) (some f)) := by
  cases hfind : (List.finRange NOFILE).find? fun fd => (s.ofile (p, fd)).isNone with
  | none =>
    left
    unfold fdalloc
    rw [run_get, hfind]
    rfl
  | some fd =>
    right
    refine ⟨fd, by simpa using List.find?_some hfind, ?_⟩
    unfold fdalloc
    rw [run_get, hfind]
    rfl

section

variable (h : FilesOk δ hand s)
include h

/-- A file without references gets its first one. -/
theorem FilesOk.alloc (hf : (s.file f).ref = 0) :
    FilesOk (δ + points (some f)) hand (s.setFile f { s.file f with ref := 1 }) := by
  apply h.setRef
  · intro hzero
    cases hzero
  · simp [hf]
  · intro g hg
    simp [Ne.symm hg]

theorem filedup_run (hpos : 0 < (s.file f).ref) :
    ∃ t, filedup f s = .ok ((), t) ∧ FilesOk (δ + points (some f)) hand t ∧
      t.ofile = s.ofile ∧ t.live = s.live := by
  refine ⟨s.setFile f { s.file f with ref := (s.file f).ref + 1 }, ?_, ?_, rfl, rfl⟩
  · have hnot : ¬ (s.file f).ref < 1 := by omega
    unfold filedup
    rw [run_get, if_neg hnot]
    rfl
  · apply h.setRef
    · intro hzero
      cases hzero
    · simp
    · intro g hg
      simp [Ne.symm hg]

/-- The last reference goes: the file is free and what it held is at hand. -/
theorem FilesOk.last (hf : (s.file f).ref = 1) :
    FilesOk (δ - points (some f)) ((s.held f).toList ++ hand)
      (s.setFile f { s.file f with ref := 0, type := .FD_NONE }) := by
  apply h.setFile
  · have hnone : ({ s.file f with ref := 0, type := .FD_NONE } : File).holds = none := rfl
    rw [hnone]
    cases hheld : s.held f with
    | none =>
      have hsame : update s.held f none = s.held := by
        rw [← hheld, update_eq_self]
      rw [hsame]
      exact h.custody
    | some u => exact h.custody.lift hheld
  · intro _
    rfl
  · simp [hf]
  · intro g hg
    simp [Ne.symm hg]

/-- **`fileclose`.**  It drops one reference, and with the last one what the file
held; no descriptor and no other file changes. -/
theorem fileclose_run (hpos : 0 < (s.file f).ref) :
    ∃ t, fileclose f s = .ok ((), t) ∧ FilesOk (δ - points (some f)) hand t ∧
      t.ofile = s.ofile ∧ t.live = s.live ∧ ∀ g, g ≠ f → t.file g = s.file g := by
  have hnot : ¬ (s.file f).ref < 1 := by omega
  by_cases hmore : 1 < (s.file f).ref
  · refine ⟨s.setFile f { s.file f with ref := (s.file f).ref - 1 }, ?_, ?_, rfl, rfl, ?_⟩
    · unfold fileclose
      rw [run_get, if_neg hnot, if_pos hmore]
      rfl
    · apply h.setRef
      · intro hzero
        omega
      · simp only [Pi.sub_apply, points, if_true]
        omega
      · intro g hg
        simp [Ne.symm hg]
    · intro g hg
      simp [hg]
  · have hone : (s.file f).ref = 1 := by omega
    have hlast := h.last hone
    have hfile : ∀ g, g ≠ f →
        (s.setFile f { s.file f with ref := 0, type := .FD_NONE }).file g = s.file g := by
      intro g hg
      simp [hg]
    rw [fileclose, run_get, if_neg hnot, if_neg hmore]
    cases htype : (s.file f).type with
    | FD_NONE =>
      rw [FileState.held, File.holds_of_none htype] at hlast
      exact ⟨_, rfl, hlast, rfl, rfl, hfile⟩
    | FD_PIPE =>
      have hheld : s.held f = some (.pipeEnd (s.file f).pipe (s.file f).writable) := by
        simp [FileState.held, htype]
      rw [hheld] at hlast
      obtain ⟨t, ht, hok, htfile, htofile, htlive⟩ := pipeclose_run hlast
      exact ⟨t, ht, hok, htofile, htlive, fun g hg => by rw [htfile, hfile g hg]⟩
    | FD_INODE =>
      have hheld : s.held f = some (.inode (s.file f).iref) := by
        simp [FileState.held, htype]
      rw [hheld] at hlast
      exact ⟨_, iput_run _, hlast.dropInode, rfl, rfl, hfile⟩
    | FD_DEVICE =>
      have hheld : s.held f = some (.inode (s.file f).iref) := by
        simp [FileState.held, htype]
      rw [hheld] at hlast
      exact ⟨_, iput_run _, hlast.dropInode, rfl, rfl, hfile⟩

/-! ### Making files -/

/-- The next pipe page is taken, with both ends at hand. -/
theorem FilesOk.takePipe : FilesOk δ (.pipeEnd s.pipes false :: .pipeEnd s.pipes true :: hand)
      { s with
        pipe := update s.pipe s.pipes (some ⟨true, true⟩)
        pipes := s.pipes + 1 } := by
  have hfresh : ∀ w, Held.pipeEnd s.pipes w ∉ s.dropped := by
    intro w hmem
    have htaken := h.custody.of_back _ hmem
    simp [Taken] at htaken
  refine ⟨h.refs, h.idle, h.closed, ?_, ?_, h.freed_nodup, h.freed⟩
  · have hwrite : Custody (fun u => u = .pipeEnd s.pipes true ∨ Taken s u) s.dropped
        (.pipeEnd s.pipes true :: hand) s.held :=
      h.custody.take (by simp [Taken]) fun _ => Iff.rfl
    apply hwrite.take
    · simp [Taken]
    · intro u
      cases u with
      | inode r => simp [Taken]
      | pipeEnd pi w =>
        cases w with
        | false => simp only [Taken, Held.pipeEnd.injEq]; simp; omega
        | true => simp only [Taken, Held.pipeEnd.injEq]; simp; omega
  · intro pi hpi hnot
    by_cases e : pi = s.pipes
    · subst e
      simp [endsLeft, hfresh]
    · simp only [update_of_ne e]
      exact h.pipe pi (by simp only at hpi; omega) hnot

end

/-- The thing at hand is put into an allocated file that holds nothing. -/
theorem FilesOk.fill {u : Held} {v : File} (h : FilesOk δ (u :: hand) s) (hf : s.held f = none)
    (hv : v.holds = some u) (href : v.ref = (s.file f).ref) (hpos : 0 < (s.file f).ref) :
    FilesOk δ hand (s.setFile f v) := by
  apply h.setFile
  · rw [hv]
    exact h.custody.put hf
  · intro hzero
    omega
  · omega
  · intro g _
    rfl

/-- What `pipealloc` hands to its caller. -/
def pipeBalance : Option (FileIdx × FileIdx) → FileIdx → Int
  | none => 0
  | some (f0, f1) => points (some f0) + points (some f1)

theorem pipealloc_run (page : Bool) (h : FilesOk 0 [] s) :
    ∃ r t, pipealloc page s = .ok (r, t) ∧ FilesOk (pipeBalance r) [] t ∧
      t.ofile = s.ofile ∧ t.live = s.live := by
  unfold pipealloc
  rcases filealloc_cases s with hfull | ⟨f0, href0, halloc0⟩
  · rw [run_bind_ok hfull]
    exact ⟨none, s, rfl, h, rfl, rfl⟩
  rw [run_bind_ok halloc0]
  have hok0 := h.alloc href0
  have hnone0 := h.held_of_ref href0
  generalize hs0 : s.setFile f0 { s.file f0 with ref := 1 } = s0 at hok0 halloc0 ⊢
  have hheld0 : s0.held f0 = none := by
    rw [← hs0, held_setFile, update_self]
    exact hnone0
  have hofile0 : s0.ofile = s.ofile := by rw [← hs0]; rfl
  have hlive0 : s0.live = s.live := by rw [← hs0]; rfl
  have hpos0 : 0 < (s0.file f0).ref := hok0.ref_pos_of_balance (by simp)
  rcases filealloc_cases s0 with hfull | ⟨f1, href1, halloc1⟩
  · simp only
    rw [run_bind_ok hfull]
    obtain ⟨t, ht, hok, hofile, hlive, _⟩ := fileclose_run hok0 hpos0
    simp only
    rw [run_bind_ok ht]
    refine ⟨none, t, rfl, ?_, hofile.trans hofile0, hlive.trans hlive0⟩
    simpa [pipeBalance] using hok
  simp only
  rw [run_bind_ok halloc1]
  have hok1 := hok0.alloc href1
  have hnone1 := hok0.held_of_ref href1
  have hne : f0 ≠ f1 := by
    rintro rfl
    omega
  generalize hs1 : s0.setFile f1 { s0.file f1 with ref := 1 } = s1 at hok1 halloc1 ⊢
  have hheld1 : s1.held f1 = none := by
    rw [← hs1, held_setFile, update_self]
    exact hnone1
  have hheld01 : s1.held f0 = none := by
    rw [← hs1, held_setFile, update_of_ne hne]
    exact hheld0
  have hofile1 : s1.ofile = s.ofile := by rw [← hs1]; exact hofile0
  have hlive1 : s1.live = s.live := by rw [← hs1]; exact hlive0
  have hpos01 : 0 < (s1.file f0).ref := hok1.ref_pos_of_balance (by simp [Ne.symm hne])
  have hpos1 : 0 < (s1.file f1).ref := hok1.ref_pos_of_balance (by simp [hne])
  cases page with
  | true =>
    have hboth := hok1.takePipe
    have hread := hboth.fill (f := f0)
      (v := { s1.file f0 with
        type := .FD_PIPE, readable := true, writable := false, pipe := s1.pipes })
      hheld01 rfl rfl hpos01
    have hwrite := hread.fill (f := f1)
      (v := { s1.file f1 with
        type := .FD_PIPE, readable := false, writable := true, pipe := s1.pipes })
      (by rw [held_setFile, update_of_ne (Ne.symm hne)]; exact hheld1) rfl
      (by simp [Ne.symm hne]) (by simpa [Ne.symm hne] using hpos1)
    refine ⟨some (f0, f1), _, rfl, ?_, hofile1, hlive1⟩
    simpa [pipeBalance] using hwrite
  | false =>
    obtain ⟨t0, ht0, hokt0, hofilet0, hlivet0, hfile0⟩ := fileclose_run hok1 hpos01
    have hpost0 : 0 < (t0.file f1).ref := by
      rw [hfile0 f1 (Ne.symm hne)]
      exact hpos1
    obtain ⟨t1, ht1, hokt1, hofilet1, hlivet1, _⟩ := fileclose_run hokt0 hpost0
    simp only [Bool.false_eq_true, if_false]
    rw [run_bind_ok ht0, run_bind_ok ht1]
    refine ⟨none, t1, rfl, ?_, hofilet1.trans (hofilet0.trans hofile1),
      hlivet1.trans (hlivet0.trans hlive1)⟩
    have hzero : 0 + points (some f0) + points (some f1) - points (some f0) - points (some f1) =
        (0 : FileIdx → Int) := by
      abel
    rw [hzero] at hokt1
    exact hokt1

/-! ### The calls -/

/-- The run returns, with nothing left in its hands. -/
def Settles {α : Type} (x : FileM α) (s : FileState) : Prop :=
  ∃ a t, x s = .ok (a, t) ∧ FilesOk 0 [] t

theorem argfd_some {fd : Int} {d : Fin NOFILE} (h : argfd p fd s = some (d, f)) :
    s.ofile (p, d) = some f := by
  unfold argfd at h
  split at h
  · obtain ⟨f', hf', heq⟩ := Option.map_eq_some_iff.1 h
    obtain ⟨rfl, rfl⟩ := Prod.mk.inj heq
    exact hf'
  · cases h

theorem sys_dup_settles (fd : Int) (h : FilesOk 0 [] s) (hp : s.live p = true) :
    Settles (sys_dup p fd) s := by
  unfold Settles sys_dup
  rw [run_get]
  cases harg : argfd p fd s with
  | none => exact ⟨-1, s, rfl, h⟩
  | some arg =>
    obtain ⟨d, f⟩ := arg
    have hslot := argfd_some harg
    rcases fdalloc_cases p f s with hfull | ⟨new, hfree, halloc⟩
    · simp only
      rw [run_bind_ok hfull]
      exact ⟨-1, s, rfl, h⟩
    -- the new descriptor is not counted yet: the balance of `f` is `-1`
    have hset := h.setFd (x := (p, new)) (o := some f) (.inr hp)
    have hpos : 0 < ((s.setFd (p, new) (some f)).file f).ref := h.ref_pos hslot (Int.le_refl 0)
    obtain ⟨t, ht, hok, _, _⟩ := filedup_run hset hpos
    simp only
    rw [run_bind_ok halloc]
    simp only
    rw [run_bind_ok ht]
    refine ⟨new, t, rfl, ?_⟩
    simpa [hfree] using hok

theorem sys_close_settles (fd : Int) (h : FilesOk 0 [] s) : Settles (sys_close p fd) s := by
  unfold Settles sys_close
  rw [run_get]
  cases harg : argfd p fd s with
  | none => exact ⟨-1, s, rfl, h⟩
  | some arg =>
    obtain ⟨d, f⟩ := arg
    have hslot := argfd_some harg
    have hset := h.setFd (x := (p, d)) (o := none) (.inl rfl)
    have hpos : 0 < ((s.setFd (p, d) none).file f).ref := h.ref_pos hslot (Int.le_refl 0)
    obtain ⟨t, ht, hok, _, _, _⟩ := fileclose_run hset hpos
    simp only
    rw [run_modify, run_bind_ok ht]
    refine ⟨0, t, rfl, ?_⟩
    simpa [hslot] using hok

theorem sys_open_settles (found : Option Opened) (omode : UInt32) (h : FilesOk 0 [] s)
    (hp : s.live p = true) : Settles (sys_open p found omode) s := by
  unfold Settles sys_open
  cases found with
  | none => exact ⟨-1, s, rfl, h⟩
  | some ip =>
    have htake := h.takeInode
    simp only
    rw [run_get, run_modify]
    have hp1 : ({ s with irefs := s.irefs + 1 } : FileState).live p = true := hp
    generalize { s with irefs := s.irefs + 1 } = s1 at htake hp1 ⊢
    generalize s.irefs = r at htake ⊢
    split
    · rw [run_bind_ok (iput_run s1)]
      exact ⟨-1, _, rfl, htake.dropInode⟩
    split
    · rw [run_bind_ok (iput_run s1)]
      exact ⟨-1, _, rfl, htake.dropInode⟩
    rcases filealloc_cases s1 with hfull | ⟨f, href, halloc⟩
    · rw [run_bind_ok hfull]
      simp only
      rw [run_bind_ok (iput_run s1)]
      exact ⟨-1, _, rfl, htake.dropInode⟩
    have hok := htake.alloc href
    have hheld : (s1.setFile f { s1.file f with ref := 1 }).held f = none := by
      rw [held_setFile, update_self]
      exact htake.held_of_ref href
    have hp2 : (s1.setFile f { s1.file f with ref := 1 }).live p = true := hp1
    rw [run_bind_ok halloc]
    generalize s1.setFile f { s1.file f with ref := 1 } = s2 at hok hheld hp2 ⊢
    have hpos : 0 < (s2.file f).ref := hok.ref_pos_of_balance (by simp)
    simp only
    rcases fdalloc_cases p f s2 with hfull | ⟨fd, hfree, hfd⟩
    · obtain ⟨t, ht, hclosed, _, _, _⟩ := fileclose_run hok hpos
      rw [run_bind_ok hfull]
      simp only
      rw [run_bind_ok ht, run_bind_ok (iput_run t)]
      refine ⟨-1, _, rfl, ?_⟩
      have hdrop := hclosed.dropInode
      simpa using hdrop
    have hset := hok.setFd (x := (p, fd)) (o := some f) (.inr hp2)
    rw [run_bind_ok hfd]
    refine ⟨fd, _, rfl, ?_⟩
    have hzero : 0 + points (some f) + points (s2.ofile (p, fd)) - points (some f) =
        (0 : FileIdx → Int) := by
      rw [hfree, points_none]
      abel
    rw [hzero] at hset
    apply hset.fill hheld
    · by_cases hdev : ip.type = .T_DEVICE
      · simp [hdev]
      · simp [hdev]
    · rfl
    · exact hpos

/-- The error exits of `sys_pipe` close both files. -/
theorem close_both {f0 f1 : FileIdx} (h : FilesOk (points (some f0) + points (some f1)) [] s) :
    Settles (do fileclose f0; fileclose f1; pure (-1 : Int)) s := by
  have hpos0 : 0 < (s.file f0).ref := by
    apply h.ref_pos_of_balance
    simp only [points, Pi.add_apply, if_true]
    split <;> omega
  obtain ⟨t0, ht0, hok0, _, _, _⟩ := fileclose_run h hpos0
  rw [add_sub_cancel_left] at hok0
  have hpos1 : 0 < (t0.file f1).ref := hok0.ref_pos_of_balance (by simp)
  obtain ⟨t1, ht1, hok1, _, _, _⟩ := fileclose_run hok0 hpos1
  rw [sub_self] at hok1
  refine ⟨-1, t1, ?_, hok1⟩
  rw [run_bind_ok ht0, run_bind_ok ht1]
  rfl

theorem sys_pipe_settles (page copied : Bool) (h : FilesOk 0 [] s) (hp : s.live p = true) :
    Settles (sys_pipe p page copied) s := by
  unfold Settles sys_pipe
  obtain ⟨r, s1, hrun, hok, _, hlive1⟩ := pipealloc_run page h
  rw [run_bind_ok hrun]
  rw [← hlive1] at hp
  cases r with
  | none => exact ⟨-1, s1, rfl, hok⟩
  | some files =>
    obtain ⟨rf, wf⟩ := files
    simp only [pipeBalance] at hok ⊢
    rcases fdalloc_cases p rf s1 with hfull | ⟨fd0, hfree0, hfd0⟩
    · rw [run_bind_ok hfull]
      exact close_both hok
    have hset0 := hok.setFd (x := (p, fd0)) (o := some rf) (.inr hp)
    rw [hfree0, points_none, add_zero, add_sub_cancel_left] at hset0
    rw [run_bind_ok hfd0]
    have hslot0 : (s1.setFd (p, fd0) (some rf)).ofile (p, fd0) = some rf := by simp
    have hp2 : (s1.setFd (p, fd0) (some rf)).live p = true := hp
    generalize s1.setFd (p, fd0) (some rf) = s2 at hset0 hslot0 hp2 ⊢
    simp only
    rcases fdalloc_cases p wf s2 with hfull | ⟨fd1, hfree1, hfd1⟩
    · rw [run_bind_ok hfull]
      have hundo := hset0.setFd (x := (p, fd0)) (o := none) (.inl rfl)
      rw [hslot0, points_none, sub_zero, add_comm] at hundo
      exact close_both hundo
    have hset1 := hset0.setFd (x := (p, fd1)) (o := some wf) (.inr hp2)
    rw [hfree1, points_none, add_zero, sub_self] at hset1
    rw [run_bind_ok hfd1]
    cases copied with
    | true => exact ⟨0, _, rfl, hset1⟩
    | false =>
      -- the two descriptors differ: the first was in use when the second was found
      have hne : fd0 ≠ fd1 := by
        rintro rfl
        rw [hslot0] at hfree1
        cases hfree1
      have hundo0 := hset1.setFd (x := (p, fd0)) (o := none) (.inl rfl)
      have hundo1 := hundo0.setFd (x := (p, fd1)) (o := none) (.inl rfl)
      have hslots : (0 : FileIdx → Int) +
          points ((s2.setFd (p, fd1) (some wf)).ofile (p, fd0)) - points none +
          points (((s2.setFd (p, fd1) (some wf)).setFd (p, fd0) none).ofile (p, fd1)) -
          points none = points (some rf) + points (some wf) := by
        simp [hne, Ne.symm hne, hslot0]
      rw [hslots] at hundo1
      exact close_both hundo1

/-- While `kfork` copies: the descriptors that are still to come are free. -/
def Copying (np : Slot) (done : List (Fin NOFILE)) (s : FileState) : Prop :=
  FilesOk 0 [] s ∧ s.live np = true ∧ ∀ fd, fd ∉ done → s.ofile (np, fd) = none

theorem forkFd_copies {np : Slot} {done : List (Fin NOFILE)} {fd : Fin NOFILE} (hnew : fd ∉ done) :
    Triple (Copying np done) (forkFd p np fd) (fun _ => Copying np (done ++ [fd]))
      fun _ => False := by
  apply Triple.get_bind
  rintro s ⟨hok, hlive, hfree⟩
  have hlater : ∀ d, d ∉ done ++ [fd] → d ∉ done ∧ d ≠ fd := by
    intro d hd
    simpa [not_or] using hd
  cases hslot : s.ofile (p, fd) with
  | none =>
    apply Triple.run_ok (a := ()) (t := s) rfl
    exact ⟨hok, hlive, fun d hd => hfree d (hlater d hd).1⟩
  | some f =>
    have hpos := hok.ref_pos hslot (Int.le_refl 0)
    obtain ⟨t, ht, hokt, hofile, hlivet⟩ := filedup_run hok hpos
    rw [← hlivet] at hlive
    have hset := hokt.setFd (x := (np, fd)) (o := some f) (.inr hlive)
    rw [hofile, hfree fd hnew, points_none, add_zero, zero_add, sub_self] at hset
    apply Triple.bind_ok ht
    apply Triple.run_ok (a := ()) (t := t.setFd (np, fd) (some f)) rfl
    refine ⟨hset, hlive, ?_⟩
    intro d hd
    obtain ⟨hdone, hne⟩ := hlater d hd
    have hx : (np, d) ≠ (np, fd) := by simp [hne]
    rw [FileState.setFd_ofile, update_of_ne hx, hofile]
    exact hfree d hdone

theorem kfork_settles {np : Slot} {ok : Bool} (h : FilesOk 0 [] s)
    (hnp : ok = true → s.live np = false) : Settles (kfork p np ok) s := by
  unfold Settles kfork
  cases ok with
  | false => exact ⟨(), s, rfl, h⟩
  | true =>
    have hidle := hnp rfl
    have hstart : Copying np [] { s with live := update s.live np true } := by
      refine ⟨⟨h.refs, ?_, h.closed, h.custody, h.pipe, h.freed_nodup, h.freed⟩, by simp, ?_⟩
      · intro q fd hq
        have hne : q ≠ np := by
          rintro rfl
          simp at hq
        simp only [update_of_ne hne] at hq
        exact h.idle q fd hq
      · intro fd _
        exact h.idle np fd hidle
    have hloop : Triple (Copying np []) ((List.finRange NOFILE).forM (forkFd p np))
        (fun _ => Copying np (List.finRange NOFILE)) fun _ => False := by
      apply Triple.forM_done
      intro done fd rest hsplit
      apply forkFd_copies
      have hnd := List.nodup_finRange NOFILE
      rw [hsplit] at hnd
      intro hmem
      exact (List.nodup_append.1 hnd).2.2 fd hmem fd List.mem_cons_self rfl
    obtain ⟨a, t, ht, hdone⟩ := hloop.returns hstart
    exact ⟨a, t, ht, hdone.1⟩

/-- While `kexit` closes: the descriptors done are free. -/
def Closing (p : Slot) (done : List (Fin NOFILE)) (s : FileState) : Prop :=
  FilesOk 0 [] s ∧ ∀ fd ∈ done, s.ofile (p, fd) = none

theorem exitFd_closes {done : List (Fin NOFILE)} {fd : Fin NOFILE} :
    Triple (Closing p done) (exitFd p fd) (fun _ => Closing p (done ++ [fd])) fun _ => False := by
  apply Triple.get_bind
  rintro s ⟨hok, hdone⟩
  cases hslot : s.ofile (p, fd) with
  | none =>
    apply Triple.run_ok (a := ()) (t := s) rfl
    refine ⟨hok, ?_⟩
    intro d hd
    rcases List.mem_append.1 hd with hd | hd
    · exact hdone d hd
    · rw [List.mem_singleton.1 hd]
      exact hslot
  | some f =>
    -- the file is closed before the descriptor is cleared
    obtain ⟨t, ht, hokt, hofile, _, _⟩ := fileclose_run hok (hok.ref_pos hslot (Int.le_refl 0))
    have hset := hokt.setFd (x := (p, fd)) (o := none) (.inl rfl)
    rw [hofile, hslot, points_none, sub_zero, sub_add_cancel] at hset
    apply Triple.bind_ok ht
    apply Triple.run_ok (a := ()) (t := t.setFd (p, fd) none) rfl
    refine ⟨hset, ?_⟩
    intro d hd
    rw [FileState.setFd_ofile]
    by_cases e : d = fd
    · rw [e, update_self]
    have hx : (p, d) ≠ (p, fd) := by simp [e]
    rw [update_of_ne hx, hofile]
    exact hdone d (by simpa [e] using hd)

theorem kexit_settles (h : FilesOk 0 [] s) : Settles (kexit p) s := by
  unfold Settles kexit
  have hloop : Triple (Closing p []) ((List.finRange NOFILE).forM (exitFd p))
      (fun _ => Closing p (List.finRange NOFILE)) fun _ => False :=
    Triple.forM_done fun _ _ _ _ => exitFd_closes
  have hstart : Closing p [] s := ⟨h, by simp⟩
  obtain ⟨a, t, ht, hok, hnone⟩ := hloop.returns hstart
  rw [run_bind_ok ht]
  refine ⟨(), { t with live := update t.live p false }, rfl, ?_⟩
  refine ⟨hok.refs, ?_, hok.closed, hok.custody, hok.pipe, hok.freed_nodup, hok.freed⟩
  intro q fd hq
  by_cases e : q = p
  · rw [e]
    exact hnone fd (List.mem_finRange fd)
  · simp only [update_of_ne e] at hq
    exact hok.idle q fd hq

/-- **Every call returns**, whatever it meets, and leaves nothing uncounted. -/
theorem FileCall.run_settles {c : FileCall} (h : FilesOk 0 [] s) (hc : c.Enabled s p) :
    Settles (c.run p) s := by
  obtain ⟨hp, hfork⟩ := hc
  -- the result of the call is dropped
  have hunit : ∀ x : FileM Int, Settles x s → Settles (do let _ ← x) s := by
    rintro x ⟨a, t, hx, hok⟩
    exact ⟨(), t, by rw [run_bind_ok hx]; rfl, hok⟩
  cases c with
  | «open» found omode => exact hunit _ (sys_open_settles found omode h hp)
  | pipe page copied => exact hunit _ (sys_pipe_settles page copied h hp)
  | dup fd => exact hunit _ (sys_dup_settles fd h hp)
  | close fd => exact hunit _ (sys_close_settles fd h)
  | fork np ok => exact kfork_settles h fun hok => hfork np (by rw [hok])
  | exec => exact ⟨(), s, rfl, h⟩
  | exit => exact kexit_settles h

theorem filesOk_init (h : fileSystem.init s) : FilesOk 0 [] s := by
  obtain ⟨hfile, hofile, hpipe, hirefs, hpipes, hdropped, hfreed⟩ := h
  have hheld : s.held = fun _ => none := by
    funext f
    simp [FileState.held, hfile, File.zero]
  constructor
  · intro f
    simp [hfile, File.zero, holders, hofile]
  · intro q fd _
    exact hofile (q, fd)
  · intro f _
    simp [hfile, File.zero]
  · rw [hheld, hdropped]
    constructor
    · intro q u hq
      cases hq
    · simp
    · simp
    · intro q r u hq
      cases hq
    · intro u hu
      cases u <;> simp [Taken, hirefs, hpipes] at hu
    · exact List.nodup_nil
    · exact List.nodup_nil
  · intro pi hpi
    omega
  · simp [hfreed]
  · simp [hfreed, hdropped, Gone]

theorem filesOk_reachable (h : Reachable fileSystem s) : FilesOk 0 [] s := by
  apply h.invariant (P := FilesOk 0 [])
  · intro s hinit
    exact filesOk_init hinit
  · rintro s ⟨p, c⟩ s' _ hok ⟨hc, hrun⟩
    obtain ⟨_, t, ht, hokt⟩ := FileCall.run_settles hok hc
    have heq : s' = t := by
      rw [ht] at hrun
      cases hrun
      rfl
    rw [heq]
    exact hokt

/-- Some descriptor of some process leads to the thing. -/
def FileState.Reaches (s : FileState) (u : Held) : Prop :=
  ∃ x f, s.ofile x = some f ∧ s.held f = some u

/-- Between calls every file that holds something has a descriptor. -/
theorem FilesOk.reaches_iff (h : FilesOk 0 [] s) (u : Held) :
    s.Reaches u ↔ Taken s u ∧ u ∉ s.dropped := by
  constructor
  · rintro ⟨x, f, _, hheld⟩
    obtain ⟨htaken, hnot, _⟩ := h.custody.of_held f u hheld
    exact ⟨htaken, hnot⟩
  · rintro ⟨htaken, hnot⟩
    rcases h.custody.all u htaken with hback | hhand | ⟨f, hf⟩
    · exact absurd hback hnot
    · cases hhand
    · have hpos : 0 < holders s.ofile f := by
        have hrefs := h.refs f
        by_contra hzero
        have hnone := h.held_of_ref (f := f) (by simp only [Pi.zero_apply] at hrefs; omega)
        rw [hnone] at hf
        cases hf
      obtain ⟨x, hx⟩ := holders_pos.1 hpos
      exact ⟨x, f, hx, hf⟩

theorem count_eq_one_iff {α : Type} [DecidableEq α] {l : List α} (hl : l.Nodup) {a : α} :
    l.count a = 1 ↔ a ∈ l := by
  rw [hl.count]
  simp

/-- **Reference counts of open files.**  Between calls the `ref` of every file is
the number of descriptors that point to it, so none points to a file without
references; an inode reference was dropped once if no descriptor leads to it any
more, and never otherwise; the page of a pipe was freed once if no descriptor leads
to either of its ends, and never otherwise; and every call returns. -/
theorem file_refs_counted (hs : Reachable fileSystem s) :
    (∀ f, (s.file f).ref = holders s.ofile f) ∧
    (∀ x f, s.ofile x = some f → (s.file f).ref ≠ 0) ∧
    (∀ r, s.dropped.count (.inode r) ≤ 1 ∧
      (s.dropped.count (.inode r) = 1 ↔ r < s.irefs ∧ ¬ s.Reaches (.inode r))) ∧
    (∀ pi, s.freed.count pi ≤ 1 ∧
      (s.freed.count pi = 1 ↔ pi < s.pipes ∧ ∀ w, ¬ s.Reaches (.pipeEnd pi w))) ∧
    (∀ (p : Slot) (c : FileCall), c.Enabled s p → ∃ s', c.run p s = .ok ((), s')) := by
  have h := filesOk_reachable hs
  have hcounts : ∀ f, (s.file f).ref = holders s.ofile f := by
    intro f
    have hf := h.refs f
    simp only [Pi.zero_apply] at hf
    omega
  refine ⟨hcounts, ?_, ?_, ?_, ?_⟩
  · intro x f hx
    have hpos := holders_pos.2 ⟨x, hx⟩
    rw [hcounts f]
    omega
  · intro r
    refine ⟨List.nodup_iff_count_le_one.1 h.custody.back_nodup _, ?_⟩
    rw [count_eq_one_iff h.custody.back_nodup, h.reaches_iff]
    constructor
    · intro hmem
      exact ⟨h.custody.of_back _ hmem, fun hreach => hreach.2 hmem⟩
    · rintro ⟨htaken, hnot⟩
      by_contra hmem
      exact hnot ⟨htaken, hmem⟩
  · intro pi
    refine ⟨List.nodup_iff_count_le_one.1 h.freed_nodup _, ?_⟩
    rw [count_eq_one_iff h.freed_nodup, h.freed pi]
    constructor
    · intro hgone
      refine ⟨h.custody.of_back _ hgone.1, ?_⟩
      intro w hreach
      have hnot := ((h.reaches_iff _).1 hreach).2
      cases w with
      | false => exact hnot hgone.1
      | true => exact hnot hgone.2
    · rintro ⟨htaken, hnot⟩
      have hdropped : ∀ w, Held.pipeEnd pi w ∈ s.dropped := by
        intro w
        by_contra hmem
        exact hnot w ((h.reaches_iff _).2 ⟨htaken, hmem⟩)
      exact ⟨hdropped false, hdropped true⟩
  · intro p c hc
    obtain ⟨_, t, ht, _⟩ := FileCall.run_settles h hc
    exact ⟨t, ht⟩

/-- The state after a call. -/
def FileCall.after (p : Slot) (c : FileCall) (s : FileState) : FileState :=
  match c.run p s with
  | .ok r => r.2
  | .error _ => s

theorem reachable_after {c : FileCall} (hs : Reachable fileSystem s) (hc : c.Enabled s p) :
    Reachable fileSystem (c.after p s) := by
  obtain ⟨_, t, ht, _⟩ := FileCall.run_settles (filesOk_reachable hs) hc
  have hafter : c.after p s = t := by
    unfold FileCall.after
    rw [ht]
  rw [hafter]
  exact .next (a := (p, c)) hs ⟨hc, ht⟩

/-- No file is open and only process 0 runs. -/
def FileState.boot : FileState where
  file _ := .zero
  ofile _ := none
  live p := p == 0
  pipe _ := none
  irefs := 0
  pipes := 0
  dropped := []
  freed := []

/-- A file is opened and duplicated, a pipe made and both its ends closed. -/
def bootCalls : List FileCall :=
  [.open (some ⟨7, .T_FILE, 0⟩) O_RDWR, .dup 0, .pipe true true, .close 2, .close 3]

/-- The state after the calls of process 0. -/
def afterCalls (cs : List FileCall) : FileState :=
  cs.foldl (fun s c => c.after 0 s) .boot

theorem reachable_bootCalls : Reachable fileSystem (afterCalls bootCalls) := by
  have hboot : Reachable fileSystem .boot := by
    apply Reachable.start
    simp [fileSystem, FileState.boot]
  have hnofork : ∀ c ∈ bootCalls, ∀ np, c ≠ .fork np true := by
    simp [bootCalls]
  have henabled : ∀ c ∈ bootCalls, ∀ s, s.live 0 = true → c.Enabled s 0 := by
    intro c hc s hlive
    exact ⟨hlive, fun np heq => absurd heq (hnofork c hc np)⟩
  have h1 := reachable_after hboot (henabled (.open (some ⟨7, .T_FILE, 0⟩) O_RDWR)
    (by simp [bootCalls]) _ (by decide +kernel))
  have h2 := reachable_after h1 (henabled (.dup 0) (by simp [bootCalls]) _ (by decide +kernel))
  have h3 := reachable_after h2 (henabled (.pipe true true) (by simp [bootCalls]) _
    (by decide +kernel))
  have h4 := reachable_after h3 (henabled (.close 2) (by simp [bootCalls]) _ (by decide +kernel))
  exact reachable_after h4 (henabled (.close 3) (by simp [bootCalls]) _ (by decide +kernel))

/-- Two descriptors share the file, and the pipe's page is gone. -/
theorem file_refs_counted_dup :
    holders (afterCalls bootCalls).ofile ⟨0, by decide⟩ = 2 ∧
      (afterCalls bootCalls).freed.count 0 = 1 ∧
      ∀ w, ¬ (afterCalls bootCalls).Reaches (.pipeEnd 0 w) := by
  obtain ⟨hrefs, _, _, hpipes, _⟩ := file_refs_counted reachable_bootCalls
  have href : ((afterCalls bootCalls).file ⟨0, by decide⟩).ref = 2 := by decide +kernel
  have hfreed : (afterCalls bootCalls).freed.count 0 = 1 := by decide +kernel
  refine ⟨?_, hfreed, ((hpipes 0).2.1 hfreed).2⟩
  rw [← hrefs, href]

end Kus.Files
