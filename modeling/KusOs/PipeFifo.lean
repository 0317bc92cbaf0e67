import KusOs.Pipe

/-!
# A pipe is a FIFO byte stream

* `PipeInv` — what is stored and not yet read lies in the ring between the
  counters, and the bytes a read has in hand are the last ones consumed;
* `PipeInv.step` — every step keeps it;
* `pipe_fifo` — **the stream theorem**: over runs of any length, whatever wraps,
  sleeps or faults on the way.
-/

namespace Kus.Stream

open Transition

section Fifo

variable {κ : Type}

/-- The counters wrap at `2 ^ 32`, of which `PIPESIZE` is a divisor. -/
theorem pipesize_dvd : PIPESIZE ∣ 2 ^ 32 := by decide

theorem pipesize_lt : PIPESIZE < 2 ^ 32 := by decide

/-- The bytes in the ring, in order. -/
def Pipe.Holds (p : Pipe) (q : List UInt8) : Prop :=
  Ring.Holds (2 ^ 32) p.data p.nread.toNat p.nwrite.toNat q

/-- The invariant of a pipe. -/
structure PipeInv (s : PipeState κ) : Prop where
  queue : ∃ q, s.pipe.Holds q ∧ s.accepted = s.consumed ++ q
  lock : ∀ k, s.lock = some k ↔ (s.call k).locked = true
  inHand : ∀ k n got, s.call k = .readCopy n got → s.consumed = s.returned ++ got
  settled : (∀ k n got, s.call k ≠ .readCopy n got) → s.consumed = s.returned
  started : ∀ k n, s.call k = .readCopy n [] →
    s.pipe.nread ≠ s.pipe.nwrite ∨ s.pipe.writeopen = false

namespace Pipe.Holds

variable {p : Pipe} {q : List UInt8}

theorem nread_eq_iff (h : p.Holds q) : p.nread = p.nwrite ↔ q = [] := by
  rw [← UInt32.toNat_inj]
  exact Ring.Holds.eq_nil_iff h pipesize_lt

theorem full_iff (h : p.Holds q) :
    p.nwrite = p.nread + UInt32.ofNat PIPESIZE ↔ q.length = PIPESIZE := by
  have hsize : (UInt32.ofNat PIPESIZE).toNat = PIPESIZE := rfl
  rw [← UInt32.toNat_inj, UInt32.toNat_add, hsize]
  exact Ring.Holds.full_iff h pipesize_lt

/-- `nwrite - nread` as the source's `uint` arithmetic has it. -/
theorem distance (h : p.Holds q) : (p.nwrite - p.nread).toNat = q.length := by
  rw [UInt32.toNat_sub]
  exact Ring.Holds.distance h pipesize_lt

end Pipe.Holds

namespace PipeInv

variable {s : PipeState κ}

/-- At most one call is at a position with the lock. -/
theorem locked_unique (h : PipeInv s) {k k' : κ} (hk : (s.call k).locked = true)
    (hk' : (s.call k').locked = true) : k' = k := by
  have e := (h.lock k).2 hk
  have e' := (h.lock k').2 hk'
  exact Option.some.inj (e'.symm.trans e)

theorem no_locked (h : PipeInv s) (hlock : s.lock = none) (k : κ) : (s.call k).locked = false := by
  cases hk : (s.call k).locked with
  | false => rfl
  | true =>
    rw [(h.lock k).2 hk] at hlock
    cases hlock

theorem no_readCopy (h : PipeInv s) (hlock : s.lock = none) (k : κ) (n : Int)
    (got : List UInt8) : s.call k ≠ .readCopy n got := by
  intro e
  have hfalse := h.no_locked hlock k
  rw [e] at hfalse
  cases hfalse

end PipeInv

variable {pos : PipeCall}

theorem PipeCall.wake_locked (chan : PipeChan) (pos : PipeCall) :
    (pos.wake chan).locked = pos.locked := by
  cases chan <;> cases pos <;> rfl

theorem PipeCall.wake_readCopy {chan : PipeChan} {n : Int} {got : List UInt8} :
    pos.wake chan = .readCopy n got ↔ pos = .readCopy n got := by
  cases chan <;> cases pos <;> simp [PipeCall.wake]

theorem PipeCall.wakeKilled_locked (pos : PipeCall) : pos.wakeKilled.locked = pos.locked := by
  cases pos <;> rfl

theorem PipeCall.wakeKilled_readCopy {n : Int} {got : List UInt8} :
    pos.wakeKilled = .readCopy n got ↔ pos = .readCopy n got := by
  cases pos <;> simp [PipeCall.wakeKilled]

theorem PipeCall.acquired_locked {pos' : PipeCall} (h : pos.acquired = some pos') :
    pos.locked = false ∧ pos'.locked = true ∧ ∀ n got, pos' ≠ .readCopy n got := by
  cases pos with
  | writeEntry n =>
    cases h
    exact ⟨rfl, rfl, by simp⟩
  | writeWoken n i =>
    cases h
    exact ⟨rfl, rfl, by simp⟩
  | readEntry n =>
    cases h
    exact ⟨rfl, rfl, by simp⟩
  | readWoken n =>
    cases h
    exact ⟨rfl, rfl, by simp⟩
  | _ => cases h

namespace PipeInv

variable {s s' : PipeState κ}

section

variable (h : PipeInv s)
include h

/-- A step that changes neither the ring, nor the ends, nor the history, nor
where any call stands with respect to the lock. -/
theorem of_quiet (hpipe : s'.pipe = s.pipe) (hacc : s'.accepted = s.accepted)
    (hcon : s'.consumed = s.consumed) (hret : s'.returned = s.returned) (hlock : s'.lock = s.lock)
    (hlocked : ∀ k, (s'.call k).locked = (s.call k).locked)
    (hcopy : ∀ k n got, s'.call k = .readCopy n got ↔ s.call k = .readCopy n got) : PipeInv s' where
  queue := by rw [hpipe, hacc, hcon]; exact h.queue
  lock k := by rw [hlock, hlocked]; exact h.lock k
  inHand k n got hk := by
    rw [hcon, hret]
    exact h.inHand k n got ((hcopy k n got).1 hk)
  settled hnone := by
    rw [hcon, hret]
    apply h.settled
    intro k n got hk
    exact hnone k n got ((hcopy k n got).2 hk)
  started k n hk := by
    rw [hpipe]
    exact h.started k n ((hcopy k n []).1 hk)

/-- The holder of the lock drops it, with nothing in hand that is not returned. -/
theorem of_release {k : κ} (hk : (s.call k).locked = true) (hpipe : s'.pipe = s.pipe)
    (hacc : s'.accepted = s.accepted) (hcon : s'.consumed = s.consumed) (hlock : s'.lock = none)
    (hself : (s'.call k).locked = false)
    (hcall : ∀ k', k' ≠ k → (s'.call k').locked = (s.call k').locked)
    (hret : s'.returned = s.consumed) : PipeInv s' := by
  have hnone : ∀ k', (s'.call k').locked = false := by
    intro k'
    by_cases e : k' = k
    · rw [e, hself]
    rw [hcall k' e]
    cases hk' : (s.call k').locked with
    | false => rfl
    | true => exact absurd (h.locked_unique hk hk') e
  have hcopy : ∀ k' n got, s'.call k' ≠ .readCopy n got := by
    intro k' n got e
    have hfalse := hnone k'
    rw [e] at hfalse
    cases hfalse
  constructor
  · rw [hpipe, hacc, hcon]
    exact h.queue
  · intro k'
    simp [hlock, hnone k']
  · exact fun k' n got e => absurd e (hcopy k' n got)
  · intro _
    rw [hcon, hret]
  · exact fun k' n e => absurd e (hcopy k' n [])

/-- The holder of the lock, in `pipewrite`, or waiting in `piperead`, has read
nothing. -/
theorem settled_of_holder {k : κ} (hk : (s.call k).locked = true)
    (hcall : ∀ n got, s.call k ≠ .readCopy n got) : s.consumed = s.returned := by
  apply h.settled
  intro k' n got e
  have hk' : (s.call k').locked = true := by rw [e]; rfl
  exact hcall n got (h.locked_unique hk hk' ▸ e)

theorem wakeup (chan : PipeChan) : PipeInv (s.wakeup chan) := by
  refine h.of_quiet rfl rfl rfl rfl rfl ?_ ?_
  · exact fun k => PipeCall.wake_locked chan (s.call k)
  · exact fun k n got => PipeCall.wake_readCopy

/-- With the lock free, an end may be closed. -/
theorem set_ends (hlock : s.lock = none) (chan : PipeChan) (readopen writeopen freed : Bool) :
    PipeInv { s.wakeup chan with
      pipe := { s.pipe with readopen := readopen, writeopen := writeopen }, freed := freed } := by
  have hcopy := h.no_readCopy hlock
  have hwoken := h.wakeup chan
  constructor
  · exact h.queue
  · exact hwoken.lock
  · exact hwoken.inHand
  · exact hwoken.settled
  · intro k n e
    exact absurd (PipeCall.wake_readCopy.1 e) (hcopy k n [])

theorem close (writable : Bool) (hlock : s.lock = none) : PipeInv (s.close writable) := by
  cases writable with
  | false => exact h.set_ends hlock .nwrite _ _ _
  | true => exact h.set_ends hlock .nread _ _ _

end

end PipeInv

variable [DecidableEq κ]

namespace PipeInv

variable {s : PipeState κ} {k : κ} {n : Int}

section

variable (h : PipeInv s)
include h

theorem acquire {pos : PipeCall} (hcall : (s.call k).acquired = some pos) (hlock : s.lock = none) :
    PipeInv { s.goto k pos with lock := some k } := by
  obtain ⟨_, hpos, hcopy⟩ := PipeCall.acquired_locked hcall
  have hnone : ∀ k' n got, (s.goto k pos).call k' ≠ .readCopy n got := by
    intro k' n got
    by_cases e : k' = k
    · simpa [e] using hcopy n got
    · simpa [e] using h.no_readCopy hlock k' n got
  constructor
  · exact h.queue
  · intro k'
    by_cases e : k' = k
    · simp [e, hpos]
    · simp [e, h.no_locked hlock k', Ne.symm e]
  · exact fun k' n got e => absurd e (hnone k' n got)
  · exact fun _ => h.settled (h.no_readCopy hlock)
  · exact fun k' n e => absurd e (hnone k' n [])

theorem writeByte {i : Nat} (ch : UInt8) (hcall : s.call k = .writeLoop n i) (hroom : ¬ s.Full) :
    PipeInv ((s.store ch).goto k (.writeLoop n (i + 1))) := by
  have hk : (s.call k).locked = true := by rw [hcall]; rfl
  have hnone : ∀ k' n' got, ((s.store ch).goto k (.writeLoop n (i + 1))).call k' ≠
      .readCopy n' got := by
    intro k' n' got e
    by_cases ek : k' = k
    · simp [ek] at e
    · have e' : s.call k' = .readCopy n' got := by simpa [ek] using e
      exact ek (h.locked_unique hk (by rw [e']; rfl))
  obtain ⟨q, hq, hacc⟩ := h.queue
  have hlen : q.length < PIPESIZE := by
    have hle := hq.length_le
    have hne : q.length ≠ PIPESIZE := fun e => hroom (hq.full_iff.2 e)
    omega
  constructor
  · refine ⟨q ++ [ch], ?_, ?_⟩
    · have hpush := Ring.Holds.push hq pipesize_dvd hlen ch
      have hnext : (s.pipe.nwrite + 1).toNat = (s.pipe.nwrite.toNat + 1) % 2 ^ 32 :=
        UInt32.toNat_add _ _
      rw [← hnext] at hpush
      exact hpush
    · simp [hacc]
  · intro k'
    by_cases e : k' = k
    · simp [e, (h.lock k).2 hk]
    · simpa [e] using h.lock k'
  · exact fun k' n' got e => absurd e (hnone k' n' got)
  · intro _
    exact h.settled_of_holder hk (by simp [hcall])
  · exact fun k' n' e => absurd e (hnone k' n' [])

theorem readStart (hcall : s.call k = .readWait n)
    (hgo : s.pipe.nread ≠ s.pipe.nwrite ∨ s.pipe.writeopen = false) :
    PipeInv (s.goto k (.readCopy n [])) := by
  have hk : (s.call k).locked = true := by rw [hcall]; rfl
  have hsettled := h.settled_of_holder hk (by simp [hcall])
  constructor
  · exact h.queue
  · intro k'
    by_cases e : k' = k
    · simp [e, (h.lock k).2 hk]
    · simpa [e] using h.lock k'
  · intro k' n' got e
    by_cases ek : k' = k
    · have hgot : got = [] := by
        simp [ek] at e
        exact e.2
      simpa [hgot] using hsettled
    · exact h.inHand k' n' got (by simpa [ek] using e)
  · exact fun _ => hsettled
  · exact fun _ _ _ => hgo

theorem readByte {got : List UInt8} (hcall : s.call k = .readCopy n got)
    (hsome : s.pipe.nread ≠ s.pipe.nwrite) :
    PipeInv (s.advance.goto k (.readCopy n (got ++ [s.front]))) := by
  have hk : (s.call k).locked = true := by rw [hcall]; rfl
  have hother : ∀ k' n' got', k' ≠ k → s.call k' ≠ .readCopy n' got' := by
    intro k' n' got' ek e
    exact ek (h.locked_unique hk (by rw [e]; rfl))
  obtain ⟨q, hq, hacc⟩ := h.queue
  cases q with
  | nil => exact absurd (hq.nread_eq_iff.2 rfl) hsome
  | cons x q =>
    obtain ⟨hfront, hrest⟩ := Ring.Holds.pop hq pipesize_dvd
    have hx : s.front = x := hfront
    constructor
    · refine ⟨q, ?_, ?_⟩
      · have hnext : (s.pipe.nread + 1).toNat = (s.pipe.nread.toNat + 1) % 2 ^ 32 :=
          UInt32.toNat_add _ _
        rw [← hnext] at hrest
        exact hrest
      · simp [hacc, hx]
    · intro k'
      by_cases e : k' = k
      · simp [e, (h.lock k).2 hk]
      · simpa [e] using h.lock k'
    · intro k' n' got' e
      by_cases ek : k' = k
      · have hgot : got ++ [s.front] = got' := by
          simp [ek] at e
          exact e.2
        simp [← hgot, h.inHand k n got hcall]
      · exact absurd (by simpa [ek] using e) (hother k' n' got' ek)
    · intro hnone
      exact absurd (by simp) (hnone k n (got ++ [s.front]))
    · intro k' n' e
      by_cases ek : k' = k
      · simp [ek] at e
      · exact absurd (by simpa [ek] using e) (hother k' n' [] ek)

/-- The end of a call, or the start of a sleep, by the holder of the lock. -/
theorem leave {pos : PipeCall} (hk : (s.call k).locked = true) (hpos : pos.locked = false)
    (hsettled : s.consumed = s.returned) : PipeInv (s.leave k pos) := by
  refine h.of_release hk rfl rfl rfl rfl ?_ ?_ ?_
  · simp [hpos]
  · intro k' e
    simp [e]
  · exact hsettled.symm

theorem leave_of_call {c pos : PipeCall} (hcall : s.call k = c) (hc : c.locked = true)
    (hcopy : ∀ n got, c ≠ .readCopy n got) (hpos : pos.locked = false) :
    PipeInv (s.leave k pos) := by
  subst hcall
  exact h.leave hc hpos (h.settled_of_holder hc hcopy)

/-- `pipewrite` wakes the readers and stops. -/
theorem writeEnd {i : Nat} {pos : PipeCall} (hcall : s.call k = .writeLoop n i)
    (hpos : pos.locked = false) : PipeInv ((s.wakeup .nread).leave k pos) := by
  refine (h.wakeup .nread).leave_of_call (congrArg (·.wake .nread) hcall) rfl ?_ hpos
  simp [PipeCall.wake]

/-- The return of a read. -/
theorem readReturn {got : List UInt8} (hcall : s.call k = .readCopy n got) :
    PipeInv (((s.deliver got).wakeup .nwrite).leave k .idle) := by
  have hk : (s.call k).locked = true := by rw [hcall]; rfl
  refine h.of_release hk rfl rfl rfl rfl ?_ ?_ ?_
  · simp
  · intro k' e
    simp [e, PipeCall.wake_locked]
  · exact (h.inHand k n got hcall).symm

/-- **Every step keeps the invariant.** -/
theorem step {s' : PipeState κ} {ev : PipeEvent} (hstep : PipeStep s ev s') : PipeInv s' := by
  -- moving a call between positions without the lock
  have move : ∀ {k pos}, (s.call k).locked = false → pos.locked = false →
      PipeInv (s.goto k pos) := by
    intro k pos hk hpos
    refine h.of_quiet rfl rfl rfl rfl rfl ?_ ?_
    · intro k'
      by_cases e : k' = k
      · simp [e, hk, hpos]
      · simp [e]
    · intro k' n got
      by_cases e : k' = k
      · subst e
        constructor
        · intro ek
          simp at ek
          simp [ek] at hpos
        · intro ek
          simp [ek] at hk
      · simp [e]
  cases hstep with
  | @callWrite k n hcall hfreed => exact move (by rw [hcall]; rfl) rfl
  | @callRead k n hcall hfreed => exact move (by rw [hcall]; rfl) rfl
  | @acquire k pos hcall hlock => exact h.acquire hcall hlock
  | @writeStop k n i hcall hi hstop => exact h.leave_of_call hcall rfl (by simp) rfl
  | @writeSleep k n i hcall hi hopen hkilled hfull => exact h.writeEnd hcall rfl
  | @writeFault k n i hcall hi hopen hkilled hroom => exact h.writeEnd hcall rfl
  | @writeByte k n i ch hcall hi hopen hkilled hroom => exact h.writeByte ch hcall hroom
  | @writeDone k n i hcall hi => exact h.writeEnd hcall rfl
  | @readKilled k n hcall hempty hopen hkilled => exact h.leave_of_call hcall rfl (by simp) rfl
  | @readSleep k n hcall hempty hopen hkilled => exact h.leave_of_call hcall rfl (by simp) rfl
  | @readStart k n hcall hgo => exact h.readStart hcall hgo
  | @readByte k n got hcall hi hsome => exact h.readByte hcall hsome
  | @readFault k n got hcall hi hsome => exact h.readReturn hcall
  | @readDone k n got hcall hend => exact h.readReturn hcall
  | @close writable hlock hfreed hlast => exact h.close writable hlock
  | @kill k =>
    refine h.of_quiet rfl rfl rfl rfl rfl ?_ ?_
    · intro k'
      by_cases e : k' = k
      · simpa [e] using PipeCall.wakeKilled_locked (s.call k)
      · simp [e]
    · intro k' n got
      by_cases e : k' = k
      · subst e
        simpa using PipeCall.wakeKilled_readCopy
      · simp [e]

end

theorem of_init (hinit : (pipeSystem κ).init s) : PipeInv s := by
  obtain ⟨hread, hwrite, _, _, hlock, hidle, _, hacc, hcon, hret⟩ := hinit
  constructor
  · refine ⟨[], ?_, by simp [hacc, hcon]⟩
    unfold Pipe.Holds
    rw [hread, hwrite]
    exact Ring.Holds.nil (by decide) s.pipe.data
  · intro k
    simp [hlock, hidle k]
  · intro k n got e
    simp [hidle k] at e
  · intro _
    rw [hcon, hret]
  · intro k n e
    simp [hidle k] at e

theorem of_reachable (h : Reachable (pipeSystem κ) s) : PipeInv s := by
  apply h.invariant (P := PipeInv)
  · exact fun s hinit => of_init hinit
  · exact fun s ev s' _ hinv hstep => hinv.step hstep

end PipeInv

/-- **A pipe is a FIFO byte stream.**  In every state of every run the counters
are at most `PIPESIZE` apart; the bytes returned by reads are a prefix of those
consumed, which are a prefix of those accepted; and what is accepted but not
consumed is exactly what the ring holds, so nothing is lost, duplicated or
overwritten.  A read that returns reports the bytes it consumed last, and one
with `n > 0` returns `0` only with the write end closed and everything read. -/
theorem pipe_fifo {s : PipeState κ} (h : Reachable (pipeSystem κ) s) :
    (s.pipe.nwrite - s.pipe.nread).toNat ≤ PIPESIZE ∧
    s.returned <+: s.consumed ∧ s.consumed <+: s.accepted ∧
    (∃ q, s.accepted = s.consumed ++ q ∧ q.length = (s.pipe.nwrite - s.pipe.nread).toNat ∧
      ∀ i (hi : i < q.length),
        s.pipe.data (Ring.cell PIPESIZE (s.pipe.nread.toNat + i)) = q[i]) ∧
    ∀ n r got s', (pipeSystem κ).step s (.read n r got) s' →
      s'.returned = s.consumed ∧ s'.returned = s.returned ++ got ∧
      (r = got.length ∨ r = -1 ∧ got = []) ∧
      (0 < n → r = 0 → s.pipe.writeopen = false ∧ s.consumed = s.accepted) := by
  have hinv := PipeInv.of_reachable h
  obtain ⟨q, hq, hacc⟩ := hinv.queue
  have hdist := hq.distance
  refine ⟨?_, ?_, ?_, ?_, ?_⟩
  · rw [hdist]
    exact hq.length_le
  · by_cases hcopy : ∃ k n got, s.call k = .readCopy n got
    · obtain ⟨k, n, got, hk⟩ := hcopy
      exact ⟨got, (hinv.inHand k n got hk).symm⟩
    · have hsettled := hinv.settled fun k n got e => hcopy ⟨k, n, got, e⟩
      exact ⟨[], by rw [hsettled, List.append_nil]⟩
  · exact ⟨q, hacc.symm⟩
  · exact ⟨q, hacc, hdist.symm, hq.cells⟩
  · intro n r got s' hstep
    cases hstep with
    | @readKilled k _ hcall hempty hopen hkilled =>
      have hk : (s.call k).locked = true := by rw [hcall]; rfl
      have hsettled := hinv.settled_of_holder hk (by simp [hcall])
      refine ⟨hsettled.symm, by simp, .inr ⟨rfl, rfl⟩, ?_⟩
      intro _ hr
      omega
    | @readFault k _ _ hcall hi hsome =>
      refine ⟨(hinv.inHand k n got hcall).symm, rfl, ?_, ?_⟩
      · by_cases e : got.length = 0
        · exact .inr ⟨by simp [e], List.length_eq_zero_iff.1 e⟩
        · exact .inl (by simp [e])
      · intro _ hr
        split at hr <;> omega
    | @readDone k _ _ hcall hend =>
      refine ⟨(hinv.inHand k n got hcall).symm, rfl, .inl rfl, ?_⟩
      intro hn hr
      have hgot : got = [] := List.length_eq_zero_iff.1 (by omega)
      subst hgot
      have hempty : s.pipe.nread = s.pipe.nwrite := by
        rcases hend with hlt | hempty
        · simp at hlt
          omega
        · exact hempty
      have hnil : q = [] := hq.nread_eq_iff.1 hempty
      refine ⟨?_, by rw [hacc, hnil, List.append_nil]⟩
      rcases hinv.started k n hcall with hne | hclosed
      · exact absurd hempty hne
      · exact hclosed

/-- A new pipe between the processes `true` and `false`. -/
def newPipe : PipeState Bool where
  pipe := { data := fun _ => 5, nread := 0, nwrite := 0, readopen := true, writeopen := true }
  lock := none
  call _ := .idle
  killed _ := false
  freed := false
  accepted := []
  consumed := []
  returned := []

/-- One byte goes through the pipe. -/
theorem byte_passes : ∃ s : PipeState Bool, Reachable (pipeSystem Bool) s ∧
    s.accepted = [7] ∧ s.returned = [7] := by
  have h₀ : Reachable (pipeSystem Bool) newPipe := by
    apply Reachable.start
    exact ⟨rfl, rfl, rfl, rfl, rfl, fun _ => rfl, rfl, rfl, rfl, rfl⟩
  have h₁ := h₀.next (.callWrite (k := true) (n := 1) rfl rfl)
  have h₂ := h₁.next (.acquire (k := true) rfl rfl)
  have hroom : ¬ ((0 : UInt32) = 0 + UInt32.ofNat PIPESIZE) := by decide
  have h₃ := h₂.next (@PipeStep.writeByte Bool _ _ true 1 0 7 rfl (by decide) rfl rfl hroom)
  have h₄ := h₃.next (@PipeStep.writeDone Bool _ _ true 1 1 rfl (by decide))
  have h₅ := h₄.next (.callRead (k := false) (n := 10) rfl rfl)
  have h₆ := h₅.next (.acquire (k := false) rfl rfl)
  have hsome : ((0 : UInt32) ≠ 0 + 1) := by decide
  have h₇ := h₆.next (@PipeStep.readStart Bool _ _ false 10 rfl (.inl hsome))
  have h₈ := h₇.next (@PipeStep.readByte Bool _ _ false 10 [] rfl (by decide) hsome)
  have h₉ := h₈.next (@PipeStep.readDone Bool _ _ false 10 [7] rfl (.inr rfl))
  exact ⟨_, h₉, rfl, rfl⟩

theorem pipe_fifo_one_byte : ∃ s : PipeState Bool, Reachable (pipeSystem Bool) s ∧
    s.accepted = [7] ∧ s.returned = [7] ∧ s.consumed <+: s.accepted := by
  obtain ⟨s, hreach, hacc, hret⟩ := byte_passes
  exact ⟨s, hreach, hacc, hret, (pipe_fifo hreach).2.2.1⟩

end Fifo

end Kus.Stream
