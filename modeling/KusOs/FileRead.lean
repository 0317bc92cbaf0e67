import KusOs.Console
import KusOs.DirTree
import KusOs.Kmem
import KusOs.Pipe
import KusOs.SharedOffset

/-!
# Where a read puts its bytes

`sys_read` and `fileread` on every type of file, with the user addresses at which
`copyout` stores.

* A call on a pipe or on the console sleeps and is woken any number of times.  What it
  finds whenever it has the lock is free: the calls take a list of sights, and a call
  that has used them up is still asleep.
* `mem` says of an address whether `copyout` can store there when it is asked to; one
  that is not below `MAXVA` is refused, so no sum of addresses leaves 64 bits.

* `readiTo_eq` — `readi` with its addresses is the `readi` of `Volume`;
* `piperead_within`, `consoleread_within` — these two stay in the buffer for every count;
* `read_within_iff` — **a read stays in its buffer unless a negative count meets an offset
  smaller than its size**, and then it does not.
-/

namespace Kus.Read

open Hoare LittleEndian
open Fs (FsPanic)
open Volume (Vol VolM)
open Mkfs (slice)
open Console (ctrlD newline)

/-- The bytes a call has stored, with their addresses. -/
abbrev Stores := List (Nat × UInt8)

/-- Store `src` from address `dst` on, up to the first byte that is not accessible; the
result is whether there was none. -/
def copyout (mem : Nat → Bool) : Nat → List UInt8 → Bool × Stores
  | _, [] => (true, [])
  | dst, b :: src =>
    if dst < Vm.MAXVA ∧ mem dst = true then
      let (ok, stores) := copyout mem (dst + 1) src
      (ok, (dst, b) :: stores)
    else (false, [])

/-! ### Pipes -/

/-- What a process finds when it has `pi->lock`. -/
structure PipeSight where
  pipe : Stream.Pipe
  killed : Bool

/-- The second loop of `piperead`, which has copied `i` bytes. -/
def copyLoop (mem : Nat → Bool) (addr : Nat) (n : Int) : Nat → Nat → Stream.Pipe → Int × Stores
  | 0, i, _ => (i, [])
  | rounds + 1, i, pi =>
    if i < n then
      if pi.nread = pi.nwrite then (i, [])
      else
        let ch := pi.data (Ring.cell Stream.PIPESIZE pi.nread.toNat)
        match copyout mem (addr + i) [ch] with
        | (false, stores) => (if i = 0 then -1 else i, stores)
        | (true, stores) =>
          let (r, rest) := copyLoop mem addr n rounds (i + 1) { pi with nread := pi.nread + 1 }
          (r, stores ++ rest)
    else (i, [])

/-- What a call has done: the value it returned, if it has returned, and what it stored. -/
structure Outcome where
  result : Option Int
  stores : Stores

/-- `piperead`: sleep while the pipe is empty and has a writer, then copy. -/
def piperead (mem : Nat → Bool) (addr : Nat) (n : Int32) : List PipeSight → Outcome
  | [] => ⟨none, []⟩
  | s :: sights =>
    if s.pipe.nread = s.pipe.nwrite ∧ s.pipe.writeopen = true then
      if s.killed then ⟨some (-1), []⟩ else piperead mem addr n sights
    else
      let (r, stores) := copyLoop mem addr n.toInt n.toInt.toNat 0 s.pipe
      ⟨some r, stores⟩

/-! ### The console -/

/-- What a process finds when it has `cons.lock`. -/
structure ConsSight where
  cons : Console.Cons
  killed : Bool

/-- Where a `consoleread` is when it gives up the lock. -/
inductive Pause
  | returned (r : Int)
  /-- asleep, with its `dst` and `n` -/
  | asleep (dst : Nat) (n : Int)

/-- `target - n` as an `int`; `target` is unsigned. -/
def difference (target : UInt32) (n : Int) : Int := Int.bmod (target.toNat - n) (2 ^ 32)

/-- The loop of `consoleread` while it has the lock.  Every round takes a byte, so
`n` rounds are enough. -/
def consoleLoop (mem : Nat → Bool) (killed : Bool) (target : UInt32) :
    Nat → Nat → Int → Console.Cons → Pause × Stores
  | 0, _, n, _ => (.returned (difference target n), [])
  | rounds + 1, dst, n, s =>
    if 0 < n then
      if s.r = s.w then
        if killed then (.returned (-1), []) else (.asleep dst n, [])
      else
        let c := s.at s.r
        -- saving ^D for the next call changes nothing that this call does
        if c = ctrlD then (.returned (difference target n), [])
        else
          match copyout mem dst [c] with
          | (false, stores) => (.returned (difference target n), stores)
          | (true, stores) =>
            if c = newline then (.returned (difference target (n - 1)), stores)
            else
              let (p, rest) :=
                consoleLoop mem killed target rounds (dst + 1) (n - 1) { s with r := s.r + 1 }
              (p, stores ++ rest)
    else (.returned (difference target n), [])

/-- `consoleread` from address `dst` on, with `n` bytes to go. -/
def consoleRun (mem : Nat → Bool) (target : UInt32) : List ConsSight → Nat → Int → Outcome
  | [], _, _ => ⟨none, []⟩
  | s :: sights, dst, n =>
    match consoleLoop mem s.killed target n.toNat dst n s.cons with
    | (.returned r, stores) => ⟨some r, stores⟩
    | (.asleep dst n, stores) =>
      let rest := consoleRun mem target sights dst n
      ⟨rest.result, stores ++ rest.stores⟩

def consoleread (mem : Nat → Bool) (dst : Nat) (n : Int32) (sights : List ConsSight) : Outcome :=
  consoleRun mem n.toUInt32 sights dst n.toInt

/-! ### Inodes -/

/-- The loop of `readi`, with its `dst`, `off` and `tot`. -/
def readLoopTo (sb : Superblock) (i : Nat) (mem : Nat → Bool) (n : Nat) :
    Nat → Nat → Nat → Nat → VolM (Int × Stores)
  | 0, _, _, tot => pure (tot, [])
  | rounds + 1, dst, off, tot =>
    if tot < n then do
      let addr ← Volume.bmap sb i (off / BSIZE)
      if addr = 0 then pure (tot, [])
      else
        let v ← get
        let m := min (n - tot) (BSIZE - off % BSIZE)
        match copyout mem dst (slice (v.view addr) (off % BSIZE) m) with
        | (false, stores) => pure (-1, stores)
        | (true, stores) =>
          let (r, rest) ← readLoopTo sb i mem n rounds (dst + m) (off + m) (tot + m)
          pure (r, stores ++ rest)
    else pure (tot, [])

def readiTo (sb : Superblock) (i : Nat) (mem : Nat → Bool) (dst off n : Nat) :
    VolM (Int × Stores) := do
  let v ← get
  if (v.ip i).size < off ∨ (off + n) % 2 ^ 32 < off then pure (0, [])
  else
    let n := if (v.ip i).size < off + n then (v.ip i).size - off else n
    readLoopTo sb i mem n n dst off 0

/-! ### Files -/

def CONSOLE : Int16 := 1

/-- `f->type`, with the field it goes with. -/
inductive FileType
  | pipe
  | device (major : Int16)
  | inode (ip : Nat)

structure File where
  readable : Bool
  type : FileType
  off : UInt32

/-- What a call meets: the user's memory, what it finds in the pipe and in the console
whenever it has their lock, and the volume. -/
structure Scene where
  mem : Nat → Bool
  pipes : List PipeSight
  consoles : List ConsSight
  vol : Vol

/-- `devsw[major].read` is set for the console only. -/
def hasRead (major : Int16) : Bool := major = CONSOLE

def fileread (sb : Superblock) (w : Scene) (f : File) (addr : Nat) (n : Int32) :
    Except FsPanic (Outcome × File × Vol) :=
  if f.readable = false then .ok (⟨some (-1), []⟩, f, w.vol)
  else
    match f.type with
    | .pipe => .ok (piperead w.mem addr n w.pipes, f, w.vol)
    | .device major =>
      if major < 0 ∨ Dir.NDEV ≤ major ∨ hasRead major = false then .ok (⟨some (-1), []⟩, f, w.vol)
      else .ok (consoleread w.mem addr n w.consoles, f, w.vol)
    | .inode ip =>
      match (do Volume.ilock ip; readiTo sb ip w.mem addr f.off.toNat n.toUInt32.toNat) w.vol with
      | .error e => .error e
      | .ok ((r, stores), v) =>
        let f := if 0 < r then { f with off := f.off + UInt32.ofNat r.toNat } else f
        .ok (⟨some r, stores⟩, f, v)

/-- The open file of a descriptor, which is an `int` in an argument register. -/
def argfd (ofile : Fin Dir.NOFILE → Option File) (a : UInt64) : Option File :=
  let fd := a.toUInt32.toInt32.toInt
  if h : 0 ≤ fd ∧ fd < Dir.NOFILE then ofile ⟨fd.toNat, by omega⟩ else none

/-- `argint`. -/
def argint (a : UInt64) : Int32 := a.toUInt32.toInt32

/-- `sys_read` with its three argument registers. -/
def sysRead (sb : Superblock) (w : Scene) (ofile : Fin Dir.NOFILE → Option File)
    (a0 a1 a2 : UInt64) : Except FsPanic (Outcome × Vol) :=
  match argfd ofile a0 with
  | none => .ok (⟨some (-1), []⟩, w.vol)
  | some f =>
    match fileread sb w f a1.toNat (argint a2) with
    | .error e => .error e
    | .ok (o, _, v) => .ok (o, v)

/-! ### Staying in the buffer -/

/-- At most `m` bytes, all of them in the `m` bytes from address `a` on. -/
def Confined (a m : Nat) (stores : Stores) : Prop :=
  stores.length ≤ m ∧ ∀ p ∈ stores, a ≤ p.1 ∧ p.1 < a + m

section Confined

variable {a m : Nat} {stores rest : Stores}

theorem Confined.nil (a m : Nat) : Confined a m [] := ⟨Nat.zero_le _, nofun⟩

theorem Confined.append {k : Nat} (h : Confined a k stores) (h' : Confined (a + k) m rest) :
    Confined a (k + m) (stores ++ rest) := by
  refine ⟨?_, ?_⟩
  · rw [List.length_append]
    exact Nat.add_le_add h.1 h'.1
  · intro p hp
    rcases List.mem_append.1 hp with hp | hp
    · have hin := h.2 p hp
      omega
    · have hin := h'.2 p hp
      omega

theorem Confined.mono {k : Nat} (h : Confined a m stores) (hle : m ≤ k) : Confined a k stores := by
  refine ⟨h.1.trans hle, ?_⟩
  intro p hp
  have hin := h.2 p hp
  omega

/-- One byte is stored, or none. -/
theorem copyout_one (mem : Nat → Bool) (dst : Nat) (c : UInt8) :
    copyout mem dst [c] = (true, [(dst, c)]) ∨ copyout mem dst [c] = (false, []) := by
  unfold copyout
  by_cases h : dst < Vm.MAXVA ∧ mem dst = true
  · exact .inl (if_pos h)
  · exact .inr (if_neg h)

theorem Confined.one (dst : Nat) (c : UInt8) : Confined dst 1 [(dst, c)] := by
  refine ⟨Nat.le_refl _, ?_⟩
  intro p hp
  rw [List.mem_singleton.1 hp]
  exact ⟨Nat.le_refl _, Nat.lt_succ_self _⟩

end Confined

section Pipes

variable {mem : Nat → Bool} {addr : Nat}

theorem copyLoop_within {n : Int} (rounds i : Nat) (hi : i ≤ n.toNat) (pi : Stream.Pipe) :
    Confined (addr + i) (n.toNat - i) (copyLoop mem addr n rounds i pi).2 ∧
      (copyLoop mem addr n rounds i pi).1 ≤ n.toNat := by
  induction rounds generalizing i pi with
  | zero => exact ⟨.nil _ _, Int.ofNat_le.2 hi⟩
  | succ rounds ih =>
    unfold copyLoop
    by_cases hlt : (i : Int) < n
    · rw [if_pos hlt]
      by_cases hempty : pi.nread = pi.nwrite
      · rw [if_pos hempty]
        exact ⟨.nil _ _, Int.ofNat_le.2 hi⟩
      rw [if_neg hempty]
      have hnext : i + 1 ≤ n.toNat := by omega
      rcases copyout_one mem (addr + i) (pi.data (Ring.cell Stream.PIPESIZE pi.nread.toNat)) with
        hcopy | hcopy
      · simp only [hcopy]
        obtain ⟨hrest, hr⟩ := ih (i + 1) hnext { pi with nread := pi.nread + 1 }
        refine ⟨?_, hr⟩
        have hboth := (Confined.one (addr + i)
          (pi.data (Ring.cell Stream.PIPESIZE pi.nread.toNat))).append hrest
        rwa [show 1 + (n.toNat - (i + 1)) = n.toNat - i by omega] at hboth
      simp only [hcopy]
      refine ⟨.nil _ _, ?_⟩
      split <;> omega
    · rw [if_neg hlt]
      exact ⟨.nil _ _, Int.ofNat_le.2 hi⟩

/-- The call keeps to its buffer. -/
def Outcome.Within (o : Outcome) (addr : Nat) (n : Int32) : Prop :=
  Confined addr n.toInt.toNat o.stores ∧ ∀ r, o.result = some r → r ≤ n.toInt.toNat

theorem within_failed (addr : Nat) (n : Int32) : (⟨some (-1), []⟩ : Outcome).Within addr n := by
  refine ⟨.nil _ _, ?_⟩
  intro r hr
  cases hr
  omega

theorem piperead_within (n : Int32) (sights : List PipeSight) :
    (piperead mem addr n sights).Within addr n := by
  induction sights with
  | nil => exact ⟨.nil _ _, nofun⟩
  | cons s sights ih =>
    unfold piperead
    by_cases hwait : s.pipe.nread = s.pipe.nwrite ∧ s.pipe.writeopen = true
    · rw [if_pos hwait]
      by_cases hkilled : s.killed = true
      · rw [if_pos hkilled]
        exact within_failed addr n
      · rw [if_neg hkilled]
        exact ih
    rw [if_neg hwait]
    obtain ⟨hin, hr⟩ := @copyLoop_within mem addr n.toInt n.toInt.toNat 0 (Nat.zero_le _) s.pipe
    refine ⟨hin, ?_⟩
    intro r heq
    cases heq
    exact hr

end Pipes

section Consoles

variable {mem : Nat → Bool} {target : UInt32}

theorem difference_eq {n : Int} (hn : 0 ≤ n) (hle : n ≤ target.toNat)
    (hpos : target.toNat < 2 ^ 31) : difference target n = target.toNat - n := by
  unfold difference
  apply Int.bmod_eq_of_le <;> omega

/-- What holds when the loop gives up the lock with `n` bytes to go. -/
def Paused (target : UInt32) (dst : Nat) (n : Int) : Pause × Stores → Prop
  | (.returned r, stores) => Confined dst n.toNat stores ∧ r ≤ target.toNat
  | (.asleep dst' n', stores) => 0 ≤ n' ∧ n' ≤ n ∧ dst' = dst + (n - n').toNat ∧
      Confined dst (n - n').toNat stores

theorem consoleLoop_within (hpos : target.toNat < 2 ^ 31) (killed : Bool) (rounds dst : Nat)
    (n : Int) (hn : 0 ≤ n) (hle : n ≤ target.toNat) (s : Console.Cons) :
    Paused target dst n (consoleLoop mem killed target rounds dst n s) := by
  have hback : ∀ k : Int, 0 ≤ k → k ≤ target.toNat → difference target k ≤ target.toNat := by
    intro k hk hk'
    rw [difference_eq hk hk' hpos]
    omega
  induction rounds generalizing dst n s with
  | zero => exact ⟨.nil _ _, hback n hn hle⟩
  | succ rounds ih =>
    unfold consoleLoop
    by_cases hmore : 0 < n
    · rw [if_pos hmore]
      by_cases hempty : s.r = s.w
      · rw [if_pos hempty]
        by_cases hkilled : killed = true
        · rw [if_pos hkilled]
          exact ⟨.nil _ _, by omega⟩
        · rw [if_neg hkilled]
          exact ⟨hn, Int.le_refl _, by simp, .nil _ _⟩
      rw [if_neg hempty]
      simp only
      by_cases hd : s.at s.r = ctrlD
      · rw [if_pos hd]
        exact ⟨.nil _ _, hback n hn hle⟩
      rw [if_neg hd]
      have hone : 1 ≤ n.toNat := by omega
      rcases copyout_one mem dst (s.at s.r) with hcopy | hcopy
      · simp only [hcopy]
        by_cases hline : s.at s.r = newline
        · rw [if_pos hline]
          exact ⟨(Confined.one dst _).mono hone, hback (n - 1) (by omega) (by omega)⟩
        rw [if_neg hline]
        have hrest := ih (dst + 1) (n - 1) (by omega) (by omega) { s with r := s.r + 1 }
        generalize consoleLoop mem killed target rounds (dst + 1) (n - 1)
          { s with r := s.r + 1 } = out at hrest ⊢
        obtain ⟨p, stores⟩ := out
        cases p with
        | returned r =>
          refine ⟨?_, hrest.2⟩
          have hboth := (Confined.one dst (s.at s.r)).append hrest.1
          exact hboth.mono (by omega)
        | asleep dst' n' =>
          obtain ⟨h0, hn', hdst, hin⟩ := hrest
          have hboth := (Confined.one dst (s.at s.r)).append hin
          exact ⟨h0, by omega, by omega, hboth.mono (by omega)⟩
      · simp only [hcopy]
        exact ⟨.nil _ _, hback n hn hle⟩
    · rw [if_neg hmore]
      exact ⟨.nil _ _, hback n hn hle⟩

theorem consoleRun_within (hpos : target.toNat < 2 ^ 31) (sights : List ConsSight) (dst : Nat)
    (n : Int) (hn : 0 ≤ n) (hle : n ≤ target.toNat) :
    Confined dst n.toNat (consoleRun mem target sights dst n).stores ∧
      ∀ r, (consoleRun mem target sights dst n).result = some r → r ≤ target.toNat := by
  induction sights generalizing dst n with
  | nil => exact ⟨.nil _ _, nofun⟩
  | cons s sights ih =>
    unfold consoleRun
    have hloop := @consoleLoop_within mem target hpos s.killed n.toNat dst n hn hle s.cons
    generalize consoleLoop mem s.killed target n.toNat dst n s.cons = out at hloop ⊢
    obtain ⟨p, stores⟩ := out
    cases p with
    | returned r =>
      refine ⟨hloop.1, ?_⟩
      intro r' hr'
      cases hr'
      exact hloop.2
    | asleep dst' n' =>
      obtain ⟨h0, hn', hdst, hin⟩ := hloop
      have hsum : (n - n').toNat + n'.toNat ≤ n.toNat := by omega
      obtain ⟨hrest, hr⟩ := ih dst' n' h0 (by omega)
      subst hdst
      exact ⟨(hin.append hrest).mono hsum, hr⟩

/-- A count as it is converted to `uint`. -/
theorem toUInt32_eq (n : Int32) :
    (n.toUInt32.toNat : Int) = if 0 ≤ n.toInt then n.toInt else n.toInt + 2 ^ 32 := by
  have hint : n.toInt = n.toBitVec.toInt := rfl
  have hnat : n.toUInt32.toNat = n.toBitVec.toNat := rfl
  have hlt := n.toBitVec.isLt
  rw [hint, hnat, BitVec.toInt_eq_toNat_cond]
  split <;> omega

theorem consoleread_within (dst : Nat) (n : Int32) (sights : List ConsSight) :
    (consoleread mem dst n sights).Within dst n := by
  unfold consoleread
  by_cases hn : 0 ≤ n.toInt
  · have htarget := toUInt32_eq n
    rw [if_pos hn] at htarget
    have hlt : n.toInt < 2 ^ 31 := n.toInt_lt
    obtain ⟨hin, hr⟩ := @consoleRun_within mem n.toUInt32 (by omega) sights dst n.toInt hn
      (by omega)
    refine ⟨hin, ?_⟩
    intro r hres
    have hle := hr r hres
    omega
  -- the loop is not entered, and `target - n` is zero
  cases sights with
  | nil => exact ⟨.nil _ _, nofun⟩
  | cons s sights =>
    have hzero : n.toInt.toNat = 0 := by omega
    have hdiff : difference n.toUInt32 n.toInt = 0 := by
      have htarget := toUInt32_eq n
      rw [if_neg hn] at htarget
      have hwrap : (n.toUInt32.toNat : Int) - n.toInt = 2 ^ 32 := by omega
      unfold difference
      rw [hwrap]
      rfl
    unfold consoleRun
    rw [hzero]
    refine ⟨.nil _ _, ?_⟩
    intro r hr
    have hr' : difference n.toUInt32 n.toInt = r := Option.some.inj hr
    omega

end Consoles

section Inodes

variable {mem : Nat → Bool} {sb : Superblock} {v : Vol} {i : Nat}

/-- How many of the `n` bytes from address `a` on can be stored before one cannot. -/
def span (mem : Nat → Bool) : Nat → Nat → Nat
  | _, 0 => 0
  | a, n + 1 => if a < Vm.MAXVA ∧ mem a = true then span mem (a + 1) n + 1 else 0

theorem span_le (mem : Nat → Bool) (a n : Nat) : span mem a n ≤ n := by
  induction n generalizing a with
  | zero => exact Nat.le_refl _
  | succ n ih =>
    unfold span
    split
    · exact Nat.succ_le_succ (ih (a + 1))
    · exact Nat.zero_le _

/-- The rest of what can be stored, after the first `k` bytes. -/
theorem span_rest {a n k m : Nat} (hk : k ≤ span mem a n) (hm : k + m ≤ n) :
    span mem (a + k) m = min m (span mem a n - k) := by
  induction k generalizing a n with
  | zero =>
    induction m generalizing a n with
    | zero => simp [span]
    | succ m ih =>
      obtain ⟨n, rfl⟩ := Nat.exists_eq_succ_of_ne_zero (show n ≠ 0 by omega)
      rw [Nat.add_zero]
      unfold span
      split
      · have hrest := @ih (a + 1) n (Nat.zero_le _) (by omega)
        rw [Nat.add_zero] at hrest
        omega
      · omega
  | succ k ih =>
    obtain ⟨n, rfl⟩ := Nat.exists_eq_succ_of_ne_zero (show n ≠ 0 by omega)
    by_cases hmem : a < Vm.MAXVA ∧ mem a = true
    · have hstep : span mem a (n + 1) = span mem (a + 1) n + 1 := if_pos hmem
      rw [hstep] at hk ⊢
      have hrest := @ih (a + 1) n (by omega) (by omega)
      rw [Nat.add_right_comm, Nat.add_assoc] at hrest
      rw [hrest]
      omega
    have hstep : span mem a (n + 1) = 0 := if_neg hmem
    rw [hstep] at hk
    omega

/-- The bytes `bs` at consecutive addresses. -/
def placed : Nat → List UInt8 → Stores
  | _, [] => []
  | a, b :: bs => (a, b) :: placed (a + 1) bs

theorem length_placed (a : Nat) (bs : List UInt8) : (placed a bs).length = bs.length := by
  induction bs generalizing a with
  | nil => rfl
  | cons b bs ih => exact congrArg Nat.succ (ih (a + 1))

theorem placed_append (a : Nat) (bs cs : List UInt8) :
    placed a (bs ++ cs) = placed a bs ++ placed (a + bs.length) cs := by
  induction bs generalizing a with
  | nil => rfl
  | cons b bs ih =>
    have hrest := ih (a + 1)
    rw [Nat.add_right_comm] at hrest
    exact congrArg ((a, b) :: ·) hrest

theorem copyout_eq (mem : Nat → Bool) (dst : Nat) (src : List UInt8) :
    copyout mem dst src = (decide (src.length ≤ span mem dst src.length),
      placed dst (src.take (span mem dst src.length))) := by
  induction src generalizing dst with
  | nil => rfl
  | cons b src ih =>
    rw [List.length_cons]
    unfold copyout span
    by_cases hmem : dst < Vm.MAXVA ∧ mem dst = true
    · rw [if_pos hmem, if_pos hmem, ih (dst + 1)]
      simp [placed]
    · rw [if_neg hmem, if_neg hmem]
      simp [placed]

theorem length_slice (buf : Buffer) (o m : Nat) : (slice buf o m).length = m := by
  simp [slice]

theorem take_slice (buf : Buffer) (o m k : Nat) :
    (slice buf o m).take k = slice buf o (min k m) := by
  simp [slice, ← List.map_take, List.take_range]

/-- The loop keeps what it has stored. -/
theorem readLoop_keeps {n limit : Nat} (rounds off : Nat) (got : List UInt8) (v : Vol) :
    Triple (fun u => u = v) (Volume.readLoop sb i n limit rounds off got)
      (fun out _ => got <+: out.1) fun _ => True := by
  induction rounds generalizing off got v with
  | zero => exact fun _ _ => List.prefix_refl got
  | succ rounds ih =>
    unfold Volume.readLoop
    apply Triple.ite
    · intro _
      have hmap : Triple (fun u => u = v) (Volume.bmap sb i (off / BSIZE))
          (fun _ _ => True) fun _ => True := by
        intro u _
        split <;> trivial
      apply Triple.bind hmap
      intro addr
      apply Triple.ite
      · exact fun _ _ _ => List.prefix_refl got
      intro _
      apply Triple.get_bind
      intro u _
      apply Triple.ite
      · intro _
        refine .conseq (ih _ _ u) (fun _ h => h) ?_ fun _ h => h
        intro out _ hout
        exact (List.prefix_append _ _).trans hout
      · exact fun _ _ _ => List.prefix_append _ _
    · exact fun _ _ _ => List.prefix_refl got

/-- **The loop of `readi`** does what the loop of `Volume.readi` does for a destination
that takes as many bytes as can be stored in a row. -/
theorem readLoopTo_eq {n : Nat} (dst rounds off : Nat) (got : List UInt8)
    (hgot : got.length ≤ span mem dst n) (v : Vol) :
    readLoopTo sb i mem n rounds (dst + got.length) off got.length v =
      (Volume.readLoop sb i n (span mem dst n) rounds off got v).map fun out =>
        ((if out.1.2 then (out.1.1.length : Int) else -1,
          placed (dst + got.length) (out.1.1.drop got.length)), out.2) := by
  induction rounds generalizing off got v with
  | zero =>
    change Except.ok _ = Except.ok _
    simp [placed]
  | succ rounds ih =>
    unfold readLoopTo Volume.readLoop
    by_cases hmore : got.length < n
    · rw [if_pos hmore, if_pos hmore]
      cases hmap : Volume.bmap sb i (off / BSIZE) v with
      | error e =>
        rw [run_bind_error hmap, run_bind_error hmap]
        rfl
      | ok out =>
        obtain ⟨addr, u⟩ := out
        rw [run_bind_ok hmap, run_bind_ok hmap]
        by_cases haddr : addr = 0
        · rw [if_pos haddr, if_pos haddr]
          change Except.ok _ = Except.ok _
          simp [placed]
        rw [if_neg haddr, if_neg haddr, run_get, run_get]
        simp only
        generalize hm : min (n - got.length) (BSIZE - off % BSIZE) = m
        have hspan := @span_rest mem dst n got.length m hgot (by omega)
        rw [copyout_eq, length_slice, hspan, take_slice]
        by_cases hok : got.length + m ≤ span mem dst n
        · have hall : min m (span mem dst n - got.length) = m := by omega
          rw [if_pos hok, hall, decide_eq_true (Nat.le_refl m), Nat.min_self]
          have hlen : (got ++ slice (u.view addr) (off % BSIZE) m).length = got.length + m := by
            rw [List.length_append, length_slice]
          have hrest := ih (off + m) (got ++ slice (u.view addr) (off % BSIZE) m) (by omega) u
          rw [hlen, ← Nat.add_assoc] at hrest
          cases hloop : Volume.readLoop sb i n (span mem dst n) rounds (off + m)
              (got ++ slice (u.view addr) (off % BSIZE) m) u with
          | error e =>
            rw [hloop] at hrest
            exact run_bind_error hrest
          | ok out =>
            rw [hloop] at hrest
            refine (run_bind_ok hrest).trans ?_
            obtain ⟨⟨g, ok⟩, w⟩ := out
            obtain ⟨more, hmore⟩ := (readLoop_keeps _ _ _ u).of_ok rfl hloop
            change Except.ok _ = Except.ok _
            have hg : g = got ++ (slice (u.view addr) (off % BSIZE) m ++ more) := by
              rw [← List.append_assoc]
              exact hmore.symm
            have htail : g.drop (got.length + m) = more := by
              rw [hg, ← List.append_assoc, ← hlen, List.drop_left]
            have hhead : g.drop got.length = slice (u.view addr) (off % BSIZE) m ++ more := by
              rw [hg, List.drop_left]
            simp only [htail, hhead, placed_append, length_slice]
        · have hsome : ¬ m ≤ min m (span mem dst n - got.length) := by omega
          rw [if_neg hok, decide_eq_false hsome]
          change Except.ok _ = Except.ok _
          simp
    · rw [if_neg hmore, if_neg hmore]
      change Except.ok _ = Except.ok _
      simp [placed]

/-- `readi` refuses. -/
theorem readiTo_reject {dst off n : Nat} (hbad : ¬ (off ≤ v.size i ∧ off + n < 2 ^ 32))
    (hoff : off < 2 ^ 32) (hn : n < 2 ^ 32) : readiTo sb i mem dst off n v = .ok ((0, []), v) := by
  change (if v.size i < off ∨ (off + n) % 2 ^ 32 < off then _ else _ : VolM (Int × Stores)) v = _
  rw [if_pos (by omega)]
  rfl

/-- **`readi`** on a consistent volume stores the bytes of the file from its destination on. -/
theorem readiTo_eq {L : List Nat} {dst off n : Nat} (h : Volume.Held sb L v) (hi : i ∈ L)
    (hoff : off ≤ v.size i) (hsum : off + n < 2 ^ 32) :
    readiTo sb i mem dst off n v =
      .ok ((if min n (v.size i - off) ≤ span mem dst (min n (v.size i - off)) then
          (min n (v.size i - off) : Nat) else -1,
        placed dst (v.bytes i off (span mem dst (min n (v.size i - off))))), v) := by
  have hfilled : ∀ k, k < off + min n (v.size i - off) → v.block i (k / BSIZE) ≠ 0 := by
    intro k hk
    exact (h.maps hi).filled (by omega)
  have hclip : (if v.size i < off + n then v.size i - off else n) = min n (v.size i - off) := by
    by_cases hbig : v.size i < off + n
    · rw [if_pos hbig]
      omega
    · rw [if_neg hbig]
      omega
  change (if v.size i < off ∨ (off + n) % 2 ^ 32 < off then _ else _ : VolM (Int × Stores)) v = _
  rw [Nat.mod_eq_of_lt hsum, if_neg (by omega)]
  change readLoopTo sb i mem (if v.size i < off + n then v.size i - off else n)
    (if v.size i < off + n then v.size i - off else n) dst off 0 v = _
  rw [hclip]
  generalize min n (v.size i - off) = total at *
  have hspan := span_le mem dst total
  have hloop := Volume.readLoop_spec sb (span mem dst total) (i := i) hfilled (Nat.zero_le _)
    (Nat.zero_le _) (Nat.le_refl _)
  have hrun := @readLoopTo_eq mem sb i total dst total off [] (Nat.zero_le _) v
  rw [Nat.sub_zero] at hloop
  have hmin : min total (span mem dst total) = span mem dst total := Nat.min_eq_right hspan
  have hnil : v.bytes i off 0 = [] := rfl
  rw [hnil, hmin] at hloop
  rw [List.length_nil, Nat.add_zero] at hrun
  rw [Nat.add_zero] at hloop
  rw [hrun, hloop]
  change Except.ok _ = Except.ok _
  by_cases hall : total ≤ span mem dst total
  · have heq : span mem dst total = total := by omega
    simp [heq]
  · simp [hall]

end Inodes

section Files

variable {sb : Superblock} {w : Scene} {f : File}

/-- The count is negative and the offset is smaller than its size and inside the file,
whose next byte can be stored. -/
def Overruns (w : Scene) (f : File) (addr : Nat) (n : Int32) : Prop :=
  f.readable = true ∧ ∃ ip, f.type = .inode ip ∧ n.toInt < 0 ∧ (f.off.toNat : Int) < -n.toInt ∧
    f.off.toNat < w.vol.size ip ∧ addr < Vm.MAXVA ∧ w.mem addr = true

theorem placed_confined (a : Nat) (bs : List UInt8) : Confined a bs.length (placed a bs) := by
  refine ⟨Nat.le_of_eq (length_placed a bs), ?_⟩
  induction bs generalizing a with
  | nil => exact nofun
  | cons b bs ih =>
    intro p hp
    rcases List.mem_cons.1 hp with hp | hp
    · rw [hp]
      simp
    have hin := ih (a + 1) p hp
    rw [List.length_cons]
    omega

theorem span_pos {mem : Nat → Bool} {a n : Nat} (hn : 0 < n) :
    0 < span mem a n ↔ a < Vm.MAXVA ∧ mem a = true := by
  obtain ⟨m, rfl⟩ := Nat.exists_eq_succ_of_ne_zero (Nat.ne_of_gt hn)
  unfold span
  by_cases hmem : a < Vm.MAXVA ∧ mem a = true
  · rw [if_pos hmem]
    exact ⟨fun _ => hmem, fun _ => Nat.succ_pos _⟩
  · rw [if_neg hmem]
    exact ⟨fun h => absurd h (Nat.lt_irrefl 0), fun h => absurd h hmem⟩

theorem size_le {v : Vol} {L : List Nat} {ip : Nat} (h : Volume.Held sb L v) (hip : ip ∈ L) :
    v.size ip ≤ MAXFILE * BSIZE := by
  by_cases hzero : v.size ip = 0
  · rw [hzero]
    exact Nat.zero_le _
  have hlast : v.block ip ((v.size ip - 1) / BSIZE) ≠ 0 := (h.maps hip).filled (by omega)
  obtain ⟨x, hx, _⟩ := Vol.block_ne_zero hlast
  have hbn := Volume.lt_of_dataPlace hx
  have hlt := (Nat.div_lt_iff_lt_mul (show 0 < BSIZE by decide)).1 hbn
  omega

/-- A read of an inode. -/
theorem inode_within_iff {v : Vol} {L : List Nat} {ip addr off : Nat} {mem : Nat → Bool} {n : Int32}
    (h : Volume.Held sb L v) (hip : ip ∈ L) (hoff : off < 2 ^ 32) :
    ∃ r stores, readiTo sb ip mem addr off n.toUInt32.toNat v = .ok ((r, stores), v) ∧
      ((⟨some r, stores⟩ : Outcome).Within addr n ↔ ¬ (n.toInt < 0 ∧ (off : Int) < -n.toInt ∧
        off < v.size ip ∧ addr < Vm.MAXVA ∧ mem addr = true)) := by
  have hcount := toUInt32_eq n
  have hn32 : n.toUInt32.toNat < 2 ^ 32 := n.toUInt32.toNat_lt
  have hsize : v.size ip ≤ 274432 := size_le h hip
  have hlow : -(2 ^ 31 : Int) ≤ n.toInt := n.le_toInt
  by_cases hok : off ≤ v.size ip ∧ off + n.toUInt32.toNat < 2 ^ 32
  · rw [readiTo_eq h hip hok.1 hok.2]
    refine ⟨_, _, rfl, ?_⟩
    generalize htotal : min n.toUInt32.toNat (v.size ip - off) = total
    have hspan := span_le mem addr total
    have hplaced := placed_confined addr (v.bytes ip off (span mem addr total))
    rw [Volume.Vol.length_bytes] at hplaced
    by_cases hn : 0 ≤ n.toInt
    · rw [if_pos hn] at hcount
      refine ⟨fun _ hbad => by omega, fun _ => ⟨hplaced.mono (by omega), ?_⟩⟩
      intro r hr
      have hr' := Option.some.inj hr
      split at hr' <;> omega
    -- the whole rest of the file is read
    rw [if_neg hn] at hcount
    have hrest : total = v.size ip - off := by omega
    have hroom : n.toInt.toNat = 0 := by omega
    constructor
    · intro hin hbad
      have hpos := (@span_pos mem addr total (by omega)).2 hbad.2.2.2
      have hlen := hin.1.1
      rw [length_placed, Volume.Vol.length_bytes] at hlen
      omega
    · intro hgood
      have hnone : span mem addr total = 0 := by
        by_cases hempty : total = 0
        · omega
        by_contra hsome
        have hmem := (@span_pos mem addr total (by omega)).1 (by omega)
        exact hgood ⟨by omega, by omega, by omega, hmem⟩
      refine ⟨hplaced.mono (by omega), ?_⟩
      intro r hr
      have hr' := Option.some.inj hr
      split at hr' <;> omega
  · refine ⟨0, [], readiTo_reject hok hoff hn32, ?_⟩
    have hin : (⟨some 0, []⟩ : Outcome).Within addr n := by
      refine ⟨.nil _ _, ?_⟩
      intro r hr
      have hr' := Option.some.inj hr
      omega
    refine ⟨fun _ hbad => ?_, fun _ => hin⟩
    have hn : ¬ 0 ≤ n.toInt := by omega
    rw [if_neg hn] at hcount
    omega

theorem fileread_within_iff (hv : Volume.Held sb [] w.vol)
    (hf : ∀ ip, f.type = .inode ip → w.vol.Allocated ip) (addr : Nat) (n : Int32) :
    ∃ o f' v, fileread sb w f addr n = .ok (o, f', v) ∧
      (o.Within addr n ↔ ¬ Overruns w f addr n) := by
  unfold fileread
  by_cases hreadable : f.readable = false
  · rw [if_pos hreadable]
    refine ⟨_, f, w.vol, rfl, fun _ hbad => ?_, fun _ => within_failed addr n⟩
    rw [hbad.1] at hreadable
    cases hreadable
  rw [if_neg hreadable]
  cases htype : f.type with
  | pipe =>
    refine ⟨_, f, w.vol, rfl, fun _ hbad => ?_, fun _ => piperead_within n w.pipes⟩
    obtain ⟨_, ip, hip, _⟩ := hbad
    rw [htype] at hip
    cases hip
  | device major =>
    have hnot : ¬ Overruns w f addr n := by
      intro hbad
      obtain ⟨_, ip, hip, _⟩ := hbad
      rw [htype] at hip
      cases hip
    simp only
    by_cases hmajor : major < 0 ∨ Dir.NDEV ≤ major ∨ hasRead major = false
    · rw [if_pos hmajor]
      exact ⟨_, f, w.vol, rfl, fun _ => hnot, fun _ => within_failed addr n⟩
    · rw [if_neg hmajor]
      exact ⟨_, f, w.vol, rfl, fun _ => hnot, fun _ => consoleread_within addr n w.consoles⟩
  | inode ip =>
    obtain ⟨v, hlock, hheld, hsame⟩ := Volume.ilock_spec hv (hf ip htype)
    obtain ⟨r, stores, hread, hiff⟩ := @inode_within_iff sb v [ip] ip addr f.off.toNat w.mem n
      hheld List.mem_cons_self f.off.toNat_lt
    have hrun : (do Volume.ilock ip; readiTo sb ip w.mem addr f.off.toNat n.toUInt32.toNat)
        w.vol = .ok ((r, stores), v) := (run_bind_ok hlock).trans hread
    simp only [hrun]
    refine ⟨_, _, v, rfl, hiff.trans (not_congr ?_)⟩
    have hsize : v.size ip = w.vol.size ip := hsame.size ip
    rw [hsize]
    constructor
    · intro hbad
      exact ⟨Bool.eq_true_of_not_eq_false hreadable, ip, htype, hbad⟩
    · intro hbad
      obtain ⟨_, ip', hip', hrest⟩ := hbad
      have hsameIp : ip' = ip := by
        rw [htype] at hip'
        cases hip'
        rfl
      rw [hsameIp] at hrest
      exact hrest

/-- **When a read stays in its buffer.**  On a consistent volume `sys_read` returns or
sleeps; it stores at most as many bytes as the count, none if the count is negative, all
in the buffer, and returns no more than that, if and only if it is not a read of an inode
with a negative count whose offset is smaller than the size of the count and inside the
file, into memory that takes a byte. -/
theorem read_within_iff (sb : Superblock) (w : Scene) (hv : Volume.Held sb [] w.vol)
    (ofile : Fin Dir.NOFILE → Option File)
    (hf : ∀ fd f ip, ofile fd = some f → f.type = .inode ip → w.vol.Allocated ip)
    (a0 a1 a2 : UInt64) :
    ∃ o v, sysRead sb w ofile a0 a1 a2 = .ok (o, v) ∧
      (o.Within a1.toNat (argint a2) ↔
        ∀ f, argfd ofile a0 = some f → ¬ Overruns w f a1.toNat (argint a2)) := by
  unfold sysRead
  cases hfd : argfd ofile a0 with
  | none =>
    refine ⟨_, w.vol, rfl, ?_⟩
    constructor
    · intro _ f hnone
      cases hnone
    · exact fun _ => within_failed _ _
  | some f =>
    have halloc : ∀ ip, f.type = .inode ip → w.vol.Allocated ip := by
      intro ip hip
      unfold argfd at hfd
      simp only at hfd
      split at hfd
      · exact hf _ f ip hfd hip
      · cases hfd
    obtain ⟨o, f', v, hrun, hiff⟩ := fileread_within_iff hv halloc a1.toNat (argint a2)
    simp only [hrun]
    refine ⟨o, v, rfl, hiff.trans ?_⟩
    constructor
    · intro hgood g hg
      cases hg
      exact hgood
    · intro hall
      exact hall f rfl

/-- A process that has opened the root directory of the small volume for reading. -/
def smallScene : Scene where
  mem := fun _ => true
  pipes := []
  consoles := []
  vol := Volume.smallVol

def smallFiles (fd : Fin Dir.NOFILE) : Option File :=
  if fd.val = 0 then some ⟨true, .inode 1, 0⟩ else none

theorem smallFiles_allocated (fd : Fin Dir.NOFILE) (f : File) (ip : Nat)
    (hfd : smallFiles fd = some f) (hip : f.type = .inode ip) : smallScene.vol.Allocated ip := by
  unfold smallFiles at hfd
  split at hfd
  · cases hfd
    cases hip
    exact Volume.smallVol_allocated
  · cases hfd

/-- A read of sixteen bytes stays in its buffer. -/
theorem read_within_iff_small :
    ∃ o v, sysRead Fs.small smallScene smallFiles 0 4096 16 = .ok (o, v) ∧ o.Within 4096 16 := by
  obtain ⟨o, v, hrun, hiff⟩ := read_within_iff Fs.small smallScene
    ⟨Volume.smallVol_consistent, by simp⟩ smallFiles smallFiles_allocated 0 4096 16
  refine ⟨o, v, hrun, hiff.2 ?_⟩
  intro f _ hbad
  obtain ⟨_, ip, _, hneg, _⟩ := hbad
  exact absurd hneg (by decide)

/-- **A read of -1 bytes** stores the 32 bytes of the directory and returns 32. -/
theorem negative_count_overruns :
    Fs.Consistent Fs.small smallScene.vol.store ∧ argint 0xFFFFFFFFFFFFFFFF = -1 ∧
      ∃ o v, sysRead Fs.small smallScene smallFiles 0 4096 0xFFFFFFFFFFFFFFFF = .ok (o, v) ∧
        o.result = some 32 ∧ o.stores.length = 32 ∧ ¬ o.Within 4096 (-1) := by
  have hrun : ∃ o v, sysRead Fs.small smallScene smallFiles 0 4096 0xFFFFFFFFFFFFFFFF = .ok (o, v) ∧
      o.result = some 32 ∧ o.stores.length = 32 := ⟨_, _, rfl, rfl, rfl⟩
  obtain ⟨o, v, hread, hresult, hlen⟩ := hrun
  refine ⟨Volume.smallVol_consistent, by decide, o, v, hread, hresult, hlen, ?_⟩
  intro hin
  have hnone : o.stores.length ≤ 0 := hin.1.1
  omega

end Files

end Kus.Read
