import KusOs.FloorAverage
import KusOs.Proc

/-!
# Pressure-stall averages

`update_psi` walks the process table, counts who is stalled on `&kmem` and who
could run, and feeds two samples into two averages kept as fixed-point numbers
with scale 1024.  The counts are `int` in the source and at most `NPROC`; the
averages are `uint64`, and so is the arithmetic on them.

The sample FULL implies the sample SOME, whatever the counts were taken from,
so the two averages stay in order; that is a property of `PsiCounts` alone and
does not need a consistent view of the table.

* `nextAvg_toNat`: below 1024 the 64-bit step is the step over the naturals;
* `psi_averages`: bounds, order and distance from the exact averages.
-/

namespace Kus

open FloorAverage

/-- The counters of `update_psi`. -/
structure PsiCounts where
  stalled : Nat
  runnable_or_running : Nat
  total_active : Nat
deriving DecidableEq, Repr

/-- The counters before the scan. -/
def PsiCounts.zero : PsiCounts where
  stalled := 0
  runnable_or_running := 0
  total_active := 0

/-- The loop body of `update_psi` at a slot with this state and channel. -/
def PsiCounts.read (c : PsiCounts) (state : ProcState) (chan : Chan) : PsiCounts :=
  if state ≠ .UNUSED ∧ state ≠ .ZOMBIE then
    if state = .SLEEPING ∧ chan = .kmem then
      { c with total_active := c.total_active + 1, stalled := c.stalled + 1 }
    else if state = .RUNNABLE ∨ state = .RUNNING then
      { c with
        total_active := c.total_active + 1
        runnable_or_running := c.runnable_or_running + 1 }
    else { c with total_active := c.total_active + 1 }
  else c

/-- SOME: at least one process is stalled. -/
def PsiCounts.some (c : PsiCounts) : Bool := decide (0 < c.stalled)

/-- FULL: at least one is stalled, and no one is runnable or running. -/
def PsiCounts.full (c : PsiCounts) : Bool :=
  decide (0 < c.stalled) && decide (c.runnable_or_running = 0)

/-- The global averages, scaled by 1024. -/
structure Psi where
  some_avg10 : UInt64
  full_avg10 : UInt64
deriving DecidableEq, Repr

/-- `(t * 1024 + 99 * avg) / 100`. -/
def nextAvg (t : Bool) (avg : UInt64) : UInt64 :=
  (UInt64.ofNat (t.toNat * 1024) + 99 * avg) / 100

/-- The end of `update_psi`, under `psi_lock`. -/
def Psi.sample (psi : Psi) (c : PsiCounts) : Psi where
  some_avg10 := nextAvg c.some psi.some_avg10
  full_avg10 := nextAvg c.full psi.full_avg10

/-- The state and channel of every slot. -/
abbrev ProcTable := Slot → ProcState × Chan

/-- The scan of a table that does not change under it. -/
def psiScan (table : ProcTable) : PsiCounts :=
  (List.finRange NPROC).foldl (fun c p => c.read (table p).1 (table p).2) .zero

/-- `update_psi`. -/
def update_psi (psi : Psi) (table : ProcTable) : Psi := psi.sample (psiScan table)

/-- The averages after a history of ticks from boot. -/
def psiAfter (tables : List ProcTable) : Psi := tables.foldl update_psi ⟨0, 0⟩

/-- A sample in the scale of the averages. -/
def scaled (t : Bool) : Nat := t.toNat * 1024

theorem scaled_le (t : Bool) : scaled t ≤ 1024 := by
  cases t <;> decide

/-- FULL implies SOME. -/
theorem PsiCounts.scaled_full_le_some (c : PsiCounts) : scaled c.full ≤ scaled c.some := by
  unfold PsiCounts.full PsiCounts.some
  cases decide (0 < c.stalled) <;> cases decide (c.runnable_or_running = 0) <;> decide

/-- An average up to 1024 is far from overflow. -/
theorem nextAvg_toNat {t : Bool} {avg : UInt64} (h : avg.toNat ≤ 1024) :
    (nextAvg t avg).toNat = floorAvg 100 avg.toNat (scaled t) := by
  have ht := scaled_le t
  have hmul : (99 * avg).toNat = 99 * avg.toNat := by
    rw [UInt64.toNat_mul]
    exact Nat.mod_eq_of_lt (by simp; omega)
  have hofNat : (UInt64.ofNat (t.toNat * 1024)).toNat = scaled t :=
    UInt64.toNat_ofNat_of_lt' (Nat.lt_of_le_of_lt ht (by decide))
  rw [nextAvg, UInt64.toNat_div, UInt64.toNat_add, hmul, hofNat, Nat.mod_eq_of_lt (by omega)]
  rfl

/-- The stored averages are the truncated averages of the samples. -/
theorem psiAfter_toNat (tables : List ProcTable) :
    (psiAfter tables).some_avg10.toNat =
        floorAverage 100 (tables.map fun t => scaled (psiScan t).some) ∧
      (psiAfter tables).full_avg10.toNat =
        floorAverage 100 (tables.map fun t => scaled (psiScan t).full) := by
  have hbound : ∀ (f : PsiCounts → Bool) (l : List ProcTable),
      floorAverage 100 (l.map fun t => scaled (f (psiScan t))) ≤ 1024 := by
    intro f l
    apply floorAverage_le (by decide)
    intro x hx
    obtain ⟨t, -, rfl⟩ := List.mem_map.1 hx
    exact scaled_le _
  induction tables using List.reverseRecOn with
  | nil => exact ⟨rfl, rfl⟩
  | append_singleton tables t ih =>
    have hstep : psiAfter (tables ++ [t]) = update_psi (psiAfter tables) t := by
      rw [psiAfter, List.foldl_append]
      rfl
    have hsome := hbound PsiCounts.some tables
    have hfull := hbound PsiCounts.full tables
    rw [← ih.1] at hsome
    rw [← ih.2] at hfull
    rw [hstep, List.map_append, List.map_append, floorAverage, floorAverage, List.foldl_append,
      List.foldl_append]
    constructor
    · exact (nextAvg_toNat hsome).trans (by rw [ih.1]; rfl)
    · exact (nextAvg_toNat hfull).trans (by rw [ih.2]; rfl)

/-- The exact exponential average of a history of samples:
`E' = (1024 * t + 99 * E) / 100`, from 0. -/
def exactAvg10 (samples : List Bool) : ℚ :=
  samples.foldl (fun e t => (1024 * (t.toNat : ℚ) + 99 * e) / 100) 0

theorem exactAvg10_eq (samples : List Bool) :
    exactAvg10 samples = exactAverage 100 (samples.map scaled) := by
  rw [exactAvg10, exactAverage, List.foldl_map]
  congr 1
  funext e t
  simp only [exactAvg, scaled, Nat.cast_mul, Nat.cast_ofNat]
  ring

/-- **The averages are bounded, ordered and close to the exact ones.**  After
every history of ticks `full_avg10 ≤ some_avg10 ≤ 1024`, the products of the
next tick fit in 64 bits, and each stored value is below its exact average by
less than 100. -/
theorem psi_averages (tables : List ProcTable) :
    let psi := psiAfter tables
    let exactSome := exactAvg10 (tables.map fun t => (psiScan t).some)
    let exactFull := exactAvg10 (tables.map fun t => (psiScan t).full)
    0 ≤ psi.full_avg10.toNat ∧ psi.full_avg10.toNat ≤ psi.some_avg10.toNat ∧
    psi.some_avg10.toNat ≤ 1024 ∧
    (∀ t : Bool, t.toNat * 1024 + 99 * psi.some_avg10.toNat < 2 ^ 64 ∧
      t.toNat * 1024 + 99 * psi.full_avg10.toNat < 2 ^ 64) ∧
    (0 ≤ exactSome - psi.some_avg10.toNat ∧ exactSome - psi.some_avg10.toNat < 100) ∧
    (0 ≤ exactFull - psi.full_avg10.toNat ∧ exactFull - psi.full_avg10.toNat < 100) := by
  intro psi exactSome exactFull
  obtain ⟨hsome, hfull⟩ := psiAfter_toNat tables
  have horder : psi.full_avg10.toNat ≤ psi.some_avg10.toNat := by
    rw [hsome, hfull]
    exact floorAverage_mono tables fun t _ => (psiScan t).scaled_full_le_some
  have hbound : psi.some_avg10.toNat ≤ 1024 := by
    rw [hsome]
    apply floorAverage_le (by decide)
    intro x hx
    obtain ⟨t, -, rfl⟩ := List.mem_map.1 hx
    exact scaled_le _
  have hdrift : ∀ f : ProcTable → Bool,
      0 ≤ exactAvg10 (tables.map f) - floorAverage 100 (tables.map fun t => scaled (f t)) ∧
      exactAvg10 (tables.map f) - floorAverage 100 (tables.map fun t => scaled (f t)) < 100 := by
    intro f
    rw [exactAvg10_eq, List.map_map]
    exact_mod_cast floorAverage_drift (n := 100) (by decide) (tables.map fun t => scaled (f t))
  refine ⟨Nat.zero_le _, horder, hbound, ?_, ?_, ?_⟩
  · intro t
    have ht : t.toNat * 1024 ≤ 1024 := scaled_le t
    constructor <;> omega
  · rw [hsome]
    exact hdrift _
  · rw [hfull]
    exact hdrift _

/-- A table that is stalled for one tick leaves its mark on both averages. -/
example : psiAfter [fun p => if p = 3 then (.SLEEPING, .kmem) else (.UNUSED, .null)] =
    ⟨10, 10⟩ := by
  decide +kernel

end Kus
