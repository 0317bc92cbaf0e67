import KusOs.Psi

/-!
# Where the pressure averages settle

The step `(t * 1024 + 99 * avg) / 100` drops the remainder, and every value from 925
to 1024 is a fixed point under a permanent stall.  From boot an average climbs to the
lowest of them and no further.

* `avgAfter_le`: 925 is never passed;
* `avgAfter_stalled`, `avgAfter_idle`: what a permanent stall and its absence lead to;
* `psi_converges_iff`: the averages converge to the true pressure exactly if there is
  no permanent stall.
-/

namespace Kus

open FloorAverage

/-- The averages after the first `n` calls of `update_psi`, where `counts k` is what the
call at tick `k` has counted, however the table changed under its scan. -/
def psiAt (counts : Nat → PsiCounts) : Nat → Psi
  | 0 => ⟨0, 0⟩
  | n + 1 => (psiAt counts n).sample (counts n)

/-- One of the averages after `n` calls with the samples `t`. -/
def avgAfter (t : Nat → Bool) : Nat → UInt64
  | 0 => 0
  | n + 1 => nextAvg (t n) (avgAfter t n)

theorem psiAt_eq (counts : Nat → PsiCounts) (n : Nat) :
    psiAt counts n =
      ⟨avgAfter (fun k => (counts k).some) n, avgAfter (fun k => (counts k).full) n⟩ := by
  induction n with
  | zero => rfl
  | succ n ih => rw [psiAt, ih, Psi.sample, avgAfter, avgAfter]

/-- What holds from some tick on. -/
def FromSomeTick (P : Nat → Prop) : Prop := ∃ N, ∀ n, N ≤ n → P n

/-- An average converges to the true pressure: within one percent of full scale under a
permanent stall, and to 0 without one. -/
def Converges (t : Nat → Bool) (avg : Nat → UInt64) : Prop :=
  (FromSomeTick (fun n => t n = true) →
    FromSomeTick fun n => 1014 ≤ (avg n).toNat ∧ (avg n).toNat ≤ 1024) ∧
  (FromSomeTick (fun n => t n = false) → FromSomeTick fun n => avg n = 0)

variable {t : Nat → Bool}

theorem avgAfter_le (t : Nat → Bool) (n : Nat) : (avgAfter t n).toNat ≤ 925 := by
  induction n with
  | zero => exact Nat.zero_le _
  | succ n ih =>
    rw [avgAfter, nextAvg_toNat (by omega)]
    exact floorAvg_le_plateau (by decide) ih (scaled_le _)

theorem avgAfter_succ (t : Nat → Bool) (n : Nat) :
    (avgAfter t (n + 1)).toNat = floorAvg 100 (avgAfter t n).toNat (scaled (t n)) := by
  have hle := avgAfter_le t n
  rw [avgAfter, nextAvg_toNat (by omega)]

/-- A permanent stall leads to 925. -/
theorem avgAfter_stalled (h : FromSomeTick fun n => t n = true) :
    FromSomeTick fun n => (avgAfter t n).toNat = 925 := by
  obtain ⟨N, hstall⟩ := h
  apply eventually_plateau (u := fun n => (avgAfter t n).toNat) (n := 100) (by decide)
    (avgAfter_le t N)
  intro k hk
  rw [avgAfter_succ, hstall k hk]
  rfl

/-- Without stalls an average falls to 0. -/
theorem avgAfter_idle (h : FromSomeTick fun n => t n = false) :
    FromSomeTick fun n => avgAfter t n = 0 := by
  obtain ⟨N, hidle⟩ := h
  have hzero : FromSomeTick fun n => (avgAfter t n).toNat = 0 := by
    apply eventually_zero (u := fun n => (avgAfter t n).toNat) (n := 100) (N := N) (by decide)
    intro k hk
    rw [avgAfter_succ, hidle k hk]
    rfl
  obtain ⟨M, hM⟩ := hzero
  refine ⟨M, ?_⟩
  intro n hn
  exact UInt64.toNat_inj.1 (hM n hn)

theorem converges_iff (t : Nat → Bool) :
    Converges t (avgAfter t) ↔ ¬ FromSomeTick fun n => t n = true := by
  constructor
  · intro hconv hstall
    obtain ⟨M, hhigh⟩ := hconv.1 hstall
    have hlow := avgAfter_le t M
    have hge := (hhigh M (Nat.le_refl M)).1
    omega
  · intro hno
    exact ⟨fun hstall => absurd hstall hno, avgAfter_idle⟩

/-- **The averages and the true pressure.**  Over any run of ticks from boot each average
converges exactly if its stall is not permanent; under a permanent stall it settles at
925 of 1024. -/
theorem psi_converges_iff (counts : Nat → PsiCounts) :
    (Converges (fun n => (counts n).some) (fun n => (psiAt counts n).some_avg10) ↔
      ¬ FromSomeTick fun n => (counts n).some = true) ∧
    (Converges (fun n => (counts n).full) (fun n => (psiAt counts n).full_avg10) ↔
      ¬ FromSomeTick fun n => (counts n).full = true) ∧
    (FromSomeTick (fun n => (counts n).some = true) →
      FromSomeTick fun n => (psiAt counts n).some_avg10.toNat = 925) ∧
    (FromSomeTick (fun n => (counts n).full = true) →
      FromSomeTick fun n => (psiAt counts n).full_avg10.toNat = 925) := by
  simp only [psiAt_eq]
  exact ⟨converges_iff _, converges_iff _, avgAfter_stalled, avgAfter_stalled⟩

/-- Every call of `update_psi` finds the one active process asleep on `&kmem`, and the
averages never come near full scale. -/
theorem permanent_stall_at_925 :
    let table : ProcTable := fun p => if p = 0 then (.SLEEPING, .kmem) else (.UNUSED, .null)
    let psi := psiAt fun _ => psiScan table
    (psiScan table).some = true ∧ (psiScan table).full = true ∧
    (∀ n, (psi n).some_avg10.toNat < 1014 ∧ (psi n).full_avg10.toNat < 1014) ∧
    ¬ Converges (fun _ => (psiScan table).some) fun n => (psi n).some_avg10 := by
  intro table psi
  have hsome : (psiScan table).some = true := by decide +kernel
  have hfull : (psiScan table).full = true := by decide +kernel
  refine ⟨hsome, hfull, ?_, ?_⟩
  · intro n
    have hs := avgAfter_le (fun _ => (psiScan table).some) n
    have hf := avgAfter_le (fun _ => (psiScan table).full) n
    simp only [psi, psiAt_eq]
    omega
  · intro hconv
    simp only [psi, psiAt_eq] at hconv
    exact (converges_iff _).1 hconv ⟨0, fun _ _ => hsome⟩

end Kus
