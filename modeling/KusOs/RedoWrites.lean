import Mathlib

/-!
# Block writes, transactions and redoing them

A store maps block names to contents.  Operations write whole blocks, groups of
writes are transactions, and a redo log keeps copies of the blocks a
transaction wrote so that they can be installed later, or again.

* `applyWrites`, `applyTxns` — the store after writes, or after transactions;
* `Agrees` — a store holds a target except on some blocks still to be installed;
  `Agrees.install` is one round of the install loop;
* `HasAll`, `Whole` — a transaction holds all or none of an operation's writes,
  and `all_or_none` lifts that to a sequence of transactions.
-/

namespace Redo

open Function

/-- A write of a whole block by one operation. -/
structure Write (α β : Type) where
  op : Nat
  block : α
  data : β

variable {α β : Type}

section Apply

variable [DecidableEq α]

/-- The store after the writes, in order: the last write of a block wins. -/
def applyWrites (d : α → β) (ws : List (Write α β)) : α → β :=
  ws.foldl (fun d w => update d w.block w.data) d

/-- The store after a sequence of transactions. -/
def applyTxns (d : α → β) (ts : List (List (Write α β))) : α → β :=
  applyWrites d ts.flatten

@[simp] theorem applyWrites_nil (d : α → β) : applyWrites d [] = d := rfl

theorem applyWrites_concat (d : α → β) (ws : List (Write α β)) (w : Write α β) :
    applyWrites d (ws ++ [w]) = update (applyWrites d ws) w.block w.data := by
  simp [applyWrites, List.foldl_append]

theorem applyWrites_of_not_written {d : α → β} {ws : List (Write α β)} {b : α}
    (h : ∀ w ∈ ws, w.block ≠ b) : applyWrites d ws b = d b := by
  induction ws generalizing d with
  | nil => rfl
  | cons w ws ih =>
    have hrest : ∀ w ∈ ws, w.block ≠ b := fun w hw => h w (List.mem_cons_of_mem _ hw)
    have hne : b ≠ w.block := (h w List.mem_cons_self).symm
    calc applyWrites d (w :: ws) b
        = applyWrites (update d w.block w.data) ws b := rfl
      _ = update d w.block w.data b := ih hrest
      _ = d b := update_of_ne hne _ _

theorem applyTxns_concat (d : α → β) (ts : List (List (Write α β))) (t : List (Write α β)) :
    applyTxns d (ts ++ [t]) = applyWrites (applyTxns d ts) t := by
  simp [applyTxns, applyWrites, List.foldl_append]

end Apply

section Install

variable {home : α → Prop} {d target : α → β} {except xs : List α}

/-- On the home blocks the store holds the target, except where `except` says
that it may not yet. -/
def Agrees (home : α → Prop) (d target : α → β) (except : List α) : Prop :=
  ∀ b, home b → b ∉ except → d b = target b

theorem Agrees.mono {except' : List α} (h : Agrees home d target except)
    (hsub : ∀ b ∈ except, b ∈ except') : Agrees home d target except' := by
  intro b hb hnot
  exact h b hb fun hmem => hnot (hsub b hmem)

variable [DecidableEq α]

/-- A write outside the home blocks does not matter. -/
theorem Agrees.write_off {a : α} {v : β} (h : Agrees home d target except) (ha : ¬ home a) :
    Agrees home (update d a v) target except := by
  intro b hb hnot
  have hne : b ≠ a := by
    rintro rfl
    exact ha hb
  rw [update_of_ne hne]
  exact h b hb hnot

/-- **One round of the install loop.**  Writing the target's contents to the
next listed block leaves one block less to install. -/
theorem Agrees.install {k : Nat} {a : α} (h : Agrees home d target (xs.drop k))
    (ha : xs[k]? = some a) : Agrees home (update d a (target a)) target (xs.drop (k + 1)) := by
  intro b hb hnot
  by_cases hba : b = a
  · rw [hba, update_self]
  rw [update_of_ne hba]
  apply h b hb
  obtain ⟨hk, hget⟩ := List.getElem?_eq_some_iff.mp ha
  rw [List.drop_eq_getElem_cons hk, List.mem_cons, hget]
  rintro (heq | hmem)
  · exact hba heq
  · exact hnot hmem

end Install

section Brackets

variable {issued t ws : List (Write α β)} {ts : List (List (Write α β))} {op : Nat}
  {w : Write α β}

/-- All the writes of an operation are among `ws`. -/
def HasAll (issued : List (Write α β)) (op : Nat) (ws : List (Write α β)) : Prop :=
  ∀ w ∈ issued, w.op = op → w ∈ ws

theorem HasAll.mono {ws' : List (Write α β)} (h : HasAll issued op ws)
    (hsub : ∀ w ∈ ws, w ∈ ws') : HasAll issued op ws' := by
  intro w hw hop
  exact hsub w (h w hw hop)

/-- A write of another operation changes nothing. -/
theorem HasAll.concat_other (h : HasAll issued op ws) (hne : w.op ≠ op) :
    HasAll (issued ++ [w]) op ws := by
  intro w' hw' hop
  rcases List.mem_append.mp hw' with hw' | hw'
  · exact h w' hw' hop
  · rw [List.mem_singleton.mp hw'] at hop
    exact absurd hop hne

theorem HasAll.concat (h : HasAll issued op ws) (w : Write α β) :
    HasAll (issued ++ [w]) op (ws ++ [w]) := by
  intro w' hw' hop
  rcases List.mem_append.mp hw' with hw' | hw'
  · exact List.mem_append_left _ (h w' hw' hop)
  · exact List.mem_append_right _ hw'

/-- An operation that wrote anything in `t` wrote everything in `t`. -/
def Whole (issued t : List (Write α β)) : Prop :=
  ∀ w ∈ t, HasAll issued w.op t

/-- Another write is harmless to a transaction its operation has no part in. -/
theorem Whole.concat_other (h : Whole issued t) (hop : ∀ x ∈ t, x.op ≠ w.op) :
    Whole (issued ++ [w]) t := by
  intro x hx
  exact (h x hx).concat_other (hop x hx).symm

/-- A write recorded in the transaction keeps it whole, when the transaction
already held all of the operation's writes. -/
theorem Whole.concat (h : Whole issued t) (hop : HasAll issued w.op t) :
    Whole (issued ++ [w]) (t ++ [w]) := by
  intro x hx
  rcases List.mem_append.mp hx with hx | hx
  · exact (h x hx).concat w
  · rw [List.mem_singleton.mp hx]
    exact hop.concat w

/-- **All or none.**  In a sequence of whole transactions an operation has
either all of its writes or none. -/
theorem all_or_none (h : ∀ t ∈ ts, Whole issued t) (op : Nat) :
    HasAll issued op ts.flatten ∨ ∀ w ∈ ts.flatten, w.op ≠ op := by
  by_cases hsome : ∃ w ∈ ts.flatten, w.op = op
  · obtain ⟨w, hw, rfl⟩ := hsome
    obtain ⟨t, ht, hwt⟩ := List.mem_flatten.mp hw
    refine .inl ((h t ht w hwt).mono fun w' hw' => ?_)
    exact List.mem_flatten.mpr ⟨t, ht, hw'⟩
  · refine .inr fun w hw hop => ?_
    exact hsome ⟨w, hw, hop⟩

end Brackets

end Redo
