import KusOs.DirChanges

/-!
# Path lookup

* `walk` — path lookup as a function of the state;
* `namexLoop_run` — **`namex` computes it and changes nothing**, as long as no inode
  waits to be freed (`Settled`);
* `walk_sound` — it does not panic if no entry refers to a free inode (`Sound`).
-/

namespace Kus.Dir

open Hoare

/-- An inode without a link is referred to by a process or is one of `H`. -/
def Settled (H : List Nat) (s : DirState) : Prop :=
  ∀ i, (s.inode i).type ≠ 0 → (s.inode i).nlink = 0 → s.Referenced i ∨ i ∈ H

/-- No entry of a directory refers to a free inode. -/
def Sound (s : DirState) : Prop :=
  ∀ d e, (s.inode d).type = T_DIR → e ∈ (s.inode d).dirents → e.inum ≠ 0 →
    (s.inode e.inum).type ≠ 0

section Lookup

variable {s : DirState} {H : List Nat} {i dp ip : Nat} {name : Name}

theorem ilock_ok (h : (s.inode i).type ≠ 0) : ilock i s = .ok ((), s) := by
  change (when ((s.inode i).type = 0) (throw .noType)) s = _
  rw [when, if_neg h]
  rfl

theorem ilock_free (h : (s.inode i).type = 0) : ilock i s = .error .noType := by
  change (when ((s.inode i).type = 0) (throw .noType)) s = _
  rw [when, if_pos h]
  rfl

/-- An `iput` that frees nothing. -/
theorem iput_keep (h : (s.inode i).type ≠ 0 → (s.inode i).nlink = 0 → s.Referenced i ∨ i ∈ H) :
    iput i H s = .ok ((), s) := by
  change (when _ (set (s.free i))) s = _
  rw [when, if_neg]
  · rfl
  · rintro ⟨htype, hlink, href, hheld⟩
    rcases h htype hlink with h | h
    · exact href h
    · exact hheld h

theorem Settled.mono {H' : List Nat} (h : Settled H s) (hsub : H ⊆ H') : Settled H' s :=
  fun i htype hlink => (h i htype hlink).imp_right fun hi => hsub hi

theorem Settled.iput_keep {H' : List Nat} (h : Settled H s) (hsub : H ⊆ H') (i : Nat) :
    iput i H' s = .ok ((), s) :=
  Dir.iput_keep (h.mono hsub i)

theorem dirlookup_ok (h : (s.inode dp).type = T_DIR) :
    dirlookup dp name s = .ok (lookup name (s.inode dp).dirents, s) := by
  unfold dirlookup
  refine (run_bind_ok (a := s) (t := s) rfl).trans ?_
  rw [when, if_neg (not_not.2 h)]
  rfl

/-- `dirlink` of a name that is not there. -/
theorem dirlink_new (inum : Nat) (room : Bool) (H : List Nat) (htype : (s.inode dp).type = T_DIR)
    (hnone : lookup name (s.inode dp).dirents = none) :
    dirlink dp name inum room H s = .ok (room, if room then s.setDirents dp
      (insertEntry ⟨inum, name, (s.inode inum).gen⟩ (s.inode dp).dirents) else s) := by
  unfold dirlink
  refine (run_bind_ok (dirlookup_ok htype)).trans ?_
  rw [hnone]
  cases room <;> rfl

/-- `dirlink` of a name that is there. -/
theorem dirlink_old {inum : Nat} {room : Bool} {r : Nat × Nat} (hset : Settled H s)
    (htype : (s.inode dp).type = T_DIR) (hsome : lookup name (s.inode dp).dirents = some r) :
    dirlink dp name inum room H s = .ok (false, s) := by
  unfold dirlink
  refine (run_bind_ok (dirlookup_ok htype)).trans ?_
  rw [hsome]
  exact run_bind_ok (hset.iput_keep (List.Subset.refl _) _)

end Lookup

/-- Path lookup. -/
def walk (s : DirState) (nameiparent : Bool) :
    Nat → Nat → Path → Except DirPanic (Option (Nat × Name))
  | 0, _, _ => .ok none
  | rounds + 1, ip, path =>
    match skipelem path with
    | none => .ok (if nameiparent then none else some (ip, []))
    | some (name, path) =>
      if (s.inode ip).type = 0 then .error .noType
      else if (s.inode ip).type ≠ T_DIR then .ok none
      else if nameiparent ∧ path = [] then .ok (some (ip, name))
      else
        match lookup name (s.inode ip).dirents with
        | none => .ok none
        | some (_, next) => walk s nameiparent rounds next path

/-- The directory and the name that a path ends with. -/
def parentOf (s : DirState) (cwd : Nat) (path : Path) : Except DirPanic (Option (Nat × Name)) :=
  walk s true (path.length + 1) (pathStart cwd path) path

/-- The inode of a path. -/
def target (s : DirState) (cwd : Nat) (path : Path) : Except DirPanic (Option Nat) :=
  (walk s false (path.length + 1) (pathStart cwd path) path).map (Option.map Prod.fst)

section Walk

variable {s : DirState} {H : List Nat} {par : Bool} {cwd : Nat} {path : Path}

/-- **`namex` only reads**, as long as no inode waits to be freed. -/
theorem namexLoop_run (h : Settled H s) (par : Bool) (rounds ip : Nat) (path : Path) :
    namexLoop par H rounds ip path s = (walk s par rounds ip path).map fun r => (r, s) := by
  induction rounds generalizing ip path with
  | zero => rfl
  | succ rounds ih =>
    unfold namexLoop walk
    cases hskip : skipelem path with
    | none =>
      cases par with
      | false => rfl
      | true => exact run_bind_ok (h.iput_keep (List.Subset.refl _) ip)
    | some r =>
      obtain ⟨name, rest⟩ := r
      simp only
      by_cases hfree : (s.inode ip).type = 0
      · rw [if_pos hfree]
        exact run_bind_error (ilock_free hfree)
      rw [if_neg hfree]
      refine (run_bind_ok (ilock_ok hfree)).trans ?_
      refine (run_bind_ok (a := s) (t := s) rfl).trans ?_
      by_cases htype : (s.inode ip).type = T_DIR
      · rw [if_neg (not_not.2 htype), if_neg (not_not.2 htype)]
        by_cases hlast : par ∧ rest = []
        · rw [if_pos hlast, if_pos hlast]
          rfl
        rw [if_neg hlast, if_neg hlast]
        refine (run_bind_ok (dirlookup_ok htype)).trans ?_
        cases hfind : lookup name (s.inode ip).dirents with
        | none => exact run_bind_ok (h.iput_keep (List.Subset.refl _) ip)
        | some r =>
          obtain ⟨k, next⟩ := r
          refine (run_bind_ok (h.iput_keep (List.subset_cons_self _ _) ip)).trans ?_
          exact ih next rest
      · rw [if_pos htype, if_pos htype]
        exact run_bind_ok (h.iput_keep (List.Subset.refl _) ip)

theorem nameiparent_spec {E : DirPanic → Prop} (h : Settled H s)
    (herr : ∀ e, parentOf s cwd path = .error e → E e) :
    Triple (fun t => t = s) (nameiparent cwd path H)
      (fun r t => t = s ∧ parentOf s cwd path = .ok r) E := by
  rintro t rfl
  have hrun : nameiparent cwd path H t = (parentOf t cwd path).map fun r => (r, t) :=
    namexLoop_run h true _ _ path
  rw [hrun]
  cases hp : parentOf t cwd path with
  | error e => exact herr e hp
  | ok r => exact ⟨rfl, rfl⟩

theorem namei_spec {E : DirPanic → Prop} (h : Settled H s)
    (herr : ∀ e, target s cwd path = .error e → E e) :
    Triple (fun t => t = s) (namei cwd path H)
      (fun r t => t = s ∧ target s cwd path = .ok r) E := by
  rintro t rfl
  unfold namei
  have hrun := namexLoop_run h false (path.length + 1) (pathStart cwd path) path
  cases hw : walk t false (path.length + 1) (pathStart cwd path) path with
  | error e =>
    rw [hw] at hrun
    rw [run_bind_error hrun]
    exact herr e (by simp [target, hw, Except.map])
  | ok r =>
    rw [hw] at hrun
    rw [run_bind_ok hrun]
    exact ⟨rfl, by simp [target, hw, Except.map]⟩

/-- Lookup depends on types and entries only. -/
theorem walk_congr {s' : DirState} (htype : ∀ i, (s'.inode i).type = (s.inode i).type)
    (hents : ∀ i, (s'.inode i).dirents = (s.inode i).dirents) (par : Bool) (rounds ip : Nat)
    (path : Path) : walk s' par rounds ip path = walk s par rounds ip path := by
  induction rounds generalizing ip path with
  | zero => rfl
  | succ rounds ih =>
    unfold walk
    simp only [htype, hents, ih]

/-- What `nameiparent` returns is a directory. -/
theorem walk_dir {rounds ip dp : Nat} {name : Name}
    (h : walk s true rounds ip path = .ok (some (dp, name))) : (s.inode dp).type = T_DIR := by
  induction rounds generalizing ip path with
  | zero => cases h
  | succ rounds ih =>
    unfold walk at h
    cases hskip : skipelem path with
    | none =>
      rw [hskip] at h
      cases h
    | some r =>
      rw [hskip] at h
      simp only at h
      split at h
      · cases h
      · split at h
        · cases h
        · rename_i htype
          split at h
          · cases h
            exact not_not.1 htype
          · split at h
            · cases h
            · exact ih h

/-- Without entries for free inodes a lookup does not panic, and finds an inode. -/
theorem walk_sound (hsound : Sound s) {rounds ip : Nat} (hip : (s.inode ip).type ≠ 0) :
    (∀ e, walk s par rounds ip path ≠ .error e) ∧
    ∀ r, walk s par rounds ip path = .ok (some r) → (s.inode r.1).type ≠ 0 := by
  induction rounds generalizing ip path with
  | zero => exact ⟨fun _ => nofun, fun _ => nofun⟩
  | succ rounds ih =>
    unfold walk
    cases hskip : skipelem path with
    | none =>
      refine ⟨fun _ => nofun, ?_⟩
      intro r hr
      cases par with
      | false =>
        cases hr
        exact hip
      | true => cases hr
    | some r =>
      obtain ⟨name, rest⟩ := r
      simp only [if_neg hip]
      by_cases htype : (s.inode ip).type = T_DIR
      · rw [if_neg (not_not.2 htype)]
        by_cases hlast : par ∧ rest = []
        · rw [if_pos hlast]
          refine ⟨fun _ => nofun, ?_⟩
          intro r hr
          cases hr
          exact hip
        rw [if_neg hlast]
        cases hfind : lookup name (s.inode ip).dirents with
        | none => exact ⟨fun _ => nofun, fun _ => nofun⟩
        | some r =>
          obtain ⟨k, next⟩ := r
          obtain ⟨e, he, hinum, hne, _⟩ := lookup_some hfind
          have hmem := List.mem_of_getElem? he
          exact ih (hinum ▸ hsound ip e htype hmem (hinum ▸ hne))
      · rw [if_pos htype]
        exact ⟨fun _ => nofun, fun _ => nofun⟩

end Walk

end Kus.Dir
