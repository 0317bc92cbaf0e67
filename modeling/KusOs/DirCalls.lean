import KusOs.PathLookup

/-!
# The calls as changes of the tree

* `NewNames`, `Calm` — the condition on a call: no entry is made in a directory
  without a link, and no link count is at its largest when `sys_link` adds one;
* `run_spec` — **a call under the condition is a sequence of changes**, and it panics
  only if an entry refers to a free inode.
-/

namespace Kus.Dir

open Function Hoare

attribute [local simp] DirState.setProc

/-- New entries are made in directories that have a link. -/
def NewNames (s : DirState) (cwd : Nat) (path : Path) : Prop :=
  ∀ dp name, parentOf s cwd path = .ok (some (dp, name)) →
    lookup name (s.inode dp).dirents = none → 0 < (s.inode dp).nlink

/-- `A` holds of the directory that an `unlink` is about to remove. -/
def MayRemove (A : DirState → Nat → Prop) (s : DirState) (cwd : Nat) (path : Path) : Prop :=
  ∀ dp name k ip, parentOf s cwd path = .ok (some (dp, name)) →
    lookup name (s.inode dp).dirents = some (k, ip) → (s.inode ip).type = T_DIR → A s ip

/-- The condition on a call of a process with working directory `cwd`. -/
def Calm (A : DirState → Nat → Prop) (s : DirState) (cwd : Nat) : Call → Prop
  | .open path omode _ _ => omode &&& O_CREATE ≠ 0 → NewNames s cwd path
  | .mkdir path _ => NewNames s cwd path
  | .mknod path _ _ => NewNames s cwd path
  | .link old new _ => NewNames s cwd new ∧ ∀ ip, target s cwd old = .ok (some ip) →
      (s.inode ip).type ≠ T_DIR → (s.inode ip).nlink ≠ maxLinks
  | .unlink path => MayRemove A s cwd path
  | _ => True

/-- What a call does: changes of the tree, after which no inode waits to be freed. -/
structure Does (A : DirState → Nat → Prop) (s t : DirState) : Prop where
  changes : Relation.ReflTransGen (Change A) s t
  settled : Settled [] t

section Calls

variable {A : DirState → Nat → Prop} {s : DirState} {cwd ip dp : Nat} {path : Path}
  {E : DirPanic → Prop} {name : Name} {H : List Nat} {type : Int16}

/-- An entry found by a lookup, other than `.` and `..`. -/
theorem Names.of_lookup {k : Nat} (htype : (s.inode dp).type = T_DIR)
    (h : lookup name (s.inode dp).dirents = some (k, ip)) (hname : name ≠ dot ∧ name ≠ dotdot) :
    ∃ e, Names s dp k ip e := by
  obtain ⟨e, hk, hinum, hlive, hen⟩ := lookup_some h
  exact ⟨e, htype, hk, hinum, hlive, by rw [hen]; exact hname⟩

/-- A name that is not in a directory is neither `.` nor `..`. -/
theorem Shape.absent {d : Nat} {x : Inode} (h : Shape d x)
    (hnone : lookup name x.dirents = none) : name ≠ dot ∧ name ≠ dotdot := by
  obtain ⟨g, p, g', rest, hds⟩ := h.split
  have hp : p ≠ 0 := by
    have hup := h.up
    rw [parent, hds] at hup
    exact hup
  have hself : (⟨d, dot, g⟩ : Dirent) ∈ x.dirents := by simp [hds]
  have hparent : (⟨p, dotdot, g'⟩ : Dirent) ∈ x.dirents := by simp [hds]
  exact ⟨(lookup_none hnone hself h.self).symm, (lookup_none hnone hparent hp).symm⟩

/-- Inodes found by a lookup are in use, unless an entry refers to a free one. -/
theorem used_or_unsound {k : Nat} (htype : (s.inode dp).type = T_DIR)
    (h : lookup name (s.inode dp).dirents = some (k, ip)) (hfree : (s.inode ip).type = 0) :
    ¬ Sound s := by
  obtain ⟨e, hk, hinum, hlive, _⟩ := lookup_some h
  intro hsound
  have hused := hsound dp e htype (List.mem_of_getElem? hk) (hinum ▸ hlive)
  rw [hinum] at hused
  exact hused hfree

section

variable (htree : Tree (fun _ => 0) s) (hcwd : (s.inode cwd).type ≠ 0)
include htree hcwd

theorem pathStart_used (path : Path) : (s.inode (pathStart cwd path)).type ≠ 0 := by
  unfold pathStart
  split
  · rw [htree.root.1]
    decide
  · exact hcwd

theorem parentOf_error {e : DirPanic} (h : parentOf s cwd path = .error e) : ¬ Sound s := by
  intro hsound
  have hstart := pathStart_used htree hcwd path
  exact (walk_sound hsound hstart).1 e h

theorem target_sound (hsound : Sound s) : (∀ e, target s cwd path ≠ .error e) ∧
      ∀ ip, target s cwd path = .ok (some ip) → (s.inode ip).type ≠ 0 := by
  have hstart := pathStart_used htree hcwd path
  unfold target
  cases hw : walk s false (path.length + 1) (pathStart cwd path) path with
  | error e => exact absurd hw ((walk_sound hsound hstart).1 e)
  | ok r =>
    refine ⟨fun _ => nofun, ?_⟩
    intro ip hip
    cases r with
    | none => cases hip
    | some r =>
      cases hip
      exact (walk_sound hsound hstart).2 r hw

theorem target_error {e : DirPanic} (h : target s cwd path = .error e) : ¬ Sound s :=
  fun hsound => (target_sound htree hcwd hsound).1 e h

theorem target_free (h : target s cwd path = .ok (some ip)) (hfree : (s.inode ip).type = 0) :
    ¬ Sound s :=
  fun hsound => (target_sound htree hcwd hsound).2 ip h hfree

end

/-- Locking an inode, which panics if it is free. -/
theorem lock_spec {α : Type} {R : α → DirState → Prop} {i : Nat}
    {f : Unit → DirM α} (hfree : (s.inode i).type = 0 → E .noType)
    (hf : (s.inode i).type ≠ 0 → Triple (fun t => t = s) (f ()) R E) :
    Triple (fun t => t = s) (ilock i >>= f) R E := by
  by_cases h : (s.inode i).type = 0
  · exact .bind_error (ilock_free h) (hfree h)
  · exact .bind_ok (ilock_ok h) (hf h)

/-- The last reference is put back, and the call returns. -/
theorem put_spec {α : Type} {R : α → DirState → Prop} {r : α} (hset : Settled [] s) (hr : R r s)
    (i : Nat) : Triple (fun t => t = s) (do iput i []; pure r) R E := by
  apply Triple.bind_ok (hset.iput_keep (List.Subset.refl _) i)
  exact .run_ok rfl hr

theorem Does.put {t : DirState} {α : Type} {r : α} (h : Does A s t)
    (i : Nat) : Triple (fun u => u = t) (do iput i []; pure r) (fun _ u => Does A s u) E :=
  put_spec (R := fun _ u => Does A s u) h.settled h i

/-- An `iput` that frees the inode. -/
theorem iput_free {i : Nat} (htype : (s.inode i).type ≠ 0) (hlink : (s.inode i).nlink = 0)
    (href : ¬ s.Referenced i) (hheld : i ∉ H) : iput i H s = .ok ((), s.free i) := by
  change (when _ (set (s.free i))) s = _
  rw [when, if_pos ⟨htype, hlink, href, hheld⟩]
  rfl

theorem iput_spec {i : Nat} (h : Settled (i :: H) s) :
    Triple (fun t => t = s) (iput i H)
      (fun _ t => Relation.ReflTransGen (Change A) s t ∧ Settled H t ∧ t.proc = s.proc) E := by
  rintro t rfl
  by_cases hkeep : (t.inode i).type ≠ 0 → (t.inode i).nlink = 0 → t.Referenced i ∨ i ∈ H
  · rw [iput_keep hkeep]
    refine ⟨.refl, ?_, rfl⟩
    intro j htype hlink
    rcases h j htype hlink with hr | hj
    · exact .inl hr
    rcases List.mem_cons.1 hj with rfl | hj
    · exact hkeep htype hlink
    · exact .inr hj
  push Not at hkeep
  obtain ⟨htype, hlink, href, hheld⟩ := hkeep
  rw [iput_free htype hlink href hheld]
  refine ⟨.single (.free htype hlink href), ?_, rfl⟩
  intro j hjt hjl
  by_cases e : j = i
  · subst e
    exact absurd (by simp [DirState.free]) hjt
  simp only [DirState.free, inode_setInode_ne t _ e] at hjt hjl
  rcases h j hjt hjl with hr | hj
  · exact .inl hr
  · exact .inr ((List.mem_cons.1 hj).resolve_left e)

theorem ialloc_spec (type : Int16) :
    Triple (fun t => t = s) (ialloc type)
      (fun r t => (r = none ∧ t = s) ∨ ∃ ip, r = some ip ∧ (0 < ip ∧ ip < NINODES) ∧
        (s.inode ip).type = 0 ∧
        t = s.setInode ip ⟨type, 0, 0, [], (s.inode ip).gen + 1⟩) E := by
  unfold ialloc
  refine .get_bind ?_
  rintro t rfl
  cases hfind : (List.range' 1 (NINODES - 1)).find? fun i => (t.inode i).type = 0 with
  | none =>
    rintro _ rfl
    exact .inl ⟨rfl, rfl⟩
  | some ip =>
    rintro _ rfl
    have hfree := List.find?_some hfind
    have hmem := List.mem_range'_1.1 (List.mem_of_find?_eq_some hfind)
    refine .inr ⟨ip, rfl, ?_, by simpa using hfree, rfl⟩
    simp only [NINODES] at hmem ⊢
    omega

/-- The entries of an inode that has just been made. -/
theorem setDirents_fresh (s : DirState) (ip : Nat) (type major n : Int16) (ds ds' : List Dirent)
    (g : Nat) : (s.setInode ip ⟨type, major, n, ds, g⟩).setDirents ip ds' =
      s.setInode ip ⟨type, major, n, ds', g⟩ := by
  rw [DirState.setDirents, inode_setInode_self, setInode_twice]
  rfl

/-- The entries of a new inode are made, or an entry does not find room. -/
theorem linkNew_run {g : Nat} (major : Int16) (room : Room) (hip : ip ≠ 0) (hne : ip ≠ dp)
    (htype : (s.inode dp).type = T_DIR) (hnone : lookup name (s.inode dp).dirents = none) :
    (∃ ds, linkNew dp ip name type room (s.setInode ip ⟨type, major, 1, [], g⟩) =
      .ok (false, s.setInode ip ⟨type, major, 1, ds, g⟩)) ∨
    linkNew dp ip name type room (s.setInode ip ⟨type, major, 1, [], g⟩) =
      .ok (true, (s.setInode ip (newInode dp ip type major g (s.inode dp).gen)).setDirents dp
        (insertEntry ⟨ip, name, g⟩ (s.inode dp).dirents)) := by
  -- the entry in the directory comes last
  have hlast : ∀ ds, dirlink dp name ip room.name [dp, ip] (s.setInode ip ⟨type, major, 1, ds, g⟩) =
      .ok (room.name, if room.name then (s.setInode ip ⟨type, major, 1, ds, g⟩).setDirents dp
        (insertEntry ⟨ip, name, g⟩ (s.inode dp).dirents)
        else s.setInode ip ⟨type, major, 1, ds, g⟩) := by
    intro ds
    have hdp := inode_setInode_ne s ⟨type, major, 1, ds, g⟩ hne.symm
    have hlink := dirlink_new ip room.name [dp, ip]
      (s := s.setInode ip ⟨type, major, 1, ds, g⟩) (by rw [hdp]; exact htype)
      (by rw [hdp]; exact hnone)
    rw [hdp, inode_setInode_self] at hlink
    exact hlink
  unfold linkNew
  by_cases hdir : type = T_DIR
  · rw [if_pos hdir]
    have hdot : dirlink ip dot ip room.dot [dp, ip] (s.setInode ip ⟨type, major, 1, [], g⟩) =
        .ok (room.dot, if room.dot then s.setInode ip ⟨type, major, 1, [⟨ip, dot, g⟩], g⟩
          else s.setInode ip ⟨type, major, 1, [], g⟩) := by
      have hlink := @dirlink_new (s.setInode ip ⟨type, major, 1, [], g⟩) ip dot ip room.dot [dp, ip]
        (by rw [inode_setInode_self]; exact hdir) (by rw [inode_setInode_self]; rfl)
      rw [inode_setInode_self, setDirents_fresh] at hlink
      exact hlink
    have hdotdot : dirlink ip dotdot dp room.dotdot [dp, ip]
        (s.setInode ip ⟨type, major, 1, [⟨ip, dot, g⟩], g⟩) =
        .ok (room.dotdot, if room.dotdot then s.setInode ip ⟨type, major, 1,
          insertEntry ⟨dp, dotdot, (s.inode dp).gen⟩ [⟨ip, dot, g⟩], g⟩
          else s.setInode ip ⟨type, major, 1, [⟨ip, dot, g⟩], g⟩) := by
      have hlink := @dirlink_new (s.setInode ip ⟨type, major, 1, [⟨ip, dot, g⟩], g⟩) ip dotdot dp
        room.dotdot [dp, ip]
        (by rw [inode_setInode_self]; exact hdir)
        (by rw [inode_setInode_self]; simp [lookup, dot, dotdot])
      rw [inode_setInode_self, setDirents_fresh, inode_setInode_ne s _ hne.symm] at hlink
      exact hlink
    have hboth : insertEntry ⟨dp, dotdot, (s.inode dp).gen⟩ [⟨ip, dot, g⟩] =
        [⟨ip, dot, g⟩, ⟨dp, dotdot, (s.inode dp).gen⟩] := by
      simp [insertEntry, hip]
    rw [hboth] at hdotdot
    cases hd : room.dot with
    | false =>
      rw [hd] at hdot
      exact .inl ⟨[], run_bind_ok hdot⟩
    | true =>
      rw [hd, if_pos rfl] at hdot
      cases hdd : room.dotdot with
      | false =>
        rw [hdd] at hdotdot
        exact .inl ⟨[⟨ip, dot, g⟩], (run_bind_ok hdot).trans (run_bind_ok hdotdot)⟩
      | true =>
        rw [hdd, if_pos rfl] at hdotdot
        have hrun := (run_bind_ok (f := fun r => if r = true then dirlink dp name ip room.name
          [dp, ip] else pure false) hdotdot).trans (hlast _)
        cases hn : room.name with
        | false =>
          rw [hn] at hrun
          exact .inl ⟨_, (run_bind_ok hdot).trans hrun⟩
        | true =>
          rw [hn, if_pos rfl] at hrun
          refine .inr ((run_bind_ok hdot).trans ?_)
          rw [newInode, if_pos hdir]
          exact hrun
  · rw [if_neg hdir]
    have hrun := hlast []
    cases hn : room.name with
    | false =>
      rw [hn] at hrun
      exact .inl ⟨[], hrun⟩
    | true =>
      rw [hn, if_pos rfl] at hrun
      refine .inr ?_
      rw [newInode, if_neg hdir]
      exact hrun

/-- A change of one inode that has a link or is free afterwards. -/
theorem Settled.set (h : Settled H s) {j : Nat} {x : Inode}
    (hx : x.type ≠ 0 → x.nlink ≠ 0) : Settled H (s.setInode j x) := by
  intro i htype hlink
  by_cases e : i = j
  · subst e
    rw [inode_setInode_self] at htype hlink
    exact absurd hlink (hx htype)
  · rw [inode_setInode_ne s x e] at htype hlink
    exact h i htype hlink

theorem ne_zero_of_pos {n : Int16} (h : 0 < n.toInt) : n ≠ 0 := by
  intro e
  rw [e] at h
  exact absurd h (by decide)

section

variable (htree : Tree (fun _ => 0) s) (hset : Settled [] s)
include htree hset

theorem createNew_spec {major : Int16} {room : Room} (htype : type ≠ 0) (hdp : Takes s dp name)
    (hnone : lookup name (s.inode dp).dirents = none) :
    Triple (fun t => t = s) (createNew dp name type major room)
      (fun r t => Does A s t ∧ t.proc = s.proc ∧ ∀ ip, r = some ip → (t.inode ip).type ≠ 0) E := by
  unfold createNew
  refine .bind (ialloc_spec type) ?_
  intro r t ht
  rcases ht with ⟨rfl, rfl⟩ | ⟨ip, rfl, hip, hfree, rfl⟩
  · exact put_spec hset ⟨⟨.refl, hset⟩, rfl, by simp⟩ dp t rfl
  have hne : ip ≠ dp := by
    rintro rfl
    rw [hdp.type] at hfree
    exact absurd hfree (by decide)
  generalize hg : (s.inode ip).gen + 1 = g
  refine Triple.bind_ok (ilock_ok ?_) ?_ _ rfl
  · rw [inode_setInode_self]
    exact htype
  have hfields : (s.setInode ip ⟨type, 0, 0, [], g⟩).setInode ip
      { (s.setInode ip ⟨type, 0, 0, [], g⟩).inode ip with major := major, nlink := 1 } =
      s.setInode ip ⟨type, major, 1, [], g⟩ := by
    rw [setInode_twice, inode_setInode_self]
  refine .bind_ok (t := s.setInode ip ⟨type, major, 1, [], g⟩) (by rw [← hfields]; rfl) ?_
  rcases linkNew_run (g := g) major room hip.1.ne' hne hdp.type hnone with
    ⟨ds, hrun⟩ | hrun
  · -- an entry did not find room: the new inode is freed
    refine .bind_ok hrun ?_
    have hgone : s.setInode ip ⟨0, major, 0, [], g⟩ =
        ((s.setInode ip ⟨type, major, 1, ds, g⟩).setNlink ip 0).free ip := by
      rw [DirState.free, DirState.setNlink, inode_setInode_self, setInode_twice,
        inode_setInode_self, setInode_twice]
      rfl
    have hsettled : Settled [] (s.setInode ip ⟨0, major, 0, [], g⟩) :=
      hset.set fun h => absurd rfl h
    refine .bind_ok (t := (s.setInode ip ⟨type, major, 1, ds, g⟩).setNlink ip 0) rfl ?_
    refine .bind_ok (a := ()) (t := s.setInode ip ⟨0, major, 0, [], g⟩) ?_ ?_
    · rw [hgone]
      refine iput_free ?_ ?_ ?_ ?_
      · rw [DirState.setNlink, inode_setInode_self, Inode.withNlink_type, inode_setInode_self]
        exact htype
      · rw [DirState.setNlink, inode_setInode_self, Inode.withNlink_nlink]
      · exact fun href => htree.used ip href hfree
      · simpa using hne
    exact put_spec hsettled ⟨⟨.single (.failed hip hfree), hsettled⟩, rfl, by simp⟩ dp
  · refine .bind_ok hrun ?_
    generalize ht₁ : (s.setInode ip (newInode dp ip type major g (s.inode dp).gen)).setDirents dp
      (insertEntry ⟨ip, name, g⟩ (s.inode dp).dirents) = t₁
    have hdp₁ : t₁.inode dp = (s.inode dp).withDirents
        (insertEntry ⟨ip, name, g⟩ (s.inode dp).dirents) := by
      rw [← ht₁, DirState.setDirents, inode_setInode_self, inode_setInode_ne s _ hne.symm]
    have hmade : when (type = T_DIR) (modify fun s => s.setNlink dp ((s.inode dp).nlink + 1)) t₁ =
        .ok ((), s.make dp ip name type major) := by
      unfold when DirState.make
      rw [hg]
      by_cases hdir : type = T_DIR
      · rw [if_pos hdir, if_pos hdir]
        change Except.ok ((), t₁.setNlink dp ((t₁.inode dp).nlink + 1)) = _
        rw [DirState.setNlink, hdp₁, ← ht₁, DirState.setDirents, setInode_twice]
        rfl
      rw [if_neg hdir, if_neg hdir, ← ht₁, DirState.setDirents, inode_setInode_ne s _ hne.symm]
      rfl
    refine .bind_ok hmade ?_
    have hchange : Change A s (s.make dp ip name type major) := .make hdp hip hfree htype
    have hlink : ((s.make dp ip name type major).inode dp).nlink ≠ 0 := by
      have hpos := pos_iff_toInt.1 hdp.link
      have hsucc := toInt_succ (htree.dir_links hdp.type)
      unfold DirState.make
      rw [inode_setInode_self, Inode.withNlink_nlink]
      apply ne_zero_of_pos
      split <;> omega
    have hsettled : Settled [] (s.make dp ip name type major) := by
      unfold DirState.make at hlink ⊢
      rw [inode_setInode_self] at hlink
      refine Settled.set (hset.set fun _ => ?_) fun _ => hlink
      change (1 : Int16) ≠ 0
      decide
    refine .bind_ok (hsettled.iput_keep (by simp) dp) ?_
    rintro _ rfl
    refine ⟨⟨.single hchange, hsettled⟩, rfl, ?_⟩
    intro ip' hip'
    cases hip'
    unfold DirState.make
    rw [inode_setInode_ne _ _ hne, inode_setInode_self]
    exact htype

theorem create_spec {major : Int16} {room : Room} (hcwd : (s.inode cwd).type ≠ 0) (htype : type ≠ 0)
    (hnew : NewNames s cwd path) : Triple (fun t => t = s) (create cwd path type major room)
      (fun r t => Does A s t ∧ t.proc = s.proc ∧ ∀ ip, r = some ip → (t.inode ip).type ≠ 0)
      (fun _ => ¬ Sound s) := by
  unfold create
  refine .bind (nameiparent_spec hset fun e => parentOf_error htree hcwd) ?_
  rintro r t ⟨rfl, hparent⟩
  cases r with
  | none => exact ⟨⟨.refl, hset⟩, rfl, fun _ => nofun⟩
  | some r =>
    obtain ⟨dp, name⟩ := r
    have hdir := walk_dir hparent
    refine Triple.bind_ok (ilock_ok (by rw [hdir]; decide)) ?_ t rfl
    apply Triple.bind_ok (dirlookup_ok hdir)
    cases hfind : lookup name (t.inode dp).dirents with
    | some r =>
      obtain ⟨k, ip⟩ := r
      refine .bind_ok (hset.iput_keep (by simp) dp) ?_
      apply lock_spec (used_or_unsound hdir hfind)
      intro hused
      refine .bind_ok (a := t) (t := t) rfl ?_
      apply Triple.ite
      · rintro _ _ rfl
        refine ⟨⟨.refl, hset⟩, rfl, ?_⟩
        intro ip' hip'
        cases hip'
        exact hused
      · exact fun _ => put_spec hset ⟨⟨.refl, hset⟩, rfl, fun _ => nofun⟩ ip
    | none =>
      have htakes : Takes t dp name :=
        ⟨hdir, hnew dp name hparent hfind, (htree.shape dp hdir).absent hfind⟩
      exact createNew_spec htree hset htype htakes hfind

theorem sys_unlink_spec (hcwd : (s.inode cwd).type ≠ 0) (hmay : MayRemove A s cwd path) :
    Triple (fun t => t = s) (sys_unlink cwd path) (fun _ t => Does A s t) (fun _ => ¬ Sound s) := by
  unfold sys_unlink
  refine .bind (nameiparent_spec hset fun e => parentOf_error htree hcwd) ?_
  rintro r t ⟨rfl, hparent⟩
  have hstay : Does A t t := ⟨.refl, hset⟩
  cases r with
  | none => exact hstay
  | some r =>
    obtain ⟨dp, name⟩ := r
    have hdir := walk_dir hparent
    refine Triple.bind_ok (ilock_ok (by rw [hdir]; decide)) ?_ t rfl
    refine Triple.ite (fun _ => hstay.put dp) ?_
    intro hname
    push Not at hname
    refine .bind_ok (dirlookup_ok hdir) ?_
    cases hfind : lookup name (t.inode dp).dirents with
    | none => exact hstay.put dp
    | some r =>
      obtain ⟨k, ip⟩ := r
      obtain ⟨e, hnames⟩ := Names.of_lookup hdir hfind hname
      have hpos := hnames.named_pos (htree.shape dp hdir)
      have hlinks := htree.nlink_of_named hnames.live hpos
      have hdplink := (htree.of_named hnames.live hpos).2
      apply lock_spec (used_or_unsound hdir hfind)
      intro _
      refine .bind_ok (a := t) (t := t) rfl ?_
      have hone : ¬ (t.inode ip).nlink < 1 := by
        rw [Int16.lt_iff_toInt_lt]
        have h1 : (1 : Int16).toInt = 1 := rfl
        omega
      refine .bind_ok (a := ()) (t := t) (by rw [when, if_neg hone]; rfl) ?_
      apply Triple.ite
      · intro _
        apply Triple.bind_ok (hset.iput_keep (by simp) ip)
        exact hstay.put dp
      intro hempty
      have hchange : Change A t (t.removeName dp k ip) := by
        refine .removeName hnames fun ht => ⟨?_, hmay dp name k ip hparent hfind ht⟩
        by_contra hn
        exact hempty ⟨ht, by simpa using hn⟩
      have hne : ip ≠ dp := by
        rintro rfl
        rw [htree.loop ip hnames.live] at hpos
        exact absurd hpos (lt_irrefl 0)
      refine .bind_ok (a := ())
        (t := t.setDirents dp ((t.inode dp).dirents.set k Dirent.empty)) rfl ?_
      generalize hx : ((t.inode dp).withDirents
        ((t.inode dp).dirents.set k Dirent.empty)).withNlink
          (if (t.inode ip).type = T_DIR then (t.inode dp).nlink - 1 else (t.inode dp).nlink) = x
      have hfields : when ((t.inode ip).type = T_DIR)
          (modify fun s => s.setNlink dp ((s.inode dp).nlink - 1))
          (t.setDirents dp ((t.inode dp).dirents.set k Dirent.empty)) =
          .ok ((), t.setInode dp x) := by
        unfold when
        by_cases ht : (t.inode ip).type = T_DIR
        · rw [if_pos ht, ← hx, if_pos ht]
          change Except.ok ((), (t.setDirents dp _).setNlink dp
            (((t.setDirents dp _).inode dp).nlink - 1)) = _
          rw [DirState.setNlink, DirState.setDirents, inode_setInode_self, setInode_twice]
          rfl
        · rw [if_neg ht, ← hx, if_neg ht]
          rfl
      refine .bind_ok hfields ?_
      -- the directory keeps a link, also without the subdirectory
      have hxlink : x.nlink ≠ 0 := by
        have hdp := pos_iff_toInt.1 hdplink
        rw [← hx, Inode.withNlink_nlink]
        apply ne_zero_of_pos
        by_cases ht : (t.inode ip).type = T_DIR
        · have hem : isdirempty (t.inode ip).dirents = true := by
            by_contra hn
            exact hempty ⟨ht, by simpa using hn⟩
          have htwo := htree.nlink_parent hpos ht (named_of_empty hem)
          rw [if_pos ht, toInt_pred hdp]
          omega
        · rw [if_neg ht]
          exact hdp
      have hset₂ : Settled [] (t.setInode dp x) := hset.set fun _ => hxlink
      refine .bind_ok (hset₂.iput_keep (by simp) dp) ?_
      have hfinal : (t.setInode dp x).setNlink ip (((t.setInode dp x).inode ip).nlink - 1) =
          t.removeName dp k ip := by
        unfold DirState.removeName
        rw [hx, inode_setInode_ne t x hne]
      refine .bind_ok (a := ()) (t := t.removeName dp k ip) (by rw [← hfinal]; rfl) ?_
      have hset₃ : Settled [ip] (t.removeName dp k ip) := by
        intro i htype hlink
        by_cases hi : i = ip
        · exact .inr (by simp [hi])
        refine .inl ?_
        rw [← hfinal, DirState.setNlink, inode_setInode_ne _ _ hi] at htype hlink
        have href := hset₂ i htype hlink
        exact href.resolve_right (by simp)
      refine .bind (iput_spec (A := A) hset₃) ?_
      rintro _ u ⟨hchanges, hsettled, _⟩
      exact ⟨.head hchange hchanges, hsettled⟩

end

theorem linkBad_run {n : Int16} (hset : Settled [] s) (hip : (s.inode ip).type ≠ 0)
    (hn : n = (s.inode ip).nlink) : linkBad ip (s.setNlink ip (n + 1)) = .ok (-1, s) := by
  have hback : (s.setNlink ip (n + 1)).setNlink ip
      (((s.setNlink ip (n + 1)).inode ip).nlink - 1) = s := by
    rw [DirState.setNlink, DirState.setNlink, setInode_twice, inode_setInode_self,
      Inode.withNlink_nlink, hn]
    have hcancel : (s.inode ip).nlink + 1 - 1 = (s.inode ip).nlink := by
      rw [← Int16.toBitVec_inj]
      simp
    rw [hcancel]
    simp [DirState.setInode, Inode.withNlink]
  unfold linkBad
  refine (run_bind_ok (ilock_ok ?_)).trans ?_
  · rw [DirState.setNlink, inode_setInode_self, Inode.withNlink_type]
    exact hip
  have hundo : (modify fun s => s.setNlink ip ((s.inode ip).nlink - 1) : DirM Unit)
      (s.setNlink ip (n + 1)) = .ok ((), s) :=
    congrArg (fun t => Except.ok ((), t)) hback
  refine (run_bind_ok hundo).trans ?_
  exact run_bind_ok (hset.iput_keep (List.Subset.refl _) ip)

theorem sys_link_spec {old new : Path} {room : Bool} (htree : Tree (fun _ => 0) s)
    (hset : Settled [] s) (hcwd : (s.inode cwd).type ≠ 0) (hnew : NewNames s cwd new)
    (hmax : ∀ ip, target s cwd old = .ok (some ip) → (s.inode ip).type ≠ T_DIR →
      (s.inode ip).nlink ≠ maxLinks) :
    Triple (fun t => t = s) (sys_link cwd old new room) (fun _ t => Does A s t)
      (fun _ => ¬ Sound s) := by
  unfold sys_link
  refine .bind (namei_spec hset fun e => target_error htree hcwd) ?_
  rintro r t ⟨rfl, htarget⟩
  cases r with
  | none => exact ⟨.refl, hset⟩
  | some ip =>
    refine lock_spec (target_free htree hcwd htarget) ?_ t rfl
    intro hused
    refine .bind_ok (a := t) (t := t) rfl ?_
    refine .ite (fun _ => Does.put ⟨.refl, hset⟩ ip) ?_
    intro hplain
    generalize hs₁ : t.setNlink ip ((t.inode ip).nlink + 1) = s₁
    refine .bind_ok (a := ()) (t := s₁) (by rw [← hs₁]; rfl) ?_
    have hother : ∀ i, i ≠ ip → s₁.inode i = t.inode i := by
      intro i hi
      rw [← hs₁]
      exact inode_setInode_ne t _ hi
    have hself : s₁.inode ip = (t.inode ip).withNlink ((t.inode ip).nlink + 1) := by
      rw [← hs₁]
      exact inode_setInode_self ..
    have hproc : s₁.proc = t.proc := by
      rw [← hs₁]
      rfl
    have hset₁ : Settled [ip] s₁ := by
      intro i htype hlink
      by_cases hi : i = ip
      · exact .inr (by simp [hi])
      rw [hother i hi] at htype hlink
      have href := (hset i htype hlink).resolve_right (by simp)
      unfold DirState.Referenced at href ⊢
      rw [hproc]
      exact .inl href
    have hwalk : parentOf s₁ cwd new = parentOf t cwd new := by
      refine walk_congr ?_ ?_ true _ _ new
      · intro i
        by_cases hi : i = ip
        · rw [hi, hself, Inode.withNlink_type]
        · rw [hother i hi]
      · intro i
        by_cases hi : i = ip
        · rw [hi, hself, Inode.withNlink_dirents]
        · rw [hother i hi]
    have hbad : linkBad ip s₁ = .ok (-1, t) := by
      rw [← hs₁]
      exact linkBad_run hset hused rfl
    refine .bind (nameiparent_spec hset₁ fun e he =>
      parentOf_error htree hcwd (hwalk ▸ he)) ?_
    rintro r u ⟨rfl, hparent⟩
    rw [hwalk] at hparent
    cases r with
    | none => exact Triple.run_ok hbad ⟨.refl, hset⟩ u rfl
    | some r =>
      obtain ⟨dp, name⟩ := r
      have hdir := walk_dir hparent
      have hne : dp ≠ ip := by
        rintro rfl
        exact hplain hdir
      have hdp := hother dp hne
      refine Triple.bind_ok (ilock_ok (by rw [hdp, hdir]; decide)) ?_ u rfl
      -- without a new entry the link is taken back
      have hundo : ∀ x : DirM Bool, x u = .ok (false, u) → Triple (fun v => v = u)
          (do
            if ← x then
              iput dp [ip]
              iput ip []
              pure 0
            else
              iput dp [ip]
              linkBad ip : DirM Int) (fun _ v => Does A t v) (fun _ => ¬ Sound t) := by
        intro x hx
        refine .bind_ok hx ?_
        refine .bind_ok (hset₁.iput_keep (List.Subset.refl _) dp) ?_
        exact .run_ok hbad ⟨.refl, hset⟩
      cases hfind : lookup name (t.inode dp).dirents with
      | some r =>
        exact hundo _ (dirlink_old (hset₁.mono (by simp)) (by rw [hdp]; exact hdir)
          (by rw [hdp]; exact hfind))
      | none =>
        have hlink := @dirlink_new u dp name ip room [dp, ip] (by rw [hdp]; exact hdir)
          (by rw [hdp]; exact hfind)
        cases room with
        | false => exact hundo _ hlink
        | true =>
          have hadd : u.setDirents dp (insertEntry ⟨ip, name, (u.inode ip).gen⟩
              (u.inode dp).dirents) = t.addName dp ip name := by
            unfold DirState.addName
            rw [hs₁, hself, hdp]
            rfl
          rw [if_pos rfl, hadd] at hlink
          have htakes : Takes t dp name :=
            ⟨hdir, hnew dp name hparent hfind, (htree.shape dp hdir).absent hfind⟩
          have hchange : Change A t (t.addName dp ip name) :=
            .addName htakes ⟨hused, hplain⟩ (hmax ip htarget hplain)
          have htree' := htree.change hchange
          have hset' : Settled [] (t.addName dp ip name) := by
            intro i htype hlinks
            by_cases hi : i = ip
            · -- the new name counts
              have hcount := htree'.counts ip
              rw [hi] at hlinks
              have hnamed : 0 < named ((t.addName dp ip name).inode dp) ip := by
                have hcountP := ((htree.shape dp hdir).insert
                  (e := ⟨ip, name, (t.inode ip).gen⟩) (htree.range ip hused).1.ne'
                  htakes.plain).2.2 ip (htree.range ip hused).1.ne'
                rw [← hadd, DirState.setDirents, inode_setInode_self, hdp, hself]
                rw [if_pos rfl] at hcountP
                change 0 < named ((t.inode dp).withDirents
                  (insertEntry ⟨ip, name, (t.inode ip).gen⟩ (t.inode dp).dirents)) ip
                omega
              have hpos := htree'.nlink_of_named (htree.range ip hused).1.ne' hnamed
              exact absurd hlinks (ne_zero_of_pos hpos)
            · by_cases hd : i = dp
              · rw [hd, ← hadd, DirState.setDirents, inode_setInode_self, hdp,
                  Inode.withDirents_nlink] at hlinks
                exact absurd hlinks (ne_zero_of_pos (pos_iff_toInt.1 htakes.link))
              · rw [← hadd, DirState.setDirents, inode_setInode_ne _ _ hd, hother i hi]
                  at htype hlinks
                exact hset i htype hlinks
          refine .bind_ok hlink ?_
          refine .bind_ok (hset'.iput_keep (by simp) dp) ?_
          refine .bind_ok (hset'.iput_keep (List.Subset.refl _) ip) ?_
          rintro _ rfl
          exact ⟨.single hchange, hset'⟩

end Calls

section References

variable {A : DirState → Nat → Prop} {s : DirState} {p : Fin NPROC} {pr : Proc} {path : Path}
  {room : Room}

/-- The process refers to the inode. -/
def Proc.Has (pr : Proc) (i : Nat) : Prop := pr.cwd = i ∨ ∃ fd, pr.ofile fd = some i

theorem referenced_iff {i : Nat} : s.Referenced i ↔ ∃ p pr, s.proc p = some pr ∧ pr.Has i := by
  unfold DirState.Referenced
  refine exists_congr fun p => ?_
  cases s.proc p with
  | none => simp
  | some pr => simp [Proc.refers, Proc.Has]

theorem cwd_used (htree : Tree (fun _ => 0) s) (hp : s.proc p = some pr) :
    (s.inode pr.cwd).type ≠ 0 :=
  htree.used _ (referenced_iff.2 ⟨p, pr, hp, .inl rfl⟩)

/-- References change: a new one is to an inode in use, and one that goes is to `j`. -/
theorem change_refs {proc : Fin NPROC → Option Proc} {H : List Nat} (htree : Tree (fun _ => 0) s)
    (hset : Settled [] s) (hnew : ∀ i, DirState.Referenced { s with proc := proc } i →
      s.Referenced i ∨ (s.inode i).type ≠ 0)
    (hold : ∀ i, s.Referenced i → DirState.Referenced { s with proc := proc } i ∨ i ∈ H) :
    Change A s { s with proc := proc } ∧ Settled H { s with proc := proc } := by
  constructor
  · refine .refs fun i href => ?_
    rcases hnew i href with h | h
    · exact htree.used i h
    · exact h
  · intro i htype hlink
    exact hold i ((hset i htype hlink).resolve_right (by simp))

/-- A reference of another process, or of this one. -/
theorem referenced_setProc {r : Option Proc} {i : Nat} : (s.setProc p r).Referenced i ↔
    (∃ q pr, q ≠ p ∧ s.proc q = some pr ∧ pr.Has i) ∨ ∃ pr, r = some pr ∧ pr.Has i := by
  rw [referenced_iff]
  constructor
  · rintro ⟨q, pr, hq, hi⟩
    by_cases e : q = p
    · subst e
      exact .inr ⟨pr, by simpa using hq, hi⟩
    · exact .inl ⟨q, pr, e, by simpa [e] using hq, hi⟩
  · rintro (⟨q, pr, hne, hq, hi⟩ | ⟨pr, rfl, hi⟩)
    · exact ⟨q, pr, by simpa [hne] using hq, hi⟩
    · exact ⟨p, pr, by simp, hi⟩

/-- The references of one process change. -/
theorem change_proc {r : Option Proc} {H : List Nat} (htree : Tree (fun _ => 0) s)
    (hset : Settled [] s) (hp : s.proc p = some pr)
    (hnew : ∀ pr' i, r = some pr' → pr'.Has i → (s.inode i).type ≠ 0)
    (hold : ∀ i, pr.Has i → (∃ pr', r = some pr' ∧ pr'.Has i) ∨ i ∈ H) :
    Change A s (s.setProc p r) ∧ Settled H (s.setProc p r) := by
  refine change_refs htree hset ?_ ?_
  · intro i href
    rcases referenced_setProc.1 href with ⟨q, pr', _, hq, hi⟩ | ⟨pr', hr, hi⟩
    · exact .inl (referenced_iff.2 ⟨q, pr', hq, hi⟩)
    · exact .inr (hnew pr' i hr hi)
  · intro i href
    obtain ⟨q, pr', hq, hi⟩ := referenced_iff.1 href
    by_cases e : q = p
    · subst e
      have hsame : pr' = pr := Option.some.inj (hq.symm.trans hp)
      subst hsame
      rcases hold i hi with ⟨pr'', hr, hi'⟩ | hH
      · exact .inl (referenced_setProc.2 (.inr ⟨pr'', hr, hi'⟩))
      · exact .inr hH
    · exact .inl (referenced_setProc.2 (.inl ⟨q, pr', e, hq, hi⟩))

/-- What a process refers to is in use. -/
theorem held_used (htree : Tree (fun _ => 0) s) (hp : s.proc p = some pr) {i : Nat}
    (hi : pr.Has i) : (s.inode i).type ≠ 0 :=
  htree.used i (referenced_iff.2 ⟨p, pr, hp, hi⟩)

theorem setFile_eq (hp : s.proc p = some pr) (fd : Fin NOFILE) (r : Option Nat) :
    s.setFile p fd r = s.setProc p (some { pr with ofile := update pr.ofile fd r }) := by
  unfold DirState.setFile
  rw [hp]
  rfl

section

variable (htree : Tree (fun _ => 0) s) (hset : Settled [] s) (hp : s.proc p = some pr)
include htree hset hp

/-- A descriptor changes: what it refers to then is in use, and what it referred to is in
`H`. -/
theorem change_file {fd : Fin NOFILE} {r : Option Nat} {H : List Nat}
    (hnew : ∀ i, r = some i → (s.inode i).type ≠ 0) (hold : ∀ i, pr.ofile fd = some i → i ∈ H) :
    Change A s (s.setFile p fd r) ∧ Settled H (s.setFile p fd r) := by
  rw [setFile_eq hp]
  apply change_proc htree hset hp
  · intro pr' i hpr' hi
    cases hpr'
    rcases hi with hi | ⟨fd', hi⟩
    · exact held_used htree hp (.inl hi)
    by_cases e : fd' = fd
    · subst e
      exact hnew i (by simpa using hi)
    · exact held_used htree hp (.inr ⟨fd', by simpa [e] using hi⟩)
  · intro i hi
    rcases hi with hi | ⟨fd', hi⟩
    · exact .inl ⟨_, rfl, .inl hi⟩
    by_cases e : fd' = fd
    · subst e
      exact .inr (hold i hi)
    · exact .inl ⟨_, rfl, .inr ⟨fd', by simpa [e] using hi⟩⟩

section

variable {omode : UInt32} (hnew : omode &&& O_CREATE ≠ 0 → NewNames s pr.cwd path)
include hnew

theorem openInode_spec : Triple (fun t => t = s) (openInode pr.cwd path omode room)
      (fun r t => Does A s t ∧ t.proc = s.proc ∧ ∀ ip, r = some ip → (t.inode ip).type ≠ 0)
      (fun _ => ¬ Sound s) := by
  have hcwd := cwd_used htree hp
  unfold openInode
  refine .ite ?_ ?_
  · exact fun hc => create_spec htree hset hcwd (by decide) (hnew hc)
  intro _
  refine .bind (namei_spec hset fun e => target_error htree hcwd) ?_
  rintro r t ⟨rfl, htarget⟩
  cases r with
  | none => exact ⟨⟨.refl, hset⟩, rfl, fun _ => nofun⟩
  | some ip =>
    refine lock_spec (target_free htree hcwd htarget) ?_ t rfl
    intro hused
    refine .bind_ok (a := t) (t := t) rfl ?_
    apply Triple.ite
    · exact fun _ => put_spec hset ⟨⟨.refl, hset⟩, rfl, fun _ => nofun⟩ ip
    rintro _ _ rfl
    refine ⟨⟨.refl, hset⟩, rfl, ?_⟩
    intro ip' hip'
    cases hip'
    exact hused

theorem sys_open_spec {noFile : Bool} :
    Triple (fun t => t = s) (sys_open p pr path omode room noFile) (fun _ t => Does A s t)
      (fun _ => ¬ Sound s) := by
  unfold sys_open
  refine .bind (openInode_spec (A := A) htree hset hp hnew) ?_
  rintro r t ⟨hdoes, hproc, hused⟩
  cases r with
  | none => exact hdoes
  | some ip =>
    have htree' := htree.changes hdoes.changes
    have hpt : t.proc p = some pr := by
      rw [hproc]
      exact hp
    refine Triple.bind_ok (a := t) (t := t) rfl ?_ t rfl
    refine Triple.ite (fun _ => hdoes.put ip) ?_
    intro _
    cases hfd : if noFile then none else fdalloc pr with
    | none => exact hdoes.put ip
    | some fd =>
      have hnone : pr.ofile fd = none := by
        cases noFile with
        | true => cases hfd
        | false => simpa using List.find?_some hfd
      obtain ⟨hchange, hsettled⟩ := change_file (A := A) (H := []) htree' hdoes.settled hpt
        (fun i hi => hused i hi) (fun i hi => absurd (hnone.symm.trans hi) nofun)
      refine .bind_ok (a := ()) (t := t.setFile p fd (some ip)) rfl ?_
      rintro _ rfl
      exact ⟨hdoes.changes.tail hchange, hsettled⟩

end

theorem makeNode_spec {type major : Int16} (htype : type ≠ 0) (hnew : NewNames s pr.cwd path) :
    Triple (fun t => t = s) (makeNode pr.cwd path type major room) (fun _ t => Does A s t)
      (fun _ => ¬ Sound s) := by
  unfold makeNode
  refine .bind (create_spec (A := A) htree hset (cwd_used htree hp) htype hnew) ?_
  rintro r t ⟨hdoes, _, _⟩
  cases r with
  | none => exact hdoes
  | some ip => exact hdoes.put ip t rfl

theorem sys_chdir_spec : Triple (fun t => t = s) (sys_chdir p pr path) (fun _ t => Does A s t)
      (fun _ => ¬ Sound s) := by
  have hcwd := cwd_used htree hp
  unfold sys_chdir
  refine .bind (namei_spec hset fun e => target_error htree hcwd) ?_
  rintro r t ⟨rfl, htarget⟩
  cases r with
  | none => exact ⟨.refl, hset⟩
  | some ip =>
    refine lock_spec (target_free htree hcwd htarget) ?_ t rfl
    intro hused
    refine .bind_ok (a := t) (t := t) rfl ?_
    refine .ite (fun _ => Does.put ⟨.refl, hset⟩ ip) ?_
    intro _
    have hset' : t.setCwd p ip = t.setProc p (some { pr with cwd := ip }) := by
      unfold DirState.setCwd
      rw [hp]
      rfl
    have hnext := change_proc (A := A) (H := [pr.cwd]) htree hset hp
      (r := some { pr with cwd := ip }) ?_ ?_
    · obtain ⟨hchange, hsettled⟩ := hnext
      refine .bind_ok (a := ()) (t := t.setProc p (some { pr with cwd := ip }))
        (by rw [← hset']; rfl) ?_
      refine .bind (iput_spec (A := A) hsettled) ?_
      rintro _ u ⟨hchanges, hu, _⟩
      exact ⟨.head hchange hchanges, hu⟩
    · intro pr' i hpr' hi
      cases hpr'
      rcases hi with hi | hi
      · exact hi ▸ hused
      · exact held_used htree hp (.inr hi)
    · intro i hi
      rcases hi with hi | hi
      · exact .inr (by simp [hi])
      · exact .inl ⟨_, rfl, .inr hi⟩

/-- Closing a descriptor. -/
theorem closeFile_spec (fd : Fin NOFILE) {E : DirPanic → Prop} :
    Triple (fun t => t = s) (closeFile p fd)
      (fun _ t => Does A s t ∧
        t.proc p = some { pr with ofile := update pr.ofile fd none }) E := by
  unfold closeFile
  refine .bind_ok (a := s) (t := s) rfl ?_
  have hbind : ((s.proc p).bind fun pr => pr.ofile fd) = pr.ofile fd := by
    rw [hp]
    rfl
  rw [hbind]
  cases hfd : pr.ofile fd with
  | none =>
    rintro _ rfl
    refine ⟨⟨.refl, hset⟩, ?_⟩
    rw [hp, update_eq_self_iff.2 hfd.symm]
  | some ip =>
    obtain ⟨hchange, hsettled⟩ := change_file (A := A) (r := none) (H := [ip]) htree hset hp
      (fun _ => nofun) (fun i hi => by simpa using (hfd.symm.trans hi).symm)
    refine .bind_ok (a := ()) rfl ?_
    refine .conseq (iput_spec (A := A) hsettled) (fun _ h => h) ?_ (fun _ h => h)
    rintro _ u ⟨hchanges, hu, hproc⟩
    refine ⟨⟨.head hchange hchanges, hu⟩, ?_⟩
    rw [hproc, setFile_eq hp]
    simp

theorem kexit_spec {E : DirPanic → Prop} :
    Triple (fun t => t = s) (kexit p pr) (fun _ t => Does A s t) E := by
  unfold kexit
  have hloop := Triple.forM_done (E := E) (f := closeFile p)
    (I := fun done t => Does A s t ∧ ∃ pr', t.proc p = some pr' ∧ pr'.cwd = pr.cwd ∧
      ∀ fd ∈ done, pr'.ofile fd = none) (l := List.finRange NOFILE) ?_
  · refine .bind (.pre hloop ?_) ?_
    · rintro t rfl
      exact ⟨⟨.refl, hset⟩, pr, hp, rfl, by simp⟩
    · rintro _ t ⟨hdoes, pr', hpt, hcwd, hclosed⟩
      have htree' := htree.changes hdoes.changes
      have hnext := change_proc (A := A) (H := [pr.cwd]) htree' hdoes.settled hpt
        (r := none) (fun _ _ => nofun) ?_
      · obtain ⟨hchange, hsettled⟩ := hnext
        refine Triple.bind_ok (a := ()) (t := t.setProc p none) rfl ?_ t rfl
        refine Triple.conseq (iput_spec (A := A) hsettled) (fun _ h => h) ?_ (fun _ h => h)
        rintro _ u ⟨hchanges, hu, _⟩
        exact ⟨hdoes.changes.trans (.head hchange hchanges), hu⟩
      · intro i hi
        rcases hi with hi | ⟨fd, hi⟩
        · exact .inr (by simp [← hi, hcwd])
        · rw [hclosed fd (List.mem_finRange fd)] at hi
          cases hi
  · rintro done fd rest _ t ⟨hdoes, pr', hpt, hcwd, hclosed⟩
    have htree' := htree.changes hdoes.changes
    refine Triple.conseq (closeFile_spec (A := A) htree' hdoes.settled hpt fd) (fun u hu => hu) ?_
      (fun _ h => h) t rfl
    rintro _ u ⟨hdoes', hpu⟩
    refine ⟨⟨hdoes.changes.trans hdoes'.changes, hdoes'.settled⟩, _, hpu, hcwd, ?_⟩
    intro fd' hfd'
    by_cases e : fd' = fd
    · rw [e]
      exact update_self ..
    rcases List.mem_append.1 hfd' with h | h
    · exact (update_of_ne e _ _).trans (hclosed fd' h)
    · exact absurd (List.mem_singleton.1 h) e

/-- A child has the references of its parent. -/
theorem fork_spec {child : Fin NPROC} (hchild : s.proc child = none) :
    Does A s (s.setProc child (some pr)) := by
  have hnext := @change_refs A s (s.setProc child (some pr)).proc [] htree hset ?_ ?_
  · obtain ⟨hchange, hsettled⟩ := hnext
    exact ⟨.single hchange, hsettled⟩
  · intro i href
    have href' : (s.setProc child (some pr)).Referenced i := href
    rcases referenced_setProc.1 href' with ⟨q, pr', _, hq, hi⟩ | ⟨pr', hr, hi⟩
    · exact .inl (referenced_iff.2 ⟨q, pr', hq, hi⟩)
    · cases hr
      exact .inl (referenced_iff.2 ⟨p, pr, hp, hi⟩)
  · intro i href
    obtain ⟨q, pr', hq, hi⟩ := referenced_iff.1 href
    have hne : q ≠ child := by
      rintro rfl
      rw [hchild] at hq
      cases hq
    refine .inl ?_
    change (s.setProc child (some pr)).Referenced i
    exact referenced_setProc.2 (.inl ⟨q, pr', hne, hq, hi⟩)

/-- **A call under the condition** is a sequence of changes. -/
theorem run_spec {c : Call} (hcalm : Calm A s pr.cwd c) :
    Triple (fun t => t = s) (c.run p pr) (fun _ t => Does A s t) (fun _ => ¬ Sound s) := by
  have hcwd := cwd_used htree hp
  have hdrop : ∀ {α : Type} {x : DirM α},
      Triple (fun t => t = s) x (fun _ t => Does A s t) (fun _ => ¬ Sound s) →
      Triple (fun t => t = s) (do let _ ← x) (fun _ t => Does A s t) (fun _ => ¬ Sound s) :=
    fun hx => .bind hx fun _ => .pure _ fun _ h => h
  cases c with
  | «open» path omode room noFile => exact hdrop (sys_open_spec htree hset hp hcalm)
  | mkdir path room => exact hdrop (makeNode_spec htree hset hp (by decide) hcalm)
  | mknod path major room => exact hdrop (makeNode_spec htree hset hp (by decide) hcalm)
  | link old new room => exact hdrop (sys_link_spec htree hset hcwd hcalm.1 hcalm.2)
  | unlink path => exact hdrop (sys_unlink_spec htree hset hcwd hcalm)
  | chdir path => exact hdrop (sys_chdir_spec htree hset hp)
  | close fd =>
    exact .conseq (closeFile_spec htree hset hp fd) (fun _ h => h) (fun _ _ h => h.1) (fun _ h => h)
  | exit => exact kexit_spec htree hset hp
  | fork child =>
    refine .bind_ok (a := s) (t := s) rfl ?_
    unfold when
    refine .ite ?_ ?_
    · rintro hchild _ rfl
      exact fork_spec htree hset hp hchild
    · rintro _ _ rfl
      exact ⟨.refl, hset⟩

end

end References

end Kus.Dir
