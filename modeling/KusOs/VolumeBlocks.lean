import KusOs.FileCalls
import KusOs.Lockstep
import KusOs.Volume

/-!
# The blocks of a volume

The functions of `Volume` allocate, find and free blocks as those of `BlockLayer` do:
they run in lockstep, if a word of a block is read as the four bytes it is made of.

* `bmap_lockstep`, `itrunc_lockstep`, ... — the functions one by one;
* `bmap_keeps`, `itrunc_quiet` — what they leave alone among the bytes: `bmap` changes
  only blocks that were not in use and the indirect block of its inode, and `itrunc`
  changes no block at all.
-/

namespace Kus.Volume

open Function Hoare LittleEndian
open Fs (FsPanic FsState Store)
open Mkfs (BPB IPB zeroes slice)

/-- The volume as the block layer sees it. -/
def Vol.store (v : Vol) : Store where
  bitmap := v.bitmap
  words := fun b j => v.word b j
  dinode := v.dinode
  inode := v.inode

/-- The block layer has this volume. -/
structure Shows (v : Vol) (t : FsState) : Prop where
  bitmap : t.bitmap = v.bitmap
  word : ∀ b (j : Fin NINDIRECT), t.words b j = v.word b j
  dinode : t.dinode = v.dinode
  inode : t.inode = v.inode

namespace Shows

variable {v : Vol} {t : FsState}

theorem store (h : Shows v t) : t.toStore = v.store := by
  have hwords : t.words = fun b (j : Fin NINDIRECT) => v.word b j := by
    funext b j
    exact h.word b j
  unfold Vol.store
  rw [← h.bitmap, ← hwords, ← h.dinode, ← h.inode]

theorem of_store (v : Vol) (handed : List (Nat × Store)) : Shows v ⟨v.store, handed⟩ :=
  ⟨rfl, fun _ _ => rfl, rfl, rfl⟩

theorem ip (h : Shows v t) (i : Nat) : t.ip i = v.ip i := by
  unfold Store.ip Vol.ip
  rw [h.inode, h.dinode]

/-- Changing the same inode in the same way. -/
theorem setIp (h : Shows v t) (i : Nat) (d : Dinode) : Shows (v.setIp i d) (t.setIp i d) := by
  refine ⟨h.bitmap, h.word, h.dinode, ?_⟩
  unfold FsState.setIp Vol.setIp
  rw [h.inode]

theorem setAddr (h : Shows v t) (i : Nat) (k : Fin (NDIRECT + 1)) (b : Nat) :
    Shows (v.setAddr i k b) (t.setAddr i k b) := by
  unfold FsState.setAddr Vol.setAddr
  rw [h.ip]
  exact h.setIp i _

end Shows

section Views

variable {v : Vol} {b c : Nat}

theorem view_edit (v : Vol) (b c : Nat) (f : Buffer → Buffer) :
    (v.edit b f).view c = if c = b then f (v.view b) else v.view c := by
  by_cases e : c = b
  · rw [if_pos e, e]
    simp [Vol.edit, Vol.view]
  · rw [if_neg e]
    simp [Vol.edit, Vol.view, e]

@[simp] theorem view_logWrite (v : Vol) (x : LogBlock) : (v.logWrite x).view = v.view := rfl

@[simp] theorem word_logWrite (v : Vol) (x : LogBlock) : (v.logWrite x).word = v.word := rfl

theorem word_edit (v : Vol) (b c j : Nat) (f : Buffer → Buffer) :
    (v.edit b f).word c j = if c = b then getLE (f (v.view b)) (4 * j) 4 else v.word c j := by
  unfold Vol.word
  rw [view_edit]
  by_cases e : c = b
  · rw [if_pos e, if_pos e]
  · rw [if_neg e, if_neg e]

/-- Storing a word changes this word only. -/
theorem word_putLE {buf : Buffer} {i j : Fin Kus.NINDIRECT} {a : Nat} (ha : a < 2 ^ 32) :
    getLE (putLE buf (4 * j) 4 a) (4 * i) 4 = if i = j then a else getLE buf (4 * i) 4 := by
  by_cases e : i = j
  · rw [if_pos e, e]
    exact getLE_putLE (by simpa using ha)
  rw [if_neg e]
  have hne : i.val ≠ j.val := fun h => e (Fin.ext h)
  apply getLE_congr
  intro k hlo hhi
  rcases Nat.lt_or_gt_of_ne hne with hlt | hgt
  · exact putLE_of_lt (by omega)
  · exact putLE_of_le (by omega)

end Views

section Lockstep

variable {sb : Superblock}

theorem balloc_lockstep : Lockstep Shows (balloc sb) (Fs.balloc sb) := by
  apply Lockstep.get_bind
  intro v t h
  rw [h.bitmap]
  cases (List.range sb.size).find? fun b => !v.bitmap b with
  | none => exact .pure 0
  | some b =>
    apply Lockstep.of_runs
    intro _ _ _
    refine ⟨b, _, _, rfl, rfl, ?_, ?_, h.dinode, h.inode⟩
    · simp only [FsState.take, h.bitmap]
      rfl
    · intro c j
      rw [word_logWrite, word_edit]
      by_cases e : c = b
      · have hzero : getLE zeroes (4 * j) 4 = 0 := getLE_zero fun _ _ _ => rfl
        rw [if_pos e, hzero, e]
        simp [FsState.take]
      rw [if_neg e]
      simp only [FsState.take, update_of_ne e, h.word]
      rfl

theorem balloc_lt {t t' : FsState} {b : Nat} (h : Fs.balloc sb t = .ok (b, t')) :
    b = 0 ∨ b < sb.size := by
  have hspec := @Fs.balloc_spec sb (fun _ => False) t
  rcases hspec.of_ok rfl h with hnone | hsome
  · exact .inl hnone.1
  · exact .inr hsome.2.1

theorem bfree_lockstep (b : Nat) : Lockstep Shows (bfree b) (Fs.bfree b) := by
  apply Lockstep.get_bind
  intro v t h
  rw [h.bitmap]
  apply Lockstep.ite Iff.rfl (.throw _)
  apply Lockstep.of_runs
  intro _ _ _
  exact ⟨_, _, _, rfl, rfl, rfl, h.word, h.dinode, h.inode⟩

theorem mapAddr_lockstep (i : Nat) (k : Fin (NDIRECT + 1)) :
    Lockstep Shows (mapAddr sb i k) (Fs.mapAddr sb i k) := by
  apply Lockstep.get_bind
  intro v t h
  rw [h.ip]
  apply Lockstep.ite Iff.rfl _ (.pure _)
  apply Lockstep.bind balloc_lockstep
  intro addr
  apply Lockstep.ite Iff.rfl (.pure _)
  exact .bind (.modify fun v t h => h.setAddr i k addr) fun _ => .pure addr

/-- Block numbers fit in a word. -/
theorem mapEntry_lockstep (hsb : sb.size ≤ 2 ^ 32) (a : Nat) (j : Fin NINDIRECT) :
    Lockstep Shows (mapEntry sb a j) (Fs.mapEntry sb a j) := by
  apply Lockstep.get_bind
  intro v t h
  rw [h.word]
  apply Lockstep.ite Iff.rfl _ (.pure _)
  apply Lockstep.bind_of (P := fun addr => addr < 2 ^ 32) balloc_lockstep
  · intro t addr t' hrun
    rcases balloc_lt hrun with hzero | hlt
    · omega
    · omega
  · intro addr haddr
    apply Lockstep.ite Iff.rfl (.pure _)
    apply Lockstep.of_runs
    intro v t h
    refine ⟨_, _, _, rfl, rfl, h.bitmap, ?_, h.dinode, h.inode⟩
    intro c l
    rw [word_logWrite, word_edit]
    change update t.words a (update (t.words a) j addr) c l = _
    by_cases e : c = a
    · rw [if_pos e, word_putLE haddr, e, update_self]
      by_cases el : l = j
      · rw [el, update_self, if_pos rfl]
      · rw [update_of_ne el, if_neg el]
        exact h.word a l
    · rw [if_neg e, update_of_ne e]
      exact h.word c l

theorem bmap_lockstep (hsb : sb.size ≤ 2 ^ 32) (i bn : Nat) :
    Lockstep Shows (bmap sb i bn) (Fs.bmap sb i bn) := by
  unfold bmap Fs.bmap
  by_cases hd : bn < NDIRECT
  · rw [dif_pos hd, dif_pos hd]
    exact mapAddr_lockstep i _
  rw [dif_neg hd, dif_neg hd]
  by_cases hi : bn - NDIRECT < NINDIRECT
  · rw [dif_pos hi, dif_pos hi]
    apply Lockstep.bind (mapAddr_lockstep i _)
    intro a
    exact .ite Iff.rfl (.pure _) (mapEntry_lockstep hsb a _)
  · rw [dif_neg hi, dif_neg hi]
    exact .throw _

theorem iupdate_lockstep (i : Nat) : Lockstep Shows (iupdate i) (Fs.iupdate i) := by
  apply Lockstep.of_runs
  intro v t h
  refine ⟨_, _, _, rfl, rfl, h.bitmap, h.word, ?_, h.inode⟩
  change update t.dinode i (t.ip i) = update v.dinode i (v.ip i)
  rw [h.dinode, h.ip]

theorem freeDirect_lockstep (i : Nat) (k : Fin NDIRECT) :
    Lockstep Shows (freeDirect i k) (Fs.freeDirect i k) := by
  apply Lockstep.get_bind
  intro v t h
  rw [h.ip]
  apply Lockstep.ite Iff.rfl _ (.pure _)
  apply Lockstep.bind (bfree_lockstep _)
  intro _
  exact .modify fun v t h => h.setAddr i _ 0

theorem freeEntry_lockstep (a : Nat) (j : Fin NINDIRECT) :
    Lockstep Shows (freeEntry a j) (Fs.freeEntry a j) := by
  apply Lockstep.get_bind
  intro v t h
  rw [h.word]
  exact .ite Iff.rfl (bfree_lockstep _) (.pure _)

theorem freeIndirect_lockstep (i : Nat) : Lockstep Shows (freeIndirect i) (Fs.freeIndirect i) := by
  apply Lockstep.get_bind
  intro v t h
  rw [h.ip]
  apply Lockstep.ite Iff.rfl _ (.pure _)
  apply Lockstep.bind (.forM (freeEntry_lockstep _) _)
  intro _
  apply Lockstep.bind (bfree_lockstep _)
  intro _
  exact .modify fun v t h => h.setAddr i _ 0

/-- **`itrunc`** frees the blocks that the block layer frees. -/
theorem itrunc_lockstep (i : Nat) : Lockstep Shows (itrunc i) (Fs.itrunc i) := by
  apply Lockstep.bind (.forM (freeDirect_lockstep i) _)
  intro _
  apply Lockstep.bind (freeIndirect_lockstep i)
  intro _
  apply Lockstep.bind _ fun _ => iupdate_lockstep i
  apply Lockstep.modify
  intro v t h
  rw [h.ip]
  exact h.setIp i _

end Lockstep

section Frames

variable {sb : Superblock} {v w u : Vol} {a : Nat}

/-- From `v` to `w` blocks have been taken and block `a` may have changed: the other
blocks in use hold what they held, and what has changed is in the log. -/
structure Keeps (a : Nat) (v w : Vol) : Prop where
  marked : ∀ b, v.bitmap b = true → w.bitmap b = true
  view : ∀ b, v.bitmap b = true → b ≠ a → w.view b = v.view b
  disk : w.disk = v.disk
  log : ∀ x ∈ v.log, x ∈ w.log
  taken : ∀ b, v.bitmap b = false → w.bitmap b = true → .data b ∈ w.log
  logged : ∀ b, .data b ∈ w.log ∨ w.view b = v.view b

theorem mem_logWrite {x y : LogBlock} : y ∈ (v.logWrite x).log ↔ y ∈ v.log ∨ y = x := by
  unfold Vol.logWrite
  by_cases hx : x ∈ v.log
  · simp only [if_pos hx]
    constructor
    · exact fun hy => .inl hy
    · intro hy
      rcases hy with hy | hy
      · exact hy
      · rw [hy]
        exact hx
  · simp [if_neg hx]

namespace Keeps

theorem refl (a : Nat) (v : Vol) : Keeps a v v :=
  ⟨fun _ h => h, fun _ _ _ => rfl, rfl, fun _ h => h, fun _ h h' => by simp [h] at h',
    fun _ => .inr rfl⟩

/-- The block that changes in the second part may be one that was not in use at first. -/
theorem trans {c : Nat} (hvw : Keeps a v w) (hwu : Keeps c w u)
    (hc : c = a ∨ v.bitmap c = false) : Keeps a v u := by
  constructor
  · intro b hb
    exact hwu.marked b (hvw.marked b hb)
  · intro b hb hne
    have hbc : b ≠ c := by
      intro hbc
      rcases hc with hc | hc
      · exact hne (hbc.trans hc)
      · rw [← hbc, hb] at hc
        cases hc
    rw [hwu.view b (hvw.marked b hb) hbc, hvw.view b hb hne]
  · rw [hwu.disk, hvw.disk]
  · intro x hx
    exact hwu.log x (hvw.log x hx)
  · intro b hb hb'
    cases hw : w.bitmap b with
    | true => exact hwu.log _ (hvw.taken b hb hw)
    | false => exact hwu.taken b hw hb'
  · intro b
    rcases hwu.logged b with hlog | hsame
    · exact .inl hlog
    rcases hvw.logged b with hlog | hsame'
    · exact .inl (hwu.log _ hlog)
    · exact .inr (hsame.trans hsame')

/-- Block `b` is changed and logged. -/
theorem logEdit (v : Vol) (b : Nat) (f : Buffer → Buffer) :
    Keeps b v ((v.edit b f).logWrite (.data b)) := by
  constructor
  · exact fun _ h => h
  · intro c _ hne
    rw [view_logWrite, view_edit, if_neg hne]
  · rfl
  · intro x hx
    exact mem_logWrite.2 (.inl hx)
  · intro c hc hc'
    exact absurd (hc.symm.trans hc') (by simp)
  · intro c
    by_cases e : c = b
    · exact .inl (mem_logWrite.2 (.inr (by rw [e])))
    · right
      rw [view_logWrite, view_edit, if_neg e]

end Keeps

theorem balloc_keeps (a : Nat) (v : Vol) :
    Triple (fun w => w = v) (balloc sb)
      (fun r w => Keeps a v w ∧ (r = 0 ∨ v.bitmap r = false)) fun _ => True := by
  apply Triple.bind_ok rfl
  cases hfind : (List.range sb.size).find? fun b => !v.bitmap b with
  | none =>
    intro w hw
    rw [hw]
    exact ⟨.refl a v, .inl rfl⟩
  | some b =>
    have hclear : v.bitmap b = false := by
      have hfound := List.find?_some hfind
      simpa using hfound
    intro _ _
    let marked : Vol := { v with bitmap := update v.bitmap b true }
    let zeroed := ((marked.logWrite (.bitmap (b / BPB))).edit b fun _ => zeroes).logWrite (.data b)
    have hlog : ∀ x, x ∈ v.log ∨ x = .data b → x ∈ zeroed.log := by
      intro x hx
      rcases hx with hx | hx
      · exact mem_logWrite.2 (.inl (mem_logWrite.2 (.inl hx)))
      · exact mem_logWrite.2 (.inr hx)
    have hview : ∀ c, c ≠ b → zeroed.view c = v.view c := by
      intro c hc
      rw [view_logWrite, view_edit, if_neg hc]
      rfl
    have hbits : ∀ c, c ≠ b → zeroed.bitmap c = v.bitmap c := by
      intro c hc
      exact update_of_ne hc _ _
    refine (?_ : Keeps a v zeroed ∧ _)
    refine ⟨⟨?_, ?_, rfl, fun x hx => hlog x (.inl hx), ?_, ?_⟩, .inr hclear⟩
    · intro c hc
      by_cases e : c = b
      · rw [e]
        exact update_self ..
      · rw [hbits c e, hc]
    · intro c hc _
      apply hview c
      intro e
      rw [e, hclear] at hc
      cases hc
    · intro c hc hc'
      by_cases e : c = b
      · exact hlog _ (.inr (by rw [e]))
      · rw [hbits c e, hc] at hc'
        cases hc'
    · intro c
      by_cases e : c = b
      · exact .inl (hlog _ (.inr (by rw [e])))
      · exact .inr (hview c e)

theorem mapAddr_keeps (a i : Nat) (k : Fin (NDIRECT + 1)) (v : Vol) :
    Triple (fun w => w = v) (mapAddr sb i k)
      (fun r w => Keeps a v w ∧ (r = (v.ip i).addrs k ∨ r = 0 ∨ v.bitmap r = false))
      fun _ => True := by
  apply Triple.bind_ok rfl
  apply Triple.ite
  · intro _
    apply Triple.bind (balloc_keeps a v)
    intro addr
    apply Triple.ite
    · intro hzero w hw
      exact ⟨hw.1, .inr (.inl rfl)⟩
    intro _ w hw
    have hset : Keeps a w (w.setAddr i k addr) :=
      ⟨fun _ h => h, fun _ _ _ => rfl, rfl, fun _ h => h,
        fun _ h h' => absurd (h.symm.trans h') (by simp), fun _ => .inr rfl⟩
    exact ⟨hw.1.trans hset (.inl rfl), .inr hw.2⟩
  · intro _ w hw
    rw [hw]
    exact ⟨.refl a v, .inl rfl⟩

theorem mapEntry_keeps (a : Nat) (j : Fin NINDIRECT) (v : Vol) :
    Triple (fun w => w = v) (mapEntry sb a j) (fun _ w => Keeps a v w) fun _ => True := by
  apply Triple.bind_ok rfl
  apply Triple.ite
  · intro _
    apply Triple.bind (balloc_keeps a v)
    intro addr
    apply Triple.ite
    · intro _ w hw
      exact hw.1
    · intro _ w hw
      exact hw.1.trans (.logEdit w a _) (.inl rfl)
  intro _ w hw
  rw [hw]
  exact .refl a v

/-- **What `bmap` leaves alone**: of the blocks in use it changes only the indirect
block of inode `i`. -/
theorem bmap_keeps (i bn : Nat) (v : Vol) :
    Triple (fun w => w = v) (bmap sb i bn)
      (fun _ w => Keeps ((v.ip i).addrs (Fin.last NDIRECT)) v w) fun _ => True := by
  unfold bmap
  by_cases hd : bn < NDIRECT
  · rw [dif_pos hd]
    exact .conseq (mapAddr_keeps _ i _ v) (fun _ h => h) (fun _ _ h => h.1) fun _ h => h
  rw [dif_neg hd]
  by_cases hi : bn - NDIRECT < NINDIRECT
  · rw [dif_pos hi]
    apply Triple.bind (mapAddr_keeps ((v.ip i).addrs (Fin.last NDIRECT)) i _ v)
    intro a
    apply Triple.ite
    · intro _ w hw
      exact hw.1
    intro hne w hw
    refine Triple.conseq (mapEntry_keeps a _ w) (fun _ h => h) ?_ (fun _ h => h) w rfl
    intro _ u hu
    have hindirect : a = (v.ip i).addrs (Fin.last NDIRECT) ∨ v.bitmap a = false := by
      rcases hw.2 with hold | hzero | hnew
      · exact .inl hold
      · exact absurd hzero hne
      · exact .inr hnew
    exact hw.1.trans hu hindirect
  · rw [dif_neg hi]
    exact .throw fun _ _ => trivial

/-- From `v` to `w` no block has changed and no inode but `i`. -/
structure Quiet (i : Nat) (v w : Vol) : Prop where
  cache : w.cache = v.cache
  disk : w.disk = v.disk
  log : ∀ x ∈ v.log, x ∈ w.log
  inode : ∀ j, j ≠ i → w.inode j = v.inode j
  dinode : ∀ j, j ≠ i → w.dinode j = v.dinode j

namespace Quiet

variable {i : Nat}

theorem refl (i : Nat) (v : Vol) : Quiet i v v :=
  ⟨rfl, rfl, fun _ h => h, fun _ _ => rfl, fun _ _ => rfl⟩

theorem setIp (h : Quiet i v w) (d : Dinode) : Quiet i v (w.setIp i d) := by
  refine ⟨h.cache, h.disk, h.log, ?_, h.dinode⟩
  intro j hj
  change update w.inode i (some d) j = v.inode j
  rw [update_of_ne hj, h.inode j hj]

theorem logWrite (h : Quiet i v w) (x : LogBlock) : Quiet i v (w.logWrite x) :=
  ⟨h.cache, h.disk, fun y hy => mem_logWrite.2 (.inl (h.log y hy)), h.inode, h.dinode⟩

end Quiet

/-- `bfree` of a block in use. -/
def Vol.freed (v : Vol) (b : Nat) : Vol :=
  ({ v with bitmap := update v.bitmap b false } : Vol).logWrite (.bitmap (b / BPB))

def Vol.updated (v : Vol) (i : Nat) : Vol :=
  ({ v with dinode := update v.dinode i (v.ip i) } : Vol).logWrite (.inode (i / IPB))

/-- What each step of `itrunc` keeps. -/
structure TruncKeeps (i : Nat) (v : Vol) (P : Vol → Prop) : Prop where
  freed : ∀ w b x, P w → b ≠ 0 → v.store.ptr (i, x) = b → P (w.freed b)
  setIp : ∀ w d, P w → P (w.setIp i d)
  updated : ∀ w, P w → P (w.updated i)

/-- Inside `itrunc`: no block has changed, and an address is as it was or cleared. -/
structure Truncating (i : Nat) (v : Vol) (P : Vol → Prop) (w : Vol) : Prop where
  holds : P w
  view : w.view = v.view
  addr : ∀ k, (w.ip i).addrs k ≠ 0 → (w.ip i).addrs k = (v.ip i).addrs k

section Truncation

variable {i b : Nat} {x : Fs.Place} {P : Vol → Prop} (h : TruncKeeps i v P)

include h

theorem bfree_rule (hb : b ≠ 0) (hx : v.store.ptr (i, x) = b) :
    Triple (Truncating i v P) (bfree b) (fun _ => Truncating i v P) fun _ => True := by
  apply Triple.get_bind
  intro w hw
  apply Triple.ite
  · exact fun _ => .throw fun _ _ => trivial
  · exact fun _ _ _ => ⟨h.freed w b x hw.holds hb hx, hw.view, hw.addr⟩

theorem clearAddr_rule (k : Fin (NDIRECT + 1)) (hw : Truncating i v P w) :
    Truncating i v P (w.setAddr i k 0) := by
  refine ⟨h.setIp w _ hw.holds, hw.view, ?_⟩
  intro k' hne
  have hself : ((w.setAddr i k 0).ip i).addrs = update (w.ip i).addrs k 0 := by
    simp [Vol.setAddr, Vol.setIp, Vol.ip]
  rw [hself] at hne ⊢
  by_cases e : k' = k
  · rw [e, update_self] at hne
    exact absurd rfl hne
  · rw [update_of_ne e] at hne ⊢
    exact hw.addr k' hne

theorem freeAddr_rule (htype : (v.ip i).type ≠ 0) (k : Fin (NDIRECT + 1))
    (hw : Truncating i v P w) (hne : (w.ip i).addrs k ≠ 0) :
    Triple (Truncating i v P)
      (do
        bfree ((w.ip i).addrs k)
        modify fun u => u.setAddr i k 0)
      (fun _ => Truncating i v P) fun _ => True := by
  have hptr : v.store.ptr (i, .inl k) = (w.ip i).addrs k := by
    have hip : v.store.ip i = v.ip i := rfl
    simp [Store.ptr, Fs.ptrOf, hip, htype, hw.addr k hne]
  apply Triple.bind (bfree_rule h hne hptr)
  exact fun _ => .modify fun u hu => clearAddr_rule h k hu

theorem freeIndirect_rule (htype : (v.ip i).type ≠ 0) :
    Triple (Truncating i v P) (freeIndirect i) (fun _ => Truncating i v P) fun _ => True := by
  apply Triple.get_bind
  intro w hw
  apply Triple.ite
  · intro hne
    have hlast := hw.addr _ hne
    have hentry : ∀ j : Fin NINDIRECT, Triple (Truncating i v P)
        (freeEntry ((w.ip i).addrs (Fin.last NDIRECT)) j) (fun _ => Truncating i v P)
        fun _ => True := by
      intro j
      apply Triple.get_bind
      intro u hu
      apply Triple.ite
      · intro hword
        have hptr : v.store.ptr (i, .inr j) =
            u.word ((w.ip i).addrs (Fin.last NDIRECT)) j := by
          have hip : v.store.ip i = v.ip i := rfl
          rw [hlast] at hne ⊢
          unfold Vol.word
          rw [hu.view]
          simp only [Store.ptr, Fs.ptrOf, hip, htype, hne, or_self, if_false]
          rfl
        exact .here (bfree_rule h hword hptr) hu
      · exact fun _ => .pure _ fun _ e => e ▸ hu
    apply Triple.bind (.here (.forM fun j _ => hentry j) hw)
    exact fun _ => freeAddr_rule h htype _ hw hne
  · exact fun _ => .pure _ fun _ e => e ▸ hw

/-- **Truncation rule.**  What holds before `itrunc` and is kept by each of its steps
holds after it. -/
theorem itrunc_rule (htype : (v.ip i).type ≠ 0) (hv : P v) :
    Triple (fun w => w = v) (itrunc i) (fun _ => P) fun _ => True := by
  have hdirect : ∀ k : Fin NDIRECT, Triple (Truncating i v P) (freeDirect i k)
      (fun _ => Truncating i v P) fun _ => True := by
    intro k
    apply Triple.get_bind
    intro w hw
    apply Triple.ite
    · exact fun hne => .here (freeAddr_rule h htype _ hw hne) hw
    · exact fun _ => .pure _ fun _ e => e ▸ hw
  apply Triple.here (P := Truncating i v P) _ ⟨hv, rfl, fun _ _ => rfl⟩
  apply Triple.bind (.forM fun k _ => hdirect k)
  intro _
  apply Triple.bind (freeIndirect_rule h htype)
  intro _
  apply Triple.bind (Q := fun _ => P)
  · exact .modify fun w hw => h.setIp w _ hw.holds
  · exact fun _ w hw => h.updated w hw

end Truncation

/-- **`itrunc` changes no block.** -/
theorem itrunc_quiet {i : Nat} (htype : (v.ip i).type ≠ 0) :
    Triple (fun w => w = v) (itrunc i) (fun _ w => Quiet i v w) fun _ => True := by
  apply itrunc_rule _ htype (Quiet.refl i v)
  constructor
  · intro w b x hw _ _
    have hcleared : Quiet i v { w with bitmap := update w.bitmap b false } :=
      ⟨hw.cache, hw.disk, hw.log, hw.inode, hw.dinode⟩
    exact hcleared.logWrite _
  · exact fun w d hw => hw.setIp d
  · intro w hw
    apply Quiet.logWrite
    refine ⟨hw.cache, hw.disk, hw.log, hw.inode, ?_⟩
    intro j hj
    change update w.dinode i (w.ip i) j = v.dinode j
    rw [update_of_ne hj, hw.dinode j hj]

/-- What freeing inode `i` puts into the log: blocks of the bitmap for the blocks of the
inode, and the block of its dinode. -/
structure Logs (i : Nat) (v w : Vol) : Prop where
  nodup : v.log.Nodup → w.log.Nodup
  sub : ∀ y ∈ w.log, y ∈ v.log ∨ y = .inode (i / IPB) ∨
    ∃ x, v.store.ptr (i, x) ≠ 0 ∧ y = .bitmap (v.store.ptr (i, x) / BPB)

theorem Logs.add {i : Nat} (h : Logs i v w) {y : LogBlock} (hu : u.log = (w.logWrite y).log)
    (hy : y = .inode (i / IPB) ∨
      ∃ x, v.store.ptr (i, x) ≠ 0 ∧ y = .bitmap (v.store.ptr (i, x) / BPB)) : Logs i v u := by
  constructor
  · intro hv
    rw [hu]
    unfold Vol.logWrite
    by_cases hin : y ∈ w.log
    · simpa only [if_pos hin] using h.nodup hv
    · simpa [hin] using List.Nodup.concat hin (h.nodup hv)
  · intro z hz
    rw [hu] at hz
    rcases mem_logWrite.1 hz with hz | hz
    · exact h.sub z hz
    · exact .inr (hz ▸ hy)

theorem itrunc_logs {i : Nat} (htype : (v.ip i).type ≠ 0) :
    Triple (fun w => w = v) (itrunc i) (fun _ w => Logs i v w) fun _ => True := by
  apply itrunc_rule _ htype ⟨fun hv => hv, fun _ hy => .inl hy⟩
  constructor
  · exact fun w b x hw hb hx => hw.add rfl (.inr ⟨x, hx ▸ hb, by rw [hx]⟩)
  · exact fun w _ hw => ⟨hw.nodup, hw.sub⟩
  · exact fun w hw => hw.add rfl (.inl rfl)

end Frames

end Kus.Volume
