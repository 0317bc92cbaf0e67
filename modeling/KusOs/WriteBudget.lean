import Mathlib
import KusOs.SharedOffset

/-!
# What a write puts into the log

`filewrite` writes at most `chunkMax` bytes in one transaction, for which `begin_op`
has reserved `MAXOPBLOCKS` blocks of the log.

* `budget` — the blocks in the log, and those that the indirect block of the file may
  still bring: it is paid for before it is used;
* `bmap_budget` — a block of the file costs its own entry and one of the bitmap, and
  nothing more if it was there before;
* `writeLoop_budget` — so a write costs two entries for every block it reaches;
* `write_chunk_fits` — **a chunk of a write fits into the reservation**, because a write
  that starts inside a block finds this block allocated;
* `filewrite_fits` — so does every chunk of a call on a consistent volume.
-/

namespace Kus.Volume

open Hoare LittleEndian
open Fs (FsPanic)
open Mkfs (BPB IPB zeroes)

/-- `ip->addrs[NDIRECT]`. -/
def Vol.indirect (v : Vol) (i : Nat) : Nat := (v.ip i).addrs (Fin.last NDIRECT)

/-- What the indirect block of inode `i` may still add to the log: itself and its bit in
the bitmap if it is not allocated, itself if it is not in the log. -/
def owed (i : Nat) (v : Vol) : Nat :=
  if v.indirect i = 0 then 2 else if .data (v.indirect i) ∈ v.log then 0 else 1

def budget (i : Nat) (v : Vol) : Nat := v.log.length + owed i v

section Entries

variable {v w : Vol} {i : Nat} {x : LogBlock}

theorem log_logWrite_of_mem (h : x ∈ v.log) : (v.logWrite x).log = v.log := by
  unfold Vol.logWrite
  rw [if_pos h]

theorem length_logWrite_le (v : Vol) (x : LogBlock) :
    (v.logWrite x).log.length ≤ v.log.length + 1 := by
  by_cases h : x ∈ v.log
  · rw [log_logWrite_of_mem h]
    omega
  unfold Vol.logWrite
  rw [if_neg h]
  simp

/-- The log grows and the indirect block stays. -/
theorem owed_mono (hind : w.indirect i = v.indirect i) (hlog : ∀ y ∈ v.log, y ∈ w.log) :
    owed i w ≤ owed i v := by
  unfold owed
  rw [hind]
  by_cases hzero : v.indirect i = 0
  · rw [if_pos hzero, if_pos hzero]
  rw [if_neg hzero, if_neg hzero]
  by_cases hin : .data (v.indirect i) ∈ v.log
  · rw [if_pos hin, if_pos (hlog _ hin)]
  rw [if_neg hin]
  by_cases hin' : .data (v.indirect i) ∈ w.log
  · rw [if_pos hin']
    omega
  · rw [if_neg hin']

theorem owed_logged (hne : v.indirect i ≠ 0) (hin : .data (v.indirect i) ∈ v.log) :
    owed i v = 0 := by
  unfold owed
  rw [if_neg hne, if_pos hin]

theorem budget_logWrite (v : Vol) (x : LogBlock) : budget i (v.logWrite x) ≤ budget i v + 1 := by
  have howed : owed i (v.logWrite x) ≤ owed i v :=
    owed_mono rfl fun y hy => mem_logWrite.2 (.inl hy)
  have hlen := length_logWrite_le v x
  unfold budget
  omega

theorem budget_logWrite_of_mem (h : x ∈ v.log) : budget i (v.logWrite x) = budget i v := by
  have hsame : v.logWrite x = v := by
    unfold Vol.logWrite
    rw [if_pos h]
  rw [hsame]

end Entries

section Mapping

variable {sb : Superblock} {v w : Vol} {i : Nat}

/-- A block taken: its bit and its zeroes are in the log. -/
structure Took (r : Nat) (v w : Vol) : Prop where
  logged : .data r ∈ w.log
  length : w.log.length ≤ v.log.length + 2
  log : ∀ x ∈ v.log, x ∈ w.log
  inode : w.inode = v.inode
  dinode : w.dinode = v.dinode

theorem Took.ip {r : Nat} (h : Took r v w) : w.ip = v.ip := by
  unfold Vol.ip
  rw [h.inode, h.dinode]

theorem balloc_took (v : Vol) :
    Triple (fun u => u = v) (balloc sb) (fun r w => (r = 0 ∧ w = v) ∨ Took r v w)
      fun _ => False := by
  apply Triple.bind_ok rfl
  cases hfind : (List.range sb.size).find? fun b => !v.bitmap b with
  | none =>
    intro u hu
    exact .inl ⟨rfl, hu⟩
  | some b =>
    intro _ _
    let marked : Vol := { v with bitmap := Function.update v.bitmap b true }
    let noted := marked.logWrite (.bitmap (b / BPB))
    let zeroed := (noted.edit b fun _ => zeroes).logWrite (.data b)
    have hfirst : noted.log.length ≤ v.log.length + 1 := length_logWrite_le marked _
    have hsecond : zeroed.log.length ≤ noted.log.length + 1 := length_logWrite_le _ _
    refine (.inr ?_ : _ ∨ Took b v zeroed)
    constructor
    · exact mem_logWrite.2 (.inr rfl)
    · omega
    · intro x hx
      exact mem_logWrite.2 (.inl (mem_logWrite.2 (.inl hx)))
    · rfl
    · rfl

/-- What mapping a block costs: nothing, or two entries if the block is in the log. -/
def Spent (i r : Nat) (v w : Vol) : Prop :=
  budget i w ≤ budget i v ∨ (budget i w ≤ budget i v + 2 ∧ .data r ∈ w.log)

theorem Took.spent {r : Nat} (h : Took r v w) : Spent i r v w := by
  have hind : w.indirect i = v.indirect i := by
    unfold Vol.indirect
    rw [h.ip]
  have howed := owed_mono hind h.log
  have hlen := h.length
  refine .inr ⟨?_, h.logged⟩
  unfold budget
  omega

/-- What `balloc` leaves when the caller takes its result for a failure. -/
theorem spent_of_zero {r : Nat} (hzero : r = 0) (h : (r = 0 ∧ w = v) ∨ Took r v w) :
    Spent i 0 v w := by
  rcases h with h | h
  · rw [h.2]
    exact .inl (le_refl _)
  have hspent : Spent i r v w := h.spent
  rw [hzero] at hspent
  exact hspent

/-- The new block becomes block `k` of the file. -/
theorem indirect_setAddr (v : Vol) (i : Nat) (k : Fin (NDIRECT + 1)) (b : Nat) :
    (v.setAddr i k b).indirect i = if k = Fin.last NDIRECT then b else v.indirect i := by
  unfold Vol.indirect Vol.setAddr Vol.setIp Vol.ip
  by_cases hk : k = Fin.last NDIRECT
  · rw [if_pos hk, hk]
    simp
  · rw [if_neg hk]
    simp [Ne.symm hk]

theorem mapAddr_direct {k : Fin (NDIRECT + 1)} (hk : k ≠ Fin.last NDIRECT) (v : Vol) :
    Triple (fun u => u = v) (mapAddr sb i k) (fun r w => Spent i r v w) fun _ => False := by
  apply Triple.bind_ok rfl
  apply Triple.ite
  · intro _
    apply Triple.bind (balloc_took v)
    intro r
    apply Triple.ite
    · intro hzero u hu
      exact spent_of_zero hzero hu
    intro hne u hu
    rcases hu with hu | hu
    · exact absurd hu.1 hne
    have hind : (u.setAddr i k r).indirect i = u.indirect i := by
      rw [indirect_setAddr, if_neg hk]
    have howed : owed i (u.setAddr i k r) ≤ owed i u := owed_mono hind fun _ h => h
    have hset : budget i (u.setAddr i k r) ≤ budget i u := Nat.add_le_add_left howed _
    rcases (hu.spent : Spent i r v u) with hsame | hmore
    · exact .inl (hset.trans hsame)
    · exact .inr ⟨hset.trans hmore.1, hmore.2⟩
  · intro _ u hu
    rw [hu]
    exact .inl (le_refl _)

/-- The indirect block has been paid for. -/
theorem mapAddr_indirect (v : Vol) :
    Triple (fun u => u = v) (mapAddr sb i (Fin.last NDIRECT))
      (fun r w => (r = 0 → Spent i 0 v w) ∧ (r ≠ 0 → budget i w ≤ budget i v ∧ w.indirect i = r))
      fun _ => False := by
  apply Triple.bind_ok rfl
  apply Triple.ite
  · intro hnone
    apply Triple.bind (balloc_took v)
    intro r
    apply Triple.ite
    · intro hzero u hu
      exact ⟨fun _ => spent_of_zero hzero hu, fun hne => absurd rfl hne⟩
    intro hne u hu
    rcases hu with hu | hu
    · exact absurd hu.1 hne
    have hind : (u.setAddr i (Fin.last NDIRECT) r).indirect i = r := by
      rw [indirect_setAddr, if_pos rfl]
    have hafter : owed i (u.setAddr i (Fin.last NDIRECT) r) = 0 := by
      apply owed_logged
      · rw [hind]
        exact hne
      · rw [hind]
        exact hu.logged
    have hbefore : owed i v = 2 := if_pos hnone
    have hlen := hu.length
    refine ⟨fun hzero => absurd hzero hne, fun _ => ⟨?_, hind⟩⟩
    unfold budget
    rw [hafter, hbefore]
    exact hlen
  · intro hsome u hu
    rw [hu]
    exact ⟨fun hzero => absurd hzero hsome, fun _ => ⟨le_refl _, rfl⟩⟩

theorem mapEntry_budget {a : Nat} (j : Fin NINDIRECT) (v : Vol) (hind : v.indirect i = a)
    (hne : a ≠ 0) :
    Triple (fun u => u = v) (mapEntry sb a j) (fun r w => Spent i r v w) fun _ => False := by
  apply Triple.bind_ok rfl
  apply Triple.ite
  · intro _
    apply Triple.bind (balloc_took v)
    intro r
    apply Triple.ite
    · intro hzero u hu
      exact spent_of_zero hzero hu
    intro hr u hu
    rcases hu with hu | hu
    · exact absurd hu.1 hr
    let stored := (u.edit a fun buf => putLE buf (4 * j) 4 r).logWrite (.data a)
    have hindu : u.indirect i = a := by
      unfold Vol.indirect
      rw [hu.ip]
      exact hind
    have hinds : stored.indirect i = a := hindu
    have hlogged : LogBlock.data a ∈ stored.log := mem_logWrite.2 (.inr rfl)
    have hafter : owed i stored = 0 := by
      apply owed_logged
      · rw [hinds]
        exact hne
      · rw [hinds]
        exact hlogged
    have hlen := hu.length
    refine (.inr ⟨?_, mem_logWrite.2 (.inl hu.logged)⟩ : Spent i r v stored)
    unfold budget
    rw [hafter]
    by_cases hin : LogBlock.data a ∈ u.log
    · have hsame : stored.log = u.log := log_logWrite_of_mem hin
      rw [hsame]
      omega
    -- then the block was not in the log before, and its entry is still owed
    have hbefore : owed i v = 1 := by
      unfold owed
      rw [hind, if_neg hne, if_neg fun h => hin (hu.log _ h)]
    have hmore : stored.log.length ≤ u.log.length + 1 := length_logWrite_le _ _
    omega
  · intro _ u hu
    rw [hu]
    exact .inl (le_refl _)

/-- **`bmap`** costs two entries of the log at most. -/
theorem bmap_budget {bn : Nat} (hbn : bn < MAXFILE) (v : Vol) :
    Triple (fun u => u = v) (bmap sb i bn) (fun r w => Spent i r v w) fun _ => False := by
  unfold bmap
  by_cases hd : bn < NDIRECT
  · rw [dif_pos hd]
    apply mapAddr_direct
    intro heq
    have hval := congrArg Fin.val heq
    simp only [Fin.val_last] at hval
    omega
  have hi : bn - NDIRECT < NINDIRECT := by
    unfold MAXFILE at hbn
    omega
  rw [dif_neg hd, dif_pos hi]
  apply Triple.bind (mapAddr_indirect v)
  intro a
  apply Triple.ite
  · intro hzero u hu
    exact hu.1 hzero
  intro hne
  apply Triple.fix
  intro u hu
  obtain ⟨hle, hind⟩ := hu.2 hne
  refine .conseq (mapEntry_budget _ u hind hne) (fun _ h => h) ?_ fun _ h => h
  intro r w hw
  rcases hw with hsame | hmore
  · exact .inl (hsame.trans hle)
  · exact .inr ⟨by omega, hmore.2⟩

end Mapping

section Loop

variable {sb : Superblock} {v w : Vol} {i n : Nat} {src : Source}

/-- Copying into block `r` of the file and logging it. -/
theorem Spent.round {r : Nat} (h : Spent i r v w) (f : Buffer → Buffer) :
    budget i ((w.edit r f).logWrite (.data r)) ≤ budget i v + 2 := by
  have hedit : budget i (w.edit r f) = budget i w := rfl
  rcases h with hsame | ⟨hmore, hin⟩
  · have hle := budget_logWrite (i := i) (w.edit r f) (.data r)
    omega
  have heq : budget i ((w.edit r f).logWrite (.data r)) = budget i (w.edit r f) :=
    budget_logWrite_of_mem hin
  omega

/-- The number of blocks that `m` bytes from offset `off` reach. -/
def reach (off m : Nat) : Nat := if m = 0 then 0 else (off % BSIZE + m + BSIZE - 1) / BSIZE

/-- After a round there is one block less to reach. -/
theorem reach_round {off m : Nat} (hm : m ≠ 0) :
    reach (off + min m (BSIZE - off % BSIZE)) (m - min m (BSIZE - off % BSIZE)) + 1 ≤
      reach off m := by
  unfold reach
  rw [if_neg hm]
  have hlt : off % BSIZE < BSIZE := Nat.mod_lt _ (by decide)
  by_cases hlast : m ≤ BSIZE - off % BSIZE
  · rw [Nat.min_eq_left hlast, Nat.sub_self, if_pos rfl]
    unfold BSIZE at *
    omega
  rw [Nat.min_eq_right (by omega), if_neg (by omega)]
  unfold BSIZE at *
  omega

/-- **The loop of `writei`** costs two entries for every block it reaches. -/
theorem writeLoop_budget (rounds off tot : Nat) (hfit : off + (n - tot) ≤ MAXFILE * BSIZE)
    (v : Vol) :
    Triple (fun u => u = v) (writeLoop sb i n src rounds off tot)
      (fun _ w => budget i w ≤ budget i v + 2 * reach off (n - tot)) fun _ => False := by
  induction rounds generalizing off tot v with
  | zero =>
    intro u hu
    rw [hu]
    exact Nat.le_add_right _ _
  | succ rounds ih =>
    unfold writeLoop
    apply Triple.ite
    · intro htot
      have hbn : off / BSIZE < MAXFILE := by
        apply Nat.div_lt_of_lt_mul
        rw [Nat.mul_comm]
        omega
      have hround := @reach_round off (n - tot) (by omega)
      apply Triple.bind (bmap_budget hbn v)
      intro r
      apply Triple.ite
      · intro _ u hu
        have hcost : budget i u ≤ budget i v + 2 := by
          rcases hu with h | h
          · omega
          · exact h.1
        change budget i u ≤ _
        omega
      intro _
      apply Triple.fix
      intro u hu
      apply Triple.bind_ok rfl
      apply Triple.ite
      · intro _
        apply Triple.bind_ok rfl
        have hrest := ih (off + min (n - tot) (BSIZE - off % BSIZE))
          (tot + min (n - tot) (BSIZE - off % BSIZE)) (by omega)
          ((u.edit r fun buf => blit buf (off % BSIZE) (src.bytes tot
            (min (min (n - tot) (BSIZE - off % BSIZE)) (src.limit - tot)))).logWrite (.data r))
        refine .conseq hrest (fun _ h => h) ?_ fun _ h => h
        intro _ w hw
        have hcost := hu.round fun buf => blit buf (off % BSIZE) (src.bytes tot
            (min (min (n - tot) (BSIZE - off % BSIZE)) (src.limit - tot)))
        rw [Nat.sub_add_eq] at hw
        omega
      · intro _ w hw
        rw [hw]
        have hcost : budget i u ≤ budget i v + 2 := by
          rcases hu with h | h
          · omega
          · exact h.1
        change budget i u ≤ _
        omega
    · intro _ u hu
      rw [hu]
      exact Nat.le_add_right _ _

/-- A write that starts inside a block finds this block, and pays one entry for it. -/
theorem writeLoop_inside {off : Nat} (hn : n ≠ 0) (hfit : off + n ≤ MAXFILE * BSIZE)
    (hfound : v.block i (off / BSIZE) ≠ 0) :
    Triple (fun u => u = v) (writeLoop sb i n src n off 0)
      (fun _ w => budget i w ≤ budget i v + 2 * reach off n - 1) fun _ => False := by
  obtain ⟨m, hm⟩ := Nat.exists_eq_succ_of_ne_zero hn
  have hround := @reach_round off n hn
  have hsucc : writeLoop sb i n src n off 0 = writeLoop sb i n src (m + 1) off 0 := by rw [hm]
  rw [hsucc, writeLoop, if_pos (Nat.pos_of_ne_zero hn)]
  apply Triple.bind_ok (bmap_found hfound)
  rw [if_neg hfound]
  apply Triple.bind_ok rfl
  apply Triple.ite
  · intro _
    apply Triple.bind_ok rfl
    let f : Buffer → Buffer := fun buf => blit buf (off % BSIZE) (src.bytes 0
      (min (min (n - 0) (BSIZE - off % BSIZE)) (src.limit - 0)))
    let u := (v.edit (v.block i (off / BSIZE)) f).logWrite (.data (v.block i (off / BSIZE)))
    have hcost : budget i u ≤ budget i v + 1 := budget_logWrite _ _
    have hrest := @writeLoop_budget sb i n src m (off + min (n - 0) (BSIZE - off % BSIZE))
      (0 + min (n - 0) (BSIZE - off % BSIZE)) (by omega) u
    refine .conseq hrest (fun _ h => h) ?_ fun _ h => h
    intro _ w hw
    rw [Nat.zero_add, Nat.sub_zero] at hw
    omega
  · intro _ w hw
    rw [hw]
    change budget i v ≤ _
    omega

end Loop

section Chunks

variable {sb : Superblock} {v w : Vol} {i : Nat} {src : Source}

/-- Three blocks' worth of bytes cost seven entries. -/
theorem chunk_cost {off n : Nat} (hn : n ≤ chunkMax) :
    2 * reach off n ≤ 6 ∨ off % BSIZE ≠ 0 ∧ 2 * reach off n - 1 ≤ 7 := by
  have hmax : n ≤ 3072 := hn
  unfold reach
  by_cases hzero : n = 0
  · rw [if_pos hzero]
    omega
  rw [if_neg hzero]
  unfold BSIZE
  omega

/-- The file has a block for every byte. -/
def NoHoles (v : Vol) (i : Nat) : Prop := ∀ k < v.size i, v.block i (k / BSIZE) ≠ 0

/-- The end of `writei`: the size of the file and its dinode. -/
theorem finish_budget (v : Vol) (off : Nat) :
    budget i (if (v.ip i).size < off then v.setIp i { v.ip i with size := off } else v) =
      budget i v := by
  by_cases hoff : (v.ip i).size < off
  · rw [if_pos hoff]
    have hind : (v.setIp i { v.ip i with size := off }).indirect i = v.indirect i := by
      simp [Vol.indirect, Vol.setIp, Vol.ip]
    unfold budget owed
    rw [hind]
    rfl
  · rw [if_neg hoff]

/-- **`writei`** of a chunk on an empty log. -/
theorem writei_budget {off n : Nat} (hlog : v.log = []) (hholes : NoHoles v i)
    (hoff : off ≤ v.size i) (hoff32 : off < 2 ^ 32) (hn : n ≤ chunkMax) :
    Triple (fun u => u = v) (writei sb i off n src)
      (fun _ w => w.log.length ≤ MAXOPBLOCKS) fun _ => False := by
  have hnone : Triple (fun u => u = v) (pure (-1) : VolM Int)
      (fun _ w => w.log.length ≤ MAXOPBLOCKS) fun _ => False := by
    intro u hu
    change u.log.length ≤ _
    rw [hu, hlog]
    exact Nat.zero_le _
  have hstart : budget i v ≤ 2 := by
    unfold budget owed
    rw [hlog]
    split <;> simp
  apply Triple.bind_ok rfl
  apply Triple.ite
  · exact fun _ => hnone
  intro hrange
  apply Triple.ite
  · exact fun _ => hnone
  intro hmax
  have hwrap : (off + n) % 2 ^ 32 = off + n := by
    have hmax' : n ≤ 3072 := hn
    unfold MAXFILE BSIZE NDIRECT NINDIRECT at hmax
    omega
  have hfit : off + n ≤ MAXFILE * BSIZE := by omega
  have hloop : Triple (fun u => u = v) (writeLoop sb i n src n off 0)
      (fun _ w => budget i w ≤ 9) fun _ => False := by
    rcases @chunk_cost off n hn with hfew | ⟨hinside, hmany⟩
    · refine .conseq (writeLoop_budget n off 0 (by omega) v) (fun _ h => h) ?_ fun _ h => h
      intro _ w hw
      rw [Nat.sub_zero] at hw
      omega
    by_cases hzero : n = 0
    · rw [hzero]
      intro u hu
      change budget i u ≤ 9
      rw [hu]
      omega
    -- the byte before `off` is in the block of `off`
    have hbefore : (off - 1) / BSIZE = off / BSIZE := by
      unfold BSIZE at *
      omega
    have hfound : v.block i (off / BSIZE) ≠ 0 := by
      rw [← hbefore]
      apply hholes
      unfold BSIZE at hinside
      omega
    refine .conseq (writeLoop_inside hzero hfit hfound) (fun _ h => h) ?_ fun _ h => h
    intro _ w hw
    omega
  apply Triple.bind hloop
  intro r
  apply Triple.bind (Q := fun _ w => budget i w ≤ 9)
  · apply Triple.modify
    intro u hu
    rw [finish_budget]
    exact hu
  · intro _ u hu
    let written : Vol := { u with dinode := Function.update u.dinode i (u.ip i) }
    have hlen : (written.logWrite (.inode (i / IPB))).log.length ≤ u.log.length + 1 :=
      length_logWrite_le written _
    have hle : u.log.length ≤ budget i u := Nat.le_add_right _ _
    change (written.logWrite (.inode (i / IPB))).log.length ≤ 10
    omega

/-- One transaction of `filewrite`, which has written `i` of `n` bytes; the log has the
blocks of this transaction. -/
def writeBracket (sb : Superblock) (ino : Nat) (off : UInt32) (n : Int) (i : Nat) (src : Source) :
    VolM Int := do
  modify fun v => { v with log := [] }
  writeCall sb ino off (UInt32.ofNat (min (n - i).toNat chunkMax)) src

theorem bracket_fits (hi : v.Allocated i) (hholes : NoHoles v i) {off : UInt32}
    (hoff : off.toNat ≤ v.size i) (n : Int) (k : Nat) (src : Source) :
    ∃ r w, writeBracket sb i off n k src v = .ok (r, w) ∧ w.log.length ≤ MAXOPBLOCKS := by
  let u : Vol := { v with log := [] }
  have hui : u.Allocated i := hi
  obtain ⟨w, hlock, hsame, _⟩ := ilock_same hui
  have hsize : w.size i = v.size i := by
    unfold Vol.size
    rw [hsame.ip]
    rfl
  have hwholes : NoHoles w i := by
    intro m hm
    rw [hsame.block]
    rw [hsize] at hm
    exact hholes m hm
  have hlen : (UInt32.ofNat (min (n - k).toNat chunkMax)).toNat ≤ chunkMax := by
    rw [UInt32.toNat_ofNat']
    exact (Nat.mod_le _ _).trans (Nat.min_le_right _ _)
  have hwrite := @writei_budget sb _ _ src _ _ hsame.log hwholes (hsize ▸ hoff) off.toNat_lt hlen
  obtain ⟨r, t, hrun, hlog⟩ := Triple.returns hwrite rfl
  refine ⟨r, t, ?_, hlog⟩
  unfold writeBracket
  rw [run_bind_ok (a := ⟨⟩) (t := u) rfl]
  unfold writeCall
  rw [run_bind_ok hlock]
  exact hrun

/-- **A chunk of a write fits into its reservation.**  On any volume, for a file without
holes and an offset within it, every transaction of `filewrite` returns and has at most
`MAXOPBLOCKS` different blocks in the log. -/
theorem write_chunk_fits (sb : Superblock) (v : Vol) (ino : Nat) (hi : v.Allocated ino)
    (hholes : NoHoles v ino) (off : UInt32) (hoff : off.toNat ≤ v.size ino) (n : Int32) (i : Nat)
    (src : Source) :
    ∃ r w, writeBracket sb ino off n.toInt i src v = .ok (r, w) ∧
      w.log.length ≤ MAXOPBLOCKS ∧ w.log.toFinset.card ≤ MAXOPBLOCKS := by
  obtain ⟨r, w, hrun, hlen⟩ := @bracket_fits sb v ino hi hholes off hoff n.toInt i src
  exact ⟨r, w, hrun, hlen, (List.toFinset_card_le _).trans hlen⟩

/-- A file of the small volume, of which nothing is written yet. -/
theorem write_chunk_fits_small :
    ∃ r w, writeBracket Fs.small 1 0 5000 0 ⟨fun _ => 7, 5000⟩ smallVol = .ok (r, w) ∧
      w.log.length ≤ MAXOPBLOCKS := by
  have hheld : Held Fs.small [] smallVol := ⟨smallVol_consistent, by simp⟩
  obtain ⟨r, w, hrun, hlen, _⟩ := write_chunk_fits Fs.small smallVol 1 smallVol_allocated
    (fun _ hk => hheld.filled smallVol_allocated hk) 0 (Nat.zero_le _) 5000 0 ⟨fun _ => 7, 5000⟩
  exact ⟨r, w, hrun, hlen⟩

/-- The loop of `filewrite`, which has written `i` of `n` bytes; it returns the log of
every transaction.  `src i` is the user's memory from `addr + i` on. -/
def filewriteLogs (sb : Superblock) (ino : Nat) (n : Int) (src : Nat → Source) :
    Nat → Nat → UInt32 → VolM (List (List LogBlock))
  | 0, _, _ => pure []
  | rounds + 1, i, off =>
    if i < n then do
      let n1 := min (n - i).toNat chunkMax
      let r ← writeBracket sb ino off n i (src i)
      let v ← get
      if r ≠ n1 then pure [v.log]
      else
        let rest ← filewriteLogs sb ino n src rounds (i + n1) (off + UInt32.ofNat n1)
        pure (v.log :: rest)
    else pure []

/-- A transaction leaves the volume consistent. -/
theorem bracket_held (hsb : sb.size ≤ 2 ^ 32) (hv : Held sb [] v) (hi : v.Allocated i)
    (off : UInt32) (n : Int) (k : Nat) (src : Source) :
    ∃ r w, writeBracket sb i off n k src v = .ok (r, w) ∧ w.log.length ≤ MAXOPBLOCKS ∧
      Held sb [] w ∧ w.Allocated i := by
  let u : Vol := { v with log := [] }
  have hu : Held sb [] u := ⟨hv.consistent, hv.locked⟩
  have hrun : writeBracket sb i off n k src v =
      writeCall sb i off (UInt32.ofNat (min (n - k).toNat chunkMax)) src u := rfl
  obtain ⟨v₁, hsame, hheld, hcall⟩ := writeCall_spec hsb hu hi off
    (UInt32.ofNat (min (n - k).toNat chunkMax)) src
  by_cases hok : off.toNat ≤ u.size i ∧
      off.toNat + (UInt32.ofNat (min (n - k).toNat chunkMax)).toNat ≤ MAXFILE * BSIZE
  · rw [if_pos hok] at hcall
    obtain ⟨r, c, w, hdone, hw, _⟩ := hcall
    obtain ⟨r', w', hrun', hlen⟩ := @bracket_fits sb v i hi (fun _ hm => hv.filled hi hm) off
      hok.1 n k src
    have heq : (r', w') = ((r : Int), w) := by
      have hboth := hrun'.symm.trans (hrun.trans hdone)
      simpa using hboth
    obtain ⟨_, hw'⟩ := Prod.mk.inj heq
    exact ⟨r', w', hrun', hlen, hw' ▸ ⟨hw.consistent, by simp⟩,
      hw' ▸ hw.allocated List.mem_cons_self⟩
  rw [if_neg hok] at hcall
  refine ⟨-1, v₁, hrun.trans hcall, ?_, ⟨hheld.consistent, by simp⟩,
    hheld.allocated List.mem_cons_self⟩
  rw [hsame.log]
  exact Nat.zero_le _

/-- **So does every chunk of a call.** -/
theorem filewrite_fits (hsb : sb.size ≤ 2 ^ 32) (n : Int) (src : Nat → Source) (rounds k : Nat)
    (off : UInt32) (hv : Held sb [] v) (hi : v.Allocated i) :
    ∃ logs w, filewriteLogs sb i n src rounds k off v = .ok (logs, w) ∧
      ∀ log ∈ logs, log.length ≤ MAXOPBLOCKS := by
  induction rounds generalizing k off v with
  | zero => exact ⟨[], v, rfl, by simp⟩
  | succ rounds ih =>
    unfold filewriteLogs
    by_cases hk : (k : Int) < n
    · rw [if_pos hk]
      obtain ⟨r, w, hrun, hlen, hw, hwi⟩ := bracket_held hsb hv hi off n k (src k)
      rw [run_bind_ok hrun, run_bind_ok (a := w) (t := w) rfl]
      by_cases hr : r ≠ (min (n - k).toNat chunkMax : Nat)
      · rw [if_pos hr]
        exact ⟨[w.log], w, rfl, by simpa using hlen⟩
      rw [if_neg hr]
      obtain ⟨logs, u, hrest, hall⟩ := ih (k + min (n - k).toNat chunkMax)
        (off + UInt32.ofNat (min (n - k).toNat chunkMax)) hw hwi
      rw [run_bind_ok hrest]
      exact ⟨w.log :: logs, u, rfl, List.forall_mem_cons.2 ⟨hlen, hall⟩⟩
    · rw [if_neg hk]
      exact ⟨[], v, rfl, by simp⟩

theorem filewrite_fits_small : ∃ logs w,
    filewriteLogs Fs.small 1 5000 (fun _ => ⟨fun _ => 7, 5000⟩) 3 0 0 smallVol = .ok (logs, w) ∧
      ∀ log ∈ logs, log.length ≤ MAXOPBLOCKS :=
  filewrite_fits (by decide) 5000 _ 3 0 0 ⟨smallVol_consistent, by simp⟩ smallVol_allocated

end Chunks

end Kus.Volume
