import KusOs.ByteArrays

/-!
# Writes whose source fails

A write copies into the cached block before it knows whether the whole part can be
read.  What has been copied when the source fails stays in the cache, and the block is
not logged for it.

* `Synced` — no block that a file shows depends on whether its buffer stays in the
  cache;
* `Settles` — what evictions, commits and reboots do to a volume; on a synced volume
  they change no file;
* `Harmless` — the bytes copied in vain are those that were there;
* `faulting_write_iff` — **the other bytes of the file are as before, for every later
  read, exactly if the write is harmless**.
-/

namespace Kus.Volume

open Hoare LittleEndian
open Fs (FsState)

/-- What block `b` holds when the transaction is committed and the buffer is gone. -/
def Vol.settled (v : Vol) (b : Nat) : Buffer := if .data b ∈ v.log then v.view b else v.disk b

structure Synced (v : Vol) : Prop where
  indirect : ∀ i, v.Allocated i → (v.ip i).addrs (Fin.last NDIRECT) ≠ 0 →
    v.settled ((v.ip i).addrs (Fin.last NDIRECT)) = v.view ((v.ip i).addrs (Fin.last NDIRECT))
  data : ∀ i k, v.Allocated i → k < v.size i →
    v.settled (v.block i (k / BSIZE)) (k % BSIZE) = v.byte i k

/-- What happens to the cache between calls. -/
inductive Event
  | evict (b : Nat)
  | commit
  | reboot

def Event.apply (v : Vol) : Event → Vol
  | .evict b => v.evict b
  | .commit => v.commit
  | .reboot => v.reboot

def Vol.after (v : Vol) (es : List Event) : Vol := es.foldl Event.apply v

section Settling

variable {sb : Superblock} {v u w : Vol} {i j k : Nat}

/-- From `v` to `u` buffers have been dropped or copied to the disk. -/
structure Settles (v u : Vol) : Prop where
  bitmap : u.bitmap = v.bitmap
  dinode : u.dinode = v.dinode
  inode : ∀ i, u.inode i = v.inode i ∨ u.inode i = none
  settled : u.settled = v.settled
  view : ∀ b, u.view b = v.view b ∨ u.view b = v.settled b

theorem commit_settled (v : Vol) : v.commit.settled = v.settled := by
  funext b
  unfold Vol.settled Vol.commit
  simp

theorem evict_settles (v : Vol) (b : Nat) : Settles v (v.evict b) := by
  by_cases hlog : .data b ∈ v.log
  · have hsame : v.evict b = v := by
      unfold Vol.evict
      rw [if_pos hlog]
    rw [hsame]
    exact ⟨rfl, rfl, fun _ => .inl rfl, rfl, fun _ => .inl rfl⟩
  have hgone : v.evict b = { v with cache := Function.update v.cache b none } := by
    unfold Vol.evict
    rw [if_neg hlog]
  have hview : ∀ c, c ≠ b → (v.evict b).view c = v.view c := by
    intro c hc
    rw [hgone]
    simp [Vol.view, hc]
  have hlogs : (v.evict b).log = v.log := by rw [hgone]
  have hdisk : (v.evict b).disk = v.disk := by rw [hgone]
  refine ⟨by rw [hgone], by rw [hgone], fun _ => .inl (by rw [hgone]), ?_, ?_⟩
  · funext c
    unfold Vol.settled
    rw [hlogs, hdisk]
    by_cases hc : .data c ∈ v.log
    · rw [if_pos hc, if_pos hc, hview c fun e => hlog (e ▸ hc)]
    · rw [if_neg hc, if_neg hc]
  · intro c
    by_cases e : c = b
    · right
      rw [e]
      unfold Vol.settled
      rw [if_neg hlog, hgone]
      simp [Vol.view]
    · exact .inl (hview c e)

theorem commit_settles (v : Vol) : Settles v v.commit := by
  refine ⟨rfl, rfl, fun _ => .inl rfl, commit_settled v, ?_⟩
  intro b
  change (v.cache b).getD (v.settled b) = v.view b ∨ _
  cases hb : v.cache b with
  | some buf =>
    left
    simp [Vol.view, hb]
  | none =>
    right
    change (v.cache b).getD (v.settled b) = v.settled b
    rw [hb]
    rfl

theorem reboot_settles (v : Vol) : Settles v v.reboot := by
  refine ⟨rfl, rfl, fun _ => .inr rfl, ?_, fun _ => .inr rfl⟩
  exact commit_settled v

theorem Event.settles (v : Vol) (e : Event) : Settles v (e.apply v) := by
  cases e with
  | evict b => exact evict_settles v b
  | commit => exact commit_settles v
  | reboot => exact reboot_settles v

namespace Settles

theorem ip (h : Settles v u) (hv : Held sb [] v) : u.ip = v.ip := by
  funext i
  unfold Vol.ip
  rw [h.dinode]
  rcases h.inode i with hsame | hnone
  · rw [hsame]
  rw [hnone]
  cases hi : v.inode i with
  | none => rfl
  | some d => exact ((hv.consistent.inodes i).same d hi).1.symm

/-- An indirect block is read as before. -/
theorem indirect (h : Settles v u) (hs : Synced v) (hi : v.Allocated i)
    (hne : (v.ip i).addrs (Fin.last NDIRECT) ≠ 0) :
    u.view ((v.ip i).addrs (Fin.last NDIRECT)) = v.view ((v.ip i).addrs (Fin.last NDIRECT)) := by
  rcases h.view ((v.ip i).addrs (Fin.last NDIRECT)) with hsame | hsettled
  · exact hsame
  · rw [hsettled, hs.indirect i hi hne]

section

variable (h : Settles v u) (hv : Held sb [] v)
include h hv

theorem ptr (hs : Synced v) : u.store.ptr = v.store.ptr := by
  funext ⟨j, x⟩
  change Fs.ptrOf u.store.words (u.ip j) x = Fs.ptrOf v.store.words (v.ip j) x
  rw [h.ip hv]
  cases x with
  | inl k => rfl
  | inr l =>
    simp only [Fs.ptrOf]
    by_cases hnone : (v.ip j).type = 0 ∨ (v.ip j).addrs (Fin.last NDIRECT) = 0
    · rw [if_pos hnone, if_pos hnone]
    rw [if_neg hnone, if_neg hnone]
    rw [not_or] at hnone
    change getLE (u.view _) _ 4 = getLE (v.view _) _ 4
    rw [h.indirect hs hnone.1 hnone.2]

theorem size (i : Nat) : u.size i = v.size i := by
  unfold Vol.size
  rw [h.ip hv]

theorem allocated : u.Allocated i ↔ v.Allocated i := by
  unfold Vol.Allocated
  rw [h.ip hv]

/-- The bytes of files do not change. -/
theorem byte (hs : Synced v) (hi : v.Allocated i) (hk : k < v.size i) :
    u.byte i k = v.byte i k := by
  unfold Vol.byte
  rw [block_congr (h.ptr hv hs)]
  rcases h.view (v.block i (k / BSIZE)) with hsame | hsettled
  · rw [hsame]
  · rw [hsettled]
    exact hs.data i k hi hk

theorem synced (hs : Synced v) : Synced u := by
  constructor
  · intro i hi hne
    rw [h.ip hv] at hne ⊢
    have hi' := (h.allocated hv).1 hi
    rw [h.settled, h.indirect hs hi' hne]
    exact hs.indirect i hi' hne
  · intro i k hi hk
    have hi' := (h.allocated hv).1 hi
    rw [h.size hv] at hk
    rw [h.byte hv hs hi' hk, h.settled, block_congr (h.ptr hv hs)]
    exact hs.data i k hi' hk

theorem held (hs : Synced v) : Held sb [] u := by
  have hptr := h.ptr hv hs
  refine ⟨⟨?_, ?_⟩, by simp⟩
  · rw [hptr]
    change Ownership.Owned u.bitmap _ _ _
    rw [h.bitmap]
    exact hv.consistent.owned
  · intro i
    have hold := hv.consistent.inodes i
    constructor
    · intro d hd
      rcases h.inode i with hsame | hnone
      · obtain ⟨hcopy, htype⟩ := hold.same d (hsame.symm.trans hd)
        refine ⟨?_, htype⟩
        change d = u.dinode i
        rw [h.dinode]
        exact hcopy
      · cases hd.symm.trans hnone
    · intro htype bn hbn
      have hip : u.store.ip i = v.store.ip i := congrFun (h.ip hv) i
      rw [hip] at htype hbn
      obtain ⟨x, hx, hne⟩ := hold.full htype bn hbn
      exact ⟨x, hx, by rwa [hptr]⟩

theorem content (hs : Synced v) : u.content = v.content := by
  funext i
  exact content_congr (congrFun (h.ip hv) i) fun hi k hk => h.byte hv hs hi hk

end

end Settles

/-- On a synced volume the files are the same after any evictions, commits and reboots. -/
theorem after_content (hv : Held sb [] v) (hs : Synced v) (es : List Event) :
    Held sb [] (v.after es) ∧ Synced (v.after es) ∧ (v.after es).content = v.content ∧
      ∀ i, (v.after es).Allocated i ↔ v.Allocated i := by
  induction es generalizing v with
  | nil => exact ⟨hv, hs, rfl, fun _ => Iff.rfl⟩
  | cons e es ih =>
    have hsettles := e.settles v
    obtain ⟨hheld, hsynced, hcontent, halloc⟩ := ih (hsettles.held hv hs) (hsettles.synced hv hs)
    refine ⟨hheld, hsynced, hcontent.trans (hsettles.content hv hs), ?_⟩
    intro i
    exact (halloc i).trans (hsettles.allocated hv)

end Settling

section Writing

variable {sb : Superblock} {L L' : List Nat} {v w : Vol} {i off n r c : Nat} {src : Source}

/-- Bytes copied before the source fails, and left in the file, are those of the file.
The positions are those of the block in which the source fails. -/
def Harmless (v : Vol) (i off n : Nat) (src : Source) : Prop :=
  off ≤ v.size i → off + n ≤ MAXFILE * BSIZE → src.limit < n →
    ∀ k, off ≤ k → (off + src.limit) / BSIZE * BSIZE ≤ k → k < off + src.limit → k < v.size i →
      src.byte (k - off) = v.byte i k

/-- A block that is not in the log and reads as before settles as before. -/
theorem Wrote.settled (h : Wrote i off r c src v w) {b : Nat} (hlog : .data b ∉ w.log) :
    w.settled b = v.settled b := by
  have hold : .data b ∉ v.log := fun hb => hlog (h.log _ hb)
  unfold Vol.settled
  rw [if_neg hlog, if_neg hold, h.disk]

/-- A place that was empty has a block that was not in use. -/
theorem Wrote.fresh (h : Wrote i off r c src v w) (hv : Held sb L v) (hw : Held sb L' w)
    {p : Nat × Fs.Place} (hne : w.store.ptr p ≠ 0) (hold : v.store.ptr p = 0) :
    .data (w.store.ptr p) ∈ w.log := by
  have hmarked := hw.consistent.owned.bit_ptr hne
  have hrange := hw.consistent.owned.range p hne
  have hclear : v.bitmap (w.store.ptr p) = false := by
    cases hbit : v.bitmap (w.store.ptr p) with
    | false => rfl
    | true =>
      -- its owner would still have it
      obtain ⟨q, hq⟩ := (hv.consistent.owned.marked _ hrange.1 hrange.2).1 hbit
      have hkept := h.ptr q (by rw [hq]; exact hne)
      have hpq := hw.consistent.owned.inj p q hne (by rw [hkept, hq])
      rw [← hpq, hold] at hq
      exact absurd hq.symm hne
  exact h.taken _ hclear hmarked

/-- A write keeps the volume synced, if what it copies in vain was there before. -/
theorem Wrote.synced (h : Wrote i off r c src v w) (hv : Held sb L v) (hw : Held sb L' w)
    (hi : v.Allocated i) (hoff : off ≤ v.size i) (hsize : w.size i = max (v.size i) (off + r))
    (hs : Synced v)
    (hvain : ∀ k, off + r ≤ k → k < off + c → k < v.size i → src.byte (k - off) = v.byte i k) :
    Synced w := by
  constructor
  · intro j hj hne
    by_cases hlog : .data ((w.ip j).addrs (Fin.last NDIRECT)) ∈ w.log
    · unfold Vol.settled
      rw [if_pos hlog]
    have hplace : w.store.ptr (j, .inl (Fin.last NDIRECT)) =
        (w.ip j).addrs (Fin.last NDIRECT) := if_neg hj
    have hold : v.store.ptr (j, .inl (Fin.last NDIRECT)) ≠ 0 := by
      intro hzero
      apply hlog
      rw [← hplace]
      exact h.fresh hv hw (by rw [hplace]; exact hne) hzero
    have hj' : v.Allocated j := by
      intro htype
      exact hold (if_pos htype)
    have hsame : (w.ip j).addrs (Fin.last NDIRECT) = (v.ip j).addrs (Fin.last NDIRECT) := by
      rw [← hplace, h.ptr _ hold]
      exact if_neg hj'
    rw [h.settled hlog]
    rcases h.logged ((w.ip j).addrs (Fin.last NDIRECT)) with hin | hview | hlast
    · exact absurd hin hlog
    · rw [hview, hsame]
      rw [hsame] at hne
      exact hs.indirect j hj' hne
    · have hblock : w.block i ((off + r) / BSIZE) ≠ 0 := by
        rw [← hlast.2]
        exact hne
      exact absurd hlast.2.symm (block_ne_indirect hw.consistent.owned hj hblock)
  · intro j k hj hk
    by_cases hlog : .data (w.block j (k / BSIZE)) ∈ w.log
    · unfold Vol.settled
      rw [if_pos hlog]
      rfl
    have hj' : v.Allocated j := by
      by_cases e : j = i
      · rw [e]
        exact hi
      unfold Vol.Allocated
      rw [← h.ip e]
      exact hj
    -- what the write has finished is in the log
    have hout : ¬ (j = i ∧ off ≤ k ∧ k < off + r) := by
      intro hin
      apply hlog
      rw [hin.1]
      exact h.done k hin.2.1 hin.2.2
    have hk' : k < v.size j := by
      by_cases e : j = i
      · rw [e] at hk ⊢
        omega
      unfold Vol.size at hk ⊢
      rw [← h.ip e]
      exact hk
    have hne := hv.filled hj' hk'
    have hbyte : w.byte j k = v.byte j k := by
      by_cases hin : j = i ∧ off ≤ k ∧ k < off + c
      · obtain ⟨hji, hlo, hhi⟩ := hin
        rw [hji] at hk' hout ⊢
        rw [h.written k hlo hhi]
        exact hvain k (by omega) hhi hk'
      · exact h.byte j k hne hin
    rw [h.settled hlog, hbyte, h.block hne]
    exact hs.data j k hj' hk'

/-- The part copied in vain, from the way a write ends. -/
theorem Ended.vain (h : Ended sb off n (v.size i) src w r c) (hharm : Harmless v i off n src)
    (hoff : off ≤ v.size i) (hn : off + n ≤ MAXFILE * BSIZE) :
    ∀ k, off + r ≤ k → k < off + c → k < v.size i → src.byte (k - off) = v.byte i k := by
  intro k hlo hhi hk
  cases h with
  | all hlimit => omega
  | full hr hlimit hsize hfull => omega
  | fault hlimit hr hblock hstart =>
    refine hharm hoff hn hlimit k (by omega) ?_ hhi hk
    simp only [BSIZE] at hblock ⊢
    omega

end Writing

section Calls

variable {sb : Superblock} {v w : Vol} {i : Nat}

/-- A call of `writei` by a process that locks the inode for it. -/
def writeCall (sb : Superblock) (i : Nat) (off n : UInt32) (src : Source) : VolM Int := do
  ilock i
  writei sb i off.toNat n.toNat src

/-- The calls, and what happens to the cache between them. -/
inductive Call
  | write (i : Nat) (off n : UInt32) (src : Source)
  | read (i : Nat) (off n : UInt32)
  | itrunc (i : Nat)
  | event (e : Event)

def Call.run (sb : Superblock) : Call → VolM Unit
  | .write i off n src => do
    let _ ← writeCall sb i off n src
  | .read i off n => do
    let _ ← (Op.readi i off n).run sb
  | .itrunc i => do
    let _ ← (Op.itrunc i).run sb
  | .event e => modify e.apply

/-- Calls are on inodes in use, and writes are harmless. -/
def Call.Careful (v : Vol) : Call → Prop
  | .write i off n src => v.Allocated i ∧ Harmless v i off.toNat n.toNat src
  | .read i _ _ => v.Allocated i
  | .itrunc i => v.Allocated i
  | .event _ => True

/-- A run from `v` to `w` of calls that are careful. -/
inductive CarefulRun (sb : Superblock) : Vol → List Call → Vol → Prop
  | nil (v : Vol) : CarefulRun sb v [] v
  | cons {v u w : Vol} {c : Call} {cs : List Call} (hcareful : c.Careful v)
      (hrun : c.run sb v = .ok ((), u)) (hrest : CarefulRun sb u cs w) :
      CarefulRun sb v (c :: cs) w

theorem Same.settled (h : Same v w) : w.settled = v.settled := by
  funext b
  unfold Vol.settled Vol.view
  rw [h.log, h.cache, h.disk]

theorem Same.synced (h : Same v w) (hs : Synced v) : Synced w := by
  have hview : w.view = v.view := by
    funext b
    unfold Vol.view
    rw [h.cache, h.disk]
  constructor
  · intro i hi hne
    rw [h.ip] at hne ⊢
    rw [h.settled, hview]
    exact hs.indirect i (h.allocated.1 hi) hne
  · intro i k hi hk
    unfold Vol.size at hk
    rw [h.ip] at hk
    rw [h.settled, h.block, h.byte]
    exact hs.data i k (h.allocated.1 hi) hk

/-- `itrunc` keeps the volume synced: its own file shows nothing any more. -/
theorem Quiet.synced (h : Quiet i v w) (hs : Synced v) (hsize : w.size i = 0)
    (haddrs : ∀ k, (w.ip i).addrs k = 0) : Synced w := by
  have hview : w.view = v.view := by
    funext b
    unfold Vol.view
    rw [h.cache, h.disk]
  have hsettled : ∀ b k, v.settled b k = v.view b k → w.settled b k = v.view b k := by
    intro b k hb
    unfold Vol.settled at hb ⊢
    by_cases hlog : .data b ∈ w.log
    · rw [if_pos hlog, hview]
    · rw [if_neg fun hin => hlog (h.log _ hin)] at hb
      rw [if_neg hlog, h.disk, hb]
  constructor
  · intro j hj hne
    by_cases e : j = i
    · rw [e] at hne
      exact absurd (haddrs _) hne
    have hip := h.ip e
    rw [hip] at hne ⊢
    have hj' : v.Allocated j := by
      unfold Vol.Allocated
      rwa [← hip]
    have hold := hs.indirect j hj' hne
    rw [hview]
    funext k
    exact hsettled _ k (congrFun hold k)
  · intro j k hj hk
    by_cases e : j = i
    · rw [e] at hk
      omega
    have hip := h.ip e
    have hj' : v.Allocated j := by
      unfold Vol.Allocated
      rwa [← hip]
    have hk' : k < v.size j := by
      unfold Vol.size at hk ⊢
      rwa [← hip]
    unfold Vol.byte
    rw [h.block e, hview]
    exact hsettled _ _ (hs.data j k hj' hk')

/-- What a call of `writei` does, accepted or not. -/
theorem writeCall_spec (hsb : sb.size ≤ 2 ^ 32) (hv : Held sb [] v) (hi : v.Allocated i)
    (off n : UInt32) (src : Source) :
    ∃ v₁, Same v v₁ ∧ Held sb [i] v₁ ∧
      if off.toNat ≤ v.size i ∧ off.toNat + n.toNat ≤ MAXFILE * BSIZE then
        ∃ (r c : Nat) (w : Vol), writeCall sb i off n src v = .ok ((r : Int), w) ∧
          Held sb [i] w ∧ Wrote i off.toNat r c src v₁ w ∧
          w.size i = max (v₁.size i) (off.toNat + r) ∧
          Ended sb off.toNat n.toNat (v₁.size i) src w r c
      else writeCall sb i off n src v = .ok (-1, v₁) := by
  obtain ⟨v₁, hlock, hheld, hsame⟩ := ilock_spec hv hi
  have hsize : v.size i = v₁.size i := by
    unfold Vol.size
    rw [hsame.ip]
  refine ⟨v₁, hsame, hheld, ?_⟩
  rw [hsize]
  unfold writeCall
  rw [run_bind_ok hlock]
  by_cases hok : off.toNat ≤ v₁.size i ∧ off.toNat + n.toNat ≤ MAXFILE * BSIZE
  · rw [if_pos hok]
    exact writei_spec hsb hheld List.mem_cons_self hok.1 hok.2 src
  · rw [if_neg hok]
    exact writei_reject hok off.toNat_lt n.toNat_lt src

theorem Same.size (h : Same v w) (i : Nat) : w.size i = v.size i := by
  unfold Vol.size
  rw [h.ip]

/-- A harmless write. -/
theorem writeCall_careful (hsb : sb.size ≤ 2 ^ 32) (hv : Held sb [] v) (hs : Synced v)
    (hi : v.Allocated i) (off n : UInt32) (src : Source)
    (hharm : Harmless v i off.toNat n.toNat src) :
    ∃ r w, writeCall sb i off n src v = .ok (r, w) ∧ Held sb [] w ∧ Synced w ∧
      w.Allocated i ∧ v.size i ≤ w.size i ∧
      ∀ k : Nat, k < v.size i → ¬ (off.toNat ≤ k ∧ (k : Int) < off.toNat + r) →
        w.byte i k = v.byte i k := by
  obtain ⟨v₁, hsame, hheld, hcall⟩ := writeCall_spec hsb hv hi off n src
  have hi₁ : v₁.Allocated i := hsame.allocated.2 hi
  by_cases hok : off.toNat ≤ v.size i ∧ off.toNat + n.toNat ≤ MAXFILE * BSIZE
  · rw [if_pos hok] at hcall
    obtain ⟨r, c, w, hrun, hw, hwrote, hsize, hended⟩ := hcall
    rw [hsame.size] at hsize hended
    have hvain := hended.vain hharm hok.1 hok.2
    have hsynced : Synced w := by
      refine hwrote.synced hheld hw hi₁ ?_ ?_ (hsame.synced hs) ?_
      · rw [hsame.size]
        exact hok.1
      · rw [hsame.size]
        exact hsize
      · intro k hlo hhi hk
        rw [hsame.byte]
        rw [hsame.size] at hk
        exact hvain k hlo hhi hk
    refine ⟨r, w, hrun, ⟨hw.consistent, by simp⟩, hsynced, hw.allocated List.mem_cons_self,
      by omega, ?_⟩
    intro k hk hout
    have hne := hheld.filled hi₁ (by rw [hsame.size]; exact hk)
    by_cases hin : off.toNat ≤ k ∧ k < off.toNat + c
    · rw [hwrote.written k hin.1 hin.2]
      exact hvain k (by omega) hin.2 hk
    · rw [hwrote.byte i k hne fun h => hin h.2, hsame.byte]
  · rw [if_neg hok] at hcall
    refine ⟨-1, v₁, hcall, ⟨hheld.consistent, by simp⟩, hsame.synced hs, hi₁, ?_, ?_⟩
    · rw [hsame.size]
    · intro k _ _
      rw [hsame.byte]

/-- One careful call keeps the volume consistent and synced. -/
theorem Call.run_synced (hsb : sb.size ≤ 2 ^ 32) (hv : Held sb [] v) (hs : Synced v) {c : Call}
    (hcareful : c.Careful v) (hrun : c.run sb v = .ok ((), w)) : Held sb [] w ∧ Synced w := by
  have hbind : ∀ {α : Type} {x : VolM α} {a : α} {u : Vol}, x v = .ok (a, u) →
      (do let _ ← x : VolM Unit) v = .ok ((), w) → u = w := by
    intro α x a u hx hxw
    rw [run_bind_ok hx] at hxw
    cases hxw
    rfl
  cases c with
  | write i off n src =>
    obtain ⟨r, u, hcall, hu, hsynced, _⟩ :=
      writeCall_careful hsb hv hs hcareful.1 off n src hcareful.2
    rw [← hbind hcall hrun]
    exact ⟨hu, hsynced⟩
  | read i off n =>
    obtain ⟨res, u, hcall, hsame, href⟩ := readi_refines hv hcareful off n
    rw [← hbind hcall hrun]
    exact ⟨⟨href.consistent, by simp⟩, hsame.synced hs⟩
  | itrunc i =>
    obtain ⟨v₁, hlock, hheld, hsame⟩ := ilock_spec hv hcareful
    obtain ⟨u, htrunc, hu, hsize, haddrs, hquiet⟩ := itrunc_spec hheld List.mem_cons_self
    have hcall : (Op.itrunc i).run sb v = .ok (.truncated, u) := by
      simp only [Op.run]
      rw [run_bind_ok hlock, run_bind_ok htrunc]
      rfl
    rw [← hbind hcall hrun]
    exact ⟨⟨hu.consistent, by simp⟩, hquiet.synced (hsame.synced hs) hsize haddrs⟩
  | event e =>
    cases hrun
    exact ⟨(e.settles v).held hv hs, (e.settles v).synced hv hs⟩

theorem CarefulRun.synced (hsb : sb.size ≤ 2 ^ 32) {cs : List Call} (hrun : CarefulRun sb v cs w)
    (hv : Held sb [] v) (hs : Synced v) : Held sb [] w ∧ Synced w := by
  induction hrun with
  | nil v => exact ⟨hv, hs⟩
  | cons hcareful hstep _ ih =>
    obtain ⟨hu, hsu⟩ := Call.run_synced hsb hv hs hcareful hstep
    exact ih hu hsu

end Calls

section Later

variable {sb : Superblock} {v w : Vol} {i : Nat}

/-- Just after a boot nothing is cached. -/
structure Booted (v : Vol) : Prop where
  cache : ∀ b, v.cache b = none
  log : v.log = []

theorem Booted.synced (h : Booted v) : Synced v := by
  have hsettled : v.settled = v.view := by
    funext b
    unfold Vol.settled Vol.view
    rw [h.log, h.cache b]
    rfl
  constructor
  · intro i _ _
    rw [hsettled]
  · intro i k _ _
    rw [hsettled]
    rfl

/-- The bytes that a read of `file` delivers. -/
def part (file : List UInt8) (off n : UInt32) : List UInt8 :=
  if off.toNat + n.toNat < 2 ^ 32 then (file.drop off.toNat).take n.toNat else []

/-- Every read of inode `i` sees `file`. -/
def Sees (sb : Superblock) (v : Vol) (i : Nat) (file : List UInt8) : Prop :=
  ∀ off n : UInt32, ∃ u, (Op.readi i off n).run sb v =
    .ok (.read (part file off n).length (part file off n), u)

theorem sees_content (hv : Held sb [] v) (hi : v.Allocated i) : Sees sb v i (v.content i) := by
  intro off n
  obtain ⟨res, u, hrun, _, href⟩ := readi_refines hv hi off n
  have hreports := href.reports
  cases res with
  | wrote r full => exact hreports.elim
  | truncated => exact hreports.elim
  | read r bytes =>
    obtain ⟨hr, hbytes⟩ := hreports
    refine ⟨u, ?_⟩
    rw [hrun, hr, hbytes]
    rfl

theorem size_lt (hv : Held sb [] v) (hi : v.Allocated i) {k : Nat} (hk : k < v.size i) :
    k + 1 < 2 ^ 32 := by
  obtain ⟨x, hx, _⟩ := Vol.block_ne_zero (hv.filled hi hk)
  have hbn := lt_of_dataPlace hx
  simp only [MAXFILE, NDIRECT, NINDIRECT, BSIZE] at hbn
  omega

/-- A byte that some read delivers is a byte of the file. -/
theorem Sees.byte {file : List UInt8} (h : Sees sb v i file) (hv : Held sb [] v)
    (hi : v.Allocated i) {k : Nat} (hk : k < v.size i) : file[k]? = some (v.byte i k) := by
  have hlt := size_lt hv hi hk
  have hoff : (UInt32.ofNat k).toNat = k := by
    rw [UInt32.toNat_ofNat']
    omega
  obtain ⟨u, hrun⟩ := h (UInt32.ofNat k) 1
  obtain ⟨u', hrun'⟩ := sees_content hv hi (UInt32.ofNat k) 1
  have hpart : part file (UInt32.ofNat k) 1 = part (v.content i) (UInt32.ofNat k) 1 := by
    rw [hrun] at hrun'
    injection hrun' with hpair
    injection hpair with hres _
    injection hres
  unfold part at hpart
  have hone : (1 : UInt32).toNat = 1 := rfl
  rw [hoff, hone, if_pos hlt, if_pos hlt] at hpart
  have hbyte : (v.content i)[k]? = some (v.byte i k) := by
    rw [Vol.content_of_allocated hi]
    simp [Vol.bytes, hk]
  have hfirst := congrArg (fun l : List UInt8 => l[0]?) hpart
  simpa [hbyte] using hfirst

/-- After the write every later read sees one and the same file, whatever happens to the
cache, and outside the part reported it has the old bytes. -/
def Unharmed (sb : Superblock) (v : Vol) (i : Nat) (off n : UInt32) (src : Source) : Prop :=
  ∃ r w file, writeCall sb i off n src v = .ok (r, w) ∧
    (∀ es : List Event, Sees sb (w.after es) i file) ∧
    ∀ k : Nat, k < v.size i → ¬ (off.toNat ≤ k ∧ (k : Int) < off.toNat + r) →
      file[k]? = some (v.byte i k)

theorem unharmed_of_harmless (hsb : sb.size ≤ 2 ^ 32) (hv : Held sb [] v) (hs : Synced v)
    (hi : v.Allocated i) {off n : UInt32} {src : Source}
    (hharm : Harmless v i off.toNat n.toNat src) : Unharmed sb v i off n src := by
  obtain ⟨r, w, hrun, hw, hsynced, hwi, hsize, hbyte⟩ :=
    writeCall_careful hsb hv hs hi off n src hharm
  refine ⟨r, w, w.content i, hrun, ?_, ?_⟩
  · intro es
    obtain ⟨hheld, _, hcontent, halloc⟩ := after_content hw hsynced es
    rw [← hcontent]
    exact sees_content hheld ((halloc i).2 hwi)
  · intro k hk hout
    rw [Vol.content_of_allocated hwi, ← hbyte k hk hout]
    simp [Vol.bytes, Nat.lt_of_lt_of_le hk hsize]

theorem harmless_of_unharmed (hsb : sb.size ≤ 2 ^ 32) (hv : Held sb [] v) (hi : v.Allocated i)
    {off n : UInt32} {src : Source} (h : Unharmed sb v i off n src) :
    Harmless v i off.toNat n.toNat src := by
  intro hoff hn hlimit k hlo hblock hhi hk
  obtain ⟨v₁, hsame, hheld, hcall⟩ := writeCall_spec hsb hv hi off n src
  rw [if_pos ⟨hoff, hn⟩] at hcall
  obtain ⟨r, c, w, hrun, hw, hwrote, hsize, hended⟩ := hcall
  rw [hsame.size] at hsize hended
  obtain ⟨r', w', file, hrun', hsees, hold⟩ := h
  rw [hrun] at hrun'
  injection hrun' with hpair
  injection hpair with hr hw'
  rw [← hr] at hold
  rw [← hw'] at hsees
  cases hended with
  | all hall => omega
  | full hr' hlimit' hend _ =>
    -- the block of the fault starts after the end of the file
    simp only [BSIZE] at hblock hend
    omega
  | fault _ hr' hend hstart =>
    have hafter : off.toNat + r ≤ k := by
      simp only [BSIZE] at hblock hend hstart
      omega
    have hnow : Sees sb w i file := hsees []
    have hshown := hnow.byte ⟨hw.consistent, by simp⟩ (hw.allocated List.mem_cons_self)
      (k := k) (by omega)
    rw [hold k hk (by omega)] at hshown
    have hsrc := hwrote.written k hlo hhi
    rw [← hsrc]
    exact (Option.some.inj hshown).symm

/-- **Faulting writes.**

On a volume that has been used, since it was booted, by reads, truncations and harmless
writes, a write leaves the bytes outside the part it reports as they were, for every
later read and whatever happens to the cache, exactly if it is harmless. -/
theorem faulting_write_iff (sb : Superblock) (hsb : sb.size ≤ 2 ^ 32) (v₀ : Vol)
    (hstart : Fs.Consistent sb v₀.store) (hboot : Booted v₀) (cs : List Call) (v : Vol)
    (hrun : CarefulRun sb v₀ cs v) (i : Nat) (hi : v.Allocated i) (off n : UInt32) (src : Source) :
    Unharmed sb v i off n src ↔ Harmless v i off.toNat n.toNat src := by
  obtain ⟨hv, hs⟩ := hrun.synced hsb ⟨hstart, by simp⟩ hboot.synced
  exact ⟨harmless_of_unharmed hsb hv hi, unharmed_of_harmless hsb hv hs hi⟩

/-- Twenty bytes, of which ten can be read. -/
def brokenSource : Source := ⟨fun _ => 7, 10⟩

theorem smallVol_booted : Booted smallVol := ⟨fun _ => rfl, rfl⟩

theorem faulting_write_iff_small :
    Unharmed Fs.small smallVol 1 0 20 brokenSource ↔
      Harmless smallVol 1 (0 : UInt32).toNat (20 : UInt32).toNat brokenSource :=
  faulting_write_iff Fs.small (by decide) smallVol smallVol_consistent smallVol_booted [] smallVol
    (.nil smallVol) 1 smallVol_allocated 0 20 brokenSource

/-- The volume after this write to the root directory, whose 32 bytes are zero. -/
def damaged : Vol :=
  match writeCall Fs.small 1 0 20 brokenSource smallVol with
  | .ok (_, w) => w
  | .error _ => smallVol

/-- The write reports nothing written, but the ten bytes show; they are gone when the
buffer is. -/
theorem bytes_show_until_evicted :
    Fs.Consistent Fs.small smallVol.store ∧ smallVol.content 1 = List.replicate 32 0 ∧
      writeCall Fs.small 1 0 20 brokenSource smallVol = .ok (0, damaged) ∧
      (∃ u, (Op.readi 1 0 12).run Fs.small damaged =
        .ok (.read 12 [7, 7, 7, 7, 7, 7, 7, 7, 7, 7, 0, 0], u)) ∧
      ∃ u, (Op.readi 1 0 12).run Fs.small (damaged.evict 5) =
        .ok (.read 12 [0, 0, 0, 0, 0, 0, 0, 0, 0, 0, 0, 0], u) := by
  exact ⟨smallVol_consistent, rfl, rfl, ⟨_, rfl⟩, ⟨_, rfl⟩⟩

end Later

end Kus.Volume
