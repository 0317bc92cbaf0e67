import KusOs.WriteBudget

/-!
# Inodes as nodes

To its users an inode is its type, its device numbers, its link count and its bytes.

* `Vol.node` — the inodes in use, seen that way;
* `freeInode_spec` — freeing an inode;
* `writei_whole` — **a write of the kernel inside one block is done or leaves every node
  as it was**.
-/

namespace Kus.Volume

open Function Hoare LittleEndian Ownership
open Fs (FsPanic FsState Store Place dataPlace)
open Mkfs (BPB IPB zeroes slice)

structure Node where
  type : Int16
  major : Int16
  minor : Int16
  nlink : Int16
  content : List UInt8
deriving DecidableEq

/-- The inode `i` as its users see it, if it is in use. -/
def Vol.node (v : Vol) (i : Nat) : Option Node :=
  if (v.ip i).type = 0 then none
  else some ⟨(v.ip i).type, (v.ip i).major, (v.ip i).minor, (v.ip i).nlink, v.content i⟩

/-- The entry of inode `i` in the inode table is no longer valid. -/
def Vol.drop (v : Vol) (i : Nat) : Vol := { v with inode := update v.inode i none }

/-- Change fields of inode `i` and write it back. -/
def setFields (i : Nat) (f : Dinode → Dinode) : VolM Unit := do
  modify fun v => v.setIp i (f (v.ip i))
  iupdate i

/-- What `iput` does to an inode without links and without other references. -/
def freeInode (i : Nat) : VolM Unit := do
  itrunc i
  setFields i fun d => { d with type := 0 }
  modify fun v => v.drop i

section Nodes

variable {sb : Superblock} {L : List Nat} {v w u : Vol} {i j : Nat} {nd : Node}

theorem node_eq_none : v.node i = none ↔ (v.ip i).type = 0 := by
  unfold Vol.node
  by_cases h : (v.ip i).type = 0
  · simp [h]
  · simp [h]

theorem node_eq_some : v.node i = some nd ↔ v.Allocated i ∧
    nd = ⟨(v.ip i).type, (v.ip i).major, (v.ip i).minor, (v.ip i).nlink, v.content i⟩ := by
  unfold Vol.node Vol.Allocated
  by_cases h : (v.ip i).type = 0
  · simp [h]
  · simp [h, eq_comm]

theorem node_of_allocated (h : v.Allocated i) : v.node i =
    some ⟨(v.ip i).type, (v.ip i).major, (v.ip i).minor, (v.ip i).nlink, v.content i⟩ :=
  node_eq_some.2 ⟨h, rfl⟩

section

variable (h : v.node i = some nd)
include h

theorem allocated_of_node : v.Allocated i := (node_eq_some.1 h).1

theorem node_type : nd.type = (v.ip i).type := by
  rw [(node_eq_some.1 h).2]

theorem node_content : nd.content = v.content i := by
  rw [(node_eq_some.1 h).2]

theorem node_length : nd.content.length = v.size i := by
  rw [node_content h, length_content (allocated_of_node h)]

end

/-- An inode whose fields and bytes are as they were. -/
theorem node_congr (hip : w.ip i = v.ip i) (hcontent : w.content i = v.content i) :
    w.node i = v.node i := by
  unfold Vol.node
  rw [hip, hcontent]

theorem Same.node (h : Same v w) : w.node = v.node := by
  funext j
  exact node_congr (congrFun h.ip j) (congrFun h.content j)

theorem Same.trans (hvw : Same v w) (hwu : Same w u) : Same v u :=
  ⟨hwu.ip.trans hvw.ip, hwu.block.trans hvw.block, hwu.bitmap.trans hvw.bitmap,
    hwu.dinode.trans hvw.dinode, hwu.cache.trans hvw.cache, hwu.disk.trans hvw.disk,
    hwu.log.trans hvw.log⟩

theorem Quiet.node (h : Quiet i v w) (hj : j ≠ i) : w.node j = v.node j :=
  node_congr (h.ip hj) (h.content_other hj)

theorem Held.unlock {L' : List Nat} (h : Held sb L v) (hsub : L' ⊆ L) : Held sb L' v :=
  ⟨h.consistent, fun j hj => h.locked j (hsub hj)⟩

/-- A free inode has no valid entry. -/
theorem Held.invalid (h : Held sb L v) (hi : (v.ip i).type = 0) : v.inode i = none := by
  cases hinode : v.inode i with
  | none => rfl
  | some d =>
    have htype := ((h.consistent.inodes i).same d hinode).2
    have hip : v.ip i = d := by simp [Vol.ip, hinode]
    exact absurd (hip ▸ hi) htype

/-- An entry is a copy of the dinode. -/
theorem Held.dinode (h : Held sb L v) (i : Nat) : v.dinode i = v.ip i := by
  cases hinode : v.inode i with
  | none => simp [Vol.ip, hinode]
  | some d =>
    have hsame : d = v.dinode i := ((h.consistent.inodes i).same d hinode).1
    simp [Vol.ip, hinode, hsame]

/-- The entry of an inode that is not locked may be dropped. -/
theorem Held.drop (h : Held sb L v) (hi : i ∉ L) : Held sb L (v.drop i) ∧ Same v (v.drop i) := by
  obtain ⟨t, hv, ht⟩ := h.inv
  have hshow : Shows (v.drop i) { t with inode := update t.inode i none } := by
    refine ⟨hv.bitmap, hv.word, hv.dinode, ?_⟩
    rw [hv.inode]
    rfl
  have hip : (v.drop i).ip = v.ip := by
    funext j
    by_cases e : j = i
    · rw [e, ← h.dinode]
      simp [Vol.ip, Vol.drop]
    · simp [Vol.ip, Vol.drop, e]
  refine ⟨Held.of_inv hshow (ht.recycle hi), hip, ?_, rfl, rfl, rfl, rfl, rfl⟩
  apply block_congr
  funext p
  exact ptr_congr (congrFun hip p.1) rfl p.2

end Nodes

section Changing

variable {sb : Superblock} {L : List Nat} {v : Vol} {i : Nat}

/-- `iupdate` changes no inode as its user sees it. -/
theorem ip_writeBack (v : Vol) (i : Nat) :
    ({ v with dinode := update v.dinode i (v.ip i) } : Vol).ip = v.ip := by
  funext j
  by_cases e : j = i
  · rw [e]
    cases hinode : v.inode i with
    | none => simp [Vol.ip, hinode]
    | some d => simp [Vol.ip, hinode]
  · simp [Vol.ip, e]

/-- **Freeing an inode.** -/
theorem freeInode_spec (h : Held sb (i :: L) v) (hi : i ∉ L) :
    ∃ w, freeInode i v = .ok ((), w) ∧ Held sb L w ∧ Quiet i v w ∧ Logs i v w ∧
      (w.ip i).type = 0 := by
  obtain ⟨u, hrun, hu, _, hzero, hquiet⟩ := itrunc_spec h List.mem_cons_self
  have hlogs := Triple.of_ok (itrunc_logs (h.allocated List.mem_cons_self)) rfl hrun
  obtain ⟨t, hshow, ht⟩ := hu.inv
  let d : Dinode := { u.ip i with type := 0 }
  let u₁ := u.setIp i d
  have hself : u₁.ip i = d := by simp [u₁, Vol.setIp, Vol.ip]
  have hempty : ∀ x, t.ptr (i, x) = 0 := by
    intro x
    have hip := hshow.ip i
    cases x with
    | inl k => simp [Store.ptr, Fs.ptrOf, hip, hzero]
    | inr k => simp [Store.ptr, Fs.ptrOf, hip, hzero]
  have hfreed := (ht.unlock (List.subset_cons_self i L)).replace hi hempty (d := d) (.inl rfl)
  let w : Vol := { u with
    dinode := update u.dinode i d
    inode := update u.inode i none }
  have hw : Shows w { t with
      dinode := update t.dinode i d
      inode := update t.inode i none } := by
    refine ⟨hshow.bitmap, hshow.word, ?_, ?_⟩
    · rw [hshow.dinode]
    · rw [hshow.inode]
  have hheld := Held.of_inv hw hfreed
  refine ⟨w.logWrite (.inode (i / IPB)), ?_, ⟨hheld.consistent, hheld.locked⟩, ?_,
    hlogs.add rfl (.inl rfl), ?_⟩
  · unfold freeInode
    rw [run_bind_ok hrun]
    have hlast : ({ u₁ with
        dinode := update u₁.dinode i (u₁.ip i)
        inode := update u₁.inode i none } : Vol) = w := by
      rw [hself]
      simp [u₁, w, Vol.setIp]
    rw [← hlast]
    rfl
  · have hstep : Quiet i v w := by
      refine ⟨hquiet.cache, hquiet.disk, hquiet.log, ?_, ?_⟩
      · intro j hj
        change update u.inode i none j = v.inode j
        rw [update_of_ne hj, hquiet.inode j hj]
      · intro j hj
        change update u.dinode i d j = v.dinode j
        rw [update_of_ne hj, hquiet.dinode j hj]
    exact hstep.logWrite _
  · change (w.ip i).type = 0
    simp [w, Vol.ip, d]

end Changing

section Fields

variable {sb : Superblock} {v : Vol} {i j : Nat} {d : Dinode}

/-- The fields of an inode that say nothing about its blocks. -/
structure SameFields (d e : Dinode) : Prop where
  type : e.type = d.type
  major : e.major = d.major
  minor : e.minor = d.minor
  nlink : e.nlink = d.nlink

theorem SameFields.refl (d : Dinode) : SameFields d d := ⟨rfl, rfl, rfl, rfl⟩

/-- Inode `i` changes in other fields only. -/
theorem SameFields.setIp (h : SameFields d (v.ip j)) {e : Dinode} (he : SameFields (v.ip i) e) :
    SameFields d ((v.setIp i e).ip j) := by
  by_cases hj : j = i
  · have hself : (v.setIp i e).ip j = e := by simp [Vol.setIp, Vol.ip, hj]
    rw [hself]
    rw [hj] at h
    exact ⟨he.type.trans h.type, he.major.trans h.major, he.minor.trans h.minor,
      he.nlink.trans h.nlink⟩
  have hother : (v.setIp i e).ip j = v.ip j := by simp [Vol.setIp, Vol.ip, hj]
  rw [hother]
  exact h

/-- A part that changes only the blocks and the sizes of inodes. -/
abbrev KeepsFields {α : Type} (d : Dinode) (j : Nat) (x : VolM α) : Prop :=
  Triple (fun w => SameFields d (w.ip j)) x (fun _ w => SameFields d (w.ip j)) fun _ => True

theorem balloc_fields : KeepsFields d j (balloc sb) := by
  apply Triple.fix
  intro v h
  refine .conseq (balloc_took v) (fun _ hv => hv) ?_ fun _ _ => trivial
  intro r w hw
  rcases hw with hw | hw
  · rw [hw.2]
    exact h
  · rw [hw.ip]
    exact h

theorem mapAddr_fields (k : Fin (NDIRECT + 1)) : KeepsFields d j (mapAddr sb i k) := by
  apply Triple.get_bind
  intro v h
  apply Triple.ite
  · intro _
    apply Triple.bind (.here balloc_fields h)
    intro b
    apply Triple.ite
    · exact fun _ => .pure _ fun _ hw => hw
    · intro _ w hw
      exact hw.setIp ⟨rfl, rfl, rfl, rfl⟩
  · exact fun _ => .pure _ fun w hw => hw ▸ h

theorem mapEntry_fields (a : Nat) (k : Fin NINDIRECT) : KeepsFields d j (mapEntry sb a k) := by
  apply Triple.get_bind
  intro v h
  apply Triple.ite
  · intro _
    apply Triple.bind (.here balloc_fields h)
    intro b
    apply Triple.ite
    · exact fun _ => .pure _ fun _ hw => hw
    · exact fun _ _ hw => hw
  · exact fun _ => .pure _ fun w hw => hw ▸ h

theorem bmap_fields (bn : Nat) : KeepsFields d j (bmap sb i bn) := by
  unfold bmap
  by_cases hd : bn < NDIRECT
  · rw [dif_pos hd]
    exact mapAddr_fields _
  rw [dif_neg hd]
  by_cases hi : bn - NDIRECT < NINDIRECT
  · rw [dif_pos hi]
    apply Triple.bind (mapAddr_fields _)
    intro a
    apply Triple.ite
    · exact fun _ => .pure _ fun _ hw => hw
    · exact fun _ => mapEntry_fields _ _
  · rw [dif_neg hi]
    exact .throw fun _ _ => trivial

theorem writeLoop_fields {n : Nat} {src : Source} (rounds off tot : Nat) :
    KeepsFields d j (writeLoop sb i n src rounds off tot) := by
  induction rounds generalizing off tot with
  | zero => exact .pure _ fun _ h => h
  | succ rounds ih =>
    unfold writeLoop
    apply Triple.ite
    · intro _
      apply Triple.bind (bmap_fields _)
      intro addr
      apply Triple.ite
      · exact fun _ => .pure _ fun _ h => h
      intro _
      apply Triple.bind (Q := fun _ w => SameFields d (w.ip j))
      · exact fun _ h => h
      · intro all
        apply Triple.ite
        · intro _
          apply Triple.bind (Q := fun _ w => SameFields d (w.ip j))
          · exact fun _ h => h
          · exact fun _ => ih _ _
        · exact fun _ => .pure _ fun _ h => h
    · exact fun _ => .pure _ fun _ h => h

/-- A write changes the size and the addresses of its inode, and no other field of any. -/
theorem writei_fields (off n : Nat) (src : Source) : KeepsFields d j (writei sb i off n src) := by
  apply Triple.get_bind
  intro v h
  apply Triple.ite
  · exact fun _ => .pure _ fun w hw => hw ▸ h
  intro _
  apply Triple.ite
  · exact fun _ => .pure _ fun w hw => hw ▸ h
  intro _
  apply Triple.bind (.here (writeLoop_fields _ _ _) h)
  intro r
  apply Triple.bind (Q := fun _ w => SameFields d (w.ip j))
  · apply Triple.modify
    intro w hw
    by_cases hlt : (w.ip i).size < r.1
    · rw [if_pos hlt]
      exact hw.setIp ⟨rfl, rfl, rfl, rfl⟩
    · rw [if_neg hlt]
      exact hw
  · intro _
    apply Triple.bind (Q := fun _ w => SameFields d (w.ip j))
    · intro w hw
      change SameFields d
        (({ w with dinode := update w.dinode i (w.ip i) } : Vol).ip j)
      rw [ip_writeBack]
      exact hw
    · exact fun _ => .pure _ fun _ hw => hw

end Fields

section Whole

variable {sb : Superblock} {L : List Nat} {v : Vol} {i off : Nat}

/-- Bytes in kernel memory. -/
def Source.ofList (p : List UInt8) : Source := ⟨fun k => p.getD k 0, p.length⟩

theorem Source.bytes_ofList (p : List UInt8) : (Source.ofList p).bytes 0 p.length = p := by
  unfold Source.bytes Source.ofList
  apply List.ext_getElem
  · simp
  · intro k hk _
    simp at hk
    simp [hk]

/-- A write inside one block takes one round. -/
theorem writeLoop_once {n : Nat} {src : Source} (hn : n ≠ 0) (hblock : off % BSIZE + n ≤ BSIZE) :
    Triple (fun _ => True) (writeLoop sb i n src n off 0) (fun r _ => r.2 = 0 ∨ r.2 = n)
      fun _ => True := by
  obtain ⟨k, hk⟩ := Nat.exists_eq_succ_of_ne_zero hn
  have hround : writeLoop sb i n src n off 0 = writeLoop sb i n src (k + 1) off 0 := by rw [hk]
  have hlen : min (n - 0) (BSIZE - off % BSIZE) = n := by omega
  rw [hround]
  unfold writeLoop
  rw [if_pos (by omega), hlen]
  apply Triple.bind (.any _)
  intro addr
  apply Triple.ite
  · exact fun _ => .pure _ fun _ _ => .inl rfl
  intro _
  apply Triple.bind (.any _)
  intro all
  apply Triple.ite
  · intro _
    apply Triple.bind (.any _)
    intro _
    rw [Nat.zero_add]
    cases k with
    | zero => exact .pure _ fun _ _ => .inr rfl
    | succ k =>
      unfold writeLoop
      rw [if_neg (lt_irrefl n)]
      exact .pure _ fun _ _ => .inr rfl
  · exact fun _ => .pure _ fun _ _ => .inl rfl

theorem writei_once {n : Nat} {src : Source} (hn : n ≠ 0) (hblock : off % BSIZE + n ≤ BSIZE) :
    Triple (fun _ => True) (writei sb i off n src)
      (fun r _ => r = -1 ∨ r = 0 ∨ r = n) fun _ => True := by
  apply Triple.get_bind
  intro v _
  apply Triple.ite
  · exact fun _ => .pure _ fun _ _ => .inl rfl
  intro _
  apply Triple.ite
  · exact fun _ => .pure _ fun _ _ => .inl rfl
  intro _
  apply Triple.bind (.pre (writeLoop_once hn hblock) fun _ _ => trivial)
  intro r
  apply Triple.bind (Q := fun _ _ => r.2 = 0 ∨ r.2 = n)
  · exact .modify fun _ h => h
  · intro _
    apply Triple.bind (Q := fun _ _ => r.2 = 0 ∨ r.2 = n)
    · exact fun _ h => h
    · intro _
      apply Triple.pure
      intro _ h
      rcases h with h | h
      · exact .inr (.inl (by rw [h]; rfl))
      · exact .inr (.inr (by rw [h]))

theorem overwrite_nil (c : List UInt8) (off : Nat) : overwrite c off [] = c := by
  simp [overwrite]

/-- **A write of the kernel inside one block** is done, or every node is as it was: then
the block is beyond the end of the file and every block of the disk is in use. -/
theorem writei_whole (hsb : sb.size ≤ 2 ^ 32) (h : Held sb L v) (hi : i ∈ L) {p : List UInt8}
    (hoff : off ≤ v.size i) (hp : p ≠ []) (hblock : off % BSIZE + p.length ≤ BSIZE)
    (hmax : off + p.length ≤ MAXFILE * BSIZE) :
    ∃ (r : Nat) (w : Vol), writei sb i off p.length (.ofList p) v = .ok ((r : Int), w) ∧
      Held sb L w ∧
      ((r = p.length ∧ w.node = update v.node i
          ((v.node i).map fun nd => { nd with content := overwrite nd.content off p })) ∨
        (r = 0 ∧ p.length ≠ 0 ∧ w.node = v.node ∧ v.size i ≤ off / BSIZE * BSIZE ∧
          Fs.Full sb w.store)) := by
  have hlen : p.length ≠ 0 := fun h0 => hp (List.eq_nil_of_length_eq_zero h0)
  obtain ⟨r, c, w, hrun, hheld, hwrote, hsize, hended⟩ := writei_spec hsb h hi hoff hmax (.ofList p)
  have honce := Triple.of_ok (writei_once hlen hblock) trivial hrun
  have hfields := Triple.of_ok (writei_fields off p.length (.ofList p))
    (SameFields.refl (v.ip i)) hrun
  have hv : v.Allocated i := h.allocated hi
  have hw : w.Allocated i := hheld.allocated hi
  have hothers : w.node = update v.node i (w.node i) := by
    funext j
    by_cases e : j = i
    · rw [e, update_self]
    · rw [update_of_ne e]
      exact node_congr (hwrote.ip e) (hwrote.content_other h e)
  have hself : ∀ content, w.content i = content → w.node i =
      (v.node i).map fun nd => { nd with content := content } := by
    intro content hcontent
    rw [node_of_allocated hv, node_of_allocated hw, hcontent, hfields.type, hfields.major,
      hfields.minor, hfields.nlink]
    rfl
  refine ⟨r, w, hrun, hheld, ?_⟩
  have hr : r = 0 ∨ r = p.length := by omega
  have hcr : c = r ∧ (r = p.length ∨
      v.size i ≤ (off + r) / BSIZE * BSIZE ∧ Fs.Full sb w.store) := by
    have hlimit : (Source.ofList p).limit = p.length := rfl
    cases hended with
    | all _ => exact ⟨rfl, .inl rfl⟩
    | full _ _ hend hfull => exact ⟨rfl, .inr ⟨hend, hfull⟩⟩
    | fault hshort _ _ _ => omega
  obtain ⟨hcr, hend⟩ := hcr
  rw [hcr] at hwrote
  have hcontent := hwrote.content_self h hv hw hoff hsize
  rcases hr with hr | hr
  · have hsame : w.content i = v.content i := by
      rw [hcontent, hr]
      exact overwrite_nil _ _
    refine .inr ⟨hr, hlen, ?_, ?_⟩
    · have hnode : w.node i = v.node i := by
        rw [hself _ hsame, node_of_allocated hv]
        rfl
      rw [hothers, hnode, update_eq_self]
    · rw [hr] at hend
      rcases hend with hend | hend
      · exact absurd hend.symm hlen
      · exact hend
  · left
    refine ⟨hr, ?_⟩
    rw [hr, Source.bytes_ofList] at hcontent
    rw [hothers, node_of_allocated hv]
    congr 1
    rw [hself _ hcontent, node_of_allocated hv]
    rfl

end Whole

end Kus.Volume
