import KusOs.MkfsKernel
import KusOs.MkfsMain

/-!
# Images of mkfs and the kernel

* `mkfs_freeinode` — mkfs uses one inode for the root and one for each file, however
  many there are;
* `Final.root`, `Final.content` — what the kernel finds in the image;
* `mkfs_consistent_iff` — an image is a consistent file system for the kernel exactly
  if its inodes are numbers that the superblock admits, the entries of the root
  directory do not fill its last block, and no file is named like the root itself.
-/

namespace Kus.Mkfs

open LittleEndian Kus.Dir Ownership Hoare

/-! ### The number of inodes -/

section Freeinode

variable {α β : Type}

/-- The program allocates no inode. -/
def Keeps (x : MkM α) : Prop :=
  ∀ F, Triple (fun s => s.freeinode = F) x (fun _ s => s.freeinode = F) fun _ => True

theorem Keeps.pure (a : α) : Keeps (Pure.pure a) := fun _ => .pure a fun _ h => h

theorem Keeps.throw (e : Die) : Keeps (throw e : MkM α) := fun _ => .throw fun _ _ => trivial

theorem Keeps.bind {x : MkM α} {f : α → MkM β} (hx : Keeps x) (hf : ∀ a, Keeps (f a)) :
    Keeps (x >>= f) :=
  fun F => .bind (hx F) fun a => hf a F

theorem Keeps.ite {c : Prop} [Decidable c] {x y : MkM α} (hx : Keeps x) (hy : Keeps y) :
    Keeps (if c then x else y) :=
  fun F => .ite (fun _ => hx F) fun _ => hy F

theorem wsect_keeps (sec : Nat) (buf : Buffer) : Keeps (wsect sec buf) :=
  fun _ => .modify fun _ h => h

theorem rsect_keeps (sec : Nat) : Keeps (rsect sec) := by
  intro F s hs
  rcases Nat.lt_or_ge sec s.size with hlt | hge
  · rw [rsect_run hlt]
    exact hs
  · rw [rsect_error hge]
    trivial

theorem winode_keeps (inum : Nat) (d : Dinode) : Keeps (winode inum d) :=
  Keeps.bind (rsect_keeps _) fun _ => wsect_keeps _ _

theorem rinode_keeps (inum : Nat) : Keeps (rinode inum) :=
  Keeps.bind (rsect_keeps _) fun _ => .pure _

theorem nextBlock_keeps : Keeps nextBlock := fun _ _ h => h

theorem addrFor_keeps (d : Dinode) (k : Fin (NDIRECT + 1)) : Keeps (addrFor d k) :=
  Keeps.ite (.bind nextBlock_keeps fun _ => .pure _) (.pure _)

theorem blockFor_keeps (d : Dinode) (fbn : Nat) : Keeps (blockFor d fbn) := by
  unfold blockFor
  by_cases h : fbn < NDIRECT
  · rw [dif_pos h]
    exact .bind (addrFor_keeps _ _) fun _ => .pure _
  rw [dif_neg h]
  exact .bind (addrFor_keeps _ _) fun _ => .bind (rsect_keeps _) fun _ =>
    Keeps.ite (.bind nextBlock_keeps fun _ => .bind (wsect_keeps _ _) fun _ =>
      Keeps.pure _) (.pure _)

theorem iappendLoop_keeps (rounds : Nat) (d : Dinode) (off : Nat) (p : List UInt8) :
    Keeps (iappendLoop rounds d off p) := by
  induction rounds generalizing d off p with
  | zero => exact .pure _
  | succ rounds ih =>
    apply Keeps.ite (.pure _)
    apply Keeps.ite _ (.throw _)
    exact .bind (blockFor_keeps _ _) fun r => .bind (rsect_keeps _) fun _ =>
      Keeps.bind (wsect_keeps _ _) fun _ => ih _ _ _

theorem iappend_keeps (inum : Nat) (p : List UInt8) : Keeps (iappend inum p) :=
  Keeps.bind (rinode_keeps _) fun _ => .bind (iappendLoop_keeps _ _ _ _) fun _ =>
    winode_keeps _ _

theorem balloc_keeps (used : Nat) : Keeps (balloc used) :=
  Keeps.ite (wsect_keeps _ _) (.throw _)

theorem ialloc_freeinode (type : Int16) (F : Nat) :
    Triple (fun s => s.freeinode = F) (ialloc type) (fun _ s => s.freeinode = F + 1)
      fun _ => True := by
  unfold ialloc
  apply Triple.get_bind
  intro m hm
  refine .bind (Q := fun _ s => s.freeinode = F + 1) ?_ fun _ => ?_
  · apply Triple.modify
    intro s hs
    rw [hs]
    simp only [hm]
  · exact Keeps.bind (winode_keeps _ _) (fun _ => Keeps.pure _) (F + 1)

theorem addFile_freeinode (rootino : Nat) (f : HostFile) (F : Nat) :
    Triple (fun s => s.freeinode = F) (addFile rootino f) (fun _ s => s.freeinode = F + 1)
      fun _ => True := by
  unfold addFile
  apply Triple.ite
  · intro _
    exact .throw fun _ _ => trivial
  intro _
  cases f.chunks with
  | none => exact .throw fun _ _ => trivial
  | some chunks =>
    apply Triple.ite
    · intro _
      refine .bind (ialloc_freeinode T_FILE F) fun inum => ?_
      exact .bind (iappend_keeps _ _ (F + 1)) fun _ =>
        Triple.forM fun c _ => iappend_keeps _ c (F + 1)
    · intro _
      exact .throw fun _ _ => trivial

theorem files_freeinode (rootino : Nat) (files : List HostFile) (F : Nat) :
    Triple (fun s => s.freeinode = F) (files.forM (addFile rootino))
      (fun _ s => s.freeinode = F + files.length) fun _ => True := by
  refine .forM_done (I := fun done (s : Mk) => s.freeinode = F + done.length) ?_
  intro done f rest _
  rw [List.length_append, List.length_singleton, ← Nat.add_assoc]
  exact addFile_freeinode rootino f _

theorem mainProgram_freeinode (files : List HostFile) :
    Triple (fun s => s = Mk.start) (mainProgram files)
      (fun _ s => s.freeinode = files.length + 2) fun _ => True := by
  unfold mainProgram
  apply Triple.bind_ok (zeroImage_run FSSIZE)
  have hwrite : wsect 1 superBuf { Mk.start with size := FSSIZE } = .ok ((), blank) := rfl
  apply Triple.bind_ok hwrite
  refine .bind (.pre (ialloc_freeinode T_DIR 1) ?_) fun rootino => ?_
  · intro s hs
    rw [hs]
    rfl
  apply Triple.ite
  · intro _
    refine .bind (iappend_keeps _ _ 2) fun _ => ?_
    refine .bind (iappend_keeps _ _ 2) fun _ => ?_
    have hfiles := files_freeinode rootino files 2
    rw [Nat.add_comm 2] at hfiles
    refine .bind hfiles fun _ => ?_
    refine .bind (rinode_keeps _ _) fun _ => ?_
    refine .bind (winode_keeps _ _ _) fun _ => ?_
    apply Triple.get_bind
    intro s hs
    apply Triple.pre (balloc_keeps _ _)
    intro t ht
    rw [ht]
    exact hs
  · intro _
    exact .throw fun _ _ => trivial

/-- One inode for the root directory and one for each file. -/
theorem mkfs_freeinode {files : List HostFile} {m : Mk} (h : mkfs files = .ok m) :
    m.freeinode = files.length + 2 := by
  unfold mkfs at h
  cases hmain : mainProgram files Mk.start with
  | error e =>
    rw [hmain] at h
    cases h
  | ok r =>
    rw [hmain] at h
    cases h
    have hspec := mainProgram_freeinode files
    have hpost := hspec.of_ok rfl hmain
    exact hpost

end Freeinode

/-! ### What the kernel finds -/

variable {files : List HostFile} {f : HostFile} {m : Mk} {i j : Fin inodeArea}

theorem superBuf_word {k : Nat} (hk : k < 8) : getLE superBuf (4 * k) 4 = superWords sb k := by
  have hsmall : ∀ k : Fin 8, superWords sb k < 256 ^ 4 := by decide
  have hget : getLE (putWords zeroes 0 8 (superWords sb)) (0 + 4 * k) 4 = superWords sb k :=
    getLE_putWords hk (hsmall ⟨k, hk⟩)
  rw [Nat.zero_add] at hget
  exact hget

/-- The superblock is read as it was written. -/
theorem readsb_eq {img : Nat → Buffer} (h : img 1 = superBuf) : readsb img = sb := by
  unfold readsb
  rw [h]
  have h0 := superBuf_word (k := 0) (by omega)
  have h1 := superBuf_word (k := 1) (by omega)
  have h2 := superBuf_word (k := 2) (by omega)
  have h3 := superBuf_word (k := 3) (by omega)
  have h4 := superBuf_word (k := 4) (by omega)
  have h5 := superBuf_word (k := 5) (by omega)
  have h6 := superBuf_word (k := 6) (by omega)
  have h7 := superBuf_word (k := 7) (by omega)
  simp only [Nat.reduceMul] at h0 h1 h2 h3 h4 h5 h6 h7
  rw [h0, h1, h2, h3, h4, h5, h6, h7]
  rfl

/-- The entries of the root directory. -/
def entriesOf (files : List HostFile) : List Entry :=
  (ROOTINO, dot) :: (ROOTINO, dotdot) :: (files.zipIdx 2).map fun e => (e.2, e.1.shortname)

/-- The root directory, with zeros up to its size. -/
def rootBytes (files : List HostFile) : List UInt8 :=
  window (rootEntries files) 0 (((rootEntries files).length / BSIZE + 1) * BSIZE)

theorem rootEntries_eq (files : List HostFile) :
    rootEntries files = entryBytes (entriesOf files) := by
  simp [rootEntries, entryBytes, entriesOf, List.flatMap_map]

theorem entriesOf_length (files : List HostFile) : (entriesOf files).length = files.length + 2 := by
  simp [entriesOf]

theorem HostFile.shortname_sublist (f : HostFile) : ∀ b ∈ f.shortname, b ∈ f.base := by
  intro b hb
  unfold HostFile.shortname at hb
  split at hb
  case _ rest hbase =>
    rw [hbase]
    exact List.mem_cons_of_mem _ hb
  case _ => exact hb

theorem HostFile.shortname_no_nul (f : HostFile) : ∀ b ∈ f.shortname, b ≠ 0 := by
  intro b hb
  apply f.no_nul
  have hbase := f.shortname_sublist b hb
  unfold HostFile.base at hbase
  split at hbase
  · exact List.mem_of_mem_drop hbase
  · exact hbase

theorem no_nul_of_all {name : Name} (h : name.all (· != 0) = true) : ∀ b ∈ name, b ≠ 0 := by
  intro b hb
  exact bne_iff_ne.1 (List.all_eq_true.1 h b hb)

theorem entriesOf_ok (hn : files.length ≤ 206) (hopen : ∀ f ∈ files, f.Openable) :
    ∀ e ∈ entriesOf files, Entry.Ok e := by
  intro e he
  unfold entriesOf at he
  rcases List.mem_cons.1 he with heq | he
  · rw [heq]
    constructor
    · decide
    · decide
    · decide
    · exact no_nul_of_all rfl
  rcases List.mem_cons.1 he with heq | he
  · rw [heq]
    constructor
    · decide
    · decide
    · decide
    · exact no_nul_of_all rfl
  obtain ⟨⟨g, k⟩, hg, heq⟩ := List.mem_map.1 he
  have hk := List.mem_zipIdx hg
  have hmem : g ∈ files := by
    rw [hk.2.2]
    exact List.getElem_mem _
  rw [← heq]
  constructor
  · simp only
    omega
  · simp only
    omega
  · exact (hopen g hmem).2.2
  · exact g.shortname_no_nul

/-- The entry of a file, if the names are distinct. -/
theorem find_zipIdx (hnodup : (files.map HostFile.shortname).Nodup) (n k : Nat)
    (hk : files[k]? = some f) :
    findEntry ((files.zipIdx n).map fun e => (e.2, e.1.shortname)) f.shortname = some (n + k) := by
  induction files generalizing n k with
  | nil => cases hk
  | cons g rest ih =>
    rw [List.map_cons, List.nodup_cons] at hnodup
    cases k with
    | zero =>
      rw [List.getElem?_cons_zero, Option.some.injEq] at hk
      simp [findEntry, hk]
    | succ k =>
      rw [List.getElem?_cons_succ] at hk
      have hne : g.shortname ≠ f.shortname := by
        intro heq
        apply hnodup.1
        rw [heq]
        exact List.mem_map_of_mem (List.mem_of_getElem? hk)
      have hrest := ih hnodup.2 (n + 1) k hk
      have hcomm : n + 1 + k = n + (k + 1) := by omega
      rw [hcomm] at hrest
      unfold findEntry at hrest ⊢
      rw [List.zipIdx_cons, List.map_cons, List.find?_cons_of_neg (by simpa using hne)]
      exact hrest

/-- The names that lead to the root directory itself. -/
def rootNames : List Name := [[], dot, dotdot]

theorem findEntry_root (files : List HostFile) {name : Name} (hne : name ≠ [])
    (h : name ∈ rootNames) : findEntry (entriesOf files) name = some ROOTINO := by
  simp only [rootNames, List.mem_cons, List.not_mem_nil, or_false] at h
  rcases h with heq | heq | heq
  · exact absurd heq hne
  · simp [findEntry, entriesOf, heq]
  · have hdot : dot ≠ dotdot := by decide
    simp [findEntry, entriesOf, heq, hdot]

theorem findEntry_file (hnodup : (files.map HostFile.shortname).Nodup) {k : Nat}
    (hk : files[k]? = some f) (h : f.shortname ∉ rootNames) :
    findEntry (entriesOf files) f.shortname = some (k + 2) := by
  simp only [rootNames, List.mem_cons, List.not_mem_nil, or_false, not_or] at h
  have hfind := find_zipIdx hnodup 2 k hk
  have hdot : ¬ dot = f.shortname := fun heq => h.2.1 heq.symm
  have hdotdot : ¬ dotdot = f.shortname := fun heq => h.2.2 heq.symm
  unfold findEntry at hfind ⊢
  unfold entriesOf
  rw [List.find?_cons_of_neg (by simpa using hdot), List.find?_cons_of_neg (by simpa using hdotdot),
    hfind, Nat.add_comm]

/-- The blocks an inode refers to are those at its places. -/
theorem refersTo_iff {b : Nat} : RefersTo m.img (diskInode m.img i) b ↔
    b ≠ 0 ∧ ∃ q : Place, q.inode = i ∧ ptr m.img (diskInode m.img) q = b := by
  unfold RefersTo
  constructor
  · rintro ⟨hb, hind | ⟨bn, hbn, haddr⟩⟩
    · exact ⟨hb, .addr i indirect, rfl, hind⟩
    · exact ⟨hb, blockPlace i bn hbn, inode_blockPlace hbn, by rw [ptr_blockPlace]; exact haddr⟩
  · rintro ⟨hb, q, hq, hptr⟩
    refine ⟨hb, ?_⟩
    cases q with
    | addr j k =>
      have hj : j = i := hq
      subst hj
      by_cases hk : k.val < NDIRECT
      · right
        have hmax : NDIRECT < MAXFILE := by decide
        exact ⟨k, by omega, by rw [blockAddr_direct hk]; exact hptr⟩
      left
      have hk' : indirect = k := by
        apply Fin.ext
        simp only [indirect]
        omega
      rw [hk']
      exact hptr
    | word j l =>
      have hj : j = i := hq
      subst hj
      right
      have hl := l.isLt
      refine ⟨NDIRECT + l, by unfold MAXFILE; omega, ?_⟩
      rw [blockAddr_word (by omega), Nat.add_sub_cancel_left]
      exact hptr

namespace Final

variable (h : Final files m)

include h

theorem readsb : readsb m.img = sb := readsb_eq h.super

theorem dinodeOf_eq (i : Fin inodeArea) : dinodeOf m.img i = diskInode m.img i := by
  unfold dinodeOf diskInode
  rw [h.readsb]

/-- An inode without bytes refers to no block. -/
theorem ptr_zero (hempty : dataOf files i = []) {q : Place} (hq : q.inode = i) :
    ptr m.img (diskInode m.img) q = 0 := by
  have hnb : nbs (dataOf files) i = 0 := by
    unfold nbs
    rw [hempty]
    decide
  have hind : (diskInode m.img i).addrs indirect = 0 := by
    by_contra hne
    have hlt := h.inds i hne
    omega
  cases q with
  | addr j k =>
    have hj : j = i := hq
    subst hj
    by_cases hk : k.val < NDIRECT
    · have hmax : NDIRECT < MAXFILE := by decide
      have hmapped := (h.layout.file j).mapped k (by omega)
      rw [blockAddr_direct hk, hnb] at hmapped
      simp only [ptr]
      by_contra hne
      exact absurd (hmapped.1 hne) (by omega)
    have hk' : k = indirect := by
      apply Fin.ext
      simp only [indirect]
      omega
    rw [hk']
    exact hind
  | word j l =>
    have hj : j = i := hq
    subst hj
    simp only [ptr]
    exact if_pos hind

/-- Only the inodes handed out have bytes. -/
theorem dataOf_used (hne : dataOf files i ≠ []) : 1 ≤ i.val ∧ i.val < m.freeinode := by
  rw [h.freeinode]
  unfold dataOf at hne
  by_cases hroot : i = rootInode
  · rw [hroot]
    simp only [rootInode, ROOTINO]
    omega
  rw [if_neg hroot] at hne
  by_cases htwo : 2 ≤ i.val
  · rw [if_pos htwo] at hne
    have hlt : i.val - 2 < files.length := by
      by_contra hge
      apply hne
      rw [List.getD_eq_default]
      rw [List.length_map]
      omega
    omega
  · rw [if_neg htwo] at hne
    exact absurd rfl hne

theorem disjoint {b : Nat} (hij : i ≠ j) (hi : RefersTo m.img (diskInode m.img i) b) :
    ¬ RefersTo m.img (diskInode m.img j) b := by
  intro hj
  obtain ⟨hb, q, hq, hqb⟩ := refersTo_iff.1 hi
  obtain ⟨_, r, hr, hrb⟩ := refersTo_iff.1 hj
  have hsame := h.layout.owned.inj q r (by rw [hqb]; exact hb) (by rw [hqb, hrb])
  rw [← hq, ← hr, hsame] at hij
  exact hij rfl

/-- A bit of the free map. -/
theorem bitOf_eq {b : Nat} (hb : b < FSSIZE) : bitOf m.img b = decide (b < m.freeblock) := by
  have hbpb : FSSIZE < BPB := by decide
  have hmod : b % BPB = b := Nat.mod_eq_of_lt (by omega)
  have hblock : BBLOCK b sb = sb.bmapstart := by
    unfold BBLOCK
    rw [Nat.div_eq_of_lt (by omega), Nat.zero_add]
  unfold bitOf
  rw [h.readsb, hblock, hmod, h.bitmap]
  exact bitmapBuf_bit m.freeblock b

theorem bitmap_iff {b : Nat} (hb : b < FSSIZE) :
    bitOf m.img b = true ↔ b < nmeta ∨ ∃ i : Fin inodeArea, 1 ≤ i.val ∧ i.val < m.freeinode ∧
      RefersTo m.img (diskInode m.img i) b := by
  have hpos : 0 < nmeta := by decide
  rw [h.bitOf_eq hb]
  rcases Nat.lt_or_ge b nmeta with hlo | hhi
  · have hset := h.layout.owned.low b hlo
    exact ⟨fun _ => .inl hlo, fun _ => hset⟩
  have hmarked := h.layout.owned.marked b hhi hb
  rw [hmarked]
  constructor
  · rintro ⟨q, hq⟩
    right
    have hne : dataOf files q.inode ≠ [] := by
      intro hempty
      have hzero := h.ptr_zero hempty (q := q) rfl
      omega
    obtain ⟨hlo, hlt⟩ := h.dataOf_used hne
    exact ⟨q.inode, hlo, hlt, refersTo_iff.2 ⟨by omega, q, rfl, hq⟩⟩
  · rintro (hlt | ⟨i, _, _, hrefers⟩)
    · omega
    · obtain ⟨_, q, _, hq⟩ := refersTo_iff.1 hrefers
      exact ⟨q, hq⟩

theorem rootEntries_length (hn : files.length ≤ 206) :
    (rootEntries files).length = 16 * (files.length + 2) := by
  rw [rootEntries_eq, entryBytes_length (entriesOf_ok hn h.openable), entriesOf_length]

/-- The root directory as the kernel reads it. -/
theorem root (hn : files.length ≤ 206) (hmod : (files.length + 2) % 64 ≠ 0) :
    IsDir m.img (dinodeOf m.img ROOTINO) (entriesOf files)
      (nbs (dataOf files) rootInode) := by
  have hd : dinodeOf m.img ROOTINO = diskInode m.img rootInode := h.dinodeOf_eq rootInode
  have hlen := h.rootEntries_length hn
  have hsize := h.rootSize
  have hfile := h.layout.file rootInode
  have hnb : nbs (dataOf files) rootInode = nblocks (16 * (files.length + 2)) := by
    unfold nbs
    rw [dataOf_root, hlen]
  rw [hlen] at hsize
  rw [hd]
  constructor
  · rw [h.types]
    exact if_pos rfl
  · rw [dataOf_root, rootEntries_eq] at hfile
    exact hfile
  · exact entriesOf_ok hn h.openable
  · rw [hsize, hnb]
    unfold nblocks BSIZE
    omega
  · rw [hsize, entriesOf_length]
    unfold BSIZE
    omega
  · rw [hsize]
    unfold BSIZE
    omega

/-- Reading the root directory. -/
theorem readi_root (hn : files.length ≤ 206) (hmod : (files.length + 2) % 64 ≠ 0) :
    readi m.img (dinodeOf m.img ROOTINO) 0 (dinodeOf m.img ROOTINO).size =
      .ok (rootBytes files) := by
  have hroot := h.root hn hmod
  have hread := readi_spec hroot.file 0 (dinodeOf m.img ROOTINO).size hroot.size_le (by omega)
  have hd : dinodeOf m.img ROOTINO = diskInode m.img rootInode := h.dinodeOf_eq rootInode
  rw [hread, hd, h.rootSize, ← rootEntries_eq]
  rfl

theorem ilock_root : ilock m.img ROOTINO = .ok (dinodeOf m.img ROOTINO) := by
  have hd : dinodeOf m.img ROOTINO = diskInode m.img rootInode := h.dinodeOf_eq rootInode
  have htype : (dinodeOf m.img ROOTINO).type = T_DIR := by
    rw [hd, h.types]
    exact if_pos rfl
  unfold ilock
  apply if_neg
  rw [htype]
  decide

section

variable (hn : files.length ≤ 206)
include hn

/-- Reading the `k`-th file. -/
theorem read_file {k : Nat} (hk : files[k]? = some f) :
    ilock m.img (k + 2) = .ok (dinodeOf m.img (k + 2)) ∧
      readi m.img (dinodeOf m.img (k + 2)) 0 (dinodeOf m.img (k + 2)).size = .ok f.bytes := by
  have hlt : k < files.length := by
    obtain ⟨hlt, _⟩ := List.getElem?_eq_some_iff.1 hk
    exact hlt
  have harea : inodeArea = 208 := rfl
  generalize hi : (⟨k + 2, by omega⟩ : Fin inodeArea) = i
  have hval : k + 2 = i.val := by rw [← hi]
  have hne : i ≠ rootInode := by
    intro heq
    rw [heq] at hval
    simp only [rootInode, ROOTINO] at hval
    omega
  have hdata : dataOf files i = f.bytes := by
    unfold dataOf
    rw [if_neg hne, if_pos (by omega), ← hval, Nat.add_sub_cancel, List.getD_eq_getElem?_getD,
      List.getElem?_map, hk]
    rfl
  have htype : (diskInode m.img i).type = T_FILE := by
    rw [h.types]
    unfold typeOf
    rw [if_neg hne, if_pos (by omega)]
  have hsize := h.sizes i hne
  have hfile := h.layout.file i
  rw [hdata] at hsize hfile
  rw [hval, h.dinodeOf_eq]
  constructor
  · unfold ilock
    simp only [h.dinodeOf_eq, htype]
    rfl
  · have hread := readi_spec hfile 0 (diskInode m.img i).size
      (by rw [hsize]; exact hfile.len) (by omega)
    rw [hread, hsize, window_whole]

/-- `namei` of the name of a file. -/
theorem namei_file (hmod : (files.length + 2) % 64 ≠ 0) (hf : f ∈ files) :
    namei m.img (slash :: f.shortname) =
      .ok (if f.shortname = [] then some ROOTINO
        else findEntry (entriesOf files) f.shortname) := by
  have hopen := h.openable f hf
  apply namei_spec (h.root hn hmod)
  · exact fun hslash => hopen.1 (f.shortname_sublist _ hslash)
  · exact hopen.2.2
  · exact f.shortname_no_nul

/-- **The content of the image.**  A file is found by its name, unless the name leads to
the root directory. -/
theorem content (hmod : (files.length + 2) % 64 ≠ 0) (hnodup : (files.map HostFile.shortname).Nodup)
    (hf : f ∈ files) : (∃ inum ip, namei m.img (slash :: f.shortname) = .ok (some inum) ∧
      ilock m.img inum = .ok ip ∧ readi m.img ip 0 ip.size = .ok f.bytes) ↔
      (f.shortname ∈ rootNames → f.bytes = rootBytes files) := by
  have hnamei := h.namei_file hn hmod hf
  by_cases hroot : f.shortname ∈ rootNames
  · have hfound : namei m.img (slash :: f.shortname) = .ok (some ROOTINO) := by
      rw [hnamei]
      by_cases hempty : f.shortname = []
      · rw [if_pos hempty]
      · rw [if_neg hempty, findEntry_root files hempty hroot]
    have hread := h.readi_root hn hmod
    have hlock := h.ilock_root
    constructor
    · rintro ⟨inum, ip, hname, hip, hbytes⟩ _
      rw [hfound] at hname
      cases hname
      rw [hlock] at hip
      cases hip
      rw [hread] at hbytes
      exact (Except.ok.inj hbytes).symm
    · intro hbytes
      refine ⟨ROOTINO, dinodeOf m.img ROOTINO, hfound, hlock, ?_⟩
      rw [hread, hbytes hroot]
  · obtain ⟨k, hk⟩ := List.getElem?_of_mem hf
    have hempty : f.shortname ≠ [] := by
      intro heq
      apply hroot
      rw [heq]
      exact List.mem_cons_self
    obtain ⟨hlock, hread⟩ := h.read_file hn hk
    constructor
    · intro _ hmem
      exact absurd hmem hroot
    · intro _
      refine ⟨k + 2, dinodeOf m.img (k + 2), ?_, hlock, hread⟩
      rw [hnamei, if_neg hempty, findEntry_file hnodup hk hroot]

/-- The last block of the root directory is missing if its entries fill whole blocks. -/
theorem root_hole (hmod : (files.length + 2) % 64 = 0) :
    (files.length + 2) / 64 * BSIZE < (dinodeOf m.img ROOTINO).size ∧
      blockAddr m.img (dinodeOf m.img ROOTINO) ((files.length + 2) / 64) = 0 := by
  have hd : dinodeOf m.img ROOTINO = diskInode m.img rootInode := h.dinodeOf_eq rootInode
  have hlen := h.rootEntries_length hn
  have hnb : nbs (dataOf files) rootInode = (files.length + 2) / 64 := by
    unfold nbs nblocks BSIZE
    rw [dataOf_root, hlen]
    omega
  have hmax : (files.length + 2) / 64 < MAXFILE := by
    have hval : MAXFILE = 268 := rfl
    omega
  have hmapped := (h.layout.file rootInode).mapped _ hmax
  rw [hnb] at hmapped
  rw [hd, h.rootSize, hlen]
  constructor
  · unfold BSIZE
    omega
  · by_contra hne
    exact absurd (hmapped.1 hne) (Nat.lt_irrefl _)

/-- The blocks of an inode are in place. -/
theorem mapped (hmod : (files.length + 2) % 64 ≠ 0) {bn : Nat}
    (hbn : bn * BSIZE < (diskInode m.img i).size) : blockAddr m.img (diskInode m.img i) bn ≠ 0 := by
  have hfile := h.layout.file i
  have hsize : (diskInode m.img i).size ≤ nbs (dataOf files) i * BSIZE := by
    by_cases hroot : i = rootInode
    · have hle := (h.root hn hmod).size_le
      have hd : dinodeOf m.img ROOTINO = diskInode m.img rootInode := h.dinodeOf_eq rootInode
      rw [hd] at hle
      rw [hroot]
      exact hle
    · rw [h.sizes i hroot]
      exact hfile.len
  have hlt : bn < nbs (dataOf files) i := by
    apply Nat.lt_of_mul_lt_mul_right (a := BSIZE)
    omega
  have hle := hfile.nb_le
  exact (hfile.mapped bn (by omega)).2 hlt

end

end Final

/-! ### The condition -/

/-- The files that make a consistent image. -/
structure Representable (files : List HostFile) : Prop where
  /-- the last inode number is one of the superblock's -/
  inodes : files.length + 1 < NINODES
  /-- the entries do not fill the last block of the root directory -/
  rest : (files.length + 2) % 64 ≠ 0
  /-- a file is not named like the root directory, but for a copy of that directory -/
  names : ∀ f ∈ files, f.shortname ∈ rootNames → f.bytes = rootBytes files

/-- An image of few enough files. -/
theorem consistent_of_representable (h : mkfs files = .ok m)
    (hnodup : (files.map HostFile.shortname).Nodup) (hrep : Representable files) :
    Consistent m files := by
  have hcount := hrep.inodes
  have hninodes : NINODES = 200 := rfl
  have harea : inodeArea = 208 := rfl
  have hn : files.length ≤ 206 := by omega
  have hfinal := mkfs_final hn h
  have hfree := hfinal.freeinode
  -- the inodes in use lie in the inode area
  have hfin : ∀ i, i < m.freeinode → ∃ j : Fin inodeArea, j.val = i := by
    intro i hi
    exact ⟨⟨i, by omega⟩, rfl⟩
  constructor
  · intro f hf
    exact (hfinal.content hn hrep.rest hnodup hf).2 (hrep.names f hf)
  · intro i _ hi
    have hsb : sb.ninodes = 200 := rfl
    omega
  · intro i _ hi bn hbn
    obtain ⟨j, hj⟩ := hfin i hi
    subst hj
    rw [hfinal.dinodeOf_eq] at hbn ⊢
    exact hfinal.mapped hn hrep.rest hbn
  · intro i j _ hi _ hj hij b hb
    obtain ⟨i', hi'⟩ := hfin i hi
    obtain ⟨j', hj'⟩ := hfin j hj
    subst hi'
    subst hj'
    rw [hfinal.dinodeOf_eq] at hb ⊢
    exact hfinal.disjoint (fun heq => hij (congrArg Fin.val heq)) hb
  · intro b hb
    rw [hfinal.readsb] at hb
    rw [hfinal.bitmap_iff hb]
    constructor
    · rintro (hlt | ⟨i, hlo, hhi, hrefers⟩)
      · exact .inl hlt
      · right
        refine ⟨i, hlo, hhi, ?_⟩
        rw [hfinal.dinodeOf_eq]
        exact hrefers
    · rintro (hlt | ⟨i, hlo, hhi, hrefers⟩)
      · exact .inl hlt
      · right
        obtain ⟨j, hj⟩ := hfin i hhi
        subst hj
        rw [hfinal.dinodeOf_eq] at hrefers
        exact ⟨j, hlo, hhi, hrefers⟩

theorem representable_of_consistent (h : mkfs files = .ok m)
    (hnodup : (files.map HostFile.shortname).Nodup) (hcons : Consistent m files) :
    Representable files := by
  have hfree := mkfs_freeinode h
  have hninodes : NINODES = 200 := rfl
  have hsb : sb.ninodes = 200 := rfl
  have hlast := hcons.inums (files.length + 1) (by omega) (by omega)
  have hn : files.length ≤ 206 := by omega
  have hfinal := mkfs_final hn h
  have hrest : (files.length + 2) % 64 ≠ 0 := by
    intro hmod
    obtain ⟨hsize, hhole⟩ := hfinal.root_hole hn hmod
    exact hcons.mapped ROOTINO (Nat.le_refl _) (by rw [hfree]; unfold ROOTINO; omega) _ hsize hhole
  constructor
  · omega
  · exact hrest
  · intro f hf
    exact (hfinal.content hn hrest hnodup hf).1 (hcons.content f hf)

/-- **mkfs and the kernel.**  For files of distinct names, the image that mkfs makes is a
consistent file system exactly if they are representable. -/
theorem mkfs_consistent_iff (files : List HostFile) (m : Mk) (h : mkfs files = .ok m)
    (hnodup : (files.map HostFile.shortname).Nodup) : Consistent m files ↔ Representable files :=
  ⟨representable_of_consistent h hnodup, consistent_of_representable h hnodup⟩

/-- `_cat`, of four bytes that come in two reads. -/
def catFile : HostFile := ⟨[95, 99, 97, 116], no_nul_of_all rfl, some [[127, 69, 76], [70]]⟩

theorem catFile_makeable : Makeable [catFile] := by
  constructor
  · intro f hf
    rw [List.mem_singleton.1 hf]
    unfold HostFile.Openable
    decide
  · unfold HasRoom
    decide +kernel

theorem mkfs_consistent_cat : ∃ m, mkfs [catFile] = .ok m ∧ Consistent m [catFile] := by
  obtain ⟨m, hm⟩ := mkfs_succeeds (by decide) catFile_makeable
  refine ⟨m, hm, (mkfs_consistent_iff [catFile] m hm (by decide)).2 ?_⟩
  constructor
  · decide
  · decide
  · intro f hf hname
    rw [List.mem_singleton.1 hf] at hname
    exact absurd hname (by decide)

/-- An empty file `a0`, `a1`, ... -/
def emptyFile (k : Fin 62) : HostFile :=
  ⟨[97, UInt8.ofNat (48 + k)], no_nul_of_all (by revert k; decide), some []⟩

/-- With these files the root directory has 64 entries. -/
def emptyFiles : List HostFile := List.ofFn emptyFile

theorem emptyFiles_makeable : Makeable emptyFiles := by
  constructor
  · have hall : ∀ k, (emptyFile k).Openable := by
      unfold HostFile.Openable
      decide
    intro f hf
    obtain ⟨k, hk⟩ := (List.mem_ofFn' emptyFile f).1 hf
    rw [← hk]
    exact hall k
  · unfold HasRoom
    decide +kernel

/-- The root directory of 64 entries has the size of two blocks, but only one block. -/
theorem mkfs_root_hole : ∃ m, mkfs emptyFiles = .ok m ∧
    (emptyFiles.map HostFile.shortname).Nodup ∧ (dinodeOf m.img ROOTINO).size = 2 * BSIZE ∧
    blockAddr m.img (dinodeOf m.img ROOTINO) 1 = 0 ∧ ¬ Consistent m emptyFiles := by
  have hlen : emptyFiles.length = 62 := by
    unfold emptyFiles
    exact List.length_ofFn
  have hnodup : (emptyFiles.map HostFile.shortname).Nodup := by decide +kernel
  obtain ⟨m, hm⟩ := mkfs_succeeds (by omega) emptyFiles_makeable
  have hfinal := mkfs_final (by omega) hm
  have hhole := (hfinal.root_hole (by omega) (by omega)).2
  have hd : dinodeOf m.img ROOTINO = diskInode m.img rootInode := hfinal.dinodeOf_eq rootInode
  refine ⟨m, hm, hnodup, ?_, ?_, ?_⟩
  · rw [hd, hfinal.rootSize, hfinal.rootEntries_length (by omega), hlen]
    rfl
  · rw [hlen] at hhole
    exact hhole
  · intro hcons
    apply (representable_of_consistent hm hnodup hcons).rest
    omega

end Kus.Mkfs
