import KusOs.MkfsBuild

/-!
# The run of mkfs

* `addFile_spec` — one round of the loop over the arguments adds one file;
* `mainProgram_spec` — for lists of files whose inodes lie before the bitmap, `main`
  leaves the image described by `Final`, or the files cannot be made: one cannot be
  opened or has a bad name, or there is no room;
* `mkfs_succeeds` — files that can be made are made.
-/

namespace Kus.Mkfs

open Function LittleEndian Kus.Dir Ownership Hoare

/-! ### The files of the image -/

def rootInode : Fin inodeArea := ⟨ROOTINO, by decide⟩

/-- The bytes of the root directory: its entry for the `k`-th file names inode `k + 2`. -/
def rootEntries (files : List HostFile) : List UInt8 :=
  direntBytes ROOTINO dot ++ direntBytes ROOTINO dotdot ++
    (files.zipIdx 2).flatMap fun e => direntBytes e.2 e.1.shortname

/-- The bytes of each inode. -/
def dataOf (files : List HostFile) (i : Fin inodeArea) : List UInt8 :=
  if i = rootInode then rootEntries files
  else if 2 ≤ i.val then (files.map HostFile.bytes).getD (i - 2) []
  else []

/-- The type of each inode. -/
def typeOf (files : List HostFile) (i : Fin inodeArea) : Int16 :=
  if i = rootInode then T_DIR
  else if 2 ≤ i.val ∧ i.val < files.length + 2 then T_FILE
  else 0

/-- The assertions of `main` about a file hold and it can be opened. -/
def HostFile.Openable (f : HostFile) : Prop :=
  slash ∉ f.base ∧ f.chunks ≠ none ∧ f.shortname.length ≤ DIRSIZ

/-- Nothing stands in the way of making the image. -/
def Makeable (files : List HostFile) : Prop :=
  (∀ f ∈ files, f.Openable) ∧ HasRoom (dataOf files)

variable {files done : List HostFile} {f : HostFile} {s : Mk} {E : Die → Prop}

theorem rootEntries_append (done : List HostFile) (f : HostFile) :
    rootEntries (done ++ [f]) = rootEntries done ++ direntBytes (done.length + 2) f.shortname := by
  have hcomm : 2 + done.length = done.length + 2 := by omega
  unfold rootEntries
  simp [List.zipIdx_append, hcomm]

theorem dataOf_root (files : List HostFile) : dataOf files rootInode = rootEntries files := by
  unfold dataOf
  rw [if_pos rfl]

/-- The inode of the next file. -/
def nextInode (done : List HostFile) (h : done.length < 206) : Fin inodeArea :=
  ⟨done.length + 2, by
    have harea : inodeArea = 208 := rfl
    omega⟩

theorem nextInode_ne_root (h : done.length < 206) : nextInode done h ≠ rootInode := by
  intro heq
  have hval := congrArg Fin.val heq
  simp only [nextInode, rootInode, ROOTINO] at hval
  omega

theorem dataOf_next (h : done.length < 206) : dataOf done (nextInode done h) = [] := by
  unfold dataOf
  rw [if_neg (nextInode_ne_root h), if_pos (by simp only [nextInode]; omega), List.getD_eq_default]
  simp [nextInode]

theorem typeOf_append (h : done.length < 206) (f : HostFile) :
    update (typeOf done) (nextInode done h) T_FILE = typeOf (done ++ [f]) := by
  funext j
  unfold typeOf
  by_cases hj : j = nextInode done h
  · subst hj
    rw [update_self, if_neg (nextInode_ne_root h), if_pos]
    simp only [nextInode, List.length_append, List.length_singleton]
    omega
  have hval : j.val ≠ done.length + 2 := fun heq => hj (Fin.ext heq)
  rw [update_of_ne hj]
  by_cases hroot : j = rootInode
  · rw [if_pos hroot, if_pos hroot]
  rw [if_neg hroot, if_neg hroot, List.length_append, List.length_singleton]
  by_cases hin : 2 ≤ j.val ∧ j.val < done.length + 2
  · rw [if_pos hin, if_pos (by omega)]
  · rw [if_neg hin, if_neg (by omega)]

theorem dataOf_append (h : done.length < 206) (f : HostFile) :
    update
      (update (dataOf done) rootInode
        (dataOf done rootInode ++ direntBytes (nextInode done h) f.shortname))
      (nextInode done h) f.bytes = dataOf (done ++ [f]) := by
  funext j
  by_cases hj : j = nextInode done h
  · subst hj
    rw [update_self]
    unfold dataOf
    rw [if_neg (nextInode_ne_root h), if_pos (by simp only [nextInode]; omega)]
    simp [nextInode]
  have hval : j.val ≠ done.length + 2 := fun heq => hj (Fin.ext heq)
  rw [update_of_ne hj]
  by_cases hroot : j = rootInode
  · subst hroot
    rw [update_self, dataOf_root, dataOf_root, rootEntries_append]
    rfl
  rw [update_of_ne hroot]
  unfold dataOf
  rw [if_neg hroot, if_neg hroot]
  by_cases htwo : 2 ≤ j.val
  · rw [if_pos htwo, if_pos htwo, List.map_append]
    rcases Nat.lt_or_ge (j.val - 2) (done.map HostFile.bytes).length with hlt | hge
    · rw [List.getD_append _ _ _ _ hlt]
    rw [List.getD_eq_default _ _ hge, List.getD_eq_default]
    simp only [List.length_map] at hge
    simp only [List.length_append, List.length_map, List.length_singleton]
    omega
  · rw [if_neg htwo, if_neg htwo]

/-- With every file more, each inode has at least the bytes it had. -/
theorem dataOf_length_le (done rest : List HostFile) (j : Fin inodeArea) :
    (dataOf done j).length ≤ (dataOf (done ++ rest) j).length := by
  unfold dataOf
  by_cases hroot : j = rootInode
  · rw [if_pos hroot, if_pos hroot]
    unfold rootEntries
    simp only [List.zipIdx_append, List.flatMap_append, List.length_append]
    omega
  rw [if_neg hroot, if_neg hroot]
  by_cases htwo : 2 ≤ j.val
  · rw [if_pos htwo, if_pos htwo, List.map_append]
    rcases Nat.lt_or_ge (j.val - 2) (done.map HostFile.bytes).length with hlt | hge
    · rw [List.getD_append _ _ _ _ hlt]
    · rw [List.getD_eq_default _ _ hge]
      exact Nat.zero_le _
  · rw [if_neg htwo, if_neg htwo]

/-! ### One file -/

/-- Reading and appending the bytes of a file. -/
theorem chunks_spec {F : Nat} {ty : Fin inodeArea → Int16} {data : Fin inodeArea → List UInt8}
    (i : Fin inodeArea) (chunks : List (List UInt8)) (hempty : data i = [])
    (hE : ¬ HasRoom (update data i chunks.flatten) → ∀ e, E e) :
    Triple (Built F ty data) (chunks.forM (iappend i))
      (fun _ => Built F ty (update data i chunks.flatten)) E := by
  have hloop : Triple (Built F ty (update data i ([] : List (List UInt8)).flatten))
      (chunks.forM (iappend i))
      (fun _ => Built F ty (update data i chunks.flatten)) E := by
    refine .forM_done (I := fun l => Built F ty (update data i l.flatten)) ?_
    intro part c rest hsplit
    have hnext : update (update data i part.flatten) i
        (update data i part.flatten i ++ c) =
        update data i (part ++ [c]).flatten := by
      rw [update_idem, update_self]
      simp
    rw [← hnext]
    apply iappend_spec
    intro hnot
    apply hE
    intro hroom
    apply hnot
    rw [hnext]
    apply hroom.mono
    intro j
    by_cases hj : j = i
    · subst hj
      rw [update_self, update_self, hsplit]
      simp only [List.flatten_append, List.flatten_cons, List.flatten_nil, List.append_nil,
        List.length_append]
      omega
    · rw [update_of_ne hj, update_of_ne hj]
  have hstart : update data i ([] : List (List UInt8)).flatten = data := by
    rw [List.flatten_nil, ← hempty, update_eq_self]
  rw [hstart] at hloop
  exact hloop

/-- **One round of the loop over the arguments.** -/
theorem addFile_spec (h : done.length < 206) (f : HostFile) (hopen : ¬ f.Openable → ∀ e, E e)
    (hE : ¬ HasRoom (dataOf (done ++ [f])) → ∀ e, E e) :
    Triple (Built (done.length + 2) (typeOf done) (dataOf done)) (addFile ROOTINO f)
      (fun _ s => f.Openable ∧
        Built (done.length + 3) (typeOf (done ++ [f])) (dataOf (done ++ [f])) s) E := by
  unfold addFile
  apply Triple.ite
  · intro hslash
    exact .throw fun s _ => hopen (fun hok => hok.1 hslash) _
  intro hslash
  cases hchunks : f.chunks with
  | none => exact .throw fun s _ => hopen (fun hok => hok.2.1 hchunks) _
  | some chunks =>
    apply Triple.ite
    · intro hname
      have hok : f.Openable := ⟨hslash, by rw [hchunks]; simp, hname⟩
      have hbytes : chunks.flatten = f.bytes := by
        unfold HostFile.bytes
        rw [hchunks]
        rfl
      apply Triple.bind (ialloc_spec _ (nextInode done h) T_FILE (dataOf_next h))
      intro inum
      rintro s ⟨rfl, hs⟩
      rw [typeOf_append h f] at hs
      -- the bytes of the root directory, and then those of the file
      have hfile : update (dataOf done) rootInode (dataOf done rootInode ++
          direntBytes (nextInode done h) f.shortname) (nextInode done h) = [] := by
        rw [update_of_ne (nextInode_ne_root h)]
        exact dataOf_next h
      have hentry : ¬ HasRoom (update (dataOf done) rootInode
          (dataOf done rootInode ++ direntBytes (nextInode done h) f.shortname)) →
          ∀ e, E e := by
        intro hnot
        apply hE
        intro hroom
        apply hnot
        apply hroom.mono
        intro j
        rw [← dataOf_append h f]
        by_cases hj : j = nextInode done h
        · rw [hj, hfile]
          exact Nat.zero_le _
        · rw [update_of_ne hj]
      have hchunk : ¬ HasRoom (update (update (dataOf done) rootInode
          (dataOf done rootInode ++ direntBytes (nextInode done h) f.shortname))
          (nextInode done h) chunks.flatten) → ∀ e, E e := by
        rw [hbytes, dataOf_append]
        exact hE
      refine Triple.conseq (Triple.bind (iappend_spec rootInode _ hentry) fun _ =>
        chunks_spec (nextInode done h) chunks hfile hchunk) (fun _ ht => ht) ?_
        (fun _ he => he) s hs
      intro _ t ht
      rw [hbytes, dataOf_append] at ht
      exact ⟨hok, ht⟩
    · intro hname
      exact .throw fun s _ => hopen (fun hok => hname hok.2.2) _

/-! ### The whole run -/

/-- What `main` leaves behind. -/
structure Final (files : List HostFile) (m : Mk) : Prop where
  openable : ∀ f ∈ files, f.Openable
  super : m.img 1 = superBuf
  freeinode : m.freeinode = files.length + 2
  layout : Layout m.img m.freeblock (diskInode m.img) (dataOf files) (nbs (dataOf files))
  types : ∀ j, (diskInode m.img j).type = typeOf files j
  inds : ∀ j, (diskInode m.img j).addrs indirect ≠ 0 → NDIRECT < nbs (dataOf files) j
  rootSize : (diskInode m.img rootInode).size = ((rootEntries files).length / BSIZE + 1) * BSIZE
  sizes : ∀ j, j ≠ rootInode → (diskInode m.img j).size = (dataOf files j).length
  bitmap : m.img sb.bmapstart = bitmapBuf m.freeblock

/-- Zeroing the image. -/
theorem zeroImage_run (n : Nat) : zeroImage n Mk.start = .ok ((), { Mk.start with size := n }) := by
  unfold zeroImage
  induction n with
  | zero => rfl
  | succ n ih =>
    rw [List.forM_eq_forM] at ih
    rw [List.forM_eq_forM, List.range_succ, List.forM_append, run_bind_ok ih]
    show Except.ok ((), ({ Mk.start with
      img := update Mk.start.img n zeroes, size := max n (n + 1) } : Mk)) = _
    have hmax : max n (n + 1) = n + 1 := by omega
    have himg : update Mk.start.img n zeroes = Mk.start.img := update_eq_self _ _
    rw [hmax, himg]

/-- The image before the first inode. -/
def blank : Mk := ⟨update (fun _ => zeroes) 1 superBuf, FSSIZE, 1, nmeta⟩

theorem diskInode_blank (j : Fin inodeArea) : diskInode blank.img j = Dinode.zero := by
  have hrange := IBLOCK_range j
  apply getDinode_zero
  intro k
  unfold blank
  simp only
  rw [update_of_ne (by omega)]
  rfl

theorem blank_built : Built 1 (fun _ => 0) (fun _ => []) blank := by
  have haddr : ∀ (j : Fin inodeArea) bn, blockAddr blank.img (diskInode blank.img j) bn = 0 := by
    intro j bn
    rw [diskInode_blank]
    unfold blockAddr
    split
    · rfl
    · exact if_pos rfl
  have hptr : ptr blank.img (diskInode blank.img) = fun _ => 0 := by
    funext q
    cases q with
    | addr j k =>
      simp only [ptr, diskInode_blank]
      rfl
    | word j l =>
      simp only [ptr, diskInode_blank]
      exact if_pos rfl
  have hnb : nbs (fun _ => []) = fun _ => 0 := by
    funext j
    show nblocks 0 = 0
    decide
  constructor
  · rfl
  · simp only [blank, update_self]
  · rfl
  · rw [hnb]
    constructor
    · rw [hptr]
      constructor
      · decide
      · intro b hb
        exact decide_eq_true hb
      · intro q hq
        exact absurd rfl hq
      · intro q r hq
        exact absurd rfl hq
      · intro b hlo _
        have hge : ¬ b < nmeta := by omega
        have hpos : 0 < nmeta := by decide
        constructor
        · intro hbit
          exact absurd (of_decide_eq_true hbit) hge
        · rintro ⟨_, heq⟩
          omega
    · decide
    · intro b hb _ k
      have hone : 1 < nmeta := by decide
      have hlo : nmeta ≤ b := hb
      unfold blank
      simp only
      rw [update_of_ne (by omega)]
      rfl
    · intro j
      constructor
      · exact Nat.zero_le _
      · exact Nat.zero_le _
      · intro bn _
        rw [haddr]
        simp
      · intro bn hbn
        exact absurd hbn (Nat.not_lt_zero _)
    · simp only [diskInode_blank]
      have hused : blocksUsed Dinode.zero 0 = 0 := rfl
      rw [hused, Finset.sum_const_zero]
      rfl
  · intro j
    rw [diskInode_blank]
    rfl
  · intro j hj
    rw [diskInode_blank] at hj
    exact absurd rfl hj
  · intro j
    rw [diskInode_blank]
    rfl

/-- The root directory and its first two entries. -/
theorem root_built :
    update (fun _ => (0 : Int16)) rootInode T_DIR = typeOf [] ∧
      update (update (fun _ => []) rootInode ([] ++ direntBytes ROOTINO dot))
        rootInode (([] ++ direntBytes ROOTINO dot) ++ direntBytes ROOTINO dotdot) = dataOf [] := by
  constructor
  · funext j
    unfold typeOf
    by_cases hj : j = rootInode
    · rw [hj, update_self, if_pos rfl]
    rw [update_of_ne hj, if_neg hj, if_neg]
    simp only [List.length_nil]
    omega
  · funext j
    unfold dataOf
    rw [update_idem]
    by_cases hj : j = rootInode
    · rw [hj, update_self, if_pos rfl]
      rfl
    rw [update_of_ne hj, if_neg hj]
    split
    · rfl
    · rfl

theorem HasRoom.of_append (h : HasRoom (dataOf files)) (rest : List HostFile)
    (hsplit : files = done ++ rest) : HasRoom (dataOf done) := by
  apply h.mono
  intro j
  rw [hsplit]
  exact dataOf_length_le done rest j

/-- The loop over the arguments. -/
theorem files_spec (hn : files.length ≤ 206) (hE : ¬ Makeable files → ∀ e, E e) :
    Triple (Built 2 (typeOf []) (dataOf [])) (files.forM (addFile ROOTINO))
      (fun _ s => (∀ f ∈ files, f.Openable) ∧
        Built (files.length + 2) (typeOf files) (dataOf files) s) E := by
  have hloop := Triple.forM_done (f := addFile ROOTINO) (l := files) (E := E)
    (I := fun done s => (∀ f ∈ done, f.Openable) ∧
      Built (done.length + 2) (typeOf done) (dataOf done) s) ?_
  · exact .pre hloop fun s hs => ⟨by simp, hs⟩
  · intro done f rest hsplit s hs
    have hlen : done.length < 206 := by
      have hall := congrArg List.length hsplit
      rw [List.length_append, List.length_cons] at hall
      omega
    have hsplit' : files = (done ++ [f]) ++ rest := by
      rw [hsplit, List.append_assoc]
      rfl
    have hopen : ¬ f.Openable → ∀ e, E e := by
      intro hnot
      apply hE
      intro hmake
      apply hnot
      apply hmake.1
      rw [hsplit]
      simp
    have hroom : ¬ HasRoom (dataOf (done ++ [f])) → ∀ e, E e := by
      intro hnot
      apply hE
      intro hmake
      exact hnot (hmake.2.of_append rest hsplit')
    refine Triple.conseq (addFile_spec hlen f hopen hroom) (fun _ ht => ht) ?_ (fun _ he => he)
      s hs.2
    rintro _ t ⟨hok, ht⟩
    constructor
    · intro g hg
      rcases List.mem_append.1 hg with hg | hg
      · exact hs.1 g hg
      · rw [List.mem_singleton.1 hg]
        exact hok
    · rw [List.length_append, List.length_singleton]
      exact ht

/-- Fixing the size of the root directory and writing the bitmap. -/
theorem finish_spec {n : Nat} (hn : n = files.length + 2) (hopen : ∀ f ∈ files, f.Openable)
    (hs : Built n (typeOf files) (dataOf files) s) :
    ∃ m, (do
        let din ← rinode ROOTINO
        winode ROOTINO { din with size := (din.size / BSIZE + 1) * BSIZE }
        balloc (← get).freeblock : MkM Unit) s = .ok ((), m) ∧ Final files m := by
  have hlen : (rootEntries files).length ≤ MAXFILE * BSIZE := by
    have hfile := hs.layout.file rootInode
    have hle := hfile.len
    have hmul := Nat.mul_le_mul_right BSIZE hfile.nb_le
    rw [dataOf_root] at hle
    omega
  have hsize : (diskInode s.img rootInode).size = (rootEntries files).length := by
    rw [hs.sizes, dataOf_root]
  generalize hd : ({ diskInode s.img rootInode with
    size := ((diskInode s.img rootInode).size / BSIZE + 1) * BSIZE } : Dinode) = d
  have haddrs : d.addrs = (diskInode s.img rootInode).addrs := by rw [← hd]
  have hfits : Fits d := by
    constructor
    · rw [← hd]
      simp only [hsize]
      have hmax : MAXFILE * BSIZE = 274432 := rfl
      unfold BSIZE at *
      omega
    · intro k
      have hlt := (hs.appends rootInode).mid.addrs_lt k
      have hbound : FSSIZE < 2 ^ 32 := by decide
      rw [haddrs]
      omega
  have hmeta : sb.bmapstart < nmeta := by decide
  have hsz : max s.size (sb.bmapstart + 1) = s.size := by
    rw [hs.size]
    decide
  have hused : s.freeblock < BPB := by
    have hroom := hs.layout.room
    have hbpb : FSSIZE < BPB := by decide
    omega
  refine ⟨{ putInode s rootInode d with
    img := update (putInode s rootInode d).img sb.bmapstart (bitmapBuf s.freeblock) },
    ?_, ?_⟩
  · have hrun : rinode ROOTINO s = .ok (diskInode s.img rootInode, s) :=
      rinode_run (i := rootInode) hs.size
    have hw : winode ROOTINO d s = .ok ((), putInode s rootInode d) :=
      winode_run (i := rootInode) hs.size d
    rw [run_bind_ok hrun, hd, run_bind_ok hw]
    show balloc s.freeblock (putInode s rootInode d) = _
    unfold balloc
    rw [if_pos hused]
    show Except.ok ((), ({ putInode s rootInode d with
      img := update (putInode s rootInode d).img sb.bmapstart (bitmapBuf s.freeblock)
      size := max s.size (sb.bmapstart + 1) } : Mk)) = _
    rw [hsz]
    rfl
  · have hdisk : diskInode (update (putInode s rootInode d).img sb.bmapstart
        (bitmapBuf s.freeblock)) = withDin s.img rootInode d := by
      rw [← diskInode_putInode hfits]
      funext j
      have hrange := IBLOCK_range j
      unfold diskInode
      rw [update_of_ne (by omega)]
    have hone : 1 ≠ sb.bmapstart := by decide
    have hroot := IBLOCK_range rootInode
    constructor
    · exact hopen
    · simp only
      rw [update_of_ne hone, putInode_img (by omega)]
      exact hs.super
    · exact hs.freeinode.trans hn
    · simp only [hdisk]
      apply hs.layout.congr
      · intro b hb
        have hlt := IBLOCK_lt_nmeta rootInode
        rw [update_of_ne (by omega), putInode_img (by omega)]
      · intro j
        unfold withDin
        by_cases hj : j = rootInode
        · rw [hj, update_self]
          exact haddrs
        · rw [update_of_ne hj]
    · intro j
      simp only [hdisk]
      unfold withDin
      by_cases hj : j = rootInode
      · rw [hj, update_self, ← hd]
        exact hs.types rootInode
      · rw [update_of_ne hj]
        exact hs.types j
    · intro j
      simp only [hdisk]
      unfold withDin
      by_cases hj : j = rootInode
      · rw [hj, update_self, haddrs]
        exact hs.inds rootInode
      · rw [update_of_ne hj]
        exact hs.inds j
    · simp only [hdisk, withDin_self]
      rw [← hd, hsize]
    · intro j hj
      simp only [hdisk]
      unfold withDin
      rw [update_of_ne hj]
      exact hs.sizes j
    · simp only [update_self]
      rfl

section

variable (hn : files.length ≤ 206)
include hn

/-- The part of `main` behind the superblock. -/
theorem makeFiles_spec : Triple (fun s => s = blank)
      (do
        let rootino ← ialloc T_DIR
        if rootino = ROOTINO then
          iappend rootino (direntBytes rootino dot)
          iappend rootino (direntBytes rootino dotdot)
          files.forM (addFile rootino)
          let din ← rinode rootino
          winode rootino { din with size := (din.size / BSIZE + 1) * BSIZE }
          balloc (← get).freeblock
        else throw .assertion)
      (fun _ => Final files) (fun _ => ¬ Makeable files) := by
  have hty := root_built.1
  have hdata := root_built.2
  -- the first two entries are part of what is to be made
  have hroom : ∀ {data : Fin inodeArea → List UInt8},
      (∀ j, (data j).length ≤ (dataOf [] j).length) → ¬ HasRoom data → Die → ¬ Makeable files := by
    intro data hle hnot _ hmake
    exact hnot ((hmake.2.of_append files rfl).mono hle)
  have hblank : Triple (fun s => s = blank) (ialloc T_DIR)
      (fun inum s => inum = ROOTINO ∧ Built 2 (typeOf []) (fun _ => []) s)
      (fun _ => ¬ Makeable files) := by
    have halloc : Triple (Built 1 (fun _ => 0) (fun _ => [])) (ialloc T_DIR)
        (fun inum s => inum = ROOTINO ∧
          Built 2 (update (fun _ => 0) rootInode T_DIR) (fun _ => []) s)
        (fun _ => ¬ Makeable files) :=
      ialloc_spec (fun _ => []) rootInode T_DIR rfl
    rw [hty] at halloc
    apply Triple.pre halloc
    intro s hs
    rw [hs]
    exact blank_built
  apply Triple.bind hblank
  intro inum s hs
  rw [hs.1, if_pos rfl]
  have hdot : Triple (Built 2 (typeOf []) (fun _ => [])) (iappend ROOTINO (direntBytes ROOTINO dot))
      (fun _ => Built 2 (typeOf []) (update (fun _ => []) rootInode
        ([] ++ direntBytes ROOTINO dot))) (fun _ => ¬ Makeable files) := by
    apply iappend_spec rootInode
    apply hroom
    intro j
    rw [← hdata]
    by_cases hj : j = rootInode
    · rw [hj, update_self, update_self]
      simp only [List.length_append]
      omega
    · rw [update_of_ne hj, update_of_ne hj, update_of_ne hj]
  have hdotdot : Triple (Built 2 (typeOf []) (update (fun _ => []) rootInode
        ([] ++ direntBytes ROOTINO dot))) (iappend ROOTINO (direntBytes ROOTINO dotdot))
      (fun _ => Built 2 (typeOf []) (dataOf [])) (fun _ => ¬ Makeable files) := by
    have hsame : update (update (fun _ => []) rootInode
        ([] ++ direntBytes ROOTINO dot)) rootInode (update (fun _ => []) rootInode
        ([] ++ direntBytes ROOTINO dot) rootInode ++ direntBytes ROOTINO dotdot) = dataOf [] := by
      rw [update_self, hdata]
    rw [← hsame]
    apply iappend_spec rootInode
    apply hroom
    intro j
    rw [hsame]
  have hloop := files_spec (E := fun _ => ¬ Makeable files) hn fun hnot _ => hnot
  refine Triple.bind hdot (fun _ => Triple.bind hdotdot fun _ => Triple.bind hloop ?_) s hs.2
  intro _ t ht
  obtain ⟨m, hrun, hfinal⟩ := finish_spec rfl ht.1 ht.2
  rw [hrun]
  exact hfinal

/-- **The run of mkfs.** -/
theorem mainProgram_spec : Triple (fun s => s = Mk.start) (mainProgram files) (fun _ => Final files)
      (fun _ => ¬ Makeable files) := by
  have hsuper : wsect 1 superBuf { Mk.start with size := FSSIZE } = .ok ((), blank) := rfl
  unfold mainProgram
  exact .bind_ok (zeroImage_run FSSIZE) (.bind_ok hsuper (makeFiles_spec hn))

theorem mkfs_final {m : Mk} (h : mkfs files = .ok m) : Final files m := by
  unfold mkfs at h
  cases hmain : mainProgram files Mk.start with
  | error e =>
    rw [hmain] at h
    cases h
  | ok r =>
    rw [hmain] at h
    cases h
    have hspec := mainProgram_spec hn
    have hpost := hspec.of_ok rfl hmain
    exact hpost

/-- **Files that can be made are made.** -/
theorem mkfs_succeeds (h : Makeable files) : ∃ m, mkfs files = .ok m := by
  unfold mkfs
  cases hmain : mainProgram files Mk.start with
  | error e =>
    have hspec := mainProgram_spec hn
    have hnot := hspec.of_error rfl hmain
    exact absurd h hnot
  | ok r => exact ⟨r.2, rfl⟩

end

end Kus.Mkfs
