import Mathlib
import KusOs.LinkedRing
import KusOs.Log

/-!
# The buffer cache under the log

`bio.c` with its `NBUF` buffers, reference counts and LRU ring, and `log.c` on
top of it.  The log model of the crash results lets the cache keep or drop any
block that is not pinned; here eviction is what `bget` does.

A reference is a value `Ref`: who holds it, on which buffer, and whether its
holder waits for the buffer's sleep-lock, has it, or has let go of it and is
about to give the reference back.  So a section under `bcache.lock` or
`log.lock`, an `acquiresleep`, a `releasesleep` and a disk read are steps of
their own.  In `commit` the copy of a block, its `bwrite` and its `bunpin` are
one step: both buffers are locked and referenced across all three.

References are held by an operation between `begin_op` and `end_op`, by a reader
outside of one, or by `commit`.  An operation that changes a buffer calls
`log_write` before it lets go of it, and gives all references back before
`end_op`; a reader outside an operation changes nothing.  The four panics are
states without a further step.

`virtio_disk_rw` looks at the block number only, so there is one disk whatever
`dev` is; `spec` is history: the contents last logged for each block.
-/

namespace Kus.Bio

open Function Transition

/-- The buffers of the cache. -/
def NBUF : Nat := MAXOPBLOCKS * 3

instance : NeZero NBUF := ⟨by decide⟩

def ROOTDEV : Nat := 1

abbrev Idx := Fin NBUF

/-- `struct buf` without its lock and its links. -/
structure Buf where
  valid : Bool
  dev : Nat
  blockno : Nat
  refcnt : Nat
  data : Block

/-- Who holds a reference to a buffer. -/
inductive Owner (ι : Type)
  | op (p : ι)
  | reader
  | commit
deriving DecidableEq

/-- Is it `commit` that holds the reference? -/
def Owner.isCommit {ι : Type} : Owner ι → Bool
  | .commit => true
  | _ => false

/-- How far the holder of a reference is: before `acquiresleep`, with the lock,
or between `releasesleep` and the rest of `brelse`.  `dirty` is set from a
change of the data to the `log_write` of it. -/
inductive RefPos
  | waiting
  | locked (dirty : Bool)
  | dropping
deriving DecidableEq

/-- One reference to a buffer, with the block its holder asked for. -/
structure Ref (ι : Type) where
  owner : Owner ι
  dev : Nat
  blockno : Nat
  buf : Idx
  pos : RefPos
deriving DecidableEq

/-- The same reference further on. -/
@[simps]
def Ref.to {ι : Type} (r : Ref ι) (pos : RefPos) : Ref ι := { r with pos := pos }

/-- The two loops of `commit` over the logged blocks. -/
inductive Phase
  | writeLog | install
deriving DecidableEq

/-- One round of such a loop: `a` is the buffer of the log block, `b` that of
the home block. -/
inductive PairPos
  /-- about to `bread` the log block -/
  | getLog
  /-- the same for the home block -/
  | getHome (a : Idx)
  | copy (a b : Idx)
  /-- about to `brelse` first `x`, then `y` -/
  | first (x y : Idx)
  | second (y : Idx)
  | next
deriving DecidableEq

/-- `write_head`. -/
inductive HeadPos
  | get
  | write (a : Idx)
  | rel (a : Idx)
  | done
deriving DecidableEq

/-- Where the log is; `log.committing` is set except at `up`. -/
inductive CommitPos
  | up
  | pair (phase : Phase) (tail : Nat) (k : PairPos)
  | head (erase : Bool) (k : HeadPos)
  | finish
deriving DecidableEq

/-- The panics of `bget`, `log_write` and `end_op`. -/
inductive CachePanic
  | noBuffers (commit : Bool)
  | tooBig
  | outsideTrans
  | committing
deriving DecidableEq

/-- The cache, the disk and the log. -/
structure CacheState (ι : Type) where
  buf : Idx → Buf
  /-- `next` and `prev`; `none` is `bcache.head` -/
  links : (Option Idx → Option Idx) × (Option Idx → Option Idx)
  refs : Multiset (Ref ι)
  disk : Nat → Block
  lh : List Nat
  outstanding : Nat
  pos : CommitPos
  /-- the operations begun, each with the blocks it has logged -/
  ops : Multiset (ι × List Nat)
  panic : Option CachePanic
  spec : Nat → Block

variable {ι : Type}

/-- The block `commit` is about to `bread`, if it is. -/
def CommitPos.wants (start : Nat) (lh : List Nat) : CommitPos → Option Nat
  | .pair _ tail .getLog => if tail < lh.length then some (start + tail + 1) else none
  | .pair _ tail (.getHome _) => lh[tail]?
  | .head _ .get => some start
  | _ => none

/-- `commit` goes on with the buffer `bget` gave it. -/
def CommitPos.got (i : Idx) : CommitPos → CommitPos
  | .pair phase tail .getLog => .pair phase tail (.getHome i)
  | .pair phase tail (.getHome a) => .pair phase tail (.copy a i)
  | .head erase .get => .head erase (.write i)
  | k => k

/-- The next buffer `commit` calls `brelse` on, and where it goes on. -/
def CommitPos.release : CommitPos → Option (Idx × CommitPos)
  | .pair phase tail (.first x y) => some (x, .pair phase tail (.second y))
  | .pair phase tail (.second y) => some (y, .pair phase tail .next)
  | .head erase (.rel a) => some (a, .head erase .done)
  | _ => none

/-- The blocks that are logged and not yet installed at a position. -/
def CommitPos.pending (lh : List Nat) : CommitPos → List Nat
  | .pair .install tail (.first _ _) | .pair .install tail (.second _)
  | .pair .install tail .next => lh.drop (tail + 1)
  | .pair .install tail _ => lh.drop tail
  | _ => lh

namespace CacheState

/-- The loop of `bget` from `head.next`. -/
def forward (s : CacheState ι) : List Idx :=
  (LinkedRing.walk s.links.1 none NBUF (s.links.1 none)).filterMap id

/-- The loop of `bget` from `head.prev`. -/
def backward (s : CacheState ι) : List Idx :=
  (LinkedRing.walk s.links.2 none NBUF (s.links.2 none)).filterMap id

/-- Is the block already cached? -/
def cached (s : CacheState ι) (dev blockno : Nat) : Option Idx :=
  s.forward.find? fun i => (s.buf i).dev = dev ∧ (s.buf i).blockno = blockno

/-- The least recently used buffer without a reference. -/
def victim (s : CacheState ι) : Option Idx :=
  s.backward.find? fun i => (s.buf i).refcnt = 0

/-- Replace the buffer `i`. -/
@[simps]
def setBuf (s : CacheState ι) (i : Idx) (x : Buf) : CacheState ι :=
  { s with buf := update s.buf i x }

/-- May this owner call `bread` on the block now? -/
def Asks (start : Nat) (s : CacheState ι) (dev blockno : Nat) : Owner ι → Prop
  | .op p => ∃ blocks, (p, blocks) ∈ s.ops
  | .reader => True
  | .commit => dev = ROOTDEV ∧ s.pos.wants start s.lh = some blockno ∧
      ∀ r ∈ s.refs, r.owner = .commit → r.pos = .locked false ∧ (s.buf r.buf).valid = true

/-- Does `commit` have the buffer `i` locked? -/
def Has (s : CacheState ι) (i : Idx) : Prop :=
  ∃ r ∈ s.refs, r.owner = .commit ∧ r.buf = i ∧ r.pos = .locked false

/-- Where the log is after a `bget` by this owner. -/
def after (s : CacheState ι) (i : Idx) : Owner ι → CommitPos
  | .commit => s.pos.got i
  | _ => s.pos

/-- `bget` finds the block in the buffer `i`. -/
@[simps]
def hit (s : CacheState ι) (o : Owner ι) (dev blockno : Nat) (i : Idx) : CacheState ι :=
  { s with
    buf := update s.buf i { s.buf i with refcnt := (s.buf i).refcnt + 1 }
    refs := ⟨o, dev, blockno, i, .waiting⟩ ::ₘ s.refs
    pos := s.after i o }

/-- `bget` recycles the buffer `i`. -/
@[simps]
def recycle (s : CacheState ι) (o : Owner ι) (dev blockno : Nat) (i : Idx) : CacheState ι :=
  { s with
    buf := update s.buf i
      { s.buf i with dev := dev, blockno := blockno, valid := false, refcnt := 1 }
    refs := ⟨o, dev, blockno, i, .waiting⟩ ::ₘ s.refs
    pos := s.after i o }

/-- `virtio_disk_rw(b, 0); b->valid = 1`. -/
@[simps!]
def fill (s : CacheState ι) (i : Idx) : CacheState ι :=
  s.setBuf i { s.buf i with data := s.disk (s.buf i).blockno, valid := true }

/-- `log_write` of the buffer `i` by the operation `p`, whose blocks so far are
`blocks`.  A block that is in the header already is absorbed. -/
@[simps]
def logWrite (s : CacheState ι) (i : Idx) (p : ι) (blocks : List Nat)
    (ops : Multiset (ι × List Nat)) : CacheState ι :=
  let b := (s.buf i).blockno
  { s with
    lh := if b ∈ s.lh then s.lh else s.lh ++ [b]
    buf := if b ∈ s.lh then s.buf else
      update s.buf i { s.buf i with refcnt := (s.buf i).refcnt + 1 }
    ops := (p, if b ∈ blocks then blocks else blocks ++ [b]) ::ₘ ops
    spec := update s.spec b (s.buf i).data }

/-- The part of `brelse` under `bcache.lock`. -/
@[simps]
def drop (s : CacheState ι) (i : Idx) (refs : Multiset (Ref ι)) : CacheState ι :=
  { s with
    buf := update s.buf i { s.buf i with refcnt := (s.buf i).refcnt - 1 }
    links := if (s.buf i).refcnt - 1 = 0 then LinkedRing.moveFront none (some i) s.links
      else s.links
    refs := refs }

/-- Change the buffer `i` and write it to its block. -/
@[simps]
def bwrite (s : CacheState ι) (i : Idx) (d : Block) : CacheState ι :=
  { s with
    buf := update s.buf i { s.buf i with data := d }
    disk := update s.disk (s.buf i).blockno d }

end CacheState

/-- What a step was, as far as conditions on runs speak of it: a `bget` that
returned, or a call of `log_write`, which may panic. -/
inductive CacheEvent (ι : Type)
  | bget (o : Owner ι) (dev blockno : Nat) (i : Idx)
  | logWrite (p : ι) (i : Idx)
  | other

/-- One step of a log whose area starts at `start`. -/
inductive CacheStep (start : Nat) : CacheState ι → CacheEvent ι → CacheState ι → Prop
  | beginOp {s p} (hup : s.pos = .up) (hp : ∀ blocks, (p, blocks) ∉ s.ops)
      (hroom : s.lh.length + (s.outstanding + 1) * MAXOPBLOCKS ≤ LOGBLOCKS) :
      CacheStep start s .other
        { s with outstanding := s.outstanding + 1, ops := (p, []) ::ₘ s.ops }
  -- bget and bread
  | hit {s o dev b i} (hask : s.Asks start dev b o) (hcached : s.cached dev b = some i) :
      CacheStep start s (.bget o dev b i) (s.hit o dev b i)
  | recycle {s o dev b i} (hask : s.Asks start dev b o) (hcached : s.cached dev b = none)
      (hvictim : s.victim = some i) :
      CacheStep start s (.bget o dev b i) (s.recycle o dev b i)
  | noBuffers {s} {o : Owner ι} {dev b} (hask : s.Asks start dev b o)
      (hcached : s.cached dev b = none) (hvictim : s.victim = none) :
      CacheStep start s .other { s with panic := some (.noBuffers o.isCommit) }
  | lock {s r refs} (href : s.refs = r ::ₘ refs) (hr : r.pos = .waiting)
      (hfree : ∀ r' ∈ refs, r'.buf = r.buf → ∀ d, r'.pos ≠ .locked d) :
      CacheStep start s .other { s with refs := r.to (.locked false) ::ₘ refs }
  | fill {s r d} (href : r ∈ s.refs) (hr : r.pos = .locked d)
      (hvalid : (s.buf r.buf).valid = false) :
      CacheStep start s .other (s.fill r.buf)
  -- what an operation does with a buffer it has locked
  | modify {s r p d data refs} (href : s.refs = r ::ₘ refs) (hr : r.pos = .locked d)
      (howner : r.owner = .op p) (hvalid : (s.buf r.buf).valid = true) :
      CacheStep start s .other
        { s.setBuf r.buf { s.buf r.buf with data := data } with
          refs := r.to (.locked true) ::ₘ refs }
  | logWrite {s r p d blocks refs ops} (href : s.refs = r ::ₘ refs) (hr : r.pos = .locked d)
      (howner : r.owner = .op p) (hvalid : (s.buf r.buf).valid = true)
      (hop : s.ops = (p, blocks) ::ₘ ops) (hroom : s.lh.length < LOGBLOCKS)
      (hout : 1 ≤ s.outstanding) :
      CacheStep start s (.logWrite p r.buf)
        { s.logWrite r.buf p blocks ops with refs := r.to (.locked false) ::ₘ refs }
  | tooBig {s r p d} (href : r ∈ s.refs) (hr : r.pos = .locked d) (howner : r.owner = .op p)
      (hvalid : (s.buf r.buf).valid = true) (hfull : LOGBLOCKS ≤ s.lh.length) :
      CacheStep start s (.logWrite p r.buf) { s with panic := some .tooBig }
  | outsideTrans {s r p d} (href : r ∈ s.refs) (hr : r.pos = .locked d)
      (howner : r.owner = .op p) (hvalid : (s.buf r.buf).valid = true)
      (hroom : s.lh.length < LOGBLOCKS) (hout : s.outstanding < 1) :
      CacheStep start s (.logWrite p r.buf) { s with panic := some .outsideTrans }
  -- brelse
  | unlock {s r refs} (href : s.refs = r ::ₘ refs) (hr : r.pos = .locked false)
      (howner : r.owner ≠ .commit) (hvalid : (s.buf r.buf).valid = true) :
      CacheStep start s .other { s with refs := r.to .dropping ::ₘ refs }
  | commitUnlock {s r k refs} (href : s.refs = r ::ₘ refs) (hr : r.pos = .locked false)
      (howner : r.owner = .commit) (hk : s.pos.release = some (r.buf, k))
      (hdone : ∀ r' ∈ refs, r'.owner = .commit → r'.pos ≠ .dropping) :
      CacheStep start s .other { s with refs := r.to .dropping ::ₘ refs, pos := k }
  | drop {s r refs} (href : s.refs = r ::ₘ refs) (hr : r.pos = .dropping) :
      CacheStep start s .other (s.drop r.buf refs)
  -- end_op
  | endOp {s p blocks ops} (hop : s.ops = (p, blocks) ::ₘ ops)
      (hrefs : ∀ r ∈ s.refs, r.owner ≠ .op p) (hup : s.pos = .up)
      (hout : s.outstanding - 1 ≠ 0) :
      CacheStep start s .other { s with outstanding := s.outstanding - 1, ops := ops }
  | endLast {s p blocks ops} (hop : s.ops = (p, blocks) ::ₘ ops)
      (hrefs : ∀ r ∈ s.refs, r.owner ≠ .op p) (hup : s.pos = .up)
      (hout : s.outstanding - 1 = 0) :
      CacheStep start s .other
        { s with
          outstanding := s.outstanding - 1
          ops := ops
          pos := if 0 < s.lh.length then .pair .writeLog 0 .getLog else .finish }
  | endPanic {s p blocks} (hop : (p, blocks) ∈ s.ops) (hpos : s.pos ≠ .up) :
      CacheStep start s .other { s with panic := some .committing }
  -- commit
  | copyToLog {s tail a b} (hpos : s.pos = .pair .writeLog tail (.copy a b))
      (ha : s.Has a) (hva : (s.buf a).valid = true)
      (hb : s.Has b) (hvb : (s.buf b).valid = true) :
      CacheStep start s .other
        { s.bwrite a (s.buf b).data with pos := .pair .writeLog tail (.first b a) }
  | copyHome {s tail a b} (hpos : s.pos = .pair .install tail (.copy a b))
      (ha : s.Has a) (hva : (s.buf a).valid = true)
      (hb : s.Has b) (hvb : (s.buf b).valid = true) :
      CacheStep start s .other
        { s.bwrite b (s.buf a).data with
          buf := update s.buf b
            { s.buf b with data := (s.buf a).data, refcnt := (s.buf b).refcnt - 1 }
          pos := .pair .install tail (.first a b) }
  | nextRound {s phase tail} (hpos : s.pos = .pair phase tail .next)
      (hdone : ∀ r ∈ s.refs, r.owner ≠ .commit) :
      CacheStep start s .other { s with pos := .pair phase (tail + 1) .getLog }
  | logWritten {s} (hpos : s.pos = .pair .writeLog s.lh.length .getLog) :
      CacheStep start s .other { s with pos := .head false .get }
  | installed {s} (hpos : s.pos = .pair .install s.lh.length .getLog) :
      CacheStep start s .other { s with lh := [], pos := .head true .get }
  | writeHead {s erase a} (hpos : s.pos = .head erase (.write a))
      (ha : s.Has a) (hva : (s.buf a).valid = true) :
      CacheStep start s .other
        { s.bwrite a (writeHead s.lh (s.buf a).data) with pos := .head erase (.rel a) }
  | headDone {s erase} (hpos : s.pos = .head erase .done)
      (hdone : ∀ r ∈ s.refs, r.owner ≠ .commit) :
      CacheStep start s .other
        { s with pos := if erase then .finish else .pair .install 0 .getLog }
  | finish {s} (hpos : s.pos = .finish) : CacheStep start s .other { s with pos := .up }

/-- The loop of `binit`: every buffer is put in front of the ring. -/
def binitLinks : (Option Idx → Option Idx) × (Option Idx → Option Idx) :=
  (List.finRange NBUF).foldl (fun links i => LinkedRing.insert none (some i) links)
    (fun _ => none, fun _ => none)

/-- The state after `binit` over the disk `base`, with nothing in the log. -/
def emptyCache (base : Nat → Block) : CacheState ι where
  buf _ := { valid := false, dev := 0, blockno := 0, refcnt := 0, data := fun _ => 0 }
  links := binitLinks
  refs := 0
  disk := base
  lh := []
  outstanding := 0
  pos := .up
  ops := 0
  panic := none
  spec := base

/-- The cache and the log from boot on.  With an empty log on disk,
`recover_from_log` only reads the header and writes it back. -/
def cacheSystem (start : Nat) (base : Nat → Block) : System (CacheState ι) (CacheEvent ι) where
  init s := s = emptyCache base
  step s a s' := s.panic = none ∧ CacheStep start s a s'

/-- A use by the file system: of the log's device, outside the log area. -/
def HomeUse (start : Nat) (_ : CacheState ι) : CacheEvent ι → Prop
  | .bget (.op _) dev b _ | .bget .reader dev b _ => dev = ROOTDEV ∧ IsHome start b
  | _ => True

end Kus.Bio
