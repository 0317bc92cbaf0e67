import KusOs.RedoWrites
import KusOs.TransitionSystem

/-!
# The file-system log

`log.c` with the part of the buffer cache it relies on.  A file-system call
brackets its writes with `begin_op` and `end_op`; `log_write` records a block in
the in-memory header and pins its buffer; the last `end_op` commits: it copies
the blocks to the log area (`write_log`), writes the header (`write_head`),
copies them home (`install_trans`) and erases the header.  After a crash
`recover_from_log` installs whatever the header on disk lists.

Every `bwrite` is a step of its own, and a crash may come between any two
steps, also between two steps of a recovery.  Sections under `log.lock` are one
step each.  A buffer that an operation changes is locked until `log_write` has
recorded it, so the change and its `log_write` are one step too.  A `panic` is
the absence of a step.

The fields after `ops` are history: they record what was written by whom and
which transactions were committed, and no step looks at them.
-/

namespace Kus

open Function Redo Transition

/-- The words of a block. -/
abbrev Block := Nat → Nat

/-- The most blocks one operation writes. -/
def MAXOPBLOCKS : Nat := 10

/-- The data blocks of the log. -/
def LOGBLOCKS : Nat := MAXOPBLOCKS * 3

/-- A block outside the log area, which is the header at `start` and
`LOGBLOCKS` data blocks after it. -/
def IsHome (start b : Nat) : Prop := b < start ∨ start + LOGBLOCKS < b

/-- `write_head`: the header block, with the in-memory header copied over it. -/
def writeHead (lh : List Nat) (hb : Block) : Block
  | 0 => lh.length
  | i + 1 => lh[i]?.getD (hb (i + 1))

/-- `read_head`: the block numbers a header block lists. -/
def readHead (hb : Block) : List Nat :=
  (List.range (hb 0)).map fun i => hb (i + 1)

@[simp] theorem readHead_writeHead (lh : List Nat) (hb : Block) :
    readHead (writeHead lh hb) = lh := by
  refine List.ext_getElem (by simp [readHead, writeHead]) fun i hi hi' => ?_
  simp [readHead, writeHead, hi']

theorem readHead_of_zero {hb : Block} (h : hb 0 = 0) : readHead hb = [] := by
  simp [readHead, h]

/-- Where the log is: serving operations, at some point of process `p`'s
`commit`, or at some point of `recover_from_log`.  `log.committing` is set
exactly in the four stages of a commit. -/
inductive LogStage (ι : Type)
  | up
  | writeLog (p : ι) (tail : Nat)
  | install (p : ι) (tail : Nat)
  | clear (p : ι)
  | finish (p : ι)
  | bootHead
  | bootInstall (tail : Nat)
  | bootClear

/-- The disk, the cache and the log.  A cached block that is not pinned may be
recycled at any time. -/
structure LogState (ι : Type) where
  disk : Nat → Block
  cache : Nat → Option Block
  pinned : List Nat
  lh : List Nat
  outstanding : Nat
  stage : LogStage ι
  /-- The processes between `begin_op` and `end_op`, with their operations. -/
  ops : List (ι × Nat)
  nextOp : Nat
  issued : List (Write Nat Block)
  /-- The transaction that is being gathered or written to the log. -/
  current : List (Write Nat Block)
  /-- The operations begun in it. -/
  group : List Nat
  committed : List (List (Write Nat Block))
  /-- The operations of transactions whose commit has returned. -/
  returned : List Nat
  /-- The commit order at the crash that is being recovered from. -/
  order : List (List (Write Nat Block))

variable {ι : Type}

namespace LogState

/-- What `bread` finds. -/
def bread (s : LogState ι) (b : Nat) : Block := (s.cache b).getD (s.disk b)

/-- `bwrite` of the block `b` with contents `d`. -/
def bwrite (s : LogState ι) (b : Nat) (d : Block) : LogState ι :=
  { s with
    disk := update s.disk b d
    cache := update s.cache b (some d) }

/-- `log_write` of the block `b`, after operation `op` gave it the contents
`d`.  A block that is in the header already is absorbed. -/
def logWrite (s : LogState ι) (op b : Nat) (d : Block) : LogState ι :=
  { s with
    cache := update s.cache b (some d)
    lh := if b ∈ s.lh then s.lh else s.lh ++ [b]
    pinned := if b ∈ s.lh then s.pinned else b :: s.pinned
    issued := s.issued ++ [⟨op, b, d⟩]
    current := s.current ++ [⟨op, b, d⟩] }

/-- `end_op` up to the release of `log.lock`, going on to the stage `k`. -/
def endOp [DecidableEq ι] (s : LogState ι) (p : ι) (op : Nat) (k : LogStage ι) : LogState ι :=
  { s with outstanding := s.outstanding - 1, ops := s.ops.erase (p, op), stage := k }

/-- The transactions in the order of their commits; the last one may be one
whose commit has begun and has not reached its `write_head`. -/
def commitOrder (s : LogState ι) : List (List (Write Nat Block)) :=
  match s.stage with
  | .writeLog _ _ => s.committed ++ [s.current]
  | .bootHead | .bootInstall _ | .bootClear => s.order
  | _ => s.committed

/-- Only the disk survives a crash. -/
def crash (s : LogState ι) : LogState ι :=
  { s with
    cache := fun _ => none
    pinned := []
    lh := []
    outstanding := 0
    stage := .bootHead
    ops := []
    current := []
    group := []
    order := s.commitOrder }

end LogState

/-- What a step of the log was. -/
inductive LogEvent
  | beginOp | logWrite | endOp | commitStart | commitEmpty
  | writeLog | writeHead | install | clear | erase | finish
  | bread | recycle | crash
  | readHead | recoverInstall | recoverClear | recovered
deriving DecidableEq, Repr

variable [DecidableEq ι]

/-- One step of a log whose area starts at `start`. -/
inductive LogStep (start : Nat) : LogState ι → LogEvent → LogState ι → Prop
  | beginOp {s p} (hup : s.stage = .up) (hp : ∀ x ∈ s.ops, x.1 ≠ p)
      (hroom : s.lh.length + (s.outstanding + 1) * MAXOPBLOCKS ≤ LOGBLOCKS) :
      LogStep start s .beginOp
        { s with
          outstanding := s.outstanding + 1
          ops := (p, s.nextOp) :: s.ops
          nextOp := s.nextOp + 1
          group := s.nextOp :: s.group }
  | logWrite {s p op b} (d : Block) (hop : (p, op) ∈ s.ops) (hhome : IsHome start b)
      (hroom : s.lh.length < LOGBLOCKS) (hout : 1 ≤ s.outstanding) :
      LogStep start s .logWrite (s.logWrite op b d)
  | endOp {s p op} (hop : (p, op) ∈ s.ops) (hup : s.stage = .up)
      (hout : s.outstanding - 1 ≠ 0) :
      LogStep start s .endOp (s.endOp p op .up)
  | commitStart {s p op} (hop : (p, op) ∈ s.ops) (hup : s.stage = .up)
      (hout : s.outstanding - 1 = 0) (hlh : 0 < s.lh.length) :
      LogStep start s .commitStart (s.endOp p op (.writeLog p 0))
  | commitEmpty {s p op} (hop : (p, op) ∈ s.ops) (hup : s.stage = .up)
      (hout : s.outstanding - 1 = 0) (hlh : s.lh.length = 0) :
      LogStep start s .commitEmpty (s.endOp p op (.finish p))
  | writeLog {s p tail b} (hst : s.stage = .writeLog p tail) (hb : s.lh[tail]? = some b) :
      LogStep start s .writeLog
        { s.bwrite (start + tail + 1) (s.bread b) with stage := .writeLog p (tail + 1) }
  | writeHead {s p} (hst : s.stage = .writeLog p s.lh.length) :
      LogStep start s .writeHead
        { s.bwrite start (writeHead s.lh (s.bread start)) with
          stage := .install p 0
          committed := s.committed ++ [s.current]
          current := [] }
  | install {s p tail b} (hst : s.stage = .install p tail) (hb : s.lh[tail]? = some b) :
      LogStep start s .install
        { s.bwrite b (s.bread (start + tail + 1)) with
          pinned := s.pinned.erase b
          stage := .install p (tail + 1) }
  | clear {s p} (hst : s.stage = .install p s.lh.length) :
      LogStep start s .clear { s with lh := [], stage := .clear p }
  | erase {s p} (hst : s.stage = .clear p) :
      LogStep start s .erase
        { s.bwrite start (writeHead s.lh (s.bread start)) with stage := .finish p }
  | finish {s p} (hst : s.stage = .finish p) :
      LogStep start s .finish
        { s with stage := .up, group := [], returned := s.group ++ s.returned }
  | bread {s b} (hmiss : s.cache b = none) :
      LogStep start s .bread { s with cache := update s.cache b (some (s.disk b)) }
  | recycle {s b} (hfree : b ∉ s.pinned) :
      LogStep start s .recycle { s with cache := update s.cache b none }
  | crash {s} : LogStep start s .crash s.crash
  | readHead {s} (hst : s.stage = .bootHead) :
      LogStep start s .readHead
        { s with lh := readHead (s.bread start), stage := .bootInstall 0 }
  | recoverInstall {s tail b} (hst : s.stage = .bootInstall tail)
      (hb : s.lh[tail]? = some b) :
      LogStep start s .recoverInstall
        { s.bwrite b (s.bread (start + tail + 1)) with stage := .bootInstall (tail + 1) }
  | recoverClear {s} (hst : s.stage = .bootInstall s.lh.length) :
      LogStep start s .recoverClear { s with lh := [], stage := .bootClear }
  | recovered {s} (hst : s.stage = .bootClear) :
      LogStep start s .recovered
        { s.bwrite start (writeHead s.lh (s.bread start)) with stage := .up }

/-- The first boot from the disk `mkfs` made. -/
def firstBoot (base : Nat → Block) : LogState ι where
  disk := base
  cache _ := none
  pinned := []
  lh := []
  outstanding := 0
  stage := .bootHead
  ops := []
  nextOp := 0
  issued := []
  current := []
  group := []
  committed := []
  returned := []
  order := []

/-- The log from the first boot on; `mkfs` leaves an empty header. -/
def logSystem (start : Nat) (base : Nat → Block) : System (LogState ι) LogEvent where
  init s := s = firstBoot base ∧ base start 0 = 0
  step := LogStep start

end Kus
