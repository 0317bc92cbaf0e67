import Mathlib
import KusOs.TransitionSystem
import KusOs.WrappingRing

/-!
# The virtio disk driver and its device

`kernel/virtio_disk.c` with the device on the other side of the two rings.  The
callers of `virtio_disk_rw` are any number of threads; `disk.vdisk_lock` is held
by one of them, or by the interrupt handler, except while it sleeps.  The device
takes no lock: it runs between any two steps of the driver, so the driver's
sections are cut into the steps a device could tell apart.

* a caller holds the sleep-lock of its buffer, as `bread` and `bwrite` see to;
* a sleeper may wake at any time and the handler may run at any time, which
  includes every run with real wakeups and interrupts;
* the device takes chains from the `avail` ring in order and completes what it
  has taken in any order, each once and with status 0.

The counts at the end of `DiskState` record the run and are never read.
-/

namespace Kus.Virtio

open Function Transition

/-- This many virtio descriptors. -/
def NUM : Nat := 8

instance : NeZero NUM := ⟨by decide⟩

def BSIZE : Nat := 1024

/-- `sizeof(struct virtio_blk_req)`. -/
def BLK_REQ_SIZE : Nat := 16

/-- Chained with another descriptor. -/
def VRING_DESC_F_NEXT : UInt16 := 1

/-- Device writes (vs read). -/
def VRING_DESC_F_WRITE : UInt16 := 2

def VIRTIO_BLK_T_IN : Nat := 0
def VIRTIO_BLK_T_OUT : Nat := 1

variable {T Buf : Type}

/-- What a descriptor points to. -/
inductive Addr (Buf : Type)
  | null
  | op (i : Fin NUM)
  | data (b : Buf)
  | status (i : Fin NUM)
deriving DecidableEq, Repr

/-- `struct virtq_desc`. -/
structure Desc (Buf : Type) where
  addr : Addr Buf
  len : Nat
  flags : UInt16
  next : Nat
deriving DecidableEq, Repr

/-- `struct virtio_blk_req`. -/
structure BlkReq where
  type : Nat
  reserved : Nat
  sector : Nat
deriving DecidableEq, Repr

/-- An entry of `disk.info`. -/
structure Info (Buf : Type) where
  b : Option Buf
  status : UInt8
deriving DecidableEq, Repr

/-- The `avail` or the `used` ring, of which only the descriptor numbers count. -/
structure Virtq where
  idx : UInt16
  ring : Fin NUM → Nat

/-- `struct disk`. -/
structure Disk (Buf : Type) where
  desc : Fin NUM → Desc Buf
  avail : Virtq
  used : Virtq
  free : Fin NUM → Bool
  used_idx : UInt16
  info : Fin NUM → Info Buf
  ops : Fin NUM → BlkReq

inductive DiskPanic
  | free_desc1 | free_desc2 | intr_status
  /-- `disk.info[id]` out of bounds -/
  | badId
  /-- `b->disk` with a null `b` -/
  | nullBuf
deriving DecidableEq, Repr

/-! ### Descriptors -/

def alloc_desc (d : Disk Buf) : Option (Fin NUM × Disk Buf) :=
  ((List.finRange NUM).find? fun i => d.free i).map fun i =>
    (i, { d with free := update d.free i false })

/-- A descriptor that is not in use. -/
def Desc.zero : Desc Buf := ⟨.null, 0, 0, 0⟩

def free_desc (i : Nat) (d : Disk Buf) : Except DiskPanic (Disk Buf) :=
  if h : i < NUM then
    if d.free ⟨i, h⟩ then throw .free_desc2
    else pure { d with
      desc := update d.desc ⟨i, h⟩ .zero
      free := update d.free ⟨i, h⟩ true }
  else throw .free_desc1

/-- `free_chain`, followed for a number of rounds; `none` if it is not over by then. -/
def free_chain : Nat → Nat → Disk Buf → Option (Except DiskPanic (Disk Buf))
  | 0, _, _ => none
  | n + 1, i, d =>
    match free_desc i d with
    | .error e => some (.error e)
    | .ok d' =>
      -- `flag` and `nxt` were read before `free_desc` cleared them
      if h : i < NUM then
        if (d.desc ⟨i, h⟩).flags &&& VRING_DESC_F_NEXT ≠ 0 then
          free_chain n (d.desc ⟨i, h⟩).next d'
        else some (.ok d')
      else some (.error .free_desc1)

/-- `int idx[3]`. -/
structure Idx where
  i0 : Fin NUM
  i1 : Fin NUM
  i2 : Fin NUM
deriving DecidableEq, Repr

/-- `alloc3_desc`, with the loop written out. -/
def alloc3_desc (d : Disk Buf) : Except DiskPanic (Option Idx × Disk Buf) :=
  match alloc_desc d with
  | none => pure (none, d)
  | some (i0, d) =>
    match alloc_desc d with
    | none => do
      let d ← free_desc i0 d
      pure (none, d)
    | some (i1, d) =>
      match alloc_desc d with
      | none => do
        let d ← free_desc i0 d
        let d ← free_desc i1 d
        pure (none, d)
      | some (i2, d) => pure (some ⟨i0, i1, i2⟩, d)

/-! ### The callers -/

/-- Where a thread is in `virtio_disk_rw`. -/
inductive Phase (Buf : Type)
  | out
  /-- before `acquire`, or asleep on `disk.free[0]` -/
  | enter (b : Buf) (write : Bool)
  /-- before `alloc3_desc` -/
  | search (b : Buf) (write : Bool)
  /-- before the descriptors are formatted -/
  | got (b : Buf) (write : Bool) (idx : Idx)
  /-- before the entry of the `avail` ring is written -/
  | formatted (b : Buf) (idx : Idx)
  /-- before `avail->idx` is incremented -/
  | ringed (b : Buf) (idx : Idx)
  /-- before the test `b->disk == 1` -/
  | test (b : Buf) (idx : Idx)
  /-- asleep on `b` -/
  | asleep (b : Buf) (idx : Idx)
deriving DecidableEq, Repr

inductive Holder (T : Type)
  | caller (t : T)
  | intr
deriving DecidableEq, Repr

structure DiskState (T Buf : Type) where
  disk : Disk Buf
  /-- `b->disk` -/
  flag : Buf → Bool
  blockno : Buf → Nat
  /-- the sleep-lock `b->lock` -/
  bufLock : Buf → Option T
  phase : T → Phase Buf
  /-- `disk.vdisk_lock` -/
  lock : Option (Holder T)
  /-- the device has looked this far in the `avail` ring -/
  lastAvail : UInt16
  /-- chains the device has taken and not completed -/
  taken : List Nat
  panic : Option DiskPanic
  /-- by the head of the chain: how often it was made available, completed by the
  device and processed by the interrupt handler -/
  published : Nat → Nat
  completed : Nat → Nat
  processed : Nat → Nat

variable [DecidableEq T] [DecidableEq Buf]

/-- A thread goes on to a phase. -/
@[simps]
def DiskState.goto (s : DiskState T Buf) (t : T) (ph : Phase Buf) : DiskState T Buf :=
  { s with phase := update s.phase t ph }

/-- Format the three descriptors and record the buffer. -/
def Disk.format (d : Disk Buf) (b : Buf) (blockno : Nat) (write : Bool) (x : Idx) : Disk Buf :=
  let ops := update d.ops x.i0
    ⟨if write then VIRTIO_BLK_T_OUT else VIRTIO_BLK_T_IN, 0, blockno * (BSIZE / 512)⟩
  let desc := update d.desc x.i0 ⟨.op x.i0, BLK_REQ_SIZE, VRING_DESC_F_NEXT, x.i1⟩
  let desc := update desc x.i1
    ⟨.data b, BSIZE, (if write then 0 else VRING_DESC_F_WRITE) ||| VRING_DESC_F_NEXT, x.i2⟩
  let desc := update desc x.i2 ⟨.status x.i0, 1, VRING_DESC_F_WRITE, 0⟩
  { d with
    ops := ops
    desc := desc
    info := update d.info x.i0 ⟨some b, 0xff⟩ }

/-- `disk.avail->ring[disk.avail->idx % NUM] = idx[0]`. -/
def Disk.writeAvail (d : Disk Buf) (h : Nat) : Disk Buf :=
  { d with
    avail.ring := update d.avail.ring (Ring.cell NUM d.avail.idx.toNat) h }

/-- `disk.avail->idx += 1`. -/
def Disk.bumpAvail (d : Disk Buf) : Disk Buf :=
  { d with avail.idx := d.avail.idx + 1 }

/-- `disk.info[i].b = 0`. -/
def Disk.forget (d : Disk Buf) (i : Fin NUM) : Disk Buf :=
  { d with info := update d.info i { d.info i with b := none } }

/-! ### The interrupt handler -/

/-- `disk.used->ring[disk.used_idx % NUM].id`. -/
def Disk.nextUsed (d : Disk Buf) : Nat := d.used.ring (Ring.cell NUM d.used_idx.toNat)

/-- One round of the loop of `virtio_disk_intr`. -/
def virtio_disk_intr_round (s : DiskState T Buf) : DiskState T Buf :=
  let id := s.disk.nextUsed
  if h : id < NUM then
    if (s.disk.info ⟨id, h⟩).status ≠ 0 then { s with panic := some .intr_status }
    else
      match (s.disk.info ⟨id, h⟩).b with
      | none => { s with panic := some .nullBuf }
      | some b =>
        { s with
          flag := update s.flag b false
          disk.used_idx := s.disk.used_idx + 1
          processed := update s.processed id (s.processed id + 1) }
  else { s with panic := some .badId }

/-! ### The device -/

/-- The descriptor a number read from memory refers to. -/
def Disk.descAt (d : Disk Buf) (i : Nat) : Desc Buf :=
  if h : i < NUM then d.desc ⟨i, h⟩ else .zero

/-- The status address of a chain: that of its third descriptor. -/
def Disk.statusAddr (d : Disk Buf) (h : Nat) : Addr Buf :=
  (d.descAt (d.descAt (d.descAt h).next).next).addr

/-- The device stores the status 0 at an address. -/
def Disk.storeStatus (d : Disk Buf) : Addr Buf → Disk Buf
  | .status i => { d with info := update d.info i { d.info i with status := 0 } }
  | _ => d

/-- The device adds a chain to the `used` ring. -/
def Disk.pushUsed (d : Disk Buf) (h : Nat) : Disk Buf :=
  { d with
    used := ⟨d.used.idx + 1, update d.used.ring (Ring.cell NUM d.used.idx.toNat) h⟩ }

/-! ### The system -/

inductive Act (T Buf : Type)
  | acquiresleep (t : T) (b : Buf)
  | releasesleep (t : T) (b : Buf)
  | call (t : T) (b : Buf) (write : Bool)
  | acquire (t : T)
  | alloc (t : T)
  | format (t : T)
  | ring (t : T)
  | publish (t : T)
  | test (t : T)
  | wake (t : T)
  | intrEnter
  | intrRound
  | intrExit
  | take
  | complete (h : Nat)
deriving DecidableEq, Repr

inductive Step : DiskState T Buf → Act T Buf → DiskState T Buf → Prop
  | acquiresleep {s : DiskState T Buf} {t : T} {b : Buf} (hout : s.phase t = .out)
      (hfree : s.bufLock b = none) :
      Step s (.acquiresleep t b) { s with bufLock := update s.bufLock b (some t) }
  | releasesleep {s : DiskState T Buf} {t : T} {b : Buf} (hout : s.phase t = .out)
      (hown : s.bufLock b = some t) :
      Step s (.releasesleep t b) { s with bufLock := update s.bufLock b none }
  | call {s : DiskState T Buf} {t : T} {b : Buf} {write : Bool} (hout : s.phase t = .out)
      (hown : s.bufLock b = some t) :
      Step s (.call t b write) (s.goto t (.enter b write))
  | acquire {s : DiskState T Buf} {t : T} {b : Buf} {write : Bool}
      (hph : s.phase t = .enter b write) (hlock : s.lock = none) :
      Step s (.acquire t) { s.goto t (.search b write) with lock := some (.caller t) }
  | allocOk {s : DiskState T Buf} {t : T} {b : Buf} {write : Bool} {x : Idx} {d : Disk Buf}
      (hph : s.phase t = .search b write) (hrun : alloc3_desc s.disk = .ok (some x, d)) :
      Step s (.alloc t) { s.goto t (.got b write x) with disk := d }
  -- no three descriptors: `sleep(&disk.free[0], &disk.vdisk_lock)`
  | allocSleep {s : DiskState T Buf} {t : T} {b : Buf} {write : Bool} {d : Disk Buf}
      (hph : s.phase t = .search b write) (hrun : alloc3_desc s.disk = .ok (none, d)) :
      Step s (.alloc t) { s.goto t (.enter b write) with disk := d, lock := none }
  | allocPanic {s : DiskState T Buf} {t : T} {b : Buf} {write : Bool} {e : DiskPanic}
      (hph : s.phase t = .search b write) (hrun : alloc3_desc s.disk = .error e) :
      Step s (.alloc t) { s with panic := some e }
  | format {s : DiskState T Buf} {t : T} {b : Buf} {write : Bool} {x : Idx}
      (hph : s.phase t = .got b write x) :
      Step s (.format t)
        { s.goto t (.formatted b x) with
          disk := s.disk.format b (s.blockno b) write x
          flag := update s.flag b true }
  | ring {s : DiskState T Buf} {t : T} {b : Buf} {x : Idx} (hph : s.phase t = .formatted b x) :
      Step s (.ring t) { s.goto t (.ringed b x) with disk := s.disk.writeAvail x.i0 }
  | publish {s : DiskState T Buf} {t : T} {b : Buf} {x : Idx} (hph : s.phase t = .ringed b x) :
      Step s (.publish t)
        { s.goto t (.test b x) with
          disk := s.disk.bumpAvail
          published := update s.published x.i0 (s.published x.i0 + 1) }
  | testSleep {s : DiskState T Buf} {t : T} {b : Buf} {x : Idx} (hph : s.phase t = .test b x)
      (hflag : s.flag b = true) :
      Step s (.test t) { s.goto t (.asleep b x) with lock := none }
  | testDone {s : DiskState T Buf} {t : T} {b : Buf} {x : Idx} {n : Nat} {d : Disk Buf}
      (hph : s.phase t = .test b x) (hflag : s.flag b = false)
      (hrun : free_chain n x.i0 (s.disk.forget x.i0) = some (.ok d)) :
      Step s (.test t) { s.goto t .out with disk := d, lock := none }
  | testPanic {s : DiskState T Buf} {t : T} {b : Buf} {x : Idx} {n : Nat} {e : DiskPanic}
      (hph : s.phase t = .test b x) (hflag : s.flag b = false)
      (hrun : free_chain n x.i0 (s.disk.forget x.i0) = some (.error e)) :
      Step s (.test t) { s with panic := some e }
  | wake {s : DiskState T Buf} {t : T} {b : Buf} {x : Idx} (hph : s.phase t = .asleep b x)
      (hlock : s.lock = none) :
      Step s (.wake t) { s.goto t (.test b x) with lock := some (.caller t) }
  | intrEnter {s : DiskState T Buf} (hlock : s.lock = none) :
      Step s .intrEnter { s with lock := some .intr }
  | intrRound {s : DiskState T Buf} (hlock : s.lock = some .intr)
      (hmore : s.disk.used_idx ≠ s.disk.used.idx) :
      Step s .intrRound (virtio_disk_intr_round s)
  | intrExit {s : DiskState T Buf} (hlock : s.lock = some .intr)
      (hdone : s.disk.used_idx = s.disk.used.idx) :
      Step s .intrExit { s with lock := none }
  | take {s : DiskState T Buf} (hmore : s.lastAvail ≠ s.disk.avail.idx) :
      Step s .take
        { s with
          taken := s.disk.avail.ring (Ring.cell NUM s.lastAvail.toNat) :: s.taken
          lastAvail := s.lastAvail + 1 }
  | complete {s : DiskState T Buf} {h : Nat} (hmem : h ∈ s.taken) :
      Step s (.complete h)
        { s with
          disk := (s.disk.storeStatus (s.disk.statusAddr h)).pushUsed h
          taken := s.taken.erase h
          completed := update s.completed h (s.completed h + 1) }

/-- After `virtio_disk_init`. -/
def DiskState.Init (s : DiskState T Buf) : Prop :=
  (∀ i, s.disk.free i = true) ∧ s.disk.avail.idx = 0 ∧ s.disk.used.idx = 0 ∧
  s.disk.used_idx = 0 ∧ (∀ t, s.phase t = .out) ∧ s.lock = none ∧ s.lastAvail = 0 ∧
  s.taken = [] ∧ s.panic = none ∧ (∀ h, s.published h = 0) ∧ (∀ h, s.completed h = 0) ∧
  ∀ h, s.processed h = 0

def diskSystem (T Buf : Type) [DecidableEq T] [DecidableEq Buf] :
    System (DiskState T Buf) (Act T Buf) where
  init := DiskState.Init
  step s a s' := s.panic = none ∧ Step s a s'

end Kus.Virtio
