import KusOs.KernelThread

/-!
# The kernel paths that allocate and free pages

`kalloc`, `kfree`, the page-table functions of `vm.c`, and the callers through
which a process reaches them: `allocproc`, `kfork`, `kwait`, `growproc`,
`kexec`, `sys_exec`, and the copies to and from user memory of pipes and the
console.  What the pages hold is left out, and so are file descriptors and the
contents of user memory; where the control flow depends on user memory or on a
file, what was read is a parameter.

The tables of a page table are tracked as far as `walk` needs them: which
entries are valid.  The pages to be given back with a whole page table are a
list, the root apart.
-/

namespace Kus

open Function

/-- `PGROUNDDOWN` of `riscv.h`. -/
def PGROUNDDOWN (a : Nat) : Nat := a / PGSIZE * PGSIZE

/-- One beyond the highest virtual address (`riscv.h`). -/
def MAXVA : Nat := 2 ^ 38

/-- The trampoline page (`memlayout.h`). -/
def TRAMPOLINE : Nat := MAXVA - PGSIZE

/-- The trapframe page (`memlayout.h`). -/
def TRAPFRAME : Nat := TRAMPOLINE - PGSIZE

/-- Capacity of a pipe (`pipe.c`). -/
def PIPESIZE : UInt32 := 512

/-- Size of the console's input buffer (`console.c`). -/
def INPUT_BUF_SIZE : UInt32 := 128

/-- Most arguments of `exec` (`param.h`). -/
def MAXARG : Nat := 32

/-- User stack pages (`param.h`). -/
def USERSTACK : Nat := 1

/-- An empty page table. -/
def AddressSpace.empty : AddressSpace where
  mid _ := false
  low _ := false
  leaf _ := none
  pages := []

/-- The entry for `va`, if the tables above it and the entry are valid. -/
def AddressSpace.entry (a : AddressSpace) (va : Nat) : Option Pte :=
  if a.mid (va / 2 ^ 30) && a.low (va / 2 ^ 21) then a.leaf (va / PGSIZE) else none

namespace Thread

open Hoare

section Pages

/-- `kfree`. -/
def kfree (pa : Nat) : K Unit := do
  let m ← get
  if kfreeRejects m.img pa then throw .kfree
  else do
    modify fun m => m.setKmem fun k => k.store pa (junkWord 1)
    acquire .kmem
    modify fun m => m.setKmem fun k => k.push pa
    wakeup .kmem
    release .kmem

/-- One round of `kalloc`'s stall loop; `none` is the exit of a killed
process. -/
def stallRound (p : Slot) (_ : Unit) : K (Unit ⊕ Option Nat) := do
  sleep .kmem .kmem
  let m ← get
  match kallocResume (m.world.table p).killed m.world.kmem with
  | .null => pure (.inr none)
  | .stall => pure (.inl ())
  | .page r => pure (.inr (some r))

/-- `kalloc` between finding the list empty and having a page.  The tick
counters kept under `tickslock` are left out. -/
def stall (p : Slot) : K (Option Nat) := do
  acquire .ticks
  release .ticks
  match ← forever (stallRound p) () with
  | none => pure none
  | some r => do
      acquire .ticks
      release .ticks
      pure (some r)

/-- The end of `kalloc`: take the head `r` off the list. -/
def takePage (r : Nat) : K Nat := do
  when (r ≠ 0) (modify fun m => m.setKmem Kmem.pop)
  release .kmem
  when (r ≠ 0) (modify fun m => m.setKmem fun k => k.store r (junkWord 5))
  pure r

/-- `kalloc`. -/
def kalloc : K Nat := do
  let p ← myproc
  acquire .kmem
  let m ← get
  match kallocEnter p.isSome m.world.kmem, p with
  | .stall, some p => do
      match ← stall p with
      | none => do
          release .kmem
          pure 0
      | some r => takePage r
  | _, _ => takePage m.world.kmem.freelist

/-- `proc_freepagetable` and `uvmfree`: give back what hangs from the root,
then the root. -/
def freePagetable (root : Nat) : K Unit := do
  let m ← get
  (m.space root).pages.forM kfree
  kfree root

/-- `freeproc`. -/
def freeproc (p : Slot) : K Unit := do
  let m ← get
  let q := m.world.table p
  when (q.trapframe ≠ 0) (kfree q.trapframe)
  modify fun m => m.setProc p fun q => { q with trapframe := 0 }
  when (q.pagetable ≠ 0) (freePagetable q.pagetable)
  modify fun m => m.setProc p fun _ => .unused

end Pages

section Vm

/-- One upper level of `walk`. -/
def walkLevel (root : Nat) (alloc : Bool) (valid : AddressSpace → Bool)
    (mark : AddressSpace → AddressSpace) : K Bool := do
  let m ← get
  if valid (m.space root) then pure true
  else if alloc then do
    let r ← kalloc
    if r = 0 then pure false
    else do
      modify fun m => m.setSpace root fun a => { mark a with pages := r :: a.pages }
      pure true
  else pure false

/-- `walk`; the result says whether there is a last-level table. -/
def walk (root va : Nat) (alloc : Bool) : K Bool :=
  if MAXVA ≤ va then throw .walk
  else do
    let mid ← walkLevel root alloc (fun a => a.mid (va / 2 ^ 30))
      fun a => { a with mid := update a.mid (va / 2 ^ 30) true }
    if mid then
      walkLevel root alloc (fun a => a.low (va / 2 ^ 21))
        fun a => { a with low := update a.low (va / 2 ^ 21) true }
    else pure false

/-- The entry `walk` points at, read. -/
def pte (root va : Nat) : K (Option Pte) := do
  let m ← get
  pure ((m.space root).leaf (va / PGSIZE))

/-- `walkaddr`; 0 if not mapped. -/
def walkaddr (root va : Nat) : K Nat :=
  if MAXVA ≤ va then pure 0
  else do
    let found ← walk root va false
    if found then do
      match ← pte root va with
      | some e => pure (if e.user then e.pa else 0)
      | none => pure 0
    else pure 0

/-- `ismapped`. -/
def ismapped (root va : Nat) : K Bool := do
  let found ← walk root va false
  if found then do
    let e ← pte root va
    pure e.isSome
  else pure false

/-- `mappages` of one page, which is what all the callers here ask for. -/
def mappages (root va pa : Nat) (write user : Bool) : K Bool :=
  if va % PGSIZE ≠ 0 then throw .mappagesAlign
  else do
    let found ← walk root va true
    if found then do
      match ← pte root va with
      | some _ => throw .mappagesRemap
      | none => do
          modify fun m => m.setSpace root fun a =>
            { a with
              leaf := update a.leaf (va / PGSIZE) (some ⟨pa, write, user⟩)
              pages := if user then pa :: a.pages else a.pages }
          pure true
    else pure false

/-- `uvmcreate`. -/
def uvmcreate : K Nat := do
  let root ← kalloc
  if root = 0 then pure 0
  else do
    modify fun m => m.setSpace root fun _ => .empty
    pure root

/-- One page of `uvmunmap` with `do_free`. -/
def unmapPage (root va : Nat) : K Unit := do
  let found ← walk root va false
  when found do
    match ← pte root va with
    | none => pure ()
    | some e => do
        kfree e.pa
        modify fun m => m.setSpace root fun a =>
          { a with
            leaf := update a.leaf (va / PGSIZE) none
            pages := a.pages.erase e.pa }

/-- `uvmunmap` with `do_free`. -/
def uvmunmap (root va npages : Nat) : K Unit :=
  (List.range npages).forM fun i => unmapPage root (va + i * PGSIZE)

/-- `uvmdealloc`. -/
def uvmdealloc (root oldsz newsz : Nat) : K Nat :=
  if oldsz ≤ newsz then pure oldsz
  else do
    when (PGROUNDUP newsz < PGROUNDUP oldsz)
      (uvmunmap root (PGROUNDUP newsz) ((PGROUNDUP oldsz - PGROUNDUP newsz) / PGSIZE))
    pure newsz

/-- The loop of `uvmalloc` at address `a`, with `k` pages to go. -/
def uvmallocFrom (root start newsz : Nat) (write : Bool) : Nat → Nat → K Nat
  | 0, _ => pure newsz
  | k + 1, a => do
      let mem ← kalloc
      if mem = 0 then do
        let _ ← uvmdealloc root a start
        pure 0
      else do
        let ok ← mappages root a mem write true
        if ok then uvmallocFrom root start newsz write k (a + PGSIZE)
        else do
          kfree mem
          let _ ← uvmdealloc root a start
          pure 0

/-- `uvmalloc`. -/
def uvmalloc (root oldsz newsz : Nat) (write : Bool) : K Nat :=
  if newsz < oldsz then pure oldsz
  else
    let start := PGROUNDUP oldsz
    uvmallocFrom root start newsz write ((newsz - start + PGSIZE - 1) / PGSIZE) start

/-- The loop of `uvmcopy` at page `i`, with `k` pages to go. -/
def uvmcopyFrom (old new : Nat) : Nat → Nat → K Bool
  | 0, _ => pure true
  | k + 1, i => do
      let found ← walk old (i * PGSIZE) false
      let e ← (if found then pte old (i * PGSIZE) else pure none)
      match e with
      | none => uvmcopyFrom old new k (i + 1)
      | some e => do
          let mem ← kalloc
          if mem = 0 then do
            uvmunmap new 0 i
            pure false
          else do
            let ok ← mappages new (i * PGSIZE) mem e.write e.user
            if ok then uvmcopyFrom old new k (i + 1)
            else do
              kfree mem
              uvmunmap new 0 i
              pure false

/-- `uvmcopy`. -/
def uvmcopy (old new sz : Nat) : K Bool := uvmcopyFrom old new ((sz + PGSIZE - 1) / PGSIZE) 0

/-- `vmfault`; 0 if there is nothing to be had. -/
def vmfault (root va : Nat) : K Nat := do
  let p ← curproc
  let m ← get
  if (m.world.table p).sz ≤ va then pure 0
  else do
    let mapped ← ismapped root (PGROUNDDOWN va)
    if mapped then pure 0
    else do
      let mem ← kalloc
      if mem = 0 then pure 0
      else do
        let m ← get
        let ok ← mappages (m.world.table p).pagetable (PGROUNDDOWN va) mem true true
        if ok then pure mem
        else do
          kfree mem
          pure 0

/-- `walkaddr`, with `vmfault` for a page that is not there. -/
def userPage (root va0 : Nat) : K Nat := do
  let pa0 ← walkaddr root va0
  if pa0 = 0 then vmfault root va0 else pure pa0

/-- The loop of `copyout`; a round copies at least one byte, so `len` rounds
are enough. -/
def copyoutFrom (root : Nat) : Nat → Nat → Nat → K Bool
  | 0, _, _ => pure true
  | k + 1, dstva, len =>
    if len = 0 then pure true
    else if MAXVA ≤ PGROUNDDOWN dstva then pure false
    else do
      let pa0 ← userPage root (PGROUNDDOWN dstva)
      if pa0 = 0 then pure false
      else do
        let found ← walk root (PGROUNDDOWN dstva) false
        if found then do
          match ← pte root (PGROUNDDOWN dstva) with
          | none => pure false
          | some e =>
            if e.write then
              copyoutFrom root k (PGROUNDDOWN dstva + PGSIZE)
                (len - (PGSIZE - (dstva - PGROUNDDOWN dstva)))
            else pure false
        else throw .nullDeref

/-- `copyout`; `false` is the result -1. -/
def copyout (root dstva len : Nat) : K Bool := copyoutFrom root len dstva len

/-- The loop of `copyin`. -/
def copyinFrom (root : Nat) : Nat → Nat → Nat → K Bool
  | 0, _, _ => pure true
  | k + 1, srcva, len =>
    if len = 0 then pure true
    else do
      let pa0 ← userPage root (PGROUNDDOWN srcva)
      if pa0 = 0 then pure false
      else
        copyinFrom root k (PGROUNDDOWN srcva + PGSIZE)
          (len - (PGSIZE - (srcva - PGROUNDDOWN srcva)))

/-- `copyin`; `false` is the result -1. -/
def copyin (root srcva len : Nat) : K Bool := copyinFrom root len srcva len

/-- `p->pagetable` of the current process. -/
def ownPagetable : K Nat := do
  let p ← curproc
  let m ← get
  pure (m.world.table p).pagetable

/-- `either_copyout`. -/
def eitherCopyout (userDst : Bool) (dst len : Nat) : K Bool := do
  let root ← ownPagetable
  if userDst then copyout root dst len else pure true

/-- `either_copyin`. -/
def eitherCopyin (userSrc : Bool) (src len : Nat) : K Bool := do
  let root ← ownPagetable
  if userSrc then copyin root src len else pure true

end Vm

section Processes

/-- Start or finish creating a slot. -/
def setBuilding (o : Option Slot) : K Unit := modify fun m => { m with building := o }

/-- `allocpid`. -/
def allocpid : K Int := do
  acquire .pid
  let m ← get
  modify fun m =>
    { m with world := { m.world with nextpid := Int.bmod (m.world.nextpid + 1) (2 ^ 32) } }
  release .pid
  pure m.world.nextpid

/-- `proc_pagetable`. -/
def procPagetable (p : Slot) : K Nat := do
  let root ← uvmcreate
  if root = 0 then pure 0
  else do
    let m ← get
    let ok ← mappages root TRAMPOLINE m.trampoline false false
    if ok then do
      let ok ← mappages root TRAPFRAME (m.world.table p).trapframe true false
      if ok then pure root
      else do
        freePagetable root
        pure 0
    else do
      freePagetable root
      pure 0

/-- `allocproc`'s scan; it returns with the lock of the slot it found. -/
def allocScan : List Slot → K (Option Slot)
  | [] => pure none
  | p :: rest => do
      acquire (.proc p)
      let m ← get
      if (m.world.table p).state = .UNUSED then pure (some p)
      else do
        release (.proc p)
        allocScan rest

/-- The failure paths of `allocproc` and `kfork`. -/
def giveUp (np : Slot) : K Unit := do
  acquire (.proc np)
  freeproc np
  release (.proc np)

/-- `allocproc`. -/
def allocproc : K (Option Slot) := do
  match ← allocScan (List.finRange NPROC) with
  | none => pure none
  | some np => do
      let pid ← allocpid
      modify fun m => m.setProc np fun q => { q with pid := pid, state := .USED }
      setBuilding (some np)
      release (.proc np)
      let trapframe ← kalloc
      modify fun m => m.setProc np fun q => { q with trapframe := trapframe }
      if trapframe = 0 then do
        giveUp np
        setBuilding none
        pure none
      else do
        let root ← procPagetable np
        modify fun m => m.setProc np fun q => { q with pagetable := root }
        if root = 0 then do
          giveUp np
          setBuilding none
          pure none
        else do
          acquire (.proc np)
          pure (some np)

/-- A call into the file system, which returns with none of its spinlocks. -/
def fsCall : K Unit := do
  acquire .fs
  release .fs

/-- `filedup` and `filealloc`, as far as locks go. -/
def ftableCall : K Unit := do
  acquire .ftable
  release .ftable

/-- `kfork` by a process with `files` open files. -/
def kfork (files : Nat) : K Int := do
  let p ← curproc
  match ← allocproc with
  | none => pure (-1)
  | some np => do
      release (.proc np)
      let m ← get
      let ok ← uvmcopy (m.world.table p).pagetable (m.world.table np).pagetable
        (m.world.table p).sz
      if ok then do
        modify fun m => m.setProc np fun q => { q with sz := (m.world.table p).sz }
        acquire (.proc np)
        (List.range files).forM fun _ => ftableCall
        fsCall
        let m ← get
        release (.proc np)
        acquire .wait
        modify fun m => m.setProc np fun q => { q with parent := some p }
        release .wait
        acquire (.proc np)
        modify fun m => m.setProc np fun q => { q with state := .RUNNABLE }
        setBuilding none
        release (.proc np)
        pure (m.world.table np).pid
      else do
        giveUp np
        setBuilding none
        pure (-1)

/-- `kwait` from `freeproc` on. -/
def reap (pp : Slot) : K Unit := do
  freeproc pp
  release (.proc pp)
  release .wait

/-- `kwait`'s scan.  It ends with whether there are children, or with `kwait`'s
result and the locks dropped. -/
def waitScan (p : Slot) (addr : Nat) : List Slot → Bool → K (Bool ⊕ Int)
  | [], havekids => pure (.inl havekids)
  | pp :: rest, havekids => do
      let m ← get
      if (m.world.table pp).parent = some p then do
        acquire (.proc pp)
        let m ← get
        if (m.world.table pp).state = .ZOMBIE then do
          let ok ← (if addr ≠ 0 then copyout (m.world.table p).pagetable addr 4 else pure true)
          if ok then do
            reap pp
            pure (.inr (m.world.table pp).pid)
          else do
            release (.proc pp)
            release .wait
            pure (.inr (-1))
        else do
          release (.proc pp)
          waitScan p addr rest true
      else waitScan p addr rest havekids

/-- One round of `kwait`. -/
def waitRound (p : Slot) (addr : Nat) (_ : Unit) : K (Unit ⊕ Int) := do
  match ← waitScan p addr (List.finRange NPROC) false with
  | .inr r => pure (.inr r)
  | .inl havekids => do
      let stop ← (if havekids then killed p else pure true)
      if stop then do
        release .wait
        pure (.inr (-1))
      else do
        sleep (.proc p) .wait
        pure (.inl ())

/-- `kwait`. -/
def kwait (addr : Nat) : K Int := do
  let p ← curproc
  acquire .wait
  forever (waitRound p addr) ()

/-- `growproc`. -/
def growproc (n : Int) : K Int := do
  let p ← curproc
  let m ← get
  let q := m.world.table p
  -- `sz + n` in 64 bits
  let newsz := ((q.sz + n) % 2 ^ 64).toNat
  if 0 < n then
    if TRAPFRAME < newsz then pure (-1)
    else do
      let sz ← uvmalloc q.pagetable q.sz newsz true
      if sz = 0 then pure (-1)
      else do
        modify fun m => m.setProc p fun q => { q with sz := sz }
        pure 0
  else do
    let sz ← (if n < 0 then uvmdealloc q.pagetable q.sz newsz else pure q.sz)
    modify fun m => m.setProc p fun q => { q with sz := sz }
    pure 0

end Processes

section Exec

/-- A program header as `kexec` reads it: whether `readi` gets the header, and
how many pages of its segment. -/
structure ProgHeader where
  readable : Bool
  load : Bool
  vaddr : Nat
  filesz : Nat
  memsz : Nat
  write : Bool
  pagesRead : Nat

/-- The loop of `loadseg` at page `i`, with `k` pages to go. -/
def loadsegFrom (root va pagesRead : Nat) : Nat → Nat → K Bool
  | 0, _ => pure true
  | k + 1, i => do
      let pa ← walkaddr root (va + i * PGSIZE)
      if pa = 0 then throw .loadseg
      else do
        fsCall
        if i < pagesRead then loadsegFrom root va pagesRead k (i + 1) else pure false

/-- `loadseg`, whose `sz` is a `uint`. -/
def loadseg (root : Nat) (ph : ProgHeader) : K Bool :=
  loadsegFrom root ph.vaddr ph.pagesRead ((ph.filesz % 2 ^ 32 + PGSIZE - 1) / PGSIZE) 0

/-- `kexec`'s loop over the program headers: the size reached, `none` on a bad
file or without memory. -/
def loadSegments (root : Nat) : List ProgHeader → Nat → K (Option Nat)
  | [], sz => pure (some sz)
  | ph :: rest, sz => do
      fsCall
      if !ph.readable then pure none
      else if !ph.load then loadSegments root rest sz
      else if ph.memsz < ph.filesz then pure none
      -- `ph.vaddr + ph.memsz` overflows
      else if 2 ^ 64 ≤ ph.vaddr + ph.memsz then pure none
      else if ph.vaddr % PGSIZE ≠ 0 then pure none
      else do
        let sz1 ← uvmalloc root sz (ph.vaddr + ph.memsz) ph.write
        if sz1 = 0 then pure none
        else do
          let ok ← loadseg root ph
          if ok then loadSegments root rest sz1 else pure none

/-- Pushing the argument strings, of the lengths given, from the `argc`-th on;
`none` when there are too many or one does not fit. -/
def pushArgs (root stackbase : Nat) : List Nat → Nat → Nat → K (Option Nat)
  | [], _, sp => pure (some sp)
  | len :: rest, argc, sp =>
    if MAXARG ≤ argc then pure none
    else do
      let sp := sp - (len + 1)
      let sp := sp - sp % 16
      if sp < stackbase then pure none
      else do
        let ok ← copyout root sp (len + 1)
        if ok then pushArgs root stackbase rest (argc + 1) sp else pure none

/-- `uvmclear`: take the user bit from the guard page. -/
def uvmclear (root va : Nat) : K Unit := do
  let found ← walk root va false
  if found then
    modify fun m => m.setSpace root fun a =>
      { a with
        leaf := update a.leaf (va / PGSIZE)
          ((a.leaf (va / PGSIZE)).map fun e => { e with user := false }) }
  else throw .uvmclear

/-- `kexec` from the stack on, with the program loaded up to `sz`. -/
def execStack (p : Slot) (root : Nat) (args : List Nat) (sz : Nat) : K (Option Nat) := do
  let sz := PGROUNDUP sz
  let sz1 ← uvmalloc root sz (sz + (USERSTACK + 1) * PGSIZE) true
  if sz1 = 0 then pure none
  else do
    uvmclear root (sz1 - (USERSTACK + 1) * PGSIZE)
    let stackbase := sz1 - USERSTACK * PGSIZE
    match ← pushArgs root stackbase args 0 sz1 with
    | none => pure none
    | some sp => do
        let sp := sp - (args.length + 1) * 8
        let sp := sp - sp % 16
        if sp < stackbase then pure none
        else do
          let ok ← copyout root sp ((args.length + 1) * 8)
          if ok then do
            let m ← get
            let old := (m.world.table p).pagetable
            modify fun m => m.setProc p fun q => { q with pagetable := root, sz := sz1 }
            freePagetable old
            pure (some args.length)
          else pure none

/-- `kexec` of a file with these program headers (`none`: no such file, or not
an executable) and arguments of these lengths. -/
def kexec (file : Option (List ProgHeader)) (args : List Nat) : K Int := do
  let p ← curproc
  fsCall
  match file with
  | none => do
      fsCall
      pure (-1)
  | some headers => do
      let root ← procPagetable p
      if root = 0 then do
        fsCall
        pure (-1)
      else do
        match ← loadSegments root headers 0 with
        | none => do
            freePagetable root
            fsCall
            pure (-1)
        | some sz => do
            fsCall
            match ← execStack p root args sz with
            | none => do
                freePagetable root
                pure (-1)
            | some argc => pure argc

/-- `fetchaddr`. -/
def fetchaddr (addr : Nat) : K Bool := do
  let p ← curproc
  let m ← get
  let q := m.world.table p
  if q.sz ≤ addr ∨ q.sz < addr + 8 then pure false else copyin q.pagetable addr 8

/-- `sys_exec`'s loop at argument `i`, with what `fetchstr` makes of the
remaining ones (`none`: it fails); the pages allocated so far are `got`.  The
pointer after the last one is null. -/
def fetchArgs (uargv : Nat) : List (Option Nat) → Nat → List Nat → K (Bool × List Nat)
  | rest, i, got =>
    if MAXARG ≤ i then pure (false, got)
    else do
      let ok ← fetchaddr (uargv + 8 * i)
      if ok then
        match rest with
        | [] => pure (true, got)
        | arg :: rest => do
            let page ← kalloc
            if page = 0 then pure (false, got)
            else
              match arg with
              | none => pure (false, got ++ [page])
              | some _ => fetchArgs uargv rest (i + 1) (got ++ [page])
      else pure (false, got)
termination_by rest => rest.length

/-- `sys_exec`. -/
def sysExec (uargv : Nat) (file : Option (List ProgHeader)) (args : List (Option Nat)) :
    K Int := do
  let (ok, got) ← fetchArgs uargv args 0 []
  let ret ← (if ok then kexec file (args.filterMap id) else pure (-1))
  got.forM kfree
  pure ret

end Exec

section Files

/-- `&pi->nread`, `&pi->nwrite` and `&cons.r` as channels. -/
def readChan : Chan := .other 0
@[inherit_doc readChan] def writeChan : Chan := .other 1
@[inherit_doc readChan] def consChan : Chan := .other 2

/-- `pipealloc` with this many entries left in the file table. -/
def pipealloc (entries : Nat) : K Bool := do
  ftableCall
  when (1 ≤ entries) ftableCall
  if entries < 2 then do
    when (1 ≤ entries) ftableCall
    pure false
  else do
    let pi ← kalloc
    if pi = 0 then do
      ftableCall
      ftableCall
      pure false
    else pure true

/-- One round of `pipewrite`'s loop at byte `i`.  It ends with the bytes
written, or with `none` when it has released the lock for the result -1. -/
def pipewriteRound (pr : Slot) (addr n i : Nat) : K (Nat ⊕ Option Nat) :=
  if i < n then do
    let m ← get
    let stop ← (if m.world.pipe.readopen then killed pr else pure true)
    if stop then do
      release .pipe
      pure (.inr none)
    else do
      let m ← get
      if m.world.pipe.nwrite = m.world.pipe.nread + PIPESIZE then do
        wakeup readChan
        sleep writeChan .pipe
        pure (.inl i)
      else do
        let ok ← copyin (m.world.table pr).pagetable (addr + i) 1
        if ok then do
          modify fun m =>
            { m with world := { m.world with
              pipe := { m.world.pipe with nwrite := m.world.pipe.nwrite + 1 } } }
          pure (.inl (i + 1))
        else pure (.inr (some i))
  else pure (.inr (some i))

/-- `pipewrite`. -/
def pipewrite (addr n : Nat) : K Int := do
  let pr ← curproc
  acquire .pipe
  match ← forever (pipewriteRound pr addr n) 0 with
  | none => pure (-1)
  | some i => do
      wakeup readChan
      release .pipe
      pure i

/-- One round of `piperead`'s wait for data; `false` when it has released the
lock for the result -1. -/
def pipeWait (pr : Slot) (_ : Unit) : K (Unit ⊕ Bool) := do
  let m ← get
  if m.world.pipe.nread = m.world.pipe.nwrite ∧ m.world.pipe.writeopen = true then do
    let stop ← killed pr
    if stop then do
      release .pipe
      pure (.inr false)
    else do
      sleep readChan .pipe
      pure (.inl ())
  else pure (.inr true)

/-- `piperead`'s copy loop at byte `i`, with `k` bytes to go. -/
def pipeCopy (pr : Slot) (addr : Nat) : Nat → Nat → K Int
  | 0, i => pure i
  | k + 1, i => do
      let m ← get
      if m.world.pipe.nread = m.world.pipe.nwrite then pure i
      else do
        let ok ← copyout (m.world.table pr).pagetable (addr + i) 1
        if ok then do
          modify fun m =>
            { m with world := { m.world with
              pipe := { m.world.pipe with nread := m.world.pipe.nread + 1 } } }
          pipeCopy pr addr k (i + 1)
        else pure (if i = 0 then -1 else i)

/-- `piperead`. -/
def piperead (addr n : Nat) : K Int := do
  let pr ← curproc
  acquire .pipe
  let ok ← forever (pipeWait pr) ()
  if ok then do
    let i ← pipeCopy pr addr n 0
    wakeup writeChan
    release .pipe
    pure i
  else pure (-1)

/-- One round of `consoleread`'s wait for input; `false` when it has released
the lock for the result -1. -/
def inputWait (_ : Unit) : K (Unit ⊕ Bool) := do
  let m ← get
  if m.world.cons.r = m.world.cons.w then do
    let p ← curproc
    let stop ← killed p
    if stop then do
      release .cons
      pure (.inr false)
    else do
      sleep consChan .cons
      pure (.inl ())
  else pure (.inr true)

/-- `consoleread`'s loop with `n` of `target` bytes to go.  It ends with what
is still to go, or with `none` when the lock is released for the result -1. -/
def consoleFrom (userDst : Bool) (target : Nat) : Nat → Nat → K (Option Nat)
  | 0, _ => pure (some 0)
  | n + 1, dst => do
      let ok ← forever inputWait ()
      if ok then do
        let m ← get
        let c := m.world.cons.buf (m.world.cons.r % INPUT_BUF_SIZE)
        modify fun m =>
          { m with world := { m.world with
            cons := { m.world.cons with r := m.world.cons.r + 1 } } }
        -- end of file is kept for the next call when there is something to return
        if c = 4 then do
          when (n + 1 < target) (modify fun m =>
            { m with world := { m.world with
              cons := { m.world.cons with r := m.world.cons.r - 1 } } })
          pure (some (n + 1))
        else do
          let copied ← eitherCopyout userDst dst 1
          if copied then
            if c = 10 then pure (some n) else consoleFrom userDst target n (dst + 1)
          else pure (some (n + 1))
      else pure none

/-- `consoleread`. -/
def consoleread (userDst : Bool) (dst n : Nat) : K Int := do
  acquire .cons
  match ← consoleFrom userDst n n dst with
  | none => pure (-1)
  | some left => do
      release .cons
      pure (n - left)

/-- `consolewrite`'s loop at byte `i`, for `k` batches; `uartwrite` takes and
drops its own lock. -/
def consolewriteFrom (userSrc : Bool) (src n : Nat) : Nat → Nat → K Int
  | 0, i => pure i
  | k + 1, i =>
    if i < n then do
      let nn := min 32 (n - i)
      let ok ← eitherCopyin userSrc (src + i) nn
      if ok then do
        fsCall
        consolewriteFrom userSrc src n k (i + nn)
      else pure i
    else pure i

/-- `consolewrite`. -/
def consolewrite (userSrc : Bool) (src n : Nat) : K Int := consolewriteFrom userSrc src n n 0

end Files

end Thread

end Kus
