import KusOs.VictimScan

/-!
# The OOM cycle of `coomd`: from the helper's answer to the PASS branch

`main` (`coomd/daemon/main.c`) asks the helper once per cycle, then walks over
the stored PIDs.  For each one it looks up a name to print among the cycle's
candidates, calls `validator_ok` and takes the PASS or the BLOCKED branch.  The
validator (`coomd/daemon/validator.c`) reads `/proc/<pid>/comm` itself, at the
moment it is called; the running processes may differ from one victim to the
next, so the cycle takes a process table for every check.
-/

namespace Coomd

open CString

/-- `proc_candidate_t`, as far as the cycle reads it. -/
structure Candidate where
  pid : Int
  comm : List Byte
  rss_kb : Nat
deriving DecidableEq, Repr

/-- `PROTECTED_NAMES`. -/
def PROTECTED_NAMES : List (List Byte) :=
  [bytes "systemd", bytes "sshd", bytes "dbus-daemon", bytes "init", bytes "coomd"]

/-- The running processes: the `comm` of each PID in use. -/
abbrev ProcTable := Int → Option (List Byte)

/-- The contents of `/proc/<pid>/comm`, if it can be opened. -/
def ProcTable.commFile (procs : ProcTable) (pid : Int) : Option (List Byte) :=
  (procs pid).map fun comm => comm ++ [10]

/-- `validator_ok(pid)` in the process `self`. -/
def validatorOk (self : Int) (procs : ProcTable) (pid : Int) : Bool :=
  if pid ≤ 1 then false
  else if pid = self then false
  else
    match procs.commFile pid with
    | none => true
    | some file =>
      match scanWord15 file with
      | none => true
      | some comm => !PROTECTED_NAMES.contains comm

end Coomd
