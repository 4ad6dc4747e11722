import Mathlib.Logic.Function.Basic
import Libsax.Lib.Run

/-! `log_file_writer`: lines go to the end of one file, which is renamed to
`name.1` when it has grown enough, the older ones making room up to `name.max`. -/
namespace Libsax.Logger

open Libsax.Lib

abbrev Bytes := List UInt8

abbrev Files := String → Option Bytes

/-- Which opens and renames the operating system lets through. -/
structure Host where
  opens : String → Bool
  renames : String → String → Bool

/-- What `_curr_logfile` points to; `stream` is `stdout` or `stderr`. -/
inductive Handle where
  | null
  | stream
  | file (path : String)
deriving DecidableEq, Repr

structure LogFileWriter where
  maxLogfiles : Nat
  sizePerLogfile : UInt64
  logfileName : String
  currLogfiles : Nat
  currSize : UInt64
  currLogfile : Handle

/-- A writer in its surroundings: the files and what went to the streams. -/
structure State where
  writer : LogFileWriter
  files : Files
  console : Bytes

def numbered (name : String) (i : Nat) : String := name ++ "." ++ Nat.repr i

def remove (files : Files) (path : String) : Files := Function.update files path none

def rename (host : Host) (files : Files) (source target : String) : Files :=
  match files source with
  | none => files
  | some content =>
    if host.renames source target then
      Function.update (Function.update files source none) target (some content)
    else files

/-- Opened for appending, a file that is not there is created. -/
def fopen (host : Host) (files : Files) (path : String) : Option (Files × Bytes) :=
  if host.opens path then
    some (Function.update files path (some ((files path).getD [])), (files path).getD [])
  else none

/-- Names that stand for no file. -/
def isStream (name : String) : Bool := name == "stderr" || name == "stdout"

/-- `none` is the failed assertion of an empty name. -/
def openFile (host : Host) (s : State) : Option State :=
  if s.writer.logfileName = "" then none
  else if isStream s.writer.logfileName then
    some { s with writer := { s.writer with currLogfile := .stream, currSize := 0 } }
  else
    match fopen host s.files s.writer.logfileName with
    | none => some { s with writer := { s.writer with currLogfile := .stream, currSize := 0 } }
    | some (files, content) => some { s with
        files := files
        writer := { s.writer with
          currLogfile := .file s.writer.logfileName
          currSize := UInt64.ofNat content.length } }

def closeFile (s : State) : State :=
  if s.writer.currLogfile ≠ .null ∧ isStream s.writer.logfileName = false then
    { s with writer := { s.writer with currLogfile := .null } }
  else s

/-- Rename `name.i` to `last`, then `name.(i-1)` to `name.i`, and so on; returns
the name that has become free. -/
def cascade (host : Host) (name : String) : Nat → Files → String → Files × String
  | 0, files, last => (files, last)
  | i + 1, files, last =>
    cascade host name i (rename host files (numbered name (i + 1)) last) (numbered name (i + 1))

def rotate (host : Host) (s : State) : Option State :=
  let w := s.writer
  if w.currLogfile = .null ∨ isStream w.logfileName then
    some { s with writer := { w with currSize := 0 } }
  else
    let count := if w.currLogfiles < w.maxLogfiles then w.currLogfiles + 1 else w.currLogfiles
    let last := numbered w.logfileName count
    let (files, last) := cascade host w.logfileName (count - 1) (remove s.files last) last
    let s := closeFile { s with files := files, writer := { w with currLogfiles := count } }
    openFile host { s with files := rename host s.files w.logfileName last }

def fwrite (s : State) (line : Bytes) : State :=
  match s.writer.currLogfile with
  | .null => s
  | .stream => { s with console := s.console ++ line }
  | .file path =>
    { s with files := Function.update s.files path ((s.files path).map fun content =>
        content ++ line) }

def log (host : Host) (s : State) (line : Bytes) : Option State :=
  let s := fwrite s line
  let size := s.writer.currSize + UInt64.ofNat line.length
  let s := { s with writer := { s.writer with currSize := size } }
  if size ≥ s.writer.sizePerLogfile then rotate host s else some s

/-- `for (i = 1; i < max; i++)` up to the first name that is free. -/
def scan (taken : Nat → Bool) : Nat → Nat → Nat
  | 0, i => i
  | fuel + 1, i => if taken i then scan taken fuel (i + 1) else i

def construct (host : Host) (files : Files) (console : Bytes) (name : String)
    (maxLogfiles : Nat) (sizePerLogfile : UInt64) : Option State :=
  let count :=
    if isStream name then 0
    else scan (fun i => (files (numbered name i)).isSome) (maxLogfiles - 1) 1 - 1
  openFile host ⟨⟨maxLogfiles, sizePerLogfile, name, count, 0, .null⟩, files, console⟩

/-- The destructor, and a new writer with the same settings. -/
def restart (host : Host) (s : State) : Option State :=
  let s := closeFile s
  construct host s.files s.console s.writer.logfileName s.writer.maxLogfiles
    s.writer.sizePerLogfile

/-- Whole files: the dropped ones with the oldest first, the rotated ones with
the newest first, and the one that is written. -/
structure Archive where
  dropped : List Bytes
  rotated : List Bytes
  current : Bytes

/-- A file that has reached its size goes in front of the rotated ones, of which
there may be only so many. -/
def Archive.log (maxLogfiles : Nat) (sizePerLogfile : UInt64) (a : Archive) (line : Bytes) :
    Archive :=
  let current := a.current ++ line
  if UInt64.ofNat current.length ≥ sizePerLogfile then
    { dropped := a.dropped ++ ((current :: a.rotated).drop maxLogfiles).reverse
      rotated := (current :: a.rotated).take maxLogfiles
      current := [] }
  else { a with current := current }

/-- The bytes of `name.count` down to `name.1` and then of `name`. -/
def concatenated (files : Files) (name : String) : Nat → Bytes
  | 0 => (files name).getD []
  | count + 1 => (files (numbered name (count + 1))).getD [] ++ concatenated files name count

/-- The rotated files are `name.1` to `name.count`. -/
def Contiguous (files : Files) (name : String) (count : Nat) : Prop :=
  ∀ i, (files (numbered name (i + 1))).isSome ↔ i < count

/-- The archive that a directory starts with. -/
def archived (files : Files) (name : String) (count : Nat) : Archive where
  dropped := []
  rotated := (List.range count).map fun i => (files (numbered name (i + 1))).getD []
  current := (files name).getD []

/-- A writer with the archive, and every byte that was ever logged. -/
structure System where
  state : State
  archive : Archive
  logged : Bytes

inductive Action where
  | log (line : Bytes)
  | restart
deriving DecidableEq, Repr

def step (host : Host) (system : System) : Action → Option System
  | .log line => do
    let state ← log host system.state line
    let w := system.state.writer
    return ⟨state, system.archive.log w.maxLogfiles w.sizePerLogfile line,
      system.logged ++ line⟩
  | .restart => do
    let state ← restart host system.state
    return { system with state := state }

def start (host : Host) (files : Files) (name : String) (count maxLogfiles : Nat)
    (sizePerLogfile : UInt64) : Option System := do
  let state ← construct host files [] name maxLogfiles sizePerLogfile
  return ⟨state, archived files name count, concatenated files name count⟩

/-- What the files are after every action. -/
structure Sound (name : String) (maxLogfiles : Nat) (system : System) : Prop where
  current : system.state.files name = some system.archive.current
  rotated : ∀ i, system.state.files (numbered name (i + 1)) = system.archive.rotated[i]?
  bounded : system.archive.rotated.length ≤ maxLogfiles
  kept : concatenated system.state.files name system.archive.rotated.length <:+ system.logged
  /-- what the files do not hold is in the files dropped -/
  lost : system.archive.dropped.flatten ++
    concatenated system.state.files name system.archive.rotated.length = system.logged

/-- An action appends to the current file, or moves it in front of the rotated
ones; of those only the oldest goes, and only when there is no room. -/
def DropsOldest (maxLogfiles : Nat) (before after : Archive) : Prop :=
  after.rotated = before.rotated ∧ after.dropped = before.dropped ∧
      before.current <+: after.current ∨
    ∃ newest, before.current <+: newest ∧ after.current = [] ∧
      (before.rotated.length < maxLogfiles ∧ after.rotated = newest :: before.rotated ∧
          after.dropped = before.dropped ∨
        ∃ older oldest, before.rotated.length = maxLogfiles ∧
          newest :: before.rotated = older ++ [oldest] ∧ after.rotated = older ∧
          after.dropped = before.dropped ++ [oldest])

end Libsax.Logger
