import Mathlib.Logic.Function.Basic
import Libsax.Lib.Census
import Libsax.Lib.Run

/-! The spinning read-write lock, one atomic access at a time: readers count
themselves in and undo it when they meet a writer, writers swap a flag into an
empty semaphore word and announce themselves while they wait. -/
namespace Libsax.Sync.SpinRw

open Libsax.Lib

/-- The shared words. `prefer_writer` is never written after `g_spin_rw_init`. -/
structure Lock where
  sem : UInt32
  w : UInt32
  preferWriter : Bool
deriving DecidableEq, Repr

def writerFlag : UInt32 := 0x40000000

inductive Role where
  | reader
  | writer
deriving DecidableEq, Repr

/-- How long an enter operation keeps trying: `g_spin_lockr` and `g_spin_lockw`
for ever, the `try` operations once when `sec <= 0` and else until a deadline. -/
inductive Patience where
  | forever
  | once
  | limited
deriving DecidableEq, Repr

/-- A running enter operation. -/
structure Call where
  role : Role
  patience : Patience
  spin : Int
deriving DecidableEq, Repr

/-- Where in the operation a `TRYLOCK` stands: in front, in the `while`
condition, or in the `SPIN` macro in the round of `n` pauses. -/
inductive Site where
  | first
  | head
  | spinning (n : Nat)
deriving DecidableEq, Repr

/-- The atomic accesses of one `TRYLOCK`: `SPIN_WRITER_TRYLOCK` tests the word
and swaps it, `SPIN_READER_TRYLOCK` tests `w`, tests the flag, adds one and
takes it back when the flag was up. -/
inductive Access where
  | testSem
  | swap
  | testW
  | testFlag
  | add
  | undo
deriving DecidableEq, Repr

inductive Party where
  | idle
  | trying (call : Call) (site : Site) (access : Access)
  | announce (call : Call)
  | clock (call : Call)
  | retract (call : Call) (got : Bool)
  | holding (role : Role)
deriving DecidableEq, Repr

/-- The first access of a `TRYLOCK`. -/
def attempt (call : Call) (site : Site) : Party :=
  match call.role with
  | .reader => .trying call site .testW
  | .writer => .trying call site .testSem

/-- Where an enter operation begins; `g_spin_lockr` has no `TRYLOCK` in front
of its loop. -/
def enter (call : Call) : Party :=
  match call.role, call.patience with
  | .reader, .forever => attempt call .head
  | _, _ => attempt call .first

/-- Out of the loop: a writer takes its announcement back first. -/
def leaveLoop (call : Call) (got : Bool) : Party :=
  match call.role with
  | .writer => .retract call got
  | .reader => if got then .holding .reader else .idle

/-- Behind a `TRYLOCK` that gave 1. -/
def passed (call : Call) (site : Site) : Party :=
  match site with
  | .first => .holding call.role
  | _ => leaveLoop call true

/-- Behind a `TRYLOCK` that gave 0. -/
def failed (call : Call) (site : Site) : Party :=
  match site with
  | .first =>
    if call.patience = .once then .idle
    else
      match call.role with
      | .writer => .announce call
      | .reader => attempt call .head
  | .head => attempt call (.spinning 1)
  | .spinning n =>
    if ((2 * n : Nat) : Int) < call.spin then attempt call (.spinning (2 * n))
    else if call.patience = .limited then .clock call
    else attempt call .head

def access (lock : Lock) (call : Call) (site : Site) : Access → Lock × Party
  | .testSem => (lock, if lock.sem = 0 then .trying call site .swap else failed call site)
  | .swap =>
    if lock.sem = 0 then ({ lock with sem := writerFlag }, passed call site)
    else (lock, failed call site)
  | .testW => (lock, if lock.w = 0 then .trying call site .testFlag else failed call site)
  | .testFlag =>
    (lock, if lock.sem &&& writerFlag = 0 then .trying call site .add else failed call site)
  | .add =>
    ({ lock with sem := lock.sem + 1 },
      if lock.sem &&& writerFlag ≠ 0 then .trying call site .undo else passed call site)
  | .undo => ({ lock with sem := lock.sem - 1 }, failed call site)

/-- The next step of a party inside an operation; `late` is what the clock says
where the operation looks at it. -/
def advance (lock : Lock) (late : Bool) : Party → Option (Lock × Party)
  | .trying call site point => some (access lock call site point)
  | .announce call =>
    some (if lock.preferWriter then { lock with w := lock.w + 1 } else lock, attempt call .head)
  | .clock call => some (lock, if late then leaveLoop call false else attempt call .head)
  | .retract call got =>
    some (if lock.preferWriter then { lock with w := lock.w - 1 } else lock,
      if got then .holding call.role else .idle)
  | _ => none

def release (lock : Lock) : Role → Lock
  | .reader => { lock with sem := lock.sem - 1 }
  | .writer => { lock with sem := lock.sem &&& ~~~writerFlag }

structure System where
  lock : Lock
  parties : Nat → Party

def create (preferWriter : Bool) : System where
  lock := ⟨0, 0, preferWriter⟩
  parties := fun _ => .idle

inductive Action where
  | enter (t : Nat) (call : Call)
  | go (t : Nat) (late : Bool)
  | leave (t : Nat)
deriving DecidableEq, Repr

/-- One atomic step of one of `n` parties. -/
def step (n : Nat) (system : System) : Action → Option System
  | .enter t call =>
    if t < n ∧ system.parties t = .idle then
      some { system with parties := Function.update system.parties t (enter call) }
    else none
  | .go t late =>
    if t < n then
      (advance system.lock late (system.parties t)).map fun (lock, party) =>
        ⟨lock, Function.update system.parties t party⟩
    else none
  | .leave t =>
    match system.parties t with
    | .holding role =>
      if t < n then
        some ⟨release system.lock role, Function.update system.parties t .idle⟩
      else none
    | _ => none

end Libsax.Sync.SpinRw
