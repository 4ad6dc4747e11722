import Mathlib.Algebra.Ring.Nat
import Libsax.Lib.Census
import Libsax.Lib.Run
import Libsax.Lib.Window

/-! The bounded queue `fifo`: a circular array with one semaphore that counts
the free slots, one that counts the filled ones, and a lock for each end. -/
namespace Libsax.Sync.Fifo

open Libsax.Lib

variable {T : Type}

structure Queue (T : Type) where
  cap : Nat
  queue : Nat → T
  head : Nat
  tail : Nat
  hsem : Nat
  tsem : Nat

/-- The constructor, on whatever `new T[_cap]` holds. -/
def create (cap : Nat) (queue : Nat → T) : Queue T where
  cap := cap
  queue := queue
  head := 0
  tail := 0
  hsem := 0
  tsem := cap

/-- The statements of `push_back` under `_tlock`. -/
def putTail (q : Queue T) (one : T) : Queue T :=
  { q with
    queue := Function.update q.queue q.tail one
    tail := if q.tail + 1 ≥ q.cap then 0 else q.tail + 1 }

/-- The statements of `pop_front` under `_hlock`. -/
def takeHead (q : Queue T) : Queue T × T :=
  ({ q with head := if q.head + 1 ≥ q.cap then 0 else q.head + 1 }, q.queue q.head)

/-- What a thread does next: behind the wait it owes a locked step, behind the
locked step a post. -/
inductive Party (T : Type) where
  | idle
  | pushing (one : T)
  | pushed
  | popping
  | popped
deriving DecidableEq, Repr

/-- The queue with the values of the locked steps in their order. `unread`
marks the slots whose value no consumer has read yet. -/
structure System (T : Type) where
  queue : Queue T
  parties : Nat → Party T
  pushes : List T
  pops : List T
  unread : Nat → Bool

def start (cap : Nat) (queue : Nat → T) : System T where
  queue := create cap queue
  parties := fun _ => .idle
  pushes := []
  pops := []
  unread := fun _ => false

/-- `ok` is what a wait returns: it takes a unit, or times out. -/
inductive Action (T : Type) where
  | pushWait (t : Nat) (one : T) (ok : Bool)
  | pushLocked (t : Nat)
  | pushPost (t : Nat)
  | popWait (t : Nat) (ok : Bool)
  | popLocked (t : Nat)
  | popPost (t : Nat)
deriving DecidableEq, Repr

def System.setParty (system : System T) (t : Nat) (party : Party T) : System T :=
  { system with parties := Function.update system.parties t party }

def pushWait (system : System T) (t : Nat) (one : T) (ok : Bool) : Option (System T) :=
  match system.parties t, ok with
  | .idle, false => some system
  | .idle, true =>
    if 0 < system.queue.tsem then
      some { system.setParty t (.pushing one) with
        queue := { system.queue with tsem := system.queue.tsem - 1 } }
    else none
  | _, _ => none

def pushLocked (system : System T) (t : Nat) : Option (System T) :=
  match system.parties t with
  | .pushing one =>
    some { system.setParty t .pushed with
      queue := putTail system.queue one
      pushes := system.pushes ++ [one]
      unread := Function.update system.unread system.queue.tail true }
  | _ => none

def pushPost (system : System T) (t : Nat) : Option (System T) :=
  match system.parties t with
  | .pushed =>
    some { system.setParty t .idle with
      queue := { system.queue with hsem := system.queue.hsem + 1 } }
  | _ => none

def popWait (system : System T) (t : Nat) (ok : Bool) : Option (System T) :=
  match system.parties t, ok with
  | .idle, false => some system
  | .idle, true =>
    if 0 < system.queue.hsem then
      some { system.setParty t .popping with
        queue := { system.queue with hsem := system.queue.hsem - 1 } }
    else none
  | _, _ => none

def popLocked (system : System T) (t : Nat) : Option (System T) :=
  match system.parties t with
  | .popping =>
    some { system.setParty t .popped with
      queue := (takeHead system.queue).1
      pops := system.pops ++ [(takeHead system.queue).2]
      unread := Function.update system.unread system.queue.head false }
  | _ => none

def popPost (system : System T) (t : Nat) : Option (System T) :=
  match system.parties t with
  | .popped =>
    some { system.setParty t .idle with
      queue := { system.queue with tsem := system.queue.tsem + 1 } }
  | _ => none

def Action.thread : Action T → Nat
  | .pushWait t _ _ => t
  | .pushLocked t => t
  | .pushPost t => t
  | .popWait t _ => t
  | .popLocked t => t
  | .popPost t => t

/-- One atomic step of one of `n` threads. -/
def step (n : Nat) (system : System T) (action : Action T) : Option (System T) :=
  if action.thread < n then
    match action with
    | .pushWait t one ok => pushWait system t one ok
    | .pushLocked t => pushLocked system t
    | .pushPost t => pushPost system t
    | .popWait t ok => popWait system t ok
    | .popLocked t => popLocked system t
    | .popPost t => popPost system t
  else none

/-- What the queue promises its threads. -/
structure Sound (n : Nat) (system : System T) : Prop where
  /-- values come out in the order in which they went in -/
  ordered : system.pops <+: system.pushes
  bounded : system.pushes.length - system.pops.length ≤ system.queue.cap
  /-- the slot that a producer is about to write has been read -/
  safe : ∀ t < n, ∀ one, system.parties t = .pushing one →
    system.unread system.queue.tail = false
  /-- the slot that a consumer is about to read holds a value nobody has read -/
  filled : ∀ t < n, system.parties t = .popping → system.unread system.queue.head = true

end Libsax.Sync.Fifo
