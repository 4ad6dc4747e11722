import Mathlib.Algebra.Ring.Nat
import Mathlib.Algebra.Ring.Int.Defs
import Libsax.Lib.Ring
import Libsax.Lib.Run

/-! The hierarchical timing wheel of `timer.c`: four levels of 256 list heads,
nodes from an xslab pool, and a poll that cascades and fires one tick at a time.
A poll in progress is a control state, so that a callback may start and cancel
timers between two steps of the loop that is firing it. -/
namespace Libsax.Timer

open Libsax.Lib

/-- Addresses of `timer_node` records: the 1024 list heads behind `lv1`, and
the nodes that `malloc` has handed out so far, numbered in that order. -/
inductive Cell where
  | head (slot : Fin 1024)
  | node (number : Nat)
deriving DecidableEq, Repr

structure Xslab where
  head : Option Cell
  usableAmount : Int32
  shrinkAmount : Int32

/-- `g_timer_t` together with the heap it points into. `serial` and `malloced`
are ghosts: the number of the start that a node belongs to, and the number of
nodes obtained from `malloc`. -/
structure Wheel where
  links : Links Cell
  expire : Cell → UInt32
  userData : Cell → Nat
  last : UInt32
  count : UInt32
  pool : Xslab
  serial : Cell → Nat
  malloced : Nat

/-- `g_xslab_alloc`: the free list is threaded through the first word of its
blocks, which is `next` of a node. `memory` tells whether `malloc` succeeds.
The outer `none` is a null dereference. -/
def xslabAlloc (timer : Wheel) (memory : Bool) : Option (Wheel × Option Cell) :=
  if timer.pool.usableAmount > 0 then do
    let ptr ← timer.pool.head
    let pool := { timer.pool with
      head := timer.links.next ptr
      usableAmount := timer.pool.usableAmount - 1 }
    return ({ timer with pool := pool }, some ptr)
  else if memory then
    some ({ timer with malloced := timer.malloced + 1 }, some (.node timer.malloced))
  else some (timer, none)

def xslabFree (timer : Wheel) (ptr : Cell) : Wheel :=
  if timer.pool.shrinkAmount = 0 then
    { timer with
      links := timer.links.setNext ptr timer.pool.head
      pool := { timer.pool with
        head := some ptr
        usableAmount := timer.pool.usableAmount + 1 } }
  else
    { timer with pool := { timer.pool with shrinkAmount := timer.pool.shrinkAmount - 1 } }

/-- The levels of 256 lists each follow each other in memory. -/
def lv (level index : Nat) : Fin 1024 := Fin.ofNat 1024 (256 * level + index)

def slot (level : Nat) (expire : UInt32) : Fin 1024 :=
  lv level ((expire >>> (8 * UInt32.ofNat level)) &&& 0xFF).toNat

def listHead (expire delayTicks : UInt32) : Fin 1024 :=
  if delayTicks ≤ 0xFFFF then
    if delayTicks > 0xFF then slot 1 expire else slot 0 expire
  else if delayTicks ≤ 0xFFFFFF then slot 2 expire else slot 3 expire

def schedule (timer : Wheel) (node : Cell) (delayTicks : UInt32) : Option Wheel := do
  let links ← timer.links.insertAfter (.head (listHead (timer.expire node) delayTicks)) node
  return { timer with links := links }

/-- The loop of `reschedule`. A list holds at most all nodes ever allocated, so
their number bounds the iterations. -/
def rescheduleLoop (head : Fin 1024) (now : UInt32) : Nat → Wheel → Cell → Option Wheel
  | 0, _, _ => none
  | fuel + 1, timer, node =>
    if node = .head head then some timer
    else do
      let tmp ← timer.links.next node
      let timer ← schedule timer node (timer.expire node - now)
      rescheduleLoop head now fuel timer tmp

def reschedule (timer : Wheel) (head : Fin 1024) (now : UInt32) : Option Wheel := do
  let node ← timer.links.next (.head head)
  let timer ← rescheduleLoop head now (timer.malloced + 1) timer node
  return { timer with links := timer.links.reset (.head head) }

/-- One round of the loop in `g_timer_poll` up to the call of `fire`: advance
the current tick, cascade what has come due, and name the list to fire. -/
def tick (timer : Wheel) : Option (Wheel × Fin 1024) := do
  let last := timer.last + 1
  let timer := { timer with last := last }
  if last &&& 0xFF ≠ 0 then
    return (timer, slot 0 last)
  else if last &&& 0xFFFF ≠ 0 then
    let timer ← reschedule timer (slot 1 last) last
    return (timer, slot 0 0)
  else if last &&& 0xFFFFFF ≠ 0 then
    let timer ← reschedule timer (slot 2 last) last
    let timer ← reschedule timer (slot 1 0) last
    return (timer, slot 0 0)
  else
    let timer ← reschedule timer (slot 3 last) last
    let timer ← reschedule timer (slot 2 0) last
    let timer ← reschedule timer (slot 1 0) last
    return (timer, slot 0 0)

/-- `g_timer_create2`; the fields of unused nodes are unspecified. -/
def gTimerCreate2 (now : UInt32) : Wheel where
  links := ⟨fun cell => some cell, fun cell => some cell⟩
  expire := fun _ => 0
  userData := fun _ => 0
  last := now
  count := 0
  pool := ⟨none, 0, 0⟩
  serial := fun _ => 0
  malloced := 0

/-- `serial` only numbers the call for the ghost record. -/
def gTimerStart (timer : Wheel) (delayTicks : UInt32) (userData serial : Nat) (memory : Bool) :
    Option (Wheel × Option Cell) := do
  match ← xslabAlloc timer memory with
  | (timer, none) => return (timer, none)
  | (timer, some node) =>
    let timer := { timer with
      userData := Function.update timer.userData node userData
      expire := Function.update timer.expire node (timer.last + delayTicks)
      serial := Function.update timer.serial node serial }
    let timer ← schedule timer node delayTicks
    return ({ timer with count := timer.count + 1 }, some node)

/-- The result is the returned number and, if it is zero, `*user_data`. -/
def gTimerCancel (timer : Wheel) (node : Cell) : Option (Wheel × Option Nat) :=
  if timer.links.prev node = none then some (timer, none)
  else do
    let links ← timer.links.remove node
    let removed := { timer with count := timer.count - 1, links := links }
    return (xslabFree removed node, some (timer.userData node))

/-- One list of `g_timer_destroy`: every node is handed to the free function
and back to the pool. -/
def destroyLoop (head : Fin 1024) : Nat → Wheel → Cell → Option (Wheel × List Cell)
  | 0, _, _ => none
  | fuel + 1, timer, node =>
    if node = .head head then some (timer, [])
    else do
      let tmp ← timer.links.next node
      let (timer, freed) ← destroyLoop head fuel (xslabFree timer node) tmp
      return (timer, node :: freed)

def destroyLists (timer : Wheel) : List (Fin 1024) → Option (Wheel × List Cell)
  | [] => some (timer, [])
  | head :: rest => do
    let node ← timer.links.next (.head head)
    let (timer, first) ← destroyLoop head (timer.malloced + 1) timer node
    let (timer, others) ← destroyLists timer rest
    return (timer, first ++ others)

/-- The nodes handed to the free function, in order. -/
def gTimerDestroy (timer : Wheel) : Option (Wheel × List Cell) :=
  destroyLists timer (List.finRange 1024)

def gTimerCount (timer : Wheel) : UInt32 := timer.count

inductive Control where
  /-- no poll is running -/
  | idle
  /-- inside `g_timer_poll`, between two ticks -/
  | polling (lapsedTicks : UInt32)
  /-- inside `fire`, about to look at the front of the list -/
  | firing (lapsedTicks : UInt32) (head : Fin 1024)
  /-- inside the callback of a node that `fire` has just removed -/
  | callback (lapsedTicks : UInt32) (head : Fin 1024) (node : Cell)
  | destroyed
deriving DecidableEq

inductive Outcome where
  | fired
  | cancelled
  | freed
deriving DecidableEq, Repr

/-- Ghost record of a successful start; its serial number is its position. -/
structure Started where
  ticks : Nat
  delayTicks : UInt32
  userData : Nat

/-- Ghost record of the end of a timer and of the user data handed out. -/
structure Ended where
  serial : Nat
  outcome : Outcome
  ticks : Nat
  userData : Nat
deriving DecidableEq, Repr

/-- `ticks` counts the ticks of the wheel without wrapping around. -/
structure System where
  timer : Wheel
  control : Control
  ticks : Nat
  started : List Started
  ended : List Ended

inductive Action where
  | start (delayTicks : UInt32) (userData : Nat) (memory : Bool)
  | cancel (node : Cell)
  | poll (lapsedTicks : UInt32)
  /-- the running poll goes on: the next tick, the next node, or the return of a callback -/
  | advance
  | destroy

/-- Starts and cancels come from the top level or from inside a callback. -/
def Control.calls : Control → Bool
  | .idle => true
  | .callback .. => true
  | _ => false

def System.start (system : System) (delayTicks : UInt32) (userData : Nat) (memory : Bool) :
    Option System :=
  if system.control.calls then do
    match ← gTimerStart system.timer delayTicks userData system.started.length memory with
    | (timer, none) => return { system with timer := timer }
    | (timer, some _) => return { system with
        timer := timer
        started := system.started ++ [⟨system.ticks, delayTicks, userData⟩] }
  else none

/-- A handle is the address of some node that the pool has owned. -/
def System.cancel (system : System) (node : Cell) : Option System :=
  match node with
  | .head _ => none
  | .node number =>
    if system.control.calls && number < system.timer.malloced then do
      match ← gTimerCancel system.timer node with
      | (timer, none) => return { system with timer := timer }
      | (timer, some userData) => return { system with
          timer := timer
          ended := system.ended ++
            [⟨system.timer.serial node, .cancelled, system.ticks, userData⟩] }
    else none

def System.poll (system : System) (lapsedTicks : UInt32) : Option System :=
  if system.control = .idle then some { system with control := .polling lapsedTicks } else none

def System.advance (system : System) : Option System :=
  match system.control with
  | .polling lapsedTicks =>
    if lapsedTicks = 0 then some { system with control := .idle }
    else do
      let (timer, head) ← tick system.timer
      return { system with
        timer := timer
        ticks := system.ticks + 1
        control := .firing (lapsedTicks - 1) head }
  | .firing lapsedTicks head => do
    let node ← system.timer.links.next (.head head)
    if node = .head head then
      return { system with control := .polling lapsedTicks }
    else
      let timer := { system.timer with count := system.timer.count - 1 }
      let links ← timer.links.remove node
      return { system with
        timer := { timer with links := links }
        control := .callback lapsedTicks head node
        ended := system.ended ++
          [⟨timer.serial node, .fired, system.ticks, timer.userData node⟩] }
  | .callback lapsedTicks head node => some
      { system with
        timer := xslabFree system.timer node
        control := .firing lapsedTicks head }
  | _ => none

def System.destroy (system : System) : Option System :=
  if system.control = .idle then do
    let (timer, freed) ← gTimerDestroy system.timer
    return { system with
      timer := timer
      control := .destroyed
      ended := system.ended ++ freed.map fun node =>
        ⟨system.timer.serial node, .freed, system.ticks, system.timer.userData node⟩ }
  else none

def step (system : System) : Action → Option System
  | .start delayTicks userData memory => system.start delayTicks userData memory
  | .cancel node => system.cancel node
  | .poll lapsedTicks => system.poll lapsedTicks
  | .advance => system.advance
  | .destroy => system.destroy

def create (now : UInt32) : System where
  timer := gTimerCreate2 now
  control := .idle
  ticks := now.toNat
  started := []
  ended := []

end Libsax.Timer
