import Libsax.Lib.Rearrange

/-! `qsort2`: the quicksort of an array with an explicit stack, which leaves pieces of a few
elements to an insertion sort. An element is at a number of the array; a comparison with a pointer
outside of it, a pointer in front of it and a full stack end the call with `none`. -/
namespace Libsax.Sort

open Libsax.Lib

variable {α : Type}

def maxThresh : Nat := 4

/-- `STACK_SIZE`, for a `size_t` of 8 bytes -/
def stackSize : Nat := 64

/-- A pointer to the element in front. -/
def back : Nat → Option Nat
  | 0 => none
  | ptr + 1 => some ptr

def less (cmp : α → α → Ordering) (list : List α) (a b : Nat) : Option Bool := do
  some (cmp (← list[a]?) (← list[b]?) == .lt)

/-- The three elements are in order then, the middle one is the pivot. -/
def medianOfThree (cmp : α → α → Ordering) (list : List α) (lo mid hi : Nat) : Option (List α) := do
  let list ← if ← less cmp list mid lo then exchange list mid lo else some list
  if ← less cmp list hi mid then do
    let list ← exchange list mid hi
    if ← less cmp list mid lo then exchange list mid lo else some list
  else some list

/-- `while ((*cmp)(left_ptr, mid, user) < 0) left_ptr += size` -/
def scanUp (cmp : α → α → Ordering) (list : List α) (mid : Nat) : Nat → Nat → Option Nat
  | 0, _ => none
  | fuel + 1, left => do
    if ← less cmp list left mid then scanUp cmp list mid fuel (left + 1) else some left

/-- `while ((*cmp)(mid, right_ptr, user) < 0) right_ptr -= size` -/
def scanDown (cmp : α → α → Ordering) (list : List α) (mid : Nat) : Nat → Nat → Option Nat
  | 0, _ => none
  | fuel + 1, right => do
    if ← less cmp list mid right then scanDown cmp list mid fuel (← back right) else some right

/-- The loop that collapses the walls, with where they are in the end. -/
def collapse (cmp : α → α → Ordering) :
    Nat → List α → Nat → Nat → Nat → Option (List α × Nat × Nat)
  | 0, _, _, _, _ => none
  | fuel + 1, list, mid, left, right => do
    let left ← scanUp cmp list mid (list.length + 1) left
    let right ← scanDown cmp list mid (list.length + 1) right
    if left < right then do
      let list ← exchange list left right
      let mid := if mid = left then right else if mid = right then left else mid
      let left := left + 1
      let right ← back right
      if left ≤ right then collapse cmp fuel list mid left right else some (list, left, right)
    else if left = right then do some (list, left + 1, ← back right)
    else some (list, left, right)

/-- One round of the main loop up to where the walls are. -/
def partition (cmp : α → α → Ordering) (list : List α) (lo hi : Nat) :
    Option (List α × Nat × Nat) := do
  let mid := lo + (hi - lo) / 2
  let list ← medianOfThree cmp list lo mid hi
  collapse cmp (list.length + 1) list mid (lo + 1) (← back hi)

/-- `(size_t)(hi - lo) <= max_thresh`: a negative difference is a large number. -/
def small (lo hi : Nat) : Bool := decide (lo ≤ hi ∧ hi - lo ≤ maxThresh)

/-- The main loop. The lowest entry of the stack, with which the loop ends, is not in the list. -/
def mainLoop (cmp : α → α → Ordering) :
    Nat → List α → Nat → Nat → List (Nat × Nat) → Option (List α)
  | 0, _, _, _, _ => none
  | fuel + 1, list, lo, hi, stack => do
    let (list, left, right) ← partition cmp list lo hi
    if small lo right then
      if small left hi then
        match stack with
        | [] => some list
        | (lo, hi) :: stack => mainLoop cmp fuel list lo hi stack
      else mainLoop cmp fuel list left hi stack
    else if small left hi then mainLoop cmp fuel list lo right stack
    -- a further entry is pushed
    else if stack.length + 1 < stackSize then
      if (right : Int) - lo > (hi : Int) - left then
        mainLoop cmp fuel list left hi ((lo, right) :: stack)
      else mainLoop cmp fuel list lo right ((left, hi) :: stack)
    else none

/-- The loop that finds the smallest of the first elements. -/
def smallest (cmp : α → α → Ordering) (list : List α) : Nat → Nat → Nat → Option Nat
  | 0, _, tmp => some tmp
  | count + 1, run, tmp => do
    smallest cmp list count (run + 1) (if ← less cmp list run tmp then run else tmp)

/-- `while ((*cmp)(run_ptr, tmp_ptr, user) < 0) tmp_ptr -= size`, and the place behind. -/
def findPlace (cmp : α → α → Ordering) (list : List α) (run : Nat) : Nat → Nat → Option Nat
  | 0, _ => none
  | fuel + 1, tmp => do
    if ← less cmp list run tmp then findPlace cmp list run fuel (← back tmp) else some (tmp + 1)

/-- The element `run` is moved to `tmp`, those from there on move up. -/
def moveDown (list : List α) (run tmp : Nat) : Option (List α) := do
  let x ← list[run]?
  some ((list.eraseIdx run).insertIdx tmp x)

/-- The insertion sort of so many elements from `run` on. -/
def insertionSort (cmp : α → α → Ordering) : Nat → List α → Nat → Option (List α)
  | 0, list, _ => some list
  | count + 1, list, run => do
    let tmp ← findPlace cmp list run (run + 1) (← back run)
    let list ← if tmp ≠ run then moveDown list run tmp else some list
    insertionSort cmp count list (run + 1)

/-- `qsort2`. No round of the main loop leaves as many elements as there were. -/
def qsort2 (cmp : α → α → Ordering) (list : List α) : Option (List α) :=
  if list.length = 0 then some list
  else do
    let list ←
      if list.length > maxThresh then mainLoop cmp list.length list 0 (list.length - 1) []
      else some list
    let end_ := list.length - 1
    let tmp ← smallest cmp list (min end_ maxThresh) 1 0
    let list ← if tmp ≠ 0 then exchange list tmp 0 else some list
    insertionSort cmp (end_ - 1) list 2

end Libsax.Sort
