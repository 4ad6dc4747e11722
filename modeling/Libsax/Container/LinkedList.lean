import Libsax.Lib.Line
import Libsax.Lib.Run

/-! `linkedlist`: the algorithms of a list that is threaded through its own
members, which the client allocates. A pointer is an `Option`, `none` is `NULL`. -/
namespace Libsax.Container

open Libsax.Lib

structure LinkedList (α : Type) where
  head : Option α
  tail : Option α
deriving DecidableEq, Repr

namespace LinkedList

variable {α : Type}

def reset : LinkedList α := ⟨none, none⟩

def empty (list : LinkedList α) : Bool := !(list.head.isSome && list.tail.isSome)

/-- The loop of `merge`, which looks for the last node of a chain. -/
def lastOf (links : Links α) : Nat → α → Option α
  | 0, _ => none
  | fuel + 1, tail =>
    match links.next tail with
    | none => some tail
    | some next => lastOf links fuel next

section Members

variable [DecidableEq α]

def pushBack (list : LinkedList α) (links : Links α) : Option α → LinkedList α × Links α
  | none => (list, links)
  | some node =>
    let links := links.setPrev node list.tail
    let links := links.setNext node none
    match list.tail with
    | none => (⟨some node, some node⟩, links)
    | some tail => (⟨list.head, some node⟩, links.setNext tail (some node))

def pushFront (list : LinkedList α) (links : Links α) : Option α → LinkedList α × Links α
  | none => (list, links)
  | some node =>
    let links := links.setPrev node none
    let links := links.setNext node list.head
    match list.head with
    | none => (⟨some node, some node⟩, links)
    | some head => (⟨some node, list.tail⟩, links.setPrev head (some node))

/-- The outer `none` is a null dereference. -/
def popBack (list : LinkedList α) (links : Links α) :
    Option (LinkedList α × Links α × Option α) :=
  match list.tail with
  | none => some (list, links, none)
  | some node =>
    if list.head ≠ list.tail then
      match links.prev node with
      | none => none
      | some before =>
        let links := links.setNext before none
        some (⟨list.head, links.prev node⟩, links, some node)
    else some (⟨none, none⟩, links, some node)

def popFront (list : LinkedList α) (links : Links α) :
    Option (LinkedList α × Links α × Option α) :=
  match list.head with
  | none => some (list, links, none)
  | some node =>
    if list.head ≠ list.tail then
      match links.next node with
      | none => none
      | some after =>
        let links := links.setPrev after none
        some (⟨links.next node, list.tail⟩, links, some node)
    else some (⟨none, none⟩, links, some node)

/-- The node keeps its own links. -/
def erase (list : LinkedList α) (links : Links α) : Option α → LinkedList α × Links α
  | none => (list, links)
  | some node =>
    let head := if some node = list.head then links.next node else list.head
    let tail := if some node = list.tail then links.prev node else list.tail
    let links := links.patchNext (links.prev node) (links.next node)
    let links := links.patchPrev (links.next node) (links.prev node)
    (⟨head, tail⟩, links)

/-- The branch of `splice` that puts a node in front of another. -/
def spliceBefore (list : LinkedList α) (links : Links α) (place node : α) :
    LinkedList α × Links α :=
  if links.prev place = some node then (list, links)
  else
    let (list, links) := list.erase links (some node)
    let links := links.patchNext (links.prev place) (some node)
    let links := links.setPrev node (links.prev place)
    let links := links.setNext node (some place)
    let links := links.setPrev place (some node)
    (⟨if some place = list.head then some node else list.head, list.tail⟩, links)

/-- The other branch, the mirror image. -/
def spliceAfter (list : LinkedList α) (links : Links α) (place node : α) :
    LinkedList α × Links α :=
  if links.next place = some node then (list, links)
  else
    let (list, links) := list.erase links (some node)
    let links := links.patchPrev (links.next place) (some node)
    let links := links.setNext node (links.next place)
    let links := links.setPrev node (some place)
    let links := links.setNext place (some node)
    (⟨list.head, if some place = list.tail then some node else list.tail⟩, links)

def splice (list : LinkedList α) (links : Links α) (before : Bool) (place node : Option α) :
    LinkedList α × Links α :=
  if list.empty then (list, links)
  else
    match place, node with
    | some place, some node =>
      if place = node then (list, links)
      else if before then list.spliceBefore links place node
      else list.spliceAfter links place node
    | _, _ => (list, links)

/-- `merge(const linkedlist<NodeT>&)`; `none` is a null dereference. -/
def merge (list : LinkedList α) (links : Links α) (al : LinkedList α) :
    Option (LinkedList α × Links α) :=
  if al.empty then some (list, links)
  else
    match list.tail, al.head with
    | none, _ => some (⟨al.head, al.tail⟩, links)
    | some _, none => none
    | some tail, some first =>
      let links := links.setNext tail (some first)
      some (⟨list.head, al.tail⟩, links.setPrev first (some tail))

/-- `merge(NodeT*)`; `none` is a chain that does not end after `fuel` nodes. -/
def mergeChain (list : LinkedList α) (links : Links α) (fuel : Nat) (head : Option α) :
    Option (LinkedList α × Links α) :=
  match head with
  | none => some (list, links)
  | some first =>
    match lastOf links fuel first with
    | none => none
    | some last =>
      match list.tail with
      | none => some (⟨some first, some last⟩, links.setPrev first none)
      | some tail =>
        let links := links.setNext tail (some first)
        some (⟨list.head, some last⟩, links.setPrev first (some tail))

end Members

structure Holds (list : LinkedList α) (links : Links α) (cells : List α) : Prop where
  head : list.head = cells.head?
  tail : list.tail = cells.getLast?
  line : links.Line none cells none
  nodup : cells.Nodup

structure Chained (links : Links α) (head : Option α) (cells : List α) : Prop where
  head : head = cells.head?
  line : ∃ before, links.Line before cells none
  nodup : cells.Nodup

section Sequences

variable [DecidableEq α]

def insertBefore (place node : α) : List α → List α
  | [] => []
  | cell :: rest =>
    if cell = place then node :: cell :: rest else cell :: insertBefore place node rest

def insertAfter (place node : α) : List α → List α
  | [] => []
  | cell :: rest =>
    if cell = place then cell :: node :: rest else cell :: insertAfter place node rest

/-- What `splice` is for: the node moves next to the place. -/
def move (before : Bool) (place node : Option α) (cells : List α) : List α :=
  match place, node with
  | some place, some node =>
    if place = node then cells
    else if before then insertBefore place node (cells.erase node)
    else insertAfter place node (cells.erase node)
  | _, _ => cells

end Sequences

/-- The cells in a call are the nodes of the other list or of the chain. `client`
is the client, who may write into every node that is not a member. -/
inductive Call (α : Type) where
  | pushBack (node : Option α)
  | pushFront (node : Option α)
  | popBack
  | popFront
  | erase (node : Option α)
  | splice (before : Bool) (place node : Option α)
  | merge (al : LinkedList α) (cells : List α)
  | mergeChain (head : Option α) (cells : List α)
  | client (node : α) (next prev : Option α)
deriving DecidableEq, Repr

/-- The list in its heap beside the sequence, and what the pops of either have
handed out so far. -/
structure System (α : Type) where
  list : LinkedList α
  links : Links α
  cells : List α
  popped : List (Option α × Option α)

def start (links : Links α) : System α := ⟨reset, links, [], []⟩

section Calls

variable [DecidableEq α]

def exec (list : LinkedList α) (links : Links α) :
    Call α → Option (LinkedList α × Links α × Option α)
  | .pushBack node => some ((list.pushBack links node).1, (list.pushBack links node).2, none)
  | .pushFront node => some ((list.pushFront links node).1, (list.pushFront links node).2, none)
  | .popBack => list.popBack links
  | .popFront => list.popFront links
  | .erase node => some ((list.erase links node).1, (list.erase links node).2, none)
  | .splice before place node =>
    some ((list.splice links before place node).1, (list.splice links before place node).2, none)
  | .merge al _ => (list.merge links al).map fun (list, links) => (list, links, none)
  | .mergeChain head cells =>
    (list.mergeChain links cells.length head).map fun (list, links) => (list, links, none)
  | .client node next prev => some (list, (links.setNext node next).setPrev node prev, none)

def execSequence (cells : List α) : Call α → List α × Option α
  | .pushBack node => (cells ++ node.toList, none)
  | .pushFront node => (node.toList ++ cells, none)
  | .popBack => (cells.dropLast, cells.getLast?)
  | .popFront => (cells.tail, cells.head?)
  | .erase node => (node.elim cells cells.erase, none)
  | .splice before place node => (move before place node cells, none)
  | .merge _ more => (cells ++ more, none)
  | .mergeChain _ more => (cells ++ more, none)
  | .client _ _ _ => (cells, none)

/-- `none` is a null dereference, or a loop that does not end. -/
def step (system : System α) (call : Call α) : Option (System α) :=
  (exec system.list system.links call).map fun (list, links, node) =>
    let (cells, other) := execSequence system.cells call
    ⟨list, links, cells, system.popped ++ [(node, other)]⟩

/-- Nodes are pushed that are not members; members are erased and moved; and what
is merged is in order and has no member. -/
def Allowed (system : System α) : Call α → Prop
  | .pushBack node => ∀ cell ∈ node, cell ∉ system.cells
  | .pushFront node => ∀ cell ∈ node, cell ∉ system.cells
  | .popBack => True
  | .popFront => True
  | .erase node => ∀ cell ∈ node, cell ∈ system.cells
  | .splice _ place node =>
    (∀ cell ∈ place, cell ∈ system.cells) ∧ ∀ cell ∈ node, cell ∈ system.cells
  | .merge al cells => al.Holds system.links cells ∧ system.cells.Disjoint cells
  | .mergeChain head cells => Chained system.links head cells ∧ system.cells.Disjoint cells
  | .client node _ _ => node ∉ system.cells

end Calls

/-- Both traversals show the sequence, and an empty list has no ends. -/
structure Sound (system : System α) : Prop where
  forward : ∀ fuel ≥ system.cells.length,
    Links.follow system.links.next fuel system.list.head = some system.cells
  backward : ∀ fuel ≥ system.cells.length,
    Links.follow system.links.prev fuel system.list.tail = some system.cells.reverse
  head : system.list.head = none ↔ system.cells = []
  tail : system.list.tail = none ↔ system.cells = []
  popped : ∀ pair ∈ system.popped, pair.1 = pair.2

end LinkedList

end Libsax.Container
