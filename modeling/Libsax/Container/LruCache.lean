import Mathlib.Data.List.Sort
import Mathlib.Logic.Function.Basic
import Libsax.Lib.Run

/-! The least-recently-used containers `LRU_map`, `LRU_set` and `LRU_btree`: a
list of entries, most recently used first, and an index from keys into it. They
share their code up to the index type. -/
namespace Libsax.Container.Lru

open Libsax.Lib

variable {K V : Type}

/-- The calls of the virtual members `onPurge` and `onErase`. -/
inductive Event (K V : Type) where
  | purge (key : K) (val : V)
  | erase (key : K) (val : V)
deriving DecidableEq, Repr

/-- List nodes have numbers, which are what iterators hold; `node` is the pair
stored in one. The index is listed in its own order of iteration. -/
structure Cache (K V : Type) where
  dat : List Nat
  node : Nat → K × V
  fresh : Nat
  idx : List (K × Nat)
  cap : Nat

/-- A `const` reference passed in: to an object of the caller's own, or to what `read`
projects from the pair in a node, as `begin()->first` and the result of `find` are. -/
inductive Arg (K V α : Type) where
  | own (x : α)
  | inside (n : Nat) (read : K × V → α)

/-- What the reference reads at the moment. `none` is a node that is gone. -/
def Arg.get {α : Type} (dat : List Nat) (node : Nat → K × V) : Arg K V α → Option α
  | .own x => some x
  | .inside n read => if n ∈ dat then some (read (node n)) else none

/-- Where the three containers differ: how the index files a new key, what
`onErase` is handed, whether `remove` erases its argument from the index (and not an
iterator), and whether keys can be removed by interval. -/
structure Kind (K V : Type) where
  store : K → Nat → List (K × Nat) → List (K × Nat)
  erased : K → K × V → Event K V
  byKey : Bool
  removeRange : Option (Arg K V K → Arg K V K → Cache K V →
    Option (Cache K V × Bool × List (Event K V)))

/-- The constructor, and what `resize` leaves: both indexes are empty. -/
def create (node : Nat → K × V) (cap : Nat) : Cache K V where
  dat := []
  node := node
  fresh := 0
  idx := []
  cap := cap

section Members

variable [DecidableEq K]

def lookup (idx : List (K × Nat)) (key : K) : Option Nat :=
  (idx.find? fun entry => entry.1 = key).map Prod.snd

def eraseKey (idx : List (K × Nat)) (key : K) : List (K × Nat) :=
  idx.filter fun entry => entry.1 ≠ key

def assign (kind : Kind K V) (idx : List (K × Nat)) (key : K) (n : Nat) : List (K × Nat) :=
  kind.store key n (eraseKey idx key)

/-- `_dat.splice(_dat.begin(), _dat, n)`, undefined for an iterator of another
list. -/
def toFront (dat : List Nat) (n : Nat) : Option (List Nat) :=
  if n ∈ dat then some (n :: dat.erase n) else none

def eraseNode (dat : List Nat) (n : Nat) : Option (List Nat) :=
  if n ∈ dat then some (dat.erase n) else none

def Cache.resize (c : Cache K V) (cap : Nat) : Cache K V :=
  { c with dat := [], idx := [], cap := cap }

def Cache.find (c : Cache K V) (key : Arg K V K) : Option (Cache K V × Option V) := do
  let sought ← key.get c.dat c.node
  match lookup c.idx sought with
  | none => return (c, none)
  | some n => do
    let dat ← toFront c.dat n
    let front ← dat.head?
    return ({ c with dat := dat }, some (c.node front).2)

def Cache.insert (kind : Kind K V) (c : Cache K V) (key : Arg K V K) (val : Arg K V V) :
    Option (Cache K V × List (Event K V)) := do
  let sought ← key.get c.dat c.node
  match lookup c.idx sought with
  | some n =>
    let second ← val.get c.dat c.node
    let dat ← toFront c.dat n
    return ({ c with dat := dat, node := Function.update c.node n ((c.node n).1, second) }, [])
  | none =>
    if c.dat.length ≥ c.cap then
      let n ← c.dat.getLast?
      let idx := eraseKey c.idx (c.node n).1
      -- `n->first = key; n->second = val;` while the references may lead into `n`
      let first ← key.get c.dat c.node
      let node := Function.update c.node n (first, (c.node n).2)
      let second ← val.get c.dat node
      let node := Function.update c.node n (first, second)
      let dat ← toFront c.dat n
      let filed ← key.get dat node
      return ({ c with
        dat := dat
        node := node
        idx := assign kind idx filed n }, [.purge (c.node n).1 (c.node n).2])
    else
      let first ← key.get c.dat c.node
      let second ← val.get c.dat c.node
      let dat := c.fresh :: c.dat
      let node := Function.update c.node c.fresh (first, second)
      let filed ← key.get dat node
      return ({ c with
        dat := dat
        node := node
        fresh := c.fresh + 1
        idx := assign kind c.idx filed c.fresh }, [])

def Cache.remove (kind : Kind K V) (c : Cache K V) (key : Arg K V K) :
    Option (Cache K V × Bool × List (Event K V)) := do
  let sought ← key.get c.dat c.node
  match lookup c.idx sought with
  | none => return (c, false, [])
  | some n =>
    let dat ← eraseNode c.dat n
    let erased ← if kind.byKey then key.get dat c.node else some sought
    return ({ c with dat := dat, idx := eraseKey c.idx erased }, true,
      [kind.erased sought (c.node n)])

end Members

def erasedNode (_ : K) (pair : K × V) : Event K V := .erase pair.1 pair.2

/-- `LRU_map`: a hash map, whose order means nothing. -/
def lruMap (K V : Type) : Kind K V where
  store := fun key n idx => (key, n) :: idx
  erased := erasedNode
  byKey := false
  removeRange := none

/-- `LRU_set` stores keys alone and hands `onErase` the key it was called with. -/
def lruSet (K : Type) : Kind K Unit where
  store := fun key n idx => (key, n) :: idx
  erased := fun key pair => .erase key pair.2
  byKey := false
  removeRange := none

section Btree

variable [LinearOrder K]

/-- A new key of the B-tree goes to its place in the order. -/
def storeSorted (key : K) (n : Nat) : List (K × Nat) → List (K × Nat)
  | [] => [(key, n)]
  | entry :: rest =>
    if key < entry.1 then (key, n) :: entry :: rest else entry :: storeSorted key n rest

/-- The loop of the interval removal: nodes go at once, keys are kept for later. -/
def eraseNodes (node : Nat → K × V) (kmax : Arg K V K) :
    List (K × Nat) → List Nat → Option (List Nat × List K × List (Event K V))
  | [], dat => some (dat, [], [])
  | (key, n) :: rest, dat => do
    let bound ← kmax.get dat node
    if key > bound then return (dat, [], [])
    else
      let dat ← eraseNode dat n
      let (dat, hack, events) ← eraseNodes node kmax rest dat
      return (dat, key :: hack, .erase (node n).1 (node n).2 :: events)

def removeRange (kmin kmax : Arg K V K) (c : Cache K V) :
    Option (Cache K V × Bool × List (Event K V)) := do
  let least ← kmin.get c.dat c.node
  match c.idx.dropWhile fun entry => entry.1 < least with
  | [] => return (c, false, [])
  | entry :: rest =>
    let found := if entry.1 < least then rest else entry :: rest
    let (dat, hack, events) ← eraseNodes c.node kmax found c.dat
    if hack.length = 0 then return ({ c with dat := dat }, false, events)
    else
      let idx := hack.foldl eraseKey c.idx
      return ({ c with dat := dat, idx := idx }, decide (idx.length = dat.length), events)

def lruBtree (K V : Type) [LinearOrder K] : Kind K V where
  store := storeSorted
  erased := erasedNode
  byKey := true
  removeRange := some removeRange

end Btree

/-- Entries with the most recently used one first. -/
structure Spec (K V : Type) where
  entries : List (K × V)
  cap : Nat

inductive Call (K V : Type) where
  | find (key : K)
  | insert (key : K) (val : V)
  | remove (key : K)
  | removeRange (kmin kmax : K)
  | resize (cap : Nat)
deriving DecidableEq, Repr

/-- A call with its arguments as they are passed. -/
inductive Request (K V : Type) where
  | find (key : Arg K V K)
  | insert (key : Arg K V K) (val : Arg K V V)
  | remove (key : Arg K V K)
  | removeRange (kmin kmax : Arg K V K)
  | resize (cap : Nat)

/-- The call with what the references read when it is made. -/
def Request.call (c : Cache K V) : Request K V → Option (Call K V)
  | .find key => do return .find (← key.get c.dat c.node)
  | .insert key val => do return .insert (← key.get c.dat c.node) (← val.get c.dat c.node)
  | .remove key => do return .remove (← key.get c.dat c.node)
  | .removeRange kmin kmax => do
    return .removeRange (← kmin.get c.dat c.node) (← kmax.get c.dat c.node)
  | .resize cap => some (.resize cap)

inductive Reply (V : Type) where
  | value (val : Option V)
  | flag (result : Bool)
  | done
deriving DecidableEq, Repr

/-- What a call returns and which of the virtual members it called. -/
abbrev Outcome (K V : Type) := Reply V × List (Event K V)

section Spec

variable [DecidableEq K]

def others (entries : List (K × V)) (key : K) : List (K × V) :=
  entries.filter fun entry => entry.1 ≠ key

def Spec.find (s : Spec K V) (key : K) : Spec K V × Option V :=
  match s.entries.find? fun entry => entry.1 = key with
  | none => (s, none)
  | some entry => ({ s with entries := entry :: others s.entries key }, some entry.2)

def Spec.insert (s : Spec K V) (key : K) (val : V) : Spec K V × List (Event K V) :=
  if key ∈ s.entries.map Prod.fst then
    ({ s with entries := (key, val) :: others s.entries key }, [])
  else if s.entries.length ≥ s.cap then
    ({ s with entries := (key, val) :: s.entries.dropLast },
      s.entries.getLast?.toList.map fun entry => .purge entry.1 entry.2)
  else ({ s with entries := (key, val) :: s.entries }, [])

def Spec.remove (s : Spec K V) (key : K) : Spec K V × Bool × List (Event K V) :=
  match s.entries.find? fun entry => entry.1 = key with
  | none => (s, false, [])
  | some entry => ({ s with entries := others s.entries key }, true, [.erase key entry.2])

def Spec.removeAll (s : Spec K V) : List K → Spec K V × List (Event K V)
  | [] => (s, [])
  | key :: rest =>
    let (s, _, events) := s.remove key
    let (s, more) := s.removeAll rest
    (s, events ++ more)

/-- `interval` picks the keys of an interval in ascending order. -/
def Spec.exec (interval : K → K → List K → List K) (s : Spec K V) :
    Call K V → Spec K V × Outcome K V
  | .find key => ((s.find key).1, .value (s.find key).2, [])
  | .insert key val => ((s.insert key val).1, .done, (s.insert key val).2)
  | .remove key => ((s.remove key).1, .flag (s.remove key).2.1, (s.remove key).2.2)
  | .removeRange kmin kmax =>
    let keys := interval kmin kmax (s.entries.map Prod.fst)
    ((s.removeAll keys).1, .flag (!keys.isEmpty), (s.removeAll keys).2)
  | .resize cap => (⟨[], cap⟩, .done, [])

def Cache.exec (kind : Kind K V) (c : Cache K V) :
    Request K V → Option (Cache K V × Outcome K V)
  | .find key => do
    let (c, val) ← c.find key
    return (c, .value val, [])
  | .insert key val => do
    let (c, events) ← c.insert kind key val
    return (c, .done, events)
  | .remove key => do
    let (c, result, events) ← c.remove kind key
    return (c, .flag result, events)
  | .removeRange kmin kmax => do
    let remove ← kind.removeRange
    let (c, result, events) ← remove kmin kmax c
    return (c, .flag result, events)
  | .resize cap => some (c.resize cap, .done, [])

end Spec

/-- The container next to the cache, with the outcomes of both and the calls so
far, the latest first. -/
structure System (K V : Type) where
  cache : Cache K V
  spec : Spec K V
  outcomes : List (Outcome K V × Outcome K V)
  past : List (Call K V)

/-- `none` is a use of an iterator or a reference that no longer leads into the list. -/
def step [DecidableEq K] (kind : Kind K V) (interval : K → K → List K → List K)
    (system : System K V) (request : Request K V) : Option (System K V) := do
  let call ← request.call system.cache
  let (cache, outcome) ← system.cache.exec kind request
  let (spec, expected) := system.spec.exec interval call
  return ⟨cache, spec, (outcome, expected) :: system.outcomes, call :: system.past⟩

def start (node : Nat → K × V) (cap : Nat) : System K V :=
  ⟨create node cap, ⟨[], cap⟩, [], []⟩

section History

variable [DecidableEq K]

def Call.touches (key : K) : Call K V → Bool
  | .find other => decide (other = key)
  | .insert other _ => decide (other = key)
  | _ => false

def age (past : List (Call K V)) (key : K) : Nat := past.findIdx (Call.touches key)

def lastInserted (past : List (Call K V)) (key : K) : Option V :=
  past.findSome? fun call =>
    match call with
    | .insert other val => if other = key then some val else none
    | _ => none

/-- What a container promises after every call. -/
structure Sound (system : System K V) : Prop where
  /-- every call returned and reported what the cache returns and reports -/
  agrees : ∀ entry ∈ system.outcomes, entry.1 = entry.2
  entries : system.cache.dat.map system.cache.node = system.spec.entries
  /-- list and index hold the same keys, each once -/
  keys : (system.cache.idx.map Prod.fst).Perm (system.spec.entries.map Prod.fst)
  distinct : (system.spec.entries.map Prod.fst).Nodup
  size : system.cache.idx.length ≤ system.cache.cap
  capacity : system.cache.cap = system.spec.cap
  /-- most recently used first -/
  recent : system.spec.entries.Pairwise fun left right =>
    age system.past left.1 < age system.past right.1
  values : ∀ entry ∈ system.spec.entries, lastInserted system.past entry.1 = some entry.2

end History

end Libsax.Container.Lru
