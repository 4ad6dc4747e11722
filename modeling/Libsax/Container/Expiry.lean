import Libsax.Container.LruCacheRefines

/-! The containers `crumb` and `expire`: a list of entries in the order of their
last touch, and an index from keys into it. `expire` is `crumb` without values. -/
namespace Libsax.Container.Expiry

open Libsax.Lib
open Lru (Event lookup eraseKey eraseNode)

variable {K V : Type}

structure DataTriple (K V : Type) where
  tick : Int
  key : K
  val : V
deriving DecidableEq, Repr

/-- List nodes have numbers, which are what iterators hold. -/
structure Crumb (K V : Type) where
  overdue : Int
  dat : List Nat
  node : Nat → DataTriple K V
  fresh : Nat
  idx : List (K × Nat)

def Crumb.create (node : Nat → DataTriple K V) (sec : Int) : Crumb K V where
  overdue := sec
  dat := []
  node := node
  fresh := 0
  idx := []

section Members

variable [DecidableEq K]

/-- `_dat.splice(_dat.end(), _dat, n)`, undefined for an iterator of another list. -/
def toBack (dat : List Nat) (n : Nat) : Option (List Nat) :=
  if n ∈ dat then some (dat.erase n ++ [n]) else none

def Crumb.renew (c : Crumb K V) (now : Int) (ii : Nat) : Option (Crumb K V) := do
  let dat ← toBack c.dat ii
  return { c with
    dat := dat
    node := Function.update c.node ii { c.node ii with tick := now } }

def Crumb.add (c : Crumb K V) (now : Int) (key : K) (val : V) : Option (Crumb K V × Bool) :=
  match lookup c.idx key with
  | none =>
    some ({ c with
      dat := c.dat ++ [c.fresh]
      node := Function.update c.node c.fresh ⟨now, key, val⟩
      fresh := c.fresh + 1
      idx := (key, c.fresh) :: c.idx }, true)
  | some ii => do
    let c ← c.renew now ii
    return (c, true)

def Crumb.sub (c : Crumb K V) (key : K) : Option (Crumb K V × Option V × List (Event K V)) :=
  match lookup c.idx key with
  | none => some (c, none, [])
  | some ii => do
    let dat ← eraseNode c.dat ii
    return ({ c with dat := dat, idx := eraseKey c.idx key }, some (c.node ii).val,
      [.erase key (c.node ii).val])

def Crumb.get (c : Crumb K V) (key : K) : Option V := (lookup c.idx key).map fun ii => (c.node ii).val

def Crumb.touch (c : Crumb K V) (now : Int) (key : K) : Option (Crumb K V × Option V) :=
  match lookup c.idx key with
  | none => some (c, none)
  | some ii => do
    let c ← c.renew now ii
    return (c, some (c.node ii).val)

/-- The loop of `purge`, which reads the clock for every entry that it looks at. -/
def Crumb.purgeLoop (clock : Nat → Int) (c : Crumb K V) (reads : Nat) :
    List Nat → Crumb K V × Nat × Nat × List (Event K V)
  | [] => (c, reads, 0, [])
  | ii :: rest =>
    if clock reads - (c.node ii).tick < c.overdue then (c, reads + 1, 0, [])
    else
      let left := { c with dat := c.dat.erase ii, idx := eraseKey c.idx (c.node ii).key }
      let (c', reads, cnt, events) := purgeLoop clock left (reads + 1) rest
      (c', reads, cnt + 1, .purge (c.node ii).key (c.node ii).val :: events)

def Crumb.purge (c : Crumb K V) (clock : Nat → Int) (reads : Nat) :
    Crumb K V × Nat × Nat × List (Event K V) :=
  Crumb.purgeLoop clock c reads c.dat

end Members

inductive Call (K V : Type) where
  | add (key : K) (val : V)
  | sub (key : K)
  | get (key : K)
  | touch (key : K)
  | purge
deriving DecidableEq, Repr

inductive Reply (V : Type) where
  | value (val : Option V)
  | flag (result : Bool)
  | count (cnt : Nat)
deriving DecidableEq, Repr

/-- What a call returns and which of the virtual members it called. -/
abbrev Outcome (K V : Type) := Reply V × List (Event K V)

section Calls

variable [DecidableEq K]

/-- `clock` gives the readings of `time(NULL)` one after the other, `reads` of
which are over. -/
def Crumb.exec (clock : Nat → Int) (c : Crumb K V) (reads : Nat) :
    Call K V → Option (Crumb K V × Nat × Outcome K V)
  | .add key val => do
    let (c, result) ← c.add (clock reads) key val
    return (c, reads + 1, .flag result, [])
  | .sub key => do
    let (c, val, events) ← c.sub key
    return (c, reads, .value val, events)
  | .get key => some (c, reads, .value (c.get key), [])
  | .touch key => do
    let (c, val) ← c.touch (clock reads) key
    return (c, reads + val.isSome.toNat, .value val, [])
  | .purge =>
    let (c, reads, cnt, events) := c.purge clock reads
    some (c, reads, .count cnt, events)

end Calls

abbrev Expire (K : Type) := Crumb K Unit

namespace Expire

variable [DecidableEq K]

def add (c : Expire K) (now : Int) (key : K) : Option (Expire K × Bool) := Crumb.add c now key ()

def sub (c : Expire K) (key : K) : Option (Expire K × Bool × List (Event K Unit)) :=
  (Crumb.sub c key).map fun out => (out.1, out.2.1.isSome, out.2.2)

def get (c : Expire K) (key : K) : Bool := (Crumb.get c key).isSome

def touch (c : Expire K) (now : Int) (key : K) : Option (Expire K × Bool) :=
  (Crumb.touch c now key).map fun out => (out.1, out.2.isSome)

def exec (clock : Nat → Int) (c : Expire K) (reads : Nat) :
    Call K Unit → Option (Expire K × Nat × Outcome K Unit)
  | .add key _ => do
    let (c, result) ← add c (clock reads) key
    return (c, reads + 1, .flag result, [])
  | .sub key => do
    let (c, result, events) ← sub c key
    return (c, reads, .flag result, events)
  | .get key => some (c, reads, .flag (get c key), [])
  | .touch key => do
    let (c, result) ← touch c (clock reads) key
    return (c, reads + result.toNat, .flag result, [])
  | .purge =>
    let (c, reads, cnt, events) := c.purge clock reads
    some (c, reads, .count cnt, events)

end Expire

/-- `expire` tells whether there is a value where `crumb` hands it out. -/
def Reply.blind : Reply V → Reply V
  | .value val => .flag val.isSome
  | reply => reply

/-- Entries in the order of their last touch. -/
structure Spec (K V : Type) where
  entries : List (DataTriple K V)
  overdue : Int

section Spec

variable [DecidableEq K]

def others (entries : List (DataTriple K V)) (key : K) : List (DataTriple K V) :=
  entries.filter fun entry => entry.key ≠ key

def Spec.lookup (s : Spec K V) (key : K) : Option (DataTriple K V) :=
  s.entries.find? fun entry => entry.key = key

def Spec.renew (s : Spec K V) (now : Int) (entry : DataTriple K V) : Spec K V :=
  { s with entries := others s.entries entry.key ++ [{ entry with tick := now }] }

def Spec.due (s : Spec K V) (now : Int) : List (DataTriple K V) :=
  s.entries.filter fun entry => entry.tick ≤ now - s.overdue

def Spec.keep (s : Spec K V) (now : Int) : Spec K V :=
  { s with entries := s.entries.filter fun entry => ¬entry.tick ≤ now - s.overdue }

def Spec.exec (now : Int) (s : Spec K V) : Call K V → Spec K V × Outcome K V
  | .add key val =>
    match s.lookup key with
    | none => ({ s with entries := s.entries ++ [⟨now, key, val⟩] }, .flag true, [])
    | some entry => (s.renew now entry, .flag true, [])
  | .sub key =>
    match s.lookup key with
    | none => (s, .value none, [])
    | some entry =>
      ({ s with entries := others s.entries key }, .value (some entry.val), [.erase key entry.val])
  | .get key => (s, .value ((s.lookup key).map DataTriple.val), [])
  | .touch key =>
    match s.lookup key with
    | none => (s, .value none, [])
    | some entry => (s.renew now entry, .value (some entry.val), [])
  | .purge =>
    (s.keep now, .count (s.due now).length, (s.due now).map fun entry => .purge entry.key entry.val)

end Spec

/-- The container next to what it is for, with the outcomes of both and the calls
so far, each with the last reading of the clock, the latest first. -/
structure System (K V : Type) where
  crumb : Crumb K V
  reads : Nat
  spec : Spec K V
  outcomes : List (Outcome K V × Outcome K V)
  past : List (Int × Call K V)

section History

variable [DecidableEq K]

abbrev Exec (K V : Type) :=
  (Nat → Int) → Crumb K V → Nat → Call K V → Option (Crumb K V × Nat × Outcome K V)

/-- `none` is a use of an iterator that no longer points into the list. -/
def step (run : Exec K V) (answer : Reply V → Reply V) (clock : Nat → Int) (system : System K V)
    (call : Call K V) : Option (System K V) := do
  let (crumb, reads, outcome) ← run clock system.crumb system.reads call
  let now := clock (reads - 1)
  let (spec, reply, events) := system.spec.exec now call
  return ⟨crumb, reads, spec, (outcome, (answer reply, events)) :: system.outcomes,
    (now, call) :: system.past⟩

def start (node : Nat → DataTriple K V) (sec : Int) : System K V :=
  ⟨Crumb.create node sec, 0, ⟨[], sec⟩, [], []⟩

def Call.touches (key : K) : Call K V → Bool
  | .add other _ => decide (other = key)
  | .touch other => decide (other = key)
  | _ => false

def lastTouch (past : List (Int × Call K V)) (key : K) : Option Int :=
  past.findSome? fun call => if call.2.touches key then some call.1 else none

/-- What a container promises after every call. -/
structure Sound (system : System K V) : Prop where
  /-- every call returned and reported what it should -/
  agrees : ∀ entry ∈ system.outcomes, entry.1 = entry.2
  entries : system.crumb.dat.map system.crumb.node = system.spec.entries
  /-- list and index hold the same keys, each once -/
  keys : (system.crumb.idx.map Prod.fst).Perm (system.spec.entries.map DataTriple.key)
  distinct : (system.spec.entries.map DataTriple.key).Nodup
  sorted : system.spec.entries.Pairwise fun left right => left.tick ≤ right.tick
  ticks : ∀ entry ∈ system.spec.entries, lastTouch system.past entry.key = some entry.tick

end History

end Libsax.Container.Expiry
