import Mathlib.Algebra.Ring.Nat
import Libsax.Lib.Buckets
import Libsax.Lib.Run

/-! The chained hash table `g_htab`: an array of bucket chains whose length is a
prime of a fixed table, grown when the entries outnumber the load limit. -/
namespace Libsax.Container.HashTable

open Libsax.Lib

variable {K V : Type}

structure Entry (K V : Type) where
  k : K
  v : V
  h : UInt32
deriving Repr

/-- A chain is the list of its entries; `primeindex` is the place of
`tablelength` in the table of primes. -/
structure Table (K V : Type) where
  table : Nat → List (Entry K V)
  tablelength : UInt32
  entrycount : UInt32
  loadlimit : UInt32
  primeindex : Nat

def primes : List UInt32 :=
  [53, 97, 193, 389,
   769, 1543, 3079, 6151,
   12289, 24593, 49157, 98317,
   196613, 393241, 786433, 1572869,
   3145739, 6291469, 12582917, 25165843,
   50331653, 100663319, 201326611, 402653189,
   805306457, 1610612741]

/-- What a table is created with. `limit` is the conversion of
`size * max_load_factor + 0.5f` to `uint32_t`, done in floating point. -/
structure Functions (K : Type) where
  hashfn : K → UInt32
  eqfn : K → K → Bool
  limit : UInt32 → UInt32

/-- The mixing that protects against poor hash functions. -/
def mix (i : UInt32) : UInt32 :=
  let i := i + ~~~(i <<< 9)
  let i := i ^^^ ((i >>> 14) ||| (i <<< 18))
  let i := i + (i <<< 4)
  i ^^^ ((i >>> 10) ||| (i <<< 22))

def doHash (fns : Functions K) (k : K) : UInt32 := mix (fns.hashfn k)

def slot (size h : UInt32) : Nat := (h % size).toNat

def create (fns : Functions K) (minsize : UInt32) : Option (Table K V) :=
  if minsize > (1 : UInt32) <<< 30 then none
  else
    let pindex := primes.findIdx fun prime => decide (prime > minsize)
    let size := (primes[pindex]?).getD 53
    some
      { table := fun _ => []
        tablelength := size
        primeindex := pindex
        entrycount := 0
        loadlimit := fns.limit size }

def transfer (newsize : UInt32) (newtable : Nat → List (Entry K V)) (e : Entry K V) :
    Nat → List (Entry K V) :=
  file (slot newsize e.h) newtable e

/-- The two loops of plan A: chain by chain, entry by entry. -/
def rehash (old : Table K V) (newsize : UInt32) : Nat → List (Entry K V) :=
  (List.range old.tablelength.toNat).foldl
    (fun newtable i => (old.table i).foldl (transfer newsize) newtable) fun _ => []

/-- What `malloc` and `realloc` answer during one insertion. Plan B, where only
the `realloc` of the array succeeds, is `HashTable.expandInPlace`. -/
structure Grants where
  array : Bool
  entry : Bool
deriving DecidableEq, Repr

/-- `htab_expand`, up to plan B. -/
def expand (fns : Functions K) (array : Bool) (t : Table K V) : Table K V :=
  if t.primeindex = primes.length - 1 then t
  else
    match primes[t.primeindex + 1]?, array with
    | some newsize, true =>
      { t with
        primeindex := t.primeindex + 1
        table := rehash t newsize
        tablelength := newsize
        loadlimit := fns.limit newsize }
    | _, _ => t

def insert (fns : Functions K) (grants : Grants) (t : Table K V) (k : K) (v : V) :
    Table K V × Bool :=
  let t := { t with entrycount := t.entrycount + 1 }
  let t := if t.entrycount > t.loadlimit then expand fns grants.array t else t
  if grants.entry then
    let e : Entry K V := ⟨k, v, doHash fns k⟩
    ({ t with table := file (slot t.tablelength e.h) t.table e }, true)
  else ({ t with entrycount := t.entrycount - 1 }, false)

/-- The comparison both walks make: the hash value short circuits `eqfn`. -/
def hit (fns : Functions K) (k : K) (e : Entry K V) : Bool :=
  decide (doHash fns k = e.h) && fns.eqfn k e.k

def search (fns : Functions K) (t : Table K V) (k : K) : Option V :=
  ((t.table (slot t.tablelength (doHash fns k))).find? (hit fns k)).map Entry.v

/-- Unlink the first entry of a chain that the key hits. -/
def unlink (fns : Functions K) (k : K) : List (Entry K V) → Option (V × List (Entry K V))
  | [] => none
  | e :: next =>
    if hit fns k e then some (e.v, next)
    else (unlink fns k next).map fun (v, rest) => (v, e :: rest)

def remove (fns : Functions K) (t : Table K V) (k : K) : Table K V × Option V :=
  let index := slot t.tablelength (doHash fns k)
  match unlink fns k (t.table index) with
  | some (v, chain) =>
    ({ t with table := Function.update t.table index chain, entrycount := t.entrycount - 1 },
      some v)
  | none => (t, none)

def count (t : Table K V) : UInt32 := t.entrycount

/-- Walk one chain; `false` means that the callback asked to stop. -/
def visitChain {U : Type} (cb : K → V → U → Int × U) : List (Entry K V) → U → Bool × U
  | [], user => (true, user)
  | e :: next, user =>
    let (reply, user) := cb e.k e.v user
    if reply = 0 then (false, user) else visitChain cb next user

def visitFrom {U : Type} (cb : K → V → U → Int × U) (t : Table K V) : List Nat → U → U
  | [], user => user
  | i :: rest, user =>
    match visitChain cb (t.table i) user with
    | (true, user) => visitFrom cb t rest user
    | (false, user) => user

def foreach {U : Type} (t : Table K V) (cb : K → V → U → Int × U) (user : U) : U :=
  visitFrom cb t (List.range t.tablelength.toNat) user

/-- The map the callers mean: keys with their values, no key twice. -/
abbrev Map (K V : Type) := List (K × V)

def lookup (fns : Functions K) (map : Map K V) (k : K) : Option V :=
  (map.find? fun entry => fns.eqfn k entry.1).map Prod.snd

def without (fns : Functions K) (map : Map K V) (k : K) : Map K V :=
  map.filter fun entry => !fns.eqfn k entry.1

structure System (K V : Type) where
  table : Table K V
  map : Map K V

inductive Call (K V : Type) where
  | insert (k : K) (v : V) (grants : Grants)
  | search (k : K)
  | remove (k : K)
  | foreach

/-- One call; a key is only inserted while no equal key is in the table. -/
def step (fns : Functions K) (system : System K V) : Call K V → Option (System K V)
  | .insert k v grants =>
    if (lookup fns system.map k).isSome then none
    else
      match insert fns grants system.table k v with
      | (table, true) => some ⟨table, (k, v) :: system.map⟩
      | (table, false) => some { system with table := table }
  | .search _ => some system
  | .remove k => some ⟨(remove fns system.table k).1, without fns system.map k⟩
  | .foreach => some system

end Libsax.Container.HashTable
