import Mathlib.Data.List.Pairwise
import Libsax.Container.HashTable

/-! Runs of the hash table: whatever the growth in between, the chains hold the
entries of a finite map, each in the bucket of its hash value. -/
namespace Libsax.Container.HashTable

open Libsax.Lib

variable {K V : Type}

structure Consistent (fns : Functions K) : Prop where
  refl : ∀ a, fns.eqfn a a = true
  symm : ∀ a b, fns.eqfn a b = true → fns.eqfn b a = true
  trans : ∀ a b c, fns.eqfn a b = true → fns.eqfn b c = true → fns.eqfn a c = true
  hash : ∀ a b, fns.eqfn a b = true → fns.hashfn a = fns.hashfn b

def Entry.pair (e : Entry K V) : K × V := (e.k, e.v)

def Table.entries (t : Table K V) : List (Entry K V) := contents t.tablelength.toNat t.table

/-- What the table promises whoever calls it next. -/
structure Sound (fns : Functions K) (system : System K V) : Prop where
  /-- no key is in the map twice -/
  distinct : system.map.Pairwise fun left right => fns.eqfn left.1 right.1 = false
  search : ∀ k, search fns system.table k = lookup fns system.map k
  remove : ∀ k, (remove fns system.table k).2 = lookup fns system.map k
  count : (count system.table).toNat = system.map.length % 2 ^ 32
  /-- a callback that never stops sees each pair of the map exactly once -/
  foreach : ∃ visited : List (K × V), visited.Perm system.map ∧
    ∀ (U : Type) (cb : K → V → U → Int × U) (user : U), (∀ k v user, (cb k v user).1 ≠ 0) →
      foreach system.table cb user =
        visited.foldl (fun user entry => (cb entry.1 entry.2 user).2) user

/-- The chains hold the pairs of `map`, each entry in the bucket of its hash. -/
structure Holds (fns : Functions K) (t : Table K V) (map : Map K V) : Prop where
  length_pos : 0 < t.tablelength
  filed : Filed t.tablelength.toNat (fun e => slot t.tablelength e.h) t.table
  hashed : ∀ e ∈ t.entries, e.h = doHash fns e.k
  perm : (t.entries.map Entry.pair).Perm map
  distinct : map.Pairwise fun left right => fns.eqfn left.1 right.1 = false

structure Inv (fns : Functions K) (system : System K V) : Prop where
  holds : Holds fns system.table system.map
  count : system.table.entrycount = UInt32.ofNat system.map.length

theorem slot_lt {size : UInt32} (hpos : 0 < size) (h : UInt32) : slot size h < size.toNat := by
  unfold slot
  rw [UInt32.toNat_mod]
  exact Nat.mod_lt _ (UInt32.lt_iff_toNat_lt.mp hpos)

private theorem rehash_eq (old : Table K V) (newsize : UInt32) :
    rehash old newsize =
      old.entries.foldl (fun other e => file (slot newsize e.h) other e) fun _ => [] := by
  unfold rehash Table.entries contents
  rw [List.foldl_flatMap]
  rfl

theorem rehash_spec (old : Table K V) {newsize : UInt32} (hpos : 0 < newsize) :
    Filed newsize.toNat (fun e => slot newsize e.h) (rehash old newsize) ∧
    (contents newsize.toNat (rehash old newsize)).Perm old.entries := by
  have hempty : Filed newsize.toNat (fun e : Entry K V => slot newsize e.h) fun _ => [] :=
    Filed.empty
  have hfold := Filed.foldl_file (fun e => slot_lt hpos e.h) old.entries hempty
  rw [rehash_eq]
  refine ⟨hfold.1, hfold.2.trans ?_⟩
  rw [contents_empty, List.append_nil]

private theorem primes_pos : ∀ prime ∈ primes, 0 < prime := by
  have hall : primes.all (fun prime => decide (0 < prime)) = true := rfl
  intro prime hmem
  exact of_decide_eq_true (List.all_eq_true.mp hall prime hmem)

private theorem expand_cases (fns : Functions K) (array : Bool) (t : Table K V) :
    expand fns array t = t ∨ ∃ newsize, 0 < newsize ∧ array = true ∧
      expand fns array t =
        { t with
          primeindex := t.primeindex + 1
          table := rehash t newsize
          tablelength := newsize
          loadlimit := fns.limit newsize } := by
  unfold expand
  split_ifs with hlast
  · exact Or.inl rfl
  · cases hnext : primes[t.primeindex + 1]? with
    | none => exact Or.inl rfl
    | some newsize =>
      cases array with
      | false => exact Or.inl rfl
      | true =>
        have hpos := primes_pos newsize (List.mem_of_getElem? hnext)
        exact Or.inr ⟨newsize, hpos, rfl, rfl⟩

theorem Holds.expand {fns : Functions K} {t : Table K V} {map : Map K V}
    (hholds : Holds fns t map) (array : Bool) : Holds fns (expand fns array t) map := by
  rcases expand_cases fns array t with hsame | ⟨newsize, hpos, -, hgrown⟩
  · rw [hsame]
    exact hholds
  · rw [hgrown]
    obtain ⟨hfiled, hperm⟩ := rehash_spec t hpos
    refine ⟨hpos, hfiled, ?_, ?_, hholds.distinct⟩
    · intro e he
      exact hholds.hashed e (hperm.mem_iff.mp he)
    · exact (hperm.map Entry.pair).trans hholds.perm

@[simp] private theorem expand_entrycount (fns : Functions K) (array : Bool) (t : Table K V) :
    (expand fns array t).entrycount = t.entrycount := by
  rcases expand_cases fns array t with hsame | ⟨newsize, -, -, hgrown⟩
  · rw [hsame]
  · rw [hgrown]

theorem lookup_eq_none {fns : Functions K} {map : Map K V} {k : K} :
    lookup fns map k = none ↔ ∀ entry ∈ map, fns.eqfn k entry.1 = false := by
  unfold lookup
  rw [Option.map_eq_none_iff, List.find?_eq_none]
  simp only [Bool.not_eq_true]

theorem Holds.push {fns : Functions K} {t : Table K V} {map : Map K V}
    (hholds : Holds fns t map) {k : K} {v : V} (hfresh : lookup fns map k = none) :
    Holds fns { t with
      table := file (slot t.tablelength (doHash fns k)) t.table ⟨k, v, doHash fns k⟩ }
      ((k, v) :: map) := by
  have hslot := slot_lt hholds.length_pos (doHash fns k)
  have hperm := file_contents hslot t.table ⟨k, v, doHash fns k⟩
  have hindex : (fun e : Entry K V => slot t.tablelength e.h) ⟨k, v, doHash fns k⟩ <
      t.tablelength.toNat := hslot
  refine ⟨hholds.length_pos, Filed.file hholds.filed hindex, ?_, ?_, ?_⟩
  · intro e he
    rcases List.mem_cons.mp (hperm.mem_iff.mp he) with rfl | hold
    · rfl
    · exact hholds.hashed e hold
  · exact (hperm.map Entry.pair).trans (hholds.perm.cons _)
  · exact List.pairwise_cons.mpr ⟨lookup_eq_none.mp hfresh, hholds.distinct⟩

theorem Inv.insert {fns : Functions K} {t : Table K V} {map : Map K V}
    (hinv : Inv fns ⟨t, map⟩) {k : K} (v : V) (grants : Grants)
    (hfresh : lookup fns map k = none) :
    Inv fns (match insert fns grants t k v with
      | (table, true) => ⟨table, (k, v) :: map⟩
      | (table, false) => ⟨table, map⟩) := by
  obtain ⟨hholds, hcount⟩ := hinv
  have hcounted : Holds fns { t with entrycount := t.entrycount + 1 } map := { hholds with }
  have hroom : ∃ grown : Table K V, Holds fns grown map ∧ grown.entrycount = t.entrycount + 1 ∧
      grown = if t.entrycount + 1 > t.loadlimit
        then HashTable.expand fns grants.array { t with entrycount := t.entrycount + 1 }
        else { t with entrycount := t.entrycount + 1 } := by
    split_ifs
    · exact ⟨_, hcounted.expand grants.array, expand_entrycount _ _ _, rfl⟩
    · exact ⟨_, hcounted, rfl, rfl⟩
  obtain ⟨grown, hgrown, hentries, heq⟩ := hroom
  unfold HashTable.insert
  simp only [← heq]
  cases grants.entry with
  | true =>
    refine ⟨hgrown.push hfresh, ?_⟩
    change grown.entrycount = UInt32.ofNat (map.length + 1)
    rw [hentries, hcount, UInt32.ofNat_add]
    rfl
  | false =>
    refine ⟨{ hgrown with }, ?_⟩
    change grown.entrycount - 1 = UInt32.ofNat map.length
    rw [hentries, hcount]
    exact UInt32.add_sub_cancel _ _

private theorem unlink_cases (fns : Functions K) (k : K) (chain : List (Entry K V)) :
    unlink fns k chain = none ∧ chain.find? (hit fns k) = none ∨
    ∃ left e right, chain = left ++ e :: right ∧ chain.find? (hit fns k) = some e ∧
      unlink fns k chain = some (e.v, left ++ right) := by
  induction chain with
  | nil => exact Or.inl ⟨rfl, rfl⟩
  | cons e next ih =>
    unfold unlink
    cases hhit : hit fns k e with
    | true =>
      refine Or.inr ⟨[], e, next, rfl, ?_, rfl⟩
      rw [List.find?_cons_of_pos hhit]
    | false =>
      have hskip : (e :: next).find? (hit fns k) = next.find? (hit fns k) :=
        List.find?_cons_of_neg (by rw [hhit]; exact Bool.false_ne_true)
      rw [hskip]
      rcases ih with ⟨hunlink, hfind⟩ | ⟨left, found, right, hchain, hfind, hunlink⟩
      · exact Or.inl ⟨by rw [hunlink]; rfl, hfind⟩
      · refine Or.inr ⟨e :: left, found, right, ?_, hfind, ?_⟩
        · rw [hchain, List.cons_append]
        · rw [hunlink]
          rfl

section Lookup

variable {fns : Functions K} (hconsistent : Consistent fns)
include hconsistent

private theorem doHash_congr {a b : K} (heq : fns.eqfn a b = true) : doHash fns a = doHash fns b :=
  congrArg mix (hconsistent.hash a b heq)

private theorem eqfn_join {a b c : K} (hb : fns.eqfn a b = true) (hc : fns.eqfn a c = true) :
    fns.eqfn b c = true :=
  hconsistent.trans b a c (hconsistent.symm a b hb) hc

private theorem answers_subsingleton {map : Map K V}
    (hdistinct : map.Pairwise fun left right => fns.eqfn left.1 right.1 = false) (k : K) :
    {entry ∈ map | fns.eqfn k entry.1 = true}.Subsingleton := by
  intro left hleft right hright
  by_contra hne
  have hsymm : Std.Symm fun left right : K × V => fns.eqfn left.1 right.1 = false := by
    refine ⟨fun a b hab => ?_⟩
    by_contra hba
    rw [Bool.not_eq_false] at hba
    rw [hconsistent.symm _ _ hba] at hab
    cases hab
  have hfalse := hdistinct.forall hleft.1 hright.1 hne
  rw [eqfn_join hconsistent hleft.2 hright.2] at hfalse
  cases hfalse

private theorem hit_eq {t : Table K V} {map : Map K V} (hholds : Holds fns t map) (k : K)
    {e : Entry K V} (he : e ∈ t.entries) : hit fns k e = fns.eqfn k e.k := by
  unfold hit
  cases heq : fns.eqfn k e.k with
  | false => rw [Bool.and_false]
  | true =>
    rw [hholds.hashed e he, doHash_congr hconsistent heq]
    simp

private theorem find?_hit {t : Table K V} {map : Map K V} (hholds : Holds fns t map) (k : K) :
    ((t.table (slot t.tablelength (doHash fns k))).find? (hit fns k)).map Entry.pair =
      map.find? fun entry => fns.eqfn k entry.1 := by
  have hslot := slot_lt hholds.length_pos (doHash fns k)
  have hplace : ∀ e : Entry K V, hit fns k e = true →
      slot t.tablelength e.h = slot t.tablelength (doHash fns k) := by
    intro e he
    unfold hit at he
    rw [Bool.and_eq_true, decide_eq_true_eq] at he
    rw [he.1]
  rw [← hholds.filed.find?_bucket hslot hplace]
  have hcongr : (contents t.tablelength.toNat t.table).find? (hit fns k) =
      t.entries.find? fun e => fns.eqfn k e.pair.1 :=
    List.find?_congr fun e he => hit_eq hconsistent hholds k he
  have hmap : (t.entries.find? fun e => fns.eqfn k e.pair.1).map Entry.pair =
      (t.entries.map Entry.pair).find? fun entry => fns.eqfn k entry.1 := by
    rw [List.find?_map]
    rfl
  rw [hcongr, hmap]
  refine List.find?_eq_find?_of_perm hholds.perm ?_
  intro left hleft right hright
  exact answers_subsingleton hconsistent hholds.distinct k
    ⟨hholds.perm.mem_iff.mp hleft.1, hleft.2⟩ ⟨hholds.perm.mem_iff.mp hright.1, hright.2⟩

theorem Holds.search {t : Table K V} {map : Map K V} (hholds : Holds fns t map) (k : K) :
    HashTable.search fns t k = lookup fns map k := by
  unfold HashTable.search lookup
  rw [← find?_hit hconsistent hholds k, Option.map_map]
  rfl

theorem perm_without {map rest : Map K V} {entry : K × V} {k : K}
    (hdistinct : map.Pairwise fun left right => fns.eqfn left.1 right.1 = false)
    (hperm : map.Perm (entry :: rest)) (hentry : fns.eqfn k entry.1 = true) :
    rest.Perm (without fns map k) := by
  have hnodup : ∀ other ∈ rest, fns.eqfn k other.1 = false := by
    have hsymm : ∀ {a b : K × V}, fns.eqfn a.1 b.1 = false → fns.eqfn b.1 a.1 = false := by
      intro a b hab
      by_contra hba
      rw [Bool.not_eq_false] at hba
      rw [hconsistent.symm _ _ hba] at hab
      cases hab
    have hpairs := (hperm.pairwise_iff hsymm).mp hdistinct
    intro other hother
    by_contra hboth
    rw [Bool.not_eq_false] at hboth
    have hfalse := (List.pairwise_cons.mp hpairs).1 other hother
    rw [eqfn_join hconsistent hentry hboth] at hfalse
    cases hfalse
  unfold without
  refine List.Perm.trans ?_ (hperm.filter _).symm
  rw [List.filter_cons_of_neg (by rw [hentry]; exact Bool.false_ne_true)]
  rw [List.filter_eq_self.mpr fun other hother => by rw [hnodup other hother]; rfl]

omit hconsistent in
theorem without_eq_self {map : Map K V} {k : K} (hnone : lookup fns map k = none) :
    without fns map k = map := by
  have hmiss := lookup_eq_none.mp hnone
  exact List.filter_eq_self.mpr fun entry hentry => by rw [hmiss entry hentry]; rfl

theorem Inv.remove {t : Table K V} {map : Map K V} (hinv : Inv fns ⟨t, map⟩) (k : K) :
    Inv fns ⟨(HashTable.remove fns t k).1, without fns map k⟩ ∧
    (HashTable.remove fns t k).2 = lookup fns map k := by
  obtain ⟨hholds, hcount⟩ := hinv
  have hfound := find?_hit hconsistent hholds k
  have hslot := slot_lt hholds.length_pos (doHash fns k)
  unfold HashTable.remove
  generalize hindex : slot t.tablelength (doHash fns k) = index at *
  rcases unlink_cases fns k (t.table index) with
    ⟨hunlink, hfind⟩ | ⟨left, e, right, hchain, hfind, hunlink⟩
  · have hnone : lookup fns map k = none := by
      unfold lookup
      rw [← hfound, hfind]
      rfl
    simp only [hunlink]
    rw [without_eq_self hnone, hnone]
    exact ⟨⟨hholds, hcount⟩, rfl⟩
  · rw [hfind] at hfound
    have hcut := contents_cut hslot hchain
    have hentry : fns.eqfn k e.k = true := by
      have hsome := List.find?_some hfound.symm
      exact hsome
    have hmap : map.Perm (e.pair ::
        (contents t.tablelength.toNat (Function.update t.table index (left ++ right))).map
          Entry.pair) := hholds.perm.symm.trans (hcut.map Entry.pair)
    have hwithout := perm_without hconsistent hholds.distinct hmap hentry
    simp only [hunlink]
    refine ⟨⟨⟨hholds.length_pos, ?_, ?_, hwithout, ?_⟩, ?_⟩, ?_⟩
    · refine hholds.filed.update ?_
      intro other hother
      refine hholds.filed index hslot other ?_
      rw [hchain]
      rcases List.mem_append.mp hother with hleft | hright
      · exact List.mem_append_left _ hleft
      · exact List.mem_append_right _ (List.mem_cons_of_mem _ hright)
    · intro other hother
      exact hholds.hashed other (hcut.mem_iff.mpr (List.mem_cons_of_mem _ hother))
    · exact hholds.distinct.sublist List.filter_sublist
    · have hlength : map.length = (without fns map k).length + 1 := by
        rw [hmap.length_eq, List.length_cons, hwithout.length_eq]
      change t.entrycount - 1 = UInt32.ofNat (without fns map k).length
      rw [hcount, hlength, UInt32.ofNat_add]
      exact UInt32.add_sub_cancel _ _
    · unfold lookup
      rw [← hfound]
      rfl

end Lookup

section Foreach

variable {U : Type} {cb : K → V → U → Int × U}

private theorem visitChain_eq (hgoes : ∀ k v user, (cb k v user).1 ≠ 0) (chain : List (Entry K V))
    (user : U) :
    visitChain cb chain user =
      (true, chain.foldl (fun user e => (cb e.k e.v user).2) user) := by
  induction chain generalizing user with
  | nil => rfl
  | cons e next ih =>
    unfold visitChain
    simp only [if_neg (hgoes e.k e.v user), ih]
    rfl

private theorem visitFrom_eq (hgoes : ∀ k v user, (cb k v user).1 ≠ 0) (t : Table K V)
    (slots : List Nat) (user : U) :
    visitFrom cb t slots user =
      (slots.flatMap t.table).foldl (fun user e => (cb e.k e.v user).2) user := by
  induction slots generalizing user with
  | nil => rfl
  | cons i rest ih =>
    unfold visitFrom
    rw [visitChain_eq hgoes]
    simp only [ih, List.flatMap_cons, List.foldl_append]

private theorem foreach_eq (hgoes : ∀ k v user, (cb k v user).1 ≠ 0) (t : Table K V) (user : U) :
    foreach t cb user =
      (t.entries.map Entry.pair).foldl (fun user entry => (cb entry.1 entry.2 user).2) user := by
  unfold foreach
  rw [visitFrom_eq hgoes, List.foldl_map]
  rfl

end Foreach

theorem create_inv {fns : Functions K} {minsize : UInt32} {t : Table K V}
    (hcreate : create fns minsize = some t) : Inv fns ⟨t, []⟩ := by
  unfold create at hcreate
  split_ifs at hcreate
  cases hcreate
  have hpos : 0 < (primes[primes.findIdx fun prime => decide (prime > minsize)]?).getD 53 := by
    cases hsize : primes[primes.findIdx fun prime => decide (prime > minsize)]? with
    | none => decide
    | some size => exact primes_pos size (List.mem_of_getElem? hsize)
  refine ⟨⟨hpos, Filed.empty, ?_, ?_, List.Pairwise.nil⟩, rfl⟩
  · intro e he
    simp [Table.entries, contents_empty] at he
  · simp [Table.entries, contents_empty]

theorem Inv.step {fns : Functions K} (hconsistent : Consistent fns) {system next : System K V}
    {call : Call K V} (hinv : Inv fns system)
    (hstep : HashTable.step fns system call = some next) : Inv fns next := by
  cases call with
  | insert k v grants =>
    simp only [HashTable.step] at hstep
    split_ifs at hstep with hpresent
    have hfresh : lookup fns system.map k = none :=
      Option.not_isSome_iff_eq_none.mp hpresent
    have hnext := hinv.insert v grants hfresh
    split at hstep <;> rename_i hreply <;> cases hstep <;> rw [hreply] at hnext <;> exact hnext
  | search k =>
    cases hstep
    exact hinv
  | remove k =>
    cases hstep
    exact (hinv.remove hconsistent k).1
  | foreach =>
    cases hstep
    exact hinv

theorem Inv.sound {fns : Functions K} (hconsistent : Consistent fns) {system : System K V}
    (hinv : Inv fns system) : Sound fns system where
  distinct := hinv.holds.distinct
  search := hinv.holds.search hconsistent
  remove := fun k => (hinv.remove hconsistent k).2
  count := by
    unfold HashTable.count
    rw [hinv.count, UInt32.toNat_ofNat']
  foreach := ⟨_, hinv.holds.perm, fun _ _ user hgoes => foreach_eq hgoes system.table user⟩

/-- A table under any history of insertions of new keys, searches, removals and
traversals is the finite map of that history; its counter counts modulo 2^32. -/
theorem table_is_map {fns : Functions K} (hconsistent : Consistent fns) {minsize : UInt32}
    {t : Table K V} {calls : List (Call K V)} {final : System K V}
    (hcreate : create fns minsize = some t)
    (hrun : run (step fns) ⟨t, []⟩ calls = some final) : Sound fns final := by
  have hinv : Inv fns final := run_invariant
    (fun _ _ _ hinv hstep => hinv.step hconsistent hstep) (create_inv hcreate) hrun
  exact hinv.sound hconsistent

/-- Keys that are their own hash values, and the code's load factor of 0.65. -/
def plain : Functions Nat where
  hashfn := fun k => UInt32.ofNat k
  eqfn := fun a b => decide (a = b)
  limit := fun size => UInt32.ofNat ((size.toNat * 13 + 10) / 20)

private theorem plain_consistent : Consistent plain where
  refl := fun _ => decide_eq_true rfl
  symm := fun _ _ hab => decide_eq_true (of_decide_eq_true hab).symm
  trans := fun _ _ _ hab hbc => decide_eq_true
    ((of_decide_eq_true hab).trans (of_decide_eq_true hbc))
  hash := fun _ _ hab => congrArg UInt32.ofNat (of_decide_eq_true hab)

def smallest (V : Type) : Table Nat V where
  table := fun _ => []
  tablelength := 53
  entrycount := 0
  loadlimit := 34
  primeindex := 0

/-- One insertion more than the smallest table takes, which then has 97 buckets; one of the moved
entries is removed, another one is looked up. -/
theorem table_is_map_grown : ∃ final,
    run (step plain) ⟨smallest Nat, []⟩
        ((List.range 35).map (fun k => .insert k (k + 1) ⟨true, true⟩) ++
          [.remove 1, .search 2, .foreach]) = some final ∧ final.table.tablelength = 97 ∧
    search plain final.table 2 = some 3 ∧ Sound plain final := by
  have hcreate : create plain 0 = some (smallest Nat) := rfl
  have hread : (run (step plain) ⟨smallest Nat, []⟩
      ((List.range 35).map (fun k => .insert k (k + 1) ⟨true, true⟩) ++
        [.remove 1, .search 2, .foreach])).map (fun final =>
      (final.table.tablelength, search plain final.table 2)) = some (97, some 3) := by
    decide +kernel
  obtain ⟨final, hrun, hfinal⟩ := Option.map_eq_some_iff.mp hread
  obtain ⟨hlength, hsearch⟩ := Prod.mk.inj hfinal
  exact ⟨final, hrun, hlength, hsearch, table_is_map plain_consistent hcreate hrun⟩

private theorem insertions_run (t : Table Nat Unit) (n : Nat) : ∃ final,
    run (step plain) ⟨t, []⟩ ((List.range n).map fun k => .insert k () ⟨true, true⟩) =
      some final ∧ final.map.length = n ∧ ∀ entry ∈ final.map, entry.1 < n := by
  induction n with
  | zero => exact ⟨⟨t, []⟩, rfl, rfl, by simp⟩
  | succ n ih =>
    obtain ⟨system, hrun, hlength, hkeys⟩ := ih
    have hfresh : lookup plain system.map n = none := lookup_eq_none.mpr fun entry hentry =>
      decide_eq_false (Nat.ne_of_gt (hkeys entry hentry))
    refine ⟨⟨(insert plain ⟨true, true⟩ system.table n ()).1, (n, ()) :: system.map⟩,
      ?_, ?_, ?_⟩
    · rw [List.range_succ, List.map_append, run_append, hrun, Option.bind_some]
      refine run_cons_eq_some.mpr ⟨_, ?_, rfl⟩
      simp only [step, hfresh]
      rfl
    · rw [List.length_cons, hlength]
    · intro entry hentry
      rcases List.mem_cons.mp hentry with rfl | hold
      · exact Nat.lt_succ_self n
      · exact Nat.lt_succ_of_lt (hkeys entry hold)

/-- After 2^32 insertions the counter reads 0 although no entry was removed. -/
theorem count_wraps : ∃ final, create plain 0 = some (smallest Unit) ∧
    run (step plain) ⟨smallest Unit, []⟩
      ((List.range (2 ^ 32)).map fun k => .insert k () ⟨true, true⟩) = some final ∧
    final.map.length = 2 ^ 32 ∧ (count final.table).toNat = 0 := by
  have hcreate : create plain 0 = some (smallest Unit) := rfl
  obtain ⟨final, hrun, hlength, -⟩ := insertions_run (smallest Unit) (2 ^ 32)
  have hinv : Inv plain final := run_invariant
    (fun _ _ _ hinv hstep => hinv.step plain_consistent hstep) (create_inv hcreate) hrun
  have hcount := (hinv.sound plain_consistent).count
  refine ⟨final, hcreate, hrun, hlength, ?_⟩
  rw [hcount, hlength, Nat.mod_self]

end Libsax.Container.HashTable
