import Libsax.Container.Expiry

/-! Under a clock that never goes back the list stays in the order of its ticks,
so a purge that stops at the first entry in time has met every one that is due. -/
namespace Libsax.Container.Expiry

open Libsax.Lib
open Lru (Event lookup eraseKey eraseNode find?_of_mem map_erase_eq_filter map_update_of_not_mem
  lookup_index eraseNode_eq)

variable {K V : Type} [DecidableEq K]

def Crumb.link (c : Crumb K V) (n : Nat) : K × Nat := ((c.node n).key, n)

/-- The list holds the entries in order, and the index leads from each key to its
node. -/
structure Refines (c : Crumb K V) (s : Spec K V) : Prop where
  nodup : c.dat.Nodup
  fresh : ∀ n ∈ c.dat, n < c.fresh
  entries : c.dat.map c.node = s.entries
  index : c.idx.Perm (c.dat.map c.link)
  keys : (s.entries.map DataTriple.key).Nodup
  overdue : c.overdue = s.overdue

variable {c : Crumb K V} {s : Spec K V}

omit [DecidableEq K] in
theorem Refines.node_keys (hrefines : Refines c s) : (c.dat.map fun n => (c.node n).key).Nodup := by
  have hkeys := hrefines.keys
  rw [← hrefines.entries, List.map_map] at hkeys
  exact hkeys

omit [DecidableEq K] in
theorem Refines.idx_keys (hrefines : Refines c s) :
    (c.idx.map Prod.fst).Perm (s.entries.map DataTriple.key) := by
  have hperm := hrefines.index.map Prod.fst
  rw [List.map_map] at hperm
  rw [← hrefines.entries, List.map_map]
  exact hperm

theorem Refines.lookup_cases (hrefines : Refines c s) (key : K) :
    lookup c.idx key = none ∧ key ∉ s.entries.map DataTriple.key ∧ s.lookup key = none ∨
    ∃ n ∈ c.dat, lookup c.idx key = some n ∧ (c.node n).key = key ∧
      s.lookup key = some (c.node n) := by
  have hcases := lookup_index hrefines.index hrefines.node_keys key
  rw [hrefines.entries] at hcases
  exact hcases

theorem Refines.erase_entries (hrefines : Refines c s) {n : Nat} (hn : n ∈ c.dat) :
    (c.dat.erase n).map c.node = others s.entries (c.node n).key := by
  rw [map_erase_eq_filter hrefines.nodup hrefines.node_keys hn, hrefines.entries]
  rfl

theorem not_mem_others (entries : List (DataTriple K V)) (key : K) :
    key ∉ (others entries key).map DataTriple.key := by
  intro hmem
  obtain ⟨entry, hentry, rfl⟩ := List.mem_map.mp hmem
  simp [others] at hentry

theorem Refines.cut (hrefines : Refines c s) {n : Nat} (hn : n ∈ c.dat) :
    Refines { c with dat := c.dat.erase n, idx := eraseKey c.idx (c.node n).key }
      { s with entries := others s.entries (c.node n).key } := by
  have hkeys : (c.dat.map fun n => (c.link n).1).Nodup := hrefines.node_keys
  refine ⟨hrefines.nodup.erase n, ?_, hrefines.erase_entries hn, ?_, ?_, hrefines.overdue⟩
  · exact fun m hm => hrefines.fresh m (List.mem_of_mem_erase hm)
  · change (eraseKey c.idx (c.link n).1).Perm ((c.dat.erase n).map c.link)
    rw [map_erase_eq_filter hrefines.nodup hkeys hn]
    exact hrefines.index.filter _
  · exact hrefines.keys.sublist (List.filter_sublist.map DataTriple.key)

theorem Refines.renew (hrefines : Refines c s) {n : Nat} (hn : n ∈ c.dat) (now : Int) :
    ∃ next, c.renew now n = some next ∧ (next.node n).val = (c.node n).val ∧
      Refines next (s.renew now (c.node n)) := by
  have hout : n ∉ c.dat.erase n := hrefines.nodup.not_mem_erase
  have hperm : c.dat.Perm (c.dat.erase n ++ [n]) :=
    (List.perm_cons_erase hn).trans (List.perm_append_singleton _ _).symm
  have hlink : ∀ m, ((Function.update c.node n { c.node n with tick := now } m).key, m) =
      c.link m := by
    intro m
    by_cases heq : m = n
    · subst heq
      rw [Function.update_self]
      rfl
    · rw [Function.update_of_ne heq]
      rfl
  have hrenew : c.renew now n = some { c with
      dat := c.dat.erase n ++ [n]
      node := Function.update c.node n { c.node n with tick := now } } := by
    unfold Crumb.renew toBack
    rw [if_pos hn]
    rfl
  refine ⟨_, hrenew, ?_, hperm.nodup_iff.mp hrefines.nodup, ?_, ?_, ?_, ?_, hrefines.overdue⟩
  · simp only [Function.update_self]
  · exact fun m hm => hrefines.fresh m (hperm.mem_iff.mpr hm)
  · simp only [Spec.renew, List.map_append, List.map_cons, List.map_nil, Function.update_self]
    rw [map_update_of_not_mem hout, hrefines.erase_entries hn]
  · change c.idx.Perm ((c.dat.erase n ++ [n]).map fun m =>
      ((Function.update c.node n { c.node n with tick := now } m).key, m))
    rw [List.map_congr_left fun m _ => hlink m]
    exact hrefines.index.trans (hperm.map c.link)
  · have hnodup : ((c.node n).key :: (others s.entries (c.node n).key).map DataTriple.key).Nodup :=
      List.nodup_cons.mpr ⟨not_mem_others s.entries _,
        hrefines.keys.sublist (List.filter_sublist.map DataTriple.key)⟩
    simp only [Spec.renew, List.map_append, List.map_cons, List.map_nil]
    exact (List.perm_append_singleton _ _).symm.nodup_iff.mp hnodup

omit [DecidableEq K] in
theorem Refines.append (hrefines : Refines c s) {key : K} {val : V} (now : Int)
    (hkey : key ∉ s.entries.map DataTriple.key) :
    Refines { c with
      dat := c.dat ++ [c.fresh]
      node := Function.update c.node c.fresh ⟨now, key, val⟩
      fresh := c.fresh + 1
      idx := (key, c.fresh) :: c.idx }
      { s with entries := s.entries ++ [⟨now, key, val⟩] } := by
  have hfresh : c.fresh ∉ c.dat := fun hmem => Nat.lt_irrefl _ (hrefines.fresh _ hmem)
  have hperm : (c.fresh :: c.dat).Perm (c.dat ++ [c.fresh]) := (List.perm_append_singleton _ _).symm
  refine ⟨hperm.nodup_iff.mp (List.nodup_cons.mpr ⟨hfresh, hrefines.nodup⟩), ?_, ?_, ?_, ?_,
    hrefines.overdue⟩
  · intro m hm
    rcases List.mem_append.mp hm with hold | hnew
    · exact Nat.lt_succ_of_lt (hrefines.fresh m hold)
    · rw [List.mem_singleton.mp hnew]
      exact Nat.lt_succ_self _
  · simp only [List.map_append, List.map_cons, List.map_nil, Function.update_self]
    rw [map_update_of_not_mem hfresh, hrefines.entries]
  · change ((key, c.fresh) :: c.idx).Perm ((c.dat ++ [c.fresh]).map fun m =>
      ((Function.update c.node c.fresh ⟨now, key, val⟩ m).key, m))
    have hold : (c.dat.map fun m => ((Function.update c.node c.fresh ⟨now, key, val⟩ m).key, m)) =
        c.dat.map c.link := List.map_congr_left fun m hm => by
      rw [Function.update_of_ne (ne_of_mem_of_not_mem hm hfresh)]
      rfl
    rw [List.map_append, hold, List.map_cons, List.map_nil, Function.update_self]
    exact (hrefines.index.cons _).trans (List.perm_append_singleton _ _).symm
  · have hnodup := List.nodup_cons.mpr ⟨hkey, hrefines.keys⟩
    rw [List.map_append]
    exact (List.perm_append_singleton _ _).symm.nodup_iff.mp hnodup

def Sorted (entries : List (DataTriple K V)) : Prop :=
  entries.Pairwise fun left right => left.tick ≤ right.tick

omit [DecidableEq K] in
private theorem due_of_head {head : DataTriple K V} {rest : List (DataTriple K V)}
    {overdue now : Int}
    (hsorted : Sorted (head :: rest)) (hhead : now - head.tick < overdue) :
    (⟨head :: rest, overdue⟩ : Spec K V).due now = [] ∧
    (⟨head :: rest, overdue⟩ : Spec K V).keep now = ⟨head :: rest, overdue⟩ := by
  have hlate : ∀ entry ∈ head :: rest, ¬entry.tick ≤ now - overdue := by
    intro entry hentry
    rcases List.mem_cons.mp hentry with rfl | hmem
    · omega
    · have hle := List.rel_of_pairwise_cons hsorted hmem
      omega
  refine ⟨List.filter_eq_nil_iff.mpr fun entry hentry => ?_, ?_⟩
  · simpa using hlate entry hentry
  · unfold Spec.keep
    rw [List.filter_eq_self.mpr fun entry hentry => decide_eq_true (hlate entry hentry)]

theorem Refines.purgeLoop {clock : Nat → Int}
    (hclock : ∀ ⦃i j⦄, i ≤ j → clock i ≤ clock j) {dat : List Nat}
    (hrefines : Refines c s) (hdat : c.dat = dat) (hsorted : Sorted s.entries) (reads : Nat) :
    ∃ next later, Crumb.purgeLoop clock c reads dat = (next, later,
        (s.due (clock (later - 1))).length,
        (s.due (clock (later - 1))).map fun entry => .purge entry.key entry.val) ∧
      reads ≤ later ∧ (dat ≠ [] → reads < later) ∧
      Refines next (s.keep (clock (later - 1))) := by
  obtain ⟨entries, overdue⟩ := s
  induction dat generalizing c entries reads with
  | nil =>
    have hnil : [] = entries := by
      have hnodes := hrefines.entries
      rwa [hdat] at hnodes
    subst hnil
    exact ⟨c, reads, rfl, Nat.le_refl _, fun hne => absurd rfl hne, hrefines⟩
  | cons ii rest ih =>
    have hentries : entries = c.node ii :: rest.map c.node := by
      have hnodes := hrefines.entries
      rw [hdat] at hnodes
      exact hnodes.symm
    have hoverdue : c.overdue = overdue := hrefines.overdue
    have hii : ii ∈ c.dat := hdat ▸ List.mem_cons_self
    unfold Crumb.purgeLoop
    split_ifs with hhead
    · rw [hoverdue] at hhead
      rw [hentries] at hsorted hrefines ⊢
      obtain ⟨hnone, hall⟩ := due_of_head hsorted hhead
      refine ⟨c, reads + 1, ?_, Nat.le_succ _, fun _ => Nat.lt_succ_self _, ?_⟩
      · rw [Nat.add_sub_cancel, hnone]
        rfl
      · rw [Nat.add_sub_cancel, hall]
        exact hrefines
    · have hcut := hrefines.cut hii
      have hrest : others entries (c.node ii).key = rest.map c.node := by
        have herase := hrefines.erase_entries hii
        rw [hdat, List.erase_cons_head] at herase
        exact herase.symm
      simp only [hrest] at hcut
      have hsortedRest : Sorted (rest.map c.node) := by
        rw [hentries] at hsorted
        exact (List.pairwise_cons.mp hsorted).2
      obtain ⟨next, later, hloop, hle, -, hnext⟩ :=
        ih (by simp only [hdat, List.erase_cons_head]) (reads + 1) _ hcut hsortedRest
      have hdue : (c.node ii).tick ≤ clock (later - 1) - overdue := by
        have htime := hclock (show reads ≤ later - 1 by omega)
        omega
      have hdues : (⟨entries, overdue⟩ : Spec K V).due (clock (later - 1)) =
          c.node ii :: (⟨rest.map c.node, overdue⟩ : Spec K V).due (clock (later - 1)) := by
        unfold Spec.due
        simp only [hentries]
        rw [List.filter_cons_of_pos (by simpa using hdue)]
      have hkeep : (⟨entries, overdue⟩ : Spec K V).keep (clock (later - 1)) =
          (⟨rest.map c.node, overdue⟩ : Spec K V).keep (clock (later - 1)) := by
        unfold Spec.keep
        simp only [hentries]
        rw [List.filter_cons_of_neg (by simpa using hdue)]
      refine ⟨next, later, ?_, by omega, fun _ => hle, ?_⟩
      · simp only [hloop, hdues, List.length_cons, List.map_cons]
      · rw [hkeep]
        exact hnext

/-- The clock was read by now at the latest for every entry. -/
def Past (clock : Nat → Int) (reads : Nat) (entries : List (DataTriple K V)) : Prop :=
  ∀ entry ∈ entries, entry.tick ≤ clock reads

omit [DecidableEq K] in
theorem Sorted.append {entries : List (DataTriple K V)} {entry : DataTriple K V}
    (hsorted : Sorted entries) (hpast : ∀ other ∈ entries, other.tick ≤ entry.tick) :
    Sorted (entries ++ [entry]) := by
  refine List.pairwise_append.mpr ⟨hsorted, List.pairwise_singleton _ _, fun left hleft right hright => ?_⟩
  rw [List.mem_singleton.mp hright]
  exact hpast left hleft

theorem Refines.exec {clock : Nat → Int}
    (hclock : ∀ ⦃i j⦄, i ≤ j → clock i ≤ clock j) (hrefines : Refines c s)
    (hsorted : Sorted s.entries) {reads : Nat} (hpast : Past clock reads s.entries)
    (call : Call K V) :
    ∃ next later, c.exec clock reads call =
        some (next, later, (s.exec (clock (later - 1)) call).2) ∧ reads ≤ later ∧
      Refines next (s.exec (clock (later - 1)) call).1 ∧
      Sorted (s.exec (clock (later - 1)) call).1.entries ∧
      Past clock later (s.exec (clock (later - 1)) call).1.entries := by
  have hpastMono : ∀ later, reads ≤ later → Past clock later s.entries := fun later hle entry hentry =>
    (hpast entry hentry).trans (hclock hle)
  have hrenewed : ∀ entry, Sorted (s.renew (clock reads) entry).entries ∧
      Past clock (reads + 1) (s.renew (clock reads) entry).entries := by
    intro entry
    constructor
    · refine Sorted.append (hsorted.sublist List.filter_sublist) fun other hother => ?_
      exact hpast other (List.mem_of_mem_filter hother)
    · intro other hother
      rcases List.mem_append.mp hother with hold | hnew
      · exact hpastMono _ (Nat.le_succ _) other (List.mem_of_mem_filter hold)
      · rw [List.mem_singleton.mp hnew]
        exact hclock (Nat.le_succ _)
  cases call with
  | add key val =>
    rcases hrefines.lookup_cases key with ⟨hlookup, habsent, hnone⟩ | ⟨n, hn, hlookup, -, hsome⟩
    · obtain ⟨next, hadd, hnext⟩ : ∃ next, c.add (clock reads) key val = some (next, true) ∧
          Refines next { s with entries := s.entries ++ [⟨clock reads, key, val⟩] } := by
        refine ⟨_, ?_, hrefines.append (clock reads) habsent⟩
        unfold Crumb.add
        rw [hlookup]
      refine ⟨next, reads + 1, ?_, Nat.le_succ _, ?_⟩
      · simp only [Crumb.exec, hadd, Option.bind_eq_bind, Option.bind_some, Spec.exec, hnone]
        rfl
      · simp only [Nat.add_sub_cancel, Spec.exec, hnone]
        refine ⟨hnext, hsorted.append hpast, fun other hother => ?_⟩
        rcases List.mem_append.mp hother with hold | hnew
        · exact hpastMono _ (Nat.le_succ _) other hold
        · rw [List.mem_singleton.mp hnew]
          exact hclock (Nat.le_succ _)
    · obtain ⟨next, hrenew, -, hnext⟩ := hrefines.renew hn (clock reads)
      refine ⟨next, reads + 1, ?_, Nat.le_succ _, ?_⟩
      · simp only [Crumb.exec, Crumb.add, hlookup, hrenew, Option.bind_eq_bind, Option.bind_some,
          Spec.exec, hsome]
        rfl
      · simp only [Nat.add_sub_cancel, Spec.exec, hsome]
        exact ⟨hnext, hrenewed _⟩
  | sub key =>
    rcases hrefines.lookup_cases key with ⟨hlookup, -, hnone⟩ | ⟨n, hn, hlookup, hkey, hsome⟩
    · refine ⟨c, reads, ?_, Nat.le_refl _, ?_⟩
      · simp only [Crumb.exec, Crumb.sub, hlookup, Option.bind_eq_bind, Option.bind_some, Spec.exec,
          hnone]
        rfl
      · simp only [Spec.exec, hnone]
        exact ⟨hrefines, hsorted, hpast⟩
    · obtain ⟨next, hsub, hnext⟩ : ∃ next, c.sub key =
            some (next, some (c.node n).val, [.erase key (c.node n).val]) ∧
          Refines next { s with entries := others s.entries key } := by
        refine ⟨_, ?_, hkey ▸ hrefines.cut hn⟩
        unfold Crumb.sub
        simp only [hlookup, eraseNode_eq hn]
        rfl
      refine ⟨next, reads, ?_, Nat.le_refl _, ?_⟩
      · simp only [Crumb.exec, hsub, Option.bind_eq_bind, Option.bind_some, Spec.exec, hsome]
        rfl
      · simp only [Spec.exec, hsome]
        exact ⟨hnext, hsorted.sublist List.filter_sublist,
          fun other hother => hpast other (List.mem_of_mem_filter hother)⟩
  | get key =>
    have hget : c.get key = (s.lookup key).map DataTriple.val := by
      unfold Crumb.get
      rcases hrefines.lookup_cases key with ⟨hlookup, -, hnone⟩ | ⟨n, -, hlookup, -, hsome⟩
      · rw [hlookup, hnone]
        rfl
      · rw [hlookup, hsome]
        rfl
    refine ⟨c, reads, ?_, Nat.le_refl _, hrefines, hsorted, hpast⟩
    simp only [Crumb.exec, hget, Spec.exec]
  | touch key =>
    rcases hrefines.lookup_cases key with ⟨hlookup, -, hnone⟩ | ⟨n, hn, hlookup, hkey, hsome⟩
    · refine ⟨c, reads, ?_, Nat.le_refl _, ?_⟩
      · simp only [Crumb.exec, Crumb.touch, hlookup, Option.bind_eq_bind, Option.bind_some,
          Spec.exec, hnone]
        rfl
      · simp only [Spec.exec, hnone]
        exact ⟨hrefines, hsorted, hpast⟩
    · obtain ⟨next, hrenew, hval, hnext⟩ := hrefines.renew hn (clock reads)
      refine ⟨next, reads + 1, ?_, Nat.le_succ _, ?_⟩
      · simp only [Crumb.exec, Crumb.touch, hlookup, hrenew, hval, Option.bind_eq_bind,
          Option.bind_some, Spec.exec, hsome]
        rfl
      · simp only [Nat.add_sub_cancel, Spec.exec, hsome]
        exact ⟨hnext, hrenewed _⟩
  | purge =>
    obtain ⟨next, later, hloop, hle, -, hnext⟩ := hrefines.purgeLoop hclock rfl hsorted reads
    refine ⟨next, later, ?_, hle, hnext, hsorted.sublist List.filter_sublist, ?_⟩
    · simp only [Crumb.exec, Crumb.purge, hloop]
      rfl
    · exact fun other hother => hpastMono later hle other (List.mem_of_mem_filter hother)

private theorem expire_exec (clock : Nat → Int) (c : Expire K) (reads : Nat) (call : Call K Unit) :
    Expire.exec clock c reads call = (Crumb.exec clock c reads call).map fun out =>
      (out.1, out.2.1, out.2.2.1.blind, out.2.2.2) := by
  cases call with
  | add key val =>
    simp only [Expire.exec, Expire.add, Crumb.exec]
    cases Crumb.add c (clock reads) key () <;> rfl
  | sub key =>
    simp only [Expire.exec, Expire.sub, Crumb.exec]
    cases Crumb.sub c key <;> rfl
  | get key => rfl
  | touch key =>
    simp only [Expire.exec, Expire.touch, Crumb.exec]
    cases Crumb.touch c (clock reads) key <;> rfl
  | purge => rfl

/-- Each tick is the time of the last touch. -/
def Told (past : List (Int × Call K V)) (entries : List (DataTriple K V)) : Prop :=
  ∀ entry ∈ entries, lastTouch past entry.key = some entry.tick

private theorem lastTouch_cons (now : Int) (call : Call K V) (past : List (Int × Call K V))
    (key : K) :
    lastTouch ((now, call) :: past) key =
      if call.touches key then some now else lastTouch past key := by
  unfold lastTouch
  rw [List.findSome?_cons]
  split_ifs <;> rfl

theorem Told.keep {past : List (Int × Call K V)} {entries rest : List (DataTriple K V)}
    (htold : Told past entries) (hsub : rest ⊆ entries) (now : Int) (call : Call K V)
    (huntouched : ∀ entry ∈ rest, call.touches entry.key = false) :
    Told ((now, call) :: past) rest := by
  intro entry hentry
  rw [lastTouch_cons, huntouched entry hentry]
  exact htold entry (hsub hentry)

theorem Told.append {past : List (Int × Call K V)} {entries rest : List (DataTriple K V)}
    (htold : Told past entries) (hsub : rest ⊆ entries) {now : Int} (call : Call K V)
    (huntouched : ∀ entry ∈ rest, call.touches entry.key = false) {entry : DataTriple K V}
    (htouches : call.touches entry.key = true) (htick : entry.tick = now) :
    Told ((now, call) :: past) (rest ++ [entry]) := by
  intro other hother
  rcases List.mem_append.mp hother with hold | hnew
  · exact htold.keep hsub now call huntouched other hold
  · rw [List.mem_singleton.mp hnew, lastTouch_cons, htouches, htick]
    rfl

theorem Spec.lookup_key {key : K} {entry : DataTriple K V} (hfound : s.lookup key = some entry) :
    entry.key = key := by
  simpa using List.find?_some hfound

private theorem key_ne_of_lookup {key : K} (hnone : s.lookup key = none) {entry : DataTriple K V}
    (hentry : entry ∈ s.entries) : key ≠ entry.key := by
  intro heq
  exact List.find?_eq_none.mp hnone entry hentry (decide_eq_true heq.symm)

private theorem key_ne_of_others {key : K} {entry : DataTriple K V}
    (hentry : entry ∈ others s.entries key) : key ≠ entry.key := by
  intro heq
  exact not_mem_others s.entries key (List.mem_map.mpr ⟨entry, hentry, heq.symm⟩)

theorem Told.renew {past : List (Int × Call K V)} (htold : Told past s.entries) {key : K}
    {entry : DataTriple K V} (hfound : s.lookup key = some entry) {now : Int} (call : Call K V)
    (htouches : ∀ other, call.touches other = decide (key = other)) :
    Told ((now, call) :: past) (s.renew now entry).entries := by
  have hkey := Spec.lookup_key hfound
  refine htold.append List.filter_sublist.subset call ?_ ?_ rfl
  · intro other hother
    rw [htouches]
    exact decide_eq_false (hkey ▸ key_ne_of_others hother)
  · rw [htouches]
    exact decide_eq_true hkey.symm

theorem Told.exec {past : List (Int × Call K V)} (htold : Told past s.entries) (now : Int)
    (call : Call K V) : Told ((now, call) :: past) (s.exec now call).1.entries := by
  cases call with
  | add key val =>
    have htouches : (Call.add key val).touches key = true := decide_eq_true rfl
    cases hlookup : s.lookup key with
    | none =>
      simp only [Spec.exec, hlookup]
      refine htold.append (List.Subset.refl _) (.add key val) (fun entry hentry => ?_) htouches rfl
      exact decide_eq_false (key_ne_of_lookup hlookup hentry)
    | some entry =>
      simp only [Spec.exec, hlookup]
      exact htold.renew hlookup (.add key val) fun _ => rfl
  | sub key =>
    cases hlookup : s.lookup key with
    | none =>
      simp only [Spec.exec, hlookup]
      exact htold.keep (List.Subset.refl _) now (.sub key) fun _ _ => rfl
    | some entry =>
      simp only [Spec.exec, hlookup]
      exact htold.keep List.filter_sublist.subset now (.sub key) fun _ _ => rfl
  | get key => exact htold.keep (List.Subset.refl _) now (.get key) fun _ _ => rfl
  | touch key =>
    cases hlookup : s.lookup key with
    | none =>
      simp only [Spec.exec, hlookup]
      refine htold.keep (List.Subset.refl _) now (.touch key) fun entry hentry => ?_
      exact decide_eq_false (key_ne_of_lookup hlookup hentry)
    | some entry =>
      simp only [Spec.exec, hlookup]
      exact htold.renew hlookup (.touch key) fun _ => rfl
  | purge => exact htold.keep List.filter_sublist.subset now .purge fun _ _ => rfl

structure Inv (clock : Nat → Int) (system : System K V) : Prop where
  refines : Refines system.crumb system.spec
  sorted : Sorted system.spec.entries
  past : Past clock system.reads system.spec.entries
  told : Told system.past system.spec.entries
  agrees : ∀ entry ∈ system.outcomes, entry.1 = entry.2

/-- A container that answers as `crumb` does, up to what it leaves out. -/
def Follows (run : Exec K V) (answer : Reply V → Reply V) : Prop :=
  ∀ clock c reads call, run clock c reads call = (c.exec clock reads call).map fun out =>
    (out.1, out.2.1, answer out.2.2.1, out.2.2.2)

private theorem crumb_follows : Follows (@Crumb.exec K V _) id := by
  intro clock c reads call
  cases c.exec clock reads call <;> rfl

private theorem expire_follows : Follows (@Expire.exec K _) Reply.blind := expire_exec

variable {exec : Exec K V} {answer : Reply V → Reply V}

theorem Inv.step {clock : Nat → Int}
    (hclock : ∀ ⦃i j⦄, i ≤ j → clock i ≤ clock j) (hfollows : Follows exec answer)
    {system : System K V} (call : Call K V) (hinv : Inv clock system) :
    ∃ next, Expiry.step exec answer clock system call = some next ∧ Inv clock next := by
  obtain ⟨crumb, later, hexec, -, hrefines, hsorted, hpast⟩ :=
    hinv.refines.exec hclock hinv.sorted hinv.past call
  have hanswer := hfollows clock system.crumb system.reads call
  rw [hexec, Option.map_some] at hanswer
  have hstep : Expiry.step exec answer clock system call = some
      ⟨crumb, later, (system.spec.exec (clock (later - 1)) call).1,
        ((answer (system.spec.exec (clock (later - 1)) call).2.1,
            (system.spec.exec (clock (later - 1)) call).2.2),
          (answer (system.spec.exec (clock (later - 1)) call).2.1,
            (system.spec.exec (clock (later - 1)) call).2.2)) :: system.outcomes,
        (clock (later - 1), call) :: system.past⟩ := by
    unfold Expiry.step
    rw [hanswer]
    rfl
  refine ⟨_, hstep, hrefines, hsorted, hpast, hinv.told.exec _ call, fun entry hentry => ?_⟩
  rcases List.mem_cons.mp hentry with rfl | hold
  · rfl
  · exact hinv.agrees entry hold

theorem Inv.sound {clock : Nat → Int} {system : System K V} (hinv : Inv clock system) :
    Sound system where
  agrees := hinv.agrees
  entries := hinv.refines.entries
  keys := hinv.refines.idx_keys
  distinct := hinv.refines.keys
  sorted := hinv.sorted
  ticks := hinv.told

theorem start_inv (clock : Nat → Int) (node : Nat → DataTriple K V) (sec : Int) :
    Inv clock (start node sec) :=
  ⟨⟨List.nodup_nil, fun _ hn => absurd hn List.not_mem_nil, rfl, List.Perm.refl _, List.nodup_nil,
    rfl⟩, List.Pairwise.nil, fun _ hentry => absurd hentry List.not_mem_nil,
    fun _ hentry => absurd hentry List.not_mem_nil, fun _ hentry => absurd hentry List.not_mem_nil⟩

theorem run_sound {clock : Nat → Int}
    (hclock : ∀ ⦃i j⦄, i ≤ j → clock i ≤ clock j) (hfollows : Follows exec answer)
    (node : Nat → DataTriple K V) (sec : Int) (calls : List (Call K V)) :
    ∃ final, run (step exec answer clock) (start node sec) calls = some final ∧ Sound final := by
  obtain ⟨final, hrun, hinv⟩ := run_along
    (fun _ call _ hinv => Inv.step hclock hfollows call hinv)
    (along_of_forall (fun _ _ => trivial) (start node sec)) (start_inv clock node sec)
  exact ⟨final, hrun, hinv.sound⟩

/-- Under every clock that never goes back, and in every run, both containers keep
their entries in the order of the last touch and purge exactly those that were not
touched for the interval. -/
theorem expiry_sound (K V : Type) [DecidableEq K] (clock : Nat → Int)
    (hclock : ∀ ⦃i j⦄, i ≤ j → clock i ≤ clock j) (sec : Int) :
    (∀ (node : Nat → DataTriple K V) (calls : List (Call K V)),
      ∃ final, run (step Crumb.exec id clock) (start node sec) calls = some final ∧ Sound final) ∧
    ∀ (node : Nat → DataTriple K Unit) (calls : List (Call K Unit)),
      ∃ final, run (step Expire.exec Reply.blind clock) (start node sec) calls = some final ∧
        Sound final :=
  ⟨fun node calls => run_sound hclock crumb_follows node sec calls,
    fun node calls => run_sound hclock expire_follows node sec calls⟩

/-- The key that was touched again outlives the purge. -/
theorem expiry_sound_touched : ∃ final : System Nat Nat,
    run (step Crumb.exec id Int.ofNat) (start (fun _ => ⟨0, 0, 0⟩) 3)
        [.add 1 10, .add 2 20, .touch 1, .add 1 11, .get 1, .purge] = some final ∧
      final.outcomes.head? = some ((.count 1, [.purge 2 20]), (.count 1, [.purge 2 20])) ∧
      Sound final := by
  obtain ⟨final, hrun, hsound⟩ := (expiry_sound Nat Nat Int.ofNat
    (fun _ _ hle => Int.ofNat_le.mpr hle) 3).1 (fun _ => ⟨0, 0, 0⟩)
      [.add 1 10, .add 2 20, .touch 1, .add 1 11, .get 1, .purge]
  refine ⟨final, hrun, ?_, hsound⟩
  have hhead : (run (step Crumb.exec id Int.ofNat) (start (fun _ => ⟨0, 0, 0⟩) 3)
      [.add 1 10, .add 2 20, .touch 1, .add 1 11, .get 1, .purge]).bind
      (fun system : System Nat Nat => system.outcomes.head?) =
      some ((.count 1, [.purge 2 20]), (.count 1, [.purge 2 20])) := by decide
  rw [hrun] at hhead
  exact hhead

end Libsax.Container.Expiry
