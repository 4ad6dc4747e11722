import Mathlib.Data.List.Nodup
import Mathlib.Data.List.Perm.Basic
import Libsax.Container.LruCache

/-! Every operation of the list with its index does to the cache it stands for
what the cache's own operation does. -/
namespace Libsax.Container.Lru

open Libsax.Lib

variable {K V : Type} [DecidableEq K]

theorem find?_of_mem {α : Type} {key : α → K} {list : List α} (hnodup : (list.map key).Nodup)
    {x : α} (hmem : x ∈ list) : list.find? (fun y => key y = key x) = some x := by
  induction list with
  | nil => exact absurd hmem List.not_mem_nil
  | cons y rest ih =>
    rw [List.map_cons, List.nodup_cons] at hnodup
    rcases List.mem_cons.mp hmem with rfl | hrest
    · exact List.find?_cons_of_pos (decide_eq_true rfl)
    · have hne : key y ≠ key x := fun heq =>
        hnodup.1 (heq ▸ List.mem_map.mpr ⟨x, hrest, rfl⟩)
      rw [List.find?_cons_of_neg (by simpa using hne)]
      exact ih hnodup.2 hrest

theorem map_erase_eq_filter {α β : Type} [DecidableEq α] {list : List α} (hnodup : list.Nodup)
    {f : α → β} {key : β → K} (hkeys : (list.map fun x => key (f x)).Nodup) {x : α}
    (hmem : x ∈ list) :
    (list.erase x).map f = (list.map f).filter fun y => key y ≠ key (f x) := by
  rw [hnodup.erase_eq_filter, List.filter_map]
  congr 1
  refine List.filter_congr fun y hy => ?_
  by_cases heq : y = x
  · subst heq
    simp
  · have hne : key (f y) ≠ key (f x) := fun hkey =>
      heq (List.inj_on_of_nodup_map hkeys hy hmem hkey)
    simp [heq, hne]

theorem map_update_of_not_mem {α β : Type} [DecidableEq α] {list : List α} {x : α}
    (hx : x ∉ list) (f : α → β) (y : β) : list.map (Function.update f x y) = list.map f :=
  List.map_congr_left fun _ hz => Function.update_of_ne (ne_of_mem_of_not_mem hz hx) y f

theorem lookup_index {α : Type} {keyOf : α → K} {node : Nat → α} {dat : List Nat}
    {idx : List (K × Nat)} (hindex : idx.Perm (dat.map fun n => (keyOf (node n), n)))
    (hkeys : (dat.map fun n => keyOf (node n)).Nodup) (key : K) :
    lookup idx key = none ∧ key ∉ (dat.map node).map keyOf ∧
      (dat.map node).find? (fun entry => keyOf entry = key) = none ∨
    ∃ n ∈ dat, lookup idx key = some n ∧ keyOf (node n) = key ∧
      (dat.map node).find? (fun entry => keyOf entry = key) = some (node n) := by
  unfold lookup
  cases hfind : idx.find? (fun entry => entry.1 = key) with
  | none =>
    have hne : ∀ entry ∈ dat.map node, keyOf entry ≠ key := by
      intro entry hentry hkey
      obtain ⟨n, hn, rfl⟩ := List.mem_map.mp hentry
      have hlink := hindex.mem_iff.mpr (List.mem_map.mpr ⟨n, hn, rfl⟩)
      exact List.find?_eq_none.mp hfind _ hlink (decide_eq_true hkey)
    refine Or.inl ⟨rfl, fun hmem => ?_, List.find?_eq_none.mpr fun entry hentry => ?_⟩
    · obtain ⟨entry, hentry, hkey⟩ := List.mem_map.mp hmem
      exact hne entry hentry hkey
    · simpa using hne entry hentry
  | some entry =>
    have hkey : entry.1 = key := by simpa using List.find?_some hfind
    obtain ⟨n, hn, rfl⟩ := List.mem_map.mp (hindex.mem_iff.mp (List.mem_of_find?_eq_some hfind))
    have hnode : keyOf (node n) = key := hkey
    refine Or.inr ⟨n, hn, rfl, hnode, ?_⟩
    rw [← hnode]
    exact find?_of_mem (by rw [List.map_map]; exact hkeys) (List.mem_map.mpr ⟨n, hn, rfl⟩)

private theorem others_eq_self {entries : List (K × V)} {key : K}
    (hkey : key ∉ entries.map Prod.fst) : others entries key = entries := by
  refine List.filter_eq_self.mpr fun entry hentry => ?_
  have hne : entry.1 ≠ key := fun heq => hkey (heq ▸ List.mem_map.mpr ⟨entry, hentry, rfl⟩)
  simpa using hne

theorem not_mem_others (entries : List (K × V)) (key : K) :
    key ∉ (others entries key).map Prod.fst := by
  intro hmem
  obtain ⟨entry, hentry, rfl⟩ := List.mem_map.mp hmem
  simp [others] at hentry

section Arguments

variable {α : Type} {dat : List Nat} {node : Nat → K × V} {arg : Arg K V α} {x : α}

/-- If the reference leads into node `n`, it still reads `x` once the node holds `pair`. -/
def Arg.Steady (n : Nat) (pair : K × V) (x : α) : Arg K V α → Prop
  | .own _ => True
  | .inside m read => m = n → read pair = x

def Arg.Inside (n : Nat) : Arg K V α → Prop
  | .own _ => False
  | .inside m _ => m = n

omit [DecidableEq K] in
@[simp] theorem Arg.get_own : (Arg.own x : Arg K V α).get dat node = some x := rfl

omit [DecidableEq K] in
theorem Arg.get_inside {m : Nat} {read : K × V → α} :
    (Arg.inside m read).get dat node = some x ↔ m ∈ dat ∧ read (node m) = x := by
  simp [Arg.get]

omit [DecidableEq K] in
theorem Arg.Inside.mem (hget : arg.get dat node = some x) {n : Nat} (hinside : arg.Inside n) :
    n ∈ dat := by
  cases arg with
  | own _ => exact hinside.elim
  | inside m read =>
    obtain rfl : m = n := hinside
    exact (Arg.get_inside.mp hget).1

omit [DecidableEq K] in
theorem Arg.steady_of_not_mem (hget : arg.get dat node = some x) {n : Nat} (hn : n ∉ dat)
    (pair : K × V) : arg.Steady n pair x := by
  cases arg with
  | own _ => trivial
  | inside m read => exact fun heq => absurd (Arg.Inside.mem hget heq) hn

omit [DecidableEq K] in
theorem Arg.get_update (hget : arg.get dat node = some x) {more : List Nat} (hsub : dat ⊆ more)
    {n : Nat} {pair : K × V} (hsteady : arg.Steady n pair x) :
    arg.get more (Function.update node n pair) = some x := by
  cases arg with
  | own _ => exact hget
  | inside m read =>
    obtain ⟨hm, hread⟩ := Arg.get_inside.mp hget
    refine Arg.get_inside.mpr ⟨hsub hm, ?_⟩
    by_cases heq : m = n
    · rw [heq, Function.update_self, hsteady heq]
    · rwa [Function.update_of_ne heq]

omit [DecidableEq K] in
theorem Arg.get_erase (hget : arg.get dat node = some x) {n : Nat} (hout : ¬ arg.Inside n) :
    arg.get (dat.erase n) node = some x := by
  cases arg with
  | own _ => exact hget
  | inside m read =>
    obtain ⟨hm, hread⟩ := Arg.get_inside.mp hget
    exact Arg.get_inside.mpr ⟨(List.mem_erase_of_ne hout).mpr hm, hread⟩

end Arguments

def Cache.link (c : Cache K V) (n : Nat) : K × Nat := ((c.node n).1, n)

/-- The list holds the entries of the cache in order, and the index leads from
each key to its node. `ordered` is what the index type keeps of its order. -/
structure Refines (ordered : List (K × Nat) → Prop) (c : Cache K V) (s : Spec K V) : Prop where
  nodup : c.dat.Nodup
  fresh : ∀ n ∈ c.dat, n < c.fresh
  entries : c.dat.map c.node = s.entries
  index : c.idx.Perm (c.dat.map c.link)
  keys : (s.entries.map Prod.fst).Nodup
  ordered : ordered c.idx
  cap : c.cap = s.cap
  room : s.entries.length ≤ s.cap
  cap_pos : 0 < s.cap

section Refinement

variable {ordered : List (K × Nat) → Prop} {c : Cache K V} {s : Spec K V}

omit [DecidableEq K] in
theorem Refines.node_keys (hrefines : Refines ordered c s) :
    (c.dat.map fun n => (c.node n).1).Nodup := by
  have hkeys := hrefines.keys
  rw [← hrefines.entries, List.map_map] at hkeys
  exact hkeys

omit [DecidableEq K] in
theorem Refines.idx_keys (hrefines : Refines ordered c s) :
    (c.idx.map Prod.fst).Perm (s.entries.map Prod.fst) := by
  have hperm := hrefines.index.map Prod.fst
  rw [List.map_map] at hperm
  rw [← hrefines.entries, List.map_map]
  exact hperm

theorem Refines.lookup_cases (hrefines : Refines ordered c s) (key : K) :
    lookup c.idx key = none ∧ key ∉ s.entries.map Prod.fst ∧
      s.entries.find? (fun entry => entry.1 = key) = none ∨
    ∃ n ∈ c.dat, lookup c.idx key = some n ∧ (c.node n).1 = key ∧
      s.entries.find? (fun entry => entry.1 = key) = some (c.node n) := by
  have hcases := lookup_index hrefines.index hrefines.node_keys key
  rw [hrefines.entries] at hcases
  exact hcases

theorem Refines.erase_entries (hrefines : Refines ordered c s) {n : Nat} (hn : n ∈ c.dat) :
    (c.dat.erase n).map c.node = others s.entries (c.node n).1 := by
  rw [map_erase_eq_filter hrefines.nodup hrefines.node_keys hn, hrefines.entries]
  rfl

theorem Refines.erase_index (hrefines : Refines ordered c s) {n : Nat} (hn : n ∈ c.dat) :
    (eraseKey c.idx (c.node n).1).Perm ((c.dat.erase n).map c.link) := by
  have hkeys : (c.dat.map fun n => (c.link n).1).Nodup := hrefines.node_keys
  rw [map_erase_eq_filter hrefines.nodup hkeys hn]
  exact hrefines.index.filter _

private theorem toFront_eq {dat : List Nat} {n : Nat} (hn : n ∈ dat) :
    toFront dat n = some (n :: dat.erase n) := if_pos hn

theorem eraseNode_eq {dat : List Nat} {n : Nat} (hn : n ∈ dat) :
    eraseNode dat n = some (dat.erase n) := if_pos hn

private theorem others_keys (hrefines : Refines ordered c s) (key : K) :
    (key :: (others s.entries key).map Prod.fst).Nodup :=
  List.nodup_cons.mpr ⟨not_mem_others s.entries key,
    hrefines.keys.sublist (List.filter_sublist.map Prod.fst)⟩

private theorem length_others {entries : List (K × V)} {entry : K × V} (hentry : entry ∈ entries) :
    (others entries entry.1).length + 1 ≤ entries.length := by
  refine List.length_filter_lt_length_iff_exists.mpr ⟨entry, hentry, ?_⟩
  simp

theorem Refines.touch (hrefines : Refines ordered c s) {n : Nat} (hn : n ∈ c.dat) {val : V}
    {node : Nat → K × V} (hnode : node = Function.update c.node n ((c.node n).1, val)) :
    Refines ordered { c with dat := n :: c.dat.erase n, node := node }
      { s with entries := ((c.node n).1, val) :: others s.entries (c.node n).1 } := by
  have hout : n ∉ c.dat.erase n := hrefines.nodup.not_mem_erase
  have hperm : c.dat.Perm (n :: c.dat.erase n) := List.perm_cons_erase hn
  have hlink : ∀ m, ((node m).1, m) = c.link m := by
    intro m
    rw [hnode]
    by_cases heq : m = n
    · subst heq
      rw [Function.update_self]
      rfl
    · rw [Function.update_of_ne heq]
      rfl
  have hentry : c.node n ∈ s.entries := hrefines.entries ▸ List.mem_map.mpr ⟨n, hn, rfl⟩
  refine ⟨hperm.nodup_iff.mp hrefines.nodup, ?_, ?_, ?_, others_keys hrefines _,
    hrefines.ordered, hrefines.cap, ?_, hrefines.cap_pos⟩
  · intro m hm
    exact hrefines.fresh m (hperm.mem_iff.mpr hm)
  · change (n :: c.dat.erase n).map node = _
    rw [List.map_cons, hnode, Function.update_self, map_update_of_not_mem hout,
      hrefines.erase_entries hn]
  · change c.idx.Perm ((n :: c.dat.erase n).map fun m => ((node m).1, m))
    rw [List.map_congr_left fun m _ => hlink m]
    exact hrefines.index.trans (hperm.map c.link)
  · change (_ :: others s.entries (c.node n).1).length ≤ s.cap
    have hlength := length_others hentry
    rw [List.length_cons]
    exact hlength.trans hrefines.room

theorem Refines.find (hrefines : Refines ordered c s) {sought : Arg K V K} {key : K}
    (hsought : sought.get c.dat c.node = some key) :
    ∃ next, c.find sought = some (next, (s.find key).2) ∧
      Refines ordered next (s.find key).1 := by
  unfold Cache.find Spec.find
  rw [hsought, Option.bind_eq_bind, Option.bind_some]
  rcases hrefines.lookup_cases key with ⟨hlookup, -, hfind⟩ | ⟨n, hn, hlookup, hkey, hfind⟩
  · rw [hlookup, hfind]
    exact ⟨c, rfl, hrefines⟩
  · rw [hlookup, hfind]
    simp only [toFront_eq hn]
    refine ⟨{ c with dat := n :: c.dat.erase n }, rfl, ?_⟩
    have hsame : c.node = Function.update c.node n ((c.node n).1, (c.node n).2) :=
      (Function.update_eq_self n c.node).symm
    rw [← hkey]
    exact hrefines.touch hn hsame

theorem Refines.remove_node (hrefines : Refines ordered c s) {n : Nat} (hn : n ∈ c.dat)
    {idx : List (K × Nat)} (hidx : idx.Perm ((c.dat.erase n).map c.link))
    (hordered : ordered idx) :
    Refines ordered { c with dat := c.dat.erase n, idx := idx }
      { s with entries := others s.entries (c.node n).1 } := by
  refine ⟨hrefines.nodup.erase n, ?_, hrefines.erase_entries hn, hidx, ?_, hordered,
    hrefines.cap, ?_, hrefines.cap_pos⟩
  · intro m hm
    exact hrefines.fresh m (List.mem_of_mem_erase hm)
  · exact hrefines.keys.sublist (List.filter_sublist.map Prod.fst)
  · exact (List.length_filter_le _ _).trans hrefines.room

omit [DecidableEq K] in
theorem Refines.push (hrefines : Refines ordered c s) {key : K} {val : V} {n fresh : Nat}
    (hn : n ∉ c.dat) (hfresh : ∀ m ∈ n :: c.dat, m < fresh)
    (hkey : key ∉ s.entries.map Prod.fst) (hroom : s.entries.length < s.cap)
    {idx : List (K × Nat)} (hidx : idx.Perm ((key, n) :: c.idx)) (hordered : ordered idx) :
    Refines ordered ⟨n :: c.dat, Function.update c.node n (key, val), fresh, idx, c.cap⟩
      { s with entries := (key, val) :: s.entries } := by
  refine ⟨List.nodup_cons.mpr ⟨hn, hrefines.nodup⟩, hfresh, ?_, ?_,
    List.nodup_cons.mpr ⟨hkey, hrefines.keys⟩, hordered, hrefines.cap, hroom, hrefines.cap_pos⟩
  · change (n :: c.dat).map (Function.update c.node n (key, val)) = _
    rw [List.map_cons, Function.update_self, map_update_of_not_mem hn, hrefines.entries]
  · change idx.Perm ((n :: c.dat).map fun m => ((Function.update c.node n (key, val) m).1, m))
    rw [List.map_cons, Function.update_self]
    have hrest : (c.dat.map fun m => ((Function.update c.node n (key, val) m).1, m)) =
        c.dat.map c.link := List.map_congr_left fun m hm => by
      rw [Function.update_of_ne (ne_of_mem_of_not_mem hm hn)]
      rfl
    rw [hrest]
    exact hidx.trans (hrefines.index.cons _)

/-- Filing a new key adds it and keeps the order; so does leaving keys out. -/
structure Lawful (kind : Kind K V) (ordered : List (K × Nat) → Prop) : Prop where
  nil : ordered []
  store_perm : ∀ idx key n, key ∉ idx.map Prod.fst →
    (kind.store key n idx).Perm ((key, n) :: idx)
  store_ordered : ∀ idx key n, ordered idx → key ∉ idx.map Prod.fst →
    ordered (kind.store key n idx)
  filter : ∀ idx (keeps : K × Nat → Bool), ordered idx → ordered (idx.filter keeps)
  erased : ∀ key val, kind.erased key (key, val) = .erase key val

variable {kind : Kind K V}

private theorem eraseKey_eq_self {idx : List (K × Nat)} {key : K} (hkey : key ∉ idx.map Prod.fst) :
    eraseKey idx key = idx := others_eq_self hkey

theorem Refines.recycle (hlawful : Lawful kind ordered) (hrefines : Refines ordered c s)
    {key : K} (val : V) (habsent : key ∉ s.entries.map Prod.fst)
    (hfull : s.entries.length ≥ s.cap) :
    ∃ n, c.dat.getLast? = some n ∧ n ∈ c.dat ∧ s.entries.getLast? = some (c.node n) ∧
      Refines ordered { c with
        dat := n :: c.dat.erase n
        node := Function.update c.node n (key, val)
        idx := assign kind (eraseKey c.idx (c.node n).1) key n }
        { s with entries := (key, val) :: s.entries.dropLast } := by
  have hlength : c.dat.length = s.entries.length := by
    rw [← hrefines.entries, List.length_map]
  have hne : c.dat ≠ [] := by
    intro hnil
    rw [hnil, List.length_nil] at hlength
    have hpos := hrefines.cap_pos
    omega
  obtain ⟨front, n, hsplit⟩ : ∃ front n, c.dat = front ++ [n] :=
    ⟨_, _, (List.dropLast_append_getLast hne).symm⟩
  have hn : n ∈ c.dat := by
    rw [hsplit]
    exact List.mem_append_right _ (List.mem_singleton_self n)
  have hout : n ∉ front := by
    have hnodup := hrefines.nodup
    rw [hsplit, List.nodup_append] at hnodup
    exact fun hmem => hnodup.2.2 n hmem n (List.mem_singleton_self n) rfl
  have herase : c.dat.erase n = front := by
    rw [hsplit, List.erase_append_right _ hout, List.erase_cons_head, List.append_nil]
  have hlast : c.dat.getLast? = some n := by
    rw [hsplit, List.getLast?_concat]
  have hspecLast : s.entries.getLast? = some (c.node n) := by
    rw [← hrefines.entries, List.getLast?_map, hlast]
    rfl
  have hspecFront : s.entries.dropLast = others s.entries (c.node n).1 := by
    rw [← hrefines.erase_entries hn, herase, ← hrefines.entries, hsplit, List.map_append,
      List.map_singleton, List.dropLast_concat]
  refine ⟨n, hlast, hn, hspecLast, ?_⟩
  have hcut := hrefines.remove_node hn (hrefines.erase_index hn)
    (hlawful.filter _ _ hrefines.ordered)
  have hcutAbsent : key ∉ (others s.entries (c.node n).1).map Prod.fst := fun hmem =>
    habsent ((List.filter_sublist.map Prod.fst).subset hmem)
  have hcutIdx : key ∉ (eraseKey c.idx (c.node n).1).map Prod.fst := fun hmem =>
    hcutAbsent (hcut.idx_keys.mem_iff.mp hmem)
  have hentry : c.node n ∈ s.entries := hrefines.entries ▸ List.mem_map.mpr ⟨n, hn, rfl⟩
  have hroom : (others s.entries (c.node n).1).length < s.cap :=
    Nat.lt_of_lt_of_le (length_others hentry) hrefines.room
  have hbelow : ∀ m ∈ n :: c.dat.erase n, m < c.fresh := fun m hm =>
    hrefines.fresh m ((List.perm_cons_erase hn).mem_iff.mpr hm)
  rw [hspecFront]
  unfold assign
  rw [eraseKey_eq_self hcutIdx]
  exact hcut.push hrefines.nodup.not_mem_erase hbelow hcutAbsent hroom
    (hlawful.store_perm _ key n hcutIdx)
    (hlawful.store_ordered _ key n hcut.ordered hcutIdx)

theorem Refines.insert (hlawful : Lawful kind ordered) (hrefines : Refines ordered c s)
    (key : K) (val : V) :
    ∃ next, c.insert kind (.own key) (.own val) = some (next, (s.insert key val).2) ∧
      Refines ordered next (s.insert key val).1 := by
  have hlength : c.dat.length = s.entries.length := by
    rw [← hrefines.entries, List.length_map]
  have hfullIff : c.dat.length ≥ c.cap ↔ s.entries.length ≥ s.cap := by
    rw [hlength, hrefines.cap]
  unfold Cache.insert Spec.insert
  simp only [Arg.get_own, Option.bind_eq_bind, Option.bind_some]
  rcases hrefines.lookup_cases key with ⟨hlookup, habsent, -⟩ | ⟨n, hn, hlookup, hkey, hfind⟩
  · rw [hlookup, if_neg habsent]
    by_cases hfull : s.entries.length ≥ s.cap
    · obtain ⟨n, hlast, hn, hspecLast, hnext⟩ := hrefines.recycle hlawful val habsent hfull
      rw [if_pos hfull]
      simp only [if_pos (hfullIff.mpr hfull), hlast, hspecLast, Option.bind_some, toFront_eq hn]
      exact ⟨_, rfl, hnext⟩
    · rw [if_neg hfull]
      simp only [if_neg (fun h => hfull (hfullIff.mp h))]
      have hidxAbsent : key ∉ c.idx.map Prod.fst := fun hmem =>
        habsent (hrefines.idx_keys.mem_iff.mp hmem)
      have hfresh : c.fresh ∉ c.dat := fun hmem => Nat.lt_irrefl _ (hrefines.fresh _ hmem)
      have hbelow : ∀ m ∈ c.fresh :: c.dat, m < c.fresh + 1 := by
        intro m hm
        rcases List.mem_cons.mp hm with rfl | hold
        · exact Nat.lt_succ_self _
        · exact Nat.lt_succ_of_lt (hrefines.fresh m hold)
      refine ⟨_, rfl, ?_⟩
      unfold assign
      rw [eraseKey_eq_self hidxAbsent]
      exact hrefines.push hfresh hbelow habsent (Nat.lt_of_not_le hfull)
        (hlawful.store_perm _ _ _ hidxAbsent)
        (hlawful.store_ordered _ _ _ hrefines.ordered hidxAbsent)
  · have hpresent : key ∈ s.entries.map Prod.fst :=
      hkey ▸ List.mem_map.mpr ⟨_, List.mem_of_find?_eq_some hfind, rfl⟩
    rw [hlookup, if_pos hpresent]
    simp only [toFront_eq hn, Option.bind_some]
    refine ⟨_, rfl, ?_⟩
    have htouch := hrefines.touch hn
      (rfl : Function.update c.node n ((c.node n).1, val) = Function.update c.node n _)
    rw [hkey] at htouch ⊢
    exact htouch

theorem Refines.remove (hlawful : Lawful kind ordered) (hrefines : Refines ordered c s)
    {sought : Arg K V K} {key : K} (hsought : sought.get c.dat c.node = some key)
    (hsteady : kind.byKey = true → ∀ n, lookup c.idx key = some n → ¬ sought.Inside n) :
    ∃ next, c.remove kind sought = some (next, (s.remove key).2.1, (s.remove key).2.2) ∧
      Refines ordered next (s.remove key).1 := by
  unfold Cache.remove Spec.remove
  rw [hsought, Option.bind_eq_bind, Option.bind_some]
  rcases hrefines.lookup_cases key with ⟨hlookup, -, hfind⟩ | ⟨n, hn, hlookup, hkey, hfind⟩
  · rw [hlookup, hfind]
    exact ⟨c, rfl, hrefines⟩
  · rw [hlookup, hfind]
    have herased : kind.erased key (c.node n) = .erase key (c.node n).2 := by
      rw [← hlawful.erased key (c.node n).2, ← hkey]
    have hnext : Refines ordered { c with dat := c.dat.erase n, idx := eraseKey c.idx key }
        { s with entries := others s.entries key } := by
      rw [← hkey]
      exact hrefines.remove_node hn (hrefines.erase_index hn)
        (hlawful.filter _ _ hrefines.ordered)
    simp only [eraseNode_eq hn, Option.bind_eq_bind, Option.bind_some, herased]
    split_ifs with hbyKey
    · rw [Arg.get_erase hsought (hsteady hbyKey n hlookup)]
      exact ⟨_, rfl, hnext⟩
    · exact ⟨_, rfl, hnext⟩

theorem Refines.insert_own (hrefines : Refines ordered c s) {key : Arg K V K}
    {val : Arg K V V} {k : K} {v : V} (hkey : key.get c.dat c.node = some k)
    (hval : val.get c.dat c.node = some v)
    (hsteady : lookup c.idx k = none → c.cap ≤ c.dat.length → ∀ n, c.dat.getLast? = some n →
      val.Steady n (k, (c.node n).2) v ∧ key.Steady n (k, v) k) :
    c.insert kind key val = c.insert kind (.own k) (.own v) := by
  unfold Cache.insert
  simp only [hkey, Arg.get_own, Option.bind_eq_bind, Option.bind_some]
  cases hlookup : lookup c.idx k with
  | some n => simp only [hval, Option.bind_some]
  | none =>
    dsimp only
    split_ifs with hfull
    · cases hlast : c.dat.getLast? with
      | none => rfl
      | some n =>
        obtain ⟨hsecond, hfiled⟩ := hsteady hlookup hfull n hlast
        have hn : n ∈ c.dat := List.mem_of_getLast? hlast
        have hfront : c.dat ⊆ n :: c.dat.erase n := (List.perm_cons_erase hn).subset
        simp only [Option.bind_some, toFront_eq hn,
          Arg.get_update hval (List.Subset.refl _) hsecond, Arg.get_update hkey hfront hfiled]
    · have hfresh : c.fresh ∉ c.dat := fun hmem => Nat.lt_irrefl _ (hrefines.fresh _ hmem)
      simp only [hval, Option.bind_some, Arg.get_update hkey (List.subset_cons_self _ _)
        (Arg.steady_of_not_mem hkey hfresh (k, v))]

end Refinement

end Libsax.Container.Lru
