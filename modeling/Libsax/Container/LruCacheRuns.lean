import Mathlib.Data.List.TakeWhile
import Libsax.Container.LruCacheRefines

/-! Runs of `LRU_map`, `LRU_set` and `LRU_btree` next to the cache: the same
outcomes, and an order that the whole history of calls determines. -/
namespace Libsax.Container.Lru

open Libsax.Lib

variable {K V : Type}

private theorem lruMap_lawful [DecidableEq K] : Lawful (lruMap K V) fun _ => True where
  nil := trivial
  store_perm := fun _ _ _ _ => List.Perm.refl _
  store_ordered := fun _ _ _ _ _ => trivial
  filter := fun _ _ _ => trivial
  erased := fun _ _ => rfl

private theorem lruSet_lawful [DecidableEq K] : Lawful (lruSet K) fun _ => True where
  nil := trivial
  store_perm := fun _ _ _ _ => List.Perm.refl _
  store_ordered := fun _ _ _ _ _ => trivial
  filter := fun _ _ _ => trivial
  erased := fun _ _ => rfl

section Btree

variable [LinearOrder K]

def Ascending (idx : List (K × Nat)) : Prop :=
  idx.Pairwise fun left right => left.1 < right.1

private theorem storeSorted_perm (key : K) (n : Nat) (idx : List (K × Nat)) :
    (storeSorted key n idx).Perm ((key, n) :: idx) := by
  induction idx with
  | nil => exact List.Perm.refl _
  | cons entry rest ih =>
    unfold storeSorted
    split_ifs
    · exact List.Perm.refl _
    · exact (ih.cons entry).trans (List.Perm.swap _ _ _)

private theorem storeSorted_ascending {key : K} {n : Nat} {idx : List (K × Nat)}
    (hidx : Ascending idx)
    (hkey : key ∉ idx.map Prod.fst) : Ascending (storeSorted key n idx) := by
  induction idx with
  | nil => exact List.pairwise_singleton _ _
  | cons entry rest ih =>
    obtain ⟨hfirst, hrest⟩ := List.pairwise_cons.mp hidx
    rw [List.map_cons, List.mem_cons, not_or] at hkey
    unfold storeSorted
    split_ifs with hless
    · refine List.pairwise_cons.mpr ⟨?_, hidx⟩
      intro other hother
      rcases List.mem_cons.mp hother with rfl | hmem
      · exact hless
      · exact hless.trans (hfirst other hmem)
    · refine List.pairwise_cons.mpr ⟨?_, ih hrest hkey.2⟩
      intro other hother
      rcases List.mem_cons.mp ((storeSorted_perm key n rest).mem_iff.mp hother) with rfl | hmem
      · exact lt_of_le_of_ne (not_lt.mp hless) (Ne.symm hkey.1)
      · exact hfirst other hmem

private theorem lruBtree_lawful : Lawful (lruBtree K V) Ascending where
  nil := List.Pairwise.nil
  store_perm := fun idx key n _ => storeSorted_perm key n idx
  store_ordered := fun _ _ _ hidx hkey => storeSorted_ascending hidx hkey
  filter := fun _ _ hidx => hidx.sublist List.filter_sublist
  erased := fun _ _ => rfl

private theorem takeWhile_eq_filter {α : Type} {p : α → Bool} {list : List α}
    (hlist : list.Pairwise fun left right => p right = true → p left = true) :
    list.takeWhile p = list.filter p := by
  induction list with
  | nil => rfl
  | cons x rest ih =>
    obtain ⟨hfirst, hrest⟩ := List.pairwise_cons.mp hlist
    cases hx : p x with
    | true => rw [List.takeWhile_cons_of_pos hx, List.filter_cons_of_pos hx, ih hrest]
    | false =>
      rw [List.takeWhile_cons_of_neg (by simp [hx]), List.filter_cons_of_neg (by simp [hx])]
      refine (List.filter_eq_nil_iff.mpr fun y hy hpass => ?_).symm
      rw [hfirst y hy hpass] at hx
      cases hx

private theorem dropWhile_eq_filter {α : Type} {p : α → Bool} {list : List α}
    (hlist : list.Pairwise fun left right => p right = true → p left = true) :
    list.dropWhile p = list.filter fun x => !p x := by
  induction list with
  | nil => rfl
  | cons x rest ih =>
    obtain ⟨hfirst, hrest⟩ := List.pairwise_cons.mp hlist
    cases hx : p x with
    | true =>
      rw [List.dropWhile_cons_of_pos hx, List.filter_cons_of_neg (by simp [hx]), ih hrest]
    | false =>
      rw [List.dropWhile_cons_of_neg (by simp [hx]), List.filter_cons_of_pos (by simp [hx])]
      congr 1
      refine (List.filter_eq_self.mpr fun y hy => ?_).symm
      by_contra hpass
      rw [Bool.not_eq_true, Bool.not_eq_false'] at hpass
      rw [hfirst y hy hpass] at hx
      cases hx

def interval (kmin kmax : K) (keys : List K) : List K :=
  (keys.filter fun key => decide (kmin ≤ key ∧ key ≤ kmax)).insertionSort (· ≤ ·)

/-- The part of the index that the interval removal walks over. -/
def found (kmin kmax : K) (idx : List (K × Nat)) : List (K × Nat) :=
  (idx.dropWhile fun entry => entry.1 < kmin).takeWhile fun entry => entry.1 ≤ kmax

private theorem found_eq_filter {idx : List (K × Nat)} (hidx : Ascending idx) (kmin kmax : K) :
    found kmin kmax idx = idx.filter fun entry => decide (kmin ≤ entry.1 ∧ entry.1 ≤ kmax) := by
  have hbelow : idx.Pairwise fun left right =>
      decide (right.1 < kmin) = true → decide (left.1 < kmin) = true :=
    hidx.imp fun hlt hright => decide_eq_true (hlt.trans (of_decide_eq_true hright))
  have hupto : (idx.dropWhile fun entry => entry.1 < kmin).Pairwise fun left right =>
      decide (right.1 ≤ kmax) = true → decide (left.1 ≤ kmax) = true :=
    (hidx.sublist (List.dropWhile_sublist _)).imp fun hlt hright =>
      decide_eq_true (hlt.le.trans (of_decide_eq_true hright))
  unfold found
  rw [takeWhile_eq_filter hupto, dropWhile_eq_filter hbelow, List.filter_filter]
  refine List.filter_congr fun entry _ => ?_
  rw [Bool.eq_iff_iff]
  simp only [Bool.and_eq_true, decide_eq_true_eq, Bool.not_eq_true', decide_eq_false_iff_not,
    not_lt]
  exact and_comm

private theorem found_keys {c : Cache K V} {s : Spec K V} (hrefines : Refines Ascending c s)
    (kmin kmax : K) :
    (found kmin kmax c.idx).map Prod.fst = interval kmin kmax (s.entries.map Prod.fst) := by
  have hfound := found_eq_filter hrefines.ordered kmin kmax
  have hleft : ((found kmin kmax c.idx).map Prod.fst).Pairwise (· ≤ ·) := by
    rw [hfound, List.pairwise_map]
    exact (hrefines.ordered.sublist List.filter_sublist).imp fun hlt => hlt.le
  have hright := List.pairwise_insertionSort (· ≤ ·)
    ((s.entries.map Prod.fst).filter fun key => decide (kmin ≤ key ∧ key ≤ kmax))
  refine List.Perm.eq_of_pairwise (fun a b _ _ hab hba => le_antisymm hab hba) hleft hright ?_
  rw [hfound]
  have hkeys := hrefines.idx_keys.filter fun key => decide (kmin ≤ key ∧ key ≤ kmax)
  rw [List.filter_map] at hkeys
  exact hkeys.trans (List.perm_insertionSort _ _).symm

private theorem eraseNodes_own {node : Nat → K × V} {kmax : Arg K V K} {bound : K}
    {entries : List (K × Nat)} {dat : List Nat} (hkmax : kmax.get dat node = some bound)
    (hsteady : ∀ front entry back, entries = front ++ entry :: back → entry.1 ≤ bound →
      kmax.Inside entry.2 → back = []) :
    eraseNodes node kmax entries dat = eraseNodes node (.own bound) entries dat := by
  induction entries generalizing dat with
  | nil => rfl
  | cons entry rest ih =>
    unfold eraseNodes
    simp only [hkmax, Arg.get_own, Option.bind_eq_bind, Option.bind_some]
    by_cases hbound : entry.1 > bound
    · rw [if_pos hbound, if_pos hbound]
    · rw [if_neg hbound, if_neg hbound]
      by_cases hinside : kmax.Inside entry.2
      · rw [hsteady [] entry rest rfl (not_lt.mp hbound) hinside]
        rfl
      · cases herase : eraseNode dat entry.2 with
        | none => rfl
        | some left =>
          unfold eraseNode at herase
          split_ifs at herase with hn
          cases herase
          rw [Option.bind_some, Option.bind_some, ih (Arg.get_erase hkmax hinside)
            fun front other back hsplit => hsteady (entry :: front) other back (by rw [hsplit]; rfl)]

private theorem eraseNodes_stops (node : Nat → K × V) {kmax : K} {rest : List (K × Nat)}
    (hstop : ∀ entry, rest.head? = some entry → kmax < entry.1) (dat : List Nat) :
    eraseNodes node (.own kmax) rest dat = some (dat, [], []) := by
  cases rest with
  | nil => rfl
  | cons entry rest =>
    unfold eraseNodes
    rw [Arg.get_own, Option.bind_eq_bind, Option.bind_some, if_pos (hstop entry rfl)]
    rfl

theorem Refines.remove_link {c : Cache K V} {s : Spec K V} (hrefines : Refines Ascending c s)
    {n : Nat} (hn : n ∈ c.dat) :
    s.remove (c.node n).1 = ({ s with entries := others s.entries (c.node n).1 }, true,
      [.erase (c.node n).1 (c.node n).2]) ∧
    Refines Ascending { c with
      dat := c.dat.erase n
      idx := eraseKey c.idx (c.node n).1 } (s.remove (c.node n).1).1 := by
  have hentry : c.node n ∈ s.entries := hrefines.entries ▸ List.mem_map.mpr ⟨n, hn, rfl⟩
  have hremove : s.remove (c.node n).1 =
      ({ s with entries := others s.entries (c.node n).1 }, true,
        [.erase (c.node n).1 (c.node n).2]) := by
    unfold Spec.remove
    rw [find?_of_mem hrefines.keys hentry]
  refine ⟨hremove, ?_⟩
  rw [hremove]
  exact hrefines.remove_node hn (hrefines.erase_index hn)
    (hrefines.ordered.sublist List.filter_sublist)

@[simp] private theorem removeAll_cons (s : Spec K V) (key : K) (rest : List K) :
    s.removeAll (key :: rest) = (((s.remove key).1.removeAll rest).1,
      (s.remove key).2.2 ++ ((s.remove key).1.removeAll rest).2) := rfl

theorem Refines.eraseNodes {kmax : K} {rest : List (K × Nat)}
    (hstop : ∀ entry, rest.head? = some entry → kmax < entry.1) (hit : List (K × Nat))
    {c : Cache K V} {s : Spec K V} (hrefines : Refines Ascending c s)
    (hkeys : (hit.map Prod.fst).Nodup)
    (hhit : ∀ entry ∈ hit, entry.1 ≤ kmax ∧ entry ∈ c.dat.map c.link) :
    ∃ dat, Lru.eraseNodes c.node (.own kmax) (hit ++ rest) c.dat =
        some (dat, hit.map Prod.fst, (s.removeAll (hit.map Prod.fst)).2) ∧
      Refines Ascending { c with dat := dat, idx := (hit.map Prod.fst).foldl eraseKey c.idx }
        (s.removeAll (hit.map Prod.fst)).1 := by
  induction hit generalizing c s with
  | nil => exact ⟨c.dat, eraseNodes_stops c.node hstop c.dat, hrefines⟩
  | cons entry hit ih =>
    obtain ⟨hle, hlink⟩ := hhit entry List.mem_cons_self
    obtain ⟨n, hn, rfl⟩ := List.mem_map.mp hlink
    rw [List.map_cons, List.nodup_cons] at hkeys
    obtain ⟨hremove, hnext⟩ := hrefines.remove_link hn
    have hothers : ∀ other ∈ hit, other.1 ≤ kmax ∧ other ∈ (c.dat.erase n).map c.link := by
      intro other hother
      obtain ⟨hotherLe, hotherLink⟩ := hhit other (List.mem_cons_of_mem _ hother)
      obtain ⟨m, hm, rfl⟩ := List.mem_map.mp hotherLink
      have hne : m ≠ n := by
        rintro rfl
        exact hkeys.1 (List.mem_map.mpr ⟨_, hother, rfl⟩)
      exact ⟨hotherLe, List.mem_map.mpr ⟨m, (List.mem_erase_of_ne hne).mpr hm, rfl⟩⟩
    obtain ⟨dat, herase, hfinal⟩ := ih hnext hkeys.2 hothers
    have hall : s.removeAll (((c.link n) :: hit).map Prod.fst) =
        (((s.remove (c.node n).1).1.removeAll (hit.map Prod.fst)).1,
          .erase (c.node n).1 (c.node n).2 ::
            ((s.remove (c.node n).1).1.removeAll (hit.map Prod.fst)).2) := by
      have hlinkRemove : s.remove (c.link n).1 = _ := hremove
      rw [List.map_cons, removeAll_cons, hlinkRemove]
      have hnodeRemove : (s.remove (c.node n).1).1 = _ := congrArg Prod.fst hremove
      rw [hnodeRemove]
      rfl
    rw [hall]
    refine ⟨dat, ?_, hfinal⟩
    rw [List.cons_append]
    unfold Lru.eraseNodes
    have hnot : ¬(c.link n).1 > kmax := not_lt.mpr hle
    have hcut : eraseNode c.dat (c.link n).2 = some (c.dat.erase n) := eraseNode_eq hn
    simp only [Arg.get_own, if_neg hnot, hcut, Option.bind_eq_bind, Option.bind_some, herase]
    rfl

/-- The upper bound does not lead into an entry that is erased with others to come. -/
def RangeSteady (kmin kmax : Arg K V K) (c : Cache K V) : Prop :=
  ∀ least bound m, kmin.get c.dat c.node = some least → kmax.get c.dat c.node = some bound →
    kmax.Inside m → least ≤ (c.node m).1 → (c.node m).1 ≤ bound →
      ∀ n ∈ c.dat, (c.node n).1 ≤ (c.node m).1

/-- The interval removal walks over the part of the index that is not below `least`. -/
theorem Refines.removeRange_own {c : Cache K V} {s : Spec K V} (hrefines : Refines Ascending c s)
    {kmin kmax : Arg K V K} {least bound : K} (hkmin : kmin.get c.dat c.node = some least)
    (hkmax : kmax.get c.dat c.node = some bound) (hsteady : RangeSteady kmin kmax c) :
    Lru.removeRange kmin kmax c = Lru.removeRange (.own least) (.own bound) c := by
  have hwalk :
      Lru.eraseNodes c.node kmax (c.idx.dropWhile fun entry => entry.1 < least) c.dat =
        Lru.eraseNodes c.node (.own bound) (c.idx.dropWhile fun entry => entry.1 < least)
          c.dat := by
    refine eraseNodes_own hkmax fun front entry back hsplit hle hinside => ?_
    have hsub : (c.idx.dropWhile fun entry => decide (entry.1 < least)).Sublist c.idx :=
      List.dropWhile_sublist _
    rw [hsplit] at hsub
    have hlinks : ∀ other ∈ front ++ entry :: back, ∃ n ∈ c.dat, c.link n = other :=
      fun other hmem => List.mem_map.mp (hrefines.index.mem_iff.mp (hsub.subset hmem))
    obtain ⟨m, -, rfl⟩ := hlinks entry (by simp)
    have hleast : least ≤ (c.node m).1 := by
      have hnot : (c.link m) ∈ c.idx.filter fun entry => !decide (entry.1 < least) := by
        rw [← dropWhile_eq_filter (hrefines.ordered.imp fun hlt hright =>
          decide_eq_true (hlt.trans (of_decide_eq_true hright))), hsplit]
        simp
      have hkept : least ≤ (c.link m).1 := by simpa using (List.mem_filter.mp hnot).2
      exact hkept
    cases back with
    | nil => rfl
    | cons next back =>
      -- the next entry has a larger key, which the condition excludes
      obtain ⟨n, hn, rfl⟩ := hlinks next (by simp)
      have hascending := (List.pairwise_append.mp (hrefines.ordered.sublist hsub)).2.1
      have hlt : (c.link m).1 < (c.link n).1 :=
        (List.pairwise_cons.mp hascending).1 _ List.mem_cons_self
      exact absurd (hsteady least bound m hkmin hkmax hinside hleast hle n hn) (not_le.mpr hlt)
  unfold Lru.removeRange
  simp only [hkmin, Arg.get_own, Option.bind_eq_bind, Option.bind_some]
  cases hfound : c.idx.dropWhile fun entry => entry.1 < least with
  | nil => rfl
  | cons entry rest =>
    have hfrom : ¬entry.1 < least := by
      have hfails := List.head?_dropWhile_not
        (fun entry : K × Nat => decide (entry.1 < least)) c.idx
      rw [hfound] at hfails
      simpa using hfails
    rw [hfound] at hwalk
    simp only [if_neg hfrom, hwalk]

theorem Refines.removeRange {c : Cache K V} {s : Spec K V} (hrefines : Refines Ascending c s)
    (kmin kmax : K) :
    ∃ next, Lru.removeRange (.own kmin) (.own kmax) c = some (next,
        !(interval kmin kmax (s.entries.map Prod.fst)).isEmpty,
        (s.removeAll (interval kmin kmax (s.entries.map Prod.fst))).2) ∧
      Refines Ascending next
        (s.removeAll (interval kmin kmax (s.entries.map Prod.fst))).1 := by
  rw [← found_keys hrefines kmin kmax]
  set tail := c.idx.dropWhile fun entry => entry.1 < kmin with htail
  have hsplit : found kmin kmax c.idx ++ tail.dropWhile (fun entry => entry.1 ≤ kmax) = tail :=
    List.takeWhile_append_dropWhile
  have hfoundSub : (found kmin kmax c.idx).Sublist c.idx :=
    (List.takeWhile_sublist _).trans (List.dropWhile_sublist _)
  have hstop : ∀ entry, (tail.dropWhile fun entry => entry.1 ≤ kmax).head? = some entry →
      kmax < entry.1 := by
    intro entry hhead
    have hfails := List.head?_dropWhile_not (fun entry : K × Nat => decide (entry.1 ≤ kmax)) tail
    rw [hhead] at hfails
    simpa using hfails
  have hkeys : ((found kmin kmax c.idx).map Prod.fst).Nodup :=
    (hrefines.idx_keys.nodup_iff.mpr hrefines.keys).sublist (hfoundSub.map Prod.fst)
  have hhit : ∀ entry ∈ found kmin kmax c.idx,
      entry.1 ≤ kmax ∧ entry ∈ c.dat.map c.link := by
    intro entry hentry
    have hle := List.mem_takeWhile_imp hentry
    exact ⟨of_decide_eq_true hle, hrefines.index.mem_iff.mp (hfoundSub.subset hentry)⟩
  obtain ⟨dat, herase, hnext⟩ := hrefines.eraseNodes hstop _ hkeys hhit
  rw [hsplit] at herase
  unfold Lru.removeRange
  rw [Arg.get_own, Option.bind_eq_bind, Option.bind_some, ← htail]
  cases hcase : tail with
  | nil =>
    have hnone : found kmin kmax c.idx = [] := by
      unfold found
      rw [← htail, hcase]
      rfl
    rw [hnone]
    exact ⟨c, rfl, hrefines⟩
  | cons entry rest =>
    have hfrom : ¬entry.1 < kmin := by
      have hfails := List.head?_dropWhile_not (fun entry : K × Nat => decide (entry.1 < kmin)) c.idx
      rw [← htail, hcase] at hfails
      simpa using hfails
    rw [hcase] at herase
    simp only [if_neg hfrom, herase, Option.bind_eq_bind, Option.bind_some]
    cases hfound : found kmin kmax c.idx with
    | nil =>
      rw [hfound] at hnext
      exact ⟨_, rfl, hnext⟩
    | cons first more =>
      rw [hfound] at hnext
      have hlength := hnext.index.length_eq
      rw [List.length_map] at hlength
      refine ⟨_, ?_, hnext⟩
      simp only [List.map_cons, List.length_cons, Nat.add_one_ne_zero, if_false]
      rw [List.map_cons] at hlength
      rw [decide_eq_true hlength]
      rfl

end Btree

/-- A new capacity is positive, and keys go by interval only where that exists. -/
def Kind.allows (kind : Kind K V) : Call K V → Prop
  | .removeRange _ _ => kind.removeRange.isSome
  | .resize cap => 1 ≤ cap
  | _ => True

/-- The call is one that the container has, and its references lead into the list. -/
def Kind.Has (kind : Kind K V) (c : Cache K V) (request : Request K V) : Prop :=
  ∃ call, request.call c = some call ∧ kind.allows call

section Calls

variable [DecidableEq K] {ordered : List (K × Nat) → Prop} {kind : Kind K V}
  {interval : K → K → List K → List K} {rangeSteady : Arg K V K → Arg K V K → Cache K V → Prop}

/-- No reference changes under the call: where a node is recycled, what leads into it
still reads the same once the key, and for the key also the value, is written; and
`LRU_btree::remove` is not given the key by the entry that it erases. -/
def Kind.Steady (kind : Kind K V) (rangeSteady : Arg K V K → Arg K V K → Cache K V → Prop)
    (c : Cache K V) : Request K V → Prop
  | .insert key val => ∀ k v, key.get c.dat c.node = some k → val.get c.dat c.node = some v →
      lookup c.idx k = none → c.cap ≤ c.dat.length → ∀ n, c.dat.getLast? = some n →
        val.Steady n (k, (c.node n).2) v ∧ key.Steady n (k, v) k
  | .remove key => kind.byKey = true → ∀ k, key.get c.dat c.node = some k →
      ∀ n, lookup c.idx k = some n → ¬ key.Inside n
  | .removeRange kmin kmax => rangeSteady kmin kmax c
  | _ => True

def Kind.Keeps (kind : Kind K V) (rangeSteady : Arg K V K → Arg K V K → Cache K V → Prop)
    (system : System K V) (request : Request K V) : Prop :=
  kind.Has system.cache request ∧ kind.Steady rangeSteady system.cache request

/-- The removal by interval, where there is one, removes the keys one by one. -/
def RangeLawful (kind : Kind K V) (ordered : List (K × Nat) → Prop)
    (interval : K → K → List K → List K)
    (rangeSteady : Arg K V K → Arg K V K → Cache K V → Prop) : Prop :=
  ∀ remove, kind.removeRange = some remove → ∀ c s, Refines ordered c s →
    ∀ kmin kmax least bound, kmin.get c.dat c.node = some least →
      kmax.get c.dat c.node = some bound → rangeSteady kmin kmax c →
    ∃ next, remove kmin kmax c = some (next,
        !(interval least bound (s.entries.map Prod.fst)).isEmpty,
        (s.removeAll (interval least bound (s.entries.map Prod.fst))).2) ∧
      Refines ordered next (s.removeAll (interval least bound (s.entries.map Prod.fst))).1

private theorem rangeLawful_of_none (hkind : kind.removeRange = none) :
    RangeLawful kind ordered interval rangeSteady := by
  intro remove hremove
  rw [hkind] at hremove
  cases hremove

omit [DecidableEq K] in
private theorem refines_create (hlawful : Lawful kind ordered) (node : Nat → K × V) (fresh : Nat)
    {cap : Nat} (hcap : 1 ≤ cap) : Refines ordered ⟨[], node, fresh, [], cap⟩ ⟨[], cap⟩ :=
  ⟨List.nodup_nil, fun _ hn => absurd hn List.not_mem_nil, rfl, List.Perm.refl _,
    List.nodup_nil, hlawful.nil, rfl, Nat.zero_le _, hcap⟩

theorem Refines.exec (hlawful : Lawful kind ordered)
    (hrange : RangeLawful kind ordered interval rangeSteady) {c : Cache K V} {s : Spec K V}
    (hrefines : Refines ordered c s) {request : Request K V} {call : Call K V}
    (hcall : request.call c = some call) (hallows : kind.allows call)
    (hsteady : kind.Steady rangeSteady c request) :
    ∃ next, c.exec kind request = some (next, (s.exec interval call).2) ∧
      Refines ordered next (s.exec interval call).1 := by
  cases request with
  | find key =>
    obtain ⟨k, hkey, hcall⟩ := Option.bind_eq_some_iff.mp hcall
    cases hcall
    obtain ⟨next, hfind, hnext⟩ := hrefines.find hkey
    refine ⟨next, ?_, hnext⟩
    simp only [Cache.exec, hfind, Option.bind_eq_bind, Option.bind_some]
    rfl
  | insert key val =>
    obtain ⟨k, hkey, hcall⟩ := Option.bind_eq_some_iff.mp hcall
    obtain ⟨v, hval, hcall⟩ := Option.bind_eq_some_iff.mp hcall
    cases hcall
    obtain ⟨next, hinsert, hnext⟩ := hrefines.insert hlawful k v
    refine ⟨next, ?_, hnext⟩
    rw [← hrefines.insert_own hkey hval (hsteady k v hkey hval)] at hinsert
    simp only [Cache.exec, hinsert, Option.bind_eq_bind, Option.bind_some]
    rfl
  | remove key =>
    obtain ⟨k, hkey, hcall⟩ := Option.bind_eq_some_iff.mp hcall
    cases hcall
    obtain ⟨next, hremove, hnext⟩ := hrefines.remove hlawful hkey fun hbyKey =>
      hsteady hbyKey k hkey
    refine ⟨next, ?_, hnext⟩
    simp only [Cache.exec, hremove, Option.bind_eq_bind, Option.bind_some]
    rfl
  | removeRange kmin kmax =>
    obtain ⟨least, hkmin, hcall⟩ := Option.bind_eq_some_iff.mp hcall
    obtain ⟨bound, hkmax, hcall⟩ := Option.bind_eq_some_iff.mp hcall
    cases hcall
    obtain ⟨remove, hkind⟩ := Option.isSome_iff_exists.mp hallows
    obtain ⟨next, hremove, hnext⟩ :=
      hrange remove hkind c s hrefines kmin kmax least bound hkmin hkmax hsteady
    refine ⟨next, ?_, hnext⟩
    simp only [Cache.exec, hkind, hremove, Option.bind_eq_bind, Option.bind_some]
    rfl
  | resize cap =>
    cases hcall
    exact ⟨c.resize cap, rfl, refines_create hlawful c.node c.fresh hallows⟩

private theorem age_of_touches {call : Call K V} {key : K} (htouches : call.touches key = true)
    (past : List (Call K V)) : age (call :: past) key = 0 := by
  unfold age
  rw [List.findIdx_cons, htouches]
  rfl

private theorem age_of_not_touches {call : Call K V} {key : K} (htouches : call.touches key = false)
    (past : List (Call K V)) : age (call :: past) key = age past key + 1 := by
  unfold age
  rw [List.findIdx_cons, htouches]
  rfl

private theorem lastInserted_of_not_touches {call : Call K V} {key : K}
    (htouches : call.touches key = false) (past : List (Call K V)) :
    lastInserted (call :: past) key = lastInserted past key := by
  cases call with
  | insert other val =>
    have hne : other ≠ key := of_decide_eq_false htouches
    unfold lastInserted
    simp only [List.findSome?_cons, if_neg hne]
  | _ => rfl

/-- What the history of calls says about the entries that are left. -/
structure Told (past : List (Call K V)) (entries : List (K × V)) : Prop where
  recent : entries.Pairwise fun left right => age past left.1 < age past right.1
  values : ∀ entry ∈ entries, lastInserted past entry.1 = some entry.2

private theorem told_nil (past : List (Call K V)) : Told past [] :=
  ⟨List.Pairwise.nil, fun _ hentry => absurd hentry List.not_mem_nil⟩

variable {past : List (Call K V)} {entries rest : List (K × V)}

theorem Told.keep (htold : Told past entries) {call : Call K V} (hsub : rest.Sublist entries)
    (hrest : ∀ entry ∈ rest, call.touches entry.1 = false) : Told (call :: past) rest := by
  refine ⟨(htold.recent.sublist hsub).imp_of_mem fun hleft hright hlt => ?_, ?_⟩
  · rw [age_of_not_touches (hrest _ hleft), age_of_not_touches (hrest _ hright)]
    exact Nat.succ_lt_succ hlt
  · intro entry hentry
    rw [lastInserted_of_not_touches (hrest entry hentry)]
    exact htold.values entry (hsub.subset hentry)

theorem Told.front (htold : Told past entries) {call : Call K V} (hsub : rest.Sublist entries)
    (hrest : ∀ entry ∈ rest, call.touches entry.1 = false) {entry : K × V}
    (htouches : call.touches entry.1 = true)
    (hvalue : lastInserted (call :: past) entry.1 = some entry.2) :
    Told (call :: past) (entry :: rest) := by
  have hkeep := htold.keep hsub hrest
  refine ⟨List.pairwise_cons.mpr ⟨?_, hkeep.recent⟩, ?_⟩
  · intro other hother
    rw [age_of_touches htouches, age_of_not_touches (hrest other hother)]
    exact Nat.succ_pos _
  · intro other hother
    rcases List.mem_cons.mp hother with rfl | hmem
    · exact hvalue
    · exact hkeep.values other hmem

private theorem key_ne_of_mem_others {key : K} {entry : K × V}
    (hentry : entry ∈ others entries key) :
    entry.1 ≠ key := by
  intro heq
  exact not_mem_others entries key (List.mem_map.mpr ⟨entry, hentry, heq⟩)

omit [DecidableEq K] in
private theorem key_ne_of_absent {key : K} (habsent : key ∉ entries.map Prod.fst) {entry : K × V}
    (hentry : entry ∈ entries) : entry.1 ≠ key := by
  intro heq
  exact habsent (List.mem_map.mpr ⟨entry, hentry, heq⟩)

theorem Told.find {s : Spec K V} (htold : Told past s.entries) (key : K) :
    Told (.find key :: past) (s.find key).1.entries := by
  unfold Spec.find
  cases hfind : s.entries.find? (fun entry => entry.1 = key) with
  | none =>
    refine htold.keep (List.Sublist.refl _) fun entry hentry => decide_eq_false ?_
    have hmiss := List.find?_eq_none.mp hfind entry hentry
    exact fun heq => hmiss (decide_eq_true heq.symm)
  | some entry =>
    have hkey : entry.1 = key := by simpa using List.find?_some hfind
    have hentry := List.mem_of_find?_eq_some hfind
    refine htold.front List.filter_sublist ?_ (decide_eq_true hkey.symm) (htold.values _ hentry)
    intro other hother
    exact decide_eq_false (key_ne_of_mem_others hother).symm

theorem Told.insert {s : Spec K V} (htold : Told past s.entries) (key : K) (val : V) :
    Told (.insert key val :: past) (s.insert key val).1.entries := by
  have hvalue : lastInserted (.insert key val :: past) key = some val := by
    unfold lastInserted
    simp only [List.findSome?_cons, if_true]
  have htouches : (Call.insert key val).touches key = true := decide_eq_true rfl
  unfold Spec.insert
  split_ifs with hpresent hfull
  · refine htold.front List.filter_sublist ?_ htouches hvalue
    intro other hother
    exact decide_eq_false (key_ne_of_mem_others hother).symm
  · refine htold.front (List.dropLast_sublist _) ?_ htouches hvalue
    intro other hother
    exact decide_eq_false (key_ne_of_absent hpresent ((List.dropLast_sublist _).subset hother)).symm
  · refine htold.front (List.Sublist.refl _) ?_ htouches hvalue
    intro other hother
    exact decide_eq_false (key_ne_of_absent hpresent hother).symm

theorem Spec.remove_sublist (s : Spec K V) (key : K) :
    (s.remove key).1.entries.Sublist s.entries := by
  unfold Spec.remove
  split
  · exact List.Sublist.refl _
  · exact List.filter_sublist

theorem Spec.removeAll_sublist (s : Spec K V) (keys : List K) :
    (s.removeAll keys).1.entries.Sublist s.entries := by
  induction keys generalizing s with
  | nil => exact List.Sublist.refl _
  | cons key rest ih => exact (ih (s.remove key).1).trans (s.remove_sublist key)

theorem Told.exec {s : Spec K V} (htold : Told past s.entries) (call : Call K V) :
    Told (call :: past) (s.exec interval call).1.entries := by
  cases call with
  | find key => exact htold.find key
  | insert key val => exact htold.insert key val
  | remove key => exact htold.keep (s.remove_sublist key) fun _ _ => rfl
  | removeRange kmin kmax => exact htold.keep (s.removeAll_sublist _) fun _ _ => rfl
  | resize cap => exact told_nil _

structure Inv (ordered : List (K × Nat) → Prop) (system : System K V) : Prop where
  refines : Refines ordered system.cache system.spec
  told : Told system.past system.spec.entries
  agrees : ∀ entry ∈ system.outcomes, entry.1 = entry.2

theorem Inv.step (hlawful : Lawful kind ordered)
    (hrange : RangeLawful kind ordered interval rangeSteady) {system : System K V}
    {request : Request K V} (hkeeps : kind.Keeps rangeSteady system request)
    (hinv : Inv ordered system) :
    ∃ next, Lru.step kind interval system request = some next ∧ Inv ordered next := by
  obtain ⟨⟨call, hcall, hallows⟩, hsteady⟩ := hkeeps
  obtain ⟨cache, hexec, hrefines⟩ := hinv.refines.exec hlawful hrange hcall hallows hsteady
  refine ⟨⟨cache, (system.spec.exec interval call).1,
    ((system.spec.exec interval call).2, (system.spec.exec interval call).2) :: system.outcomes,
    call :: system.past⟩, ?_, hrefines, hinv.told.exec call, ?_⟩
  · simp only [Lru.step, hcall, hexec, Option.bind_eq_bind, Option.bind_some]
    rfl
  · intro entry hentry
    rcases List.mem_cons.mp hentry with rfl | hold
    · rfl
    · exact hinv.agrees entry hold

theorem Inv.sound {system : System K V} (hinv : Inv ordered system) : Sound system where
  agrees := hinv.agrees
  entries := hinv.refines.entries
  keys := hinv.refines.idx_keys
  distinct := hinv.refines.keys
  size := by
    have hlength := hinv.refines.idx_keys.length_eq
    rw [List.length_map, List.length_map] at hlength
    rw [hlength, hinv.refines.cap]
    exact hinv.refines.room
  capacity := hinv.refines.cap
  recent := hinv.told.recent
  values := hinv.told.values

theorem run_sound (hlawful : Lawful kind ordered)
    (hrange : RangeLawful kind ordered interval rangeSteady) (node : Nat → K × V) {cap : Nat}
    (hcap : 1 ≤ cap) {requests : List (Request K V)}
    (hkeeps : Along (step kind interval) (kind.Keeps rangeSteady) (start node cap) requests) :
    ∃ final, run (step kind interval) (start node cap) requests = some final ∧ Sound final := by
  have hstart : Inv ordered (start node cap : System K V) :=
    ⟨refines_create hlawful node 0 hcap, told_nil _,
      fun _ hentry => absurd hentry List.not_mem_nil⟩
  obtain ⟨final, hrun, hinv⟩ := run_along
    (fun _ _ hallowed hinv => Inv.step hlawful hrange hallowed hinv) hkeeps hstart
  exact ⟨final, hrun, hinv.sound⟩

end Calls

private theorem lruBtree_range [LinearOrder K] :
    RangeLawful (lruBtree K V) Ascending interval RangeSteady := by
  intro remove hremove c s hrefines kmin kmax least bound hkmin hkmax hsteady
  obtain rfl : Lru.removeRange = remove := Option.some.inj hremove
  rw [hrefines.removeRange_own hkmin hkmax hsteady]
  exact hrefines.removeRange least bound

/-- Whatever is called with references that stay steady, the three containers return,
evict and erase as the cache does. Only `LRU_btree` has the removal by interval, so the
others may be compared with any reading of it. -/
theorem lru_containers_sound (K O V : Type) [DecidableEq K] [LinearOrder O] (cap : Nat)
    (hcap : 1 ≤ cap) (anyInterval : K → K → List K → List K) :
    (∀ (node : Nat → K × V) (requests : List (Request K V)),
      Along (step (lruMap K V) anyInterval) ((lruMap K V).Keeps fun _ _ _ => True)
        (start node cap) requests →
      ∃ final, run (step (lruMap K V) anyInterval) (start node cap) requests = some final ∧
        Sound final) ∧
    (∀ (node : Nat → K × Unit) (requests : List (Request K Unit)),
      Along (step (lruSet K) anyInterval) ((lruSet K).Keeps fun _ _ _ => True)
        (start node cap) requests →
      ∃ final, run (step (lruSet K) anyInterval) (start node cap) requests = some final ∧
        Sound final) ∧
    ∀ (node : Nat → O × V) (requests : List (Request O V)),
      Along (step (lruBtree O V) interval) ((lruBtree O V).Keeps RangeSteady)
        (start node cap) requests →
      ∃ final, run (step (lruBtree O V) interval) (start node cap) requests = some final ∧
        Sound final :=
  ⟨fun node _ hkeeps => run_sound lruMap_lawful (rangeLawful_of_none rfl) node hcap hkeeps,
    fun node _ hkeeps => run_sound lruSet_lawful (rangeLawful_of_none rfl) node hcap hkeeps,
    fun node _ hkeeps => run_sound lruBtree_lawful lruBtree_range node hcap hkeeps⟩

/-- Two entries at most: the third key takes the place of the second, which was used
before the first, and the value that `find` returned for the first. -/
theorem lru_containers_sound_two : ∃ final : System Nat Nat,
    run (step (lruBtree Nat Nat) interval) (start (fun _ => (0, 0)) 2)
        [.insert (.own 1) (.own 10), .insert (.own 2) (.own 20), .find (.own 1),
          .insert (.own 3) (.inside 0 Prod.snd), .removeRange (.inside 1 Prod.fst) (.own 5)] =
      some final ∧
    final.spec.entries = [(1, 10)] ∧
    final.outcomes.map (fun entry => entry.1.2) =
      [[.erase 3 10], [.purge 2 20], [], [], []] ∧ Sound final := by
  obtain ⟨final, hrun, hsound⟩ := (lru_containers_sound Nat Nat Nat 2 (by decide)
    fun _ _ keys => keys).2.2 (fun _ => (0, 0))
      [.insert (.own 1) (.own 10), .insert (.own 2) (.own 20), .find (.own 1),
        .insert (.own 3) (.inside 0 Prod.snd), .removeRange (.inside 1 Prod.fst) (.own 5)] (by
    refine ⟨⟨⟨_, rfl, trivial⟩, fun _ _ _ _ _ hfull => absurd hfull (by decide)⟩, fun _ h => ?_⟩
    cases h
    refine ⟨⟨⟨_, rfl, trivial⟩, fun _ _ _ _ _ hfull => absurd hfull (by decide)⟩, fun _ h => ?_⟩
    cases h
    refine ⟨⟨⟨_, rfl, trivial⟩, trivial⟩, fun _ h => ?_⟩
    cases h
    refine ⟨⟨⟨_, rfl, trivial⟩, fun _ _ _ _ _ _ n hlast => ?_⟩, fun _ h => ?_⟩
    · cases hlast
      exact ⟨fun h => absurd h (by decide), trivial⟩
    cases h
    exact ⟨⟨⟨_, rfl, rfl⟩, fun _ _ _ _ _ hinside => hinside.elim⟩, fun _ _ => trivial⟩)
  refine ⟨final, hrun, ?_, ?_, hsound⟩
  · obtain rfl : _ = final := Option.some.inj hrun
    rfl
  · obtain rfl : _ = final := Option.some.inj hrun
    rfl

/-- `insert(*find(1), 7)` into a full `LRU_map` of one entry recycles the node that the key
is in: the key is filed under what was the value, so that it is not found again. And
`LRU_btree::remove(begin()->first)` reads the key in the node that it has erased. -/
theorem references_part_index :
    (¬ ∀ (cap : Nat) (node : Nat → Nat × Nat) (requests : List (Request Nat Nat)), 1 ≤ cap →
      Along (step (lruMap Nat Nat) fun _ _ keys => keys)
        (fun system => (lruMap Nat Nat).Has system.cache) (start node cap) requests →
      ∃ final, run (step (lruMap Nat Nat) fun _ _ keys => keys) (start node cap) requests =
        some final ∧ Sound final) ∧
    (∃ final, run (step (lruMap Nat Nat) fun _ _ keys => keys) (start (fun _ => (0, 0)) 1)
        [.insert (.own 1) (.own 2), .find (.own 1), .insert (.inside 0 Prod.snd) (.own 7),
          .find (.own 2)] = some final ∧
      final.cache.dat.map final.cache.node = [(2, 7)] ∧ final.cache.idx = [(7, 0)] ∧
      final.outcomes.head? = some ((.value none, []), (.value (some 7), []))) ∧
    run (step (lruBtree Nat Nat) interval) (start (fun _ => (0, 0)) 1)
      [.insert (.own 1) (.own 2), .remove (.inside 0 Prod.fst)] = none := by
  refine ⟨fun hall => ?_, ⟨_, rfl, rfl, rfl, rfl⟩, rfl⟩
  obtain ⟨final, hrun, hsound⟩ := hall 1 (fun _ => (0, 0))
    [.insert (.own 1) (.own 2), .find (.own 1), .insert (.inside 0 Prod.snd) (.own 7)]
    (by decide) (by
      refine ⟨⟨_, rfl, trivial⟩, fun _ h => ?_⟩
      cases h
      refine ⟨⟨_, rfl, trivial⟩, fun _ h => ?_⟩
      cases h
      exact ⟨⟨_, rfl, trivial⟩, fun _ _ => trivial⟩)
  obtain rfl : _ = final := Option.some.inj hrun
  exact absurd (hsound.keys.mem_iff.mp (List.mem_singleton.mpr rfl)) (by decide)

end Libsax.Container.Lru
