import Libsax.Sort.MainLoop
import Mathlib.Data.List.InsertIdx

/-! The insertion sort: a smallest element at the start stops its inner loop. -/
namespace Libsax.Sort

open Libsax.Lib

variable {α : Type} {cmp : α → α → Ordering} {list list' : List α} {run tmp count fuel i j k : Nat}
  {x y : α}

/-- What comes after the main loop. -/
def finish (cmp : α → α → Ordering) (list : List α) : Option (List α) := do
  let end_ := list.length - 1
  let tmp ← smallest cmp list (min end_ maxThresh) 1 0
  let list ← if tmp ≠ 0 then exchange list tmp 0 else some list
  insertionSort cmp (end_ - 1) list 2

private theorem qsort2_eq (hpos : list.length ≠ 0) : qsort2 cmp list =
    (if list.length > maxThresh then mainLoop cmp list.length list 0 (list.length - 1) []
      else some list).bind (finish cmp) := by
  unfold qsort2
  rw [if_neg hpos]
  split <;> rfl

/-- The element at the number is not greater than those of the first so many. -/
def Least (cmp : α → α → Ordering) (list : List α) (tmp count : Nat) : Prop :=
  ∃ x, list[tmp]? = some x ∧ ∀ i y, i < count → list[i]? = some y → (cmp x y).isLE = true

theorem Least.rearranged (hleast : Least cmp list tmp list.length) (hperm : list'.Perm list)
    (hsame : list'[k]? = list[tmp]?) : Least cmp list' k list'.length := by
  obtain ⟨x, hx, hle⟩ := hleast
  refine ⟨x, hsame.trans hx, fun i z _ hz => ?_⟩
  obtain ⟨j, hj⟩ := List.getElem?_of_mem (hperm.mem_iff.mp (List.mem_of_getElem? hz))
  obtain ⟨hlt, -⟩ := List.getElem?_eq_some_iff.mp hj
  exact hle j z hlt hj

theorem Least.first (hleast : Least cmp list tmp list.length) :
    ∃ list', (if tmp ≠ 0 then exchange list tmp 0 else some list) = some list' ∧
      list'.Perm list ∧ Least cmp list' 0 list'.length := by
  obtain ⟨x, hx, -⟩ := id hleast
  obtain ⟨hlt, -⟩ := List.getElem?_eq_some_iff.mp hx
  obtain ⟨y, hy⟩ : ∃ y, list[0]? = some y := ⟨_, List.getElem?_eq_getElem (by omega)⟩
  by_cases hzero : tmp = 0
  · subst hzero
    exact ⟨list, if_neg (fun hne => hne rfl), List.Perm.refl list, hleast⟩
  · have hperm := (exchange_within hx hy (show 0 ≤ tmp ∧ tmp ≤ tmp by omega)
      (show 0 ≤ 0 ∧ 0 ≤ tmp by omega)).perm
    refine ⟨_, ?_, hperm, hleast.rearranged hperm ?_⟩
    · rw [if_pos hzero, exchange_eq hx hy]
    · rw [getElem?_exchange hx hy, if_pos rfl, hx]

section Smallest

variable [Std.TransCmp cmp]

private theorem smallest_least (hmany : run + count ≤ list.length) (htmp : tmp < run)
    (hleast : Least cmp list tmp run) :
    ∃ tmp', smallest cmp list count run tmp = some tmp' ∧ tmp' < run + count ∧
      Least cmp list tmp' (run + count) := by
  induction count generalizing run tmp with
  | zero => exact ⟨tmp, rfl, htmp, hleast⟩
  | succ count ih =>
    obtain ⟨x, hx, hle⟩ := hleast
    obtain ⟨y, hy⟩ : ∃ y, list[run]? = some y := ⟨_, List.getElem?_eq_getElem (by omega)⟩
    unfold smallest
    simp only [less_eq cmp hy hx, Option.bind_eq_bind, Option.bind_some]
    rw [show run + (count + 1) = run + 1 + count by omega] at hmany ⊢
    by_cases hless : (cmp y x == .lt) = true
    · rw [if_pos hless]
      refine ih hmany (Nat.lt_succ_self run) ⟨y, hy, fun i z hi hz => ?_⟩
      rcases Nat.eq_or_lt_of_le (Nat.le_of_lt_succ hi) with rfl | hbefore
      · obtain rfl := Option.some.inj (hy.symm.trans hz)
        exact Std.ReflCmp.isLE_rfl
      · exact Std.TransCmp.isLE_trans (isLE_of_lt hless) (hle i z hbefore hz)
    · rw [if_neg hless]
      refine ih hmany (Nat.lt_succ_of_lt htmp) ⟨x, hx, fun i z hi hz => ?_⟩
      rcases Nat.eq_or_lt_of_le (Nat.le_of_lt_succ hi) with rfl | hbefore
      · obtain rfl := Option.some.inj (hy.symm.trans hz)
        exact isLE_of_not_lt hless
      · exact hle i z hbefore hz

theorem Least.of_cut {c n : Nat} (hleast : Least cmp list tmp n) (hcut : Cut cmp c list)
    (hpos : 0 < c) (hc : c ≤ n) : Least cmp list tmp list.length := by
  obtain ⟨x, hx, hle⟩ := hleast
  refine ⟨x, hx, fun i y hi hy => ?_⟩
  by_cases hbefore : i < c
  · exact hle i y (Nat.lt_of_lt_of_le hbefore hc) hy
  · obtain ⟨z, hz⟩ : ∃ z, list[0]? = some z := ⟨_, List.getElem?_eq_getElem (by omega)⟩
    exact Std.TransCmp.isLE_trans (hle 0 z (Nat.lt_of_lt_of_le hpos hc) hz)
      (cut_iff_getElem?.mp hcut 0 i z y hpos (Nat.le_of_not_lt hbefore) hz hy)

end Smallest

/-- The first so many elements are in order. -/
def Ordered (cmp : α → α → Ordering) (list : List α) (run : Nat) : Prop :=
  ∀ i j x y, i < j → j < run → list[i]? = some x → list[j]? = some y → (cmp x y).isLE = true

theorem Ordered.pairwise (hordered : Ordered cmp list list.length) :
    list.Pairwise fun x y => (cmp x y).isLE = true := by
  rw [List.pairwise_iff_getElem]
  intro i j hi hj hij
  exact hordered i j _ _ hij hj (List.getElem?_eq_getElem hi) (List.getElem?_eq_getElem hj)

private theorem findPlace_stops [Std.OrientedCmp cmp] (hx : list[run]? = some x)
    (hleast : Least cmp list 0 list.length) (hfuel : tmp < fuel) (hrun : tmp < run) :
    ∃ place y, findPlace cmp list run fuel tmp = some (place + 1) ∧ place ≤ tmp ∧
      list[place]? = some y ∧ (cmp y x).isLE = true ∧
      ∀ i z, place < i → i ≤ tmp → list[i]? = some z → (cmp x z).isLE = true := by
  obtain ⟨least, hfirst, hle⟩ := hleast
  obtain ⟨hlt, -⟩ := List.getElem?_eq_some_iff.mp hx
  induction fuel generalizing tmp with
  | zero => omega
  | succ fuel ih =>
    obtain ⟨y, hy⟩ : ∃ y, list[tmp]? = some y := ⟨_, List.getElem?_eq_getElem (by omega)⟩
    unfold findPlace
    simp only [less_eq cmp hx hy, Option.bind_eq_bind, Option.bind_some]
    by_cases hless : (cmp x y == .lt) = true
    · have hzero : tmp ≠ 0 := by
        rintro rfl
        obtain rfl := Option.some.inj (hfirst.symm.trans hy)
        rw [not_lt_of_isLE (hle run x hlt hx)] at hless
        cases hless
      obtain ⟨before, rfl⟩ := Nat.exists_eq_add_one_of_ne_zero hzero
      obtain ⟨place, z, hfind, hplace, hz, hzx, habove⟩ := @ih before (by omega) (by omega)
      rw [if_pos hless]
      refine ⟨place, z, hfind, Nat.le_succ_of_le hplace, hz, hzx, fun i w hi hle hw => ?_⟩
      rcases Nat.eq_or_lt_of_le hle with rfl | hearlier
      · obtain rfl := Option.some.inj (hy.symm.trans hw)
        exact isLE_of_lt hless
      · exact habove i w hi (Nat.le_of_lt_succ hearlier) hw
    · rw [if_neg hless]
      exact ⟨tmp, y, rfl, Nat.le_refl tmp, hy, isLE_of_not_lt hless,
        fun i z hi hle => absurd hle (Nat.not_le.mpr hi)⟩

private theorem getElem?_moved (hx : list[run]? = some x) (htmp : tmp ≤ run) (k : Nat) :
    ((list.eraseIdx run).insertIdx tmp x)[k]? =
      if k < tmp then list[k]? else if k = tmp then some x
      else if k ≤ run then list[k - 1]? else list[k]? := by
  obtain ⟨hlt, -⟩ := List.getElem?_eq_some_iff.mp hx
  rw [List.getElem?_insertIdx]
  by_cases hbefore : k < tmp
  · rw [if_pos hbefore, if_pos hbefore, List.getElem?_eraseIdx_of_lt (by omega)]
  rw [if_neg hbefore, if_neg hbefore]
  by_cases hself : k = tmp
  · rw [if_pos hself, if_pos hself, List.length_eraseIdx_of_lt hlt, if_pos (by omega)]
  rw [if_neg hself, if_neg hself]
  by_cases hle : k ≤ run
  · rw [if_pos hle, List.getElem?_eraseIdx_of_lt (by omega)]
  · rw [if_neg hle, List.getElem?_eraseIdx_of_ge (by omega), Nat.sub_add_cancel (by omega)]

private theorem moved_perm (hx : list[run]? = some x) (htmp : tmp ≤ run) :
    ((list.eraseIdx run).insertIdx tmp x).Perm list := by
  obtain ⟨hlt, rfl⟩ := List.getElem?_eq_some_iff.mp hx
  refine (List.perm_insertIdx list[run] (list.eraseIdx run) ?_).trans ?_
  · rw [List.length_eraseIdx_of_lt hlt]
    omega
  · exact List.getElem_cons_eraseIdx_perm hlt

private theorem ordered_moved (hx : list[run]? = some x) (htmp : tmp ≤ run)
    (hordered : Ordered cmp list run)
    (hbelow : ∀ i y, i < tmp → list[i]? = some y → (cmp y x).isLE = true)
    (habove : ∀ i y, tmp ≤ i → i < run → list[i]? = some y → (cmp x y).isLE = true) :
    Ordered cmp ((list.eraseIdx run).insertIdx tmp x) (run + 1) := by
  intro i j y z hij hj hy hz
  rw [getElem?_moved hx htmp] at hy hz
  by_cases hjBefore : j < tmp
  · rw [if_pos hjBefore] at hz
    rw [if_pos (by omega)] at hy
    exact hordered i j y z hij (by omega) hy hz
  rw [if_neg hjBefore] at hz
  by_cases hjSelf : j = tmp
  · rw [if_pos hjSelf] at hz
    rw [if_pos (by omega)] at hy
    obtain rfl := Option.some.inj hz
    exact hbelow i y (by omega) hy
  rw [if_neg hjSelf, if_pos (by omega)] at hz
  by_cases hiBefore : i < tmp
  · rw [if_pos hiBefore] at hy
    exact hordered i (j - 1) y z (by omega) (by omega) hy hz
  rw [if_neg hiBefore] at hy
  by_cases hiSelf : i = tmp
  · rw [if_pos hiSelf] at hy
    obtain rfl := Option.some.inj hy
    exact habove (j - 1) z (by omega) (by omega) hz
  · rw [if_neg hiSelf, if_pos (by omega)] at hy
    exact hordered (i - 1) (j - 1) y z (by omega) (by omega) hy hz

variable [Std.TransCmp cmp]

private theorem insertionSort_step (hx : list[run + 1]? = some x)
    (hordered : Ordered cmp list (run + 1))
    (hleast : Least cmp list 0 list.length) :
    ∃ list', insertionSort cmp (count + 1) list (run + 1) = insertionSort cmp count list' (run + 2) ∧
      list'.Perm list ∧ Ordered cmp list' (run + 2) ∧ Least cmp list' 0 list'.length := by
  obtain ⟨place, y, hfind, hplace, hy, hyx, habove⟩ := findPlace_stops hx hleast
    (show run < run + 1 + 1 by omega) (Nat.lt_succ_self run)
  have hbelow : ∀ i z, i < place + 1 → list[i]? = some z → (cmp z x).isLE = true := by
    intro i z hi hz
    rcases Nat.eq_or_lt_of_le (Nat.le_of_lt_succ hi) with rfl | hbefore
    · obtain rfl := Option.some.inj (hy.symm.trans hz)
      exact hyx
    · exact Std.TransCmp.isLE_trans (hordered i place z y hbefore (by omega) hz hy) hyx
  have hmoved := ordered_moved hx (show place + 1 ≤ run + 1 by omega) hordered hbelow
    fun i z hi hlt hz => habove i z hi (Nat.le_of_lt_succ hlt) hz
  have hat := getElem?_moved hx (show place + 1 ≤ run + 1 by omega)
  have hperm := moved_perm hx (show place + 1 ≤ run + 1 by omega)
  have hstep : insertionSort cmp (count + 1) list (run + 1) =
      insertionSort cmp count ((list.eraseIdx (run + 1)).insertIdx (place + 1) x) (run + 2) := by
    rw [insertionSort]
    simp only [back, hfind, Option.bind_eq_bind, Option.bind_some]
    by_cases hself : place + 1 ≠ run + 1
    · rw [if_pos hself]
      unfold moveDown
      rw [hx]
      rfl
    · -- the element stays, which is as if it were taken out and put back
      obtain rfl : place = run := by omega
      obtain ⟨hlt, rfl⟩ := List.getElem?_eq_some_iff.mp hx
      rw [if_neg hself, List.insertIdx_eraseIdx_getElem hlt]
  refine ⟨_, hstep, hperm, hmoved, hleast.rearranged hperm ?_⟩
  rw [hat, if_pos (Nat.succ_pos place)]

private theorem insertionSort_sorts (hordered : Ordered cmp list (run + 1))
    (hleast : Least cmp list 0 list.length) (hlength : run + 1 + count = list.length) :
    ∃ list', insertionSort cmp count list (run + 1) = some list' ∧ list'.Perm list ∧
      Ordered cmp list' list'.length := by
  induction count generalizing list run with
  | zero =>
    refine ⟨list, rfl, List.Perm.refl list, ?_⟩
    rw [← hlength]
    exact hordered
  | succ count ih =>
    obtain ⟨x, hx⟩ : ∃ x, list[run + 1]? = some x := ⟨_, List.getElem?_eq_getElem (by omega)⟩
    obtain ⟨next, hstep, hperm, hnext, hfirst⟩ := insertionSort_step hx hordered hleast
    obtain ⟨list', hcall, hagain, hsorted⟩ := @ih next (run + 1) hnext hfirst
      (by rw [hperm.length_eq]; omega)
    exact ⟨list', hstep.trans hcall, hagain.trans hperm, hsorted⟩

private theorem finish_sorts {c : Nat} (hcut : Cut cmp c list) (hpos : 0 < c) (hc : c ≤ list.length)
    (hnear : c ≤ maxThresh + 1) :
    ∃ list', finish cmp list = some list' ∧ list'.Perm list ∧ Ordered cmp list' list'.length := by
  obtain ⟨x, hx⟩ : ∃ x, list[0]? = some x := ⟨_, List.getElem?_eq_getElem (by omega)⟩
  have hself : Least cmp list 0 1 := by
    refine ⟨x, hx, fun i y hi hy => ?_⟩
    obtain rfl : i = 0 := by omega
    obtain rfl := Option.some.inj (hx.symm.trans hy)
    exact Std.ReflCmp.isLE_rfl
  obtain ⟨tmp, hsmallest, -, hnearest⟩ := @smallest_least _ cmp list 1 0
    (min (list.length - 1) maxThresh) _ (by omega) Nat.zero_lt_one hself
  obtain ⟨first, hexchange, hperm, hleast⟩ := (hnearest.of_cut hcut hpos (by omega)).first
  have hlength := hperm.length_eq
  have hsorted : ∃ list', insertionSort cmp (first.length - 1 - 1) first 2 = some list' ∧
      list'.Perm first ∧ Ordered cmp list' list'.length := by
    by_cases hone : first.length = 1
    · refine ⟨first, ?_, List.Perm.refl first, fun i j y z hij hj => ?_⟩
      · rw [hone]
        rfl
      · omega
    · refine insertionSort_sorts (fun i j y z hij hj hy hz => ?_) hleast (by omega)
      obtain ⟨rfl, rfl⟩ : i = 0 ∧ j = 1 := by omega
      obtain ⟨least, hfirst, hle⟩ := hleast
      obtain rfl := Option.some.inj (hfirst.symm.trans hy)
      exact hle 1 z (by omega) hz
  obtain ⟨list', hcall, hagain, hordered⟩ := hsorted
  refine ⟨list', ?_, hagain.trans hperm, hordered⟩
  unfold finish
  simp only [hsmallest, Option.bind_eq_bind, Option.bind_some]
  rw [hlength] at hcall
  by_cases hzero : tmp ≠ 0
  · rw [if_pos hzero] at hexchange ⊢
    rw [hexchange, Option.bind_some, hcall]
  · rw [if_neg hzero] at hexchange ⊢
    obtain rfl := Option.some.inj hexchange
    exact hcall

theorem qsort2_returns (cmp : α → α → Ordering) [Std.TransCmp cmp] (list : List α)
    (hlength : list.length < 2 ^ 64) :
    ∃ sorted, qsort2 cmp list = some sorted ∧ sorted.Perm list ∧
      Ordered cmp sorted sorted.length := by
  by_cases hzero : list.length = 0
  · obtain rfl := List.length_eq_zero_iff.mp hzero
    exact ⟨[], rfl, List.Perm.nil, fun i j x y _ hj => absurd hj (Nat.not_lt_zero j)⟩
  have hcut : ∃ list', (if list.length > maxThresh then
        mainLoop cmp list.length list 0 (list.length - 1) [] else some list) = some list' ∧
      list'.Perm list ∧ ∃ c, 0 < c ∧ c ≤ maxThresh + 1 ∧ c ≤ list'.length ∧ Cut cmp c list' := by
    by_cases hmany : list.length > maxThresh
    · obtain ⟨list', hcall, hperm, c, hpos, hc, hcut⟩ := mainLoop_returns cmp hmany hlength
      have hsame := hperm.length_eq
      exact ⟨list', (if_pos hmany).trans hcall, hperm, c, hpos, hc, by omega, hcut⟩
    · refine ⟨list, if_neg hmany, List.Perm.refl list, list.length, by omega, by omega, le_refl _, ?_⟩
      intro x _ y hy
      rw [List.drop_length] at hy
      cases hy
  obtain ⟨list', hloop, hperm, c, hpos, hnear, hc, hcut⟩ := hcut
  obtain ⟨sorted, hfinish, hagain, hordered⟩ := finish_sorts hcut hpos hc hnear
  refine ⟨sorted, ?_, hagain.trans hperm, hordered⟩
  rw [qsort2_eq hzero, hloop, Option.bind_some, hfinish]

/-- The call returns the elements in order: it compares no element in front of the array or behind it,
its stack is deep enough, and its loops end. -/
theorem qsort2_sorts (cmp : α → α → Ordering) [Std.TransCmp cmp] (list : List α)
    (hlength : list.length < 2 ^ 64) :
    ∃ sorted, qsort2 cmp list = some sorted ∧ sorted.Perm list ∧
      sorted.Pairwise fun x y => (cmp x y).isLE = true := by
  obtain ⟨sorted, hcall, hperm, hordered⟩ := qsort2_returns cmp list hlength
  exact ⟨sorted, hcall, hperm, hordered.pairwise⟩

theorem qsort2_sorts_six : ([40, 10, 100, 90, 20, 25] : List Nat).length < 2 ^ 64 ∧
    ∃ sorted, qsort2 compare [40, 10, 100, 90, 20, 25] = some sorted ∧
      sorted.Perm [40, 10, 100, 90, 20, 25] ∧
      sorted.Pairwise fun x y : Nat => (compare x y).isLE = true :=
  ⟨by decide, qsort2_sorts compare [40, 10, 100, 90, 20, 25] (by decide)⟩

example : qsort2 compare [40, 10, 100, 90, 20, 25] = some [10, 20, 25, 40, 90, 100] := by
  decide +kernel

end Libsax.Sort
