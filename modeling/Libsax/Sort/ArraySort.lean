import Libsax.Sort.Insertion
import Mathlib.Data.List.FinRange
import Mathlib.Order.Defs.Unbundled

/-! `quicksort`: the wrapper that sorts an array in either direction, or the numbers of its elements
by what they stand for. -/
namespace Libsax.Sort

private theorem transCmp_of {S U : Type} (cmp : U → U → Ordering) [Std.TransCmp cmp]
    (value : S → U) :
    Std.TransCmp fun a b => cmp (value a) (value b) where
  eq_swap := Std.OrientedCmp.eq_swap
  isLE_trans := Std.TransCmp.isLE_trans

variable {T : Type} [Preorder T] [DecidableLT T]

def c1_asc (a b : T) : Ordering := if a < b then .lt else if b < a then .gt else .eq

def c1_dsc (a b : T) : Ordering := if a < b then .gt else if b < a then .lt else .eq

def c2_asc (val : List T) (a b : Fin val.length) : Ordering := c1_asc (val.get a) (val.get b)

def c2_dsc (val : List T) (a b : Fin val.length) : Ordering := c1_dsc (val.get a) (val.get b)

def quicksort (val : List T) (asc : Bool) : Option (List T) :=
  if asc then qsort2 c1_asc val else qsort2 c1_dsc val

def quicksortID (val : List T) (asc : Bool) : Option (List (Fin val.length)) :=
  if asc then qsort2 (c2_asc val) (List.finRange val.length)
  else qsort2 (c2_dsc val) (List.finRange val.length)

/-- What comes first in the direction. -/
def Sorted (asc : Bool) (list : List T) : Prop :=
  list.Pairwise fun x y => if asc then x ≤ y else y ≤ x

private theorem c1_dsc_eq (a b : T) : c1_dsc a b = c1_asc b a := by
  unfold c1_dsc c1_asc
  by_cases hlt : a < b
  · rw [if_pos hlt, if_neg (lt_asymm hlt), if_pos hlt]
  · rw [if_neg hlt, if_neg hlt]

section Total

variable [Std.Total (LE.le : T → T → Prop)]

@[simp] private theorem c1_asc_isLE {a b : T} : (c1_asc a b).isLE = true ↔ a ≤ b := by
  unfold c1_asc
  by_cases hlt : a < b
  · rw [if_pos hlt]
    exact ⟨fun _ => le_of_lt hlt, fun _ => rfl⟩
  rw [if_neg hlt]
  by_cases hgt : b < a
  · rw [if_pos hgt]
    exact ⟨fun hle => Bool.noConfusion hle, fun hle => absurd hgt (not_lt_of_ge hle)⟩
  · rw [if_neg hgt]
    refine ⟨fun _ => ?_, fun _ => rfl⟩
    rcases @Std.Total.total T LE.le _ a b with hle | hle
    · exact hle
    · by_contra hnot
      exact hgt (lt_of_le_not_ge hle hnot)

@[simp] private theorem c1_dsc_isLE {a b : T} : (c1_dsc a b).isLE = true ↔ b ≤ a := by
  rw [c1_dsc_eq]
  exact c1_asc_isLE

instance : Std.TransCmp (c1_asc : T → T → Ordering) where
  eq_swap {a b} := by
    unfold c1_asc
    by_cases hlt : a < b
    · rw [if_pos hlt, if_neg (lt_asymm hlt), if_pos hlt]
      rfl
    · rw [if_neg hlt, if_neg hlt]
      split <;> rfl
  isLE_trans hab hbc := c1_asc_isLE.mpr (le_trans (c1_asc_isLE.mp hab) (c1_asc_isLE.mp hbc))

instance : Std.TransCmp (c1_dsc : T → T → Ordering) where
  eq_swap {a b} := by
    rw [c1_dsc_eq, c1_dsc_eq]
    exact Std.OrientedCmp.eq_swap
  isLE_trans {a b c} hab hbc := by
    rw [c1_dsc_eq] at hab hbc ⊢
    exact Std.TransCmp.isLE_trans hbc hab

instance (val : List T) : Std.TransCmp (c2_asc val) := transCmp_of c1_asc val.get

instance (val : List T) : Std.TransCmp (c2_dsc val) := transCmp_of c1_dsc val.get

private theorem quicksort_sorts (val : List T) (asc : Bool) (hlength : val.length < 2 ^ 64) :
    ∃ sorted, quicksort val asc = some sorted ∧ sorted.Perm val ∧ Sorted asc sorted := by
  cases asc with
  | true =>
    obtain ⟨sorted, hcall, hperm, hordered⟩ := qsort2_returns c1_asc val hlength
    exact ⟨sorted, hcall, hperm, hordered.pairwise.imp c1_asc_isLE.mp⟩
  | false =>
    obtain ⟨sorted, hcall, hperm, hordered⟩ := qsort2_returns c1_dsc val hlength
    exact ⟨sorted, hcall, hperm, hordered.pairwise.imp c1_dsc_isLE.mp⟩

/-- The numbers are those of all elements, once each, and the elements they stand for are sorted. -/
theorem quicksortID_sorts (val : List T) (asc : Bool) (hlength : val.length < 2 ^ 64) :
    ∃ ids, quicksortID val asc = some ids ∧ ids.Perm (List.finRange val.length) ∧
      (ids.map val.get).Perm val ∧ Sorted asc (ids.map val.get) := by
  have hnumbers : (List.finRange val.length).length < 2 ^ 64 := by
    rw [List.length_finRange]
    exact hlength
  have hvalues : ∀ ids : List (Fin val.length), ids.Perm (List.finRange val.length) →
      (ids.map val.get).Perm val := by
    intro ids hperm
    have hmap := hperm.map val.get
    rwa [List.map_get_finRange] at hmap
  cases asc with
  | true =>
    obtain ⟨ids, hcall, hperm, hordered⟩ := qsort2_returns (c2_asc val) _ hnumbers
    exact ⟨ids, hcall, hperm, hvalues ids hperm,
      List.pairwise_map.mpr (hordered.pairwise.imp c1_asc_isLE.mp)⟩
  | false =>
    obtain ⟨ids, hcall, hperm, hordered⟩ := qsort2_returns (c2_dsc val) _ hnumbers
    exact ⟨ids, hcall, hperm, hvalues ids hperm,
      List.pairwise_map.mpr (hordered.pairwise.imp c1_dsc_isLE.mp)⟩

end Total

theorem quicksortID_sorts_five : ([40, 10, 100, 90, 20] : List Nat).length < 2 ^ 64 ∧
    ∃ ids, quicksortID [40, 10, 100, 90, 20] false = some ids ∧
      ids.Perm (List.finRange 5) ∧ (ids.map (List.get [40, 10, 100, 90, 20])).Perm
        [40, 10, 100, 90, 20] ∧ Sorted false (ids.map (List.get [40, 10, 100, 90, 20])) :=
  ⟨by decide, quicksortID_sorts [40, 10, 100, 90, 20] false (by decide)⟩

end Libsax.Sort
