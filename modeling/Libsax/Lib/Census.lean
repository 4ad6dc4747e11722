import Mathlib.Algebra.BigOperators.Group.Finset.Basic
import Mathlib.Algebra.Order.BigOperators.Group.Finset

/-! Counting the parties of a system by what each of them is doing. -/
namespace Libsax.Lib

variable {α : Type}

/-- The weights of the states of the parties `0, 1, ..., n - 1`, added up. -/
def census (n : Nat) (weight : α → Nat) (states : Nat → α) : Nat :=
  ∑ t ∈ Finset.range n, weight (states t)

theorem census_update {n t : Nat} (ht : t < n) (weight : α → Nat) (states : Nat → α)
    (state : α) :
    census n weight (Function.update states t state) + weight (states t) =
      census n weight states + weight state := by
  have hmem : t ∈ Finset.range n := Finset.mem_range.mpr ht
  have hsame : ∀ other ∈ (Finset.range n).erase t,
      weight (Function.update states t state other) = weight (states other) := by
    intro other hother
    rw [Function.update_of_ne (Finset.ne_of_mem_erase hother)]
  unfold census
  rw [← Finset.add_sum_erase _ _ hmem, ← Finset.add_sum_erase _ (fun s => weight (states s)) hmem,
    Finset.sum_congr rfl hsame, Function.update_self]
  omega

theorem census_add (n : Nat) (left right : α → Nat) (states : Nat → α) :
    census n (fun state => left state + right state) states =
      census n left states + census n right states :=
  Finset.sum_add_distrib

theorem census_le {n : Nat} {weight : α → Nat} (hle : ∀ state, weight state ≤ 1)
    (states : Nat → α) : census n weight states ≤ n := by
  have hbound := Finset.sum_le_card_nsmul (Finset.range n) (fun t => weight (states t)) 1
    fun t _ => hle (states t)
  rw [Finset.card_range] at hbound
  exact hbound.trans (Nat.le_of_eq (Nat.mul_one n))

@[simp] theorem census_eq_zero {n : Nat} {weight : α → Nat} {states : Nat → α} :
    census n weight states = 0 ↔ ∀ t < n, weight (states t) = 0 := by
  unfold census
  simp only [Finset.sum_eq_zero_iff, Finset.mem_range]

theorem weight_le_census {n t : Nat} (ht : t < n) (weight : α → Nat) (states : Nat → α) :
    weight (states t) ≤ census n weight states :=
  Finset.single_le_sum (fun other _ => Nat.zero_le (weight (states other)))
    (Finset.mem_range.mpr ht)

theorem weights_le_census {n left right : Nat} (hleft : left < n) (hright : right < n)
    (hne : left ≠ right) (weight : α → Nat) (states : Nat → α) :
    weight (states left) + weight (states right) ≤ census n weight states := by
  have hmem : left ∈ Finset.range n := Finset.mem_range.mpr hleft
  have hother : right ∈ (Finset.range n).erase left :=
    Finset.mem_erase.mpr ⟨hne.symm, Finset.mem_range.mpr hright⟩
  unfold census
  rw [← Finset.add_sum_erase _ _ hmem]
  exact Nat.add_le_add_left
    (Finset.single_le_sum (fun t _ => Nat.zero_le (weight (states t))) hother) _

end Libsax.Lib
