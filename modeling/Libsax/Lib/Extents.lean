import Mathlib.Algebra.Ring.Int.Defs
import Mathlib.Algebra.Order.Ring.Int
import Mathlib.Data.List.Perm.Subperm

/-! Places in a file, each a number of units from some position on, that do not overlap.
New ones are handed out at the end. -/
namespace Libsax.Lib

/-- Where a place begins, and how many units it has. -/
abbrev Extent := Int × Nat

/-- Two places without a common byte. -/
def Apart (unit : Nat) (left right : Extent) : Prop :=
  left.1 + left.2 * unit ≤ right.1 ∨ right.1 + right.2 * unit ≤ left.1

/-- Places between two positions, each apart from the others. -/
structure Laid (unit : Nat) (first limit : Int) (places : List Extent) : Prop where
  apart : places.Pairwise (Apart unit)
  within : ∀ place ∈ places, first ≤ place.1 ∧ place.1 + place.2 * unit ≤ limit

section Laid

variable {unit : Nat} {first limit : Int} {places others : List Extent} {place : Extent}

theorem Apart.symm {left right : Extent} (hapart : Apart unit left right) :
    Apart unit right left := Or.symm hapart

@[simp] private theorem laid_cons : Laid unit first limit (place :: places) ↔
    (∀ other ∈ places, Apart unit place other) ∧
      (first ≤ place.1 ∧ place.1 + place.2 * unit ≤ limit) ∧ Laid unit first limit places := by
  constructor
  · rintro ⟨hapart, hwithin⟩
    obtain ⟨hplace, hrest⟩ := List.pairwise_cons.mp hapart
    obtain ⟨hin, hall⟩ := List.forall_mem_cons.mp hwithin
    exact ⟨hplace, hin, hrest, hall⟩
  · rintro ⟨hplace, hin, hrest, hall⟩
    exact ⟨List.pairwise_cons.mpr ⟨hplace, hrest⟩, List.forall_mem_cons.mpr ⟨hin, hall⟩⟩

theorem Laid.perm (hlaid : Laid unit first limit places) (hperm : places.Perm others) :
    Laid unit first limit others :=
  ⟨(hperm.pairwise_iff fun {_ _} hapart => Apart.symm hapart).mp hlaid.apart,
    fun place hplace => hlaid.within place (hperm.mem_iff.mpr hplace)⟩

theorem Laid.append (hlaid : Laid unit first limit (places ++ others)) :
    Laid unit first limit places ∧ Laid unit first limit others := by
  obtain ⟨hapart, hwithin⟩ := hlaid
  obtain ⟨hleft, hright, -⟩ := List.pairwise_append.mp hapart
  obtain ⟨hin, hout⟩ := List.forall_mem_append.mp hwithin
  exact ⟨⟨hleft, hin⟩, hright, hout⟩

theorem Laid.mono (hlaid : Laid unit first limit places) {more : Int} (hmore : limit ≤ more) :
    Laid unit first more places :=
  ⟨hlaid.apart, fun place hplace =>
    ⟨(hlaid.within place hplace).1, (hlaid.within place hplace).2.trans hmore⟩⟩

theorem Laid.sublist (hlaid : Laid unit first limit places) (hsub : others.Sublist places) :
    Laid unit first limit others :=
  ⟨hlaid.apart.sublist hsub, fun place hplace => hlaid.within place (hsub.subset hplace)⟩

theorem Laid.shrink {start : Int} {count less : Nat}
    (hlaid : Laid unit first limit ((start, count) :: places)) (hless : less ≤ count) :
    Laid unit first limit ((start, less) :: places) := by
  obtain ⟨hapart, ⟨hfirst, hlimit⟩, hplaces⟩ := laid_cons.mp hlaid
  have hsize : (less : Int) * unit ≤ count * unit :=
    Int.mul_le_mul_of_nonneg_right (Int.ofNat_le.mpr hless) (Int.natCast_nonneg _)
  dsimp only at hfirst hlimit
  refine laid_cons.mpr ⟨fun other hother => ?_, ⟨hfirst, by dsimp only; omega⟩, hplaces⟩
  have hother' := hapart other hother
  unfold Apart at hother' ⊢
  dsimp only at hother' ⊢
  omega

theorem Laid.cons_end (hlaid : Laid unit first limit places) {count : Nat}
    (hfirst : first ≤ limit) :
    Laid unit first (limit + count * unit) ((limit, count) :: places) := by
  have hsize : (0 : Int) ≤ count * unit := Int.mul_nonneg (Int.natCast_nonneg _)
    (Int.natCast_nonneg _)
  refine laid_cons.mpr ⟨fun other hother => Or.inr (hlaid.within other hother).2,
    ⟨hfirst, Int.le_refl _⟩, hlaid.mono (by omega)⟩

end Laid

end Libsax.Lib
