import Mathlib.Data.List.Infix
import Mathlib.Tactic.SplitIfs

/-! The first occurrence of a list in another, and the substitution of all occurrences from
the left on that do not overlap. -/
namespace Libsax.Lib

variable {α : Type}

def firstAt [DecidableEq α] (sub : List α) : List α → Option Nat
  | [] => if sub = [] then some 0 else none
  | a :: text => if sub <+: a :: text then some 0 else (firstAt sub text).map (· + 1)

/-- Every occurrence that begins behind the last one replaced is replaced. -/
inductive Substitutes (sub neu : List α) : List α → List α → Prop
  | nil : Substitutes sub neu [] []
  | here {text result : List α} (hrest : Substitutes sub neu text result) :
      Substitutes sub neu (sub ++ text) (neu ++ result)
  | skip {a : α} {text result : List α} (hnot : ¬ sub <+: a :: text)
      (hrest : Substitutes sub neu text result) : Substitutes sub neu (a :: text) (a :: result)

variable [DecidableEq α] {sub neu text : List α}

@[simp] theorem firstAt_nil (text : List α) : firstAt [] text = some 0 := by
  cases text with
  | nil => rfl
  | cons a text => exact if_pos List.nil_prefix

theorem substitutes_of_none (hnone : firstAt sub text = none) : Substitutes sub neu text text := by
  induction text with
  | nil => exact Substitutes.nil
  | cons a text ih =>
    rw [firstAt] at hnone
    split_ifs at hnone with hsub
    exact Substitutes.skip hsub (ih (Option.map_eq_none_iff.mp hnone))

theorem exists_of_firstAt (hsub : sub ≠ []) {i : Nat} (hfirst : firstAt sub text = some i) :
    ∃ front back, text = front ++ sub ++ back ∧ front.length = i ∧
      ∀ result, Substitutes sub neu back result →
        Substitutes sub neu text (front ++ neu ++ result) := by
  induction text generalizing i with
  | nil =>
    rw [firstAt, if_neg hsub] at hfirst
    cases hfirst
  | cons a text ih =>
    rw [firstAt] at hfirst
    split_ifs at hfirst with hprefix
    · obtain rfl := Option.some.inj hfirst
      obtain ⟨back, hback⟩ := hprefix
      rw [← hback]
      exact ⟨[], back, rfl, rfl, fun result hresult => Substitutes.here hresult⟩
    · obtain ⟨j, hj, rfl⟩ := Option.map_eq_some_iff.mp hfirst
      obtain ⟨front, back, htext, hlength, hrest⟩ := ih hj
      refine ⟨a :: front, back, by rw [htext]; rfl, by rw [List.length_cons, hlength], ?_⟩
      intro result hresult
      exact Substitutes.skip hprefix (hrest result hresult)

end Libsax.Lib
