import Mathlib.Data.List.Perm.Basic
import Mathlib.Data.List.Nodup
import Mathlib.Logic.Function.Basic

/-! A family of lists read one after the other, and what changing one list of
the family does to the whole. -/
namespace Libsax.Lib

variable {ι α : Type} [DecidableEq ι]

theorem flatMap_update_perm {indices : List ι} {i : ι} (hmem : i ∈ indices)
    (hnodup : indices.Nodup) (cells : ι → List α) (list : List α) :
    (indices.flatMap (Function.update cells i list) ++ cells i).Perm
      (indices.flatMap cells ++ list) := by
  induction indices with
  | nil => exact absurd hmem (by simp)
  | cons j rest ih =>
    obtain ⟨hj, hrest⟩ := List.nodup_cons.mp hnodup
    rw [List.flatMap_cons, List.flatMap_cons]
    by_cases hji : j = i
    · subst hji
      have hsame : rest.flatMap (Function.update cells j list) = rest.flatMap cells := by
        refine List.flatMap_congr fun k hk => ?_
        have hkj : k ≠ j := by
          rintro rfl
          exact hj hk
        exact Function.update_of_ne hkj list cells
      rw [Function.update_self, hsame]
      calc ((list ++ rest.flatMap cells) ++ cells j).Perm
            (cells j ++ (list ++ rest.flatMap cells)) := List.perm_append_comm
        List.Perm _ (cells j ++ (rest.flatMap cells ++ list)) := List.perm_append_comm.append_left _
        _ = (cells j ++ rest.flatMap cells) ++ list := (List.append_assoc _ _ _).symm
    · have hmem : i ∈ rest := (List.mem_cons.mp hmem).resolve_left (Ne.symm hji)
      rw [Function.update_of_ne hji, List.append_assoc, List.append_assoc]
      exact (ih hmem hrest).append_left _

end Libsax.Lib
