import Mathlib.Data.List.Basic
import Mathlib.Data.List.Perm.Basic

/-! Lists that are rearranged in place: two elements change places, within bounds that the rest
of the list is outside of. -/
namespace Libsax.Lib

variable {α : Type} {list list' list'' : List α} {lo hi i j c : Nat} {x y : α}

def exchange (list : List α) (i j : Nat) : Option (List α) := do
  let x ← list[i]?
  let y ← list[j]?
  some ((list.set i y).set j x)

/-- The same elements, those outside of the bounds where they were. -/
structure Within (lo hi : Nat) (list list' : List α) : Prop where
  perm : list'.Perm list
  same : ∀ i, i < lo ∨ hi < i → list'[i]? = list[i]?

namespace Within

theorem refl (lo hi : Nat) (list : List α) : Within lo hi list list :=
  ⟨.refl list, fun _ _ => rfl⟩

theorem trans (hfirst : Within lo hi list list') (hsecond : Within lo hi list' list'') :
    Within lo hi list list'' :=
  ⟨hsecond.perm.trans hfirst.perm, fun i hi => (hsecond.same i hi).trans (hfirst.same i hi)⟩

theorem mono (hwithin : Within i j list list') (hlo : lo ≤ i) (hhi : j ≤ hi) :
    Within lo hi list list' :=
  ⟨hwithin.perm, fun k hk => hwithin.same k (hk.imp (Nat.lt_of_lt_of_le · hlo)
    (Nat.lt_of_le_of_lt hhi))⟩

theorem length_eq (hwithin : Within lo hi list list') : list'.length = list.length :=
  hwithin.perm.length_eq

private theorem take_eq (hwithin : Within lo hi list list') (hc : c ≤ lo) :
    list'.take c = list.take c := by
  refine List.ext_getElem? fun i => ?_
  by_cases hi : i < c
  · rw [List.getElem?_take_of_lt hi, List.getElem?_take_of_lt hi]
    exact hwithin.same i (.inl (Nat.lt_of_lt_of_le hi hc))
  · rw [List.getElem?_take_eq_none (Nat.le_of_not_lt hi),
      List.getElem?_take_eq_none (Nat.le_of_not_lt hi)]

private theorem drop_eq (hwithin : Within lo hi list list') (hc : hi < c) :
    list'.drop c = list.drop c := by
  refine List.ext_getElem? fun i => ?_
  rw [List.getElem?_drop, List.getElem?_drop]
  exact hwithin.same (c + i) (.inr (Nat.lt_of_lt_of_le hc (Nat.le_add_right c i)))

private theorem drop_perm (hwithin : Within lo hi list list') (hc : c ≤ lo) :
    (list'.drop c).Perm (list.drop c) := by
  have hperm := hwithin.perm
  rw [← List.take_append_drop c list', ← List.take_append_drop c list, hwithin.take_eq hc] at hperm
  exact (List.perm_append_left_iff _).mp hperm

private theorem take_perm (hwithin : Within lo hi list list') (hc : hi < c) :
    (list'.take c).Perm (list.take c) := by
  have hperm := hwithin.perm
  rw [← List.take_append_drop c list', ← List.take_append_drop c list, hwithin.drop_eq hc] at hperm
  exact (List.perm_append_right_iff _).mp hperm

end Within

theorem exchange_eq (hx : list[i]? = some x) (hy : list[j]? = some y) :
    exchange list i j = some ((list.set i y).set j x) := by
  unfold exchange
  rw [hx, hy]
  rfl

theorem getElem?_exchange (hx : list[i]? = some x) (hy : list[j]? = some y) (k : Nat) :
    ((list.set i y).set j x)[k]? = if k = j then some x else if k = i then some y else list[k]? := by
  obtain ⟨hi, -⟩ := List.getElem?_eq_some_iff.mp hx
  obtain ⟨hj, -⟩ := List.getElem?_eq_some_iff.mp hy
  by_cases hkj : k = j
  · subst hkj
    rw [if_pos rfl, List.getElem?_set_self (by rwa [List.length_set])]
  · rw [if_neg hkj, List.getElem?_set_ne (Ne.symm hkj)]
    by_cases hki : k = i
    · subst hki
      rw [if_pos rfl, List.getElem?_set_self hi]
    · rw [if_neg hki, List.getElem?_set_ne (Ne.symm hki)]

theorem exchange_within (hx : list[i]? = some x) (hy : list[j]? = some y)
    (hfirst : lo ≤ i ∧ i ≤ hi) (hsecond : lo ≤ j ∧ j ≤ hi) :
    Within lo hi list ((list.set i y).set j x) := by
  obtain ⟨hilt, rfl⟩ := List.getElem?_eq_some_iff.mp hx
  obtain ⟨hjlt, rfl⟩ := List.getElem?_eq_some_iff.mp hy
  refine ⟨List.set_set_perm hilt hjlt, fun k hk => ?_⟩
  rw [getElem?_exchange hx hy, if_neg (by omega), if_neg (by omega)]

/-- No element in front of the position is greater than one behind it. -/
def Cut (cmp : α → α → Ordering) (c : Nat) (list : List α) : Prop :=
  ∀ x ∈ list.take c, ∀ y ∈ list.drop c, (cmp x y).isLE = true

section Cut

variable {cmp : α → α → Ordering}

theorem cut_iff_getElem? : Cut cmp c list ↔ ∀ i j x y, i < c → c ≤ j → list[i]? = some x →
    list[j]? = some y → (cmp x y).isLE = true := by
  constructor
  · intro hcut i j x y hi hj hx hy
    refine hcut x (List.mem_of_getElem? ((List.getElem?_take_of_lt hi).trans hx)) y ?_
    refine List.mem_of_getElem? (i := j - c) ?_
    rw [List.getElem?_drop, Nat.add_sub_cancel' hj]
    exact hy
  · intro hcut x hx y hy
    obtain ⟨i, hi⟩ := List.getElem?_of_mem hx
    obtain ⟨j, hj⟩ := List.getElem?_of_mem hy
    rw [List.getElem?_drop] at hj
    by_cases hlt : i < c
    · rw [List.getElem?_take_of_lt hlt] at hi
      exact hcut i (c + j) x y hlt (Nat.le_add_right c j) hi hj
    · rw [List.getElem?_take_eq_none (Nat.le_of_not_lt hlt)] at hi
      cases hi

theorem Cut.within_before (hcut : Cut cmp c list) (hwithin : Within lo hi list list') (hc : hi < c) :
    Cut cmp c list' := by
  intro x hx y hy
  rw [hwithin.drop_eq hc] at hy
  exact hcut x ((hwithin.take_perm hc).mem_iff.mp hx) y hy

theorem Cut.within_behind (hcut : Cut cmp c list) (hwithin : Within lo hi list list') (hc : c ≤ lo) :
    Cut cmp c list' := by
  intro x hx y hy
  rw [hwithin.take_eq hc] at hx
  exact hcut x hx y ((hwithin.drop_perm hc).mem_iff.mp hy)

end Cut

end Libsax.Lib
