import Mathlib.Algebra.Ring.Nat
import Mathlib.Data.List.Basic
import Mathlib.Data.Nat.ModEq
import Mathlib.Logic.Function.Basic

/-! Queues in a circular array: the items lie in consecutive slots from a start
index, wrapping at the end of the array. -/
namespace Libsax.Lib

variable {α : Type}

/-- The slot behind `index` in a ring of `size` slots. -/
def nextSlot (size index : Nat) : Nat := if index + 1 = size then 0 else index + 1

private theorem nextSlot_eq {size index : Nat} (hindex : index < size) :
    nextSlot size index = (index + 1) % size := by
  unfold nextSlot
  split_ifs with hwrap
  · rw [hwrap, Nat.mod_self]
  · exact (Nat.mod_eq_of_lt (by omega)).symm

/-- The slots from `start` up to `stop` hold `items`, oldest first. -/
structure Window (size : Nat) (slots : Nat → α) (start stop : Nat) (items : List α) : Prop where
  start_lt : start < size
  fits : items.length ≤ size
  stop_eq : stop = (start + items.length) % size
  stored : ∀ i item, items[i]? = some item → slots ((start + i) % size) = item

namespace Window

variable {size start stop : Nat} {slots : Nat → α} {items : List α}

theorem stop_lt (hwindow : Window size slots start stop items) : stop < size := by
  have hpos : 0 < size := Nat.lt_of_le_of_lt (Nat.zero_le _) hwindow.start_lt
  rw [hwindow.stop_eq]
  exact Nat.mod_lt _ hpos

private theorem slot_inj (hwindow : Window size slots start stop items) {i j : Nat} (hi : i < size)
    (hj : j < size) (hslot : (start + i) % size = (start + j) % size) : i = j := by
  have hstart := hwindow.start_lt
  have hmod : i % size = j % size := Nat.ModEq.add_left_cancel' start hslot
  rwa [Nat.mod_eq_of_lt hi, Nat.mod_eq_of_lt hj] at hmod

private theorem slot_ne_stop (hwindow : Window size slots start stop items)
    (hroom : items.length < size) {i : Nat} (hi : i < items.length) :
    (start + i) % size ≠ stop := by
  intro hslot
  rw [hwindow.stop_eq] at hslot
  have := hwindow.slot_inj (by omega) hroom hslot
  omega

theorem push (hwindow : Window size slots start stop items) (hroom : items.length < size)
    (item : α) :
    Window size (Function.update slots stop item) start (nextSlot size stop)
      (items ++ [item]) where
  start_lt := hwindow.start_lt
  fits := by
    rw [List.length_append, List.length_singleton]
    omega
  stop_eq := by
    rw [nextSlot_eq hwindow.stop_lt, hwindow.stop_eq, Nat.mod_add_mod, List.length_append,
      List.length_singleton, Nat.add_assoc]
  stored := by
    intro i other hother
    rcases Nat.lt_or_ge i items.length with hi | hi
    · rw [List.getElem?_append_left hi] at hother
      rw [Function.update_of_ne (hwindow.slot_ne_stop hroom hi)]
      exact hwindow.stored i other hother
    · rw [List.getElem?_append_right hi] at hother
      obtain ⟨hlast, hitem⟩ := List.getElem?_eq_some_iff.mp hother
      rw [List.length_singleton] at hlast
      have hend : i = items.length := by omega
      subst hend
      rw [← hwindow.stop_eq, Function.update_self, ← hitem]
      simp

theorem pop {item : α} {rest : List α}
    (hwindow : Window size slots start stop (item :: rest)) :
    slots start = item ∧ Window size slots (nextSlot size start) stop rest := by
  have hstart := hwindow.start_lt
  have hfits := hwindow.fits
  rw [List.length_cons] at hfits
  refine ⟨?_, ?_, by omega, ?_, ?_⟩
  · have hfirst := hwindow.stored 0 item rfl
    rwa [Nat.add_zero, Nat.mod_eq_of_lt hstart] at hfirst
  · rw [nextSlot_eq hstart]
    exact Nat.mod_lt _ (by omega)
  · rw [nextSlot_eq hstart, hwindow.stop_eq, List.length_cons, Nat.mod_add_mod]
    congr 1
    omega
  · intro i other hother
    have hslot := hwindow.stored (i + 1) other (by rw [List.getElem?_cons_succ, hother])
    rw [nextSlot_eq hstart, Nat.mod_add_mod]
    rwa [show start + 1 + i = start + (i + 1) by omega]

theorem start_eq_stop (hwindow : Window size slots start stop items)
    (hroom : items.length < size) : start = stop ↔ items = [] := by
  have hstart := hwindow.start_lt
  constructor
  · intro heq
    by_contra hne
    have hpos : 0 < items.length := List.length_pos_of_ne_nil hne
    refine hwindow.slot_ne_stop hroom hpos ?_
    rwa [Nat.add_zero, Nat.mod_eq_of_lt hstart]
  · intro hnil
    rw [hwindow.stop_eq, hnil, List.length_nil, Nat.add_zero, Nat.mod_eq_of_lt hstart]

theorem stop_cases (hwindow : Window size slots start stop items)
    (hroom : items.length < size) :
    stop = start + items.length ∨ stop + size = start + items.length ∧ stop < start := by
  have hstart := hwindow.start_lt
  rcases Nat.lt_or_ge (start + items.length) size with hlt | hge
  · exact Or.inl (hwindow.stop_eq.trans (Nat.mod_eq_of_lt hlt))
  · have hstop := hwindow.stop_eq
    rw [Nat.mod_eq_sub_mod hge, Nat.mod_eq_of_lt (by omega)] at hstop
    exact Or.inr ⟨by omega, by omega⟩

end Window

/-- The slot is one of the `count` slots from `start` on. -/
def Covered (size start count slot : Nat) : Prop := ∃ i < count, (start + i) % size = slot

theorem covered_succ {size start count slot : Nat} :
    Covered size start (count + 1) slot ↔
      Covered size start count slot ∨ (start + count) % size = slot := by
  constructor
  · rintro ⟨i, hi, hslot⟩
    rcases Nat.lt_succ_iff_lt_or_eq.mp hi with hlt | rfl
    · exact Or.inl ⟨i, hlt, hslot⟩
    · exact Or.inr hslot
  · rintro (⟨i, hi, hslot⟩ | hslot)
    · exact ⟨i, Nat.lt_succ_of_lt hi, hslot⟩
    · exact ⟨count, Nat.lt_succ_self count, hslot⟩

theorem covered_cons {size start count slot : Nat} (hstart : start < size) :
    Covered size start (count + 1) slot ↔
      start = slot ∨ Covered size (nextSlot size start) count slot := by
  have hshift : ∀ i, (nextSlot size start + i) % size = (start + (i + 1)) % size := by
    intro i
    rw [nextSlot_eq hstart, Nat.mod_add_mod]
    congr 1
    omega
  constructor
  · rintro ⟨i, hi, hslot⟩
    cases i with
    | zero =>
      rw [Nat.add_zero, Nat.mod_eq_of_lt hstart] at hslot
      exact Or.inl hslot
    | succ i => exact Or.inr ⟨i, by omega, (hshift i).trans hslot⟩
  · rintro (rfl | ⟨i, hi, hslot⟩)
    · exact ⟨0, Nat.succ_pos count, Nat.mod_eq_of_lt hstart⟩
    · exact ⟨i + 1, by omega, (hshift i).symm.trans hslot⟩

/-- Behind its own first slot a window that is not full never comes back to it. -/
theorem not_covered_start {size start count : Nat} (hstart : start < size)
    (hcount : count < size) : ¬Covered size (nextSlot size start) count start := by
  rintro ⟨i, hi, hslot⟩
  rw [nextSlot_eq hstart, Nat.mod_add_mod] at hslot
  rcases Nat.lt_or_ge (start + 1 + i) size with hlt | hge
  · rw [Nat.mod_eq_of_lt hlt] at hslot
    omega
  · rw [Nat.mod_eq_sub_mod hge, Nat.mod_eq_of_lt (by omega)] at hslot
    omega

theorem Window.not_covered_stop {size start stop : Nat} {slots : Nat → α} {items : List α}
    (hwindow : Window size slots start stop items) (hroom : items.length < size) :
    ¬Covered size start items.length stop := by
  rintro ⟨i, hi, hslot⟩
  exact hwindow.slot_ne_stop hroom hi hslot

end Libsax.Lib
