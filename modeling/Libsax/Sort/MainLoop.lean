import Libsax.Sort.Partition
import Mathlib.Algebra.BigOperators.Group.List.Basic
import Mathlib.Algebra.Ring.Nat

/-! The main loop: it ends, its stack is deep enough, and it leaves a smallest element among the
first five. -/
namespace Libsax.Sort

open Libsax.Lib

variable {α : Type} {cmp : α → α → Ordering} {list list' : List α} {lo hi left right fuel n c : Nat}
  {stack pieces : List (Nat × Nat)}

/-- The pieces that are left of one, the next one first. -/
def next (lo hi left right : Nat) : List (Nat × Nat) :=
  if small lo right then if small left hi then [] else [(left, hi)]
  else if small left hi then [(lo, right)]
  else if (right : Int) - lo > (hi : Int) - left then [(left, hi), (lo, right)]
  else [(lo, right), (left, hi)]

/-- The main loop with all of its pieces on the stack. -/
def rounds (cmp : α → α → Ordering) (fuel : Nat) (list : List α) :
    List (Nat × Nat) → Option (List α)
  | [] => some list
  | (lo, hi) :: stack => mainLoop cmp fuel list lo hi stack

private theorem mainLoop_round (hpartition : partition cmp list lo hi = some (list', left, right))
    (hroom : stack.length + 1 < stackSize ∨ small lo right = true ∨ small left hi = true) :
    mainLoop cmp (fuel + 1) list lo hi stack =
      rounds cmp fuel list' (next lo hi left right ++ stack) := by
  unfold mainLoop next
  simp only [hpartition, Option.bind_eq_bind, Option.bind_some]
  by_cases hfirst : small lo right = true
  · rw [if_pos hfirst, if_pos hfirst]
    by_cases hsecond : small left hi = true
    · rw [if_pos hsecond, if_pos hsecond]
      cases stack <;> rfl
    · rw [if_neg hsecond, if_neg hsecond]
      rfl
  · rw [if_neg hfirst, if_neg hfirst]
    by_cases hsecond : small left hi = true
    · rw [if_pos hsecond, if_pos hsecond]
      rfl
    · rw [if_neg hsecond, if_neg hsecond, if_pos (by simpa [hfirst, hsecond] using hroom)]
      split <;> rfl

/-- Of two pieces the smaller one is first: each piece on top of others is at most half as large. -/
def Halved (n : Nat) : List (Nat × Nat) → Prop
  | [] => True
  | (lo, hi) :: stack => (hi + 1 - lo) * 2 ^ stack.length ≤ n ∧ Halved n stack

/-- How many rounds there are at most. -/
def effort (pieces : List (Nat × Nat)) : Nat := (pieces.map fun piece => piece.2 - piece.1).sum

/-- A piece that the main loop takes. -/
def Piece (n : Nat) (piece : Nat × Nat) : Prop := piece.1 + maxThresh ≤ piece.2 ∧ piece.2 < n

private theorem small_eq_false (hle : lo ≤ hi) : small lo hi = false ↔ lo + maxThresh < hi := by
  unfold small maxThresh
  rw [decide_eq_false_iff_not]
  omega

private theorem next_pieces (hle : lo ≤ right) (hright : right < left) (hleft : left ≤ hi)
    (hhi : hi < n)
    (hstack : ∀ piece ∈ stack, Piece n piece) :
    ∀ piece ∈ next lo hi left right ++ stack, Piece n piece := by
  have hfirst : ¬ small lo right = true → Piece n (lo, right) := by
    rw [Bool.not_eq_true, small_eq_false hle]
    exact fun hlarge => ⟨Nat.le_of_lt hlarge, by omega⟩
  have hsecond : ¬ small left hi = true → Piece n (left, hi) := by
    rw [Bool.not_eq_true, small_eq_false hleft]
    exact fun hlarge => ⟨Nat.le_of_lt hlarge, hhi⟩
  intro piece hpiece
  rcases List.mem_append.mp hpiece with hnew | hold
  · unfold next at hnew
    split_ifs at hnew with hsmall hother hother hlarger
    · cases hnew
    · obtain rfl := List.mem_singleton.mp hnew
      exact hsecond hother
    · obtain rfl := List.mem_singleton.mp hnew
      exact hfirst hsmall
    · rcases List.mem_pair.mp hnew with rfl | rfl
      · exact hsecond hother
      · exact hfirst hsmall
    · rcases List.mem_pair.mp hnew with rfl | rfl
      · exact hfirst hsmall
      · exact hsecond hother
  · exact hstack piece hold

private theorem next_effort (hle : lo ≤ right) (hright : right < left) (hleft : left ≤ hi) :
    effort (next lo hi left right ++ stack) < effort ((lo, hi) :: stack) := by
  unfold next effort
  split_ifs <;> simp only [List.nil_append, List.cons_append, List.map_cons, List.sum_cons] <;> omega

private theorem next_halved (hle : lo ≤ right) (hright : right < left) (hleft : left ≤ hi)
    (hhalved : Halved n ((lo, hi) :: stack)) : Halved n (next lo hi left right ++ stack) := by
  obtain ⟨hsize, hstack⟩ := hhalved
  have hpart : ∀ part, part ≤ hi + 1 - lo → part * 2 ^ stack.length ≤ n := fun part hpart =>
    Nat.le_trans (Nat.mul_le_mul_right _ hpart) hsize
  have hhalf : ∀ part, part * 2 ≤ hi + 1 - lo → part * 2 ^ (stack.length + 1) ≤ n := by
    intro part hpart
    rw [Nat.pow_succ', ← Nat.mul_assoc]
    exact Nat.le_trans (Nat.mul_le_mul_right _ hpart) hsize
  unfold next
  split_ifs
  · exact hstack
  · exact ⟨hpart _ (by omega), hstack⟩
  · exact ⟨hpart _ (by omega), hstack⟩
  · exact ⟨hhalf _ (by omega), hpart _ (by omega), hstack⟩
  · exact ⟨hhalf _ (by omega), hpart _ (by omega), hstack⟩

private theorem halved_room (hhalved : Halved n ((lo, hi) :: stack)) (hpiece : lo + maxThresh ≤ hi)
    (hn : n < 2 ^ 64) : stack.length + 1 < stackSize := by
  by_contra hfull
  have hdeep : 2 ^ 63 ≤ 2 ^ stack.length :=
    Nat.pow_le_pow_right (by omega) (by unfold stackSize at hfull; omega)
  have hsize : 2 * 2 ^ 63 ≤ (hi + 1 - lo) * 2 ^ stack.length :=
    Nat.mul_le_mul (by unfold maxThresh at hpiece; omega) hdeep
  have hbound := hhalved.1
  omega

/-- There is a cut at the end of the first piece, or one of the first elements when there is no such
piece any more. -/
def Front (cmp : α → α → Ordering) (list : List α) (pieces : List (Nat × Nat)) : Prop :=
  ∃ c, 0 < c ∧ Cut cmp c list ∧
    ((c ≤ maxThresh + 1 ∧ pieces.filter (·.1 < c) = []) ∨ pieces.filter (·.1 < c) = [(0, c - 1)])

theorem Front.initial (hlength : 0 < list.length) : Front cmp list [(0, list.length - 1)] := by
  refine ⟨list.length, hlength, fun x _ y hy => ?_, .inr ?_⟩
  · rw [List.drop_length] at hy
    cases hy
  · rw [List.filter_cons_of_pos (by simpa using hlength), List.filter_nil]

theorem Parted.cut (hparted : Parted cmp 0 hi list list' left right) (hcut : Cut cmp (hi + 1) list) :
    Cut cmp (right + 1) list' := by
  refine cut_iff_getElem?.mpr fun i j x y hlt hle hx hy => ?_
  by_cases hinside : j ≤ hi
  · exact hparted.parted i j x y (Nat.zero_le i) (Nat.le_of_lt_succ hlt) hle hinside hx hy
  · have hright := hparted.right_lt
    have hleft := hparted.left_le
    exact cut_iff_getElem?.mp (hcut.within_before hparted.within (Nat.lt_succ_self hi)) i j x y
      (by omega) (by omega) hx hy

private theorem next_filter_first (hright : right < left) :
    (next 0 hi left right).filter (·.1 < right + 1) = if small 0 right then [] else [(0, right)] := by
  have hfirst : decide (0 < right + 1) = true := decide_eq_true (Nat.succ_pos right)
  have hsecond : decide (left < right + 1) = false := decide_eq_false (by omega)
  unfold next
  split_ifs <;> simp only [List.filter_cons, List.filter_nil, hfirst, hsecond, ↓reduceIte,
    Bool.false_eq_true]

private theorem next_filter_behind (hlo : c ≤ lo) (hleft : c ≤ left) :
    (next lo hi left right).filter (·.1 < c) = [] := by
  have hfirst : decide (lo < c) = false := decide_eq_false (Nat.not_lt.mpr hlo)
  have hsecond : decide (left < c) = false := decide_eq_false (Nat.not_lt.mpr hleft)
  unfold next
  split_ifs <;> simp only [List.filter_cons, List.filter_nil, hfirst, hsecond, ↓reduceIte,
    Bool.false_eq_true]

theorem Front.partition (hfront : Front cmp list ((lo, hi) :: stack))
    (hparted : Parted cmp lo hi list list' left right) :
    Front cmp list' (next lo hi left right ++ stack) := by
  obtain ⟨c, hpos, hcut, hfilter⟩ := hfront
  have hle := hparted.le_right
  have hright := hparted.right_lt
  have hleft := hparted.left_le
  by_cases hlo : lo < c
  · -- the first piece is the one that is taken
    rw [List.filter_cons_of_pos (by simpa using hlo)] at hfilter
    obtain ⟨-, hnil⟩ | hpiece := hfilter
    · cases hnil
    · obtain ⟨hpiece, hothers⟩ := List.cons.inj hpiece
      obtain ⟨rfl, hlast⟩ := Prod.mk.inj hpiece
      obtain rfl : c = hi + 1 := by omega
      have hstack : stack.filter (·.1 < right + 1) = [] := by
        rw [List.filter_eq_nil_iff] at hothers ⊢
        intro piece hpiece
        have hbehind := hothers piece hpiece
        rw [decide_eq_true_eq] at hbehind ⊢
        omega
      refine ⟨right + 1, Nat.succ_pos right, hparted.cut hcut, ?_⟩
      rw [List.filter_append, next_filter_first hright, hstack, List.append_nil]
      by_cases hsmall : small 0 right = true
      · rw [if_pos hsmall]
        unfold small at hsmall
        rw [decide_eq_true_eq] at hsmall
        exact .inl ⟨by omega, rfl⟩
      · rw [if_neg hsmall]
        exact .inr rfl
  · have hbehind := Nat.le_of_not_lt hlo
    refine ⟨c, hpos, hcut.within_behind hparted.within hbehind, ?_⟩
    rw [List.filter_cons_of_neg (by simpa using hlo)] at hfilter
    rw [List.filter_append, next_filter_behind hbehind (by omega), List.nil_append]
    exact hfilter

theorem Front.settled (hfront : Front cmp list []) : ∃ c, 0 < c ∧ c ≤ maxThresh + 1 ∧
    Cut cmp c list := by
  obtain ⟨c, hpos, hcut, ⟨hc, -⟩ | hpiece⟩ := hfront
  · exact ⟨c, hpos, hc, hcut⟩
  · cases hpiece

private theorem rounds_returns (cmp : α → α → Ordering) [Std.TransCmp cmp]
    (hpieces : ∀ piece ∈ pieces, Piece list.length piece)
    (hhalved : Halved list.length pieces) (hfront : Front cmp list pieces)
    (hlength : list.length < 2 ^ 64) (heffort : effort pieces < fuel) :
    ∃ list', rounds cmp fuel list pieces = some list' ∧ list'.Perm list ∧ Front cmp list' [] := by
  induction fuel generalizing list pieces with
  | zero => omega
  | succ fuel ih =>
    cases pieces with
    | nil => exact ⟨list, rfl, List.Perm.refl list, hfront⟩
    | cons piece stack =>
      obtain ⟨lo, hi⟩ := piece
      have hpiece := hpieces (lo, hi) List.mem_cons_self
      have hmany : lo + maxThresh ≤ hi := hpiece.1
      obtain ⟨moved, left, right, hpartition, hparted⟩ := partition_parted cmp
        (show lo + 2 ≤ hi by unfold maxThresh at hmany; omega) hpiece.2
      have hle := hparted.le_right
      have hright := hparted.right_lt
      have hleft := hparted.left_le
      have hsame := hparted.within.length_eq
      have hless := @next_effort lo hi left right stack hle hright hleft
      obtain ⟨final, hrounds, hperm, hsettled⟩ := ih
        (hsame ▸ next_pieces hle hright hleft hpiece.2 fun other hother =>
          hpieces other (List.mem_cons_of_mem _ hother))
        (hsame ▸ next_halved hle hright hleft hhalved) (hfront.partition hparted)
        (hsame ▸ hlength) (by omega)
      refine ⟨final, ?_, hperm.trans hparted.within.perm, hsettled⟩
      exact (mainLoop_round hpartition (.inl (halved_room hhalved hmany hlength))).trans hrounds

theorem mainLoop_returns (cmp : α → α → Ordering) [Std.TransCmp cmp]
    (hmany : maxThresh < list.length) (hlength : list.length < 2 ^ 64) :
    ∃ list', mainLoop cmp list.length list 0 (list.length - 1) [] = some list' ∧
      list'.Perm list ∧ ∃ c, 0 < c ∧ c ≤ maxThresh + 1 ∧ Cut cmp c list' := by
  have hpiece : Piece list.length (0, list.length - 1) := ⟨by omega, by omega⟩
  have hhalved : Halved list.length [(0, list.length - 1)] := by
    refine ⟨?_, trivial⟩
    rw [List.length_nil, Nat.pow_zero, Nat.mul_one]
    omega
  have heffort : effort [(0, list.length - 1)] < list.length := by
    unfold effort
    simp only [List.map_cons, List.map_nil, List.sum_cons, List.sum_nil]
    omega
  obtain ⟨list', hrounds, hperm, hfront⟩ := rounds_returns cmp
    (List.forall_mem_singleton.mpr hpiece) hhalved (Front.initial (by omega)) hlength heffort
  exact ⟨list', hrounds, hperm, hfront.settled⟩

end Libsax.Sort
