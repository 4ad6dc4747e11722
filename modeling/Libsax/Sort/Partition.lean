import Libsax.Sort.Qsort2

/-! One round of the main loop: what is in front of the walls in the end is not greater than the
pivot, what is behind them not less. The scans end at elements that stop them. -/
namespace Libsax.Sort

open Libsax.Lib

variable {α : Type} {cmp : α → α → Ordering} {list list' : List α}
  {lo hi mid left right fuel a b i j : Nat} {v x y : α}

theorem less_eq (cmp : α → α → Ordering) (hx : list[a]? = some x) (hy : list[b]? = some y) :
    less cmp list a b = some (cmp x y == .lt) := by
  unfold less
  rw [hx, hy]
  rfl

theorem isLE_of_lt (hlt : (cmp x y == .lt) = true) : (cmp x y).isLE = true := by
  rw [beq_iff_eq] at hlt
  rw [hlt]
  rfl

section Oriented

variable [Std.OrientedCmp cmp]

theorem isLE_of_not_lt (hnot : ¬ (cmp x y == .lt) = true) : (cmp y x).isLE = true := by
  rw [beq_iff_eq] at hnot
  rw [Ordering.isLE_iff_ne_gt]
  intro hgt
  exact hnot (Std.OrientedCmp.lt_of_gt hgt)

theorem not_lt_of_isLE (hle : (cmp y x).isLE = true) : (cmp x y == .lt) = false := by
  rw [beq_eq_false_iff_ne]
  intro hlt
  rw [Std.OrientedCmp.gt_of_lt hlt] at hle
  cases hle

private theorem scanUp_stops (hv : list[mid]? = some v) (hleft : left ≤ j) (hj : list[j]? = some y)
    (hstop : (cmp v y).isLE = true) (hfuel : j < left + fuel) :
    ∃ left' x, scanUp cmp list mid fuel left = some left' ∧ left ≤ left' ∧ left' ≤ j ∧
      list[left']? = some x ∧ (cmp v x).isLE = true ∧
      ∀ i x, left ≤ i → i < left' → list[i]? = some x → (cmp x v).isLE = true := by
  induction fuel generalizing left with
  | zero => omega
  | succ fuel ih =>
    obtain ⟨hlt, -⟩ := List.getElem?_eq_some_iff.mp hj
    obtain ⟨x, hx⟩ : ∃ x, list[left]? = some x := ⟨_, List.getElem?_eq_getElem (by omega)⟩
    unfold scanUp
    simp only [less_eq cmp hx hv, Option.bind_eq_bind, Option.bind_some]
    by_cases hless : (cmp x v == .lt) = true
    · have hnext : left ≠ j := by
        rintro rfl
        obtain rfl := Option.some.inj (hx.symm.trans hj)
        rw [not_lt_of_isLE hstop] at hless
        cases hless
      obtain ⟨left', x', hscan, hle, hlast, hx', hge, hbelow⟩ :=
        @ih (left + 1) (by omega) (by omega)
      rw [if_pos hless]
      refine ⟨left', x', hscan, by omega, hlast, hx', hge, fun i z hi hlt hz => ?_⟩
      rcases Nat.eq_or_lt_of_le hi with rfl | hlater
      · obtain rfl := Option.some.inj (hx.symm.trans hz)
        exact isLE_of_lt hless
      · exact hbelow i z hlater hlt hz
    · rw [if_neg hless]
      exact ⟨left, x, rfl, Nat.le_refl left, hleft, hx, isLE_of_not_lt hless,
        fun i z hi hlt => absurd hlt (Nat.not_lt.mpr hi)⟩

private theorem scanDown_stops (hv : list[mid]? = some v) (hlt : right < list.length)
    (hright : j ≤ right)
    (hj : list[j]? = some y) (hstop : (cmp y v).isLE = true) (hfuel : right < j + fuel) :
    ∃ right' x, scanDown cmp list mid fuel right = some right' ∧ j ≤ right' ∧ right' ≤ right ∧
      list[right']? = some x ∧ (cmp x v).isLE = true ∧
      ∀ i x, right' < i → i ≤ right → list[i]? = some x → (cmp v x).isLE = true := by
  induction fuel generalizing right with
  | zero => omega
  | succ fuel ih =>
    obtain ⟨x, hx⟩ : ∃ x, list[right]? = some x := ⟨_, List.getElem?_eq_getElem hlt⟩
    unfold scanDown
    simp only [less_eq cmp hv hx, Option.bind_eq_bind, Option.bind_some]
    by_cases hless : (cmp v x == .lt) = true
    · have hnext : right ≠ j := by
        rintro rfl
        obtain rfl := Option.some.inj (hx.symm.trans hj)
        rw [not_lt_of_isLE hstop] at hless
        cases hless
      obtain ⟨before, rfl⟩ := Nat.exists_eq_add_one_of_ne_zero (show right ≠ 0 by omega)
      obtain ⟨right', x', hscan, hle, hlast, hx', hge, habove⟩ :=
        @ih before (by omega) (by omega) (by omega)
      rw [if_pos hless]
      refine ⟨right', x', hscan, hle, by omega, hx', hge, fun i z hi hlt hz => ?_⟩
      rcases Nat.eq_or_lt_of_le hlt with rfl | hearlier
      · obtain rfl := Option.some.inj (hx.symm.trans hz)
        exact isLE_of_lt hless
      · exact habove i z hi (Nat.le_of_lt_succ hearlier) hz
    · rw [if_neg hless]
      exact ⟨right, x, rfl, hright, Nat.le_refl right, hx, isLE_of_not_lt hless,
        fun i z hi hle => absurd hle (Nat.not_le.mpr hi)⟩

end Oriented

/-- Where the walls are: what they went over is on its side of the pivot. The outermost elements
stop the scans. -/
structure Walls (cmp : α → α → Ordering) (v : α) (lo hi : Nat) (list : List α) (left right : Nat) :
    Prop where
  inside : hi < list.length
  lo_lt : lo < left
  left_le : left ≤ hi
  le_right : lo ≤ right
  right_lt : right < hi
  below : ∀ i x, lo ≤ i → i < left → list[i]? = some x → (cmp x v).isLE = true
  above : ∀ i x, right < i → i ≤ hi → list[i]? = some x → (cmp v x).isLE = true

/-- Where they are in the end. -/
structure Parted (cmp : α → α → Ordering) (lo hi : Nat) (list list' : List α) (left right : Nat) :
    Prop where
  within : Within lo hi list list'
  le_right : lo ≤ right
  right_lt : right < left
  left_le : left ≤ hi
  parted : ∀ i j x y, lo ≤ i → i ≤ right → right < j → j ≤ hi →
    list'[i]? = some x → list'[j]? = some y → (cmp x y).isLE = true

variable [Std.TransCmp cmp]

theorem Walls.parted (hwalls : Walls cmp v lo hi list' left right) (hcross : right < left)
    (hwithin : Within lo hi list list') : Parted cmp lo hi list list' left right where
  within := hwithin
  le_right := hwalls.le_right
  right_lt := hcross
  left_le := hwalls.left_le
  parted i j x y hi hle hj hjle hx hy := Std.TransCmp.isLE_trans
    (hwalls.below i x hi (Nat.lt_of_le_of_lt hle hcross) hx) (hwalls.above j y hj hjle hy)

theorem Walls.scan (hwalls : Walls cmp v lo hi list left right) (hv : list[mid]? = some v) :
    ∃ up down x w, scanUp cmp list mid (list.length + 1) left = some up ∧
      scanDown cmp list mid (list.length + 1) right = some down ∧ left ≤ up ∧ down ≤ right ∧
      list[up]? = some x ∧ (cmp v x).isLE = true ∧ list[down]? = some w ∧ (cmp w v).isLE = true ∧
      Walls cmp v lo hi list up down := by
  have hinside := hwalls.inside
  have hleft := hwalls.left_le
  have hright := hwalls.right_lt
  have hlt := hwalls.lo_lt
  have hle := hwalls.le_right
  obtain ⟨y, hy⟩ : ∃ y, list[hi]? = some y := ⟨_, List.getElem?_eq_getElem hinside⟩
  obtain ⟨z, hz⟩ : ∃ z, list[lo]? = some z := ⟨_, List.getElem?_eq_getElem (by omega)⟩
  obtain ⟨up, x, hup, hleftUp, hupHi, hx, hvx, hbelow⟩ := scanUp_stops hv hleft hy
    (hwalls.above hi y hright (Nat.le_refl hi) hy) (show hi < left + (list.length + 1) by omega)
  obtain ⟨down, w, hdown, hloDown, hdownRight, hw, hwv, habove⟩ := scanDown_stops hv
    (show right < list.length by omega) hle hz (hwalls.below lo z (Nat.le_refl lo) hlt hz)
    (show right < lo + (list.length + 1) by omega)
  refine ⟨up, down, x, w, hup, hdown, hleftUp, hdownRight, hx, hvx, hw, hwv, hinside, by omega, hupHi,
    hloDown, by omega, fun i z hi hlt hz => ?_, fun i z hi hlt hz => ?_⟩
  · by_cases hbefore : i < left
    · exact hwalls.below i z hi hbefore hz
    · exact hbelow i z (Nat.le_of_not_lt hbefore) hlt hz
  · by_cases hbehind : right < i
    · exact hwalls.above i z hbehind hlt hz
    · exact habove i z hi (Nat.le_of_not_lt hbehind) hz

private theorem collapse_parted (hwalls : Walls cmp v lo hi list left right)
    (hv : list[mid]? = some v)
    (hfuel : right < left + fuel) (hsome : 0 < fuel) :
    ∃ list' left' right', collapse cmp fuel list mid left right = some (list', left', right') ∧
      Parted cmp lo hi list list' left' right' := by
  induction fuel generalizing list mid left right with
  | zero => omega
  | succ fuel ih =>
    obtain ⟨up, down, x, w, hup, hdown, hleft, hright, hx, hvx, hw, hwv, hscanned⟩ :=
      hwalls.scan hv
    have hlo := hwalls.lo_lt
    have hhi := hwalls.right_lt
    have hinside := hwalls.inside
    unfold collapse
    simp only [hup, hdown, Option.bind_eq_bind, Option.bind_some]
    by_cases hcross : up < down
    · obtain ⟨before, rfl⟩ := Nat.exists_eq_add_one_of_ne_zero (show down ≠ 0 by omega)
      have hwithin := exchange_within hx hw (show lo ≤ up ∧ up ≤ hi by omega)
        (show lo ≤ before + 1 ∧ before + 1 ≤ hi by omega)
      have hat := getElem?_exchange hx hw
      rw [if_pos hcross, exchange_eq hx hw]
      generalize (list.set up w).set (before + 1) x = moved at hwithin hat ⊢
      simp only [Option.bind_some, back]
      have hnext : Walls cmp v lo hi moved (up + 1) before := by
        refine ⟨by rw [hwithin.length_eq]; exact hinside, by omega, by omega, by omega, by omega, ?_, ?_⟩
        · intro i z hi hlt hz
          rw [hat, if_neg (by omega)] at hz
          by_cases hup : i = up
          · rw [if_pos hup] at hz
            obtain rfl := Option.some.inj hz
            exact hwv
          · rw [if_neg hup] at hz
            exact hscanned.below i z hi (by omega) hz
        · intro i z hi hle hz
          rw [hat] at hz
          by_cases hdown : i = before + 1
          · rw [if_pos hdown] at hz
            obtain rfl := Option.some.inj hz
            exact hvx
          · rw [if_neg hdown, if_neg (by omega)] at hz
            exact hscanned.above i z (by omega) hle hz
      have hpivot : moved[if mid = up then before + 1 else if mid = before + 1 then up else mid]? =
          some v := by
        rw [hat]
        by_cases hmidUp : mid = up
        · rw [if_pos hmidUp, if_pos rfl, ← hx, ← hmidUp, hv]
        · rw [if_neg hmidUp]
          by_cases hmidDown : mid = before + 1
          · rw [if_pos hmidDown, if_neg (by omega), if_pos rfl, ← hw, ← hmidDown, hv]
          · rw [if_neg hmidDown, if_neg hmidDown, if_neg hmidUp, hv]
      by_cases hmore : up + 1 ≤ before
      · rw [if_pos hmore]
        obtain ⟨list', left', right', hcall, hparted⟩ := ih hnext hpivot (by omega) (by omega)
        exact ⟨list', left', right', hcall, hwithin.trans hparted.within, hparted.le_right,
          hparted.right_lt, hparted.left_le, hparted.parted⟩
      · rw [if_neg hmore]
        exact ⟨moved, up + 1, before, rfl, hnext.parted (Nat.lt_of_not_le hmore) hwithin⟩
    rw [if_neg hcross]
    by_cases hmeet : up = down
    · obtain ⟨before, rfl⟩ := Nat.exists_eq_add_one_of_ne_zero (show down ≠ 0 by omega)
      subst hmeet
      rw [if_pos rfl]
      have hnext : Walls cmp v lo hi list (before + 2) before := by
        refine ⟨hinside, by omega, by omega, by omega, by omega, fun i z hi hlt hz => ?_,
          fun i z hi hle hz => ?_⟩
        · rcases Nat.eq_or_lt_of_le (Nat.le_of_lt_succ hlt) with rfl | hbefore
          · obtain rfl := Option.some.inj (hw.symm.trans hz)
            exact hwv
          · exact hscanned.below i z hi hbefore hz
        · rcases Nat.eq_or_lt_of_le (Nat.succ_le_of_lt hi) with rfl | hbehind
          · obtain rfl := Option.some.inj (hx.symm.trans hz)
            exact hvx
          · exact hscanned.above i z hbehind hle hz
      exact ⟨list, before + 2, before, rfl, hnext.parted (by omega) (Within.refl _ _ _)⟩
    · rw [if_neg hmeet]
      exact ⟨list, up, down, rfl, hscanned.parted (by omega) (Within.refl _ _ _)⟩

private theorem exchange_ordered (cmp : α → α → Ordering) [Std.OrientedCmp cmp] (hab : a < b)
    (hx : list[a]? = some x) (hy : list[b]? = some y) :
    ∃ list' x' y', (if (cmp y x == .lt) = true then exchange list b a else some list) = some list' ∧
      Within a b list list' ∧ list'[a]? = some x' ∧ list'[b]? = some y' ∧ (cmp x' y').isLE = true ∧
      (y' = y ∨ y' = x) := by
  by_cases hless : (cmp y x == .lt) = true
  · refine ⟨(list.set b x).set a y, y, x, ?_, exchange_within hy hx (by omega) (by omega), ?_, ?_,
      isLE_of_lt hless, .inr rfl⟩
    · rw [if_pos hless, exchange_eq hy hx]
    · rw [getElem?_exchange hy hx, if_pos rfl]
    · rw [getElem?_exchange hy hx, if_neg (by omega), if_pos rfl]
  · exact ⟨list, x, y, if_neg hless, Within.refl a b list, hx, hy, isLE_of_not_lt hless, .inl rfl⟩

private theorem medianOfThree_ordered (cmp : α → α → Ordering) [Std.TransCmp cmp] (hlo : lo < mid)
    (hhi : mid < hi) (hinside : hi < list.length) :
    ∃ list' x v y, medianOfThree cmp list lo mid hi = some list' ∧ Within lo hi list list' ∧
      list'[lo]? = some x ∧ list'[mid]? = some v ∧ list'[hi]? = some y ∧
      (cmp x v).isLE = true ∧ (cmp v y).isLE = true := by
  obtain ⟨x, hx⟩ : ∃ x, list[lo]? = some x := ⟨_, List.getElem?_eq_getElem (by omega)⟩
  obtain ⟨v, hv⟩ : ∃ v, list[mid]? = some v := ⟨_, List.getElem?_eq_getElem (by omega)⟩
  obtain ⟨y, hy⟩ : ∃ y, list[hi]? = some y := ⟨_, List.getElem?_eq_getElem hinside⟩
  obtain ⟨first, x₁, v₁, hfirst, hwithin, hx₁, hv₁, hle, -⟩ := exchange_ordered cmp hlo hx hv
  have hy₁ : first[hi]? = some y := (hwithin.same hi (.inr hhi)).trans hy
  have hmono := hwithin.mono (Nat.le_refl lo) (Nat.le_of_lt hhi)
  have hcall : medianOfThree cmp list lo mid hi =
      if (cmp y v₁ == .lt) = true then (exchange first mid hi).bind fun list =>
        (less cmp list mid lo).bind fun less => if less then exchange list mid lo else some list
      else some first := by
    unfold medianOfThree
    simp only [less_eq cmp hv hx, Option.bind_eq_bind, Option.bind_some]
    by_cases hless : (cmp v x == .lt) = true
    · rw [if_pos hless] at hfirst ⊢
      rw [hfirst, Option.bind_some, less_eq cmp hy₁ hv₁]
      rfl
    · rw [if_neg hless] at hfirst ⊢
      obtain rfl := Option.some.inj hfirst
      rw [less_eq cmp hy₁ hv₁]
      rfl
  rw [hcall]
  by_cases hless : (cmp y v₁ == .lt) = true
  · -- the last one comes to the middle, and is less than what was there
    have hat := getElem?_exchange hv₁ hy₁
    have hswap := exchange_within hv₁ hy₁ (show lo ≤ mid ∧ mid ≤ hi by omega)
      (show lo ≤ hi ∧ hi ≤ hi by omega)
    rw [if_pos hless, exchange_eq hv₁ hy₁]
    generalize (first.set mid y).set hi v₁ = moved at hat hswap ⊢
    have hlast : moved[hi]? = some v₁ := by rw [hat, if_pos rfl]
    have hmiddle : moved[mid]? = some y := by rw [hat, if_neg (by omega), if_pos rfl]
    have hstart : moved[lo]? = some x₁ := by rw [hat, if_neg (by omega), if_neg (by omega), hx₁]
    obtain ⟨last, x₂, v₂, hsecond, hagain, hx₂, hv₂, hle₂, hwhich⟩ :=
      exchange_ordered cmp hlo hstart hmiddle
    refine ⟨last, x₂, v₂, v₁, ?_, (hmono.trans hswap).trans
      (hagain.mono (Nat.le_refl lo) (Nat.le_of_lt hhi)), hx₂, hv₂,
      (hagain.same hi (.inr hhi)).trans hlast, hle₂, ?_⟩
    · rw [Option.bind_some, less_eq cmp hmiddle hstart]
      exact hsecond
    · rcases hwhich with rfl | rfl
      · exact isLE_of_lt hless
      · exact hle
  · rw [if_neg hless]
    exact ⟨first, x₁, v₁, y, rfl, hmono, hx₁, hv₁, hy₁, hle, isLE_of_not_lt hless⟩

theorem partition_parted (cmp : α → α → Ordering) [Std.TransCmp cmp] (hmany : lo + 2 ≤ hi)
    (hinside : hi < list.length) :
    ∃ list' left right, partition cmp list lo hi = some (list', left, right) ∧
      Parted cmp lo hi list list' left right := by
  obtain ⟨before, rfl⟩ := Nat.exists_eq_add_one_of_ne_zero (show hi ≠ 0 by omega)
  obtain ⟨ordered, x, v, y, hmedian, hwithin, hx, hv, hy, hbelow, habove⟩ :=
    medianOfThree_ordered cmp (show lo < lo + (before + 1 - lo) / 2 by omega)
      (show lo + (before + 1 - lo) / 2 < before + 1 by omega) hinside
  have hwalls : Walls cmp v lo (before + 1) ordered (lo + 1) before := by
    refine ⟨by rw [hwithin.length_eq]; exact hinside, by omega, by omega, by omega, by omega,
      fun i z hle hlt hz => ?_, fun i z hlt hle hz => ?_⟩
    · obtain rfl : i = lo := by omega
      obtain rfl := Option.some.inj (hx.symm.trans hz)
      exact hbelow
    · obtain rfl : i = before + 1 := by omega
      obtain rfl := Option.some.inj (hy.symm.trans hz)
      exact habove
  obtain ⟨list', left, right, hcollapse, hparted⟩ := collapse_parted hwalls hv
    (show before < lo + 1 + (ordered.length + 1) by
      have := hwalls.inside
      omega) (Nat.succ_pos _)
  refine ⟨list', left, right, ?_, hwithin.trans hparted.within, hparted.le_right, hparted.right_lt,
    hparted.left_le, hparted.parted⟩
  unfold partition
  simp only [hmedian, Option.bind_eq_bind, Option.bind_some, back]
  exact hcollapse

end Libsax.Sort
