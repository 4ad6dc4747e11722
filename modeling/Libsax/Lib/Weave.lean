import Mathlib.Data.List.Basic

/-! Lists woven together: parts with single elements between them. A search tree lists
its contents so, a part for each child and an element for each separator. -/
namespace Libsax.Lib

variable {α : Type}

/-- The parts with the elements between them. Elements that are left over follow. -/
def weave : List (List α) → List α → List α
  | [], items => items
  | part :: parts, [] => part ++ parts.flatten
  | part :: parts, item :: items => part ++ item :: weave parts items

/-- What follows a part: the next element with the parts behind it. -/
def trail (parts : List (List α)) : List α → List α
  | [] => parts.flatten
  | item :: items => item :: weave parts items

@[simp] theorem weave_nil (items : List α) : weave [] items = items := by
  cases items <;> rfl

@[simp] theorem weave_cons (part : List α) (parts : List (List α)) (items : List α) :
    weave (part :: parts) items = part ++ trail parts items := by
  cases items <;> rfl

@[simp] theorem trail_nil : trail ([] : List (List α)) [] = [] := rfl

@[simp] theorem trail_cons (parts : List (List α)) (item : α) (items : List α) :
    trail parts (item :: items) = item :: weave parts items := rfl

theorem weave_append {left : List (List α)} {front : List α} (hlength : left.length = front.length)
    (parts : List (List α)) (items : List α) :
    weave (left ++ parts) (front ++ items) = weave left front ++ weave parts items := by
  induction left generalizing front with
  | nil =>
    rw [List.eq_nil_of_length_eq_zero hlength.symm]
    simp
  | cons part left ih =>
    obtain ⟨item, front, rfl⟩ := List.exists_cons_of_length_eq_add_one hlength.symm
    have hrest := ih (Nat.succ.inj hlength)
    simp only [List.cons_append, weave_cons, trail_cons, hrest, List.append_assoc]

@[simp] theorem weave_one (part : List α) : weave [part] [] = part := List.append_nil part

@[simp] theorem weave_two (first second : List α) (item : α) :
    weave [first, second] [item] = first ++ item :: second := by
  rw [weave_cons, trail_cons, weave_one]

@[simp] theorem weave_three (first second third : List α) (item next : α) :
    weave [first, second, third] [item, next] = first ++ item :: (second ++ next :: third) := by
  rw [weave_cons, trail_cons, weave_two]

theorem weave_window {left mid right : List (List α)} {front between back : List α}
    (hleft : left.length = front.length) (hmid : mid.length = between.length + 1) :
    weave (left ++ mid ++ right) (front ++ between ++ back) =
      weave left front ++ weave mid between ++ trail right back := by
  obtain ⟨parts, part, rfl⟩ : ∃ parts part, mid = parts ++ [part] :=
    ⟨mid.dropLast, mid.getLast (List.ne_nil_of_length_eq_add_one hmid),
      (List.dropLast_append_getLast _).symm⟩
  have hparts : parts.length = between.length := by
    rw [List.length_append] at hmid
    exact Nat.succ.inj hmid
  have hright : weave (parts ++ [part] ++ right) (between ++ back) =
      weave parts between ++ part ++ trail right back := by
    rw [List.append_assoc, weave_append hparts, List.singleton_append, weave_cons,
      List.append_assoc]
  have hend : weave (parts ++ [part]) between = weave parts between ++ part := by
    have happend := weave_append hparts [part] []
    rwa [List.append_nil, weave_one] at happend
  rw [List.append_assoc, List.append_assoc front, weave_append hleft, hright, hend]
  simp only [List.append_assoc]

theorem weave_middle {left right : List (List α)} {front back : List α} {item : α}
    (hlength : left.length = front.length + 1) :
    weave (left ++ right) (front ++ item :: back) =
      weave left front ++ item :: weave right back := by
  have hwindow := @weave_window _ [] left right [] front (item :: back) rfl hlength
  rw [List.nil_append, List.nil_append, weave_nil, List.nil_append, trail_cons] at hwindow
  exact hwindow

theorem weave_join {left right : List (List α)} {front back : List α} {item : α}
    (hlength : left.length = front.length + 1 ∨ left = [] ∧ right = []) :
    weave (left ++ right) (front ++ item :: back) =
      weave left front ++ item :: weave right back := by
  rcases hlength with hlength | ⟨rfl, rfl⟩
  · exact weave_middle hlength
  · rw [List.append_nil, weave_nil, weave_nil, weave_nil]

theorem mem_weave_of_mem_items {parts : List (List α)} {items : List α} {item : α}
    (hitem : item ∈ items) : item ∈ weave parts items := by
  induction parts generalizing items with
  | nil => rwa [weave_nil]
  | cons part parts ih =>
    cases items with
    | nil => cases hitem
    | cons first items =>
      rw [weave_cons, trail_cons]
      refine List.mem_append_right _ ?_
      rcases List.mem_cons.mp hitem with rfl | hrest
      · exact List.mem_cons_self
      · exact List.mem_cons_of_mem _ (ih hrest)

theorem mem_weave_of_mem_part {parts : List (List α)} {part items : List α} {item : α}
    (hpart : part ∈ parts) (hitem : item ∈ part) : item ∈ weave parts items := by
  induction parts generalizing items with
  | nil => cases hpart
  | cons first parts ih =>
    rw [weave_cons]
    rcases List.mem_cons.mp hpart with rfl | hrest
    · exact List.mem_append_left _ hitem
    · refine List.mem_append_right _ ?_
      cases items with
      | nil => exact List.mem_flatten.mpr ⟨part, hrest, hitem⟩
      | cons next items => exact List.mem_cons_of_mem _ (ih hrest)

theorem items_sublist_weave (parts : List (List α)) (items : List α) :
    items.Sublist (weave parts items) := by
  induction parts generalizing items with
  | nil =>
    rw [weave_nil]
  | cons part parts ih =>
    cases items with
    | nil => exact List.nil_sublist _
    | cons item items =>
      rw [weave_cons, trail_cons]
      exact (List.Sublist.cons_cons item (ih items)).trans (List.sublist_append_right _ _)

end Libsax.Lib
