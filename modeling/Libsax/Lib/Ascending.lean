import Mathlib.Data.List.Pairwise
import Libsax.Lib.Weave

/-! Lists of keys with values in ascending order of the keys, and what it is to insert
a key into one or to remove it. -/
namespace Libsax.Lib

variable {κ υ : Type} {cmp : κ → κ → Ordering}

def Ascending (cmp : κ → κ → Ordering) (items : List (κ × υ)) : Prop :=
  items.Pairwise fun left right => cmp left.1 right.1 = .lt

def Below (cmp : κ → κ → Ordering) (key : κ) (items : List (κ × υ)) : Prop :=
  ∀ item ∈ items, cmp item.1 key = .lt

def Above (cmp : κ → κ → Ordering) (key : κ) (items : List (κ × υ)) : Prop :=
  ∀ item ∈ items, cmp key item.1 = .lt

section

variable {front back items : List (κ × υ)} {key other : κ} {item : κ × υ}

theorem ascending_nil : Ascending cmp ([] : List (κ × υ)) := List.Pairwise.nil

theorem Ascending.append_iff : Ascending cmp (front ++ back) ↔
    Ascending cmp front ∧ Ascending cmp back ∧
      ∀ left ∈ front, ∀ right ∈ back, cmp left.1 right.1 = .lt := List.pairwise_append

theorem Ascending.middle_iff : Ascending cmp (front ++ item :: back) ↔
    Ascending cmp front ∧ Below cmp item.1 front ∧ Above cmp item.1 back ∧ Ascending cmp back ∧
      ∀ left ∈ front, ∀ right ∈ back, cmp left.1 right.1 = .lt := by
  unfold Ascending Below Above
  rw [List.pairwise_append, List.pairwise_cons]
  simp only [List.mem_cons, forall_eq_or_imp]
  exact ⟨fun ⟨hfront, ⟨habove, hback⟩, hcross⟩ =>
      ⟨hfront, fun left hleft => (hcross left hleft).1, habove, hback,
        fun left hleft => (hcross left hleft).2⟩,
    fun ⟨hfront, hbelow, habove, hback, hcross⟩ =>
      ⟨hfront, ⟨habove, hback⟩, fun left hleft => ⟨hbelow left hleft, hcross left hleft⟩⟩⟩

theorem Below.append_iff :
    Below cmp key (front ++ back) ↔ Below cmp key front ∧ Below cmp key back := by
  unfold Below
  exact List.forall_mem_append

theorem Above.append_iff :
    Above cmp key (front ++ back) ↔ Above cmp key front ∧ Above cmp key back := by
  unfold Above
  exact List.forall_mem_append

@[simp] theorem Below.cons_iff :
    Below cmp key (item :: items) ↔ cmp item.1 key = .lt ∧ Below cmp key items := by
  unfold Below
  exact List.forall_mem_cons

@[simp] theorem Above.cons_iff :
    Above cmp key (item :: items) ↔ cmp key item.1 = .lt ∧ Above cmp key items := by
  unfold Above
  exact List.forall_mem_cons

theorem below_nil : Below cmp key ([] : List (κ × υ)) := List.forall_mem_nil _

theorem above_nil : Above cmp key ([] : List (κ × υ)) := List.forall_mem_nil _

variable [Std.TransCmp cmp]

theorem Ascending.unique (hitems : Ascending cmp items) {left right : κ × υ} (hleft : left ∈ items)
    (hright : right ∈ items) (hsame : left.1 = right.1) : left = right := by
  obtain ⟨front, back, rfl⟩ := List.append_of_mem hleft
  obtain ⟨-, hbelow, habove, -⟩ := Ascending.middle_iff.mp hitems
  have hself : ∀ key, cmp key key ≠ .lt := fun key hlt => by
    rw [@Std.ReflCmp.compare_self κ cmp _ key] at hlt
    cases hlt
  rcases List.mem_append.mp hright with hfront | hrest
  · exact absurd (hsame ▸ hbelow right hfront) (hself right.1)
  · rcases List.mem_cons.mp hrest with rfl | hback
    · rfl
    · exact absurd (hsame ▸ habove right hback) (hself right.1)

theorem Below.trans (hbelow : Below cmp key items) (hlt : cmp key other = .lt) :
    Below cmp other items := fun item hitem => Std.TransCmp.lt_trans (hbelow item hitem) hlt

theorem Above.trans (habove : Above cmp key items) (hlt : cmp other key = .lt) :
    Above cmp other items := fun item hitem => Std.TransCmp.lt_trans hlt (habove item hitem)

theorem Below.ne (hbelow : Below cmp key items) (hitem : item ∈ items) : item.1 ≠ key := by
  intro hsame
  have hlt := hbelow item hitem
  rw [hsame, @Std.ReflCmp.compare_self κ cmp _ key] at hlt
  cases hlt

theorem Above.ne (habove : Above cmp key items) (hitem : item ∈ items) : item.1 ≠ key := by
  intro hsame
  have hlt := habove item hitem
  rw [hsame, @Std.ReflCmp.compare_self κ cmp _ key] at hlt
  cases hlt

end

section Woven

variable [Std.TransCmp cmp] {parts : List (List (κ × υ))} {items : List (κ × υ)} {key : κ}

theorem Below.weave (hlength : parts.length = items.length)
    (hascending : Ascending cmp (weave parts items)) (hbelow : Below cmp key items) :
    Below cmp key (weave parts items) := by
  induction parts generalizing items with
  | nil =>
    rw [weave_nil]
    exact hbelow
  | cons part parts ih =>
    obtain ⟨item, items, rfl⟩ := List.exists_cons_of_length_eq_add_one hlength.symm
    obtain ⟨hitem, hrest⟩ := Below.cons_iff.mp hbelow
    rw [weave_cons, trail_cons] at hascending ⊢
    obtain ⟨-, hpart, -, htail, -⟩ := Ascending.middle_iff.mp hascending
    exact Below.append_iff.mpr ⟨hpart.trans hitem,
      Below.cons_iff.mpr ⟨hitem, ih (Nat.succ.inj hlength) htail hrest⟩⟩

theorem Above.trail (hlength : parts.length = items.length)
    (hascending : Ascending cmp (trail parts items)) (habove : Above cmp key items) :
    Above cmp key (trail parts items) := by
  cases items with
  | nil =>
    rw [List.eq_nil_of_length_eq_zero hlength]
    exact above_nil
  | cons item items =>
    rw [trail_cons] at hascending ⊢
    obtain ⟨hitem, -⟩ := Above.cons_iff.mp habove
    obtain ⟨-, -, hrest, -, -⟩ := (@Ascending.middle_iff _ _ _ [] _ _).mp hascending
    exact Above.cons_iff.mpr ⟨hitem, hrest.trans hitem⟩

end Woven

/-- A key that was not there is put where it belongs. -/
def Inserted (cmp : κ → κ → Ordering) (item : κ × υ) (old new : List (κ × υ)) : Prop :=
  ∃ front back, old = front ++ back ∧ new = front ++ item :: back ∧
    Below cmp item.1 front ∧ Above cmp item.1 back

section Inserted

variable {item : κ × υ} {old new front back : List (κ × υ)}

theorem Inserted.length (hinserted : Inserted cmp item old new) :
    new.length = old.length + 1 := by
  obtain ⟨front, back, rfl, rfl, -⟩ := hinserted
  rw [List.length_append, List.length_append, List.length_cons, Nat.add_assoc]

theorem Inserted.perm (hinserted : Inserted cmp item old new) : new.Perm (item :: old) := by
  obtain ⟨front, back, rfl, rfl, -⟩ := hinserted
  exact List.perm_middle

theorem Inserted.within (hinserted : Inserted cmp item old new)
    (hfront : Below cmp item.1 front) (hback : Above cmp item.1 back) :
    Inserted cmp item (front ++ old ++ back) (front ++ new ++ back) := by
  obtain ⟨left, right, rfl, rfl, hleft, hright⟩ := hinserted
  refine ⟨front ++ left, right ++ back, by simp, by simp, ?_, ?_⟩
  · exact Below.append_iff.mpr ⟨hfront, hleft⟩
  · exact Above.append_iff.mpr ⟨hright, hback⟩

theorem inserted_between (hfront : Below cmp item.1 front) (hback : Above cmp item.1 back) :
    Inserted cmp item (front ++ back) (front ++ item :: back) :=
  ⟨front, back, rfl, rfl, hfront, hback⟩

theorem Inserted.ascending (hinserted : Inserted cmp item old new) (hold : Ascending cmp old) :
    Ascending cmp new := by
  obtain ⟨front, back, rfl, rfl, hbelow, habove⟩ := hinserted
  obtain ⟨hfront, hback, hcross⟩ := Ascending.append_iff.mp hold
  exact Ascending.middle_iff.mpr ⟨hfront, hbelow, habove, hback, hcross⟩

theorem Inserted.absent [Std.TransCmp cmp] (hinserted : Inserted cmp item old new) {other : κ × υ}
    (hother : other ∈ old) : other.1 ≠ item.1 := by
  obtain ⟨front, back, rfl, rfl, hbelow, habove⟩ := hinserted
  exact (List.mem_append.mp hother).elim hbelow.ne habove.ne

end Inserted

def without (cmp : κ → κ → Ordering) (key : κ) (items : List (κ × υ)) : List (κ × υ) :=
  items.filter fun item => cmp item.1 key ≠ .eq

section Without

variable {key : κ} {item : κ × υ} {items front mid back : List (κ × υ)}

@[simp] private theorem without_append : without cmp key (front ++ back) =
    without cmp key front ++ without cmp key back := List.filter_append ..

@[simp] theorem mem_without :
    item ∈ without cmp key items ↔ item ∈ items ∧ cmp item.1 key ≠ .eq := by
  unfold without
  rw [List.mem_filter, decide_eq_true_eq]

theorem Ascending.without (hitems : Ascending cmp items) :
    Ascending cmp (without cmp key items) := hitems.sublist List.filter_sublist

theorem without_eq_self (habsent : ∀ item ∈ items, cmp item.1 key ≠ .eq) :
    without cmp key items = items :=
  List.filter_eq_self.mpr fun item hitem => decide_eq_true (habsent item hitem)

theorem Below.without (hbelow : Below cmp key items) : without cmp key items = items := by
  refine without_eq_self fun item hitem => ?_
  rw [hbelow item hitem]
  decide

variable [Std.OrientedCmp cmp]

theorem Above.without (habove : Above cmp key items) : without cmp key items = items := by
  refine without_eq_self fun item hitem => ?_
  rw [Std.OrientedCmp.gt_of_lt (habove item hitem)]
  decide

theorem without_within (hfront : Below cmp key front) (hback : Above cmp key back) :
    without cmp key (front ++ mid ++ back) = front ++ without cmp key mid ++ back := by
  rw [without_append, without_append, hfront.without, hback.without]

theorem without_middle (hfront : Below cmp item.1 front) (hback : Above cmp item.1 back) :
    without cmp item.1 (front ++ item :: back) = front ++ back := by
  have hself : without cmp item.1 [item] = [] := by
    refine List.filter_eq_nil_iff.mpr fun other hother => ?_
    rw [List.mem_singleton.mp hother, @Std.ReflCmp.compare_self κ cmp _ item.1]
    decide
  have hwithin := @without_within _ _ _ _ _ [item] _ _ hfront hback
  rwa [hself, List.append_nil, List.append_assoc, List.singleton_append] at hwithin

theorem Ascending.length_without (hitems : Ascending cmp items) (hitem : item ∈ items) :
    (Lib.without cmp item.1 items).length + 1 = items.length := by
  obtain ⟨front, back, rfl⟩ := List.append_of_mem hitem
  obtain ⟨-, hfront, hback, -⟩ := Ascending.middle_iff.mp hitems
  rw [without_middle hfront hback, List.length_append, List.length_append, List.length_cons,
    Nat.add_assoc]

end Without

end Libsax.Lib
