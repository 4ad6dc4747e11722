import Mathlib.Data.List.Induction
import Mathlib.Tactic.Tauto
import Libsax.Lib.Ring

/-! Doubly linked lists that end in null pointers at both ends. -/
namespace Libsax.Lib.Links

variable {α : Type} {links other : Links α} {before after before' after' : Option α}
  {cells left right : List α} {cell : α}

/-- The cells are linked both ways, behind `before` and in front of `after`. -/
def Line (links : Links α) : Option α → List α → Option α → Prop
  | _, [], _ => True
  | before, cell :: rest, after =>
    links.prev cell = before ∧ links.next cell = rest.head?.or after ∧
      Line links (some cell) rest after

@[simp] theorem line_cons {rest : List α} : links.Line before (cell :: rest) after ↔
    links.prev cell = before ∧ links.next cell = rest.head?.or after ∧
      links.Line (some cell) rest after := Iff.rfl

@[simp] theorem line_append : links.Line before (left ++ right) after ↔
    links.Line before left (right.head?.or after) ∧
      links.Line (left.getLast?.or before) right after := by
  induction left generalizing before with
  | nil => simp [Line]
  | cons cell rest ih =>
    have hlast : (cell :: rest).getLast?.or before = rest.getLast?.or (some cell) := by
      cases hrest : rest.getLast? <;> simp [List.getLast?_cons, hrest]
    rw [List.cons_append, line_cons, line_cons, ih, hlast, List.head?_append, Option.or_assoc]
    tauto

theorem line_split : links.Line none (left ++ cell :: right) none ↔
    links.Line none left (some cell) ∧ links.prev cell = left.getLast? ∧
      links.next cell = right.head? ∧ links.Line (some cell) right none := by
  rw [line_append, line_cons]
  simp

theorem Line.rehang [DecidableEq α] (hline : links.Line before cells after) (hnodup : cells.Nodup)
    (hnext : ∀ cell ∈ cells,
      other.next cell = if cells.getLast? = some cell then after' else links.next cell)
    (hprev : ∀ cell ∈ cells,
      other.prev cell = if cells.head? = some cell then before' else links.prev cell) :
    other.Line before' cells after' := by
  induction cells generalizing before before' with
  | nil => trivial
  | cons cell rest ih =>
    obtain ⟨-, hcell, hrest⟩ := line_cons.mp hline
    have hnotMem : cell ∉ rest := (List.nodup_cons.mp hnodup).1
    rw [line_cons]
    refine ⟨by simp [hprev cell], ?_, ?_⟩
    · rw [hnext cell (by simp)]
      cases rest with
      | nil => simp
      | cons second rest =>
        have hne : (cell :: second :: rest).getLast? ≠ some cell := by
          rw [List.getLast?_cons_cons]
          intro hlast
          exact hnotMem (List.mem_of_getLast? hlast)
        rw [if_neg hne, hcell]
        rfl
    · apply ih hrest (List.nodup_cons.mp hnodup).2
      · intro entry hentry
        rw [hnext entry (by simp [hentry])]
        cases rest with
        | nil => simp at hentry
        | cons second rest => rw [List.getLast?_cons_cons]
      · intro entry hentry
        have hne : cell ≠ entry := fun hsame => hnotMem (hsame ▸ hentry)
        rw [hprev entry (by simp [hentry]), List.head?_cons, if_neg (by simpa using hne)]
        cases rest with
        | nil => simp at hentry
        | cons second rest =>
          by_cases hsecond : second = entry
          · rw [List.head?_cons, hsecond, if_pos rfl, ← hsecond]
            exact hrest.1
          · rw [List.head?_cons, if_neg (by simpa using hsecond)]

theorem Line.prev_first (hline : links.Line before cells after) (hfirst : cells.head? = some cell) :
    links.prev cell = before := by
  cases cells with
  | nil => simp at hfirst
  | cons first rest =>
    obtain rfl : first = cell := by simpa using hfirst
    exact hline.1

theorem Line.next_last (hline : links.Line before cells after)
    (hlast : cells.getLast? = some cell) : links.next cell = after := by
  obtain ⟨front, rfl⟩ := List.getLast?_eq_some_iff.mp hlast
  have hend := (line_append.mp hline).2
  rw [hend.2.1]
  rfl

theorem Line.join [DecidableEq α] (hleft : links.Line none left after)
    (hright : links.Line before right none) (hnodup : (left ++ right).Nodup)
    (hnext : ∀ cell ∈ left ++ right,
      other.next cell = if left.getLast? = some cell then right.head? else links.next cell)
    (hprev : ∀ cell ∈ left ++ right,
      other.prev cell = if right.head? = some cell then left.getLast? else links.prev cell) :
    other.Line none (left ++ right) none := by
  obtain ⟨hnodupLeft, hnodupRight, hapart⟩ := List.nodup_append'.mp hnodup
  rw [line_append, Option.or_none, Option.or_none]
  constructor
  · apply hleft.rehang hnodupLeft
    · intro cell hcell
      exact hnext cell (List.mem_append_left _ hcell)
    · intro cell hcell
      have hne : right.head? ≠ some cell := fun hfirst =>
        hapart hcell (List.mem_of_head? hfirst)
      rw [hprev cell (List.mem_append_left _ hcell), if_neg hne]
      split_ifs with hfirst
      · exact hleft.prev_first hfirst
      · rfl
  · apply hright.rehang hnodupRight
    · intro cell hcell
      have hne : left.getLast? ≠ some cell := fun hlast =>
        hapart (List.mem_of_getLast? hlast) hcell
      rw [hnext cell (List.mem_append_right _ hcell), if_neg hne]
      split_ifs with hlast
      · exact hright.next_last hlast
      · rfl
    · intro cell hcell
      exact hprev cell (List.mem_append_right _ hcell)

theorem Line.congr (hline : links.Line before cells after)
    (hnext : ∀ cell ∈ cells, other.next cell = links.next cell)
    (hprev : ∀ cell ∈ cells, other.prev cell = links.prev cell) :
    other.Line before cells after := by
  induction cells generalizing before with
  | nil => trivial
  | cons cell rest ih =>
    obtain ⟨hbefore, hcell, hrest⟩ := line_cons.mp hline
    refine ⟨(hprev cell (by simp)).trans hbefore, (hnext cell (by simp)).trans hcell, ?_⟩
    exact ih hrest (fun entry hentry => hnext entry (by simp [hentry]))
      fun entry hentry => hprev entry (by simp [hentry])

/-- The cells from one on, as far as a link leads. -/
def follow (link : α → Option α) : Nat → Option α → Option (List α)
  | _, none => some []
  | 0, some _ => none
  | fuel + 1, some cell => (follow link fuel (link cell)).map (cell :: ·)

@[simp] private theorem follow_none (link : α → Option α) (fuel : Nat) :
    follow link fuel none = some [] := by
  cases fuel <;> rfl

theorem Line.follow_next (hline : links.Line before cells none) {fuel : Nat}
    (hfuel : cells.length ≤ fuel) : follow links.next fuel cells.head? = some cells := by
  induction cells generalizing before fuel with
  | nil => simp
  | cons cell rest ih =>
    obtain ⟨-, hcell, hrest⟩ := line_cons.mp hline
    obtain ⟨fuel, rfl⟩ : ∃ more, fuel = more + 1 := ⟨fuel - 1, by simp at hfuel; omega⟩
    rw [List.head?_cons, follow, hcell, Option.or_none, ih hrest (by simpa using hfuel)]
    rfl

theorem Line.follow_prev (hline : links.Line none cells after) {fuel : Nat}
    (hfuel : cells.length ≤ fuel) :
    follow links.prev fuel cells.getLast? = some cells.reverse := by
  induction cells using List.reverseRecOn generalizing after fuel with
  | nil => simp
  | append_singleton front cell ih =>
    obtain ⟨hfront, hcell⟩ := line_append.mp hline
    obtain ⟨fuel, rfl⟩ : ∃ more, fuel = more + 1 := ⟨fuel - 1, by simp at hfuel; omega⟩
    rw [List.getLast?_concat, follow, hcell.1, Option.or_none, ih hfront (by simpa using hfuel)]
    simp

variable [DecidableEq α]

def patchNext (links : Links α) (cell value : Option α) : Links α :=
  { links with next := fun other => if cell = some other then value else links.next other }

def patchPrev (links : Links α) (cell value : Option α) : Links α :=
  { links with prev := fun other => if cell = some other then value else links.prev other }

@[simp] theorem patchNext_next (links : Links α) (cell value : Option α) (other : α) :
    (links.patchNext cell value).next other =
      if cell = some other then value else links.next other := rfl

@[simp] theorem patchNext_prev (links : Links α) (cell value : Option α) :
    (links.patchNext cell value).prev = links.prev := rfl

@[simp] theorem patchPrev_prev (links : Links α) (cell value : Option α) (other : α) :
    (links.patchPrev cell value).prev other =
      if cell = some other then value else links.prev other := rfl

@[simp] theorem patchPrev_next (links : Links α) (cell value : Option α) :
    (links.patchPrev cell value).next = links.next := rfl

@[simp] theorem patchNext_none (links : Links α) (value : Option α) :
    links.patchNext none value = links := by
  simp [patchNext]

@[simp] theorem patchNext_some (links : Links α) (cell : α) (value : Option α) :
    links.patchNext (some cell) value = links.setNext cell value := by
  unfold patchNext setNext
  congr 1
  funext other
  simp [eq_comm]

@[simp] private theorem patchPrev_none (links : Links α) (value : Option α) :
    links.patchPrev none value = links := by
  simp [patchPrev]

@[simp] theorem patchPrev_some (links : Links α) (cell : α) (value : Option α) :
    links.patchPrev (some cell) value = links.setPrev cell value := by
  unfold patchPrev setPrev
  congr 1
  funext other
  simp [eq_comm]

end Libsax.Lib.Links
