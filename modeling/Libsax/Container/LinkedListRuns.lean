import Libsax.Container.LinkedList

/-! The list stands for its sequence after every call, and so after every run. -/
namespace Libsax.Container.LinkedList

open Libsax.Lib

variable {α : Type} {list al : LinkedList α} {links : Links α} {cells more left right : List α}
  {node place : α}

theorem Holds.nil (links : Links α) : Holds reset links [] := ⟨rfl, rfl, trivial, List.nodup_nil⟩

theorem Holds.head_eq_none_iff (hholds : list.Holds links cells) : list.head = none ↔ cells = [] := by
  rw [hholds.head, List.head?_eq_none_iff]

theorem Holds.tail_eq_none_iff (hholds : list.Holds links cells) : list.tail = none ↔ cells = [] := by
  rw [hholds.tail, List.getLast?_eq_none_iff]

theorem Holds.head_or (hholds : list.Holds links cells) (hsome : list.tail = some node)
    (other : Option α) : list.head.or other = list.head := by
  cases hhead : list.head with
  | none =>
    rw [hholds.tail_eq_none_iff.mpr (hholds.head_eq_none_iff.mp hhead)] at hsome
    cases hsome
  | some head => rfl

theorem Holds.empty_iff (hholds : list.Holds links cells) : list.empty = true ↔ cells = [] := by
  rw [← hholds.head_eq_none_iff]
  have htail := hholds.tail_eq_none_iff.trans hholds.head_eq_none_iff.symm
  unfold empty
  cases hhead : list.head <;> cases hlast : list.tail <;> simp_all

theorem Holds.head_eq_tail_iff (hholds : list.Holds links (left ++ [node])) :
    list.head = list.tail ↔ left = [] := by
  rw [hholds.head, hholds.tail, List.getLast?_concat]
  constructor
  · intro hsame
    cases left with
    | nil => rfl
    | cons first rest =>
      obtain rfl : first = node := by simpa using hsame
      exact absurd hholds.nodup (by simp)
  · rintro rfl
    rfl

variable [DecidableEq α]

theorem Holds.insert {list' : LinkedList α} {links' : Links α}
    (hholds : list.Holds links (left ++ right)) (hnew : node ∉ left ++ right)
    (hhead : list'.head = if left = [] then some node else list.head)
    (htail : list'.tail = if right = [] then some node else list.tail)
    (hnode : links'.next node = right.head? ∧ links'.prev node = left.getLast?)
    (hnext : ∀ cell ≠ node,
      links'.next cell = if left.getLast? = some cell then some node else links.next cell)
    (hprev : ∀ cell ≠ node,
      links'.prev cell = if right.head? = some cell then some node else links.prev cell) :
    list'.Holds links' (left ++ node :: right) := by
  have hnodup : (left ++ node :: right).Nodup :=
    List.nodup_middle.mpr (List.nodup_cons.mpr ⟨hnew, hholds.nodup⟩)
  obtain ⟨hnodupLeft, hnodupRight, hapart⟩ := List.nodup_append'.mp hholds.nodup
  obtain ⟨hleft, hright⟩ := Links.line_append.mp hholds.line
  have hneLeft : ∀ cell ∈ left, cell ≠ node := fun cell hcell =>
    ne_of_mem_of_not_mem (List.mem_append_left _ hcell) hnew
  have hneRight : ∀ cell ∈ right, cell ≠ node := fun cell hcell =>
    ne_of_mem_of_not_mem (List.mem_append_right _ hcell) hnew
  refine ⟨?_, ?_, ?_, hnodup⟩
  · rw [hhead, hholds.head]
    cases left <;> simp
  · rw [htail, hholds.tail]
    cases right using List.reverseRecOn with
    | nil => simp
    | append_singleton front last =>
      rw [← List.cons_append, ← List.append_assoc, ← List.append_assoc, List.getLast?_concat,
        List.getLast?_concat, if_neg (by simp)]
  · rw [Links.line_split]
    refine ⟨?_, hnode.2, hnode.1, ?_⟩
    · apply hleft.rehang hnodupLeft
      · intro cell hcell
        exact hnext cell (hneLeft cell hcell)
      · intro cell hcell
        have hne : right.head? ≠ some cell := fun hfirst =>
          hapart hcell (List.mem_of_head? hfirst)
        rw [hprev cell (hneLeft cell hcell), if_neg hne]
        split_ifs with hfirst
        · exact hleft.prev_first hfirst
        · rfl
    · apply hright.rehang hnodupRight
      · intro cell hcell
        have hne : left.getLast? ≠ some cell := fun hlast =>
          hapart (List.mem_of_getLast? hlast) hcell
        rw [hnext cell (hneRight cell hcell), if_neg hne]
        split_ifs with hlast
        · exact hright.next_last hlast
        · rfl
      · intro cell hcell
        exact hprev cell (hneRight cell hcell)

theorem Holds.pushBack (hholds : list.Holds links cells) (hnew : node ∉ cells) :
    (list.pushBack links (some node)).1.Holds (list.pushBack links (some node)).2
      (cells ++ [node]) := by
  rw [← List.append_nil cells] at hholds hnew
  have htail := hholds.tail_eq_none_iff
  rw [List.append_nil] at htail
  unfold LinkedList.pushBack
  cases hlast : list.tail with
  | none =>
    have hnil := htail.mp hlast
    apply hholds.insert hnew <;> simp_all
  | some tail =>
    have hne : cells ≠ [] := fun hnil => by simp [htail.mpr hnil] at hlast
    have hmem : tail ≠ node := by
      rintro rfl
      exact hnew (List.mem_of_getLast? (hholds.tail.symm.trans hlast))
    have hgetLast : cells.getLast? = some tail := by
      rw [← hlast, hholds.tail, List.append_nil]
    apply hholds.insert hnew
    · simp [hne]
    · simp
    · simp [hgetLast, hmem.symm]
    · intro cell hother
      simp [hgetLast, hother, eq_comm]
    · intro cell hother
      simp [hother]

theorem Holds.pushFront (hholds : list.Holds links cells) (hnew : node ∉ cells) :
    (list.pushFront links (some node)).1.Holds (list.pushFront links (some node)).2
      (node :: cells) := by
  rw [← List.nil_append cells] at hholds hnew
  have hhead := hholds.head_eq_none_iff
  rw [List.nil_append] at hhead
  unfold LinkedList.pushFront
  cases hfirst : list.head with
  | none =>
    have hnil := hhead.mp hfirst
    apply hholds.insert hnew <;> simp_all
  | some head =>
    have hne : cells ≠ [] := fun hnil => by simp [hhead.mpr hnil] at hfirst
    have hmem : head ≠ node := by
      rintro rfl
      exact hnew (List.mem_of_head? (hholds.head.symm.trans hfirst))
    have hgetFirst : cells.head? = some head := by
      rw [← hfirst, hholds.head, List.nil_append]
    apply hholds.insert hnew
    · simp
    · simp [hne]
    · simp [hgetFirst, hmem.symm]
    · intro cell hother
      simp [hother]
    · intro cell hother
      simp [hgetFirst, hother, eq_comm]

theorem Holds.erase (hholds : list.Holds links (left ++ node :: right)) :
    (list.erase links (some node)).1.Holds (list.erase links (some node)).2 (left ++ right) := by
  obtain ⟨hleft, hprev, hnext, hright⟩ := Links.line_split.mp hholds.line
  obtain ⟨hnotMem, hnodup⟩ := List.nodup_cons.mp (List.nodup_middle.mp hholds.nodup)
  have hnotLeft : left.getLast? ≠ some node := fun hlast =>
    hnotMem (List.mem_append_left _ (List.mem_of_getLast? hlast))
  have hnotRight : right.head? ≠ some node := fun hfirst =>
    hnotMem (List.mem_append_right _ (List.mem_of_head? hfirst))
  unfold LinkedList.erase
  refine ⟨?_, ?_, ?_, hnodup⟩
  · dsimp only
    rw [hholds.head, hnext]
    cases left with
    | nil => simp
    | cons first rest =>
      have hne : node ≠ first := fun hsame => hnotMem (by simp [hsame])
      simp [hne]
  · dsimp only
    rw [hholds.tail, hprev]
    cases right using List.reverseRecOn with
    | nil => simp
    | append_singleton front last =>
      have hne : node ≠ last := fun hsame => hnotMem (by simp [hsame])
      rw [← List.cons_append, ← List.append_assoc, ← List.append_assoc, List.getLast?_concat,
        List.getLast?_concat, if_neg (by simpa using hne)]
  · apply Links.Line.join hleft hright hnodup
    · intro cell _
      rw [Links.patchPrev_next, Links.patchNext_next, hprev, hnext]
    · intro cell _
      rw [Links.patchPrev_prev, Links.patchNext_next, Links.patchNext_prev, hprev, if_neg hnotLeft,
        hnext]

theorem Holds.popBack (hholds : list.Holds links cells) :
    ∃ list' links', list.popBack links = some (list', links', cells.getLast?) ∧
      list'.Holds links' cells.dropLast := by
  unfold LinkedList.popBack
  cases cells using List.reverseRecOn with
  | nil =>
    rw [hholds.tail_eq_none_iff.mpr rfl]
    exact ⟨list, links, rfl, hholds⟩
  | append_singleton front node =>
    have htail : list.tail = some node := by rw [hholds.tail, List.getLast?_concat]
    have hsame := hholds.head_eq_tail_iff
    rw [List.getLast?_concat, List.dropLast_concat]
    rw [htail] at hsame ⊢
    dsimp only
    cases front using List.reverseRecOn with
    | nil =>
      rw [if_neg (not_not.mpr (hsame.mpr rfl))]
      exact ⟨_, _, rfl, Holds.nil _⟩
    | append_singleton front before _ =>
      obtain ⟨hline, hprev, -, -⟩ := Links.line_split.mp hholds.line
      rw [List.getLast?_concat] at hprev
      have hhead : list.head ≠ some node := fun hhead => by simpa using hsame.mp hhead
      have hnodup := (List.nodup_append'.mp hholds.nodup).1
      rw [if_pos hhead, hprev]
      refine ⟨_, _, rfl, ?_, ?_, ?_, hnodup⟩
      · rw [hholds.head, List.head?_append_of_ne_nil _ (by simp)]
      · rw [Links.setNext_prev, hprev, List.getLast?_concat]
      · apply hline.rehang hnodup
        · intro cell _
          simp [eq_comm]
        · intro cell _
          rw [Links.setNext_prev]
          split_ifs with hfirst
          · exact hline.prev_first hfirst
          · rfl

theorem Holds.popFront (hholds : list.Holds links cells) :
    ∃ list' links', list.popFront links = some (list', links', cells.head?) ∧
      list'.Holds links' cells.tail := by
  unfold LinkedList.popFront
  cases cells with
  | nil =>
    rw [hholds.head_eq_none_iff.mpr rfl]
    exact ⟨list, links, rfl, hholds⟩
  | cons node rest =>
    have hhead : list.head = some node := hholds.head
    obtain ⟨-, hnext, hline⟩ := Links.line_cons.mp hholds.line
    obtain ⟨hnotMem, hnodup⟩ := List.nodup_cons.mp hholds.nodup
    rw [hhead]
    dsimp only
    cases rest with
    | nil =>
      have hsame : some node = list.tail := hholds.tail.symm
      rw [if_neg (not_not.mpr hsame)]
      exact ⟨_, _, rfl, Holds.nil _⟩
    | cons after rest =>
      have htail : list.tail = (after :: rest).getLast? := by
        rw [hholds.tail, List.getLast?_cons_cons]
      have hne : some node ≠ list.tail := by
        rw [htail]
        intro hlast
        exact hnotMem (List.mem_of_getLast? hlast.symm)
      have hafter : links.next node = some after := hnext
      rw [if_pos hne, hafter]
      refine ⟨_, _, rfl, ?_, ?_, ?_, hnodup⟩
      · rw [Links.setPrev_next, hafter]
        rfl
      · exact htail
      · apply hline.rehang hnodup
        · intro cell _
          rw [Links.setPrev_next]
          split_ifs with hlast
          · exact hline.next_last hlast
          · rfl
        · intro cell _
          simp [eq_comm]

private theorem insertBefore_eq (hplace : place ∉ left) (node : α) :
    insertBefore place node (left ++ place :: right) = left ++ node :: place :: right := by
  induction left with
  | nil => simp [insertBefore]
  | cons cell rest ih =>
    obtain ⟨hne, hrest⟩ := not_or.mp (mt List.mem_cons.mpr hplace)
    rw [List.cons_append, insertBefore, if_neg (Ne.symm hne), ih hrest, List.cons_append]

private theorem insertAfter_eq (hplace : place ∉ left) (node : α) :
    insertAfter place node (left ++ place :: right) = left ++ place :: node :: right := by
  induction left with
  | nil => simp [insertAfter]
  | cons cell rest ih =>
    obtain ⟨hne, hrest⟩ := not_or.mp (mt List.mem_cons.mpr hplace)
    rw [List.cons_append, insertAfter, if_neg (Ne.symm hne), ih hrest, List.cons_append]

theorem Holds.erase_mem (hholds : list.Holds links cells) (hmem : node ∈ cells) :
    (list.erase links (some node)).1.Holds (list.erase links (some node)).2 (cells.erase node) := by
  obtain ⟨left, right, hleft, rfl, herase⟩ := List.exists_erase_eq hmem
  rw [herase]
  exact hholds.erase

private theorem insertBefore_erase (hnodup : cells.Nodup) (hmem : place ∈ cells)
    (hline : links.Line none cells none) (hprev : links.prev place = some node) :
    insertBefore place node (cells.erase node) = cells := by
  obtain ⟨left, right, rfl⟩ := List.append_of_mem hmem
  obtain ⟨-, hlast, -, -⟩ := Links.line_split.mp hline
  obtain ⟨front, rfl⟩ := List.getLast?_eq_some_iff.mp (hlast.symm.trans hprev)
  rw [List.append_assoc, List.singleton_append] at hnodup ⊢
  have hnotMem := (List.nodup_cons.mp (List.nodup_middle.mp hnodup)).1
  have hfront : node ∉ front := fun h => hnotMem (List.mem_append_left _ h)
  have hplace : place ∉ front := fun h =>
    (List.nodup_append'.mp hnodup).2.2 h (by simp)
  rw [List.erase_append_right _ hfront, List.erase_cons_head, insertBefore_eq hplace]

private theorem insertAfter_erase (hnodup : cells.Nodup) (hmem : place ∈ cells)
    (hline : links.Line none cells none) (hnext : links.next place = some node) :
    insertAfter place node (cells.erase node) = cells := by
  obtain ⟨left, right, rfl⟩ := List.append_of_mem hmem
  obtain ⟨-, -, hfirst, -⟩ := Links.line_split.mp hline
  obtain ⟨back, rfl⟩ := List.head?_eq_some_iff.mp (hfirst.symm.trans hnext)
  have hplace : place ∉ left := fun h => (List.nodup_append'.mp hnodup).2.2 h (by simp)
  have hleft : node ∉ left := fun h => (List.nodup_append'.mp hnodup).2.2 h (by simp)
  have hne : place ≠ node := by
    rintro rfl
    simpa using (List.nodup_append'.mp hnodup).2.1
  rw [List.erase_append_right _ hleft, List.erase_cons_tail (by simpa using hne),
    List.erase_cons_head, insertAfter_eq hplace]

private theorem exists_place (hmem : place ∈ cells) (hne : place ≠ node) :
    ∃ left right, cells.erase node = left ++ place :: right :=
  List.append_of_mem ((List.mem_erase_of_ne hne).mpr hmem)

theorem Holds.spliceBefore (hholds : list.Holds links cells) (hplace : place ∈ cells)
    (hnode : node ∈ cells) (hne : place ≠ node) :
    (list.spliceBefore links place node).1.Holds (list.spliceBefore links place node).2
      (insertBefore place node (cells.erase node)) := by
  unfold LinkedList.spliceBefore
  split_ifs with hprev
  · rw [insertBefore_erase hholds.nodup hplace hholds.line hprev]
    exact hholds
  · have herased := hholds.erase_mem hnode
    have hnew : node ∉ cells.erase node := hholds.nodup.not_mem_erase
    generalize list.erase links (some node) = erased at herased
    obtain ⟨list, links⟩ := erased
    obtain ⟨left, right, herase⟩ := exists_place hplace hne
    dsimp only at herased ⊢
    rw [herase] at herased hnew ⊢
    obtain ⟨-, hprev, -, -⟩ := Links.line_split.mp herased.line
    have hnotMem := (List.nodup_cons.mp (List.nodup_middle.mp herased.nodup)).1
    have hlast : left.getLast? ≠ some place := fun hlast =>
      hnotMem (List.mem_append_left _ (List.mem_of_getLast? hlast))
    rw [insertBefore_eq fun h => hnotMem (List.mem_append_left _ h)]
    apply herased.insert hnew
    · dsimp only
      rw [herased.head]
      cases left with
      | nil => simp
      | cons first rest =>
        have hfirst : place ≠ first := fun hsame => hnotMem (by simp [hsame])
        simp [hfirst]
    · simp
    · simp [hne.symm, hprev]
    · intro cell hother
      simp [hother, hprev]
    · intro cell hother
      simp [hother, eq_comm]

theorem Holds.spliceAfter (hholds : list.Holds links cells) (hplace : place ∈ cells)
    (hnode : node ∈ cells) (hne : place ≠ node) :
    (list.spliceAfter links place node).1.Holds (list.spliceAfter links place node).2
      (insertAfter place node (cells.erase node)) := by
  unfold LinkedList.spliceAfter
  split_ifs with hnext
  · rw [insertAfter_erase hholds.nodup hplace hholds.line hnext]
    exact hholds
  · have herased := hholds.erase_mem hnode
    have hnew : node ∉ cells.erase node := hholds.nodup.not_mem_erase
    generalize list.erase links (some node) = erased at herased
    obtain ⟨list, links⟩ := erased
    obtain ⟨left, right, herase⟩ := exists_place hplace hne
    dsimp only at herased ⊢
    rw [herase] at herased hnew ⊢
    obtain ⟨-, -, hnext, -⟩ := Links.line_split.mp herased.line
    have hnotMem := (List.nodup_cons.mp (List.nodup_middle.mp herased.nodup)).1
    have hfirst : right.head? ≠ some place := fun hfirst =>
      hnotMem (List.mem_append_right _ (List.mem_of_head? hfirst))
    rw [insertAfter_eq fun h => hnotMem (List.mem_append_left _ h)]
    -- the same place seen as the end of the left part
    have hsplit : left ++ place :: right = (left ++ [place]) ++ right := by simp
    have hgoal : left ++ place :: node :: right = (left ++ [place]) ++ node :: right := by simp
    rw [hsplit] at herased hnew
    rw [hgoal]
    apply herased.insert hnew
    · simp
    · dsimp only
      rw [herased.tail]
      cases right using List.reverseRecOn with
      | nil => simp
      | append_singleton front last =>
        have hlast : place ≠ last := fun hsame => hnotMem (by simp [hsame])
        simp [hlast, ← List.append_assoc]
    · simp [hne.symm, hnext]
    · intro cell hother
      simp [hother, eq_comm]
    · intro cell hother
      simp [hother, hnext]

theorem Holds.splice (hholds : list.Holds links cells) (before : Bool) {place node : Option α}
    (hplace : ∀ cell ∈ place, cell ∈ cells) (hnode : ∀ cell ∈ node, cell ∈ cells) :
    (list.splice links before place node).1.Holds (list.splice links before place node).2
      (move before place node cells) := by
  unfold LinkedList.splice move
  cases place with
  | none => simpa using hholds
  | some place =>
    cases node with
    | none => simpa using hholds
    | some node =>
      have hmem : place ∈ cells := hplace place rfl
      have hempty : ¬ list.empty = true := fun hempty => by
        simp [hholds.empty_iff.mp hempty] at hmem
      rw [if_neg hempty]
      dsimp only
      split_ifs with hsame hbefore
      · exact hholds
      · exact hholds.spliceBefore hmem (hnode node rfl) hsame
      · exact hholds.spliceAfter hmem (hnode node rfl) hsame

theorem Holds.link {list' : LinkedList α} {links' : Links α} {before : Option α}
    (hholds : list.Holds links cells) (hline : links.Line before more none) (hnodup : more.Nodup)
    (hapart : cells.Disjoint more)
    (hhead : list'.head = list.head.or more.head?) (htail : list'.tail = more.getLast?.or list.tail)
    (hnext : links'.next = (links.patchNext list.tail more.head?).next)
    (hprev : links'.prev = (links.patchPrev more.head? list.tail).prev) :
    list'.Holds links' (cells ++ more) := by
  have hboth : (cells ++ more).Nodup := List.nodup_append'.mpr ⟨hholds.nodup, hnodup, hapart⟩
  refine ⟨?_, ?_, ?_, hboth⟩
  · rw [hhead, hholds.head, List.head?_append]
  · rw [htail, hholds.tail, List.getLast?_append]
  · apply Links.Line.join hholds.line hline hboth
    · intro cell _
      rw [hnext, Links.patchNext_next, hholds.tail]
    · intro cell _
      rw [hprev, Links.patchPrev_prev, hholds.tail]

theorem Holds.merge (hholds : list.Holds links cells) (hal : al.Holds links more)
    (hapart : cells.Disjoint more) : ∃ list' links', list.merge links al = some (list', links') ∧
      list'.Holds links' (cells ++ more) := by
  unfold LinkedList.merge
  split_ifs with hempty
  · rw [hal.empty_iff.mp hempty, List.append_nil]
    exact ⟨list, links, rfl, hholds⟩
  · have hne : more ≠ [] := fun hnil => hempty (hal.empty_iff.mpr hnil)
    obtain ⟨first, rest, rfl⟩ := List.exists_cons_of_ne_nil hne
    have hfirst : al.head = some first := hal.head
    rw [hfirst]
    cases htail : list.tail with
    | none =>
      rw [hholds.tail_eq_none_iff.mp htail, List.nil_append]
      exact ⟨_, _, rfl, hal.head ▸ hfirst.symm, hal.tail, hal.line, hal.nodup⟩
    | some tail =>
      refine ⟨_, _, rfl, hholds.link hal.line hal.nodup hapart ?_ ?_ ?_ ?_⟩
      · exact (hholds.head_or htail _).symm
      · dsimp only
        rw [hal.tail, List.getLast?_cons]
        rfl
      · rw [htail, List.head?_cons, Links.patchNext_some, Links.setPrev_next]
      · rw [htail, List.head?_cons, Links.patchPrev_some]
        rfl

omit [DecidableEq α] in
private theorem lastOf_eq {before : Option α} (hline : links.Line before cells none) {fuel : Nat}
    (hfuel : cells.length ≤ fuel) {first : α} (hfirst : cells.head? = some first) :
    lastOf links fuel first = cells.getLast? := by
  induction cells generalizing before fuel first with
  | nil => simp at hfirst
  | cons cell rest ih =>
    obtain rfl : cell = first := by simpa using hfirst
    obtain ⟨-, hnext, hrest⟩ := Links.line_cons.mp hline
    obtain ⟨fuel, rfl⟩ : ∃ less, fuel = less + 1 := ⟨fuel - 1, by simp at hfuel; omega⟩
    rw [lastOf, hnext, Option.or_none]
    cases rest with
    | nil => rfl
    | cons second rest =>
      rw [List.getLast?_cons_cons]
      exact ih hrest (by simpa using hfuel) rfl

theorem Holds.mergeChain (hholds : list.Holds links cells) {head : Option α}
    (hchain : Chained links head more) (hapart : cells.Disjoint more) :
    ∃ list' links', list.mergeChain links more.length head = some (list', links') ∧
      list'.Holds links' (cells ++ more) := by
  obtain ⟨hhead, ⟨before, hline⟩, hnodup⟩ := hchain
  unfold LinkedList.mergeChain
  cases more with
  | nil =>
    rw [hhead, List.append_nil]
    exact ⟨list, links, rfl, hholds⟩
  | cons first rest =>
    have hlast := lastOf_eq hline (Nat.le_refl _) rfl
    rw [List.getLast?_cons] at hlast
    rw [hhead]
    dsimp only [List.head?_cons]
    rw [hlast]
    cases htail : list.tail with
    | none =>
      refine ⟨_, _, rfl, hholds.link hline hnodup hapart ?_ ?_ ?_ ?_⟩
      · rw [hholds.head_eq_none_iff.mpr (hholds.tail_eq_none_iff.mp htail)]
        rfl
      · rw [List.getLast?_cons]
        rfl
      · rw [htail, Links.patchNext_none, Links.setPrev_next]
      · rw [htail, List.head?_cons, Links.patchPrev_some]
    | some tail =>
      refine ⟨_, _, rfl, hholds.link hline hnodup hapart ?_ ?_ ?_ ?_⟩
      · exact (hholds.head_or htail _).symm
      · rw [List.getLast?_cons]
        rfl
      · rw [htail, List.head?_cons, Links.patchNext_some, Links.setPrev_next]
      · rw [htail, List.head?_cons, Links.patchPrev_some]
        rfl

theorem Holds.client (hholds : list.Holds links cells) (hnot : node ∉ cells)
    (next prev : Option α) : list.Holds ((links.setNext node next).setPrev node prev) cells where
  head := hholds.head
  tail := hholds.tail
  line := by
    apply hholds.line.congr
    · intro cell hcell
      simp [ne_of_mem_of_not_mem hcell hnot]
    · intro cell hcell
      simp [ne_of_mem_of_not_mem hcell hnot]
  nodup := hholds.nodup

structure Invariant (system : System α) : Prop where
  holds : system.list.Holds system.links system.cells
  popped : ∀ pair ∈ system.popped, pair.1 = pair.2

private theorem exec_holds {system : System α} {call : Call α} (hallowed : Allowed system call)
    (hholds : system.list.Holds system.links system.cells) : ∃ list' links',
      exec system.list system.links call =
        some (list', links', (execSequence system.cells call).2) ∧
      list'.Holds links' (execSequence system.cells call).1 := by
  cases call with
  | pushBack node =>
    refine ⟨_, _, rfl, ?_⟩
    cases node with
    | none => simpa [execSequence, LinkedList.pushBack] using hholds
    | some node => exact hholds.pushBack (hallowed node rfl)
  | pushFront node =>
    refine ⟨_, _, rfl, ?_⟩
    cases node with
    | none => simpa [execSequence, LinkedList.pushFront] using hholds
    | some node => exact hholds.pushFront (hallowed node rfl)
  | popBack => exact hholds.popBack
  | popFront => exact hholds.popFront
  | erase node =>
    refine ⟨_, _, rfl, ?_⟩
    cases node with
    | none => exact hholds
    | some node => exact hholds.erase_mem (hallowed node rfl)
  | splice before place node => exact ⟨_, _, rfl, hholds.splice before hallowed.1 hallowed.2⟩
  | merge al more =>
    obtain ⟨list', links', hmerge, hholds'⟩ := hholds.merge hallowed.1 hallowed.2
    exact ⟨list', links', by simp [exec, hmerge, execSequence], hholds'⟩
  | mergeChain head more =>
    obtain ⟨list', links', hmerge, hholds'⟩ := hholds.mergeChain hallowed.1 hallowed.2
    exact ⟨list', links', by simp [exec, hmerge, execSequence], hholds'⟩
  | client node next prev => exact ⟨_, _, rfl, hholds.client hallowed next prev⟩

theorem Invariant.step {system : System α} {call : Call α} (hallowed : Allowed system call)
    (hinv : Invariant system) : ∃ next, step system call = some next ∧ Invariant next := by
  obtain ⟨list', links', hexec, hholds⟩ := exec_holds hallowed hinv.holds
  refine ⟨_, by rw [LinkedList.step, hexec, Option.map_some], hholds, ?_⟩
  intro pair hpair
  rcases List.mem_append.mp hpair with hold | hnew
  · exact hinv.popped pair hold
  · rw [List.mem_singleton.mp hnew]

omit [DecidableEq α] in
theorem Invariant.sound {system : System α} (hinv : Invariant system) : Sound system where
  forward := by
    intro fuel hfuel
    rw [hinv.holds.head]
    exact hinv.holds.line.follow_next hfuel
  backward := by
    intro fuel hfuel
    rw [hinv.holds.tail]
    exact hinv.holds.line.follow_prev hfuel
  head := hinv.holds.head_eq_none_iff
  tail := hinv.holds.tail_eq_none_iff
  popped := hinv.popped

/-- No call goes wrong, and both traversals show the sequence after all of them. -/
theorem list_run_sound (links : Links α) (calls : List (Call α))
    (hallowed : Along step Allowed (start links) calls) :
    ∃ final, run step (start links) calls = some final ∧ Sound final := by
  have hstart : Invariant (start links) := ⟨Holds.nil links, by simp [start]⟩
  obtain ⟨final, hrun, hinv⟩ := run_along (fun _ _ => Invariant.step) hallowed hstart
  exact ⟨final, hrun, hinv.sound⟩

/-- Two pushes, a splice, a chain of one node and a pop. -/
theorem list_run_sound_splice :
    let links : Links Nat := ⟨fun _ => none, fun _ => some 9⟩
    let calls : List (Call Nat) := [.pushBack (some 1), .pushFront (some 2),
      .splice false (some 1) (some 2), .mergeChain (some 3) [3], .popFront]
    Along step Allowed (start links) calls ∧
      ∃ final, run step (start links) calls = some final ∧ Sound final := by
  intro links calls
  have hapart : List.Disjoint [1, 2] [3] := by simp
  have hallowed : Along step Allowed (start links) calls := by
    refine ⟨by simp [start, Allowed], fun pushed hpushed => ?_⟩
    cases hpushed
    refine ⟨by simp [start, Allowed, execSequence], fun both hboth => ?_⟩
    cases hboth
    refine ⟨by simp [start, Allowed, execSequence], fun spliced hspliced => ?_⟩
    cases hspliced
    refine ⟨⟨⟨rfl, ⟨some 9, rfl, rfl, trivial⟩, List.nodup_singleton 3⟩, hapart⟩, ?_⟩
    intro merged hmerged
    cases hmerged
    exact ⟨trivial, fun _ _ => trivial⟩
  exact ⟨hallowed, list_run_sound links calls hallowed⟩

end Libsax.Container.LinkedList
