import Mathlib.Data.Fintype.Basic
import Mathlib.Data.List.FinRange
import Libsax.Lib.Counter
import Libsax.Lib.Groups
import Libsax.Timer.Wheel

/-! The memory of a wheel: which nodes hang in which list, which ones the pool
keeps, and what each operation does to them. -/
namespace Libsax.Timer

open Libsax.Lib

/-- Who holds the nodes: the lists of the wheel, the free list of the pool, and
`fire` for the node whose callback runs. -/
structure Shape where
  lists : Fin 1024 → List Cell
  free : List Cell
  held : List Cell

def Shape.pending (shape : Shape) : List Cell := (List.finRange 1024).flatMap shape.lists

def Shape.put (shape : Shape) (head : Fin 1024) (list : List Cell) : Shape :=
  { shape with lists := Function.update shape.lists head list }

@[simp] theorem Shape.mem_pending {shape : Shape} {cell : Cell} :
    cell ∈ shape.pending ↔ ∃ head, cell ∈ shape.lists head := by
  simp [Shape.pending]

@[simp] theorem Shape.put_lists_self (shape : Shape) (head : Fin 1024) (list : List Cell) :
    (shape.put head list).lists head = list := by
  simp [Shape.put]

theorem Shape.put_lists_of_ne (shape : Shape) {head other : Fin 1024} (hne : other ≠ head)
    (list : List Cell) : (shape.put head list).lists other = shape.lists other := by
  simp [Shape.put, hne]

@[simp] theorem Shape.mem_put {shape : Shape} {head other : Fin 1024} {list : List Cell}
    {cell : Cell} :
    cell ∈ (shape.put head list).lists other ↔
      if other = head then cell ∈ list else cell ∈ shape.lists other :=
  Links.mem_update_cells

theorem Shape.put_pending (shape : Shape) (head : Fin 1024) (list : List Cell) :
    ((shape.put head list).pending ++ shape.lists head).Perm (shape.pending ++ list) :=
  flatMap_update_perm (List.mem_finRange head) (List.nodup_finRange 1024) shape.lists list

def Wheel.Owned (wheel : Wheel) (cell : Cell) : Prop :=
  ∃ number, number < wheel.malloced ∧ cell = .node number

/-- The heap is as `shape` says. Nodes of `loose` are in the hands of the code
and their links mean nothing; rings outside `intact` are being taken apart. -/
structure Heap (wheel : Wheel) (shape : Shape) (loose : List Cell) (intact : Fin 1024 → Prop) :
    Prop where
  family : Links.Family wheel.links Cell.head shape.lists intact
  linked : ∀ head, ∀ cell ∈ shape.lists head, wheel.links.prev cell ≠ none
  ownedLists : ∀ head, ∀ cell ∈ shape.lists head, wheel.Owned cell
  chain : wheel.links.Chain wheel.pool.head shape.free
  usable : wheel.pool.usableAmount.toInt ≤ shape.free.length
  shrink : wheel.pool.shrinkAmount = 0
  distinct : (shape.held ++ shape.free).Nodup
  unlinked : ∀ cell ∈ shape.held ++ shape.free, wheel.links.prev cell = none
  ownedPool : ∀ cell ∈ shape.held ++ shape.free, wheel.Owned cell
  looseApart : ∀ cell ∈ loose, wheel.Owned cell ∧ cell ∉ shape.held ++ shape.free ∧
    ∀ head, cell ∉ shape.lists head
  accounted : ∀ number, number < wheel.malloced → .node number ∉ loose →
    (∃ head, .node number ∈ shape.lists head) ∨ wheel.links.prev (.node number) = none

variable {wheel : Wheel} {shape : Shape} {loose : List Cell} {intact : Fin 1024 → Prop}

theorem Wheel.Owned.ne_head {cell : Cell} (howned : wheel.Owned cell) (head : Fin 1024) :
    cell ≠ .head head := by
  obtain ⟨number, -, rfl⟩ := howned
  exact Cell.noConfusion

theorem Heap.not_listed (hheap : Heap wheel shape loose intact) {cell : Cell}
    (hprev : wheel.links.prev cell = none) (head : Fin 1024) : cell ∉ shape.lists head :=
  fun hmem => hheap.linked head cell hmem hprev

theorem Heap.length_le (hheap : Heap wheel shape loose intact) {head : Fin 1024}
    (hnodup : (shape.lists head).Nodup) : (shape.lists head).length ≤ wheel.malloced := by
  have hsubset : shape.lists head ⊆ (List.range wheel.malloced).map Cell.node := by
    intro cell hmem
    obtain ⟨number, hlt, rfl⟩ := hheap.ownedLists head cell hmem
    exact List.mem_map_of_mem (List.mem_range.mpr hlt)
  simpa using (hnodup.subperm hsubset).length_le

theorem Heap.schedule {cell : Cell} (hheap : Heap wheel shape [cell] intact)
    (delayTicks : UInt32) (hintact : intact (listHead (wheel.expire cell) delayTicks)) :
    ∃ links, schedule wheel cell delayTicks = some { wheel with links := links } ∧
      Heap { wheel with links := links }
        (shape.put (listHead (wheel.expire cell) delayTicks)
          (cell :: shape.lists (listHead (wheel.expire cell) delayTicks))) [] intact ∧
      ∀ other, other ≠ cell → (∀ head, other ≠ .head head) →
        other ∉ shape.lists (listHead (wheel.expire cell) delayTicks) →
        links.next other = wheel.links.next other := by
  unfold Timer.schedule
  generalize listHead (wheel.expire cell) delayTicks = head at hintact ⊢
  obtain ⟨howned, houtside, hnotListed⟩ := hheap.looseApart cell (by simp)
  have hfresh : ∀ j, cell ∉ Cell.head j :: shape.lists j := by
    intro j hmem
    rcases List.mem_cons.mp hmem with h | h
    · exact howned.ne_head j h
    · exact hnotListed j h
  obtain ⟨links, hinsert, hfamily, hframe⟩ := hheap.family.insertAfter hintact hfresh
  have hsame : ∀ other, other ≠ cell → (∀ j, other ≠ .head j) → other ∉ shape.lists head →
      links.next other = wheel.links.next other ∧ links.prev other = wheel.links.prev other := by
    intro other hcell hhead hlist
    refine hframe other ?_
    simp [hcell, hhead head, hlist]
  have hpool : ∀ other ∈ shape.held ++ shape.free,
      links.next other = wheel.links.next other ∧ links.prev other = wheel.links.prev other := by
    intro other hmem
    refine hsame other ?_ (hheap.ownedPool other hmem).ne_head ?_
    · rintro rfl
      exact houtside hmem
    · exact hheap.not_listed (hheap.unlinked other hmem) head
  refine ⟨links, by simp [hinsert], ?_, fun other hcell hhead hlist =>
    (hsame other hcell hhead hlist).1⟩
  constructor
  case family => exact hfamily
  case linked =>
    intro j other hmem
    by_cases hring : other ∈ cell :: shape.lists head
    · have hlinked := hfamily.ring head hintact
      rw [Function.update_self] at hlinked
      exact hlinked.linked hring
    · have hother : other ∈ shape.lists j := by
        rw [Shape.mem_put] at hmem
        split_ifs at hmem
        · exact absurd hmem hring
        · exact hmem
      rw [List.mem_cons, not_or] at hring
      rw [(hsame other hring.1 (hheap.ownedLists j other hother).ne_head hring.2).2]
      exact hheap.linked j other hother
  case ownedLists =>
    intro j other hmem
    rw [Shape.mem_put] at hmem
    split_ifs at hmem
    · rcases List.mem_cons.mp hmem with rfl | h
      · exact howned
      · exact hheap.ownedLists head other h
    · exact hheap.ownedLists j other hmem
  case chain =>
    exact hheap.chain.congr fun other hmem =>
      (hpool other (List.mem_append_right _ hmem)).1
  case usable => exact hheap.usable
  case shrink => exact hheap.shrink
  case distinct => exact hheap.distinct
  case unlinked =>
    intro other hmem
    exact (hpool other hmem).2.trans (hheap.unlinked other hmem)
  case ownedPool => exact hheap.ownedPool
  case looseApart => simp
  case accounted =>
    intro number hlt _
    by_cases hcell : Cell.node number = cell
    · refine .inl ⟨head, ?_⟩
      rw [Shape.mem_put, if_pos rfl, hcell]
      simp
    · rcases hheap.accounted number hlt (by simpa using hcell) with ⟨j, hmem⟩ | hprev
      · refine .inl ⟨j, ?_⟩
        rw [Shape.mem_put]
        split_ifs with hj
        · exact List.mem_cons_of_mem _ (hj ▸ hmem)
        · exact hmem
      · refine .inr ?_
        have hnone := hheap.not_listed hprev head
        exact (hsame _ hcell (fun j => Cell.noConfusion) hnone).2.trans hprev

theorem Shape.mem_put_of_mem {head j : Fin 1024} {list : List Cell} {cell : Cell}
    (hsub : ∀ other ∈ list, other ∈ shape.lists head) (hmem : cell ∈ (shape.put head list).lists j) :
    cell ∈ shape.lists j := by
  rw [Shape.mem_put] at hmem
  split_ifs at hmem with hj
  · exact hj ▸ hsub cell hmem
  · exact hmem

theorem Heap.remove {head : Fin 1024} {cell : Cell} {left right : List Cell}
    (hheap : Heap wheel shape [] intact) (hintact : intact head)
    (hlist : shape.lists head = left ++ cell :: right) :
    ∃ links, wheel.links.remove cell = some links ∧
      Heap { wheel with links := links }
        { shape.put head (left ++ right) with held := cell :: shape.held } [] intact := by
  have hmem : cell ∈ shape.lists head := by simp [hlist]
  obtain ⟨links, hremove, hfamily, hnext, hprev, hframe⟩ := hheap.family.remove hintact hlist
  have hsub : ∀ other ∈ left ++ right, other ∈ shape.lists head := by
    intro other h
    rw [hlist]
    rcases List.mem_append.mp h with h | h
    · simp [h]
    · simp [h]
  have hout : cell ∉ left ++ right := by
    have hnodup := (List.nodup_cons.mp (hlist ▸ hheap.family.ring head hintact).nodup).2
    exact (List.nodup_cons.mp (List.nodup_middle.mp hnodup)).1
  have hpool : ∀ other ∈ shape.held ++ shape.free,
      links.next other = wheel.links.next other ∧ links.prev other = wheel.links.prev other := by
    intro other h
    refine hframe other ?_
    rw [List.mem_cons, not_or]
    exact ⟨(hheap.ownedPool other h).ne_head head,
      hheap.not_listed (hheap.unlinked other h) head⟩
  have hunpooled : cell ∉ shape.held ++ shape.free :=
    fun h => hheap.linked head cell hmem (hheap.unlinked cell h)
  refine ⟨links, hremove, ?_⟩
  constructor
  case family => exact hfamily
  case linked =>
    intro j other h
    by_cases hring : other ∈ left ++ right
    · have hlinked := hfamily.ring head hintact
      rw [Function.update_self] at hlinked
      exact hlinked.linked hring
    · have hj : j ≠ head := by
        rintro rfl
        rw [Shape.mem_put, if_pos rfl] at h
        exact hring h
      have hother := Shape.mem_put_of_mem hsub h
      have hapart : other ∉ Cell.head head :: shape.lists head :=
        hheap.family.apart j head hj other (List.mem_cons_of_mem _ hother)
      rw [(hframe other hapart).2]
      exact hheap.linked j other hother
  case ownedLists => exact fun j other h => hheap.ownedLists j other (Shape.mem_put_of_mem hsub h)
  case chain =>
    exact hheap.chain.congr fun other h => (hpool other (List.mem_append_right _ h)).1
  case usable => exact hheap.usable
  case shrink => exact hheap.shrink
  case distinct => exact List.nodup_cons.mpr ⟨hunpooled, hheap.distinct⟩
  case unlinked =>
    intro other h
    rcases List.mem_cons.mp h with rfl | h
    · exact hprev
    · exact (hpool other h).2.trans (hheap.unlinked other h)
  case ownedPool =>
    intro other h
    rcases List.mem_cons.mp h with rfl | h
    · exact hheap.ownedLists head other hmem
    · exact hheap.ownedPool other h
  case looseApart => simp
  case accounted =>
    intro number hlt _
    by_cases hcell : Cell.node number = cell
    · exact .inr (hcell ▸ hprev)
    · rcases hheap.accounted number hlt (by simp) with ⟨j, h⟩ | hnone
      · refine .inl ⟨j, ?_⟩
        rw [Shape.mem_put]
        split_ifs with hj
        · rw [hj, hlist] at h
          simpa [hcell] using h
        · exact h
      · refine .inr ((hframe _ ?_).2.trans hnone)
        rw [List.mem_cons, not_or]
        exact ⟨Cell.noConfusion, hheap.not_listed hnone head⟩

theorem Heap.take {head : Fin 1024} {cell : Cell} {rest : List Cell}
    (hheap : Heap wheel shape [] intact) (hintact : ¬ intact head)
    (hlist : shape.lists head = cell :: rest) (hnodup : (shape.lists head).Nodup) :
    Heap wheel (shape.put head rest) [cell] intact := by
  have hsub : ∀ other ∈ rest, other ∈ shape.lists head := by
    intro other h
    simp [hlist, h]
  have hmem : cell ∈ shape.lists head := by simp [hlist]
  rw [hlist, List.nodup_cons] at hnodup
  refine { hheap with
    family := hheap.family.shrink hintact hsub
    linked := fun j other h => hheap.linked j other (Shape.mem_put_of_mem hsub h)
    ownedLists := fun j other h => hheap.ownedLists j other (Shape.mem_put_of_mem hsub h)
    looseApart := ?_
    accounted := ?_ }
  · intro other h
    rw [List.mem_singleton.mp h]
    refine ⟨hheap.ownedLists head cell hmem,
      fun h => hheap.linked head cell hmem (hheap.unlinked cell h), ?_⟩
    intro j h
    by_cases hj : j = head
    · rw [Shape.mem_put, if_pos hj] at h
      exact hnodup.1 h
    · exact hheap.family.apart j head hj cell
        (List.mem_cons_of_mem _ (Shape.mem_put_of_mem hsub h)) (List.mem_cons_of_mem _ hmem)
  · intro number hlt hloose
    rcases hheap.accounted number hlt (by simp) with ⟨j, h⟩ | hnone
    · refine .inl ⟨j, ?_⟩
      rw [Shape.mem_put]
      split_ifs with hj
      · rw [hj, hlist] at h
        simpa [List.mem_singleton.not.mp hloose] using h
      · exact h
    · exact .inr hnone

theorem Heap.reset {head : Fin 1024} (hheap : Heap wheel shape [] intact)
    (hlist : shape.lists head = []) :
    Heap { wheel with links := wheel.links.reset (.head head) } shape []
      fun j => intact j ∨ j = head := by
  have hnode : ∀ cell, wheel.Owned cell →
      (wheel.links.reset (.head head)).next cell = wheel.links.next cell ∧
        (wheel.links.reset (.head head)).prev cell = wheel.links.prev cell := by
    intro cell howned
    exact Links.reset_frame _ _ cell (by simpa using howned.ne_head head)
  have hput : Function.update shape.lists head [] = shape.lists := by
    rw [← hlist, Function.update_eq_self]
  refine { hheap with
    family := hput ▸ hheap.family.reset head
    linked := ?_
    chain := ?_
    unlinked := ?_
    accounted := ?_ }
  · intro j cell h
    rw [(hnode cell (hheap.ownedLists j cell h)).2]
    exact hheap.linked j cell h
  · exact hheap.chain.congr fun cell h =>
      (hnode cell (hheap.ownedPool cell (List.mem_append_right _ h))).1
  · intro cell h
    exact (hnode cell (hheap.ownedPool cell h)).2.trans (hheap.unlinked cell h)
  · intro number hlt hloose
    rcases hheap.accounted number hlt hloose with h | h
    · exact .inl h
    · exact .inr ((hnode _ ⟨number, hlt, rfl⟩).2.trans h)

theorem Heap.xslabFree {cell : Cell} {rest : List Cell} (hheap : Heap wheel shape [] intact)
    (hheld : shape.held = cell :: rest) :
    Heap (xslabFree wheel cell) { shape with held := rest, free := cell :: shape.free } []
      intact := by
  have hmem : cell ∈ shape.held ++ shape.free := by simp [hheld]
  have hnone := hheap.unlinked cell hmem
  have howned := hheap.ownedPool cell hmem
  have hdistinct := hheap.distinct
  rw [hheld, List.cons_append] at hdistinct
  have hnode : ∀ other, other ≠ cell →
      (wheel.links.setNext cell wheel.pool.head).next other = wheel.links.next other := by
    intro other hne
    simp [hne]
  have hperm : ∀ other, other ∈ rest ++ cell :: shape.free ↔ other ∈ shape.held ++ shape.free := by
    intro other
    rw [hheld]
    simp only [List.mem_append, List.mem_cons]
    tauto
  unfold Timer.xslabFree
  rw [if_pos hheap.shrink]
  refine { hheap with
    family := hheap.family.congr (show Links.Frame _ _ [cell] from ?_) ?_
    chain := ⟨rfl, ?_⟩
    usable := (succ_toInt_le _).trans (Int.add_le_add_right hheap.usable 1)
    distinct := List.nodup_middle.mpr hdistinct
    unlinked := fun other h => hheap.unlinked other ((hperm other).mp h)
    ownedPool := fun other h => hheap.ownedPool other ((hperm other).mp h)
    looseApart := by simp }
  · intro other h
    exact ⟨hnode other (by simpa using h), rfl⟩
  · intro j other h
    rw [List.mem_singleton]
    rintro rfl
    rcases List.mem_cons.mp h with h | h
    · exact howned.ne_head j h
    · exact hheap.not_listed hnone j h
  · rw [Links.setNext_next, if_pos rfl]
    refine hheap.chain.congr fun other h => hnode other ?_
    rintro rfl
    exact (List.nodup_cons.mp hdistinct).1 (List.mem_append_right _ h)

theorem Heap.malloc (hheap : Heap wheel shape [] intact) :
    Heap { wheel with malloced := wheel.malloced + 1 } shape [.node wheel.malloced] intact := by
  have hnew : ∀ other, wheel.Owned other → other ≠ .node wheel.malloced := by
    rintro other ⟨number, hlt, rfl⟩ heq
    cases heq
    exact Nat.lt_irrefl _ hlt
  have hold : ∀ other, wheel.Owned other →
      ∃ number, number < wheel.malloced + 1 ∧ other = .node number := by
    rintro other ⟨number, hlt, rfl⟩
    exact ⟨number, Nat.lt_succ_of_lt hlt, rfl⟩
  refine { hheap with
    ownedLists := fun j other h => hold other (hheap.ownedLists j other h)
    ownedPool := fun other h => hold other (hheap.ownedPool other h)
    looseApart := ?_
    accounted := ?_ }
  · intro other h
    rw [List.mem_singleton.mp h]
    exact ⟨⟨wheel.malloced, Nat.lt_succ_self _, rfl⟩,
      fun h => hnew _ (hheap.ownedPool _ h) rfl,
      fun j h => hnew _ (hheap.ownedLists j _ h) rfl⟩
  · intro number hlt hloose
    have hne : number ≠ wheel.malloced := fun h => hloose (by simp [h])
    have hlt : number < wheel.malloced + 1 := hlt
    exact hheap.accounted number (by omega) (by simp)

theorem Heap.xslabAlloc (hheap : Heap wheel shape [] intact) (memory : Bool) :
    ∃ next result, xslabAlloc wheel memory = some (next, result) ∧
      next = { wheel with pool := next.pool, malloced := next.malloced } ∧
      (result = none → next = wheel) ∧
      ∀ cell, result = some cell → ∃ free,
        Heap next { shape with free := free } [cell] intact := by
  unfold Timer.xslabAlloc
  by_cases hsome : wheel.pool.usableAmount > 0
  · have hpos := pos_iff.mp hsome
    have husable := hheap.usable
    obtain ⟨cell, rest, hfree⟩ := List.exists_cons_of_length_pos (show 0 < shape.free.length by omega)
    rw [hfree, List.length_cons] at husable
    have hchain := hheap.chain
    rw [hfree] at hchain
    have hmem : cell ∈ shape.held ++ shape.free := by simp [hfree]
    have hdistinct := hheap.distinct
    rw [hfree] at hdistinct
    have hsub : ∀ other ∈ shape.held ++ rest, other ∈ shape.held ++ shape.free := by
      intro other h
      rw [hfree]
      rcases List.mem_append.mp h with h | h
      · simp [h]
      · simp [h]
    rw [if_pos hsome]
    refine ⟨_, _, by rw [hchain.1]; rfl, rfl, fun h => absurd h (by simp), ?_⟩
    intro other hother
    cases hother
    refine ⟨rest, { hheap with
      chain := hchain.2
      usable := by
        rw [pred_toInt hpos]
        show wheel.pool.usableAmount.toInt - 1 ≤ (rest.length : Int)
        omega
      distinct := (List.nodup_cons.mp (List.nodup_middle.mp hdistinct)).2
      unlinked := fun other h => hheap.unlinked other (hsub other h)
      ownedPool := fun other h => hheap.ownedPool other (hsub other h)
      looseApart := ?_
      accounted := fun number hlt _ => hheap.accounted number hlt (by simp) }⟩
    intro other h
    rw [List.mem_singleton.mp h]
    exact ⟨hheap.ownedPool cell hmem, (List.nodup_cons.mp (List.nodup_middle.mp hdistinct)).1,
      hheap.not_listed (hheap.unlinked cell hmem)⟩
  · rw [if_neg hsome]
    cases memory with
    | false => exact ⟨wheel, none, rfl, rfl, fun _ => rfl, by simp⟩
    | true =>
      refine ⟨_, _, rfl, rfl, fun h => absurd h (by simp), ?_⟩
      intro cell hcell
      cases hcell
      exact ⟨shape.free, hheap.malloc⟩

end Libsax.Timer
