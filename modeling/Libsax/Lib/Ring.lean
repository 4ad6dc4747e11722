import Mathlib.Data.List.Nodup
import Mathlib.Logic.Function.Basic

/-! Intrusive circular doubly linked lists. A ring is threaded through the
`next` and `prev` fields of its own members and closed by a head that carries
no element; a missing link is a null pointer. -/
namespace Libsax.Lib

/-- The link fields of every cell of a heap. -/
structure Links (α : Type) where
  next : α → Option α
  prev : α → Option α

namespace Links

variable {α : Type}

/-- The cells `cells` lie between `start` and `stop`, linked both ways. -/
def Segment (links : Links α) : α → List α → α → Prop
  | start, [], stop => links.next start = some stop ∧ links.prev stop = some start
  | start, cell :: rest, stop =>
      links.next start = some cell ∧ links.prev cell = some start ∧ Segment links cell rest stop

/-- The ring closed by `head` holds exactly `cells`, in this order. -/
structure Ring (links : Links α) (head : α) (cells : List α) : Prop where
  segment : links.Segment head cells head
  nodup : (head :: cells).Nodup

theorem Segment.append {links : Links α} {start middle stop : α} {left right : List α} :
    links.Segment start (left ++ middle :: right) stop ↔
      links.Segment start left middle ∧ links.Segment middle right stop := by
  induction left generalizing start with
  | nil => simp [Segment, and_assoc]
  | cons cell rest ih => simp [Segment, ih, and_assoc]

theorem Segment.congr {links other : Links α} {start stop : α} {cells : List α}
    (hsegment : links.Segment start cells stop)
    (hnext : ∀ cell ∈ start :: cells, other.next cell = links.next cell)
    (hprev : ∀ cell ∈ cells ++ [stop], other.prev cell = links.prev cell) :
    other.Segment start cells stop := by
  induction cells generalizing start with
  | nil =>
    exact ⟨(hnext start (by simp)).trans hsegment.1, (hprev stop (by simp)).trans hsegment.2⟩
  | cons cell rest ih =>
    obtain ⟨hstart, hcell, hrest⟩ := hsegment
    refine ⟨(hnext start (by simp)).trans hstart, (hprev cell (by simp)).trans hcell, ?_⟩
    exact ih hrest (fun entry hmem => hnext entry (by simp [List.mem_cons.mp hmem]))
      (fun entry hmem => hprev entry (by rw [List.cons_append]; exact List.mem_cons_of_mem _ hmem))

theorem Segment.first {links : Links α} {start stop : α} {cells : List α}
    (hsegment : links.Segment start cells stop) :
    links.next start = some ((cells ++ [stop]).head (by simp)) := by
  cases cells with
  | nil => exact hsegment.1
  | cons cell rest => exact hsegment.1

theorem Segment.bridge {links : Links α} {start cell stop : α} {left right : List α}
    (hleft : links.Segment start left cell) (hright : links.Segment cell right stop)
    (hnodup : (start :: (left ++ right)).Nodup) (hstop : stop ∉ left ++ right) :
    ∃ before after, links.prev cell = some before ∧ links.next cell = some after ∧
      before ∈ start :: left ∧ after ∈ right ++ [stop] ∧
      ∀ other : Links α, other.next before = some after → other.prev after = some before →
        (∀ entry ∈ start :: (left ++ right), entry ≠ before →
          other.next entry = links.next entry) →
        (∀ entry ∈ left ++ right ++ [stop], entry ≠ after →
          other.prev entry = links.prev entry) →
        other.Segment start (left ++ right) stop := by
  induction left generalizing start with
  | nil =>
    cases right with
    | nil =>
      refine ⟨start, stop, hleft.2, hright.1, by simp, by simp, ?_⟩
      intro other hnext hprev _ _
      exact ⟨hnext, hprev⟩
    | cons after rest =>
      refine ⟨start, after, hleft.2, hright.1, by simp, by simp, ?_⟩
      intro other hnext hprev hnexts hprevs
      refine ⟨hnext, hprev, hright.2.2.congr ?_ ?_⟩
      · intro entry hmem
        refine hnexts entry (by simp [List.mem_cons.mp hmem]) ?_
        rintro rfl
        exact (List.nodup_cons.mp hnodup).1 hmem
      · intro entry hmem
        refine hprevs entry (by rw [List.nil_append, List.cons_append]
                                exact List.mem_cons_of_mem _ hmem) ?_
        rintro rfl
        rcases List.mem_append.mp hmem with hmem | hmem
        · exact (List.nodup_cons.mp (List.nodup_cons.mp hnodup).2).1 hmem
        · rw [List.mem_singleton] at hmem
          exact hstop (by simp [hmem])
  | cons first left ih =>
    obtain ⟨hstart, hfirst, hleft⟩ := hleft
    rw [List.cons_append] at hnodup hstop
    obtain ⟨before, after, hbefore, hafter, hmemBefore, hmemAfter, hbridge⟩ :=
      ih hleft (List.nodup_cons.mp hnodup).2 fun hmem => hstop (List.mem_cons_of_mem _ hmem)
    refine ⟨before, after, hbefore, hafter, List.mem_cons_of_mem _ hmemBefore, hmemAfter, ?_⟩
    intro other hnext hprev hnexts hprevs
    have hstartNe : start ≠ before := by
      rintro rfl
      refine (List.nodup_cons.mp hnodup).1 ?_
      rcases List.mem_cons.mp hmemBefore with hmem | hmem
      · simp [hmem]
      · simp [hmem]
    have hfirstNe : first ≠ after := by
      rintro rfl
      rcases List.mem_append.mp hmemAfter with hmem | hmem
      · exact (List.nodup_cons.mp (List.nodup_cons.mp hnodup).2).1 (by simp [hmem])
      · exact hstop (by simp [List.mem_singleton.mp hmem])
    refine ⟨(hnexts start (by simp) hstartNe).trans hstart,
      (hprevs first (by simp) hfirstNe).trans hfirst, hbridge other hnext hprev ?_ ?_⟩
    · intro entry hmem
      exact hnexts entry (List.mem_cons_of_mem _ hmem)
    · intro entry hmem
      exact hprevs entry (by
        rw [List.cons_append, List.cons_append]
        exact List.mem_cons_of_mem _ hmem)

/-- What an operation on one ring leaves alone. -/
def Frame (links other : Links α) (touched : List α) : Prop :=
  ∀ cell ∉ touched, other.next cell = links.next cell ∧ other.prev cell = links.prev cell

theorem Ring.congr {links other : Links α} {head : α} {cells touched : List α}
    (hring : links.Ring head cells) (hframe : Frame links other touched)
    (hapart : ∀ cell ∈ head :: cells, cell ∉ touched) : other.Ring head cells := by
  refine ⟨hring.segment.congr (fun cell hmem => (hframe cell (hapart cell hmem)).1) ?_, hring.nodup⟩
  intro cell hmem
  refine (hframe cell (hapart cell ?_)).2
  rcases List.mem_append.mp hmem with hmem | hmem
  · simp [hmem]
  · simp [List.mem_singleton.mp hmem]

theorem Segment.linked {links : Links α} {start stop : α} {cells : List α}
    (hsegment : links.Segment start cells stop) {cell : α} (hmem : cell ∈ cells) :
    links.prev cell ≠ none := by
  induction cells generalizing start with
  | nil => exact absurd hmem (by simp)
  | cons first rest ih =>
    obtain ⟨-, hprev, hrest⟩ := hsegment
    rcases List.mem_cons.mp hmem with rfl | h
    · simp [hprev]
    · exact ih hrest h

theorem Ring.linked {links : Links α} {head cell : α} {cells : List α}
    (hring : links.Ring head cells) (hmem : cell ∈ cells) : links.prev cell ≠ none :=
  hring.segment.linked hmem

variable [DecidableEq α]

def setNext (links : Links α) (cell : α) (value : Option α) : Links α :=
  { links with next := fun other => if other = cell then value else links.next other }

def setPrev (links : Links α) (cell : α) (value : Option α) : Links α :=
  { links with prev := fun other => if other = cell then value else links.prev other }

@[simp] theorem setNext_next (links : Links α) (cell other : α) (value : Option α) :
    (links.setNext cell value).next other = if other = cell then value else links.next other := rfl

@[simp] theorem setNext_prev (links : Links α) (cell : α) (value : Option α) :
    (links.setNext cell value).prev = links.prev := rfl

@[simp] theorem setPrev_prev (links : Links α) (cell other : α) (value : Option α) :
    (links.setPrev cell value).prev other = if other = cell then value else links.prev other := rfl

@[simp] theorem setPrev_next (links : Links α) (cell : α) (value : Option α) :
    (links.setPrev cell value).next = links.next := rfl

/-- Link `cell` in right behind `head`. -/
def insertAfter (links : Links α) (head cell : α) : Option (Links α) := do
  let first ← links.next head
  let links := links.setPrev first (some cell)
  let links := links.setNext cell (links.next head)
  let links := links.setNext head (some cell)
  return links.setPrev cell (some head)

/-- Bridge the gap that `cell` leaves and clear its own links. -/
def remove (links : Links α) (cell : α) : Option (Links α) := do
  let before ← links.prev cell
  let links := links.setNext before (links.next cell)
  let after ← links.next cell
  let links := links.setPrev after (links.prev cell)
  return (links.setPrev cell none).setNext cell none

/-- Close the ring of `head` around nothing, whatever it held. -/
def reset (links : Links α) (head : α) : Links α :=
  (links.setPrev head (some head)).setNext head (some head)

theorem Ring.insertAfter {links : Links α} {head cell : α} {cells : List α}
    (hring : links.Ring head cells) (hfresh : cell ∉ head :: cells) :
    ∃ other, links.insertAfter head cell = some other ∧ other.Ring head (cell :: cells) ∧
      Frame links other (cell :: head :: cells) := by
  have hfirst := hring.segment.first
  set first := (cells ++ [head]).head (by simp) with hdef
  have hcellHead : cell ≠ head := fun h => hfresh (by simp [h])
  have hmemFirst : first ∈ head :: cells := by
    have : first ∈ cells ++ [head] := List.head_mem _
    simpa [or_comm] using this
  have hcellFirst : cell ≠ first := fun h => hfresh (h ▸ hmemFirst)
  refine ⟨_, by simp [Links.insertAfter, hfirst]; rfl, ⟨?_, ?_⟩, ?_⟩
  · refine ⟨by simp, by simp, ?_⟩
    cases cells with
    | nil =>
      have hhead : first = head := rfl
      simp [Segment, hcellHead, hhead]
    | cons other rest =>
      have hother : first = other := rfl
      have hnodup := hring.nodup
      have hotherHead : other ≠ head := fun h => by simp [h] at hnodup
      refine ⟨by simp [hcellHead, hother], by simp [hother, hother ▸ hcellFirst.symm], ?_⟩
      refine hring.segment.2.2.congr ?_ ?_
      · intro entry hmem
        have hne : entry ≠ cell := fun h => hfresh (by simp [← h, List.mem_cons.mp hmem])
        have hneHead : entry ≠ head := fun h => (List.nodup_cons.mp hnodup).1 (h ▸ hmem)
        simp [hne, hneHead]
      · intro entry hmem
        have hmem' : entry ∈ head :: rest := by simpa [or_comm] using hmem
        have hne : entry ≠ cell := by
          rintro rfl
          rcases List.mem_cons.mp hmem' with h | h
          · exact hcellHead h
          · exact hfresh (by simp [h])
        have hneOther : entry ≠ first := by
          rintro rfl
          rcases List.mem_cons.mp hmem' with h | h
          · exact hotherHead (hother ▸ h)
          · exact (List.nodup_cons.mp (List.nodup_cons.mp hnodup).2).1 (hother ▸ h)
        simp [hne, hneOther]
  · have hnodup := hring.nodup
    rw [List.nodup_cons] at hnodup ⊢
    simp only [List.mem_cons, not_or] at hfresh ⊢
    exact ⟨⟨hcellHead.symm, hnodup.1⟩, List.nodup_cons.mpr ⟨hfresh.2, hnodup.2⟩⟩
  · intro other hother
    have hne : other ≠ cell := fun h => hother (by simp [h])
    have hneHead : other ≠ head := fun h => hother (by simp [h])
    have hneFirst : other ≠ first := fun h => hother (List.mem_cons_of_mem _ (h ▸ hmemFirst))
    simp [hne, hneHead, hneFirst]

theorem Ring.remove {links : Links α} {head cell : α} {left right : List α}
    (hring : links.Ring head (left ++ cell :: right)) :
    ∃ other, links.remove cell = some other ∧ other.Ring head (left ++ right) ∧
      other.next cell = none ∧ other.prev cell = none ∧
      Frame links other (head :: (left ++ cell :: right)) := by
  have hnodup := hring.nodup
  have hshort : (head :: (left ++ right)).Nodup :=
    hnodup.sublist ((List.Sublist.append_left (List.sublist_cons_self _ _) _).cons_cons _)
  have hcellHead : cell ≠ head := by
    rintro rfl
    exact (List.nodup_cons.mp hnodup).1 (by simp)
  have hcellOut : cell ∉ left ++ right := by
    have := (List.nodup_cons.mp hnodup).2
    rw [List.nodup_middle] at this
    exact (List.nodup_cons.mp this).1
  obtain ⟨hleft, hright⟩ := Segment.append.mp hring.segment
  obtain ⟨before, after, hbefore, hafter, hmemBefore, hmemAfter, hbridge⟩ :=
    hleft.bridge hright hshort (List.nodup_cons.mp hshort).1
  have hbeforeNe : before ≠ cell := by
    rintro rfl
    rcases List.mem_cons.mp hmemBefore with h | h
    · exact hcellHead h
    · exact hcellOut (by simp [h])
  have hafterNe : after ≠ cell := by
    rintro rfl
    rcases List.mem_append.mp hmemAfter with h | h
    · exact hcellOut (by simp [h])
    · exact hcellHead (List.mem_singleton.mp h)
  refine ⟨_, by simp [Links.remove, hbefore, hafter]; rfl,
    ⟨hbridge _ (by simp [hbeforeNe]) (by simp [hafterNe]) ?_ ?_, hshort⟩,
    by simp, by simp, ?_⟩
  · intro entry hmem hne
    have hneCell : entry ≠ cell := by
      rintro rfl
      rcases List.mem_cons.mp hmem with h | h
      · exact hcellHead h
      · exact hcellOut h
    simp [hne, hneCell]
  · intro entry hmem hne
    have hneCell : entry ≠ cell := by
      rintro rfl
      rcases List.mem_append.mp hmem with h | h
      · exact hcellOut h
      · exact hcellHead (List.mem_singleton.mp h)
    simp [hne, hneCell]
  · intro other hother
    have hne : other ≠ cell := fun h => hother (by simp [h])
    have hneBefore : other ≠ before := by
      rintro rfl
      rcases List.mem_cons.mp hmemBefore with h | h
      · exact hother (by simp [h])
      · exact hother (by simp [h])
    have hneAfter : other ≠ after := by
      rintro rfl
      rcases List.mem_append.mp hmemAfter with h | h
      · exact hother (by simp [h])
      · exact hother (by simp [List.mem_singleton.mp h])
    simp [hne, hneBefore, hneAfter]

private theorem reset_ring (links : Links α) (head : α) : (links.reset head).Ring head [] := by
  refine ⟨?_, by simp⟩
  simp [Segment, reset]

theorem reset_frame (links : Links α) (head : α) : Frame links (links.reset head) [head] := by
  intro cell hmem
  have hne : cell ≠ head := fun h => hmem (by simp [h])
  simp [reset, hne]

/-- Following `next` from `node` meets exactly `cells` before it meets `stop`. -/
def Walk (links : Links α) : α → List α → α → Prop
  | node, [], stop => node = stop
  | node, cell :: rest, stop =>
      node = cell ∧ ∃ after, links.next cell = some after ∧ Walk links after rest stop

omit [DecidableEq α] in
theorem Segment.walk {links : Links α} {start stop : α} {cells : List α}
    (hsegment : links.Segment start cells stop) :
    ∃ first, links.next start = some first ∧ links.Walk first cells stop := by
  induction cells generalizing start with
  | nil => exact ⟨stop, hsegment.1, rfl⟩
  | cons cell rest ih => exact ⟨cell, hsegment.1, rfl, ih hsegment.2.2⟩

omit [DecidableEq α] in
theorem Walk.congr {links other : Links α} {node stop : α} {cells : List α}
    (hwalk : links.Walk node cells stop)
    (hnext : ∀ cell ∈ cells, other.next cell = links.next cell) : other.Walk node cells stop := by
  induction cells generalizing node with
  | nil => exact hwalk
  | cons cell rest ih =>
    obtain ⟨hnode, after, hafter, hrest⟩ := hwalk
    exact ⟨hnode, after, (hnext cell (by simp)).trans hafter,
      ih hrest fun entry hmem => hnext entry (by simp [hmem])⟩

/-- Following `next` from `start` meets exactly `cells` and then a null pointer. -/
def Chain (links : Links α) : Option α → List α → Prop
  | start, [] => start = none
  | start, cell :: rest => start = some cell ∧ Chain links (links.next cell) rest

omit [DecidableEq α] in
theorem Chain.congr {links other : Links α} {start : Option α} {cells : List α}
    (hchain : links.Chain start cells) (hnext : ∀ cell ∈ cells, other.next cell = links.next cell) :
    other.Chain start cells := by
  induction cells generalizing start with
  | nil => exact hchain
  | cons cell rest ih =>
    refine ⟨hchain.1, ih ?_ fun entry hmem => hnext entry (by simp [hmem])⟩
    rw [hnext cell (by simp)]
    exact hchain.2

variable {ι : Type}

/-- Rings with different heads share no cell. Only the rings singled out by
`intact` have their links in order; the others are being taken apart. -/
structure Family (links : Links α) (head : ι → α) (cells : ι → List α) (intact : ι → Prop) :
    Prop where
  ring : ∀ i, intact i → links.Ring (head i) (cells i)
  apart : ∀ i j, i ≠ j → ∀ cell ∈ head i :: cells i, cell ∉ head j :: cells j

variable {links : Links α} {head : ι → α} {cells : ι → List α} {intact : ι → Prop}

omit [DecidableEq α] in
theorem Family.congr (hfamily : Family links head cells intact) {other : Links α}
    {touched : List α} (hframe : Frame links other touched)
    (hapart : ∀ i, ∀ cell ∈ head i :: cells i, cell ∉ touched) :
    Family other head cells intact where
  ring := fun i hi => (hfamily.ring i hi).congr hframe (hapart i)
  apart := hfamily.apart

variable [DecidableEq ι]

omit [DecidableEq α] in
theorem mem_update_cells {i j : ι} {list : List α} {cell : α} :
    cell ∈ Function.update cells i list j ↔ if j = i then cell ∈ list else cell ∈ cells j := by
  by_cases h : j = i
  · subst h
    simp
  · simp [h]

omit [DecidableEq α] in
theorem Family.update (hfamily : Family links head cells intact) {other : Links α} {i : ι}
    {list touched : List α} (hring : other.Ring (head i) list) (hframe : Frame links other touched)
    (htouched : ∀ j, j ≠ i → ∀ cell ∈ head j :: cells j, cell ∉ touched)
    (hlist : ∀ j, j ≠ i → ∀ cell ∈ list, cell ∉ head j :: cells j) :
    Family other head (Function.update cells i list) intact where
  ring := by
    intro j hj
    by_cases hji : j = i
    · subst hji
      rw [Function.update_self]
      exact hring
    · rw [Function.update_of_ne hji]
      exact (hfamily.ring j hj).congr hframe (htouched j hji)
  apart := by
    intro j k hjk cell hmem hother
    by_cases hji : j = i
    · subst hji
      rw [Function.update_self] at hmem
      rw [Function.update_of_ne hjk.symm] at hother
      rcases List.mem_cons.mp hmem with h | h
      · exact hfamily.apart j k hjk cell (by simp [h]) hother
      · exact hlist k hjk.symm cell h hother
    · rw [Function.update_of_ne hji] at hmem
      by_cases hki : k = i
      · subst hki
        rw [Function.update_self] at hother
        rcases List.mem_cons.mp hother with h | h
        · exact hfamily.apart k j hjk.symm cell (by simp [h]) hmem
        · exact hlist j hjk cell h hmem
      · rw [Function.update_of_ne hki] at hother
        exact hfamily.apart j k hjk cell hmem hother

theorem Family.insertAfter (hfamily : Family links head cells intact) {i : ι} (hi : intact i)
    {cell : α} (hfresh : ∀ j, cell ∉ head j :: cells j) :
    ∃ other, links.insertAfter (head i) cell = some other ∧
      Family other head (Function.update cells i (cell :: cells i)) intact ∧
      Frame links other (cell :: head i :: cells i) := by
  obtain ⟨other, hsome, hring, hframe⟩ := (hfamily.ring i hi).insertAfter (hfresh i)
  refine ⟨other, hsome, hfamily.update hring hframe ?_ ?_, hframe⟩
  · intro j hji entry hmem htouched
    rcases List.mem_cons.mp htouched with h | h
    · exact hfresh j (h ▸ hmem)
    · exact hfamily.apart j i hji entry hmem h
  · intro j hji entry hmem hother
    rcases List.mem_cons.mp hmem with h | h
    · exact hfresh j (h ▸ hother)
    · exact hfamily.apart i j (Ne.symm hji) entry (by simp [h]) hother

theorem Family.remove (hfamily : Family links head cells intact) {i : ι} (hi : intact i)
    {cell : α} {left right : List α} (hcells : cells i = left ++ cell :: right) :
    ∃ other, links.remove cell = some other ∧
      Family other head (Function.update cells i (left ++ right)) intact ∧
      other.next cell = none ∧ other.prev cell = none ∧
      Frame links other (head i :: cells i) := by
  obtain ⟨other, hsome, hring, hnext, hprev, hframe⟩ := (hcells ▸ hfamily.ring i hi).remove
  rw [← hcells] at hframe
  refine ⟨other, hsome, hfamily.update hring hframe ?_ ?_, hnext, hprev, hframe⟩
  · intro j hji entry hmem htouched
    exact hfamily.apart j i hji entry hmem htouched
  · intro j hji entry hmem hother
    refine hfamily.apart i j (Ne.symm hji) entry ?_ hother
    rw [hcells]
    rcases List.mem_append.mp hmem with h | h
    · simp [h]
    · simp [h]

omit [DecidableEq α] in
theorem Family.shrink (hfamily : Family links head cells intact) {i : ι} (hi : ¬ intact i)
    {list : List α} (hlist : ∀ cell ∈ list, cell ∈ cells i) :
    Family links head (Function.update cells i list) intact where
  ring := by
    intro j hj
    have hji : j ≠ i := fun h => hi (h ▸ hj)
    rw [Function.update_of_ne hji]
    exact hfamily.ring j hj
  apart := by
    have hsub : ∀ m cell, cell ∈ head m :: Function.update cells i list m →
        cell ∈ head m :: cells m := by
      intro m cell hmem
      rw [List.mem_cons, mem_update_cells] at hmem
      rcases hmem with h | h
      · simp [h]
      · split_ifs at h with hmi
        · exact List.mem_cons_of_mem _ (hmi ▸ hlist cell h)
        · exact List.mem_cons_of_mem _ h
    intro j k hjk cell hmem hother
    exact hfamily.apart j k hjk cell (hsub j cell hmem) (hsub k cell hother)

theorem Family.reset (hfamily : Family links head cells intact) (i : ι) :
    Family (links.reset (head i)) head (Function.update cells i [])
      (fun j => intact j ∨ j = i) where
  ring := by
    intro j hj
    by_cases hji : j = i
    · subst hji
      rw [Function.update_self]
      exact reset_ring links (head j)
    · rw [Function.update_of_ne hji]
      refine (hfamily.ring j (hj.resolve_right hji)).congr (reset_frame links (head i)) ?_
      intro cell hmem htouched
      rw [List.mem_singleton.mp htouched] at hmem
      exact hfamily.apart i j (Ne.symm hji) (head i) (by simp) hmem
  apart := by
    have hsub : ∀ m cell, cell ∈ head m :: Function.update cells i [] m →
        cell ∈ head m :: cells m := by
      intro m cell hmem
      rw [List.mem_cons, mem_update_cells] at hmem
      rcases hmem with h | h
      · simp [h]
      · split_ifs at h
        · exact absurd h (by simp)
        · exact List.mem_cons_of_mem _ h
    intro j k hjk cell hmem hother
    exact hfamily.apart j k hjk cell (hsub j cell hmem) (hsub k cell hother)

end Links

end Libsax.Lib
