import Libsax.Lib.Ring

/-! Lists threaded through the links of their members that return to a head. The members lead back
to the head as well, but what leads back from the head itself is not kept. -/
namespace Libsax.Lib.Links

variable {α : Type} {links other : Links α} {start stop head cell place before : α}
  {cells left right : List α}

/-- The cells lie between `start` and `stop`; where `stop` leads back to is open. -/
def Thread (links : Links α) : α → List α → α → Prop
  | start, [], stop => links.next start = some stop
  | start, cell :: rest, stop =>
      links.next start = some cell ∧ links.prev cell = some start ∧ Thread links cell rest stop

/-- The list of `head` holds exactly `cells`, in this order. -/
structure Loop (links : Links α) (head : α) (cells : List α) : Prop where
  thread : links.Thread head cells head
  nodup : (head :: cells).Nodup

theorem Thread.congr (hthread : links.Thread start cells stop)
    (hnext : ∀ cell ∈ start :: cells, other.next cell = links.next cell)
    (hprev : ∀ cell ∈ cells, other.prev cell = links.prev cell) : other.Thread start cells stop := by
  induction cells generalizing start with
  | nil => exact (hnext start List.mem_cons_self).trans hthread
  | cons cell rest ih =>
    obtain ⟨hstart, hcell, hrest⟩ := hthread
    exact ⟨(hnext start List.mem_cons_self).trans hstart,
      (hprev cell List.mem_cons_self).trans hcell,
      ih hrest (fun entry hmem => hnext entry (List.mem_cons_of_mem _ hmem))
        fun entry hmem => hprev entry (List.mem_cons_of_mem _ hmem)⟩

theorem Thread.leads (hthread : links.Thread start cells stop) :
    links.next start = some (cells.headD stop) := by
  cases cells with
  | nil => exact hthread
  | cons cell rest => exact hthread.1

theorem Thread.splice (hthread : links.Thread start (left ++ cell :: right) stop)
    (hnodup : (start :: left).Nodup) :
    ∃ before, links.prev cell = some before ∧ before ∈ start :: left ∧
      links.Thread cell right stop ∧
      ∀ (other : Links α) (rest : List α),
        (∀ entry ∈ start :: left, entry ≠ before → other.next entry = links.next entry) →
        (∀ entry ∈ left, other.prev entry = links.prev entry) →
        other.Thread before rest stop → other.Thread start (left ++ rest) stop := by
  induction left generalizing start with
  | nil => exact ⟨start, hthread.2.1, List.mem_cons_self, hthread.2.2, fun _ _ _ _ hrest => hrest⟩
  | cons entry left ih =>
    obtain ⟨hstart, hentry, hrest⟩ := hthread
    obtain ⟨hnot, hnodup⟩ := List.nodup_cons.mp hnodup
    obtain ⟨before, hprev, hmem, hbehind, hsplice⟩ := ih hrest hnodup
    refine ⟨before, hprev, List.mem_cons_of_mem _ hmem, hbehind, fun other rest hnext hback hnew => ?_⟩
    have hne : start ≠ before := fun heq => hnot (heq ▸ hmem)
    exact ⟨(hnext start List.mem_cons_self hne).trans hstart,
      (hback entry List.mem_cons_self).trans hentry,
      hsplice other rest (fun x hx => hnext x (List.mem_cons_of_mem _ hx))
        (fun x hx => hback x (List.mem_cons_of_mem _ hx)) hnew⟩

theorem Thread.from (hthread : links.Thread cell cells stop)
    (hnext : other.next place = links.next cell)
    (hprev : ∀ entry ∈ cells, links.next cell = some entry → other.prev entry = some place)
    (hnexts : ∀ entry ∈ cells, other.next entry = links.next entry)
    (hprevs : ∀ entry ∈ cells, links.next cell ≠ some entry → other.prev entry = links.prev entry)
    (hnodup : cells.Nodup) : other.Thread place cells stop := by
  cases cells with
  | nil => exact hnext.trans hthread
  | cons entry rest =>
    obtain ⟨hcell, -, hrest⟩ := hthread
    refine ⟨hnext.trans hcell, hprev entry List.mem_cons_self hcell, hrest.congr hnexts ?_⟩
    intro x hx
    refine hprevs x (List.mem_cons_of_mem _ hx) ?_
    rw [hcell]
    intro heq
    exact (List.nodup_cons.mp hnodup).1 (Option.some.inj heq ▸ hx)

namespace Loop

theorem push (hloop : links.Loop head cells) (hfresh : cell ∉ head :: cells)
    (hhead : other.next head = some cell) (hcell : other.next cell = links.next head)
    (hback : other.prev cell = some head)
    (hfirst : ∀ entry ∈ cells, links.next head = some entry → other.prev entry = some cell)
    (hnexts : ∀ entry ∈ cells, other.next entry = links.next entry)
    (hprevs : ∀ entry ∈ cells, links.next head ≠ some entry →
      other.prev entry = links.prev entry) : other.Loop head (cell :: cells) := by
  obtain ⟨hnot, hnodup⟩ := List.nodup_cons.mp hloop.nodup
  refine ⟨⟨hhead, hback, hloop.thread.from hcell hfirst hnexts hprevs hnodup⟩, ?_⟩
  rw [List.mem_cons, not_or] at hfresh
  exact List.nodup_cons.mpr ⟨fun hmem => (List.mem_cons.mp hmem).elim (fun heq => hfresh.1 heq.symm)
    hnot, List.nodup_cons.mpr ⟨hfresh.2, hnodup⟩⟩

/-- What is on both sides of a cell. -/
structure Around (links : Links α) (head : α) (left : List α) (cell : α) (right : List α)
    (before after : α) : Prop where
  prev : links.prev cell = some before
  next : links.next cell = some after
  before_mem : before ∈ head :: left
  after_mem : after ∈ head :: right
  others : (head :: (left ++ right)).Nodup
  behind : links.Thread cell right head
  splice : ∀ (other : Links α) (rest : List α),
    (∀ entry ∈ head :: left, entry ≠ before → other.next entry = links.next entry) →
    (∀ entry ∈ left, other.prev entry = links.prev entry) →
    other.Thread before rest head → other.Thread head (left ++ rest) head

theorem around (hloop : links.Loop head (left ++ cell :: right)) :
    ∃ before after, Around links head left cell right before after := by
  have hnodup := hloop.nodup.sublist (((List.sublist_cons_self cell right).append_left left).cons_cons head)
  have hleft := hnodup.sublist ((List.sublist_append_left left right).cons_cons head)
  obtain ⟨before, hprev, hbefore, hbehind, hsplice⟩ := hloop.thread.splice hleft
  refine ⟨before, right.headD head, hprev, hbehind.leads, hbefore, ?_, hnodup, hbehind, hsplice⟩
  cases right with
  | nil => exact List.mem_cons_self
  | cons entry rest => exact List.mem_cons_of_mem _ List.mem_cons_self

namespace Around

variable {after : α}

private theorem right_ne_before (haround : Around links head left cell right before after)
    {entry : α}
    (hmem : entry ∈ right) : entry ≠ before := by
  rintro rfl
  obtain ⟨hnot, hmembers⟩ := List.nodup_cons.mp haround.others
  rcases List.mem_cons.mp haround.before_mem with rfl | hleft
  · exact hnot (List.mem_append_right _ hmem)
  · exact (List.nodup_append.mp hmembers).2.2 entry hleft entry hmem rfl

private theorem left_ne_after (haround : Around links head left cell right before after) {entry : α}
    (hmem : entry ∈ left) : entry ≠ after := by
  rintro rfl
  obtain ⟨hnot, hmembers⟩ := List.nodup_cons.mp haround.others
  rcases List.mem_cons.mp haround.after_mem with rfl | hright
  · exact hnot (List.mem_append_left _ hmem)
  · exact (List.nodup_append.mp hmembers).2.2 entry hmem entry hright rfl

private theorem resume (haround : Around links head left cell right before after)
    (hnext : other.next place = some after) (hback : after ≠ head → other.prev after = some place)
    (hnexts : ∀ entry ∈ right, other.next entry = links.next entry)
    (hprevs : ∀ entry ∈ right, entry ≠ after → other.prev entry = links.prev entry) :
    other.Thread place right head := by
  obtain ⟨hnot, hmembers⟩ := List.nodup_cons.mp haround.others
  refine haround.behind.from (hnext.trans haround.next.symm) ?_ hnexts ?_
    (List.nodup_append.mp hmembers).2.1
  · intro entry hmem heq
    obtain rfl := Option.some.inj (haround.next.symm.trans heq)
    exact hback fun hhead => hnot (hhead ▸ List.mem_append_right _ hmem)
  · intro entry hmem hne
    refine hprevs entry hmem ?_
    rintro rfl
    exact hne haround.next

theorem unlink (haround : Around links head left cell right before after)
    (hnext : other.next before = some after) (hback : after ≠ head → other.prev after = some before)
    (hnexts : ∀ entry ∈ head :: (left ++ right), entry ≠ before →
      other.next entry = links.next entry)
    (hprevs : ∀ entry ∈ left ++ right, entry ≠ after → other.prev entry = links.prev entry) :
    other.Loop head (left ++ right) := by
  refine ⟨haround.splice other right ?_ ?_ (haround.resume hnext hback ?_ ?_), haround.others⟩
  · intro entry hmem hne
    exact hnexts entry (List.cons_subset_cons _ (List.subset_append_left left right) hmem) hne
  · intro entry hmem
    exact hprevs entry (List.mem_append_left _ hmem) (haround.left_ne_after hmem)
  · intro entry hmem
    exact hnexts entry (List.mem_cons_of_mem _ (List.mem_append_right _ hmem))
      (haround.right_ne_before hmem)
  · intro entry hmem hne
    exact hprevs entry (List.mem_append_right _ hmem) hne

theorem replace (haround : Around links head left cell right before after)
    (hfresh : place ∉ head :: (left ++ right)) (hnext : other.next before = some place)
    (hprev : other.prev place = some before) (hplace : other.next place = some after)
    (hback : after ≠ head → other.prev after = some place)
    (hnexts : ∀ entry ∈ head :: (left ++ right), entry ≠ before →
      other.next entry = links.next entry)
    (hprevs : ∀ entry ∈ left ++ right, entry ≠ after → other.prev entry = links.prev entry) :
    other.Loop head (left ++ place :: right) := by
  refine ⟨haround.splice other (place :: right) ?_ ?_
    ⟨hnext, hprev, haround.resume hplace hback ?_ ?_⟩, ?_⟩
  · intro entry hmem hne
    exact hnexts entry (List.cons_subset_cons _ (List.subset_append_left left right) hmem) hne
  · intro entry hmem
    exact hprevs entry (List.mem_append_left _ hmem) (haround.left_ne_after hmem)
  · intro entry hmem
    exact hnexts entry (List.mem_cons_of_mem _ (List.mem_append_right _ hmem))
      (haround.right_ne_before hmem)
  · intro entry hmem hne
    exact hprevs entry (List.mem_append_right _ hmem) hne
  · obtain ⟨hnot, hmembers⟩ := List.nodup_cons.mp haround.others
    rw [List.mem_cons, not_or] at hfresh
    refine List.nodup_cons.mpr ⟨fun hmem => ?_, List.nodup_middle.mpr
      (List.nodup_cons.mpr ⟨hfresh.2, hmembers⟩)⟩
    rcases List.mem_append.mp hmem with hleft | hright
    · exact hnot (List.mem_append_left _ hleft)
    · rcases List.mem_cons.mp hright with heq | hright
      · exact hfresh.1 heq.symm
      · exact hnot (List.mem_append_right _ hright)

end Around

end Loop

end Libsax.Lib.Links
