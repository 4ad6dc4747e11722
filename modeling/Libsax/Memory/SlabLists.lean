import Libsax.Memory.Slab
import Libsax.Lib.Thread
import Mathlib.Data.List.Perm.Subperm

/-! The lists of a slab pool: the runs of free pages, and for each slot the pages that have a chunk
of its size. -/
namespace Libsax.Memory.SlabPool

open Libsax.Lib Libsax.Lib.Links

variable {pool pool' : SlabPool} {lists : Option Nat → List Nat} {h : Option Nat} {i j : Nat}
  {left right : List Nat}

def links (pool : SlabPool) : Links SlabRef :=
  ⟨fun ref => (pool.node ref).next, fun ref => (pool.node ref).prev.1⟩

def headRef : Option Nat → SlabRef
  | none => .free
  | some slot => .slot slot

def IsHead (sizes : SlabSizes) : Option Nat → Prop
  | none => True
  | some slot => slot < sizes.pagesizeShift - minShift

def typeOf (sizes : SlabSizes) : Option Nat → SlabType
  | none => .page
  | some slot =>
    if slot + minShift < sizes.exactShift then .small
    else if slot + minShift = sizes.exactShift then .exact
    else .big

theorem typeOf_small {sizes : SlabSizes} {slot : Nat} (hsmall : slot + minShift < sizes.exactShift) :
    typeOf sizes (some slot) = .small := if_pos hsmall

theorem typeOf_exact {sizes : SlabSizes} {slot : Nat} (hexact : slot + minShift = sizes.exactShift) :
    typeOf sizes (some slot) = .exact := (if_neg (by omega)).trans (if_pos hexact)

theorem typeOf_big {sizes : SlabSizes} {slot : Nat} (hbig : sizes.exactShift < slot + minShift) :
    typeOf sizes (some slot) = .big := (if_neg (by omega)).trans (if_neg (by omega))

structure Lists (pool : SlabPool) (lists : Option Nat → List Nat) : Prop where
  loop : ∀ h, IsHead pool.sizes h → pool.links.Loop (headRef h) ((lists h).map .page)
  head : ∀ h, ∀ i ∈ lists h, IsHead pool.sizes h
  apart : ∀ h h' i, i ∈ lists h → i ∈ lists h' → h = h'
  inside : ∀ h, ∀ i ∈ lists h, i < pool.pages
  type : ∀ h, ∀ i ∈ lists h, (pool.node (.page i)).prev.2 = typeOf pool.sizes h

private theorem headRef_inj {h h' : Option Nat} (heq : headRef h = headRef h') : h = h' := by
  cases h <;> cases h' <;> cases heq <;> rfl

theorem headRef_ne_page (h : Option Nat) (i : Nat) : headRef h ≠ .page i := by
  cases h <;> exact SlabRef.noConfusion

theorem page_inj : Function.Injective SlabRef.page := fun _ _ heq => SlabRef.page.inj heq

@[simp] theorem mem_pages {i : Nat} {list : List Nat} :
    SlabRef.page i ∈ list.map .page ↔ i ∈ list :=
  List.mem_map_of_injective page_inj

theorem deref_page (hi : i < pool.pages) : pool.deref (some (.page i)) = some (.page i) := if_pos hi

private theorem deref_head (hhead : IsHead pool.sizes h) :
    pool.deref (some (headRef h)) = some (headRef h) := by
  cases h with
  | none => rfl
  | some slot => exact if_pos hhead

theorem Lists.deref (hlists : Lists pool lists) (hhead : IsHead pool.sizes h) {ref : SlabRef}
    (hmem : ref ∈ headRef h :: (lists h).map .page) : pool.deref (some ref) = some ref := by
  rcases List.mem_cons.mp hmem with rfl | hpage
  · exact deref_head hhead
  · obtain ⟨i, hi, rfl⟩ := List.mem_map.mp hpage
    exact deref_page (hlists.inside h i hi)

theorem setNode_node (pool : SlabPool) (ref other : SlabRef) (page : SlabPage) :
    (pool.setNode ref page).node other = if other = ref then page else pool.node other :=
  Function.update_apply _ _ _ _

section Fields

variable (pool : SlabPool) (ref other : SlabRef) (next : Option SlabRef)
  (prev : Option SlabRef × SlabType) (slab : BitVec 64)

@[simp] theorem setNext_next : ((pool.setNext ref next).node other).next =
    if other = ref then next else (pool.node other).next := by
  unfold setNext
  rw [setNode_node]
  split <;> rfl

@[simp] theorem setNext_prev : ((pool.setNext ref next).node other).prev =
    (pool.node other).prev := by
  unfold setNext
  rw [setNode_node]
  split
  · next heq => rw [heq]
  · rfl

@[simp] theorem setNext_slab : ((pool.setNext ref next).node other).slab =
    (pool.node other).slab := by
  unfold setNext
  rw [setNode_node]
  split
  · next heq => rw [heq]
  · rfl

@[simp] theorem setPrev_prev : ((pool.setPrev ref prev).node other).prev =
    if other = ref then prev else (pool.node other).prev := by
  unfold setPrev
  rw [setNode_node]
  split <;> rfl

@[simp] theorem setPrev_next : ((pool.setPrev ref prev).node other).next =
    (pool.node other).next := by
  unfold setPrev
  rw [setNode_node]
  split
  · next heq => rw [heq]
  · rfl

@[simp] theorem setPrev_slab : ((pool.setPrev ref prev).node other).slab =
    (pool.node other).slab := by
  unfold setPrev
  rw [setNode_node]
  split
  · next heq => rw [heq]
  · rfl

@[simp] theorem setSlab_slab : ((pool.setSlab ref slab).node other).slab =
    if other = ref then slab else (pool.node other).slab := by
  unfold setSlab
  rw [setNode_node]
  split <;> rfl

@[simp] theorem setSlab_next : ((pool.setSlab ref slab).node other).next =
    (pool.node other).next := by
  unfold setSlab
  rw [setNode_node]
  split
  · next heq => rw [heq]
  · rfl

@[simp] theorem setSlab_prev : ((pool.setSlab ref slab).node other).prev =
    (pool.node other).prev := by
  unfold setSlab
  rw [setNode_node]
  split
  · next heq => rw [heq]
  · rfl

end Fields

/-- What never changes. -/
structure Kept (pool pool' : SlabPool) : Prop where
  sizes : pool'.sizes = pool.sizes
  pages : pool'.pages = pool.pages
  extent : pool'.extent = pool.extent

/-- What changes of links leave alone. -/
structure Same (pool pool' : SlabPool) : Prop where
  sizes : pool'.sizes = pool.sizes
  pages : pool'.pages = pool.pages
  extent : pool'.extent = pool.extent
  bitmap : pool'.bitmap = pool.bitmap
  slab : ∀ ref, (pool'.node ref).slab = (pool.node ref).slab

/-- The links of the pages and of the heads that do not belong to one list. -/
structure Elsewhere (pool pool' : SlabPool) (h : Option Nat) (list : List Nat) : Prop where
  page : ∀ i, i ∉ list → pool'.node (.page i) = pool.node (.page i)
  head : ∀ h', h' ≠ h → pool'.node (headRef h') = pool.node (headRef h')

theorem Lists.update (hlists : Lists pool lists) (hsizes : pool'.sizes = pool.sizes)
    (hpages : pool'.pages = pool.pages) (hhead : IsHead pool.sizes h) {list touched : List Nat}
    (hloop : pool'.links.Loop (headRef h) (list.map .page))
    (helsewhere : Elsewhere pool pool' h touched)
    (htouched : ∀ h', h' ≠ h → ∀ i ∈ lists h', i ∉ touched)
    (hnew : ∀ i ∈ list, i < pool.pages ∧ (pool'.node (.page i)).prev.2 = typeOf pool.sizes h ∧
      ∀ h', h' ≠ h → i ∉ lists h') :
    Lists pool' (Function.update lists h list) where
  loop h' hh' := by
    by_cases heq : h' = h
    · subst heq
      rw [Function.update_self]
      exact hloop
    · rw [Function.update_of_ne heq]
      have hold := hlists.loop h' (hsizes ▸ hh')
      refine ⟨hold.thread.congr (fun ref href => ?_) (fun ref href => ?_), hold.nodup⟩
      · rcases List.mem_cons.mp href with rfl | hpage
        · exact congrArg SlabPage.next (helsewhere.head h' heq)
        · obtain ⟨i, hi, rfl⟩ := List.mem_map.mp hpage
          exact congrArg SlabPage.next (helsewhere.page i (htouched h' heq i hi))
      · obtain ⟨i, hi, rfl⟩ := List.mem_map.mp href
        exact congrArg (fun page => page.prev.1) (helsewhere.page i (htouched h' heq i hi))
  head h' i hi := by
    rw [hsizes]
    by_cases heq : h' = h
    · exact heq ▸ hhead
    · rw [Function.update_of_ne heq] at hi
      exact hlists.head h' i hi
  apart h₁ h₂ i hfirst hsecond := by
    by_cases heq₁ : h₁ = h
    · by_cases heq₂ : h₂ = h
      · rw [heq₁, heq₂]
      · rw [heq₁, Function.update_self] at hfirst
        rw [Function.update_of_ne heq₂] at hsecond
        exact absurd hsecond ((hnew i hfirst).2.2 h₂ heq₂)
    · rw [Function.update_of_ne heq₁] at hfirst
      by_cases heq₂ : h₂ = h
      · rw [heq₂, Function.update_self] at hsecond
        exact absurd hfirst ((hnew i hsecond).2.2 h₁ heq₁)
      · rw [Function.update_of_ne heq₂] at hsecond
        exact hlists.apart h₁ h₂ i hfirst hsecond
  inside h' i hi := by
    rw [hpages]
    by_cases heq : h' = h
    · rw [heq, Function.update_self] at hi
      exact (hnew i hi).1
    · rw [Function.update_of_ne heq] at hi
      exact hlists.inside h' i hi
  type h' i hi := by
    rw [hsizes]
    by_cases heq : h' = h
    · rw [heq, Function.update_self] at hi
      exact heq ▸ (hnew i hi).2.1
    · rw [Function.update_of_ne heq] at hi
      rw [helsewhere.page i (htouched h' heq i hi)]
      exact hlists.type h' i hi

/-- A page between those on both sides of it, where the pointers in its node lead. -/
structure Placed (pool : SlabPool) (h : Option Nat) (left : List Nat) (i : Nat) (right : List Nat)
    (before after : SlabRef) : Prop where
  around : Loop.Around pool.links (headRef h) (left.map .page) (.page i) (right.map .page) before after
  prev : (pool.node (.page i)).prev = (some before, typeOf pool.sizes h)
  next : (pool.node (.page i)).next = some after
  before_mem : before ∈ headRef h :: (left ++ right).map SlabRef.page
  after_mem : after ∈ headRef h :: (left ++ right).map SlabRef.page
  before_deref : pool.deref (some before) = some before
  after_deref : pool.deref (some after) = some after
  before_ne : before ≠ .page i
  after_ne : after ≠ .page i

theorem Lists.mem_of_others (hlist : lists h = left ++ i :: right) (hj : j ∈ left ++ right) :
    j ∈ lists h := by
  rw [hlist]
  exact ((List.sublist_cons_self i right).append_left left).subset hj

theorem Lists.placed (hlists : Lists pool lists) (hlist : lists h = left ++ i :: right) :
    ∃ before after, Placed pool h left i right before after := by
  have hmem : i ∈ lists h := hlist ▸ List.mem_append_right _ List.mem_cons_self
  have hhead := hlists.head h i hmem
  have hloop := hlists.loop h hhead
  rw [hlist, List.map_append, List.map_cons] at hloop
  have hnot : SlabRef.page i ∉ (left ++ right).map SlabRef.page := by
    rw [List.map_append]
    exact (List.nodup_cons.mp (List.nodup_middle.mp (List.nodup_cons.mp hloop.nodup).2)).1
  have hsub : ∀ ref ∈ headRef h :: (left ++ right).map SlabRef.page,
      pool.deref (some ref) = some ref ∧ ref ≠ .page i := by
    intro ref href
    rcases List.mem_cons.mp href with rfl | hpage
    · exact ⟨deref_head hhead, headRef_ne_page h i⟩
    · refine ⟨?_, fun heq => hnot (heq ▸ hpage)⟩
      obtain ⟨j, hj, rfl⟩ := List.mem_map.mp hpage
      exact deref_page (hlists.inside h j (Lists.mem_of_others hlist hj))
  obtain ⟨before, after, haround⟩ := hloop.around
  have hbefore : before ∈ headRef h :: (left ++ right).map SlabRef.page := by
    rw [List.map_append]
    exact List.cons_subset_cons _ (List.subset_append_left _ _) haround.before_mem
  have hafter : after ∈ headRef h :: (left ++ right).map SlabRef.page := by
    rw [List.map_append]
    exact List.cons_subset_cons _ (List.subset_append_right _ _) haround.after_mem
  exact ⟨before, after, haround, Prod.ext haround.prev (hlists.type h i hmem), haround.next, hbefore,
    hafter, (hsub before hbefore).1, (hsub after hafter).1, (hsub before hbefore).2,
    (hsub after hafter).2⟩

private theorem elsewhere_of {list : List Nat}
    (hother : ∀ ref, ref ∉ headRef h :: list.map SlabRef.page →
    pool'.node ref = pool.node ref) : Elsewhere pool pool' h list where
  page j hj := by
    refine hother _ fun hmem => ?_
    rcases List.mem_cons.mp hmem with heq | hpage
    · exact headRef_ne_page h j heq.symm
    · exact hj (mem_pages.mp hpage)
  head h' hne := by
    refine hother _ fun hmem => ?_
    rcases List.mem_cons.mp hmem with heq | hpage
    · exact hne (headRef_inj heq)
    · obtain ⟨j, -, heq⟩ := List.mem_map.mp hpage
      exact headRef_ne_page h' j heq.symm

theorem Lists.unlink (hlists : Lists pool lists) (hlist : lists h = left ++ i :: right) :
    ∃ pool', pool.unlink (.page i) = some pool' ∧
      Lists pool' (Function.update lists h (left ++ right)) ∧ Same pool pool' ∧
      Elsewhere pool pool' h (left ++ right) ∧
      ∀ j, (pool'.node (.page j)).prev.2 = (pool.node (.page j)).prev.2 := by
  have hmem : i ∈ lists h := hlist ▸ List.mem_append_right _ List.mem_cons_self
  obtain ⟨before, after, hplaced⟩ := hlists.placed hlist
  obtain ⟨pool', hcall, hsame, hnexts, hprevs⟩ : ∃ pool', pool.unlink (.page i) = some pool' ∧
      Same pool pool' ∧ (∀ ref, (pool'.node ref).next =
        if ref = before then some after else (pool.node ref).next) ∧
      ∀ ref, (pool'.node ref).prev =
        if ref = after then (some before, typeOf pool.sizes h) else (pool.node ref).prev := by
    refine ⟨(pool.setNext before (some after)).setPrev after
      (some before, typeOf pool.sizes h), ?_, ⟨rfl, rfl, rfl, rfl, fun ref => ?_⟩, fun ref => ?_,
      fun ref => ?_⟩
    · unfold SlabPool.unlink
      rw [hplaced.prev, hplaced.before_deref, hplaced.next]
      simp only [Option.bind_eq_bind, Option.bind_some]
      rw [setNext_next, if_neg hplaced.before_ne.symm, setNext_prev, hplaced.next, hplaced.prev]
      exact congrArg (Option.bind · _) hplaced.after_deref
    · rw [setPrev_slab, setNext_slab]
    · rw [setPrev_next, setNext_next]
    · rw [setPrev_prev, setNext_prev]
  have htype : ∀ j, (pool'.node (.page j)).prev.2 = (pool.node (.page j)).prev.2 := by
    intro j
    rw [hprevs]
    split
    · next heq =>
      refine (hlists.type h j (Lists.mem_of_others hlist ?_)).symm
      rcases List.mem_cons.mp hplaced.after_mem with hhead | hpage
      · exact absurd (hhead.symm.trans heq.symm) (headRef_ne_page h j)
      · exact mem_pages.mp (heq ▸ hpage)
    · rfl
  have helsewhere : Elsewhere pool pool' h (left ++ right) := by
    refine elsewhere_of fun ref hnot => SlabPage.ext (hsame.slab ref) ?_ ?_
    · rw [hnexts, if_neg fun heq : ref = before => hnot (heq ▸ hplaced.before_mem)]
    · rw [hprevs, if_neg fun heq : ref = after => hnot (heq ▸ hplaced.after_mem)]
  refine ⟨pool', hcall, hlists.update hsame.sizes hsame.pages (hlists.head h i hmem) ?_ helsewhere
    ?_ ?_, hsame, helsewhere, htype⟩
  · rw [List.map_append]
    refine hplaced.around.unlink ?_ (fun _ => ?_) (fun ref _ hne => ?_) fun ref _ hne => ?_
    · exact (hnexts before).trans (if_pos rfl)
    · exact congrArg Prod.fst ((hprevs after).trans (if_pos rfl))
    · exact (hnexts ref).trans (if_neg hne)
    · exact congrArg Prod.fst ((hprevs ref).trans (if_neg hne))
  · intro h' hne j hj hmem'
    exact hne (hlists.apart h' h j hj (Lists.mem_of_others hlist hmem'))
  · intro j hj
    have hold := Lists.mem_of_others hlist hj
    exact ⟨hlists.inside h j hold, (htype j).trans (hlists.type h j hold),
      fun h' hne hmem' => hne (hlists.apart h' h j hmem' hold)⟩

private theorem split_eq {before after : SlabRef} {k : Nat}
    (hplaced : Placed pool none left i right before after) (hrest : i + k < pool.pages) :
    ∃ pool', pool.split i k = some pool' ∧
      (∀ ref, (pool'.node ref).next = if ref = before then some (.page (i + k)) else
        if ref = .page (i + k) then some after else (pool.node ref).next) ∧
      (∀ ref, (pool'.node ref).prev = if ref = after then (some (.page (i + k)), .page) else
        if ref = .page (i + k) then (some before, .page) else (pool.node ref).prev) ∧
      (∀ ref, (pool'.node ref).slab = if ref = .page (i + k) then
        (pool.node (.page i)).slab - BitVec.ofNat 64 k else (pool.node ref).slab) ∧
      pool'.sizes = pool.sizes ∧ pool'.pages = pool.pages ∧ pool'.extent = pool.extent ∧
      pool'.bitmap = pool.bitmap := by
  refine ⟨((pool.setNode (.page (i + k)) ⟨(pool.node (.page i)).slab - BitVec.ofNat 64 k,
    some after, some before, .page⟩).setNext before (some (.page (i + k)))).setPrev after
      (some (.page (i + k)), .page), ?_, fun ref => ?_, fun ref => ?_, fun ref => ?_,
    rfl, rfl, rfl, rfl⟩
  · unfold SlabPool.split
    simp only [deref_page hrest, hplaced.prev, hplaced.next, Option.bind_eq_bind,
      Option.bind_some]
    refine (congrArg (Option.bind · _) hplaced.before_deref).trans ?_
    exact congrArg (Option.bind · _) hplaced.after_deref
  · rw [setPrev_next, setNext_next, setNode_node]
    split_ifs <;> rfl
  · rw [setPrev_prev, setNext_prev, setNode_node]
    split_ifs <;> rfl
  · rw [setPrev_slab, setNext_slab, setNode_node]
    split_ifs <;> rfl

theorem Lists.split (hlists : Lists pool lists) {k : Nat} (hlist : lists none = left ++ i :: right)
    (hfresh : ∀ h, i + k ∉ lists h) (hrest : i + k < pool.pages) :
    ∃ pool', pool.split i k = some pool' ∧
      Lists pool' (Function.update lists none (left ++ (i + k) :: right)) ∧
      pool'.sizes = pool.sizes ∧ pool'.pages = pool.pages ∧ pool'.extent = pool.extent ∧
      pool'.bitmap = pool.bitmap ∧ Elsewhere pool pool' none (left ++ (i + k) :: right) ∧
      (∀ j, (pool'.node (.page j)).slab = if j = i + k then
        (pool.node (.page i)).slab - BitVec.ofNat 64 k else (pool.node (.page j)).slab) ∧
      ∀ j, (pool'.node (.page j)).prev.2 =
        if j = i + k then .page else (pool.node (.page j)).prev.2 := by
  have hmem : i ∈ lists none := hlist ▸ List.mem_append_right _ List.mem_cons_self
  obtain ⟨before, after, hplaced⟩ := hlists.placed hlist
  have hothers : SlabRef.page (i + k) ∉ headRef none :: (left ++ right).map SlabRef.page := by
    intro href
    rcases List.mem_cons.mp href with heq | hpage
    · cases heq
    · exact hfresh none (Lists.mem_of_others hlist (mem_pages.mp hpage))
  have hbefore : before ≠ .page (i + k) := fun heq => hothers (heq ▸ hplaced.before_mem)
  have hafter : after ≠ .page (i + k) := fun heq => hothers (heq ▸ hplaced.after_mem)
  have hself : SlabRef.page i ≠ .page (i + k) := fun heq => hfresh none (page_inj heq ▸ hmem)
  obtain ⟨pool', hcall, hnexts, hprevs, hslabs, hsame⟩ := split_eq hplaced hrest
  have htype : ∀ j, (pool'.node (.page j)).prev.2 =
      if j = i + k then .page else (pool.node (.page j)).prev.2 := by
    intro j
    rw [hprevs]
    by_cases hj : j = i + k
    · rw [if_neg (hj ▸ hafter.symm), if_pos (congrArg _ hj), if_pos hj]
    · rw [if_neg hj, if_neg fun heq : SlabRef.page j = .page (i + k) => hj (page_inj heq)]
      split
      · next heq =>
        refine (hlists.type none j (Lists.mem_of_others hlist ?_)).symm
        rcases List.mem_cons.mp hplaced.after_mem with hhead | hpage
        · exact absurd (hhead.symm.trans heq.symm) (headRef_ne_page none j)
        · exact mem_pages.mp (heq ▸ hpage)
      · rfl
  have helsewhere : Elsewhere pool pool' none (left ++ (i + k) :: right) := by
    refine elsewhere_of fun ref hnot => ?_
    have hsub : ref ∉ headRef none :: (left ++ right).map SlabRef.page := by
      intro href
      refine hnot (List.cons_subset_cons _ (List.map_subset _ ?_) href)
      exact ((List.sublist_cons_self (i + k) right).append_left left).subset
    have hne : ref ≠ .page (i + k) := by
      rintro rfl
      exact hnot (List.mem_cons_of_mem _ (mem_pages.mpr
        (List.mem_append_right _ List.mem_cons_self)))
    have hneBefore : ref ≠ before := fun heq => hsub (heq ▸ hplaced.before_mem)
    have hneAfter : ref ≠ after := fun heq => hsub (heq ▸ hplaced.after_mem)
    refine SlabPage.ext ?_ ?_ ?_
    · rw [hslabs, if_neg hne]
    · rw [hnexts, if_neg hneBefore, if_neg hne]
    · rw [hprevs, if_neg hneAfter, if_neg hne]
  obtain ⟨hsizes, hpages, hextent, hbitmap⟩ := hsame
  refine ⟨pool', hcall, hlists.update hsizes hpages (hlists.head none i hmem) ?_ helsewhere ?_ ?_,
    hsizes, hpages, hextent, hbitmap, helsewhere, fun j => ?_, htype⟩
  · rw [List.map_append, List.map_cons]
    rw [List.map_append] at hothers
    refine hplaced.around.replace hothers ?_ ?_ ?_ (fun _ => ?_) (fun ref href hne => ?_)
      fun ref href hne => ?_
    · exact (hnexts before).trans (if_pos rfl)
    · have hprev := hprevs (.page (i + k))
      rw [if_neg hafter.symm, if_pos rfl] at hprev
      exact congrArg Prod.fst hprev
    · refine (hnexts (.page (i + k))).trans ?_
      rw [if_neg hbefore.symm, if_pos rfl]
    · exact congrArg Prod.fst ((hprevs after).trans (if_pos rfl))
    · refine (hnexts ref).trans ?_
      rw [if_neg hne, if_neg fun heq : ref = .page (i + k) => hothers (heq ▸ href)]
      rfl
    · have hprev := hprevs ref
      rw [if_neg hne, if_neg fun heq : ref = .page (i + k) =>
        hothers (heq ▸ List.mem_cons_of_mem _ href)] at hprev
      exact congrArg Prod.fst hprev
  · intro h' hne j hj hmem'
    rcases List.mem_append.mp hmem' with hleft | hright
    · exact hne (hlists.apart h' none j hj (Lists.mem_of_others hlist (List.mem_append_left _ hleft)))
    · rcases List.mem_cons.mp hright with rfl | hright
      · exact hfresh h' hj
      · exact hne (hlists.apart h' none j hj
          (Lists.mem_of_others hlist (List.mem_append_right _ hright)))
  · intro j hj
    by_cases heq : j = i + k
    · subst heq
      exact ⟨hrest, (htype (i + k)).trans (if_pos rfl), fun h' _ => hfresh h'⟩
    · have hold : j ∈ lists none := by
        refine Lists.mem_of_others hlist ?_
        rcases List.mem_append.mp hj with hleft | hright
        · exact List.mem_append_left _ hleft
        · exact List.mem_append_right _ ((List.mem_cons.mp hright).resolve_left heq)
      exact ⟨hlists.inside none j hold,
        ((htype j).trans (if_neg heq)).trans (hlists.type none j hold),
        fun h' hne hmem' => hne (hlists.apart h' none j hmem' hold)⟩
  · rw [hslabs]
    by_cases heq : j = i + k
    · rw [if_pos heq, if_pos (congrArg _ heq)]
    · rw [if_neg heq, if_neg fun hpage : SlabRef.page j = .page (i + k) => heq (page_inj hpage)]

/-- A page is in front of a list, and leads back to its head. -/
structure Pushed (pool pool' : SlabPool) (h : Option Nat) (i : Nat) : Prop where
  sizes : pool'.sizes = pool.sizes
  pages : pool'.pages = pool.pages
  head : (pool'.node (headRef h)).next = some (.page i)
  next : (pool'.node (.page i)).next = (pool.node (headRef h)).next
  prev : (pool'.node (.page i)).prev = (some (headRef h), typeOf pool.sizes h)
  first : ∀ j, (pool.node (headRef h)).next = some (.page j) → pool'.node (.page j) =
    { pool.node (.page j) with prev := (some (.page i), typeOf pool.sizes h) }
  others : ∀ ref, ref ≠ .page i → ref ≠ headRef h → (pool.node (headRef h)).next ≠ some ref →
    pool'.node ref = pool.node ref

theorem Lists.first (hlists : Lists pool lists) (hhead : IsHead pool.sizes h) :
    (pool.node (headRef h)).next = some (((lists h).map SlabRef.page).headD (headRef h)) :=
  (hlists.loop h hhead).thread.leads

theorem Lists.first_mem (hlists : Lists pool lists) (hhead : IsHead pool.sizes h)
    (hnext : (pool.node (headRef h)).next = some (.page j)) : j ∈ lists h := by
  rw [hlists.first hhead] at hnext
  cases hlist : lists h with
  | nil =>
    rw [hlist] at hnext
    exact absurd (Option.some.inj hnext) (headRef_ne_page h j)
  | cons first rest =>
    rw [hlist] at hnext
    exact page_inj (Option.some.inj hnext) ▸ List.mem_cons_self

theorem Pushed.elsewhere (hpushed : Pushed pool pool' h i) (hlists : Lists pool lists)
    (hhead : IsHead pool.sizes h) : Elsewhere pool pool' h (i :: lists h) where
  page j hj := by
    rw [List.mem_cons, not_or] at hj
    exact hpushed.others _ (fun heq => hj.1 (page_inj heq)) (headRef_ne_page h j).symm
      fun heq => hj.2 (hlists.first_mem hhead heq)
  head h' hne := by
    refine hpushed.others _ (headRef_ne_page h' i) (fun heq => hne (headRef_inj heq)) fun heq => ?_
    rw [hlists.first hhead] at heq
    cases hlist : lists h with
    | nil =>
      rw [hlist] at heq
      exact hne (headRef_inj (Option.some.inj heq)).symm
    | cons first rest =>
      rw [hlist] at heq
      exact headRef_ne_page h' first (Option.some.inj heq).symm

theorem Lists.push (hlists : Lists pool lists) (hpushed : Pushed pool pool' h i)
    (hhead : IsHead pool.sizes h) (hi : i < pool.pages) (hfresh : ∀ h', i ∉ lists h') :
    Lists pool' (Function.update lists h (i :: lists h)) := by
  have hother : ∀ j ∈ lists h, j ≠ i := fun j hj heq => hfresh h (heq ▸ hj)
  have hnode : ∀ j, j ≠ i → (pool.node (headRef h)).next ≠ some (.page j) →
      pool'.node (.page j) = pool.node (.page j) := fun j hne hnext =>
    hpushed.others _ (fun heq => hne (page_inj heq)) (headRef_ne_page h j).symm hnext
  refine hlists.update hpushed.sizes hpushed.pages hhead ?_ (hpushed.elsewhere hlists hhead) ?_ ?_
  · rw [List.map_cons]
    refine (hlists.loop h hhead).push ?_ hpushed.head hpushed.next (congrArg Prod.fst hpushed.prev)
      ?_ ?_ ?_
    · intro hmem
      rcases List.mem_cons.mp hmem with heq | hpage
      · exact headRef_ne_page h i heq.symm
      · exact hfresh h (mem_pages.mp hpage)
    · intro ref href hnext
      obtain ⟨j, -, rfl⟩ := List.mem_map.mp href
      exact congrArg (fun page => page.prev.1) (hpushed.first j hnext)
    · intro ref href
      obtain ⟨j, hj, rfl⟩ := List.mem_map.mp href
      by_cases hnext : (pool.node (headRef h)).next = some (.page j)
      · exact (congrArg SlabPage.next (hpushed.first j hnext) :)
      · exact congrArg SlabPage.next (hnode j (hother j hj) hnext)
    · intro ref href hnext
      obtain ⟨j, hj, rfl⟩ := List.mem_map.mp href
      exact congrArg (fun page => page.prev.1) (hnode j (hother j hj) hnext)
  · intro h' hne j hj hmem
    rcases List.mem_cons.mp hmem with rfl | hmem
    · exact hfresh h' hj
    · exact hne (hlists.apart h' h j hj hmem)
  · intro j hj
    rcases List.mem_cons.mp hj with rfl | hj
    · exact ⟨hi, congrArg Prod.snd hpushed.prev, fun h' _ => hfresh h'⟩
    · refine ⟨hlists.inside h j hj, ?_, fun h' hne hmem => hne (hlists.apart h' h j hmem hj)⟩
      by_cases hnext : (pool.node (headRef h)).next = some (.page j)
      · exact congrArg (fun page => page.prev.2) (hpushed.first j hnext)
      · rw [hnode j (hother j hj) hnext]
        exact hlists.type h j hj

theorem Lists.congr (hlists : Lists pool lists) (hsizes : pool'.sizes = pool.sizes)
    (hpages : pool'.pages = pool.pages)
    (hheads : ∀ h, (pool'.node (headRef h)).next = (pool.node (headRef h)).next)
    (hnexts : ∀ h, ∀ j ∈ lists h, (pool'.node (.page j)).next = (pool.node (.page j)).next)
    (hprevs : ∀ h, ∀ j ∈ lists h, (pool'.node (.page j)).prev = (pool.node (.page j)).prev) :
    Lists pool' lists where
  loop h hhead := by
    have hold := hlists.loop h (hsizes ▸ hhead)
    refine ⟨hold.thread.congr (fun ref href => ?_) (fun ref href => ?_), hold.nodup⟩
    · rcases List.mem_cons.mp href with rfl | hpage
      · exact hheads h
      · obtain ⟨j, hj, rfl⟩ := List.mem_map.mp hpage
        exact hnexts h j hj
    · obtain ⟨j, hj, rfl⟩ := List.mem_map.mp href
      exact congrArg Prod.fst (hprevs h j hj)
  head h j hj := hsizes ▸ hlists.head h j hj
  apart := hlists.apart
  inside h j hj := hpages ▸ hlists.inside h j hj
  type h j hj := by
    rw [hprevs h j hj, hsizes]
    exact hlists.type h j hj

theorem Lists.next (hlists : Lists pool lists) (hlist : lists h = left ++ i :: right) :
    (pool.node (.page i)).next = some ((right.map SlabRef.page).headD (headRef h)) := by
  obtain ⟨before, after, hplaced⟩ := hlists.placed hlist
  exact hplaced.around.behind.leads

theorem Lists.length_le (hlists : Lists pool lists) (hhead : IsHead pool.sizes h) :
    (lists h).length ≤ pool.pages := by
  have hnodup := List.Nodup.of_map _ (List.nodup_cons.mp (hlists.loop h hhead).nodup).2
  have hsub : lists h ⊆ List.range pool.pages := fun i hi =>
    List.mem_range.mpr (hlists.inside h i hi)
  have hle := (List.subperm_of_subset hnodup hsub).length_le
  rwa [List.length_range] at hle

theorem Lists.deref_first (hlists : Lists pool lists) (hhead : IsHead pool.sizes h)
    (hfresh : i ∉ lists h) :
    ∃ first, (pool.node (headRef h)).next = some first ∧ pool.deref (some first) = some first ∧
      first ≠ .page i := by
  refine ⟨_, hlists.first hhead, hlists.deref hhead ?_, ?_⟩
  · cases lists h with
    | nil => exact List.mem_cons_self
    | cons j rest => exact List.mem_cons_of_mem _ List.mem_cons_self
  · cases hlist : lists h with
    | nil => exact headRef_ne_page h i
    | cons j rest =>
      intro heq
      rw [hlist] at hfresh
      exact hfresh (page_inj heq ▸ List.mem_cons_self)

theorem Lists.relink (hlists : Lists pool lists) {slot : Nat}
    (hhead : IsHead pool.sizes (some slot)) (hfresh : ∀ h', i ∉ lists h') :
    ∃ pool', pool.relink i slot (typeOf pool.sizes (some slot)) = some pool' ∧
      Pushed pool pool' (some slot) i ∧ Same pool pool' := by
  obtain ⟨first, hfirst, hderef, hne⟩ := hlists.deref_first hhead (hfresh (some slot))
  have hpage : SlabRef.page i ≠ headRef (some slot) := (headRef_ne_page (some slot) i).symm
  generalize htype : typeOf pool.sizes (some slot) = type
  have hcall : pool.relink i slot type = some ((((pool.setNext (.page i) (some first)).setNext
      (headRef (some slot)) (some (.page i))).setPrev (.page i)
        (some (headRef (some slot)), type)).setPrev first (some (.page i), type)) := by
    unfold SlabPool.relink
    rw [show pool.deref (some (SlabRef.slot slot)) = some (headRef (some slot)) from
      deref_head hhead]
    simp only [Option.bind_eq_bind, Option.bind_some]
    rw [hfirst, setPrev_next, setNext_next, if_neg hpage, setNext_next, if_pos rfl]
    exact congrArg (Option.bind · _) hderef
  refine ⟨_, hcall, ⟨rfl, rfl, ?_, ?_, ?_, ?_, ?_⟩, ⟨rfl, rfl, rfl, rfl, ?_⟩⟩
  · rw [setPrev_next, setPrev_next, setNext_next, if_pos rfl]
  · rw [setPrev_next, setPrev_next, setNext_next, if_neg hpage, setNext_next, if_pos rfl, hfirst]
  · rw [setPrev_prev, if_neg hne.symm, setPrev_prev, if_pos rfl, htype]
  · intro j hj
    obtain rfl := Option.some.inj (hfirst.symm.trans hj)
    refine SlabPage.ext ?_ ?_ ?_
    · simp only [setPrev_slab, setNext_slab]
    · simp only [setPrev_next, setNext_next, if_neg hne, if_neg (headRef_ne_page (some slot) j).symm]
    · rw [setPrev_prev, if_pos rfl, htype]
  · intro ref hi hhead' hnext
    rw [hfirst] at hnext
    have hneFirst : ref ≠ first := fun heq => hnext (congrArg some heq.symm)
    refine SlabPage.ext ?_ ?_ ?_
    · simp only [setPrev_slab, setNext_slab]
    · simp only [setPrev_next, setNext_next, if_neg hi, if_neg hhead']
    · simp only [setPrev_prev, setNext_prev, if_neg hi, if_neg hneFirst]
  · intro ref
    simp only [setPrev_slab, setNext_slab]

end Libsax.Memory.SlabPool
