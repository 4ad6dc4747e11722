import Libsax.Memory.SlabPages

/-! Pages that are given back become a run of free pages, which comes first in its list. -/
namespace Libsax.Memory.SlabPool

open Libsax.Lib

variable {pool pool' : SlabPool} {lists : Option Nat → List Nat} {roles : Nat → Role}
  {h : Option Nat} {i j k len : Nat}

/-- A run that becomes a free one, or a page of chunks that becomes a run. -/
def Returns (role : Role) (k : Nat) : Prop :=
  IsRun role k ∨ k = 1 ∧ ∃ shift busy, role = .chunks shift busy

theorem Tiled.returned {pages : Nat} (htiled : Tiled pages roles) (hi : i < pages)
    (hrole : Returns (roles i) k) : Tiled pages (Function.update roles i (.free k)) := by
  have hnotInner : roles i ≠ .inner := by
    rcases hrole with hrun | ⟨-, shift, busy, hchunks⟩
    · exact Tiled.not_inner hrun
    · rw [hchunks]
      exact Role.noConfusion
  have hinner : ∀ j, roles j = .inner → Function.update roles i (.free k) j = .inner := by
    intro j hj
    rw [Function.update_of_ne, hj]
    rintro rfl
    exact hnotInner hj
  refine ⟨fun j len hj hother => ?_, fun j hj hother => ?_⟩
  · by_cases hself : j = i
    · subst hself
      rw [Function.update_self] at hother
      obtain heq | heq := hother <;> cases heq
      rcases hrole with hrun | ⟨rfl, -⟩
      · obtain ⟨hpos, hle, hinside⟩ := htiled.tiles j _ hi hrun
        exact ⟨hpos, hle, fun m hm hlt => hinner m (hinside m hm hlt)⟩
      · exact ⟨Nat.one_pos, hi, fun m hm hlt => by omega⟩
    · rw [Function.update_of_ne hself] at hother
      obtain ⟨hpos, hle, hinside⟩ := htiled.tiles j len hj hother
      exact ⟨hpos, hle, fun m hm hlt => hinner m (hinside m hm hlt)⟩
  · have hself : j ≠ i := by
      rintro rfl
      rw [Function.update_self] at hother
      cases hother
    rw [Function.update_of_ne hself] at hother
    obtain ⟨m, len, hm, hlt, hinside⟩ := htiled.covered j hj hother
    by_cases hmi : m = i
    · subst hmi
      refine ⟨m, k, .inl (Function.update_self m _ _), hlt, ?_⟩
      rcases hrole with hrun | ⟨-, shift, busy, hchunks⟩
      · have hsame : len = k := by
          rcases hm with heq | heq <;> rcases hrun with heq' | heq' <;> rw [heq] at heq' <;>
            cases heq' <;> rfl
        exact hsame ▸ hinside
      · rw [hchunks] at hm
        rcases hm with heq | heq <;> cases heq
    · exact ⟨m, len, by rwa [Function.update_of_ne hmi], hlt, hinside⟩

theorem Lists.remove (hlists : Lists pool lists) (hmem : i ∈ lists h) :
    ∃ pool' lists', pool.unlink (.page i) = some pool' ∧ Lists pool' lists' ∧ Same pool pool' ∧
      (∀ h j, j ∈ lists' h ↔ j ∈ lists h ∧ j ≠ i) ∧
      (∀ j, (∀ h, j ∉ lists' h) → pool'.node (.page j) = pool.node (.page j)) ∧
      ∀ j, (pool'.node (.page j)).prev.2 = (pool.node (.page j)).prev.2 := by
  obtain ⟨left, right, hlist⟩ := List.append_of_mem hmem
  obtain ⟨pool', hcall, hlists', hsame, helsewhere, htype⟩ := hlists.unlink hlist
  have hnodup := (hlists.loop h (hlists.head h i hmem)).nodup
  rw [hlist] at hnodup
  have hnot := (List.nodup_cons.mp (List.nodup_middle.mp
    (List.Nodup.of_map _ (List.nodup_cons.mp hnodup).2))).1
  refine ⟨pool', _, hcall, hlists', hsame, fun h' j => ?_, fun j hfresh => ?_, htype⟩
  · by_cases heq : h' = h
    · subst heq
      rw [Function.update_self]
      constructor
      · exact fun hj => ⟨Lists.mem_of_others hlist hj, fun hji => hnot (hji ▸ hj)⟩
      · rintro ⟨hj, hne⟩
        rw [hlist] at hj
        rcases List.mem_append.mp hj with hleft | hright
        · exact List.mem_append_left _ hleft
        · exact List.mem_append_right _ ((List.mem_cons.mp hright).resolve_left hne)
    · rw [Function.update_of_ne heq]
      refine ⟨fun hj => ⟨hj, ?_⟩, And.left⟩
      rintro rfl
      exact heq (hlists.apart h' h j hj hmem)
  · have hj := hfresh h
    rw [Function.update_self] at hj
    exact helsewhere.page j hj

theorem Lists.detach (hlists : Lists pool lists)
    (hlone : (∀ h, i ∉ lists h) → (pool.node (.page i)).next = none) :
    ∃ pool' lists', pool.onlyIf ((pool.node (.page i)).next ≠ none) (·.unlink (.page i)) =
        some pool' ∧ Lists pool' lists' ∧ Same pool pool' ∧
      (∀ h j, j ∈ lists' h ↔ j ∈ lists h ∧ j ≠ i) ∧
      (∀ j, (∀ h, j ∉ lists' h) → pool'.node (.page j) = pool.node (.page j)) ∧
      ∀ j, (pool'.node (.page j)).prev.2 = (pool.node (.page j)).prev.2 := by
  unfold onlyIf
  by_cases hmem : ∃ h, i ∈ lists h
  · obtain ⟨h, hmem⟩ := hmem
    obtain ⟨left, right, hlist⟩ := List.append_of_mem hmem
    obtain ⟨pool', lists', hcall, hrest⟩ := hlists.remove hmem
    refine ⟨pool', lists', ?_, hrest⟩
    rw [if_pos (by rw [hlists.next hlist]; exact Option.some_ne_none _)]
    exact hcall
  · have hfresh : ∀ h, i ∉ lists h := fun h hi => hmem ⟨h, hi⟩
    refine ⟨pool, lists, if_neg (not_not.mpr (hlone hfresh)), hlists,
      ⟨rfl, rfl, rfl, rfl, fun _ => rfl⟩, fun h j => ?_, fun _ _ => rfl, fun _ => rfl⟩
    exact ⟨fun hj => ⟨hj, fun heq => hfresh h (heq ▸ hj)⟩, And.left⟩

theorem Lists.enqueue (hlists : Lists pool lists) (hfresh : ∀ h, i ∉ lists h) :
    ∃ pool', pool.enqueue i = some pool' ∧ Pushed pool pool' none i ∧ Same pool pool' := by
  obtain ⟨first, hfirst, hderef, hne⟩ := hlists.deref_first (h := none) trivial (hfresh none)
  have hfirst : (pool.node .free).next = some first := hfirst
  have hpage : SlabRef.page i ≠ .free := SlabRef.noConfusion
  have hcall : pool.enqueue i = some ((((pool.setPrev (.page i) (some .free, .page)).setNext (.page i)
      (some first)).setPrev first (some (.page i), .page)).setNext .free (some (.page i))) := by
    unfold SlabPool.enqueue
    simp only [setPrev_next, hfirst, setNext_next, if_pos, Option.bind_eq_bind]
    exact congrArg (Option.bind · _) hderef
  refine ⟨_, hcall, ⟨rfl, rfl, ?_, ?_, ?_, ?_, ?_⟩, ⟨rfl, rfl, rfl, rfl, ?_⟩⟩
  · rw [setNext_next]
    exact if_pos rfl
  · rw [setNext_next, if_neg hpage, setPrev_next, setNext_next, if_pos rfl]
    exact hfirst.symm
  · rw [setNext_prev, setPrev_prev, if_neg hne.symm, setNext_prev, setPrev_prev, if_pos rfl]
    rfl
  · intro j hj
    obtain rfl := Option.some.inj (hfirst.symm.trans hj)
    refine SlabPage.ext ?_ ?_ ?_
    · simp only [setPrev_slab, setNext_slab]
    · simp only [setPrev_next, setNext_next, if_neg hne,
        if_neg (SlabRef.noConfusion : SlabRef.page j ≠ .free)]
    · rw [setNext_prev, setPrev_prev, if_pos rfl]
      rfl
  · intro ref hi hhead hnext
    have hneFirst : ref ≠ first := fun heq => hnext (hfirst.trans (congrArg some heq.symm))
    have hneFree : ref ≠ .free := hhead
    refine SlabPage.ext ?_ ?_ ?_
    · simp only [setPrev_slab, setNext_slab]
    · simp only [setPrev_next, setNext_next, if_neg hi, if_neg hneFree]
    · simp only [setPrev_prev, setNext_prev, if_neg hi, if_neg hneFirst]
  · intro ref
    simp only [setPrev_slab, setNext_slab]

private theorem Valid.home_freed (hvalid : Valid pool lists roles) (hi : i < pool.pages)
    {lists' : Option Nat → List Nat} (hmem : ∀ h j, j ∈ lists' h ↔ j ∈ lists h ∧ j ≠ i)
    (h : Option Nat) (j : Nat) :
    j ∈ Function.update lists' none (i :: lists' none) h ↔
      j < pool.pages ∧ Home pool.sizes (Function.update roles i (.free k) j) h := by
  by_cases hself : j = i
  · subst hself
    rw [Function.update_self, home_free]
    by_cases hnone : h = none
    · subst hnone
      rw [Function.update_self]
      exact ⟨fun _ => ⟨hi, rfl⟩, fun _ => List.mem_cons_self⟩
    · rw [Function.update_of_ne hnone]
      exact ⟨fun hin => absurd rfl ((hmem h j).mp hin).2, fun hand => absurd hand.2 hnone⟩
  · rw [show Function.update roles i (.free k) j = roles j from Function.update_of_ne hself _ _,
      ← hvalid.home]
    by_cases hnone : h = none
    · subst hnone
      rw [Function.update_self, List.mem_cons, hmem]
      exact ⟨fun hor => (hor.resolve_left hself).1, fun hin => .inr ⟨hin, hself⟩⟩
    · rw [Function.update_of_ne hnone, hmem]
      exact ⟨And.left, fun hin => ⟨hin, hself⟩⟩

theorem Valid.freePages (hvalid : Valid pool lists roles) (hi : i < pool.pages)
    (hrole : Returns (roles i) k) :
    ∃ pool' lists', pool.freePages i k = some pool' ∧ Kept pool pool' ∧
      Valid pool' lists' (Function.update roles i (.free k)) := by
  have hinside : 0 < k ∧ i + k ≤ pool.pages ∧ ∀ j, i < j → j < i + k → roles j = .inner := by
    rcases hrole with hrun | ⟨rfl, -⟩
    · exact hvalid.tiled.tiles i k hi hrun
    · exact ⟨Nat.one_pos, hi, fun j hj hlt => by omega⟩
  obtain ⟨hpos, hle, hinner⟩ := hinside
  have hnotInner : roles i ≠ .inner := by
    rcases hrole with hrun | ⟨-, shift, busy, hchunks⟩
    · exact Tiled.not_inner hrun
    · rw [hchunks]
      exact Role.noConfusion
  obtain ⟨cleared, hrest, hsizes₁, hpages₁, hextent₁, hbitmap₁, hheads₁, hnodes₁⟩ :=
    @setRest_eq (pool.setSlab (.page i) (BitVec.ofNat 64 k)) i (k - 1) ⟨0, none, none, .page⟩
      (show i + (k - 1) < pool.pages ∨ k - 1 = 0 by omega)
  have hinterior : ∀ h j, j ∈ lists h → ¬ (i < j ∧ j ≤ i + (k - 1)) := by
    intro h j hj hand
    have hhome := ((hvalid.home h j).mp hj).2
    rw [hinner j hand.1 (by omega)] at hhome
    exact inner_not_home hhome
  have hcleared : Lists cleared lists := by
    refine hvalid.linked.congr hsizes₁ hpages₁ (fun h => ?_) (fun h j hj => ?_) fun h j hj => ?_
    · rw [hheads₁, setSlab_next]
    · rw [hnodes₁, if_neg (hinterior h j hj), setSlab_next]
    · rw [hnodes₁, if_neg (hinterior h j hj), setSlab_prev]
  have hlone : (∀ h, i ∉ lists h) → (cleared.node (.page i)).next = none := by
    intro hfresh
    rw [hnodes₁, if_neg (by omega), setSlab_next]
    exact hvalid.lone i hi fun h hhome => hfresh h ((hvalid.home h i).mpr ⟨hi, hhome⟩)
  obtain ⟨apart, lists₂, hdetach, hlists₂, hsame₂, hmem₂, hnodes₂, htypes₂⟩ := hcleared.detach hlone
  have hfresh : ∀ h, i ∉ lists₂ h := fun h hmem => ((hmem₂ h i).mp hmem).2 rfl
  obtain ⟨pool', henqueue, hpushed, hsame₃⟩ := hlists₂.enqueue hfresh
  have hlists' := hlists₂.push hpushed trivial
    (by rw [hsame₂.pages, hpages₁]; exact hi) hfresh
  have helsewhere := hpushed.elsewhere hlists₂ trivial
  have hsizes : pool'.sizes = pool.sizes := hsame₃.sizes.trans (hsame₂.sizes.trans hsizes₁)
  have hpages : pool'.pages = pool.pages := hsame₃.pages.trans (hsame₂.pages.trans hpages₁)
  have hextent : pool'.extent = pool.extent := hsame₃.extent.trans (hsame₂.extent.trans hextent₁)
  have hbitmap : pool'.bitmap = pool.bitmap := hsame₃.bitmap.trans (hsame₂.bitmap.trans hbitmap₁)
  have hhome := @Valid.home_freed _ _ _ i k hvalid hi _ hmem₂
  refine ⟨pool', _, ?_, ⟨hsizes, hpages, hextent⟩, hsizes ▸ hvalid.proper, ?_, ?_, hlists', ?_, ?_,
    ?_, ?_⟩
  · unfold SlabPool.freePages
    simp only [guard, Nat.ne_of_gt hpos, ne_eq, not_false_eq_true, ↓reduceIte, Option.pure_def,
      Option.bind_eq_bind, Option.bind_some, hrest]
    exact (congrArg (Option.bind · _) hdetach).trans henqueue
  · rw [hpages, hsizes, hextent]
    exact hvalid.fits
  · rw [hextent]
    exact hvalid.extent
  · rw [hpages, hsizes]
    exact hhome
  · rw [hpages]
    intro j hj
    have hslab : (pool'.node (.page j)).slab = (cleared.node (.page j)).slab := by
      rw [hsame₃.slab, hsame₂.slab]
    by_cases hself : j = i
    · subst hself
      rw [Function.update_self]
      refine ⟨?_, congrArg Prod.snd hpushed.prev⟩
      rw [hslab, hnodes₁, if_neg (by omega), setSlab_slab, if_pos rfl]
    have htype : (pool'.node (.page j)).prev.2 = (cleared.node (.page j)).prev.2 := by
      rw [← htypes₂]
      by_cases hfirst : (apart.node .free).next = some (.page j)
      · have hmem := hlists₂.first_mem (h := none) trivial hfirst
        rw [hpushed.first j hfirst, hlists₂.type none j hmem]
      · rw [hpushed.others _ (fun heq => hself (page_inj heq)) SlabRef.noConfusion hfirst]
    rw [Function.update_of_ne hself]
    by_cases hinterior' : i < j ∧ j ≤ i + (k - 1)
    · rw [hinner j hinterior'.1 (by omega)]
      refine ⟨.inl ?_, ?_⟩
      · rw [hslab, hnodes₁, if_pos hinterior']
      · rw [htype, hnodes₁, if_pos hinterior']
    · refine (hvalid.shows j hj).congr hsizes ?_ ?_ (congrFun hbitmap j)
      · rw [hslab, hnodes₁, if_neg hinterior', setSlab_slab,
          if_neg fun heq : SlabRef.page j = .page i => hself (page_inj heq)]
      · rw [htype, hnodes₁, if_neg hinterior', setSlab_prev]
  · rw [hpages, hsizes]
    intro j hj hnone
    have hself : j ≠ i := by
      rintro rfl
      rw [Function.update_self] at hnone
      exact hnone none trivial
    have hnotMem : ∀ h, j ∉ Function.update lists₂ none (i :: lists₂ none) h :=
      fun h hmem => hnone h ((hhome h j).mp hmem).2
    rw [Function.update_of_ne hself] at hnone
    have hold : ∀ h, j ∉ lists h := fun h hmem => hnone h ((hvalid.home h j).mp hmem).2
    have hnode := hnotMem none
    rw [Function.update_self] at hnode
    rw [helsewhere.page j hnode, hnodes₂ j fun h hmem => hold h ((hmem₂ h j).mp hmem).1, hnodes₁]
    by_cases hinterior' : i < j ∧ j ≤ i + (k - 1)
    · rw [if_pos hinterior']
    · rw [if_neg hinterior', setSlab_next]
      exact hvalid.lone j hj hnone
  · rw [hpages]
    exact hvalid.tiled.returned hi hrole

end Libsax.Memory.SlabPool
