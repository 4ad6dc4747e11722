import Libsax.Timer.Cascade

/-! The calls a user makes: start, cancel and destroy, seen through the shape of
the heap. -/
namespace Libsax.Timer

open Libsax.Lib

variable {wheel : Wheel} {shape : Shape}

/-- The nodes met on the way from `node` back to the list head. -/
def collect (wheel : Wheel) (head : Fin 1024) : Nat → Cell → List Cell
  | 0, _ => []
  | fuel + 1, node =>
    if node = .head head then []
    else node :: ((wheel.links.next node).toList.flatMap (collect wheel head fuel))

def Wheel.pending (wheel : Wheel) : List Cell :=
  (List.finRange 1024).flatMap fun head =>
    (wheel.links.next (.head head)).toList.flatMap (collect wheel head (wheel.malloced + 1))

private theorem collect_walk {head : Fin 1024} {fuel : Nat} {node : Cell} {cells : List Cell}
    (hwalk : wheel.links.Walk node cells (.head head)) (hfuel : cells.length < fuel)
    (hcells : ∀ cell ∈ cells, cell ≠ .head head) : collect wheel head fuel node = cells := by
  induction cells generalizing fuel node with
  | nil =>
    obtain ⟨fuel, rfl⟩ := Nat.exists_eq_succ_of_ne_zero (Nat.ne_of_gt hfuel)
    exact if_pos hwalk
  | cons cell rest ih =>
    obtain ⟨fuel, rfl⟩ := Nat.exists_eq_succ_of_ne_zero (Nat.ne_of_gt (Nat.zero_lt_of_lt hfuel))
    obtain ⟨rfl, after, hafter, hwalk⟩ := hwalk
    rw [collect, if_neg (hcells node (by simp)), hafter, Option.toList_some,
      List.flatMap_singleton,
      ih hwalk (Nat.lt_of_succ_lt_succ hfuel) fun cell hmem => hcells cell (by simp [hmem])]

theorem Heap.walk (hheap : Heap wheel shape [] fun _ => True) (head : Fin 1024) :
    ∃ first, wheel.links.next (.head head) = some first ∧
      wheel.links.Walk first (shape.lists head) (.head head) ∧
      (shape.lists head).Nodup ∧ (shape.lists head).length < wheel.malloced + 1 := by
  have hring := hheap.family.ring head trivial
  have hnodup := (List.nodup_cons.mp hring.nodup).2
  obtain ⟨first, hfirst, hwalk⟩ := hring.segment.walk
  exact ⟨first, hfirst, hwalk, hnodup, Nat.lt_succ_of_le (hheap.length_le hnodup)⟩

theorem Heap.pending (hheap : Heap wheel shape [] fun _ => True) :
    wheel.pending = shape.pending := by
  refine List.flatMap_congr fun head _ => ?_
  obtain ⟨first, hfirst, hwalk, -, hlength⟩ := hheap.walk head
  rw [hfirst, Option.toList_some, List.flatMap_singleton]
  exact collect_walk hwalk hlength fun cell hmem => (hheap.ownedLists head cell hmem).ne_head head

theorem Heap.pending_nodup (hheap : Heap wheel shape [] fun _ => True) : shape.pending.Nodup := by
  rw [Shape.pending, List.nodup_flatMap]
  refine ⟨fun head _ => (List.nodup_cons.mp (hheap.family.ring head trivial).nodup).2, ?_⟩
  refine (List.nodup_finRange 1024).imp fun {left right} hne => ?_
  intro cell hleft hright
  exact hheap.family.apart left right hne cell (List.mem_cons_of_mem _ hleft)
    (List.mem_cons_of_mem _ hright)

theorem Heap.gTimerStart (hheap : Heap wheel shape [] fun _ => True) (delayTicks : UInt32)
    (userData serial : Nat) (memory : Bool) :
    ∃ next result, gTimerStart wheel delayTicks userData serial memory = some (next, result) ∧
      (result = none → next = wheel) ∧
      ∀ node, result = some node → ∃ free,
        Heap next
          { shape.put (listHead (wheel.last + delayTicks) delayTicks)
              (node :: shape.lists (listHead (wheel.last + delayTicks) delayTicks)) with
            free := free } [] (fun _ => True) ∧
        (∀ head, node ∉ shape.lists head) ∧
        next.expire = Function.update wheel.expire node (wheel.last + delayTicks) ∧
        next.userData = Function.update wheel.userData node userData ∧
        next.serial = Function.update wheel.serial node serial ∧
        next.last = wheel.last ∧ next.count = wheel.count + 1 := by
  obtain ⟨allocated, result, halloc, hsame, hnone, hsome⟩ := hheap.xslabAlloc memory
  unfold Timer.gTimerStart
  cases result with
  | none =>
    refine ⟨allocated, none, by simp [halloc], fun _ => hnone rfl, ?_⟩
    intro node hnode
    exact absurd hnode (by simp)
  | some node =>
    obtain ⟨free, hloose⟩ := hsome node rfl
    obtain ⟨pool, malloced, rfl⟩ : ∃ pool malloced,
        allocated = { wheel with pool := pool, malloced := malloced } := ⟨_, _, hsame⟩
    have hfilled : Heap
        { wheel with
          pool := pool
          malloced := malloced
          userData := Function.update wheel.userData node userData
          expire := Function.update wheel.expire node (wheel.last + delayTicks)
          serial := Function.update wheel.serial node serial }
        { shape with free := free } [node] fun _ => True := { hloose with }
    obtain ⟨links, hschedule, hheap', -⟩ := hfilled.schedule delayTicks trivial
    simp only [Function.update_self] at hschedule hheap'
    refine ⟨_, some node, by simp [halloc, hschedule]; rfl, fun h => absurd h (by simp), ?_⟩
    intro other hother
    cases hother
    exact ⟨free, { hheap' with }, (hloose.looseApart node (by simp)).2.2, rfl, rfl, rfl, rfl, rfl⟩

theorem Shape.perm_of_remove {head : Fin 1024} {cell : Cell} {left right : List Cell}
    (hlist : shape.lists head = left ++ cell :: right) :
    shape.pending.Perm (cell :: (shape.put head (left ++ right)).pending) := by
  have hput := shape.put_pending head (left ++ right)
  rw [hlist] at hput
  refine (List.perm_append_right_iff (left ++ right)).mp (hput.symm.trans ?_)
  refine (List.perm_middle.append_left _).trans ?_
  exact List.perm_middle

theorem Heap.gTimerCancel (hheap : Heap wheel shape [] fun _ => True) {number : Nat}
    (hnumber : number < wheel.malloced) :
    (Cell.node number ∉ shape.pending ∧
      gTimerCancel wheel (.node number) = some (wheel, none)) ∨
    ∃ next head left right,
      shape.lists head = left ++ .node number :: right ∧
      gTimerCancel wheel (.node number) = some (next, some (wheel.userData (.node number))) ∧
      Heap next { shape.put head (left ++ right) with free := .node number :: shape.free } []
        (fun _ => True) ∧
      next = { wheel with count := wheel.count - 1, links := next.links, pool := next.pool } := by
  unfold Timer.gTimerCancel
  rcases hheap.accounted number hnumber (by simp) with ⟨head, hmem⟩ | hnone
  · right
    obtain ⟨left, right, hlist⟩ := List.append_of_mem hmem
    obtain ⟨links, hremove, hheap'⟩ := hheap.remove trivial hlist
    have hreduced : Heap { wheel with count := wheel.count - 1, links := links }
        { shape.put head (left ++ right) with held := .node number :: shape.held } []
        fun _ => True := { hheap' with }
    refine ⟨_, head, left, right, hlist, ?_, hreduced.xslabFree rfl, ?_⟩
    · rw [if_neg (hheap.linked head _ hmem), hremove]
      rfl
    · unfold Timer.xslabFree
      rw [if_pos hheap.shrink]
  · left
    refine ⟨fun hmem => ?_, if_pos hnone⟩
    obtain ⟨head, hmem⟩ := Shape.mem_pending.mp hmem
    exact hheap.linked head _ hmem hnone

private theorem xslabFree_next (wheel : Wheel) {ptr cell : Cell} (hne : cell ≠ ptr) :
    (xslabFree wheel ptr).links.next cell = wheel.links.next cell := by
  unfold xslabFree
  split_ifs
  · simp [hne]
  · rfl

@[simp] private theorem xslabFree_malloced (wheel : Wheel) (ptr : Cell) :
    (xslabFree wheel ptr).malloced = wheel.malloced := by
  unfold xslabFree
  split_ifs <;> rfl

private theorem destroyLoop_walk {head : Fin 1024} {fuel : Nat} {node : Cell} {cells : List Cell}
    (hwalk : wheel.links.Walk node cells (.head head)) (hfuel : cells.length < fuel)
    (hcells : ∀ cell ∈ cells, cell ≠ .head head) (hnodup : cells.Nodup) :
    ∃ next, destroyLoop head fuel wheel node = some (next, cells) ∧
      next.malloced = wheel.malloced ∧
      ∀ cell ∉ cells, next.links.next cell = wheel.links.next cell := by
  induction cells generalizing wheel fuel node with
  | nil =>
    obtain ⟨fuel, rfl⟩ := Nat.exists_eq_succ_of_ne_zero (Nat.ne_of_gt hfuel)
    exact ⟨wheel, if_pos hwalk, rfl, fun _ _ => rfl⟩
  | cons cell rest ih =>
    obtain ⟨fuel, rfl⟩ := Nat.exists_eq_succ_of_ne_zero (Nat.ne_of_gt (Nat.zero_lt_of_lt hfuel))
    obtain ⟨rfl, after, hafter, hwalk⟩ := hwalk
    have hout := List.nodup_cons.mp hnodup
    have hwalk' : (xslabFree wheel node).links.Walk after rest (.head head) := by
      refine hwalk.congr fun cell hmem => xslabFree_next wheel ?_
      rintro rfl
      exact hout.1 hmem
    obtain ⟨next, hloop, hmalloced, hnext⟩ := ih hwalk' (Nat.lt_of_succ_lt_succ hfuel)
      (fun cell hmem => hcells cell (List.mem_cons_of_mem _ hmem)) hout.2
    refine ⟨next, ?_, hmalloced.trans (xslabFree_malloced wheel node), ?_⟩
    · rw [destroyLoop, if_neg (hcells node (by simp)), hafter]
      simp [hloop]
    · intro cell hmem
      rw [List.mem_cons, not_or] at hmem
      exact (hnext cell hmem.2).trans (xslabFree_next wheel hmem.1)

private theorem destroyLists_walks {lists : Fin 1024 → List Cell} {heads : List (Fin 1024)}
    (hheads : heads.Nodup)
    (hwalk : ∀ head ∈ heads, ∃ first, wheel.links.next (.head head) = some first ∧
      wheel.links.Walk first (lists head) (.head head) ∧ (lists head).Nodup ∧
      (lists head).length < wheel.malloced + 1)
    (happart : ∀ left right, left ≠ right → ∀ cell ∈ lists left, cell ∉ lists right)
    (hnode : ∀ left right, ∀ cell ∈ lists left, cell ≠ .head right) :
    ∃ next, destroyLists wheel heads = some (next, heads.flatMap lists) := by
  induction heads generalizing wheel with
  | nil => exact ⟨wheel, rfl⟩
  | cons head rest ih =>
    obtain ⟨hhead, hrest⟩ := List.nodup_cons.mp hheads
    obtain ⟨first, hfirst, hwalkHead, hnodup, hlength⟩ := hwalk head (by simp)
    obtain ⟨middle, hloop, hmalloced, hnext⟩ :=
      destroyLoop_walk hwalkHead hlength (hnode head head) hnodup
    have hwalk' : ∀ other ∈ rest, ∃ first, middle.links.next (.head other) = some first ∧
        middle.links.Walk first (lists other) (.head other) ∧ (lists other).Nodup ∧
        (lists other).length < middle.malloced + 1 := by
      intro other hmem
      obtain ⟨first, hfirst, hwalkOther, hnodup, hlength⟩ := hwalk other (by simp [hmem])
      have hne : other ≠ head := by
        rintro rfl
        exact hhead hmem
      refine ⟨first, ?_, hwalkOther.congr fun cell hcell => ?_, hnodup, hmalloced ▸ hlength⟩
      · rw [hnext _ fun h => hnode head other _ h rfl, hfirst]
      · exact hnext cell (happart other head hne cell hcell)
    obtain ⟨next, hlists⟩ := ih hrest hwalk'
    refine ⟨next, ?_⟩
    rw [destroyLists, hfirst]
    simp [hloop, hlists]

theorem Heap.gTimerDestroy (hheap : Heap wheel shape [] fun _ => True) :
    ∃ next, gTimerDestroy wheel = some (next, shape.pending) := by
  refine destroyLists_walks (List.nodup_finRange 1024) (fun head _ => hheap.walk head) ?_ ?_
  · intro left right hne cell hleft hright
    exact hheap.family.apart left right hne cell (List.mem_cons_of_mem _ hleft)
      (List.mem_cons_of_mem _ hright)
  · intro left right cell hmem
    exact (hheap.ownedLists left cell hmem).ne_head right

end Libsax.Timer
