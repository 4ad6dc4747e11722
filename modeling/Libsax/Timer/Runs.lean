import Libsax.Timer.Operations

/-! Runs of a wheel: any sequence of starts, cancels and polls, from the top
level and from inside callbacks, and a final destroy. -/
namespace Libsax.Timer

open Libsax.Lib

/-- One while the current tick is being fired: its list still has to be emptied. -/
def Control.turned : Control → Nat
  | .firing .. => 1
  | .callback .. => 1
  | _ => 0

/-- What `fire` holds in its hands. -/
def Control.Holds (held : List Cell) (ticks : Nat) : Control → Prop
  | .idle => held = []
  | .polling _ => held = []
  | .firing _ head => held = [] ∧ head = slotAt 0 ticks
  | .callback _ head node => held = [node] ∧ head = slotAt 0 ticks
  | .destroyed => False

structure Live (system : System) (shape : Shape) (due : Cell → Nat) : Prop where
  heap : Heap system.timer shape [] fun _ => True
  clock : system.timer.last = UInt32.ofNat system.ticks
  count : system.timer.count = UInt32.ofNat shape.pending.length
  holds : system.control.Holds shape.held system.ticks
  timed : Timed system.timer shape system.control.turned system.ticks due
  recorded : ∀ cell ∈ shape.pending, ∃ started,
    system.started[system.timer.serial cell]? = some started ∧
      system.timer.userData cell = started.userData ∧
      (started.delayTicks ≠ 0 → due cell = started.ticks + started.delayTicks.toNat)

/-- The ghost records: every started timer is either pending or has ended. -/
structure Books (system : System) (pending : List Nat) : Prop where
  ledger : (system.ended.map Ended.serial ++ pending).Perm (List.range system.started.length)
  handed : ∀ ended ∈ system.ended, ∃ started, system.started[ended.serial]? = some started ∧
    ended.userData = started.userData ∧
    (ended.outcome = .fired → started.delayTicks ≠ 0 →
      ended.ticks = started.ticks + started.delayTicks.toNat)
  freed : ∀ ended ∈ system.ended, ended.outcome = .freed → system.control = .destroyed

def Inv (system : System) : Prop :=
  (∃ shape due, Live system shape due ∧
    Books system (shape.pending.map system.timer.serial)) ∨
  (system.control = .destroyed ∧ Books system [])

variable {system next : System} {shape : Shape} {due : Cell → Nat}

theorem Live.not_destroyed (hlive : Live system shape due) : system.control ≠ .destroyed := by
  intro h
  have hholds := hlive.holds
  rw [h] at hholds
  exact hholds

theorem Control.turned_le (control : Control) : control.turned ≤ 1 := by
  cases control <;> simp [Control.turned]

/-- Timers that stay keep their due time, and one that is new got it when it was started. -/
structure Carries (system : System) (shape : Shape) (due : Cell → Nat) (next : System)
    (shape' : Shape) (due' : Cell → Nat) : Prop where
  kept : ∀ cell ∈ shape'.pending, next.timer.serial cell ≠ system.started.length →
    cell ∈ shape.pending ∧ next.timer.serial cell = system.timer.serial cell ∧
      due' cell = due cell
  fresh : ∀ cell ∈ shape'.pending, next.timer.serial cell = system.started.length →
    ∃ started, next.started = system.started ++ [started] ∧
      due' cell = dueTime system.control.turned system.ticks started.delayTicks

/-- What a call makes of a wheel. A timer that ends now was pending, and was due if it
fires. -/
structure Goes (system : System) (shape : Shape) (due : Cell → Nat) (next : System) : Prop where
  ends : ∀ ended ∈ next.ended, ended ∈ system.ended ∨ ∃ cell ∈ shape.pending,
    ended.serial = system.timer.serial cell ∧ (ended.outcome = .fired → ended.ticks = due cell)
  started : system.started <+: next.started
  carries : (∃ shape' due', Live next shape' due' ∧
      Books next (shape'.pending.map next.timer.serial) ∧
      Carries system shape due next shape' due') ∨
    (next.control = .destroyed ∧ Books next [])

theorem Goes.inv (hgoes : Goes system shape due next) : Inv next := by
  rcases hgoes.carries with ⟨shape', due', hlive, hbooks, -⟩ | hdestroyed
  · exact .inl ⟨shape', due', hlive, hbooks⟩
  · exact .inr hdestroyed

theorem Live.carries (hlive : Live system shape due) {shape' : Shape}
    (hserial : next.timer.serial = system.timer.serial)
    (hsub : ∀ cell ∈ shape'.pending, cell ∈ shape.pending) :
    Carries system shape due next shape' due := by
  refine ⟨fun cell hmem _ => ⟨hsub cell hmem, congrFun hserial cell, rfl⟩, fun cell hmem heq => ?_⟩
  obtain ⟨started, hstarted, -⟩ := hlive.recorded cell (hsub cell hmem)
  have hlt := (List.getElem?_eq_some_iff.mp hstarted).1
  rw [hserial] at heq
  omega

theorem Live.goes (hlive : Live system shape due) {shape' : Shape}
    (hlive' : Live next shape' due) (hbooks : Books next (shape'.pending.map next.timer.serial))
    (hended : next.ended = system.ended) (hstarted : next.started = system.started)
    (hserial : next.timer.serial = system.timer.serial)
    (hsub : ∀ cell ∈ shape'.pending, cell ∈ shape.pending) : Goes system shape due next :=
  ⟨fun _ hmem => .inl (hended ▸ hmem), hstarted ▸ List.prefix_refl _,
    .inl ⟨shape', due, hlive', hbooks, hlive.carries hserial hsub⟩⟩

theorem Books.congr {pending other : List Nat} (hbooks : Books system pending)
    (hperm : other.Perm pending) : Books system other :=
  { hbooks with ledger := (hperm.append_left _).trans hbooks.ledger }

private theorem getElem?_append_some {α : Type} {list : List α} {index : Nat} {value : α}
    (other : List α)
    (h : list[index]? = some value) : (list ++ other)[index]? = some value := by
  rw [List.getElem?_append_left (List.getElem?_eq_some_iff.mp h).1]
  exact h

theorem Books.start {pending : List Nat} {timer : Wheel} {started : Started}
    (hbooks : Books system pending) :
    Books { system with timer := timer, started := system.started ++ [started] }
      (system.started.length :: pending) where
  ledger := by
    rw [List.length_append, List.length_singleton, List.range_succ]
    refine List.perm_middle.trans ?_
    refine (hbooks.ledger.cons _).trans ?_
    exact (List.perm_append_singleton _ _).symm
  handed := by
    intro ended hmem
    obtain ⟨record, hrecord, hrest⟩ := hbooks.handed ended hmem
    exact ⟨record, getElem?_append_some _ hrecord, hrest⟩
  freed := hbooks.freed

theorem Live.start (hlive : Live system shape due)
    (hbooks : Books system (shape.pending.map system.timer.serial))
    (hcalls : system.control.calls) (delayTicks : UInt32) (userData : Nat) (memory : Bool) :
    ∃ next, system.start delayTicks userData memory = some next ∧
      Goes system shape due next := by
  unfold System.start
  rw [if_pos hcalls]
  obtain ⟨timer, result, hstart, hnone, hsome⟩ :=
    hlive.heap.gTimerStart delayTicks userData system.started.length memory
  rw [hstart]
  cases result with
  | none =>
    refine ⟨_, rfl, ?_⟩
    rw [hnone rfl]
    exact hlive.goes hlive hbooks rfl rfl rfl fun _ => id
  | some node =>
    refine ⟨_, rfl, ?_⟩
    obtain ⟨free, hheap, hfresh, hexpire, huserData, hserial, hlast, hcount⟩ := hsome node rfl
    obtain ⟨hplaced, hdue⟩ :=
      Placed.start system.control.turned system.ticks delayTicks system.control.turned_le
    rw [← hlive.clock] at hplaced hdue
    generalize listHead (system.timer.last + delayTicks) delayTicks = head
      at hheap hplaced hdue
    have hpending : (shape.put head (node :: shape.lists head)).pending.Perm
        (node :: shape.pending) := by
      refine (List.perm_append_right_iff (shape.lists head)).mp
        ((shape.put_pending head _).trans ?_)
      exact List.perm_middle
    have hout : node ∉ shape.pending := by
      intro hmem
      obtain ⟨other, hmem⟩ := Shape.mem_pending.mp hmem
      exact hfresh other hmem
    have hold : ∀ cell ∈ shape.pending, cell ≠ node := by
      rintro cell hmem rfl
      exact hout hmem
    refine ⟨fun ended hmem => .inl hmem, List.prefix_append _ _, .inl ⟨_,
      Function.update due node (dueTime system.control.turned system.ticks delayTicks),
      ⟨hheap, hlast.trans hlive.clock, ?_, hlive.holds, ?_, ?_⟩, ?_, ?_, ?_⟩⟩
    · change timer.count = UInt32.ofNat (shape.put head (node :: shape.lists head)).pending.length
      rw [hcount, hlive.count, hpending.length_eq, List.length_cons, UInt32.ofNat_add]
      rfl
    · intro j cell hmem
      change Placed system.control.turned system.ticks j _ ∧ (_ → timer.expire cell = _)
      have hcell : cell = node ∧ j = head ∨ cell ∈ shape.lists j := by
        replace hmem : cell ∈ (shape.put head (node :: shape.lists head)).lists j := hmem
        rw [Shape.mem_put] at hmem
        split_ifs at hmem with hj
        · rcases List.mem_cons.mp hmem with h | h
          · exact .inl ⟨h, hj⟩
          · exact .inr (hj ▸ h)
        · exact .inr hmem
      rcases hcell with ⟨rfl, rfl⟩ | hcell
      · rw [hexpire, Function.update_self, Function.update_self]
        exact ⟨hplaced, hdue⟩
      · have hne := hold cell (Shape.mem_pending.mpr ⟨j, hcell⟩)
        rw [hexpire, Function.update_of_ne hne, Function.update_of_ne hne]
        exact hlive.timed j cell hcell
    · intro cell hmem
      rcases List.mem_cons.mp (hpending.mem_iff.mp hmem) with rfl | h
      · refine ⟨⟨system.ticks, delayTicks, userData⟩, ?_, ?_, ?_⟩
        · simp [hserial]
        · simp [huserData]
        · intro hne
          rw [Function.update_self, dueTime, if_neg fun h => hne h.1]
      · have hne := hold cell h
        obtain ⟨record, hrecord, hdata, hrecordDue⟩ := hlive.recorded cell h
        refine ⟨record, ?_, ?_, ?_⟩
        · rw [hserial, Function.update_of_ne hne]
          exact getElem?_append_some _ hrecord
        · rw [huserData, Function.update_of_ne hne]
          exact hdata
        · rw [Function.update_of_ne hne]
          exact hrecordDue
    · refine hbooks.start.congr ((hpending.map _).trans ?_)
      rw [List.map_cons, hserial, Function.update_self]
      refine .of_eq (congrArg _ (List.map_congr_left fun cell hmem => ?_))
      exact Function.update_of_ne (hold cell hmem) _ _
    · intro cell hmem hne
      rcases List.mem_cons.mp (hpending.mem_iff.mp hmem) with rfl | h
      · exact absurd (by rw [hserial, Function.update_self]) hne
      · have hother := hold cell h
        rw [hserial, Function.update_of_ne hother, Function.update_of_ne hother]
        exact ⟨h, rfl, rfl⟩
    · intro cell hmem heq
      rcases List.mem_cons.mp (hpending.mem_iff.mp hmem) with rfl | h
      · rw [Function.update_self]
        exact ⟨_, rfl, rfl⟩
      · obtain ⟨record, hrecord, -⟩ := hlive.recorded cell h
        have hlt := (List.getElem?_eq_some_iff.mp hrecord).1
        rw [hserial, Function.update_of_ne (hold cell h)] at heq
        omega

theorem Books.finish {pending : List Nat} {ended : Ended} {timer : Wheel} {control : Control}
    (hbooks : Books system (ended.serial :: pending)) (hcontrol : system.control ≠ .destroyed)
    {started : Started} (hstarted : system.started[ended.serial]? = some started)
    (huserData : ended.userData = started.userData) (hfreed : ended.outcome ≠ .freed)
    (hfired : ended.outcome = .fired → started.delayTicks ≠ 0 →
      ended.ticks = started.ticks + started.delayTicks.toNat) :
    Books { system with timer := timer, control := control, ended := system.ended ++ [ended] }
      pending where
  ledger := by
    rw [List.map_append, List.map_singleton, List.append_assoc, List.singleton_append]
    exact hbooks.ledger
  handed := by
    intro other hmem
    rcases List.mem_append.mp hmem with h | h
    · exact hbooks.handed other h
    · rw [List.mem_singleton.mp h]
      exact ⟨started, hstarted, huserData, hfired⟩
  freed := by
    intro other hmem houtcome
    rcases List.mem_append.mp hmem with h | h
    · exact absurd (hbooks.freed other h houtcome) hcontrol
    · rw [List.mem_singleton.mp h] at houtcome
      exact absurd houtcome hfreed

@[simp] private theorem ofNat_succ_sub_one (number : Nat) :
    UInt32.ofNat (number + 1) - 1 = UInt32.ofNat number := by
  rw [UInt32.ofNat_add]
  exact UInt32.add_sub_cancel _ _

theorem Live.leave (hlive : Live system shape due) {head : Fin 1024} {cell : Cell}
    {left right : List Cell} (hlist : shape.lists head = left ++ cell :: right) {timer : Wheel}
    {control : Control} {held free : List Cell} {ended : Ended}
    (hheap : Heap timer
      { shape.put head (left ++ right) with held := held, free := free } [] fun _ => True)
    (htimer : timer = { system.timer with
      count := system.timer.count - 1
      links := timer.links
      pool := timer.pool })
    (hholds : control.Holds held system.ticks) (hturned : control.turned = system.control.turned)
    (hended : ended.serial = system.timer.serial cell ∧
      ended.userData = system.timer.userData cell ∧ ended.outcome ≠ .freed)
    (hfired : ended.outcome = .fired → ended.ticks = due cell)
    (hbooks : Books system (shape.pending.map system.timer.serial)) :
    Goes system shape due
      { system with timer := timer, control := control, ended := system.ended ++ [ended] } := by
  have hperm := Shape.perm_of_remove hlist
  have hsub : ∀ j, ∀ other ∈ (shape.put head (left ++ right)).lists j, other ∈ shape.lists j := by
    intro j other hmem
    refine Shape.mem_put_of_mem (fun entry h => ?_) hmem
    rw [hlist]
    rcases List.mem_append.mp h with h | h
    · simp [h]
    · simp [h]
  obtain ⟨links, pool, rfl⟩ : ∃ links pool, timer = { system.timer with
      count := system.timer.count - 1, links := links, pool := pool } := ⟨_, _, htimer⟩
  obtain ⟨started, hstarted, huserData, hdue⟩ := hlive.recorded cell (hperm.mem_iff.mpr (by simp))
  refine ⟨fun other hmem => ?_, List.prefix_refl _,
    .inl ⟨_, due, ⟨hheap, hlive.clock, ?_, hholds, ?_, ?_⟩, ?_, hlive.carries rfl fun other hmem =>
      hperm.mem_iff.mpr (List.mem_cons_of_mem _ hmem)⟩⟩
  · rcases List.mem_append.mp hmem with h | h
    · exact .inl h
    · rw [List.mem_singleton.mp h]
      exact .inr ⟨cell, hperm.mem_iff.mpr (by simp), hended.1, hfired⟩
  · change system.timer.count - 1 =
      UInt32.ofNat (shape.put head (left ++ right)).pending.length
    rw [hlive.count, hperm.length_eq, List.length_cons, ofNat_succ_sub_one]
  · intro j other hmem
    change Placed control.turned system.ticks j _ ∧ _
    rw [hturned]
    exact hlive.timed j other (hsub j other hmem)
  · intro other hmem
    exact hlive.recorded other (hperm.mem_iff.mpr (List.mem_cons_of_mem _ hmem))
  · refine Books.finish (hbooks.congr ?_) hlive.not_destroyed (hended.1 ▸ hstarted)
      (hended.2.1.trans huserData) hended.2.2 fun houtcome hne => ?_
    · rw [hended.1, ← List.map_cons]
      exact (hperm.map system.timer.serial).symm
    · exact (hfired houtcome).trans (hdue hne)

theorem Live.cancel (hlive : Live system shape due)
    (hbooks : Books system (shape.pending.map system.timer.serial))
    (hcalls : system.control.calls) {number : Nat} (hnumber : number < system.timer.malloced) :
    ∃ next, system.cancel (.node number) = some next ∧ Goes system shape due next ∧
      (Cell.node number ∈ shape.pending → next.ended = system.ended ++
        [⟨system.timer.serial (.node number), .cancelled, system.ticks,
          system.timer.userData (.node number)⟩]) := by
  unfold System.cancel
  simp only [hcalls, hnumber, decide_true, Bool.and_self, if_true]
  rcases hlive.heap.gTimerCancel hnumber with
    ⟨hout, hcancel⟩ | ⟨timer, head, left, right, hlist, hcancel, hheap, htimer⟩
  · rw [hcancel]
    exact ⟨_, rfl, hlive.goes hlive hbooks rfl rfl rfl fun _ => id, fun h => absurd h hout⟩
  · rw [hcancel]
    refine ⟨_, rfl, ?_, fun _ => rfl⟩
    exact hlive.leave hlist hheap htimer hlive.holds rfl ⟨rfl, rfl, by simp⟩
      (fun h => absurd h (by simp)) hbooks

theorem Books.control {pending : List Nat} (hbooks : Books system pending)
    (hcontrol : system.control ≠ .destroyed) {timer : Wheel} {control : Control} {ticks : Nat} :
    Books { system with timer := timer, control := control, ticks := ticks } pending where
  ledger := hbooks.ledger
  handed := hbooks.handed
  freed := fun ended hmem houtcome => absurd (hbooks.freed ended hmem houtcome) hcontrol

theorem Live.poll (hlive : Live system shape due)
    (hbooks : Books system (shape.pending.map system.timer.serial))
    (hidle : system.control = .idle) (lapsedTicks : UInt32) :
    ∃ next, system.poll lapsedTicks = some next ∧ Goes system shape due next := by
  have hholds := hlive.holds
  have htimed := hlive.timed
  rw [hidle] at hholds htimed
  exact ⟨_, if_pos hidle, hlive.goes { hlive with holds := hholds, timed := htimed }
    (hbooks.control hlive.not_destroyed) rfl rfl rfl fun _ => id⟩

theorem Timed.fired {wheel : Wheel} {now : Nat} (htimed : Timed wheel shape 1 now due)
    (hempty : shape.lists (slotAt 0 now) = []) : Timed wheel shape 0 now due := by
  intro head cell hmem
  obtain ⟨hplaced, hexpire⟩ := htimed head cell hmem
  refine ⟨hplaced.stay (by decide) ?_, hexpire⟩
  rintro rfl
  rw [hempty] at hmem
  exact absurd hmem (by simp)

theorem Live.advance (hlive : Live system shape due)
    (hbooks : Books system (shape.pending.map system.timer.serial))
    (hrunning : system.control ≠ .idle) :
    ∃ next, system.advance = some next ∧ Goes system shape due next := by
  unfold System.advance
  have hholds := hlive.holds
  have htimed := hlive.timed
  have hactive := hlive.not_destroyed
  cases hcontrol : system.control with
  | idle => exact absurd hcontrol hrunning
  | destroyed => exact absurd hcontrol hactive
  | polling lapsedTicks =>
    rw [hcontrol] at hholds htimed
    dsimp only
    split_ifs with hdone
    · exact ⟨_, rfl, hlive.goes { hlive with holds := hholds, timed := htimed }
        (hbooks.control hactive) rfl rfl rfl fun _ => id⟩
    · obtain ⟨timer, lists, htick, hturned⟩ := Turned.tick hlive.clock hlive.heap htimed
      rw [htick]
      refine ⟨_, rfl, ?_⟩
      obtain ⟨links, rfl⟩ : ∃ links, timer = { system.timer with
          last := UInt32.ofNat (system.ticks + 1), links := links } := ⟨_, hturned.same⟩
      refine hlive.goes ⟨hturned.heap, rfl, ?_, ⟨hholds, rfl⟩, hturned.timed, ?_⟩ ?_ rfl rfl rfl
        fun cell hmem => hturned.perm.mem_iff.mp hmem
      · exact hlive.count.trans (congrArg UInt32.ofNat hturned.perm.length_eq.symm)
      · exact fun cell hmem => hlive.recorded cell (hturned.perm.mem_iff.mp hmem)
      · exact (hbooks.congr (hturned.perm.map system.timer.serial)).control hactive
  | firing lapsedTicks head =>
    rw [hcontrol] at hholds htimed
    obtain ⟨hheld, rfl⟩ := hholds
    have hring := hlive.heap.family.ring (slotAt 0 system.ticks) trivial
    dsimp only
    cases hlist : shape.lists (slotAt 0 system.ticks) with
    | nil =>
      rw [hlist] at hring
      rw [hring.segment.1]
      refine ⟨_, if_pos rfl, ?_⟩
      exact hlive.goes { hlive with holds := hheld, timed := htimed.fired hlist }
        (hbooks.control hactive) rfl rfl rfl fun _ => id
    | cons node rest =>
      have hmem : node ∈ shape.lists (slotAt 0 system.ticks) := by simp [hlist]
      have hne := (hlive.heap.ownedLists _ node hmem).ne_head (slotAt 0 system.ticks)
      have hfront : shape.lists (slotAt 0 system.ticks) = [] ++ node :: rest := hlist
      obtain ⟨links, hremove, hheap⟩ := hlive.heap.remove trivial hfront
      rw [hlist] at hring
      rw [hring.segment.1]
      simp only [Option.bind_eq_bind, Option.bind_some, if_neg hne, hremove]
      refine ⟨_, rfl, ?_⟩
      have hdue : system.ticks = due node := by
        have hplaced := (htimed _ node hmem).1.turned (by decide : 0 < 4)
        omega
      exact hlive.leave hfront { hheap with } rfl ⟨by simp [hheld], rfl⟩
        (by rw [hcontrol]; rfl) ⟨rfl, rfl, by simp⟩ (fun _ => hdue) hbooks
  | callback lapsedTicks head node =>
    rw [hcontrol] at hholds htimed
    refine ⟨_, rfl, ?_⟩
    have hheap := hlive.heap.xslabFree hholds.1
    have hfree : xslabFree system.timer node = { system.timer with
        links := (xslabFree system.timer node).links
        pool := (xslabFree system.timer node).pool } := by
      unfold xslabFree
      rw [if_pos hlive.heap.shrink]
    generalize xslabFree system.timer node = timer at hheap hfree
    obtain ⟨links, pool, rfl⟩ : ∃ links pool,
        timer = { system.timer with links := links, pool := pool } := ⟨_, _, hfree⟩
    exact hlive.goes ⟨hheap, hlive.clock, hlive.count, ⟨rfl, hholds.2⟩, htimed, hlive.recorded⟩
      (hbooks.control hactive) rfl rfl rfl fun _ => id

theorem Live.destroy (hlive : Live system shape due)
    (hbooks : Books system (shape.pending.map system.timer.serial))
    (hidle : system.control = .idle) :
    ∃ next, system.destroy = some next ∧ Goes system shape due next := by
  unfold System.destroy
  obtain ⟨timer, hdestroy⟩ := hlive.heap.gTimerDestroy
  rw [if_pos hidle, hdestroy]
  refine ⟨_, rfl, fun ended hmem => ?_, List.prefix_refl _,
    .inr ⟨rfl, ?_, ?_, fun _ _ _ => rfl⟩⟩
  · rcases List.mem_append.mp hmem with h | h
    · exact .inl h
    · obtain ⟨cell, hcell, rfl⟩ := List.mem_map.mp h
      exact .inr ⟨cell, hcell, rfl, fun h => absurd h (by simp)⟩
  · rw [List.map_append, List.map_map, List.append_nil]
    exact hbooks.ledger
  · intro ended hmem
    rcases List.mem_append.mp hmem with h | h
    · exact hbooks.handed ended h
    · obtain ⟨cell, hcell, rfl⟩ := List.mem_map.mp h
      obtain ⟨started, hstarted, huserData, -⟩ := hlive.recorded cell hcell
      exact ⟨started, hstarted, huserData, fun h => absurd h (by simp)⟩

/-- The calls that the wheel is open to: a destroyed wheel to none, a callback
to starts and cancels, and a cancel needs a handle that a start has returned. -/
def System.Enabled (system : System) : Action → Prop
  | .start .. => system.control.calls
  | .cancel (.node number) => system.control.calls ∧ number < system.timer.malloced
  | .cancel (.head _) => False
  | .poll _ => system.control = .idle
  | .advance => system.control ≠ .idle ∧ system.control ≠ .destroyed
  | .destroy => system.control = .idle

theorem enabled_of_step {action : Action} (hstep : step system action = some next) :
    system.Enabled action := by
  cases action with
  | start delayTicks userData memory =>
    simp only [step, System.start] at hstep
    split_ifs at hstep with h
    exact h
  | cancel node =>
    cases node with
    | head _ => exact absurd hstep (by simp [step, System.cancel])
    | node number =>
      simp only [step, System.cancel] at hstep
      split_ifs at hstep with h
      simpa [System.Enabled] using h
  | poll lapsedTicks =>
    simp only [step, System.poll] at hstep
    split_ifs at hstep with h
    exact h
  | advance =>
    simp only [step, System.advance] at hstep
    constructor <;> intro h <;> simp [h] at hstep
  | destroy =>
    simp only [step, System.destroy] at hstep
    split_ifs at hstep with h
    exact h

theorem Live.enabled (hlive : Live system shape due)
    (hbooks : Books system (shape.pending.map system.timer.serial)) {action : Action}
    (henabled : system.Enabled action) :
    ∃ next, step system action = some next ∧ Goes system shape due next := by
  cases action with
  | start delayTicks userData memory => exact hlive.start hbooks henabled _ _ _
  | cancel node =>
    cases node with
    | head _ => exact henabled.elim
    | node number =>
      obtain ⟨next, hcancel, hnext, -⟩ := hlive.cancel hbooks henabled.1 henabled.2
      exact ⟨next, hcancel, hnext⟩
  | poll lapsedTicks => exact hlive.poll hbooks henabled _
  | advance => exact hlive.advance hbooks henabled.1
  | destroy => exact hlive.destroy hbooks henabled

theorem Inv.enabled {action : Action} (hinv : Inv system) (henabled : system.Enabled action) :
    ∃ next, step system action = some next ∧ Inv next := by
  rcases hinv with ⟨shape, due, hlive, hbooks⟩ | ⟨hcontrol, -⟩
  · obtain ⟨next, hnext, hgoes⟩ := hlive.enabled hbooks henabled
    exact ⟨next, hnext, hgoes.inv⟩
  · cases action with
    | cancel node =>
      cases node with
      | head _ => exact henabled.elim
      | node number => exact absurd henabled.1 (by simp [hcontrol, Control.calls])
    | start | poll | advance | destroy =>
      simp [System.Enabled, hcontrol, Control.calls] at henabled

theorem Inv.step {action : Action} (hinv : Inv system)
    (hstep : Timer.step system action = some next) : Inv next := by
  obtain ⟨other, hother, hnext⟩ := hinv.enabled (enabled_of_step hstep)
  rw [hstep] at hother
  cases hother
  exact hnext

theorem create_inv (now : UInt32) : Inv (create now) := by
  have hempty : (⟨fun _ => [], [], []⟩ : Shape).pending = [] := by
    simp [Shape.pending]
  refine .inl ⟨⟨fun _ => [], [], []⟩, fun _ => 0, ⟨?_, ?_, ?_, rfl, ?_, ?_⟩, ?_⟩
  · constructor
    case family =>
      refine ⟨fun head _ => ⟨⟨rfl, rfl⟩, by simp⟩, ?_⟩
      intro left right hne cell hleft hright
      rw [List.mem_singleton] at hleft hright
      exact hne (Cell.head.inj (hleft.symm.trans hright))
    case chain => rfl
    case usable => rfl
    case shrink => rfl
    case distinct => exact List.nodup_nil
    case accounted => exact fun number hlt _ => absurd hlt (Nat.not_lt_zero number)
    all_goals simp
  · exact (UInt32.ofNat_toNat).symm
  · rw [hempty]
    rfl
  · intro head cell hmem
    exact absurd hmem (by simp)
  · rw [hempty]
    simp
  · rw [hempty]
    exact ⟨.refl _, by simp [create], by simp [create]⟩

theorem reachable_inv {now : UInt32} {actions : List Action} {final : System}
    (hrun : run Timer.step (create now) actions = some final) : Inv final :=
  run_invariant (fun _ _ _ hinv hstep => Inv.step hinv hstep) (create_inv now) hrun

/-- Timers fire when their delay has elapsed, neither earlier nor later. -/
structure OnTime (system : System) : Prop where
  clock : system.control ≠ .destroyed → system.timer.last = UInt32.ofNat system.ticks
  exact : ∀ ended ∈ system.ended, ended.outcome = .fired →
    ∀ started, system.started[ended.serial]? = some started → started.delayTicks ≠ 0 →
      ended.ticks = started.ticks + started.delayTicks.toNat
  /-- once the tick is over in which a timer was due, that timer has ended -/
  notLate : system.control ≠ .destroyed →
    ∀ serial started, system.started[serial]? = some started → started.delayTicks ≠ 0 →
      started.ticks + started.delayTicks.toNat + system.control.turned ≤ system.ticks →
        ∃ ended ∈ system.ended, ended.serial = serial
  /-- a running poll can always go on -/
  goesOn : system.control ≠ .idle → system.control ≠ .destroyed → system.advance.isSome

theorem Live.notLate (hlive : Live system shape due)
    (hbooks : Books system (shape.pending.map system.timer.serial)) {serial : Nat}
    {started : Started} (hstarted : system.started[serial]? = some started)
    (hdelay : started.delayTicks ≠ 0)
    (hpassed : started.ticks + started.delayTicks.toNat + system.control.turned ≤ system.ticks) :
    ∃ ended ∈ system.ended, ended.serial = serial := by
  have hserial : serial ∈ List.range system.started.length :=
    List.mem_range.mpr (List.getElem?_eq_some_iff.mp hstarted).1
  rcases List.mem_append.mp (hbooks.ledger.mem_iff.mpr hserial) with hmem | hmem
  · obtain ⟨ended, hended, rfl⟩ := List.mem_map.mp hmem
    exact ⟨ended, hended, rfl⟩
  · exfalso
    obtain ⟨cell, hcell, rfl⟩ := List.mem_map.mp hmem
    obtain ⟨record, hrecord, -, hdue⟩ := hlive.recorded cell hcell
    rw [hstarted] at hrecord
    cases hrecord
    obtain ⟨head, hlisted⟩ := Shape.mem_pending.mp hcell
    have hplaced := (hlive.timed head cell hlisted).1.ahead system.control.turned_le
    have := hdue hdelay
    omega

theorem timer_on_time (now : UInt32) (actions : List Action) (final : System)
    (hrun : run Timer.step (create now) actions = some final) : OnTime final := by
  rcases reachable_inv hrun with ⟨shape, due, hlive, hbooks⟩ | ⟨hcontrol, hbooks⟩
  · refine ⟨fun _ => hlive.clock, ?_, fun _ _ _ => hlive.notLate hbooks, ?_⟩
    · intro ended hmem houtcome started hstarted hdelay
      obtain ⟨record, hrecord, -, hfired⟩ := hbooks.handed ended hmem
      rw [hstarted] at hrecord
      cases hrecord
      exact hfired houtcome hdelay
    · intro hrunning _
      obtain ⟨next, hnext, -⟩ := hlive.advance hbooks hrunning
      rw [hnext]
      rfl
  · refine ⟨fun h => absurd hcontrol h, ?_, fun h => absurd hcontrol h,
      fun _ h => absurd hcontrol h⟩
    intro ended hmem houtcome started hstarted hdelay
    obtain ⟨record, hrecord, -, hfired⟩ := hbooks.handed ended hmem
    rw [hstarted] at hrecord
    cases hrecord
    exact hfired houtcome hdelay

/-- A timer of 3 ticks started two ticks before the counter wraps around. -/
theorem timer_on_time_wrap : ∃ final,
    run Timer.step (create 0xFFFFFFFE)
        (.start 3 7 true :: .poll 3 :: List.replicate 9 .advance) = some final ∧
      final.control = .idle ∧ final.ended = [⟨0, .fired, 2 ^ 32 + 1, 7⟩] ∧ OnTime final :=
  ⟨_, rfl, rfl, rfl, timer_on_time 0xFFFFFFFE
    (.start 3 7 true :: .poll 3 :: List.replicate 9 .advance) _ rfl⟩

/-- Every started timer is pending or has ended, and never both or twice. -/
structure Lifecycle (system : System) : Prop where
  ledger : system.control ≠ .destroyed →
    (system.ended.map Ended.serial ++ system.timer.pending.map system.timer.serial).Perm
      (List.range system.started.length)
  ledgerDestroyed : system.control = .destroyed →
    (system.ended.map Ended.serial).Perm (List.range system.started.length)
  count : system.control ≠ .destroyed →
    gTimerCount system.timer = UInt32.ofNat system.timer.pending.length
  distinct : system.control ≠ .destroyed → system.timer.pending.Nodup
  /-- whoever ends a timer is handed the user data of its start -/
  handed : ∀ ended ∈ system.ended, ∃ started, system.started[ended.serial]? = some started ∧
    ended.userData = started.userData
  freed : ∀ ended ∈ system.ended, ended.outcome = .freed → system.control = .destroyed
  /-- a pending timer can be cancelled wherever calls are made -/
  cancel : system.control.calls → ∀ cell ∈ system.timer.pending,
    ∃ next, system.cancel cell = some next ∧ next.ended = system.ended ++
      [⟨system.timer.serial cell, .cancelled, system.ticks, system.timer.userData cell⟩]
  enabled : ∀ action, system.Enabled action → (step system action).isSome

theorem timer_lifecycle (now : UInt32) (actions : List Action) (final : System)
    (hrun : run Timer.step (create now) actions = some final) : Lifecycle final := by
  have hinv := reachable_inv hrun
  have henabled : ∀ action, final.Enabled action → (step final action).isSome := by
    intro action h
    obtain ⟨next, hnext, -⟩ := hinv.enabled h
    rw [hnext]
    rfl
  rcases hinv with ⟨shape, due, hlive, hbooks⟩ | ⟨hcontrol, hbooks⟩
  · have hpending := hlive.heap.pending
    refine ⟨fun _ => hpending ▸ hbooks.ledger, fun h => absurd h hlive.not_destroyed,
      fun _ => hpending ▸ hlive.count, fun _ => hpending ▸ hlive.heap.pending_nodup, ?_,
      hbooks.freed, ?_, henabled⟩
    · intro ended hmem
      obtain ⟨started, hstarted, huserData, -⟩ := hbooks.handed ended hmem
      exact ⟨started, hstarted, huserData⟩
    · intro hcalls cell hmem
      rw [hpending] at hmem
      obtain ⟨head, hlisted⟩ := Shape.mem_pending.mp hmem
      obtain ⟨number, hnumber, rfl⟩ := hlive.heap.ownedLists head cell hlisted
      obtain ⟨next, hcancel, -, hended⟩ := hlive.cancel hbooks hcalls hnumber
      exact ⟨next, hcancel, hended hmem⟩
  · refine ⟨fun h => absurd hcontrol h, fun _ => ?_, fun h => absurd hcontrol h,
      fun h => absurd hcontrol h, ?_, hbooks.freed, ?_, henabled⟩
    · simpa using hbooks.ledger
    · intro ended hmem
      obtain ⟨started, hstarted, huserData, -⟩ := hbooks.handed ended hmem
      exact ⟨started, hstarted, huserData⟩
    · intro hcalls
      rw [hcontrol] at hcalls
      exact absurd hcalls (by decide)

/-- One timer fires, one is cancelled by its callback and one is left over. -/
theorem timer_lifecycle_three : ∃ final,
    run Timer.step (create 0)
        [.start 1 7 true, .start 1 8 true, .start 300 9 true, .poll 1, .advance, .advance,
          .cancel (.node 0), .advance, .advance, .advance, .cancel (.node 0)] = some final ∧
      final.ended = [⟨1, .fired, 1, 8⟩, ⟨0, .cancelled, 1, 7⟩] ∧
      final.timer.pending = [.node 2] ∧ Lifecycle final :=
  ⟨_, rfl, rfl, by decide +kernel, timer_lifecycle 0
    [.start 1 7 true, .start 1 8 true, .start 300 9 true, .poll 1, .advance, .advance,
      .cancel (.node 0), .advance, .advance, .advance, .cancel (.node 0)] _ rfl⟩

private theorem gTimerStart_some {wheel next : Wheel} {delayTicks : UInt32} {userData serial : Nat}
    {result : Option Cell}
    (hstart : gTimerStart wheel delayTicks userData serial true = some (next, result)) :
    result ≠ none := by
  rintro rfl
  obtain ⟨⟨allocated, node⟩, halloc, hrest⟩ := Option.bind_eq_some_iff.mp hstart
  cases node with
  | none =>
    unfold xslabAlloc at halloc
    rw [if_pos rfl] at halloc
    split_ifs at halloc
    · obtain ⟨ptr, -, hresult⟩ := Option.bind_eq_some_iff.mp halloc
      cases hresult
    · cases halloc
  | some node =>
    obtain ⟨scheduled, -, hresult⟩ := Option.bind_eq_some_iff.mp hrest
    cases hresult

private theorem starts_run (n : Nat) : ∃ final,
    run Timer.step (create 0) (List.replicate n (.start 300 9 true)) = some final ∧
      final.control = .idle ∧ final.ended = [] ∧ final.started.length = n := by
  induction n with
  | zero => exact ⟨create 0, rfl, rfl, rfl, rfl⟩
  | succ n ih =>
    obtain ⟨system, hrun, hidle, hended, hlength⟩ := ih
    have hcalls : system.control.calls = true := by
      rw [hidle]
      rfl
    have henabled : system.Enabled (.start 300 9 true) := hcalls
    obtain ⟨next, hstep, -⟩ := (reachable_inv hrun).enabled henabled
    have hnext := hstep
    simp only [Timer.step, System.start, if_pos hcalls] at hnext
    obtain ⟨⟨timer, node⟩, hstart, hresult⟩ := Option.bind_eq_some_iff.mp hnext
    obtain ⟨node, rfl⟩ := Option.ne_none_iff_exists'.mp (gTimerStart_some hstart)
    cases hresult
    refine ⟨{ system with
      timer := timer
      started := system.started ++ [⟨system.ticks, 300, 9⟩] }, ?_, hidle, hended, ?_⟩
    · rw [List.replicate_succ', run_append, hrun, Option.bind_some]
      exact run_cons_eq_some.mpr ⟨_, hstep, rfl⟩
    · rw [List.length_append, hlength, List.length_singleton]

/-- With 2^32 timers pending the counter reads 0. -/
theorem gTimerCount_wraps : ∃ final,
    run Timer.step (create 0) (List.replicate (2 ^ 32) (.start 300 9 true)) = some final ∧
      final.timer.pending.length = 2 ^ 32 ∧ (gTimerCount final.timer).toNat = 0 := by
  obtain ⟨final, hrun, hidle, hended, hlength⟩ := starts_run (2 ^ 32)
  rcases reachable_inv hrun with ⟨shape, due, hlive, hbooks⟩ | ⟨hcontrol, -⟩
  · have hpending := hbooks.ledger.length_eq
    rw [hended, List.map_nil, List.nil_append, List.length_map, List.length_range, hlength] at hpending
    refine ⟨final, hrun, by rw [hlive.heap.pending, hpending], ?_⟩
    rw [gTimerCount, hlive.count, hpending]
    rfl
  · rw [hidle] at hcontrol
    cases hcontrol

end Libsax.Timer
