import Mathlib.Data.List.Nodup
import Libsax.Stage.EventQueueLayout

/-! Runs of the event ring: any interleaving of allocation attempts, commits,
payload writes and steps of the one consumer. -/
namespace Libsax.Stage.EventQueue

open Libsax.Lib

def System.destroyed (system : System) : Nat :=
  system.returned.length - system.popped.toList.length

/-- What the ring promises its producers and its consumer. -/
structure Sound (system : System) : Prop where
  inside : ∀ event ∈ system.live, 0 ≤ event.pos ∧ event.stop ≤ system.queue.cap
  disjoint : system.live.Pairwise Event.Apart
  /-- every event allocated and not yet destroyed is still there, in order -/
  kept : system.live.map Event.serial = (List.range system.allocated).drop system.destroyed
  committedOnly : ∀ entry ∈ system.returned, ∃ event, entry = some event ∧ event.committed
  /-- the pops returned the events 0, 1, 2, ... in the order of allocation -/
  inOrder : system.returned.map (Option.map Event.serial) =
    (List.range system.returned.length).map some
  /-- the next `pop_event` finds the oldest event as soon as it is committed -/
  next : system.popped = none → (popEvent system.queue).2 = oldest system.live

structure Inv (system : System) : Prop where
  capacity : headerSize < system.queue.cap
  layout : Layout system.queue system.live
  kept : system.live.map Event.serial = (List.range system.allocated).drop system.destroyed
  bound : system.popped.toList.length ≤ system.returned.length ∧
    system.destroyed ≤ system.allocated
  committedOnly : ∀ entry ∈ system.returned, ∃ event, entry = some event ∧ event.committed
  inOrder : system.returned.map (Option.map Event.serial) =
    (List.range system.returned.length).map some
  held : ∀ ptr, system.popped = some ptr → ∃ event rest, system.live = event :: rest ∧
    event.ptr = ptr ∧ event.committed ∧ system.queue.freePos = event.pos

theorem Inv.sound {system : System} (hinv : Inv system) : Sound system where
  inside := fun _ hmem => hinv.layout.inside hmem
  disjoint := hinv.layout.disjoint
  kept := hinv.kept
  committedOnly := hinv.committedOnly
  inOrder := hinv.inOrder
  next := fun _ => by
    obtain ⟨freePos, hpop, -, -⟩ := hinv.layout.popEvent
    rw [hpop]

theorem create_inv (cap : Int) (hcap : headerSize < cap) (bytes : Int → EventHeader) :
    Inv (create cap bytes) where
  capacity := hcap
  layout := .linear (Int.le_refl 0) (by
    have hheader : (0 : Int) < headerSize := by decide
    dsimp only [create]
    omega) rfl
  kept := rfl
  bound := ⟨Nat.le_refl 0, Nat.le_refl 0⟩
  committedOnly := by simp [create]
  inOrder := rfl
  held := by simp [create]

theorem Inv.allocate {system next : System} (hinv : Inv system) {size : Nat} (hfits : fits size)
    (hstep : system.allocate size = some next) : Inv next := by
  unfold System.allocate at hstep
  split_ifs at hstep with hsize
  have hpos : 0 < size := Nat.pos_of_ne_zero hsize
  cases hattempt : allocateEvent system.queue size with
  | mk queue result =>
    obtain ⟨hcap, hfree, hnone, hsome⟩ :=
      hinv.layout.allocateEvent hpos hfits hattempt system.allocated
    rw [hattempt] at hstep
    cases result with
    | none =>
      cases hstep
      rw [hnone rfl]
      exact hinv
    | some ptr =>
      cases hstep
      refine ⟨hcap ▸ hinv.capacity, hsome ptr rfl, ?_, ?_, hinv.committedOnly, hinv.inOrder, ?_⟩
      · change (system.live ++ [_]).map Event.serial =
          (List.range (system.allocated + 1)).drop system.destroyed
        rw [List.map_append, hinv.kept, List.range_succ,
          List.drop_append_of_le_length (by simpa using hinv.bound.2)]
        rfl
      · exact ⟨hinv.bound.1, Nat.le_succ_of_le hinv.bound.2⟩
      · intro held hheld
        obtain ⟨event, rest, hlive, hptr, hcommitted, hfirst⟩ := hinv.held held hheld
        exact ⟨event, rest ++ [_], by rw [hlive, List.cons_append], hptr, hcommitted,
          hfree.trans hfirst⟩

theorem Inv.serial_injective {system : System} (hinv : Inv system) {left right : Event}
    (hleft : left ∈ system.live) (hright : right ∈ system.live)
    (hserial : left.serial = right.serial) : left = right := by
  have hnodup : (system.live.map Event.serial).Nodup := by
    rw [hinv.kept]
    exact List.nodup_range.sublist (List.drop_sublist _ _)
  exact List.inj_on_of_nodup_map hnodup hleft hright hserial

@[simp] private theorem markCommitted_pos (serial : Nat) (event : Event) :
    (markCommitted serial event).pos = event.pos := by
  unfold markCommitted
  split <;> rfl

@[simp] private theorem markCommitted_serial (serial : Nat) (event : Event) :
    (markCommitted serial event).serial = event.serial := by
  unfold markCommitted
  split <;> rfl

private theorem markCommitted_committed (serial : Nat) (event : Event) (h : event.committed) :
    (markCommitted serial event).committed := by
  unfold markCommitted
  split
  · rfl
  · exact h

theorem Inv.commit {system next : System} (hinv : Inv system) {serial : Nat}
    (hstep : system.commit serial = some next) : Inv next := by
  unfold System.commit at hstep
  cases hfind : system.live.find? fun event => event.serial = serial && !event.committed with
  | none => simp [hfind] at hstep
  | some event =>
    simp only [hfind] at hstep
    cases hstep
    have hmem := List.mem_of_find?_eq_some hfind
    have hserial : event.serial = serial := by
      have := List.find?_some hfind
      simp only [Bool.and_eq_true, decide_eq_true_eq] at this
      exact this.1
    refine ⟨hinv.capacity, hinv.layout.commit hmem hserial fun other hother hsame =>
      hinv.serial_injective hother hmem (hsame.trans hserial.symm), ?_, hinv.bound,
      hinv.committedOnly, hinv.inOrder, ?_⟩
    · change (system.live.map (markCommitted serial)).map Event.serial = _
      rw [List.map_map]
      exact (List.map_congr_left fun other _ => markCommitted_serial serial other).trans hinv.kept
    · intro held hheld
      obtain ⟨first, rest, hlive, hptr, hcommitted, hfirst⟩ := hinv.held held hheld
      refine ⟨markCommitted serial first, rest.map (markCommitted serial), ?_, ?_,
        markCommitted_committed serial first hcommitted, ?_⟩
      · dsimp only
        rw [hlive, List.map_cons]
      · unfold Event.ptr at hptr ⊢
        rw [markCommitted_pos]
        exact hptr
      · rw [markCommitted_pos]
        exact hfirst

theorem Inv.store {system next : System} (hinv : Inv system) {pos : Int} {header : EventHeader}
    (hstep : system.store pos header = some next) : Inv next := by
  unfold System.store at hstep
  split_ifs at hstep with hany
  cases hstep
  obtain ⟨event, hmem, hwithin⟩ := List.any_eq_true.mp hany
  simp only [Bool.and_eq_true, decide_eq_true_eq] at hwithin
  exact ⟨hinv.capacity, hinv.layout.store hmem hwithin.1 hwithin.2 header, hinv.kept, hinv.bound,
    hinv.committedOnly, hinv.inOrder, hinv.held⟩

theorem Inv.pop {system next : System} (hinv : Inv system)
    (hstep : system.pop = some next) : Inv next := by
  unfold System.pop at hstep
  split_ifs at hstep with hidle
  have hnone : system.popped = none := by simpa using hidle
  obtain ⟨freePos, hpop, hlayout, hfirst⟩ := hinv.layout.popEvent
  have hdestroyed : system.destroyed = system.returned.length := by
    simp [System.destroyed, hnone]
  rw [hpop] at hstep
  cases hlive : system.live with
  | nil =>
    have hempty : oldest system.live = none := by rw [hlive]; rfl
    rw [hempty] at hstep
    cases hstep
    exact ⟨hinv.capacity, hlayout, hinv.kept, hinv.bound, hinv.committedOnly, hinv.inOrder,
      fun ptr hptr => absurd hptr (by simp [hnone])⟩
  | cons event rest =>
    have hfree : freePos = event.pos := hfirst event (by rw [hlive]; rfl)
    by_cases hcommitted : event.committed
    · have holdest : oldest system.live = some event.ptr := by
        simp [oldest, hlive, Option.filter, hcommitted]
      rw [holdest] at hstep
      cases hstep
      have hserial : event.serial = system.returned.length ∧
          system.returned.length < system.allocated := by
        have hkept := hinv.kept
        rw [hlive, hdestroyed, List.map_cons] at hkept
        by_cases hlt : system.returned.length < system.allocated
        · rw [List.drop_eq_getElem_cons (by simpa using hlt), List.cons.injEq] at hkept
          exact ⟨by simpa using hkept.1, hlt⟩
        · rw [List.drop_eq_nil_of_le (by simpa using hlt)] at hkept
          exact absurd hkept (by simp)
      have hfind : system.find event.ptr = some event := by
        unfold System.find
        rw [hlive]
        exact List.find?_cons_of_pos (by simp)
      refine ⟨hinv.capacity, hlayout, ?_, ?_, ?_, ?_, ?_⟩
      · rw [hinv.kept, hdestroyed]
        simp [System.destroyed]
      · simp [System.destroyed]
        omega
      · intro entry hmem
        rcases List.mem_append.mp hmem with hmem | hmem
        · exact hinv.committedOnly entry hmem
        · rw [hfind] at hmem
          exact ⟨event, by simpa using hmem, hcommitted⟩
      · dsimp only
        rw [List.map_append, hinv.inOrder, List.length_append, List.length_singleton,
          List.range_succ, List.map_append, hfind]
        simp [hserial.1]
      · intro ptr hptr
        exact ⟨event, rest, hlive, by simpa using hptr, hcommitted, hfree⟩
    · have holdest : oldest system.live = none := by
        simp [oldest, hlive, Option.filter, hcommitted]
      rw [holdest] at hstep
      cases hstep
      exact ⟨hinv.capacity, hlayout, hinv.kept, hinv.bound, hinv.committedOnly, hinv.inOrder,
        fun ptr hptr => absurd hptr (by simp [hnone])⟩

theorem Inv.destroy {system next : System} (hinv : Inv system)
    (hstep : system.destroy = some next) : Inv next := by
  unfold System.destroy at hstep
  cases hpopped : system.popped with
  | none => simp [hpopped] at hstep
  | some ptr =>
    simp only [hpopped] at hstep
    cases hstep
    obtain ⟨event, rest, hlive, hptr, hcommitted, hfirst⟩ := hinv.held ptr hpopped
    subst hptr
    have hrest : (system.live.filter fun other => other.ptr ≠ event.ptr) = rest := by
      rw [hlive, List.filter_cons_of_neg (by simp), List.filter_eq_self]
      intro other hmem
      have hapart := hinv.layout.disjoint
      rw [hlive, List.pairwise_cons] at hapart
      have hother := hapart.1 other hmem
      unfold Event.Apart Event.stop headerSize at hother
      apply decide_eq_true
      unfold Event.ptr
      omega
    have hbound := hinv.bound
    have hdestroyed : system.destroyed + 1 = system.returned.length := by
      simp only [System.destroyed, hpopped, Option.toList_some, List.length_singleton] at hbound ⊢
      omega
    have hlayout : Layout (EventQueue.free system.queue event.ptr) rest :=
      (hlive ▸ hinv.layout).free hfirst
    have hkept := hinv.kept
    rw [hlive, List.map_cons] at hkept
    refine ⟨hinv.capacity, ?_, ?_, ?_, hinv.committedOnly, hinv.inOrder, by simp⟩
    · dsimp only
      rw [hrest]
      exact hlayout
    · have htail := congrArg List.tail hkept
      rw [List.tail_cons, List.tail_drop, hdestroyed] at htail
      dsimp only
      rw [hrest, htail]
      simp [System.destroyed]
    · have hlt : system.destroyed < system.allocated := by
        by_contra hge
        rw [List.drop_eq_nil_of_le (by simpa using hge)] at hkept
        exact absurd hkept (by simp)
      simp only [System.destroyed, Option.toList_none, List.length_nil, Nat.zero_le, true_and]
      omega

/-- The attempts of a run are for event types whose aligned block length fits
the `int32_t` it is computed in. -/
def Action.Allowed : Action → Prop
  | .allocate size => fits size
  | _ => True

theorem Inv.step {system next : System} {action : Action} (hallowed : action.Allowed)
    (hinv : Inv system) (hstep : step system action = some next) : Inv next := by
  cases action with
  | allocate size => exact hinv.allocate hallowed hstep
  | commit serial => exact hinv.commit hstep
  | store pos header => exact hinv.store hstep
  | pop => exact hinv.pop hstep
  | destroy => exact hinv.destroy hstep

/-- Every state that the producers and the consumer can reach is sound. -/
theorem ring_sound (cap : Int) (hcap : headerSize < cap) (bytes : Int → EventHeader)
    (actions : List Action) (hallowed : ∀ action ∈ actions, action.Allowed) {final : System}
    (hrun : run EventQueue.step (create cap bytes) actions = some final) : Sound final :=
  (run_preserves (fun _ _ _ hfits hinv hnext => Inv.step hfits hinv hnext) hallowed
    (create_inv cap hcap bytes) hrun).sound

/-- A buffer whose bytes all happen to be zero. -/
def zeroBytes : Int → EventHeader := fun _ => ⟨.allocated, 0⟩

/-- Three events in a ring of 64 bytes: the first two are committed in the other order, the third
one goes to the front, with a skipped tail of 16 bytes behind the second, and is still there when
the consumer has come over the tail. -/
theorem ring_sound_wrap : ∃ final,
    run EventQueue.step (create 64 zeroBytes) [.allocate 24, .allocate 8, .commit 1, .pop,
        .commit 0, .pop, .destroy, .allocate 16, .pop, .commit 2, .destroy, .pop] = some final ∧
      (final.queue.buf 48).blockState = .skipped ∧ final.live = [⟨2, 0, 16, true⟩] ∧
      final.returned = [some ⟨0, 0, 24, true⟩, some ⟨1, 32, 8, true⟩, some ⟨2, 0, 16, true⟩] ∧
      Sound final :=
  ⟨_, rfl, rfl, rfl, rfl, ring_sound 64 (by decide) zeroBytes
    [.allocate 24, .allocate 8, .commit 1, .pop, .commit 0, .pop, .destroy, .allocate 16, .pop,
      .commit 2, .destroy, .pop]
    (by simp [Action.Allowed, fits]) rfl⟩

/-- `sizeof(EVENT_TYPE)` of 2^32 - 8 bytes is narrowed to a length of -8, the
block length becomes zero, and the producer is handed a block it cannot use. -/
theorem oversized_event_escapes :
    ¬ ∀ (cap : Int) (bytes : Int → EventHeader) (actions : List Action) (final : System),
      headerSize < cap → run EventQueue.step (create cap bytes) actions = some final →
        Sound final := by
  intro hall
  have hsound := hall 64 zeroBytes [.allocate (2 ^ 32 - 8)] _ (by decide) rfl
  have hinside : (2 ^ 32 : Int) ≤ 64 :=
    (hsound.inside ⟨0, 0, 2 ^ 32 - 8, false⟩ (List.Mem.head _)).2
  exact absurd hinside (by decide)

@[simp] private theorem allocate_cap (queue : Queue) (length : Int) :
    (allocate queue length).1.cap = queue.cap := by
  unfold EventQueue.allocate
  dsimp only
  split_ifs <;> rfl

@[simp] private theorem popEvent_cap (queue : Queue) : (popEvent queue).1.cap = queue.cap := by
  unfold popEvent
  dsimp only
  split_ifs
  · rfl
  · split
    · rfl
    · split <;> rfl
    · rfl
  · split
    · rfl
    · split <;> rfl
    · rfl

private theorem step_cap {system next : System} {action : Action}
    (hstep : EventQueue.step system action = some next) : next.queue.cap = system.queue.cap := by
  cases action with
  | allocate size =>
    simp only [EventQueue.step, System.allocate] at hstep
    split_ifs at hstep
    have hcap := allocate_cap system.queue (toInt32 size)
    split at hstep <;>
      (rename_i heq
       obtain rfl := Option.some.inj hstep
       rw [allocateEvent] at heq
       rw [heq] at hcap
       exact hcap)
  | commit serial =>
    simp only [EventQueue.step, System.commit] at hstep
    split at hstep
    · obtain rfl := Option.some.inj hstep
      rfl
    · cases hstep
  | store pos header =>
    simp only [EventQueue.step, System.store] at hstep
    split_ifs at hstep
    obtain rfl := Option.some.inj hstep
    rfl
  | pop =>
    simp only [EventQueue.step, System.pop] at hstep
    split_ifs at hstep
    have hcap := popEvent_cap system.queue
    split at hstep <;>
      (rename_i heq
       obtain rfl := Option.some.inj hstep
       rw [heq] at hcap
       exact hcap)
  | destroy =>
    simp only [EventQueue.step, System.destroy] at hstep
    split at hstep
    · obtain rfl := Option.some.inj hstep
      rfl
    · cases hstep

theorem run_inv {cap : Int} (hcap : headerSize < cap) {bytes : Int → EventHeader}
    {actions : List Action} (hallowed : ∀ action ∈ actions, action.Allowed) {final : System}
    (hrun : run EventQueue.step (create cap bytes) actions = some final) :
    Inv final ∧ final.queue.cap = cap := by
  have hsame : ∀ (system : System) (action : Action) (next : System), system.queue.cap = cap →
      EventQueue.step system action = some next → next.queue.cap = cap := by
    intro system action next hsystem hstep
    rw [step_cap hstep, hsystem]
  exact ⟨run_preserves (fun _ _ _ hfits hinv hnext => Inv.step hfits hinv hnext) hallowed
    (create_inv cap hcap bytes) hrun, run_invariant hsame rfl hrun⟩

private theorem allocate_empty {queue : Queue} (hempty : queue.freePos = queue.allocPos)
    {size : Nat}
    (hhalf : 2 * blockLen size ≤ queue.cap) : ∃ ptr, (allocateEvent queue size).2 = some ptr := by
  unfold EventQueue.allocateEvent
  rw [allocate_eq, ← blockLen_eq]
  split_ifs with hrear hback hroll hfront
  · exact ⟨_, rfl⟩
  · exact ⟨_, rfl⟩
  · omega
  · exact ⟨_, rfl⟩
  · omega

/-- Once all events are destroyed, every event takes that needs at most half of the ring. -/
theorem drained_ring_allocates (cap : Int) (hcap : headerSize < cap) (hint : cap < 2 ^ 31)
    (bytes : Int → EventHeader) (actions : List Action)
    (hallowed : ∀ action ∈ actions, action.Allowed) (final : System)
    (hrun : run EventQueue.step (create cap bytes) actions = some final)
    (hdrained : final.live = []) (size : Nat) (hhalf : 2 * (((size : Int) + 15) / 8 * 8) ≤ cap) :
    ∃ ptr, (allocateEvent final.queue size).2 = some ptr := by
  obtain ⟨hinv, hsame⟩ := run_inv hcap hallowed hrun
  have hfits : fits size := by
    unfold fits
    omega
  refine allocate_empty (Layout.empty (hdrained ▸ hinv.layout)) ?_
  rw [hsame, blockLen_aligned hfits]
  exact hhalf

/-- The offsets at rest in the middle of a ring of 64 bytes. -/
theorem drained_ring_allocates_middle : ∃ final,
    run EventQueue.step (create 64 zeroBytes) [.allocate 24, .commit 0, .pop, .destroy] =
        some final ∧
      final.queue.freePos = 32 ∧ ∃ ptr, (allocateEvent final.queue 24).2 = some ptr :=
  ⟨_, rfl, rfl, drained_ring_allocates 64 (by decide) (by decide) zeroBytes
    [.allocate 24, .commit 0, .pop, .destroy]
    (by simp [Action.Allowed, fits]) _ rfl rfl 24 (by decide)⟩

/-- An event type of 2^32 - 24 bytes gets a block of length -16, and the next block is
placed over the payload of the first one, whose producer then writes a block size
into it. All three events are destroyed, and a fourth of the same size finds no room. -/
theorem drained_ring_stuck :
    ¬ ∀ (cap : Int) (bytes : Int → EventHeader) (actions : List Action) (final : System),
      headerSize < cap → cap < 2 ^ 31 →
      run EventQueue.step (create cap bytes) actions = some final → final.live = [] →
      ∀ size : Nat, 2 * (((size : Int) + 15) / 8 * 8) ≤ cap →
        ∃ ptr, (allocateEvent final.queue size).2 = some ptr := by
  intro hall
  obtain ⟨final, hrun⟩ : ∃ final, run EventQueue.step (create 64 zeroBytes)
      [.allocate 24, .allocate (2 ^ 32 - 24), .allocate 24, .store 16 ⟨.allocated, -8⟩,
        .commit 0, .commit 1, .commit 2, .pop, .destroy, .pop, .destroy, .pop, .destroy] =
      some final := ⟨_, rfl⟩
  have hroom := hall 64 zeroBytes _ final (by decide) (by decide) hrun
  obtain rfl : _ = final := Option.some.inj hrun
  obtain ⟨ptr, hptr⟩ := hroom rfl 24 (by decide)
  change none = some ptr at hptr
  cases hptr

end Libsax.Stage.EventQueue
