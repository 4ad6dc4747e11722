import Mathlib.Tactic.SplitIfs
import Libsax.Stage.EventQueue

/-! Where the live blocks of the event ring lie, and what each operation of the
queue does to that layout. -/
namespace Libsax.Stage.EventQueue

/-- Length of the block reserved for an event of this size. -/
@[irreducible] def blockLen (size : Nat) : Int := newLen (toInt32 size)

theorem blockLen_eq (size : Nat) : blockLen size = newLen (toInt32 size) := by
  unfold blockLen
  rfl

/-- Sizes whose `new_len` an `int32_t` can hold. -/
def fits (size : Nat) : Prop := size ≤ 2 ^ 31 - 16

instance (size : Nat) : Decidable (fits size) := inferInstanceAs (Decidable (_ ≤ _))

theorem blockLen_aligned {size : Nat} (hfits : fits size) :
    blockLen size = ((size : Int) + 15) / 8 * 8 := by
  unfold fits at hfits
  have hlength : toInt32 size = size := Int.bmod_eq_of_le (by omega) (by omega)
  rw [blockLen_eq, hlength]
  unfold newLen
  exact (Int.bmod_eq_of_le (by omega) (by omega)).trans (by omega)

private theorem blockLen_bounds {size : Nat} (hpos : 0 < size) (hfits : fits size) :
    headerSize + size ≤ blockLen size ∧ 2 * headerSize ≤ blockLen size := by
  rw [blockLen_aligned hfits]
  unfold headerSize
  omega

def Event.header (event : Event) : EventHeader :=
  ⟨if event.committed then .committed else .allocated, blockLen event.size⟩

@[simp] theorem Event.header_blockSize (event : Event) :
    event.header.blockSize = blockLen event.size := rfl

/-- The events occupy consecutive blocks from `start` up to `stop`, each with
its header in place. -/
def Tiles (buf : Int → EventHeader) : Int → List Event → Int → Prop
  | start, [], stop => start = stop
  | start, event :: rest, stop =>
      event.pos = start ∧ buf start = event.header ∧ 0 < event.size ∧ fits event.size ∧
        Tiles buf (start + blockLen event.size) rest stop

theorem Tiles.append {buf : Int → EventHeader} {start middle stop : Int}
    {left right : List Event} (hleft : Tiles buf start left middle)
    (hright : Tiles buf middle right stop) : Tiles buf start (left ++ right) stop := by
  induction left generalizing start with
  | nil =>
    cases hleft
    exact hright
  | cons event rest ih =>
    obtain ⟨hpos, hheader, hsize, hfits, hrest⟩ := hleft
    exact ⟨hpos, hheader, hsize, hfits, ih hrest⟩

theorem Tiles.le {buf : Int → EventHeader} {start stop : Int} {events : List Event}
    (htiles : Tiles buf start events stop) : start ≤ stop := by
  induction events generalizing start with
  | nil => exact Int.le_of_eq htiles
  | cons event rest ih =>
    obtain ⟨-, -, hsize, hfits, hrest⟩ := htiles
    have hlen := blockLen_bounds hsize hfits
    have := ih hrest
    unfold headerSize at hlen
    omega

theorem Tiles.mem {buf : Int → EventHeader} {start stop : Int} {events : List Event}
    (htiles : Tiles buf start events stop) {event : Event} (hmem : event ∈ events) :
    start ≤ event.pos ∧ event.pos + blockLen event.size ≤ stop ∧
      buf event.pos = event.header ∧ 0 < event.size ∧ fits event.size := by
  induction events generalizing start with
  | nil => simp at hmem
  | cons first rest ih =>
    obtain ⟨hpos, hheader, hsize, hfits, hrest⟩ := htiles
    rcases List.mem_cons.mp hmem with rfl | hmem
    · have := hrest.le
      rw [hpos]
      exact ⟨Int.le_refl _, this, hheader, hsize, hfits⟩
    · have hlen := blockLen_bounds hsize hfits
      obtain ⟨hstart, hrest⟩ := ih hrest hmem
      unfold headerSize at hlen
      exact ⟨by omega, hrest⟩

theorem Tiles.stop_le {buf : Int → EventHeader} {start stop : Int} {events : List Event}
    (htiles : Tiles buf start events stop) {event : Event} (hmem : event ∈ events) :
    event.stop ≤ stop := by
  obtain ⟨-, hstop, -, hsize, hfits⟩ := htiles.mem hmem
  have hlen := blockLen_bounds hsize hfits
  unfold Event.stop
  omega

theorem Tiles.pairwise {buf : Int → EventHeader} {start stop : Int} {events : List Event}
    (htiles : Tiles buf start events stop) :
    events.Pairwise fun left right => left.stop ≤ right.pos := by
  induction events generalizing start with
  | nil => exact List.Pairwise.nil
  | cons first rest ih =>
    obtain ⟨hpos, hheader, hsize, hfits, hrest⟩ := htiles
    refine List.Pairwise.cons ?_ (ih hrest)
    intro other hother
    have hlen := blockLen_bounds hsize hfits
    have := (hrest.mem hother).1
    unfold Event.stop
    omega

theorem Tiles.congr {buf other : Int → EventHeader} {start stop : Int}
    {events : List Event} (htiles : Tiles buf start events stop)
    (hagree : ∀ event ∈ events, other event.pos = buf event.pos) :
    Tiles other start events stop := by
  induction events generalizing start with
  | nil => exact htiles
  | cons first rest ih =>
    obtain ⟨hpos, hheader, hsize, hfits, hrest⟩ := htiles
    refine ⟨hpos, ?_, hsize, hfits, ih hrest fun event hmem => hagree event (by simp [hmem])⟩
    rw [← hheader, ← hpos]
    exact hagree first (by simp)

/-- The ring as the producers and the consumer agree on it: either the blocks
run from `_free_pos` to `_alloc_pos`, or they run from `_free_pos` to a
`wrap` point near the end and go on from the front. -/
inductive Layout (queue : Queue) (live : List Event) : Prop where
  | linear (hfree : 0 ≤ queue.freePos) (hcap : queue.allocPos ≤ queue.cap)
      (htiles : Tiles queue.buf queue.freePos live queue.allocPos)
  | wrapped (tail front : List Event) (wrap : Int) (hlive : live = tail ++ front)
      (halloc : 0 < queue.allocPos) (hfree : queue.allocPos < queue.freePos)
      (hcap : wrap ≤ queue.cap)
      (htail : Tiles queue.buf queue.freePos tail wrap)
      (hfront : Tiles queue.buf 0 front queue.allocPos)
      (hskip : headerSize < queue.cap - wrap → (queue.buf wrap).blockState = .skipped)

theorem Layout.inside {queue : Queue} {live : List Event} (hlayout : Layout queue live)
    {event : Event} (hmem : event ∈ live) : 0 ≤ event.pos ∧ event.stop ≤ queue.cap := by
  cases hlayout with
  | linear hfree hcap htiles =>
    have hstart := (htiles.mem hmem).1
    have hstop := htiles.stop_le hmem
    omega
  | wrapped tail front wrap hlive halloc hfree hcap htail hfront hskip =>
    have hwrap := htail.le
    rcases List.mem_append.mp (hlive ▸ hmem) with hmem | hmem
    · have hstart := (htail.mem hmem).1
      have hstop := htail.stop_le hmem
      omega
    · have hstart := (hfront.mem hmem).1
      have hstop := hfront.stop_le hmem
      omega

theorem Layout.empty {queue : Queue} (hlayout : Layout queue []) :
    queue.freePos = queue.allocPos := by
  cases hlayout with
  | linear hfree hcap htiles => exact htiles
  | wrapped tail front wrap hlive halloc hfree hcap htail hfront hskip =>
    obtain ⟨rfl, rfl⟩ := List.append_eq_nil_iff.mp hlive.symm
    have hzero : 0 = queue.allocPos := hfront
    omega

theorem Layout.disjoint {queue : Queue} {live : List Event} (hlayout : Layout queue live) :
    live.Pairwise Event.Apart := by
  cases hlayout with
  | linear hfree hcap htiles => exact htiles.pairwise.imp fun h => Or.inl h
  | wrapped tail front wrap hlive halloc hfree hcap htail hfront hskip =>
    rw [hlive, List.pairwise_append]
    refine ⟨htail.pairwise.imp fun h => Or.inl h, hfront.pairwise.imp fun h => Or.inl h, ?_⟩
    intro left hleft right hright
    have hstart := (htail.mem hleft).1
    have hstop := hfront.stop_le hright
    exact Or.inr (by omega)

/-- A change of the buffer that spares the headers of the live blocks and the
padding mark at the wrap point keeps the layout. -/
theorem Layout.congr {queue : Queue} {live : List Event} (hlayout : Layout queue live)
    (buf : Int → EventHeader) (hlive : ∀ event ∈ live, buf event.pos = queue.buf event.pos)
    (hspare : ∀ pos, (∀ event ∈ live, pos ≤ event.pos ∨ event.stop ≤ pos) →
      buf pos = queue.buf pos) : Layout { queue with buf := buf } live := by
  cases hlayout with
  | linear hfree hcap htiles => exact .linear hfree hcap (htiles.congr hlive)
  | wrapped tail front wrap hsplit halloc hfree hcap htail hfront hskip =>
    subst hsplit
    have hmark : buf wrap = queue.buf wrap := by
      have hwrap := htail.le
      refine hspare wrap fun event hmem => Or.inr ?_
      rcases List.mem_append.mp hmem with hmem | hmem
      · exact htail.stop_le hmem
      · have := hfront.stop_le hmem
        omega
    exact .wrapped tail front wrap rfl halloc hfree hcap
      (htail.congr fun event hmem => hlive event (by simp [hmem]))
      (hfront.congr fun event hmem => hlive event (by simp [hmem]))
      fun hroom => (congrArg EventHeader.blockState hmark).trans (hskip hroom)

theorem Layout.store {queue : Queue} {live : List Event} (hlayout : Layout queue live)
    {event : Event} (hmem : event ∈ live) {pos : Int} (hlo : event.pos < pos)
    (hhi : pos < event.stop) (header : EventHeader) :
    Layout { queue with buf := setHeader queue.buf pos header } live := by
  apply hlayout.congr
  · intro other hother
    apply setHeader_other
    have hstop : other.pos ≤ other.stop := by unfold Event.stop headerSize; omega
    by_cases hsame : other = event
    · subst hsame
      omega
    · have hapart := hlayout.disjoint.forall hother hmem hsame
      unfold Event.Apart at hapart
      omega
  · intro other hspare
    have := hspare event hmem
    exact setHeader_other _ _ (by omega)

/-- The buffer after rolling back to the front: the new header at zero and, if
the tail can hold one, the padding mark at the old position. -/
def rollBack (queue : Queue) (newLen : Int) : Int → EventHeader :=
  let buf := setHeader queue.buf 0 ⟨.allocated, newLen⟩
  if headerSize < queue.cap - queue.allocPos then
    setHeader buf queue.allocPos { buf queue.allocPos with blockState := .skipped }
  else buf

private theorem rollBack_other (queue : Queue) (newLen : Int) {pos : Int} (hzero : pos ≠ 0)
    (halloc : pos ≠ queue.allocPos) : rollBack queue newLen pos = queue.buf pos := by
  unfold rollBack
  dsimp only
  split
  · rw [setHeader_other _ _ halloc, setHeader_other _ _ hzero]
  · rw [setHeader_other _ _ hzero]

private theorem rollBack_zero (queue : Queue) (newLen : Int) (hzero : 0 ≠ queue.allocPos) :
    rollBack queue newLen 0 = ⟨.allocated, newLen⟩ := by
  unfold rollBack
  dsimp only
  split
  · rw [setHeader_other _ _ hzero, setHeader_same]
  · rw [setHeader_same]

private theorem rollBack_mark (queue : Queue) (newLen : Int)
    (hroom : headerSize < queue.cap - queue.allocPos) :
    (rollBack queue newLen queue.allocPos).blockState = .skipped := by
  unfold rollBack
  dsimp only
  rw [if_pos hroom, setHeader_same]

theorem allocate_eq (queue : Queue) (length : Int) :
    allocate queue length =
      if queue.freePos ≤ queue.allocPos ∧ queue.allocPos + newLen length ≤ queue.cap then
        ({ queue with
            buf := setHeader queue.buf queue.allocPos ⟨.allocated, newLen length⟩
            allocPos := queue.allocPos + newLen length }, some (queue.allocPos + headerSize))
      else if queue.freePos ≤ queue.allocPos then
        if newLen length < queue.freePos then
          ({ queue with buf := rollBack queue (newLen length), allocPos := newLen length },
            some headerSize)
        else (queue, none)
      else if queue.allocPos + newLen length < queue.freePos then
        ({ queue with
            buf := setHeader queue.buf queue.allocPos ⟨.allocated, newLen length⟩
            allocPos := queue.allocPos + newLen length }, some (queue.allocPos + headerSize))
      else (queue, none) := by
  unfold allocate
  dsimp only
  by_cases hrear : queue.freePos ≤ queue.allocPos
  · have h1 : decide (queue.allocPos - queue.freePos ≥ 0) = true := decide_eq_true (by omega)
    by_cases hfit : queue.allocPos + newLen length ≤ queue.cap
    · have h2 : decide (queue.cap - queue.allocPos - newLen length ≥ 0) = true :=
        decide_eq_true (by omega)
      simp only [h1, h2]
      simp [hrear, hfit]
    · have h2 : decide (queue.cap - queue.allocPos - newLen length ≥ 0) = false :=
        decide_eq_false (by omega)
      simp only [h1, h2]
      by_cases hfront : newLen length < queue.freePos
      · simp [hrear, hfit, hfront, rollBack]
      · simp [hrear, hfit, hfront]
  · have h1 : decide (queue.allocPos - queue.freePos ≥ 0) = false := decide_eq_false (by omega)
    simp only [h1]
    by_cases hfront : queue.allocPos + newLen length < queue.freePos
    · simp [hrear, hfront]
      omega
    · simp [hrear, hfront]
      omega

theorem Tiles.push {buf : Int → EventHeader} {start stop : Int} {events : List Event}
    (htiles : Tiles buf start events stop) {size : Nat} (hsize : 0 < size) (hfits : fits size)
    (serial : Nat) :
    Tiles (setHeader buf stop ⟨.allocated, blockLen size⟩) start
      (events ++ [⟨serial, stop, size, false⟩]) (stop + blockLen size) := by
  have hkept : Tiles (setHeader buf stop ⟨.allocated, blockLen size⟩) start events stop := by
    apply htiles.congr
    intro event hmem
    have hstop := htiles.stop_le hmem
    unfold Event.stop headerSize at hstop
    exact setHeader_other _ _ (by omega)
  apply hkept.append
  exact ⟨rfl, setHeader_same _ _ _, hsize, hfits, rfl⟩

theorem Tiles.setHeader {buf : Int → EventHeader} {start stop : Int} {events : List Event}
    (htiles : Tiles buf start events stop) {pos : Int} (houtside : pos < start ∨ stop ≤ pos)
    (header : EventHeader) : Tiles (setHeader buf pos header) start events stop := by
  apply htiles.congr
  intro event hmem
  have hstart := (htiles.mem hmem).1
  have hstop := htiles.stop_le hmem
  unfold Event.stop headerSize at hstop
  exact setHeader_other _ _ (by omega)

theorem Layout.pushRear {queue : Queue} {live : List Event} (hlayout : Layout queue live)
    {size : Nat} (hsize : 0 < size) (hfits : fits size) (serial : Nat)
    (hempty : queue.freePos ≤ queue.allocPos)
    (hroom : queue.allocPos + blockLen size ≤ queue.cap) :
    Layout
      { queue with
        buf := setHeader queue.buf queue.allocPos ⟨.allocated, blockLen size⟩
        allocPos := queue.allocPos + blockLen size }
      (live ++ [⟨serial, queue.allocPos, size, false⟩]) := by
  cases hlayout with
  | linear hfree hcap htiles => exact .linear hfree hroom (htiles.push hsize hfits serial)
  | wrapped tail front wrap hlive halloc hfree hcap htail hfront hskip => omega

theorem Layout.pushRollBack {queue : Queue} {live : List Event} (hlayout : Layout queue live)
    {size : Nat} (hsize : 0 < size) (hfits : fits size) (serial : Nat)
    (hempty : queue.freePos ≤ queue.allocPos) (hroom : blockLen size < queue.freePos) :
    Layout
      { queue with buf := rollBack queue (blockLen size), allocPos := blockLen size }
      (live ++ [⟨serial, 0, size, false⟩]) := by
  have hlen := (blockLen_bounds hsize hfits).2
  have hheader : (0 : Int) < headerSize := by decide
  have htile : ∀ buf : Int → EventHeader, buf 0 = ⟨.allocated, blockLen size⟩ →
      Tiles buf 0 [⟨serial, 0, size, false⟩] (blockLen size) :=
    fun buf hbuf => ⟨rfl, hbuf, hsize, hfits, Int.zero_add _⟩
  generalize blockLen size = len at *
  cases hlayout with
  | linear hfree hcap htiles =>
    refine .wrapped live [⟨serial, 0, size, false⟩] queue.allocPos rfl ?_ hroom hcap ?_ ?_ ?_
    · change 0 < len
      omega
    · apply htiles.congr
      intro event hmem
      have hstart := (htiles.mem hmem).1
      have hstop := htiles.stop_le hmem
      unfold Event.stop at hstop
      exact rollBack_other _ _ (by omega) (by omega)
    · exact htile _ (rollBack_zero _ _ (by omega))
    · exact rollBack_mark queue len
  | wrapped tail front wrap hlive halloc hfree hcap htail hfront hskip => omega

theorem Layout.pushFront {queue : Queue} {live : List Event} (hlayout : Layout queue live)
    {size : Nat} (hsize : 0 < size) (hfits : fits size) (serial : Nat)
    (hwrapped : queue.allocPos < queue.freePos)
    (hroom : queue.allocPos + blockLen size < queue.freePos) :
    Layout
      { queue with
        buf := setHeader queue.buf queue.allocPos ⟨.allocated, blockLen size⟩
        allocPos := queue.allocPos + blockLen size }
      (live ++ [⟨serial, queue.allocPos, size, false⟩]) := by
  have hlen := (blockLen_bounds hsize hfits).2
  have hheader : (0 : Int) < headerSize := by decide
  cases hlayout with
  | linear hfree hcap htiles =>
    have hle := htiles.le
    omega
  | wrapped tail front wrap hlive halloc hfree hcap htail hfront hskip =>
    have hwrap := htail.le
    refine .wrapped tail (front ++ [⟨serial, queue.allocPos, size, false⟩]) wrap ?_ ?_ hroom hcap
      ?_ (hfront.push hsize hfits serial) ?_
    · rw [hlive, List.append_assoc]
    · change 0 < queue.allocPos + blockLen size
      omega
    · exact htail.setHeader (Or.inl (by omega)) _
    · intro hmark
      dsimp only
      rw [setHeader_other _ _ (by omega)]
      exact hskip hmark

theorem Layout.allocateEvent {queue next : Queue} {live : List Event}
    (hlayout : Layout queue live) {size : Nat} (hsize : 0 < size) (hfits : fits size)
    {result : Option Int} (hstep : allocateEvent queue size = (next, result)) (serial : Nat) :
    next.cap = queue.cap ∧ next.freePos = queue.freePos ∧ (result = none → next = queue) ∧
      ∀ ptr, result = some ptr →
        Layout next (live ++ [⟨serial, ptr - headerSize, size, false⟩]) := by
  unfold EventQueue.allocateEvent at hstep
  rw [allocate_eq, ← blockLen_eq] at hstep
  split_ifs at hstep with hrear hempty hroll hfront <;> cases hstep
  · refine ⟨rfl, rfl, fun h => absurd h (by simp), fun ptr hptr => ?_⟩
    cases hptr
    rw [Int.add_sub_cancel]
    exact hlayout.pushRear hsize hfits serial hrear.1 hrear.2
  · refine ⟨rfl, rfl, fun h => absurd h (by simp), fun ptr hptr => ?_⟩
    cases hptr
    rw [Int.sub_self]
    exact hlayout.pushRollBack hsize hfits serial hempty hroll
  · exact ⟨rfl, rfl, fun _ => rfl, fun ptr hptr => absurd hptr (by simp)⟩
  · refine ⟨rfl, rfl, fun h => absurd h (by simp), fun ptr hptr => ?_⟩
    cases hptr
    rw [Int.add_sub_cancel]
    exact hlayout.pushFront hsize hfits serial (by omega) hfront
  · exact ⟨rfl, rfl, fun _ => rfl, fun ptr hptr => absurd hptr (by simp)⟩

/-- What `pop_event` has to return: the oldest block if it is committed. -/
def oldest (live : List Event) : Option Int :=
  (live.head?.filter Event.committed).map Event.ptr

private theorem popEvent_front {queue : Queue} {event : Event}
    (hne : queue.freePos ≠ queue.allocPos)
    (hroom : headerSize < queue.cap - queue.freePos) (hpos : event.pos = queue.freePos)
    (hheader : queue.buf queue.freePos = event.header) :
    popEvent queue = (queue, if event.committed then some event.ptr else none) := by
  unfold popEvent
  rw [if_neg hne, if_neg (by omega)]
  dsimp only
  rw [hheader]
  cases hcommitted : event.committed <;> simp [Event.header, Event.ptr, hcommitted, hpos]

/-- At the wrap point `pop_event` continues from the front, whether the tail
carries a padding mark or is too small even for a header. -/
private theorem popEvent_wrap {queue : Queue} {event : Event} (hne : queue.freePos ≠ queue.allocPos)
    (hskip : headerSize < queue.cap - queue.freePos →
      (queue.buf queue.freePos).blockState = .skipped)
    (hpos : event.pos = 0) (hheader : queue.buf 0 = event.header) :
    popEvent queue =
      ({ queue with freePos := 0 }, if event.committed then some event.ptr else none) := by
  unfold popEvent
  rw [if_neg hne]
  by_cases hroom : headerSize < queue.cap - queue.freePos
  · rw [if_neg (by omega)]
    dsimp only
    rw [hskip hroom, hheader]
    cases hcommitted : event.committed <;> simp [Event.header, Event.ptr, hcommitted, hpos]
  · rw [if_pos (by omega)]
    dsimp only
    rw [hheader]
    cases hcommitted : event.committed <;> simp [Event.header, Event.ptr, hcommitted, hpos]

theorem Layout.popEvent {queue : Queue} {live : List Event} (hlayout : Layout queue live) :
    ∃ freePos, popEvent queue = ({ queue with freePos := freePos }, oldest live) ∧
      Layout { queue with freePos := freePos } live ∧
      ∀ event ∈ live.head?, freePos = event.pos := by
  have hheader : (0 : Int) < headerSize := by decide
  have holdest : ∀ (event : Event) rest, oldest (event :: rest) =
      if event.committed then some event.ptr else none := by
    intro event rest
    cases hcommitted : event.committed <;> simp [oldest, Option.filter, hcommitted]
  cases hlayout with
  | linear hfree hstop htiles =>
    refine ⟨queue.freePos, ?_, .linear hfree hstop htiles, ?_⟩
    · cases live with
      | nil =>
        have hempty : queue.freePos = queue.allocPos := htiles
        unfold EventQueue.popEvent
        rw [if_pos hempty]
        rfl
      | cons event rest =>
        obtain ⟨hpos, hhead, hsize, hfits, hrest⟩ := htiles
        have hlen := blockLen_bounds hsize hfits
        have hle := hrest.le
        rw [popEvent_front (by omega) (by omega) hpos hhead, holdest]
    · intro event hmem
      cases live with
      | nil => simp at hmem
      | cons first rest =>
        cases hmem
        exact htiles.1.symm
  | wrapped tail front wrap hlive halloc hfree hstop htail hfront hskip =>
    cases tail with
    | cons event rest =>
      refine ⟨queue.freePos, ?_, .wrapped _ front wrap hlive halloc hfree hstop htail hfront hskip,
        ?_⟩
      · obtain ⟨hpos, hhead, hsize, hfits, hrest⟩ := htail
        have hlen := blockLen_bounds hsize hfits
        have hle := hrest.le
        rw [popEvent_front (by omega) (by omega) hpos hhead, hlive, List.cons_append, holdest]
      · intro other hmem
        rw [hlive, List.cons_append] at hmem
        cases hmem
        exact htail.1.symm
    | nil =>
      have hwrap : queue.freePos = wrap := htail
      subst hwrap
      rw [List.nil_append] at hlive
      subst hlive
      refine ⟨0, ?_, .linear (Int.le_refl _) (by dsimp only; omega) hfront, ?_⟩
      · cases live with
        | nil =>
          have hempty : (0 : Int) = queue.allocPos := hfront
          omega
        | cons event rest =>
          rw [popEvent_wrap (by omega) hskip hfront.1 hfront.2.1, holdest]
      · intro event hmem
        cases live with
        | nil => simp at hmem
        | cons first rest =>
          cases hmem
          exact hfront.1.symm

theorem Layout.free {queue : Queue} {event : Event} {rest : List Event}
    (hlayout : Layout queue (event :: rest)) (hpos : queue.freePos = event.pos) :
    Layout (free queue event.ptr) rest := by
  have hfree : EventQueue.free queue event.ptr =
      { queue with freePos := queue.freePos + (queue.buf event.pos).blockSize } := by
    unfold EventQueue.free Event.ptr
    rw [Int.add_sub_cancel]
  rw [hfree]
  cases hlayout with
  | linear hzero hstop htiles =>
    obtain ⟨-, hhead, hsize, hfits, hrest⟩ := htiles
    have hlen := blockLen_bounds hsize hfits
    rw [← hpos, hhead, Event.header_blockSize]
    refine .linear ?_ hstop hrest
    dsimp only
    unfold headerSize at hlen
    omega
  | wrapped tail front wrap hlive halloc hwrapped hstop htail hfront hskip =>
    cases tail with
    | nil =>
      have hwrap : queue.freePos = wrap := htail
      rw [List.nil_append] at hlive
      subst hlive
      have := hfront.1
      omega
    | cons first tail =>
      rw [List.cons_append, List.cons.injEq] at hlive
      obtain ⟨rfl, rfl⟩ := hlive
      obtain ⟨-, hhead, hsize, hfits, hrest⟩ := htail
      have hlen := blockLen_bounds hsize hfits
      rw [← hpos, hhead, Event.header_blockSize]
      refine .wrapped tail front wrap rfl halloc ?_ hstop hrest hfront hskip
      dsimp only
      unfold headerSize at hlen
      omega

theorem Tiles.commit {buf : Int → EventHeader} {start stop : Int} {events : List Event}
    (htiles : Tiles buf start events stop) {next : Int → EventHeader} (serial : Nat)
    (hnext : ∀ event ∈ events, next event.pos = (markCommitted serial event).header) :
    Tiles next start (events.map (markCommitted serial)) stop := by
  induction events generalizing start with
  | nil => exact htiles
  | cons event rest ih =>
    obtain ⟨hpos, hhead, hsize, hfits, hrest⟩ := htiles
    have hsame : (markCommitted serial event).pos = event.pos ∧
        (markCommitted serial event).size = event.size := by
      unfold markCommitted
      split <;> exact ⟨rfl, rfl⟩
    have hmap := ih hrest fun other hmem => hnext other (by simp [hmem])
    refine ⟨hsame.1.trans hpos, ?_, ?_, ?_, ?_⟩
    · rw [← hpos]
      exact hnext event (by simp)
    · rw [hsame.2]
      exact hsize
    · rw [hsame.2]
      exact hfits
    · rw [hsame.2]
      exact hmap

theorem Layout.commit {queue : Queue} {live : List Event} (hlayout : Layout queue live)
    {event : Event} (hmem : event ∈ live) {serial : Nat} (hserial : event.serial = serial)
    (hunique : ∀ other ∈ live, other.serial = serial → other = event) :
    Layout (commitEvent queue event.ptr) (live.map (markCommitted serial)) := by
  have hcommit : commitEvent queue event.ptr = { queue with
      buf := setHeader queue.buf event.pos { queue.buf event.pos with blockState := .committed } } := by
    unfold commitEvent Event.ptr
    rw [Int.add_sub_cancel]
  have hheader : ∀ other ∈ live, queue.buf other.pos = other.header := by
    intro other hother
    cases hlayout with
    | linear hzero hstop htiles => exact (htiles.mem hother).2.2.1
    | wrapped tail front wrap hlive halloc hwrapped hstop htail hfront hskip =>
      rcases List.mem_append.mp (hlive ▸ hother) with hother | hother
      · exact (htail.mem hother).2.2.1
      · exact (hfront.mem hother).2.2.1
  have hnext : ∀ other ∈ live, (commitEvent queue event.ptr).buf other.pos =
      (markCommitted serial other).header := by
    intro other hother
    rw [hcommit]
    dsimp only
    by_cases hsame : other = event
    · subst hsame
      rw [setHeader_same, hheader other hother]
      simp [markCommitted, hserial, Event.header]
    · have hapart := hlayout.disjoint.forall hother hmem hsame
      have hne : other.serial ≠ serial := fun h => hsame (hunique other hother h)
      unfold Event.Apart Event.stop headerSize at hapart
      rw [setHeader_other _ _ (by omega), hheader other hother]
      simp [markCommitted, hne]
  cases hlayout with
  | linear hzero hstop htiles =>
    rw [hcommit] at hnext ⊢
    exact .linear hzero hstop (htiles.commit serial hnext)
  | wrapped tail front wrap hlive halloc hwrapped hstop htail hfront hskip =>
    subst hlive
    have hwrap := htail.le
    have hpos : wrap ≠ event.pos := by
      rcases List.mem_append.mp hmem with hmem | hmem
      · have := htail.stop_le hmem
        unfold Event.stop headerSize at this
        omega
      · have := hfront.stop_le hmem
        unfold Event.stop headerSize at this
        omega
    rw [hcommit] at hnext ⊢
    refine .wrapped (tail.map (markCommitted serial)) (front.map (markCommitted serial)) wrap
      List.map_append halloc hwrapped hstop
      (htail.commit serial fun other hother => hnext other (by simp [hother]))
      (hfront.commit serial fun other hother => hnext other (by simp [hother])) ?_
    intro hroom
    dsimp only
    rw [setHeader_other _ _ hpos]
    exact hskip hroom

end Libsax.Stage.EventQueue
