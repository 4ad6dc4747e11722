import Libsax.Net.BufferRuns

/-! `direct_put` and `direct_get` of `buffer` hand out the storage itself. A pointer
into it is kept as its offset from `_buf`. -/
namespace Libsax.Net

open Libsax.Lib

namespace Buffer

/-- `none` in place of the pointer is `NULL`. -/
def directPut (heap : Heap) (buf : Buffer) (prepareLength : UInt32) :
    Option (Buffer × Option Nat) :=
  if buf.limit ≠ invalidValue then some (buf, none)
  else
    match reserve heap buf (buf.current + prepareLength) with
    | none => none
    | some (buf, false) => some (buf, none)
    | some (buf, true) => some (buf, some buf.current.toNat)

def commitPut (buf : Buffer) (direct : Nat) (length : UInt32) : Buffer × Bool :=
  if buf.limit ≠ invalidValue ∨ buf.current.toNat ≠ direct ∨
      buf.current + length > buf.capacity then (buf, false)
  else ({ buf with current := buf.current + length }, true)

def directGet (buf : Buffer) : Option Nat :=
  if buf.limit = invalidValue then none else some buf.current.toNat

def commitGet (buf : Buffer) (direct : Nat) (length : UInt32) : Buffer × Bool :=
  if buf.limit = invalidValue ∨ buf.current.toNat ≠ direct ∨
      buf.current + length > buf.limit then (buf, false)
  else ({ buf with current := buf.current + length }, true)

/-- What the owner of the pointer `direct` writes there. -/
def fill (buf : Buffer) (direct : Nat) (data : List UInt8) : Buffer :=
  { buf with bytes := fun index =>
      if direct ≤ index ∧ index < direct + data.length then data.getD (index - direct) 0
      else buf.bytes index }

end Buffer

namespace Direct

open Buffer Contiguous

inductive Deed where
  | call (call : Contiguous.Call)
  | directPut (prepareLength : UInt32)
  /-- `commit_put` of bytes that were filled in at the pointer; they count as written
  once it accepts them -/
  | commitPut (direct : Nat) (data : List UInt8)
  | directGet
  | commitGet (direct : Nat) (length : UInt32)
deriving DecidableEq

def exec (heap : Heap) (buf : Buffer) : Deed → Option (Buffer × Bool)
  | .call call => do
    let (buf, reply) ← execBuffer heap buf call
    return (buf, reply.result)
  | .directPut prepareLength => do
    let (buf, direct) ← buf.directPut heap prepareLength
    return (buf, direct.isSome)
  | .commitPut direct data =>
    match buf.commitPut direct (UInt32.ofNat data.length) with
    | (buf, false) => some (buf, false)
    | (buf, true) => some (buf.fill direct data, true)
  | .directGet => some (buf, buf.directGet.isSome)
  | .commitGet direct length => some (buf.commitGet direct length)

/-- What a deed that returned `result` makes of the flat array. Preparing bytes does
not write any. -/
def track (flat : FlatBuffer) (result : Bool) : Deed → FlatBuffer
  | .call call => if result then (execFlat flat call).1 else flat
  | .commitPut _ data => if result then flat.write (data.map some) else flat
  | .commitGet _ length =>
    if result then { flat with position := flat.position + length.toNat } else flat
  | _ => flat

/-- A deed, the buffer before and after it, and what it returned. -/
structure Entry where
  before : Buffer
  deed : Deed
  after : Buffer
  result : Bool

/-- The buffer next to the bytes that were written and committed. -/
structure System where
  buffer : Buffer
  flat : FlatBuffer
  trace : List Entry

/-- `none` is an access outside of the storage or a failed assertion. -/
def step (heap : Heap) (system : System) (deed : Deed) : Option System := do
  let (buffer, result) ← exec heap system.buffer deed
  return ⟨buffer, track system.flat result deed,
    system.trace ++ [⟨system.buffer, deed, buffer, result⟩]⟩

def start (heap : Heap) (blockSize : UInt32) : Option System :=
  (Buffer.create heap blockSize).map fun buffer => ⟨buffer, .create, []⟩

/-- How many bytes from the cursor on a deed asks for. -/
def Deed.span : Deed → Option Nat
  | .call (.put data) => some data.length
  | .call (.putInt size _ _) => some size
  | .call (.get length) => some length.toNat
  | .call (.getInt size _) => some size
  | .call (.peekInt size _) => some size
  | .call (.skip length) => some length.toNat
  | .directPut prepareLength => some prepareLength.toNat
  | .commitPut _ data => some data.length
  | .commitGet _ length => some length.toNat
  | _ => none

/-- The deed only looks at the bytes behind the cursor or prepares them. -/
def Deed.stays : Deed → Bool
  | .call (.peekInt _ _) => true
  | .directPut _ => true
  | _ => false

/-- A deed that succeeds has the bytes it asked for: in storage while the buffer is
written, below the limit while it is read. The cursor passes these bytes. -/
structure Checked (entry : Entry) : Prop where
  written : ∀ length, entry.deed.span = some length → entry.result = true →
    entry.before.limit = invalidValue →
      entry.before.current.toNat + length ≤ entry.after.size
  read : ∀ length, entry.deed.span = some length → entry.result = true →
    entry.before.limit ≠ invalidValue →
      entry.before.current.toNat + length ≤ entry.before.limit.toNat
  moved : ∀ length, entry.deed.span = some length → entry.result = true →
    entry.after.current.toNat =
      entry.before.current.toNat + if entry.deed.stays then 0 else length

/-- The cursor is inside the storage and, while the buffer is read, below the limit. -/
structure Inside (buf : Buffer) : Prop where
  size : buf.size = buf.capacity.toNat
  current : buf.current.toNat ≤ buf.capacity.toNat
  limit : buf.limit ≠ invalidValue →
    buf.current.toNat ≤ buf.limit.toNat ∧ buf.limit.toNat ≤ buf.capacity.toNat

structure Sound (system : System) : Prop where
  inside : Inside system.buffer
  checked : ∀ entry ∈ system.trace, Checked entry

/-- Every byte that was written or committed is still there. -/
def Kept (system : System) : Prop :=
  ∀ index byte, system.flat.cells index = some byte →
    index < system.buffer.size ∧ system.buffer.bytes index = byte

/-- How many bytes behind the cursor a deed makes sure of. -/
def Deed.demand (buf : Buffer) : Deed → Option Nat
  | .call asked => Contiguous.demand buf asked
  | .directPut prepareLength =>
    if buf.limit = invalidValue then some prepareLength.toNat else none
  | _ => none

/-- How many bytes a deed commits at the cursor. -/
def Deed.commits (buf : Buffer) : Deed → Option Nat
  | .commitPut direct data =>
    if buf.limit = invalidValue ∧ buf.current.toNat = direct then some data.length else none
  | .commitGet direct length =>
    if buf.limit ≠ invalidValue ∧ buf.current.toNat = direct then some length.toNat else none
  | _ => none

def Deed.size : Deed → Nat
  | .call asked => asked.size
  | _ => 0

/-- The position and the length, in whole pages where storage is asked for, add up
to less than 2^32. -/
structure Bounded (buf : Buffer) (deed : Deed) : Prop where
  size : deed.size < 2 ^ 32 - 1
  demand : ∀ length, deed.demand buf = some length → buf.Fits length
  commits : ∀ length, deed.commits buf = some length → buf.current.toNat + length < 2 ^ 32

def Accepted (buf : Buffer) (deed : Deed) : Prop :=
  ∀ newLimit, deed = .call (.limit newLimit) → buf.limit ≠ invalidValue →
    newLimit ≤ buf.capacity

/-- While the buffer is read, the limit and the cursor are not set past each other. -/
structure InOrder (buf : Buffer) (deed : Deed) : Prop where
  limit : ∀ newLimit, deed = .call (.limit newLimit) → buf.limit ≠ invalidValue →
    buf.current ≤ newLimit
  reset : deed = .call .reset → buf.limit ≠ invalidValue → buf.mark ≠ invalidValue →
    buf.mark ≤ buf.limit

/-- `direct_put` does not get new storage while there are bytes at or behind the cursor. -/
def Forward (system : System) (deed : Deed) : Prop :=
  ∀ prepareLength, deed = .directPut prepareLength →
    system.buffer.limit = invalidValue →
    system.buffer.capacity < system.buffer.current + prepareLength →
      ∀ index, system.buffer.current.toNat ≤ index → system.flat.cells index = none

variable {heap : Heap} {buf : Buffer} {flat : FlatBuffer}

/-- Storage is asked for at most once in a call, so that the other answers of the
allocator do not matter. -/
def granting (heap : Heap) (buf : Buffer) : Heap := fun _ =>
  some ((heap buf.blocks).getD fun _ => 0)

@[simp] private theorem granting_isSome (heap : Heap) (buf : Buffer) (block : Nat) :
    (granting heap buf block).isSome := rfl

theorem reserve_granting (heap : Heap) (buf : Buffer) (size : UInt32) :
    Buffer.reserve heap buf size = Buffer.reserve (granting heap buf) buf size ∨
      Buffer.reserve heap buf size = some ({ buf with blocks := buf.blocks + 1 }, false) := by
  unfold Buffer.reserve granting
  cases hanswer : heap buf.blocks with
  | none =>
    by_cases hsmall : buf.capacity < size
    · exact Or.inr (by simp only [if_pos hsmall])
    · exact Or.inl (by simp only [if_neg hsmall])
  | some fresh => exact Or.inl (by simp only [Option.getD_some])

private theorem put_granting (heap : Heap) (buf : Buffer) (data : List UInt8) :
    buf.put heap data = buf.put (granting heap buf) data ∨
      buf.put heap data = some ({ buf with blocks := buf.blocks + 1 }, false) := by
  unfold Buffer.put
  by_cases hlimit : buf.limit ≠ invalidValue
  · exact Or.inl (by simp only [if_pos hlimit])
  · simp only [if_neg hlimit]
    rcases reserve_granting heap buf (buf.current + UInt32.ofNat data.length) with hsame | hrefused
    · exact Or.inl (by rw [hsame])
    · exact Or.inr (by rw [hrefused])

private theorem skip_granting (heap : Heap) (buf : Buffer) (length : UInt32) :
    buf.skip heap length = buf.skip (granting heap buf) length ∨
      buf.skip heap length = some ({ buf with blocks := buf.blocks + 1 }, false) := by
  unfold Buffer.skip
  by_cases hlimit : buf.limit = invalidValue
  · simp only [if_pos hlimit]
    rcases reserve_granting heap buf (buf.current + length) with hsame | hrefused
    · exact Or.inl (by rw [hsame])
    · exact Or.inr (by rw [hrefused])
  · exact Or.inl (by simp only [if_neg hlimit])

private theorem exec_granting (heap : Heap) (buf : Buffer) (call : Contiguous.Call) :
    execBuffer heap buf call = execBuffer (granting heap buf) buf call ∨
      execBuffer heap buf call = some ({ buf with blocks := buf.blocks + 1 }, ⟨false, [], 0⟩) := by
  cases call with
  | put data =>
    rcases put_granting heap buf data with hsame | hrefused
    · exact Or.inl (by simp only [execBuffer, hsame])
    · exact Or.inr (by simp only [execBuffer, hrefused]; rfl)
  | putInt size number bigendian =>
    rcases put_granting heap buf (FlatBuffer.wire size number bigendian) with hsame | hrefused
    · exact Or.inl (by simp only [execBuffer, putInt_eq, hsame])
    · exact Or.inr (by simp only [execBuffer, putInt_eq, hrefused]; rfl)
  | skip length =>
    rcases skip_granting heap buf length with hsame | hrefused
    · exact Or.inl (by simp only [execBuffer, hsame])
    · exact Or.inr (by simp only [execBuffer, hrefused]; rfl)
  | get => exact Or.inl rfl
  | getInt => exact Or.inl rfl
  | peekInt => exact Or.inl rfl
  | mark => exact Or.inl rfl
  | limit => exact Or.inl rfl
  | reset => exact Or.inl rfl
  | rewind => exact Or.inl rfl
  | flip => exact Or.inl rfl
  | compact => exact Or.inl rfl
  | clear => exact Or.inl rfl

theorem Inside.of_refines (hrefines : buf.Refines flat) : Inside buf :=
  ⟨hrefines.size, hrefines.inside, hrefines.limitInside⟩

private theorem put_succeeds {data : List UInt8} (hresult : (flat.put data).2 = true) :
    flat.limit = none ∧ (flat.put data).1.position = flat.position + data.length := by
  unfold FlatBuffer.put at hresult ⊢
  cases hlimit : flat.limit with
  | some limit => simp [hlimit] at hresult
  | none => simp [FlatBuffer.write]

private theorem get_succeeds {length : Nat} (hresult : (flat.get length).2.isSome = true) :
    flat.Readable length ∧ (flat.get length).1.position = flat.position + length := by
  unfold FlatBuffer.get at hresult ⊢
  by_cases hread : flat.Readable length
  · exact ⟨hread, by rw [if_pos hread]⟩
  · rw [if_neg hread] at hresult
    cases hresult

private theorem skip_succeeds {length : Nat} (hresult : (flat.skipOver length).2 = true) :
    (flat.limit = none ∨ flat.Readable length) ∧
      (flat.skipOver length).1.position = flat.position + length := by
  unfold FlatBuffer.skipOver FlatBuffer.skip at hresult ⊢
  cases hlimit : flat.limit with
  | none => simp [FlatBuffer.write]
  | some limit =>
    by_cases hread : flat.Readable length
    · simp [hread]
    · simp [hlimit, hread] at hresult

/-- A call that succeeds is about bytes behind the cursor: in reading mode they are
below the limit. Only such bytes can be looked at without passing them. -/
private theorem flat_succeeds {call : Contiguous.Call} {length : Nat}
    (hspan : (Deed.call call).span = some length) (hresult : (execFlat flat call).2.result = true) :
    (execFlat flat call).1.position =
        flat.position + (if (Deed.call call).stays then 0 else length) ∧
      ((Deed.call call).stays = false ∧ flat.limit = none ∨ flat.Readable length) := by
  cases call with
  | put data =>
    cases hspan
    obtain ⟨hlimit, hmoved⟩ := put_succeeds hresult
    exact ⟨hmoved, Or.inl ⟨rfl, hlimit⟩⟩
  | putInt count number bigendian =>
    cases hspan
    have hlength : (FlatBuffer.wire length number bigendian).length = length := by
      cases bigendian <;> simp [FlatBuffer.wire]
    obtain ⟨hlimit, hmoved⟩ := put_succeeds hresult
    rw [hlength] at hmoved
    exact ⟨hmoved, Or.inl ⟨rfl, hlimit⟩⟩
  | get count =>
    cases hspan
    obtain ⟨hread, hmoved⟩ := get_succeeds hresult
    exact ⟨hmoved, Or.inr hread⟩
  | getInt count bigendian =>
    cases hspan
    obtain ⟨hread, hmoved⟩ := get_succeeds hresult
    exact ⟨hmoved, Or.inr hread⟩
  | peekInt count bigendian =>
    cases hspan
    exact ⟨rfl, Or.inr (get_succeeds hresult).1⟩
  | skip count =>
    cases hspan
    obtain ⟨hopen, hmoved⟩ := skip_succeeds hresult
    exact ⟨hmoved, hopen.imp_left fun hlimit => ⟨rfl, hlimit⟩⟩
  | mark => cases hspan
  | limit => cases hspan
  | reset => cases hspan
  | rewind => cases hspan
  | flip => cases hspan
  | compact => cases hspan
  | clear => cases hspan

theorem Checked.of_failed {deed : Deed} {before after : Buffer} :
    Checked ⟨before, deed, after, false⟩ :=
  ⟨fun _ _ h => (Bool.false_ne_true h).elim, fun _ _ h => (Bool.false_ne_true h).elim,
    fun _ _ h => (Bool.false_ne_true h).elim⟩

private theorem checked_of_moved {deed : Deed} {next : Buffer} {flat' : FlatBuffer} {length : Nat}
    (hbefore : buf.Refines flat) (hafter : next.Refines flat') (hspan : deed.span = some length)
    (hmoved : flat'.position = flat.position + if deed.stays then 0 else length)
    (hopen : deed.stays = false ∧ flat.limit = none ∨ flat.Readable length) :
    Checked ⟨buf, deed, next, true⟩ := by
  have hposition := hbefore.position
  have hnext := hafter.position
  have hinside := hafter.inside
  have hsize := hafter.size
  refine ⟨fun count hcount _ hlimit => ?_, fun count hcount _ hlimit => ?_,
    fun count hcount _ => ?_⟩
  · obtain rfl : length = count := Option.some.inj (hspan.symm.trans hcount)
    rcases hopen with ⟨hstays, -⟩ | ⟨limit, hread, -⟩
    · rw [hstays] at hmoved
      simp only [Bool.false_eq_true, if_false] at hmoved
      dsimp only
      omega
    · rw [hbefore.writing_iff.mp hlimit] at hread
      cases hread
  · obtain rfl : length = count := Option.some.inj (hspan.symm.trans hcount)
    rcases hopen with ⟨-, hnone⟩ | ⟨limit, hread, hle⟩
    · exact absurd (hbefore.writing_iff.mpr hnone) hlimit
    · rw [hbefore.limit_of_ne hlimit] at hread
      cases hread
      have horder := (hbefore.limitInside hlimit).1
      dsimp only
      omega
  · obtain rfl : length = count := Option.some.inj (hspan.symm.trans hcount)
    dsimp only
    omega

private theorem checked_of_none {deed : Deed} {before after : Buffer} {result : Bool}
    (hspan : deed.span = none) : Checked ⟨before, deed, after, result⟩ := by
  refine ⟨fun _ h => ?_, fun _ h => ?_, fun _ h => ?_⟩ <;>
    exact absurd (hspan.symm.trans h) (by simp)

private theorem execFlat_refused {call : Contiguous.Call}
    (hresult : (execFlat flat call).2.result = false) :
    (execFlat flat call).1 = flat := by
  have hput : ∀ {data : List UInt8}, (flat.put data).2 = false → (flat.put data).1 = flat := by
    intro data hfalse
    unfold FlatBuffer.put at hfalse ⊢
    split_ifs at hfalse ⊢
    rfl
  have hget : ∀ {length : Nat}, (flat.get length).2.isSome = false →
      (flat.get length).1 = flat := by
    intro length hfalse
    unfold FlatBuffer.get at hfalse ⊢
    by_cases hread : flat.Readable length
    · simp [hread] at hfalse
    · rw [if_neg hread]
  cases call with
  | put data => exact hput hresult
  | putInt size number bigendian => exact hput hresult
  | get length => exact hget hresult
  | getInt size bigendian => exact hget hresult
  | peekInt => rfl
  | skip length =>
    have hskip : (flat.skipOver length.toNat).2 = false := hresult
    change (flat.skipOver length.toNat).1 = flat
    unfold FlatBuffer.skipOver FlatBuffer.skip at hskip ⊢
    split_ifs at hskip ⊢
    all_goals simp_all
  | mark => cases hresult
  | limit => cases hresult
  | reset =>
    have hreset : flat.reset.2 = false := hresult
    change flat.reset.1 = flat
    unfold FlatBuffer.reset at hreset ⊢
    cases hmark : flat.mark <;> simp_all
  | rewind => cases hresult
  | flip =>
    have hflip : flat.flip.2 = false := hresult
    change flat.flip.1 = flat
    unfold FlatBuffer.flip at hflip ⊢
    cases hlimit : flat.limit <;> simp_all
  | compact =>
    have hcompact : flat.compactInPlace.2 = false := hresult
    change flat.compactInPlace.1 = flat
    unfold FlatBuffer.compactInPlace at hcompact ⊢
    cases hlimit : flat.limit <;> simp_all
  | clear => cases hresult

private theorem exec_call (heap : Heap) (hrefines : buf.Refines flat) {call : Contiguous.Call}
    (hsize : call.size < 2 ^ 32 - 1)
    (hdemand : ∀ length, Contiguous.demand buf call = some length → buf.Fits length)
    (haccepted : Accepted buf (.call call)) (horder : InOrder buf (.call call)) :
    ∃ next result, exec heap buf (.call call) = some (next, result) ∧
      next.Refines (track flat result (.call call)) ∧
      Checked ⟨buf, .call call, next, result⟩ := by
  have hcallBounded : Contiguous.Bounded ⟨buf, flat, []⟩ call :=
    ⟨hsize, fun length hlength => (hdemand length hlength).bounded,
      fun newLimit hcall hlimit => ⟨horder.limit newLimit (congrArg _ hcall) hlimit,
        haccepted newLimit (congrArg _ hcall) hlimit⟩⟩
  have hcallSane : Contiguous.Sane ⟨buf, flat, []⟩ call :=
    ⟨fun hcall => horder.reset (congrArg _ hcall),
      fun length hlength => (hdemand length hlength).growth⟩
  obtain ⟨next, reply, hexec, hnext, hagrees⟩ :=
    exec_related (granting_isSome heap buf) hrefines hcallBounded hcallSane
  have hresult : reply.result = (execFlat flat call).2.result := hagrees.result
  rcases exec_granting heap buf call with hsame | hrefused
  · refine ⟨next, reply.result, ?_, ?_, ?_⟩
    · simp only [exec, hsame, hexec]
      rfl
    · unfold track
      cases hreply : reply.result with
      | true => exact hnext
      | false =>
        rw [execFlat_refused (hresult.symm.trans hreply)] at hnext
        exact hnext
    · cases hreply : reply.result with
      | false => exact Checked.of_failed
      | true =>
        cases hspan : (Deed.call call).span with
        | none => exact checked_of_none hspan
        | some length =>
          obtain ⟨hmoved, hopen⟩ := flat_succeeds hspan (hresult.symm.trans hreply)
          exact checked_of_moved hrefines hnext hspan hmoved hopen
  · refine ⟨{ buf with blocks := buf.blocks + 1 }, false, ?_, ?_, ?_⟩
    · simp only [exec, hrefused]
      rfl
    · exact { hrefines with
        cells := hrefines.cells }
    · exact Checked.of_failed

private theorem forget_of_blank {length : Nat}
    (hblank : ∀ index, flat.position ≤ index → flat.cells index = none) :
    flat.forget length = flat := by
  have hcells : (flat.forget length).cells = flat.cells := by
    funext index
    unfold FlatBuffer.forget
    dsimp only
    split_ifs with hinside
    · exact (hblank index hinside.1).symm
    · rfl
  exact congrArg (fun cells => { flat with cells := cells }) hcells

private theorem exec_directPut (heap : Heap) (hrefines : buf.Refines flat) {prepareLength : UInt32}
    (hfits : buf.limit = invalidValue → buf.Fits prepareLength.toNat) :
    ∃ next result flat', exec heap buf (.directPut prepareLength) = some (next, result) ∧
      next.Refines flat' ∧ Checked ⟨buf, .directPut prepareLength, next, result⟩ ∧
      ((buf.limit = invalidValue → buf.capacity < buf.current + prepareLength →
        ∀ index, flat.position ≤ index → flat.cells index = none) → flat' = flat) := by
  by_cases hlimit : buf.limit = invalidValue
  · simp only [exec, Buffer.directPut, if_neg (not_not.mpr hlimit)]
    obtain ⟨hbounded, hgrowth⟩ := hfits hlimit
    rcases reserve_granting heap buf (buf.current + prepareLength) with hsame | hrefused
    · obtain ⟨bytes, size, capacity, blocks, hreserve, hgrown, henough⟩ :=
        hrefines.reserve (granting_isSome heap buf) hbounded hgrowth
      have hsize : size = capacity.toNat := hgrown.size
      have hchecked : Checked ⟨buf, .directPut prepareLength, { buf with
          bytes := bytes, size := size, capacity := capacity, blocks := blocks }, true⟩ := by
        refine ⟨fun count hcount _ _ => ?_, fun _ _ _ h => absurd hlimit h, fun _ _ _ => rfl⟩
        obtain rfl : prepareLength.toNat = count := Option.some.inj hcount
        exact hsize ▸ henough
      by_cases hsmall : buf.capacity < buf.current + prepareLength
      · refine ⟨_, true, _, ?_, hgrown, hchecked, fun hblank => ?_⟩
        · rw [hsame, hreserve]
          rfl
        · exact forget_of_blank (hblank hlimit hsmall)
      · have hstays : Buffer.reserve (granting heap buf) buf (buf.current + prepareLength) =
            some (buf, true) := if_neg hsmall
        rw [hstays] at hreserve
        rw [hsame, hstays]
        rw [← (Prod.mk.inj (Option.some.inj hreserve)).1] at hchecked
        exact ⟨buf, true, flat, rfl, hrefines, hchecked, fun _ => rfl⟩
    · rw [hrefused]
      exact ⟨_, false, flat, rfl, { hrefines with cells := hrefines.cells }, Checked.of_failed,
        fun _ => rfl⟩
  · simp only [exec, Buffer.directPut, ne_eq, hlimit, not_false_eq_true, if_true]
    exact ⟨buf, false, flat, rfl, hrefines, Checked.of_failed, fun _ => rfl⟩

private theorem exec_commitPut (heap : Heap) (hrefines : buf.Refines flat) {direct : Nat}
    {data : List UInt8}
    (hcommits : buf.limit = invalidValue → buf.current.toNat = direct →
      buf.current.toNat + data.length < 2 ^ 32) :
    ∃ next result, exec heap buf (.commitPut direct data) = some (next, result) ∧
      next.Refines (track flat result (.commitPut direct data)) ∧
      Checked ⟨buf, .commitPut direct data, next, result⟩ := by
  unfold exec Buffer.commitPut
  by_cases hrefused : buf.limit ≠ invalidValue ∨ buf.current.toNat ≠ direct ∨
      buf.current + UInt32.ofNat data.length > buf.capacity
  · simp only [if_pos hrefused]
    exact ⟨buf, false, rfl, hrefines, Checked.of_failed⟩
  · simp only [if_neg hrefused]
    simp only [not_or, not_not] at hrefused
    obtain ⟨hlimit, rfl, hfits⟩ := hrefused
    have hsmall := hcommits hlimit rfl
    have hsum : (buf.current + UInt32.ofNat data.length).toNat =
        buf.current.toNat + data.length := by
      rw [UInt32.toNat_add, UInt32.toNat_ofNat', Nat.mod_eq_of_lt (a := data.length) (by omega),
        Nat.mod_eq_of_lt hsmall]
    have hinside : buf.current.toNat + data.length ≤ buf.capacity.toNat := by
      rw [gt_iff_lt, UInt32.lt_iff_toNat_lt, hsum] at hfits
      omega
    have hposition := hrefines.position
    have hnext : (Buffer.fill { buf with current := buf.current + UInt32.ofNat data.length }
        buf.current.toNat data).Refines (flat.write (data.map some)) :=
      { hrefines with
        position := by
          change flat.position + (data.map some).length = _
          rw [List.length_map, hposition]
          exact hsum.symm
        inside := hsum.symm ▸ hinside
        limitInside := fun h => absurd hlimit h
        cells := fun index byte hbyte => by
          simp only [FlatBuffer.write, List.length_map, hposition] at hbyte
          simp only [Buffer.fill]
          split_ifs at hbyte ⊢ with hindex
          · refine ⟨by omega, ?_⟩
            have hlt : index - buf.current.toNat < data.length := by omega
            rw [List.getElem?_map, List.getElem?_eq_getElem hlt] at hbyte
            rw [List.getD_eq_getElem?_getD, List.getElem?_eq_getElem hlt]
            exact Option.some.inj hbyte
          · exact hrefines.cells index byte hbyte }
    refine ⟨_, true, rfl, hnext, checked_of_moved hrefines hnext rfl ?_
      (Or.inl ⟨rfl, hrefines.writing_iff.mp hlimit⟩)⟩
    change flat.position + (data.map some).length = _
    rw [List.length_map]
    rfl

/-- However long the bytes are said to be, `commit_get` leaves the cursor below the limit. -/
private theorem exec_commitGet (heap : Heap) (hrefines : buf.Refines flat) (direct : Nat)
    (length : UInt32) :
    ∃ next result flat', exec heap buf (.commitGet direct length) = some (next, result) ∧
      next.Refines flat' ∧
      ((buf.limit ≠ invalidValue → buf.current.toNat = direct →
          buf.current.toNat + length.toNat < 2 ^ 32) →
        flat' = track flat result (.commitGet direct length) ∧
          Checked ⟨buf, .commitGet direct length, next, result⟩) := by
  unfold exec Buffer.commitGet
  by_cases hrefused : buf.limit = invalidValue ∨ buf.current.toNat ≠ direct ∨
      buf.current + length > buf.limit
  · simp only [if_pos hrefused]
    exact ⟨buf, false, flat, rfl, hrefines, fun _ => ⟨rfl, Checked.of_failed⟩⟩
  · simp only [if_neg hrefused]
    simp only [not_or, not_not] at hrefused
    obtain ⟨hlimit, rfl, hfits⟩ := hrefused
    have hinside : (buf.current + length).toNat ≤ buf.limit.toNat := by
      rw [gt_iff_lt, UInt32.lt_iff_toNat_lt] at hfits
      omega
    have hto := (hrefines.limitInside hlimit).2
    have hnext : { buf with current := buf.current + length }.Refines
        { flat with position := (buf.current + length).toNat } :=
      hrefines.move rfl (by omega) fun _ => hinside
    refine ⟨_, true, _, rfl, hnext, fun hcommits => ?_⟩
    have hsum : (buf.current + length).toNat = buf.current.toNat + length.toNat := by
      rw [UInt32.toNat_add, Nat.mod_eq_of_lt (hcommits hlimit rfl)]
    have hposition := hrefines.position
    have hmoved : (buf.current + length).toNat = flat.position + length.toNat := by omega
    refine ⟨?_, checked_of_moved hrefines hnext rfl hmoved (Or.inr
      ⟨_, hrefines.limit_of_ne hlimit, by omega⟩)⟩
    rw [hmoved]
    rfl

/-- The sum that `commit_get` makes does not wrap. -/
def Honest (buf : Buffer) (deed : Deed) : Prop :=
  ∀ direct length, deed = .commitGet direct length → buf.limit ≠ invalidValue →
    buf.current.toNat = direct → buf.current.toNat + length.toNat < 2 ^ 32

theorem Bounded.honest {deed : Deed} (hbounded : Bounded buf deed) : Honest buf deed := by
  rintro direct length rfl hlimit hdirect
  exact hbounded.commits length.toNat (if_pos ⟨hlimit, hdirect⟩)

theorem exec_spec (heap : Heap) (hrefines : buf.Refines flat) {deed : Deed} (hsize : deed.size < 2 ^ 32 - 1)
    (hwritten : buf.limit = invalidValue → Bounded buf deed) (haccepted : Accepted buf deed)
    (horder : InOrder buf deed) :
    ∃ next result flat', exec heap buf deed = some (next, result) ∧ next.Refines flat' ∧
      (Honest buf deed → Checked ⟨buf, deed, next, result⟩) ∧
      (Honest buf deed → (∀ prepareLength, deed = .directPut prepareLength →
        buf.limit = invalidValue → buf.capacity < buf.current + prepareLength →
          ∀ index, flat.position ≤ index → flat.cells index = none) →
        flat' = track flat result deed) := by
  cases deed with
  | call call =>
    have hdemand : ∀ length, Contiguous.demand buf call = some length → buf.Fits length := by
      intro length hlength
      by_cases hlimit : buf.limit = invalidValue
      · exact (hwritten hlimit).demand length hlength
      · unfold Contiguous.demand at hlength
        cases call <;> simp [hlimit] at hlength
    obtain ⟨next, result, hexec, hnext, hchecked⟩ :=
      exec_call heap hrefines hsize hdemand haccepted horder
    exact ⟨next, result, _, hexec, hnext, fun _ => hchecked, fun _ _ => rfl⟩
  | directPut prepareLength =>
    obtain ⟨next, result, flat', hexec, hnext, hchecked, hsame⟩ :=
      exec_directPut heap hrefines fun hlimit =>
        (hwritten hlimit).demand prepareLength.toNat (if_pos hlimit)
    exact ⟨next, result, flat', hexec, hnext, fun _ => hchecked,
      fun _ hblank => hsame (hblank _ rfl)⟩
  | commitPut direct data =>
    obtain ⟨next, result, hexec, hnext, hchecked⟩ :=
      exec_commitPut heap hrefines fun hlimit hdirect =>
        (hwritten hlimit).commits data.length (if_pos ⟨hlimit, hdirect⟩)
    exact ⟨next, result, _, hexec, hnext, fun _ => hchecked, fun _ _ => rfl⟩
  | directGet =>
    exact ⟨buf, _, flat, rfl, hrefines, fun _ => checked_of_none rfl, fun _ _ => rfl⟩
  | commitGet direct length =>
    obtain ⟨next, result, flat', hexec, hnext, hcommits⟩ :=
      exec_commitGet heap hrefines direct length
    exact ⟨next, result, flat', hexec, hnext, fun hhonest => (hcommits (hhonest _ _ rfl)).2,
      fun hhonest _ => (hcommits (hhonest _ _ rfl)).1⟩

end Direct

end Libsax.Net
