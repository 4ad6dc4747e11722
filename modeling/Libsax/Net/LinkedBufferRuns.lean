import Libsax.Lib.Run
import Libsax.Net.LinkedBufferRefines

/-! Sequences of calls on any number of linked buffers, next to the same calls
on flat arrays. -/
namespace Libsax.Net

open Libsax.Lib

inductive Call where
  | put (data : List UInt8)
  | putInt (size number : Nat) (bigendian : Bool)
  | get (length : UInt32)
  | getInt (size : Nat) (bigendian : Bool)
  | peekInt (size : Nat) (bigendian : Bool)
  | skip (length : UInt32)
  | mark
  | reset
  | rewind
  | flip
  | compact
  | clear
  /-- `get(linked_buffer&, uint32_t)` into another buffer -/
  | getBuffer (other : Nat) (length : UInt32)
  | getAll (other : Nat)
  /-- `put(linked_buffer&, uint32_t)` from another buffer -/
  | putBuffer (other : Nat) (length : UInt32)
  | putAll (other : Nat)
deriving DecidableEq

/-- What a call hands back: the returned bool and the bytes or the integer read. -/
structure Reply where
  result : Bool
  bytes : List UInt8
  number : Nat
deriving DecidableEq

structure FlatReply where
  result : Bool
  bytes : List (Option UInt8)
  number : Option Nat
deriving DecidableEq

def LinkedBuffer.exec (memory : Nat) (bufs : Nat → LinkedBuffer) (index : Nat) :
    Call → Option ((Nat → LinkedBuffer) × Reply)
  | .put data => do
    let (buf, result) ← (bufs index).put memory data
    return (Function.update bufs index buf, ⟨result, [], 0⟩)
  | .putInt size number bigendian => do
    let (buf, result) ← (bufs index).putInt memory size number bigendian
    return (Function.update bufs index buf, ⟨result, [], 0⟩)
  | .get length => do
    let (buf, bytes) ← (bufs index).get length
    return (Function.update bufs index buf, ⟨bytes.isSome, bytes.getD [], 0⟩)
  | .getInt size bigendian => do
    let (buf, number) ← (bufs index).getInt size bigendian
    return (Function.update bufs index buf, ⟨number.isSome, [], number.getD 0⟩)
  | .peekInt size bigendian => do
    let (buf, number) ← (bufs index).peekInt size bigendian
    return (Function.update bufs index buf, ⟨number.isSome, [], number.getD 0⟩)
  | .skip length => do
    let (buf, result) ← (bufs index).skip memory length
    return (Function.update bufs index buf, ⟨result, [], 0⟩)
  | .mark => some (Function.update bufs index (bufs index).setMark, ⟨true, [], 0⟩)
  | .reset =>
    some (Function.update bufs index (bufs index).reset.1, ⟨(bufs index).reset.2, [], 0⟩)
  | .rewind => some (Function.update bufs index (bufs index).rewind, ⟨true, [], 0⟩)
  | .flip => some (Function.update bufs index (bufs index).flip.1, ⟨(bufs index).flip.2, [], 0⟩)
  | .compact => do
    let (buf, result) ← (bufs index).compact
    return (Function.update bufs index buf, ⟨result, [], 0⟩)
  | .clear => some (Function.update bufs index (bufs index).clear, ⟨true, [], 0⟩)
  | .getBuffer other length => do
    let (buf, target, result) ← (bufs index).getBuffer (bufs other) memory length
    return (Function.update (Function.update bufs index buf) other target, ⟨result, [], 0⟩)
  | .getAll other => do
    let (buf, target, result) ←
      (bufs index).getBuffer (bufs other) memory (bufs index).remaining
    return (Function.update (Function.update bufs index buf) other target, ⟨result, [], 0⟩)
  | .putBuffer other length => do
    let (buf, target, result) ← (bufs other).getBuffer (bufs index) memory length
    return (Function.update (Function.update bufs other buf) index target, ⟨result, [], 0⟩)
  | .putAll other => do
    let (buf, target, result) ←
      (bufs other).getBuffer (bufs index) memory (bufs other).remaining
    return (Function.update (Function.update bufs other buf) index target, ⟨result, [], 0⟩)

def FlatBuffer.transfer (flats : Nat → FlatBuffer) (source target length : Nat) :
    (Nat → FlatBuffer) × FlatReply :=
  let moved := (flats source).getBuffer (flats target) length
  (Function.update (Function.update flats source moved.1) target moved.2.1,
    ⟨moved.2.2, [], some 0⟩)

def FlatBuffer.exec (flats : Nat → FlatBuffer) (index : Nat) :
    Call → (Nat → FlatBuffer) × FlatReply
  | .put data =>
    (Function.update flats index ((flats index).put data).1, ⟨((flats index).put data).2, [], some 0⟩)
  | .putInt size number bigendian =>
    let moved := (flats index).put (wire size number bigendian)
    (Function.update flats index moved.1, ⟨moved.2, [], some 0⟩)
  | .get length =>
    let moved := (flats index).get length.toNat
    (Function.update flats index moved.1, ⟨moved.2.isSome, moved.2.getD [], some 0⟩)
  | .getInt size bigendian =>
    let moved := (flats index).get size
    (Function.update flats index moved.1,
      ⟨moved.2.isSome, [], moved.2.elim (some 0) fun bytes => number bytes bigendian⟩)
  | .peekInt size bigendian =>
    let moved := (flats index).get size
    (flats, ⟨moved.2.isSome, [], moved.2.elim (some 0) fun bytes => number bytes bigendian⟩)
  | .skip length =>
    let moved := (flats index).skip length.toNat
    (Function.update flats index moved.1, ⟨moved.2, [], some 0⟩)
  | .mark => (Function.update flats index (flats index).setMark, ⟨true, [], some 0⟩)
  | .reset =>
    (Function.update flats index (flats index).reset.1, ⟨(flats index).reset.2, [], some 0⟩)
  | .rewind => (Function.update flats index (flats index).rewind, ⟨true, [], some 0⟩)
  | .flip =>
    (Function.update flats index (flats index).flip.1, ⟨(flats index).flip.2, [], some 0⟩)
  | .compact =>
    (Function.update flats index (flats index).compact.1, ⟨(flats index).compact.2, [], some 0⟩)
  | .clear => (Function.update flats index create, ⟨true, [], some 0⟩)
  | .getBuffer other length => transfer flats index other length.toNat
  | .getAll other => transfer flats index other ((flats index).remaining.getD (2 ^ 32 - 1))
  | .putBuffer other length => transfer flats other index length.toNat
  | .putAll other => transfer flats other index ((flats other).remaining.getD (2 ^ 32 - 1))

/-- Both sides, and the replies of every call so far. -/
structure System where
  linked : Nat → LinkedBuffer
  flat : Nat → FlatBuffer
  replies : List (Reply × FlatReply)

/-- `none` is a null dereference or a loop that never ends. -/
def step (memory : Nat) (system : System) (action : Nat × Call) : Option System := do
  let (linked, reply) ← LinkedBuffer.exec memory system.linked action.1 action.2
  let (flat, flatReply) := FlatBuffer.exec system.flat action.1 action.2
  return ⟨linked, flat, system.replies ++ [(reply, flatReply)]⟩

def create (blockSize : UInt32) (bytes : Nat → Nat → Nat → UInt8) : System where
  linked := fun index => LinkedBuffer.create blockSize (bytes index)
  flat := fun _ => .create
  replies := []

/-- The buffer that a call writes to and how many bytes it takes up there. -/
def System.demand (system : System) (index : Nat) : Call → Option (Nat × Nat)
  | .put data => if (system.flat index).limit.isNone then some (index, data.length) else none
  | .putInt size _ _ => if (system.flat index).limit.isNone then some (index, size) else none
  | .skip length => if (system.flat index).limit.isNone then some (index, length.toNat) else none
  | .getBuffer other length => moves index other length.toNat
  | .getAll other => moves index other ((system.flat index).remaining.getD (2 ^ 32 - 1))
  | .putBuffer other length => moves other index length.toNat
  | .putAll other => moves other index ((system.flat other).remaining.getD (2 ^ 32 - 1))
  | _ => none
where
  moves (source target length : Nat) : Option (Nat × Nat) :=
    if (system.flat source).Readable length ∧ (system.flat target).limit = none then
      some (target, length)
    else none

/-- The size of the integers that a call reads. -/
def Call.size : Call → Nat
  | .getInt size _ => size
  | .peekInt size _ => size
  | _ => 0

/-- Positions and lengths stay below 2^32 - 1. -/
def System.Bounded (system : System) (action : Nat × Call) : Prop :=
  action.2.size < 2 ^ 32 - 1 ∧ ∀ target length,
    system.demand action.1 action.2 = some (target, length) →
      (system.flat target).position + length < 2 ^ 32 - 1

/-- Some number of blocks brings `_usable`, a 32-bit counter, up to the space
that the call asks for, so that the loop of `reserve` ends. -/
def System.Reaches (system : System) (action : Nat × Call) : Prop :=
  ∀ target length, system.demand action.1 action.2 = some (target, length) →
    (system.linked target).Reaches
      ((system.linked target).current.position + UInt32.ofNat length + 1)

structure Reply.Agrees (reply : Reply) (flat : FlatReply) : Prop where
  result : reply.result = flat.result
  bytes : Agree reply.bytes flat.bytes
  number : ∀ number, flat.number = some number → reply.number = number

/-- The two sides cannot be told apart. -/
structure Sound (system : System) : Prop where
  replies : ∀ entry ∈ system.replies, entry.1.Agrees entry.2
  position : ∀ index, (system.linked index).current.position.toNat = (system.flat index).position
  remaining : ∀ index, (system.linked index).remaining.toNat =
    (system.flat index).remaining.getD (2 ^ 32 - 1)
  dataLength : ∀ index, (system.linked index).dataLength.toNat =
    (system.flat index).dataLength.getD (2 ^ 32 - 1)

def Inv (system : System) : Prop :=
  (∀ index, ∃ base, (system.linked index).Refines base (system.flat index)) ∧
    ∀ entry ∈ system.replies, entry.1.Agrees entry.2

theorem Inv.sound {system : System} (hinv : Inv system) : Sound system where
  replies := hinv.2
  position := fun index => by
    obtain ⟨base, hrefines⟩ := hinv.1 index
    exact hrefines.position.symm
  remaining := fun index => by
    obtain ⟨base, hrefines⟩ := hinv.1 index
    exact hrefines.remaining
  dataLength := fun index => by
    obtain ⟨base, hrefines⟩ := hinv.1 index
    exact hrefines.dataLength

theorem create_inv (blockSize : UInt32) (hsize : 1 ≤ blockSize)
    (bytes : Nat → Nat → Nat → UInt8) : Inv (create blockSize bytes) := by
  refine ⟨fun index => ⟨0, LinkedBuffer.create_refines ?_ (bytes index)⟩, by simp [create]⟩
  exact UInt32.le_iff_toNat_le.mp hsize

def Related (linked : Nat → LinkedBuffer) (flat : Nat → FlatBuffer) : Prop :=
  ∀ index, ∃ base, (linked index).Refines base (flat index)

theorem Related.update {linked : Nat → LinkedBuffer} {flat : Nat → FlatBuffer}
    (hrelated : Related linked flat) {index base : Nat} {buf : LinkedBuffer} {array : FlatBuffer}
    (hrefines : buf.Refines base array) :
    Related (Function.update linked index buf) (Function.update flat index array) := by
  intro other
  by_cases hother : other = index
  · subst hother
    rw [Function.update_self, Function.update_self]
    exact ⟨base, hrefines⟩
  · rw [Function.update_of_ne hother, Function.update_of_ne hother]
    exact hrelated other

theorem agrees_plain (result : Bool) : Reply.Agrees ⟨result, [], 0⟩ ⟨result, [], some 0⟩ :=
  ⟨rfl, .nil, fun _ hnumber => Option.some.inj hnumber⟩

variable {linked : Nat → LinkedBuffer} {flat : Nat → FlatBuffer} {memory : Nat}

theorem Related.transfer (hrelated : Related linked flat) (hmemory : 2 ^ 32 ≤ memory)
    (source target : Nat) (length : UInt32)
    (hfits : (flat source).Readable length.toNat → (flat target).limit = none →
      (linked target).Fits length.toNat) :
    ∃ buf other result, (linked source).getBuffer (linked target) memory length =
        some (buf, other, result) ∧
      Related (Function.update (Function.update linked source buf) target other)
        (FlatBuffer.transfer flat source target length.toNat).1 ∧
      Reply.Agrees ⟨result, [], 0⟩ (FlatBuffer.transfer flat source target length.toNat).2 := by
  obtain ⟨base, hsource⟩ := hrelated source
  obtain ⟨start, htarget⟩ := hrelated target
  obtain ⟨buf, other, hget, hbuf, hother, hnothing⟩ :=
    hsource.getBuffer htarget hmemory length hfits
  refine ⟨buf, other, _, hget, ?_, agrees_plain _⟩
  unfold FlatBuffer.transfer
  by_cases hsame : source = target
  · -- a buffer is never readable and writable at once
    subst hsame
    have hclosed : (flat source).getBuffer (flat source) length.toNat =
        (flat source, flat source, false) := by
      unfold FlatBuffer.getBuffer
      rw [if_neg]
      rintro ⟨⟨limit, hlimit, -⟩, hnone⟩
      rw [hnone] at hlimit
      exact absurd hlimit (by simp)
    rw [hclosed] at hnothing
    obtain ⟨rfl, rfl⟩ := hnothing rfl
    rw [hclosed]
    simpa using hrelated
  · exact (hrelated.update hbuf).update hother

namespace FlatBuffer

theorem put_eq (flat : FlatBuffer) (data : List UInt8) :
    flat.put data = (if flat.limit.isSome then flat else flat.write (data.map some),
      !flat.limit.isSome) := by
  unfold FlatBuffer.put
  split_ifs with h <;> simp [h]

private theorem get_refused {flat : FlatBuffer} {length : Nat} (hnot : ¬ flat.Readable length) :
    flat.get length = (flat, none) := by
  simp [FlatBuffer.get, hnot]

theorem get_readable {flat : FlatBuffer} {length : Nat} (hread : flat.Readable length) :
    flat.get length =
      ({ flat with position := flat.position + length }, some (flat.read length)) := by
  simp [FlatBuffer.get, hread]

end FlatBuffer

/-- The linked buffers do what the arrays do, and answer alike. -/
def Answers (memory : Nat) (linked : Nat → LinkedBuffer) (flat : Nat → FlatBuffer) (index : Nat)
    (call : Call) : Prop :=
  ∃ linked' reply, LinkedBuffer.exec memory linked index call = some (linked', reply) ∧
    Related linked' (FlatBuffer.exec flat index call).1 ∧
    reply.Agrees (FlatBuffer.exec flat index call).2

theorem Related.put (hrelated : Related linked flat) (hmemory : 2 ^ 32 ≤ memory) {index : Nat}
    (data : List UInt8)
    (hfits : (flat index).limit = none → (linked index).Fits data.length) :
    ∃ buf, (linked index).put memory data = some (buf, !(flat index).limit.isSome) ∧
      Related (Function.update linked index buf)
        (Function.update flat index ((flat index).put data).1) := by
  obtain ⟨base, hrefines⟩ := hrelated index
  obtain ⟨buf, hput, hbuf⟩ :=
    hrefines.putAgree (Nat.le_succ_of_le hmemory) (agree_some data) hfits
  rw [FlatBuffer.put_eq]
  exact ⟨buf, hput, hrelated.update hbuf⟩

theorem Related.exec_put (hrelated : Related linked flat) (hmemory : 2 ^ 32 ≤ memory)
    {index : Nat} (data : List UInt8)
    (hfits : (flat index).limit = none → (linked index).Fits data.length) :
    Answers memory linked flat index (.put data) := by
  obtain ⟨buf, hput, hbuf⟩ := hrelated.put hmemory data hfits
  unfold Answers LinkedBuffer.exec FlatBuffer.exec
  simp only [hput, FlatBuffer.put_eq]
  rw [FlatBuffer.put_eq] at hbuf
  exact ⟨_, _, rfl, hbuf, agrees_plain _⟩

theorem Related.exec_putInt (hrelated : Related linked flat) (hmemory : 2 ^ 32 ≤ memory)
    {index : Nat} (size number : Nat) (bigendian : Bool)
    (hfits : (flat index).limit = none → (linked index).Fits size) :
    Answers memory linked flat index (.putInt size number bigendian) := by
  have hlength : (FlatBuffer.wire size number bigendian).length = size := by
    cases bigendian <;> simp [FlatBuffer.wire]
  obtain ⟨buf, hput, hbuf⟩ := hrelated.put hmemory (FlatBuffer.wire size number bigendian)
    (hlength.symm ▸ hfits)
  unfold Answers LinkedBuffer.exec FlatBuffer.exec
  simp only [LinkedBuffer.putInt_eq, hput, FlatBuffer.put_eq]
  rw [FlatBuffer.put_eq] at hbuf
  exact ⟨_, _, rfl, hbuf, agrees_plain _⟩

theorem Related.exec_get (hrelated : Related linked flat) (memory index : Nat) (length : UInt32) :
    Answers memory linked flat index (.get length) := by
  obtain ⟨base, hrefines⟩ := hrelated index
  unfold Answers LinkedBuffer.exec FlatBuffer.exec
  rcases hrefines.get length with ⟨hnot, hget⟩ | ⟨pos, bytes, hread, hget, hagree, hbuf⟩
  · simp only [hget, FlatBuffer.get_refused hnot]
    exact ⟨_, _, rfl, hrelated.update hrefines, agrees_plain false⟩
  · simp only [hget, FlatBuffer.get_readable hread]
    exact ⟨_, _, rfl, hrelated.update hbuf,
      ⟨rfl, hagree, fun _ hnumber => Option.some.inj hnumber⟩⟩

theorem Related.exec_getInt (hrelated : Related linked flat) (memory index : Nat) {size : Nat}
    (hsize : size < 2 ^ 32) (bigendian : Bool) :
    Answers memory linked flat index (.getInt size bigendian) := by
  obtain ⟨base, hrefines⟩ := hrelated index
  unfold Answers LinkedBuffer.exec FlatBuffer.exec
  rcases hrefines.getInt hsize bigendian with
    ⟨hnot, hget⟩ | ⟨pos, number, hread, hget, hknown, hbuf⟩
  · simp only [hget, FlatBuffer.get_refused hnot]
    exact ⟨_, _, rfl, hrelated.update hrefines, agrees_plain false⟩
  · simp only [hget, FlatBuffer.get_readable hread]
    exact ⟨_, _, rfl, hrelated.update hbuf, ⟨rfl, .nil, hknown⟩⟩

theorem Related.exec_peekInt (hrelated : Related linked flat) (memory index : Nat) {size : Nat}
    (hsize : size < 2 ^ 32) (bigendian : Bool) :
    Answers memory linked flat index (.peekInt size bigendian) := by
  obtain ⟨base, hrefines⟩ := hrelated index
  unfold Answers LinkedBuffer.exec FlatBuffer.exec
  rcases hrefines.peekInt hsize bigendian with ⟨hnot, hget⟩ | ⟨number, hread, hget, hknown⟩
  · simp only [hget, FlatBuffer.get_refused hnot]
    exact ⟨_, _, rfl, by simpa using hrelated, agrees_plain false⟩
  · simp only [hget, FlatBuffer.get_readable hread]
    exact ⟨_, _, rfl, by simpa using hrelated, ⟨rfl, .nil, hknown⟩⟩

theorem Related.exec (hrelated : Related linked flat) (hmemory : 2 ^ 32 ≤ memory)
    {index : Nat} {call : Call} {replies : List (Reply × FlatReply)}
    (hbounded : System.Bounded ⟨linked, flat, replies⟩ (index, call))
    (hreaches : System.Reaches ⟨linked, flat, replies⟩ (index, call)) :
    Answers memory linked flat index call := by
  obtain ⟨base, hrefines⟩ := hrelated index
  have hfits : ∀ target length, System.demand ⟨linked, flat, replies⟩ index call =
      some (target, length) → (linked target).Fits length := by
    intro target length hdemand
    obtain ⟨start, htarget⟩ := hrelated target
    exact ⟨htarget.position ▸ hbounded.2 target length hdemand, hreaches target length hdemand⟩
  have hmoves : ∀ source target length,
      System.demand.moves ⟨linked, flat, replies⟩ source target length =
        System.demand ⟨linked, flat, replies⟩ index call →
      (flat source).Readable length → (flat target).limit = none →
        (linked target).Fits length := by
    intro source target length hdemand hread hlimit
    refine hfits target length (hdemand ▸ ?_)
    exact if_pos ⟨hread, hlimit⟩
  have hlengths : ∀ buffer, ((linked buffer).remaining).toNat =
      (flat buffer).remaining.getD (2 ^ 32 - 1) := by
    intro buffer
    obtain ⟨_, hbuffer⟩ := hrelated buffer
    exact hbuffer.remaining
  cases call with
  | put data =>
    exact hrelated.exec_put hmemory data fun hlimit =>
      hfits index data.length (by simp [System.demand, hlimit])
  | putInt size number bigendian =>
    exact hrelated.exec_putInt hmemory size number bigendian fun hlimit =>
      hfits index size (by simp [System.demand, hlimit])
  | get length => exact hrelated.exec_get memory index length
  | getInt size bigendian =>
    exact hrelated.exec_getInt memory index
      (Nat.lt_of_lt_of_le hbounded.1 (by decide)) bigendian
  | peekInt size bigendian =>
    exact hrelated.exec_peekInt memory index
      (Nat.lt_of_lt_of_le hbounded.1 (by decide)) bigendian
  | skip length =>
    unfold Answers LinkedBuffer.exec FlatBuffer.exec
    obtain ⟨buf, hskip, hbuf⟩ := hrefines.skip hmemory length fun hlimit =>
      hfits index length.toNat (by simp [System.demand, hlimit])
    simp only [hskip]
    exact ⟨_, _, rfl, hrelated.update hbuf, agrees_plain _⟩
  | mark => exact ⟨_, _, rfl, hrelated.update hrefines.setMark, agrees_plain true⟩
  | reset =>
    obtain ⟨hresult, hbuf⟩ := hrefines.reset
    exact ⟨_, _, rfl, hrelated.update hbuf, hresult ▸ agrees_plain _⟩
  | rewind => exact ⟨_, _, rfl, hrelated.update hrefines.rewind, agrees_plain true⟩
  | flip =>
    obtain ⟨hresult, hbuf⟩ := hrefines.flip
    exact ⟨_, _, rfl, hrelated.update hbuf, hresult ▸ agrees_plain _⟩
  | compact =>
    unfold Answers LinkedBuffer.exec FlatBuffer.exec
    obtain ⟨buf, start, hcompact, hbuf⟩ := hrefines.compact
    simp only [hcompact]
    exact ⟨_, _, rfl, hrelated.update hbuf, agrees_plain _⟩
  | clear => exact ⟨_, _, rfl, hrelated.update hrefines.clear, agrees_plain true⟩
  | getBuffer other length =>
    unfold Answers LinkedBuffer.exec FlatBuffer.exec
    obtain ⟨buf, target, result, hget, hafter, hreply⟩ :=
      hrelated.transfer hmemory index other length (hmoves index other length.toNat rfl)
    simp only [hget]
    exact ⟨_, _, rfl, hafter, hreply⟩
  | getAll other =>
    unfold Answers LinkedBuffer.exec FlatBuffer.exec
    obtain ⟨buf, target, result, hget, hafter, hreply⟩ :=
      hrelated.transfer hmemory index other (linked index).remaining
        (hlengths index ▸ hmoves index other _ rfl)
    rw [hlengths index] at hafter hreply
    simp only [hget]
    exact ⟨_, _, rfl, hafter, hreply⟩
  | putBuffer other length =>
    unfold Answers LinkedBuffer.exec FlatBuffer.exec
    obtain ⟨buf, target, result, hget, hafter, hreply⟩ :=
      hrelated.transfer hmemory other index length (hmoves other index length.toNat rfl)
    simp only [hget]
    exact ⟨_, _, rfl, hafter, hreply⟩
  | putAll other =>
    unfold Answers LinkedBuffer.exec FlatBuffer.exec
    obtain ⟨buf, target, result, hget, hafter, hreply⟩ :=
      hrelated.transfer hmemory other index (linked other).remaining
        (hlengths other ▸ hmoves other index _ rfl)
    rw [hlengths other] at hafter hreply
    simp only [hget]
    exact ⟨_, _, rfl, hafter, hreply⟩

theorem Inv.step {system : System} {action : Nat × Call} (hmemory : 2 ^ 32 ≤ memory)
    (hallowed : system.Bounded action ∧ system.Reaches action) (hinv : Inv system) :
    ∃ next, Net.step memory system action = some next ∧ Inv next := by
  obtain ⟨linked, reply, hexec, hrelated, hagrees⟩ :=
    Related.exec hinv.1 hmemory hallowed.1 hallowed.2
  unfold Net.step
  rw [hexec]
  refine ⟨_, rfl, hrelated, ?_⟩
  intro entry hmem
  rcases List.mem_append.mp hmem with h | h
  · exact hinv.2 entry h
  · rw [List.mem_singleton.mp h]
    exact hagrees

/-- With blocks of any size, linked buffers answer every call as flat arrays
do, as long as their 32-bit space counter can express the space asked for. -/
theorem linked_buffer_refines (blockSize : UInt32) (hsize : 1 ≤ blockSize)
    (bytes : Nat → Nat → Nat → UInt8) (memory : Nat) (hmemory : 2 ^ 32 ≤ memory)
    (calls : List (Nat × Call))
    (hcalls : Along (step memory) (fun system action =>
      system.Bounded action ∧ system.Reaches action) (create blockSize bytes) calls) :
    ∃ final, run (step memory) (create blockSize bytes) calls = some final ∧ Sound final := by
  obtain ⟨final, hrun, hinv⟩ := run_along (fun _ _ hallowed hinv => Inv.step hmemory hallowed hinv)
    hcalls (create_inv blockSize hsize bytes)
  exact ⟨final, hrun, hinv.sound⟩

/-- Five bytes in blocks of four. -/
theorem linked_buffer_refines_five : ∃ final,
    run (step (2 ^ 32)) (create 4 fun _ _ _ => 0)
        [(0, .put [1, 2, 3, 4, 5]), (0, .flip), (0, .get 5)] = some final ∧
      final.replies.map Prod.fst =
        [⟨true, [], 0⟩, ⟨true, [], 0⟩, ⟨true, [1, 2, 3, 4, 5], 0⟩] ∧ Sound final := by
  have hcalls : Along (step (2 ^ 32)) (fun system action =>
      system.Bounded action ∧ system.Reaches action) (create 4 fun _ _ _ => 0)
      [(0, .put [1, 2, 3, 4, 5]), (0, .flip), (0, .get 5)] := by
    refine ⟨⟨⟨by decide, ?_⟩, ?_⟩, fun next hnext => ?_⟩
    · rintro target length hdemand
      cases hdemand
      decide
    · rintro target length hdemand
      cases hdemand
      exact ⟨1, by decide⟩
    · obtain rfl : _ = next := Option.some.inj hnext
      refine ⟨⟨⟨by decide, fun _ _ h => absurd h (by simp [System.demand])⟩,
        fun _ _ h => absurd h (by simp [System.demand])⟩, fun next hnext => ?_⟩
      obtain rfl : _ = next := Option.some.inj hnext
      exact ⟨⟨⟨by decide, fun _ _ h => absurd h (by simp [System.demand])⟩,
        fun _ _ h => absurd h (by simp [System.demand])⟩, fun _ _ => trivial⟩
  obtain ⟨final, hrun, hsound⟩ := linked_buffer_refines 4 (by decide) (fun _ _ _ => 0) (2 ^ 32)
    (Nat.le_refl _) [(0, .put [1, 2, 3, 4, 5]), (0, .flip), (0, .get 5)] hcalls
  refine ⟨final, hrun, ?_, hsound⟩
  obtain rfl : _ = final := Option.some.inj hrun
  rfl

/-- With a block size that is a multiple of 8, `_usable` is a multiple of 8 and
wraps around before it comes up to 2^32 - 1, however many blocks there are. -/
theorem LinkedBuffer.reserveLoop_never_ends (memory : Nat) {buf : LinkedBuffer}
    (hsize : buf.blockSize.toNat % 8 = 0) (husable : buf.usable.toNat % 8 = 0) :
    (reserveLoop 0xFFFFFFFF memory buf).2 = false := by
  have hlt : buf.usable < 0xFFFFFFFF := by
    have hbound := buf.usable.toNat_lt
    rw [UInt32.lt_iff_toNat_lt]
    change buf.usable.toNat < 4294967295
    omega
  induction memory generalizing buf with
  | zero => simp [reserveLoop, hlt]
  | succ memory ih =>
    have hnext : (buf.usable + buf.blockSize).toNat % 8 = 0 := by
      rw [UInt32.toNat_add]
      omega
    have hltNext : buf.usable + buf.blockSize < 0xFFFFFFFF := by
      have hbound := (buf.usable + buf.blockSize).toNat_lt
      rw [UInt32.lt_iff_toNat_lt]
      change (buf.usable + buf.blockSize).toNat < 4294967295
      omega
    rw [reserveLoop, if_pos hlt]
    exact ih hsize hnext hltNext

theorem LinkedBuffer.skip_never_succeeds (memory : Nat) (bytes : Nat → Nat → UInt8) :
    (create 4088 bytes).skip memory 0xFFFFFFFE =
      some ((reserveLoop 0xFFFFFFFF memory (create 4088 bytes)).1, false) := by
  have hloop : (reserveLoop 0xFFFFFFFF memory (create 4088 bytes)).2 = false :=
    reserveLoop_never_ends memory (by simp [create]) (by simp [create])
  have hensure : (create 4088 bytes).ensure memory 0xFFFFFFFE =
      ((reserveLoop 0xFFFFFFFF memory (create 4088 bytes)).1, false) := by
    have hposition : (create 4088 bytes).current.position = 0 := rfl
    have husable : (create 4088 bytes).usable = 4088 := rfl
    have hsum : (0 : UInt32) + 0xFFFFFFFE + 1 = 0xFFFFFFFF := by decide
    rw [ensure, hposition, husable, if_pos (by decide), reserve, hsum, ← hloop]
  unfold skip
  rw [show (create 4088 bytes).limit.invalid = true from rfl]
  simp only [Bool.not_true, Bool.false_and, Bool.false_eq_true, if_false, if_true, hensure]

/-- Pages of 4096 bytes give blocks of 4088. A fresh buffer asked to skip
2^32 - 2 bytes allocates for as long as there is memory, and then fails. -/
theorem space_counter_wraps :
    ¬ ∀ (blockSize : UInt32) (bytes : Nat → Nat → Nat → UInt8) (memory : Nat)
      (calls : List (Nat × Call)), 1 ≤ blockSize → 2 ^ 32 ≤ memory →
      Along (step memory) (fun system action => system.Bounded action)
        (create blockSize bytes) calls →
      ∃ final, run (step memory) (create blockSize bytes) calls = some final ∧ Sound final := by
  intro hall
  obtain ⟨final, hrun, hsound⟩ := hall 4088 (fun _ _ _ => 0) (2 ^ 32)
    [(0, .skip 0xFFFFFFFE)] (by decide) (Nat.le_refl _) ⟨⟨by decide, by
      rintro target length hdemand
      cases hdemand
      decide⟩, fun _ _ => trivial⟩
  have hskip := LinkedBuffer.skip_never_succeeds (2 ^ 32) fun _ _ => 0
  generalize (LinkedBuffer.reserveLoop 0xFFFFFFFF (2 ^ 32)
    (LinkedBuffer.create 4088 fun _ _ => 0)).1 = other at hskip
  have hexec : LinkedBuffer.exec (2 ^ 32) (create 4088 fun _ _ _ => 0).linked 0
      (.skip 0xFFFFFFFE) =
        some (Function.update (create 4088 fun _ _ _ => 0).linked 0 other, ⟨false, [], 0⟩) := by
    unfold LinkedBuffer.exec
    change ((LinkedBuffer.create 4088 fun _ _ => 0).skip (2 ^ 32) 0xFFFFFFFE).bind _ = _
    rw [hskip]
    rfl
  obtain ⟨next, hnext, hfinal⟩ := run_cons_eq_some.mp hrun
  obtain rfl : next = final := Option.some.inj hfinal
  unfold step at hnext
  rw [hexec] at hnext
  obtain rfl : _ = next := Option.some.inj hnext
  have hreply := hsound.replies (⟨false, [], 0⟩, ⟨true, [], some 0⟩) (by simp [create]; rfl)
  exact absurd hreply.result (by decide)

end Libsax.Net
