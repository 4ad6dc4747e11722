import Libsax.Net.LinkedBufferRuns

/-! What `_capacity` and `_usable` of a `linked_buffer` say about its blocks when
the allocator may refuse any of them, and what a call that fails leaves behind. -/
namespace Libsax.Net.Space

open Libsax.Lib Libsax.Lib.Chunks LinkedBuffer

/-- The calls on the data, and the one that only makes space. -/
inductive Request where
  | call (call : Call)
  | reserve (size : UInt32)
deriving DecidableEq

/-- A request to one of the buffers, and the number of blocks that the allocator
grants in the course of it before it refuses one. -/
structure Action where
  index : Nat
  granted : Nat
  request : Request
deriving DecidableEq

/-- The buffers after the last call and before it, and what it returned. -/
structure System where
  bufs : Nat → LinkedBuffer
  previous : Nat → LinkedBuffer
  result : Bool

def answer (bufs : Nat → LinkedBuffer) (action : Action) :
    Option ((Nat → LinkedBuffer) × Bool) :=
  match action.request with
  | .call call => do
    let (bufs, reply) ← LinkedBuffer.exec action.granted bufs action.index call
    return (bufs, reply.result)
  | .reserve size =>
    let (buf, result) := (bufs action.index).reserve action.granted size
    some (Function.update bufs action.index buf, result)

/-- `none` is a null dereference. -/
def step (system : System) (action : Action) : Option System := do
  let (bufs, result) ← answer system.bufs action
  return ⟨bufs, system.bufs, result⟩

def start (blockSize : UInt32) (bytes : Nat → Nat → Nat → UInt8) : System where
  bufs := fun index => LinkedBuffer.create blockSize (bytes index)
  previous := fun index => LinkedBuffer.create blockSize (bytes index)
  result := true

/-- The counters are exact, and a byte is left behind the data. -/
structure Accounted (buf : LinkedBuffer) : Prop where
  capacity : buf.capacity.toNat = buf.bufList.length * buf.blockSize.toNat
  /-- `_zero` is in the first block -/
  zero : buf.zero.block = buf.bufList.head?
  usable : buf.usable.toNat = buf.bufList.length * buf.blockSize.toNat - buf.zero.currBuf
  position : buf.current.position < buf.usable
  limit : buf.limit.invalid = false → buf.limit.position < buf.usable

/-- Only blocks were added behind the others. -/
structure Unchanged (before after : LinkedBuffer) : Prop where
  current : after.current = before.current
  mark : after.mark = before.mark
  limit : after.limit = before.limit
  zero : after.zero = before.zero
  content : ∀ index < before.room,
    cell after.bytes after.bufList after.blockSize.toNat index =
      cell before.bytes before.bufList before.blockSize.toNat index

structure Sound (system : System) : Prop where
  accounted : ∀ index, Accounted (system.bufs index)
  refused : system.result = false →
    ∀ index, Unchanged (system.previous index) (system.bufs index)

/-- The buffer that a call writes to and the bytes it takes up there, if the call
gets as far as that. -/
def writes (bufs : Nat → LinkedBuffer) (index : Nat) : Call → Option (Nat × Nat)
  | .put data => if (bufs index).limit.invalid then some (index, data.length) else none
  | .putInt size _ _ => if (bufs index).limit.invalid then some (index, size) else none
  | .skip length => if (bufs index).limit.invalid then some (index, length.toNat) else none
  | .getBuffer other length => moves index other length
  | .getAll other => moves index other (bufs index).remaining
  | .putBuffer other length => moves other index length
  | .putAll other => moves other index (bufs other).remaining
  | _ => none
where
  moves (source target : Nat) (length : UInt32) : Option (Nat × Nat) :=
    if (bufs source).limit.invalid ||
        (bufs source).limit.position - (bufs source).current.position < length then none
    else if (bufs target).limit.invalid then some (target, length.toNat)
    else none

/-- Positions stay below 2^32 - 1. -/
def Bounded (system : System) (action : Action) : Prop :=
  match action.request with
  | .call call => call.size < 2 ^ 32 - 1 ∧ ∀ target length,
      writes system.bufs action.index call = some (target, length) →
        (system.bufs target).current.position.toNat + length < 2 ^ 32 - 1
  | .reserve _ => True

/-- The blocks that `reserve` adds until there is space for `size` bytes, or until
it is refused one, leave the counters below 2^32. -/
def Holdable (buf : LinkedBuffer) (granted size : Nat) : Prop :=
  ∃ blocks ≤ granted, buf.room + blocks * buf.blockSize.toNat < 2 ^ 32 ∧
    (blocks = granted ∨ size ≤ buf.usable.toNat + blocks * buf.blockSize.toNat)

def NoWrap (system : System) (action : Action) : Prop :=
  match action.request with
  | .call call => ∀ target length,
      writes system.bufs action.index call = some (target, length) →
        Holdable (system.bufs target) action.granted
          ((system.bufs target).current.position.toNat + length + 1)
  | .reserve size => Holdable (system.bufs action.index) action.granted (size + 1).toNat

variable {buf other : LinkedBuffer} {base : Nat} {flat : FlatBuffer}

/-- A buffer that stands for a flat array and whose counters do not wrap. -/
def Standing (buf : LinkedBuffer) : Prop :=
  (∃ base flat, buf.Refines base flat) ∧ buf.room < 2 ^ 32

theorem Standing.accounted (hstanding : Standing buf) : Accounted buf := by
  obtain ⟨⟨base, flat, hrefines⟩, hroom⟩ := hstanding
  have hbase := hrefines.base_lt
  have hcapacity : buf.capacity.toNat = buf.room := by
    rw [hrefines.chain.capacity, UInt32.toNat_ofNat', Nat.mod_eq_of_lt hroom]
  have husable : buf.usable.toNat = buf.room - base := by
    rw [hrefines.chain.usable, UInt32.toNat_ofNat', Nat.mod_eq_of_lt (by omega)]
  have hinside : ∀ pos, buf.At base pos → pos.position < buf.usable := by
    intro pos hat
    have hlt := hat.inside
    rw [UInt32.lt_iff_toNat_lt, husable]
    omega
  have hzero := hrefines.chain.zero
  refine ⟨hcapacity, ?_, ?_, hinside _ hrefines.current, fun hvalid => ?_⟩
  · rw [hzero]
  · rw [husable, hzero]
    rfl
  · rcases hrefines.limit with ⟨hinvalid, -⟩ | ⟨hat, -⟩
    · rw [hinvalid] at hvalid
      cases hvalid
    · exact hinside _ hat

theorem Unchanged.refl (buf : LinkedBuffer) : Unchanged buf buf :=
  ⟨rfl, rfl, rfl, rfl, fun _ _ => rfl⟩

private theorem unchanged_of_grown (hsize : 0 < buf.blockSize.toNat) (hgrown : Grown buf other) :
    Unchanged buf other := by
  obtain ⟨more, nodes, capacity, usable, rfl⟩ := hgrown
  refine ⟨rfl, rfl, rfl, rfl, fun index hindex => ?_⟩
  obtain ⟨block, -, haddress⟩ := address_isSome hsize hindex
  have hcell : cell buf.bytes buf.bufList buf.blockSize.toNat index =
      some (buf.bytes block (index % buf.blockSize.toNat)) := by
    rw [cell, haddress]
    rfl
  rw [hcell]
  exact cell_append hcell

/-- However often the allocator is asked, the chain only grows; and it grows no
further than the counters can tell if that is all it takes. -/
private theorem reserveLoop_accounts {size : UInt32} {granted : Nat} (hchain : buf.Chain base)
    (hroom : base < buf.room) :
    ∃ other ok, reserveLoop size granted buf = (other, ok) ∧ Grown buf other ∧
      other.Chain base ∧ (ok = true → size ≤ other.usable) ∧
      (Holdable buf granted size.toNat → other.room < 2 ^ 32) := by
  induction granted generalizing buf with
  | zero =>
    refine ⟨buf, _, rfl, .refl buf, hchain, fun hok => ?_, ?_⟩
    · exact UInt32.not_lt.mp (by simpa using hok)
    · rintro ⟨blocks, -, hfits, -⟩
      omega
  | succ granted ih =>
    rw [reserveLoop]
    by_cases hlt : buf.usable < size
    · rw [if_pos hlt]
      obtain ⟨other, ok, hloop, hgrown, hchain', husable, hholds⟩ := ih
        (hchain.pushBack hroom) (Nat.lt_of_lt_of_le hroom (Grown.pushBack buf).room_le)
      refine ⟨other, ok, hloop, (Grown.pushBack buf).trans hgrown, hchain', husable, ?_⟩
      rintro ⟨blocks, hblocks, hfits, hstop⟩
      have husableNat : buf.usable.toNat = buf.room - base := by
        rw [hchain.usable, UInt32.toNat_ofNat', Nat.mod_eq_of_lt (by omega)]
      have hless := UInt32.lt_iff_toNat_lt.mp hlt
      cases blocks with
      | zero => omega
      | succ blocks =>
        have hmul : (blocks + 1) * buf.blockSize.toNat =
            blocks * buf.blockSize.toNat + buf.blockSize.toNat := Nat.succ_mul _ _
        have hpushed := buf.room_pushBack
        have hpushedUsable : buf.pushBack.usable.toNat =
            buf.usable.toNat + buf.blockSize.toNat := by
          change (buf.usable + buf.blockSize).toNat = _
          rw [UInt32.toNat_add, Nat.mod_eq_of_lt (by omega)]
        refine hholds ⟨blocks, by omega, ?_, ?_⟩
        · rw [hpushed]
          change buf.room + buf.blockSize.toNat + blocks * buf.blockSize.toNat < _
          omega
        · rw [hpushedUsable]
          change blocks = granted ∨
            _ ≤ buf.usable.toNat + buf.blockSize.toNat + blocks * buf.blockSize.toNat
          omega
    · rw [if_neg hlt]
      refine ⟨buf, true, rfl, .refl buf, hchain, fun _ => UInt32.not_lt.mp hlt, ?_⟩
      rintro ⟨blocks, -, hfits, -⟩
      omega

theorem ensure_accounts (hrefines : buf.Refines base flat) (granted : Nat) (length : UInt32) :
    ∃ grown ok, buf.ensure granted length = (grown, ok) ∧ Grown buf grown ∧
      grown.Refines base flat ∧
      (ok = true → grown.current.position + length + 1 ≤ grown.usable) ∧
      (buf.room < 2 ^ 32 → Holdable buf granted (buf.current.position + length + 1).toNat →
        grown.room < 2 ^ 32) := by
  unfold LinkedBuffer.ensure LinkedBuffer.reserve
  by_cases hlt : buf.usable < buf.current.position + length + 1
  · rw [if_pos hlt]
    obtain ⟨other, ok, hloop, hgrown, hchain, husable, hholds⟩ :=
      reserveLoop_accounts hrefines.chain hrefines.base_lt
    have hcurrent : other.current = buf.current := hgrown.current_eq
    exact ⟨other, ok, hloop, hgrown, hgrown.refines hrefines hchain, hcurrent ▸ husable,
      fun _ => hholds⟩
  · rw [if_neg hlt]
    exact ⟨buf, true, rfl, .refl buf, hrefines, fun _ => UInt32.not_lt.mp hlt, fun hroom _ => hroom⟩

/-- What a call makes of one of the buffers involved. -/
structure Fair (before after : LinkedBuffer) (result : Bool) : Prop where
  standing : Standing after
  refused : result = false → Unchanged before after

/-- The same, whether or not the counters wrap: they do not if `holdable`. -/
structure Kept (before after : LinkedBuffer) (result : Bool) (holdable : Prop) : Prop where
  refines : ∃ base flat, after.Refines base flat
  refused : result = false → Unchanged before after
  room : before.room < 2 ^ 32 → holdable → after.room < 2 ^ 32

variable {holdable : Prop}

theorem Kept.fair {result : Bool} (hkept : Kept buf other result holdable)
    (hroom : buf.room < 2 ^ 32) (hholdable : holdable) : Fair buf other result :=
  ⟨⟨hkept.refines, hkept.room hroom hholdable⟩, hkept.refused⟩

theorem Kept.refl (hrefines : buf.Refines base flat) (result : Bool) :
    Kept buf buf result holdable :=
  ⟨⟨base, flat, hrefines⟩, fun _ => .refl buf, fun hroom _ => hroom⟩

theorem Kept.of_refines {after : LinkedBuffer} (hrefines : after.Refines base flat)
    (hroom : after.room ≤ buf.room) {result : Bool} (hrefused : result = false → after = buf) :
    Kept buf after result holdable :=
  ⟨⟨base, flat, hrefines⟩, fun hfalse => hrefused hfalse ▸ .refl after,
    fun hbefore _ => Nat.lt_of_le_of_lt hroom hbefore⟩

theorem Kept.of_success {after : LinkedBuffer} (hrefines : after.Refines base flat)
    (hroom : after.room ≤ buf.room) : Kept buf after true holdable :=
  .of_refines hrefines hroom fun h => absurd h (by simp)

private theorem kept_of_grown (hrefines : buf.Refines base flat) {grown : LinkedBuffer}
    (hgrown : Grown buf grown) (hgrownRefines : grown.Refines base flat)
    (hroom : buf.room < 2 ^ 32 → holdable → grown.room < 2 ^ 32) (result : Bool) :
    Kept buf grown result holdable :=
  ⟨⟨base, flat, hgrownRefines⟩, fun _ => unchanged_of_grown hrefines.chain.size hgrown, hroom⟩

theorem invalid_eq (hrefines : buf.Refines base flat) :
    buf.limit.invalid = true ↔ flat.limit = none := by
  rw [hrefines.limit.invalid]
  exact Option.isNone_iff_eq_none

/-- What a write of `length` bytes needs to know beforehand. -/
structure Ready (buf : LinkedBuffer) (granted length : Nat) : Prop where
  bounded : buf.current.position.toNat + length < 2 ^ 32 - 1
  holdable : Holdable buf granted (buf.current.position.toNat + length + 1)

private theorem kept_put (hrefines : buf.Refines base flat) (granted : Nat) (data : List UInt8)
    (hbounded : buf.limit.invalid = true →
      buf.current.position.toNat + data.length < 2 ^ 32 - 1) :
    ∃ other result, buf.put granted data = some (other, result) ∧
      Kept buf other result (buf.limit.invalid = true →
        Holdable buf granted (buf.current.position.toNat + data.length + 1)) := by
  cases hinvalid : buf.limit.invalid with
  | false =>
    refine ⟨buf, false, ?_, .refl hrefines false⟩
    simp [LinkedBuffer.put, hinvalid]
  | true =>
    have hbounded := hbounded hinvalid
    have hlength : (UInt32.ofNat data.length).toNat = data.length := by
      rw [UInt32.toNat_ofNat', Nat.mod_eq_of_lt (by omega)]
    have hsum := toNat_sum buf.current.position (UInt32.ofNat data.length) (by omega)
    obtain ⟨grown, ok, hensure, hgrown, hgrownRefines, husable, hholds⟩ :=
      ensure_accounts hrefines granted (UInt32.ofNat data.length)
    rw [hsum, hlength] at hholds
    have hroom : buf.room < 2 ^ 32 → (true = true →
        Holdable buf granted (buf.current.position.toNat + data.length + 1)) →
        grown.room < 2 ^ 32 := fun hbefore hholdable => hholds hbefore (hholdable rfl)
    cases ok with
    | false =>
      refine ⟨grown, false, ?_, kept_of_grown hrefines hgrown hgrownRefines hroom false⟩
      simp [LinkedBuffer.put, hinvalid, hensure]
    | true =>
      have hcurrent : grown.current = buf.current := hgrown.current_eq
      obtain ⟨pos, bytes, hput, -, hfinal⟩ := hgrownRefines.putUsable
        ((invalid_eq hrefines).mp hinvalid) (agree_some data) (hcurrent ▸ hbounded) (husable rfl)
      refine ⟨_, true, ?_, ⟨_, _, hfinal⟩, fun h => absurd h (by simp), hroom⟩
      rw [put_of_ensure hinvalid hgrown hensure (husable rfl)]
      exact hput granted

private theorem kept_skip (hrefines : buf.Refines base flat) (granted : Nat) (length : UInt32)
    (hbounded : buf.limit.invalid = true →
      buf.current.position.toNat + length.toNat < 2 ^ 32 - 1) :
    ∃ other result, buf.skip granted length = some (other, result) ∧
      Kept buf other result (buf.limit.invalid = true →
        Holdable buf granted (buf.current.position.toNat + length.toNat + 1)) := by
  cases hlimit : flat.limit with
  | some limit =>
    obtain ⟨pos, mark, hskip, hmoved, hrefused⟩ := hrefines.skipReading hlimit length
    refine ⟨_, _, hskip granted, .of_refines hmoved (Nat.le_refl buf.room) fun hfalse => ?_⟩
    obtain ⟨rfl, rfl⟩ := hrefused hfalse
    rfl
  | none =>
    have hinvalid := (invalid_eq hrefines).mpr hlimit
    have hbounded := hbounded hinvalid
    have hsum := toNat_sum buf.current.position length (by omega)
    obtain ⟨grown, ok, hensure, hgrown, hgrownRefines, husable, hholds⟩ :=
      ensure_accounts hrefines granted length
    rw [hsum] at hholds
    have hroom : buf.room < 2 ^ 32 → (buf.limit.invalid = true →
        Holdable buf granted (buf.current.position.toNat + length.toNat + 1)) →
        grown.room < 2 ^ 32 := fun hbefore hholdable => hholds hbefore (hholdable hinvalid)
    cases ok with
    | false =>
      refine ⟨grown, false, ?_, kept_of_grown hrefines hgrown hgrownRefines hroom false⟩
      simp [LinkedBuffer.skip, hinvalid, hensure]
    | true =>
      obtain ⟨pos, hskip, hmoved⟩ :=
        hrefines.skipUsable hlimit hbounded hensure hgrown hgrownRefines (husable rfl)
      exact ⟨_, true, hskip, ⟨_, _, hmoved⟩, fun h => absurd h (by simp), hroom⟩

private theorem kept_get (hrefines : buf.Refines base flat) (length : UInt32) :
    ∃ other bytes, buf.get length = some (other, bytes) ∧
      Kept buf other bytes.isSome holdable := by
  rcases hrefines.get length with ⟨-, hget⟩ | ⟨pos, bytes, -, hget, -, hmoved⟩
  · exact ⟨buf, none, hget, .refl hrefines _⟩
  · exact ⟨_, some bytes, hget, .of_success hmoved (Nat.le_refl _)⟩

private theorem kept_getInt (hrefines : buf.Refines base flat) {size : Nat} (hsize : size < 2 ^ 32)
    (bigendian : Bool) :
    ∃ other number, buf.getInt size bigendian = some (other, number) ∧
      Kept buf other number.isSome holdable := by
  rcases hrefines.getInt hsize bigendian with ⟨-, hget⟩ | ⟨pos, number, -, hget, -, hmoved⟩
  · exact ⟨buf, none, hget, .refl hrefines _⟩
  · exact ⟨_, some number, hget, .of_success hmoved (Nat.le_refl _)⟩

theorem peekInt_same (hrefines : buf.Refines base flat) {size : Nat} (hsize : size < 2 ^ 32)
    (bigendian : Bool) :
    ∃ number, buf.peekInt size bigendian = some (buf, number) := by
  rcases hrefines.peekInt hsize bigendian with ⟨-, hget⟩ | ⟨number, -, hget, -⟩
  · exact ⟨none, hget⟩
  · exact ⟨some number, hget⟩

private theorem kept_reset (hrefines : buf.Refines base flat) :
    Kept buf buf.reset.1 buf.reset.2 holdable := by
  obtain ⟨-, hmoved⟩ := hrefines.reset
  unfold LinkedBuffer.reset at hmoved ⊢
  split_ifs at hmoved ⊢ with hinvalid
  · exact .of_refines hmoved (Nat.le_refl _) fun _ => rfl
  · exact .of_success hmoved (Nat.le_refl _)

private theorem kept_flip (hrefines : buf.Refines base flat) :
    Kept buf buf.flip.1 buf.flip.2 holdable := by
  obtain ⟨-, hmoved⟩ := hrefines.flip
  unfold LinkedBuffer.flip at hmoved ⊢
  split_ifs at hmoved ⊢ with hinvalid
  · exact .of_refines hmoved (Nat.le_refl _) fun _ => rfl
  · exact .of_success hmoved (Nat.le_refl _)

private theorem popUntil_length {block : Option Nat} {blockSize : UInt32} {blocks rest : List Nat}
    {capacity left : UInt32} (hpop : popUntil block blockSize blocks capacity = some (rest, left)) :
    rest.length ≤ blocks.length := by
  induction blocks generalizing capacity with
  | nil => exact absurd hpop (by simp [popUntil])
  | cons head blocks ih =>
    unfold popUntil at hpop
    split_ifs at hpop
    · cases hpop
      exact Nat.le_refl _
    · exact Nat.le_succ_of_le (ih hpop)

private theorem kept_compact (hrefines : buf.Refines base flat) :
    ∃ other result, buf.compact = some (other, result) ∧ Kept buf other result holdable := by
  obtain ⟨other, start, hcompact, hmoved⟩ := hrefines.compact
  refine ⟨other, _, hcompact, ?_⟩
  unfold LinkedBuffer.compact at hcompact
  split_ifs at hcompact with hinvalid
  · obtain ⟨rfl, hresult⟩ := Prod.mk.inj (Option.some.inj hcompact)
    rw [← hresult]
    exact .refl hrefines false
  · simp only [Option.bind_eq_bind, Option.bind_eq_some_iff] at hcompact
    obtain ⟨⟨blocks, capacity⟩, hpop, hresult⟩ := hcompact
    obtain ⟨rfl, hflag⟩ := Prod.mk.inj (Option.some.inj hresult)
    rw [← hflag]
    exact .of_success hmoved (Nat.mul_le_mul_right _ (popUntil_length hpop))

private theorem kept_clear (hrefines : buf.Refines base flat) :
    Kept buf buf.clear true holdable := by
  refine .of_success hrefines.clear (Nat.mul_le_mul_right _ ?_)
  change (if buf.bufList.length > 1 then buf.bufList.take 1 else buf.bufList).length ≤ _
  split_ifs
  · exact List.length_take_le' _ _
  · exact Nat.le_refl _

theorem kept_reserve (hrefines : buf.Refines base flat) (granted : Nat) (size : UInt32) :
    Kept buf (buf.reserve granted size).1 (buf.reserve granted size).2
      (Holdable buf granted (size + 1).toNat) := by
  obtain ⟨other, ok, hloop, hgrown, hchain, -, hholds⟩ :=
    reserveLoop_accounts hrefines.chain hrefines.base_lt
  unfold LinkedBuffer.reserve
  rw [hloop]
  exact kept_of_grown hrefines hgrown (hgrown.refines hrefines hchain) (fun _ => hholds) ok

private theorem kept_getBuffer {target : LinkedBuffer} {start : Nat} {flatTarget : FlatBuffer}
    (hrefines : buf.Refines base flat) (htarget : target.Refines start flatTarget)
    (granted : Nat) (length : UInt32)
    (hbounded : (buf.limit.invalid ||
        decide (buf.limit.position - buf.current.position < length)) = false →
      target.limit.invalid = true → target.current.position.toNat + length.toNat < 2 ^ 32 - 1) :
    ∃ other into result, buf.getBuffer target granted length = some (other, into, result) ∧
      Kept buf other result holdable ∧
      Kept target into result ((buf.limit.invalid ||
          decide (buf.limit.position - buf.current.position < length)) = false →
        target.limit.invalid = true →
        Holdable target granted (target.current.position.toNat + length.toNat + 1)) := by
  by_cases hmoves : flat.Readable length.toNat ∧ flatTarget.limit = none
  · obtain ⟨hread, hlimit⟩ := hmoves
    have hcheck := (hrefines.readable_iff length).mpr hread
    have hopen := (invalid_eq htarget).mpr hlimit
    have hbounded := hbounded hcheck hopen
    have hsum := toNat_sum target.current.position length (by omega)
    obtain ⟨grown, ok, hensure, hgrown, hgrownRefines, husable, hholds⟩ :=
      ensure_accounts htarget granted length
    rw [hsum] at hholds
    have hroom : target.room < 2 ^ 32 → ((buf.limit.invalid ||
          decide (buf.limit.position - buf.current.position < length)) = false →
        target.limit.invalid = true →
        Holdable target granted (target.current.position.toNat + length.toNat + 1)) →
        grown.room < 2 ^ 32 :=
      fun hbefore hholdable => hholds hbefore (hholdable hcheck hopen)
    cases ok with
    | false =>
      refine ⟨buf, grown, false, ?_, .refl hrefines false,
        kept_of_grown htarget hgrown hgrownRefines hroom false⟩
      simp [LinkedBuffer.getBuffer, hcheck, hopen, hensure]
    | true =>
      obtain ⟨pos, into, bytes, hget, hmoved, hfinal⟩ := hrefines.getBufferUsable htarget
        hread hlimit hbounded hensure hgrown hgrownRefines (husable rfl)
      exact ⟨_, _, true, hget, .of_success hmoved (Nat.le_refl _), ⟨_, _, hfinal⟩,
        fun h => absurd h (by simp), hroom⟩
  · exact ⟨buf, target, false, hrefines.getBufferRefused htarget hmoves granted,
      .refl hrefines false, .refl htarget false⟩

variable {bufs : Nat → LinkedBuffer}

theorem kept_update (hall : ∀ index, ∃ base flat, (bufs index).Refines base flat) {index : Nat}
    {after : LinkedBuffer} {result : Bool} (hkept : Kept (bufs index) after result holdable)
    (number : Nat) :
    Kept (bufs number) (Function.update bufs index after number) result holdable := by
  by_cases heq : number = index
  · subst heq
    rw [Function.update_self]
    exact hkept
  · obtain ⟨base, flat, hrefines⟩ := hall number
    rw [Function.update_of_ne heq]
    exact .refl hrefines result

theorem fair_update (hall : ∀ index, Standing (bufs index)) {index : Nat} {after : LinkedBuffer}
    {result : Bool} (hfair : Fair (bufs index) after result) (number : Nat) :
    Fair (bufs number) (Function.update bufs index after number) result := by
  by_cases heq : number = index
  · subst heq
    rw [Function.update_self]
    exact hfair
  · rw [Function.update_of_ne heq]
    exact ⟨hall number, fun _ => .refl _⟩

theorem fair_reserve (hstanding : Standing buf) {granted : Nat} {size : UInt32}
    (hholdable : Holdable buf granted (size + 1).toNat) :
    Fair buf (buf.reserve granted size).1 (buf.reserve granted size).2 := by
  obtain ⟨⟨base, flat, hrefines⟩, hroom⟩ := hstanding
  exact (kept_reserve hrefines granted size).fair hroom hholdable

theorem Kept.imp {weaker : Prop} {result : Bool} (hkept : Kept buf other result weaker)
    (himp : holdable → weaker) : Kept buf other result holdable :=
  ⟨hkept.refines, hkept.refused, fun hroom h => hkept.room hroom (himp h)⟩

/-- The room that the calls of the other parties may take up. -/
def Granted (bufs : Nat → LinkedBuffer) (granted : Nat) (demand : Option (Nat × Nat)) : Prop :=
  ∀ target length, demand = some (target, length) →
    Holdable (bufs target) granted ((bufs target).current.position.toNat + length + 1)

private theorem kept_transfer (hall : ∀ index, ∃ base flat, (bufs index).Refines base flat)
    {source target : Nat} (granted : Nat) {length : UInt32}
    (hbounded : ∀ count, writes.moves bufs source target length = some (target, count) →
      (bufs target).current.position.toNat + count < 2 ^ 32 - 1) :
    ∃ other into result,
      (bufs source).getBuffer (bufs target) granted length = some (other, into, result) ∧
      ∀ number, Kept (bufs number)
        (Function.update (Function.update bufs source other) target into number) result
        (Granted bufs granted (writes.moves bufs source target length)) := by
  have hmoves : ((bufs source).limit.invalid || decide ((bufs source).limit.position -
        (bufs source).current.position < length)) = false → (bufs target).limit.invalid = true →
      writes.moves bufs source target length = some (target, length.toNat) := by
    intro hcheck hopen
    unfold writes.moves
    simp only [hcheck, hopen, Bool.false_eq_true, if_false, if_true]
  obtain ⟨base, flat, hrefines⟩ := hall source
  obtain ⟨start, flatTarget, htarget⟩ := hall target
  obtain ⟨other, into, result, hget, hother, hinto⟩ := kept_getBuffer hrefines htarget
    granted length fun hcheck hopen => hbounded length.toNat (hmoves hcheck hopen)
  refine ⟨other, into, result, hget, fun number => ?_⟩
  by_cases heq : number = target
  · subst heq
    rw [Function.update_self]
    exact hinto.imp fun hgranted hcheck hopen => hgranted _ _ (hmoves hcheck hopen)
  · rw [Function.update_of_ne heq]
    exact kept_update hall hother number

theorem kept_exec (hall : ∀ index, ∃ base flat, (bufs index).Refines base flat)
    {index : Nat} (granted : Nat) {call : Call} (hsize : call.size < 2 ^ 32 - 1)
    (hbounded : ∀ target length, writes bufs index call = some (target, length) →
      (bufs target).current.position.toNat + length < 2 ^ 32 - 1) :
    ∃ after reply, LinkedBuffer.exec granted bufs index call = some (after, reply) ∧
      ∀ number, Kept (bufs number) (after number) reply.result
        (Granted bufs granted (writes bufs index call)) := by
  obtain ⟨base, flat, hrefines⟩ := hall index
  unfold LinkedBuffer.exec
  cases call with
  | put data =>
    obtain ⟨other, result, hput, hkept⟩ := kept_put hrefines granted data
      fun hinvalid => hbounded index data.length (if_pos hinvalid)
    simp only [hput]
    exact ⟨_, _, rfl, kept_update hall
      (hkept.imp fun hgranted hinvalid => hgranted _ _ (if_pos hinvalid))⟩
  | putInt size number bigendian =>
    have hlength : (FlatBuffer.wire size number bigendian).length = size := by
      cases bigendian <;> simp [FlatBuffer.wire]
    obtain ⟨other, result, hput, hkept⟩ := kept_put hrefines granted
      (FlatBuffer.wire size number bigendian) fun hinvalid => by
        rw [hlength]
        exact hbounded index size (if_pos hinvalid)
    rw [hlength] at hkept
    simp only [LinkedBuffer.putInt_eq, hput]
    exact ⟨_, _, rfl, kept_update hall
      (hkept.imp fun hgranted hinvalid => hgranted _ _ (if_pos hinvalid))⟩
  | get length =>
    obtain ⟨other, bytes, hget, hkept⟩ := kept_get hrefines length
    simp only [hget]
    exact ⟨_, _, rfl, kept_update hall hkept⟩
  | getInt size bigendian =>
    have hsize : size < 2 ^ 32 := Nat.lt_of_lt_of_le hsize (by decide)
    obtain ⟨other, number, hget, hkept⟩ := kept_getInt hrefines hsize bigendian
    simp only [hget]
    exact ⟨_, _, rfl, kept_update hall hkept⟩
  | peekInt size bigendian =>
    have hsize : size < 2 ^ 32 := Nat.lt_of_lt_of_le hsize (by decide)
    obtain ⟨number, hget⟩ := peekInt_same hrefines hsize bigendian
    simp only [hget]
    exact ⟨_, _, rfl, kept_update hall (.refl hrefines _)⟩
  | skip length =>
    obtain ⟨other, result, hskip, hkept⟩ := kept_skip hrefines granted length
      fun hinvalid => hbounded index length.toNat (if_pos hinvalid)
    simp only [hskip]
    exact ⟨_, _, rfl, kept_update hall
      (hkept.imp fun hgranted hinvalid => hgranted _ _ (if_pos hinvalid))⟩
  | mark => exact ⟨_, _, rfl, kept_update hall (.of_success hrefines.setMark (Nat.le_refl _))⟩
  | reset => exact ⟨_, _, rfl, kept_update hall (kept_reset hrefines)⟩
  | rewind => exact ⟨_, _, rfl, kept_update hall (.of_success hrefines.rewind (Nat.le_refl _))⟩
  | flip => exact ⟨_, _, rfl, kept_update hall (kept_flip hrefines)⟩
  | compact =>
    obtain ⟨other, result, hcompact, hkept⟩ := kept_compact hrefines
    simp only [hcompact]
    exact ⟨_, _, rfl, kept_update hall hkept⟩
  | clear => exact ⟨_, _, rfl, kept_update hall (kept_clear hrefines)⟩
  | getBuffer other length =>
    obtain ⟨buf, into, result, hget, hkept⟩ := kept_transfer hall granted (hbounded other)
    simp only [hget]
    exact ⟨_, _, rfl, hkept⟩
  | getAll other =>
    obtain ⟨buf, into, result, hget, hkept⟩ := kept_transfer hall granted (hbounded other)
    simp only [hget]
    exact ⟨_, _, rfl, hkept⟩
  | putBuffer other length =>
    obtain ⟨buf, into, result, hget, hkept⟩ := kept_transfer hall granted (hbounded index)
    simp only [hget]
    exact ⟨_, _, rfl, hkept⟩
  | putAll other =>
    obtain ⟨buf, into, result, hget, hkept⟩ := kept_transfer hall granted (hbounded index)
    simp only [hget]
    exact ⟨_, _, rfl, hkept⟩

theorem fair_exec (hall : ∀ index, Standing (bufs index)) {index granted : Nat} {call : Call}
    (hsize : call.size < 2 ^ 32 - 1)
    (hready : ∀ target length, writes bufs index call = some (target, length) →
      Ready (bufs target) granted length) :
    ∃ after reply, LinkedBuffer.exec granted bufs index call = some (after, reply) ∧
      ∀ number, Fair (bufs number) (after number) reply.result := by
  obtain ⟨after, reply, hexec, hkept⟩ := kept_exec (fun number => (hall number).1) granted hsize
    fun target length hwrites => (hready target length hwrites).bounded
  exact ⟨after, reply, hexec, fun number => (hkept number).fair (hall number).2
    fun target length hwrites => (hready target length hwrites).holdable⟩

structure Inv (system : System) : Prop where
  standing : ∀ index, Standing (system.bufs index)
  refused : system.result = false →
    ∀ index, Unchanged (system.previous index) (system.bufs index)

theorem Inv.sound {system : System} (hinv : Inv system) : Sound system :=
  ⟨fun index => (hinv.standing index).accounted, hinv.refused⟩

theorem start_inv (blockSize : UInt32) (hsize : 1 ≤ blockSize)
    (bytes : Nat → Nat → Nat → UInt8) : Inv (start blockSize bytes) := by
  have hpos : 0 < blockSize.toNat := UInt32.le_iff_toNat_le.mp hsize
  refine ⟨fun index => ⟨⟨0, .create, create_refines hpos (bytes index)⟩, ?_⟩,
    fun h => absurd h (by simp [start])⟩
  change [0].length * blockSize.toNat < 2 ^ 32
  rw [List.length_singleton, Nat.one_mul]
  exact blockSize.toNat_lt

theorem Inv.step {system : System} {action : Action}
    (hallowed : Bounded system action ∧ NoWrap system action) (hinv : Inv system) :
    ∃ next, Space.step system action = some next ∧ Inv next := by
  obtain ⟨hbounded, hnowrap⟩ := hallowed
  have hanswer : ∃ after result, answer system.bufs action = some (after, result) ∧
      ∀ number, Fair (system.bufs number) (after number) result := by
    unfold answer
    unfold Bounded at hbounded
    unfold NoWrap at hnowrap
    cases hrequest : action.request with
    | call call =>
      rw [hrequest] at hbounded hnowrap
      obtain ⟨after, reply, hexec, hfair⟩ := fair_exec hinv.standing hbounded.1
        fun target length hwrites =>
          ⟨hbounded.2 target length hwrites, hnowrap target length hwrites⟩
      simp only [hexec]
      exact ⟨_, _, rfl, hfair⟩
    | reserve size =>
      rw [hrequest] at hnowrap
      exact ⟨_, _, rfl, fair_update hinv.standing
        (fair_reserve (hinv.standing action.index) hnowrap)⟩
  obtain ⟨after, result, hafter, hfair⟩ := hanswer
  refine ⟨⟨after, system.bufs, result⟩, ?_, fun index => (hfair index).standing,
    fun hfalse index => (hfair index).refused hfalse⟩
  simp only [Space.step, hafter, Option.bind_eq_bind, Option.bind_some]
  rfl

/-- However the allocator behaves, the counters are exact, no loop runs off the
chain and a call that fails changes nothing, as long as the 32-bit counters can
hold the space that `reserve` makes. -/
theorem linked_buffer_accounts (blockSize : UInt32) (hsize : 1 ≤ blockSize)
    (bytes : Nat → Nat → Nat → UInt8) (actions : List Action)
    (hactions : Along step (fun system action => Bounded system action ∧ NoWrap system action)
      (start blockSize bytes) actions) :
    ∃ final, run step (start blockSize bytes) actions = some final ∧ Sound final := by
  obtain ⟨final, hrun, hinv⟩ := run_along (fun _ _ hallowed hinv => Inv.step hallowed hinv)
    hactions (start_inv blockSize hsize bytes)
  exact ⟨final, hrun, hinv.sound⟩

/-- Five bytes in blocks of four: refused, then granted one block more. -/
theorem linked_buffer_accounts_five : ∃ final,
    run step (start 4 fun _ _ _ => 0) [⟨0, 0, .call (.put [1, 2, 3, 4, 5])⟩,
        ⟨0, 1, .call (.put [1, 2, 3, 4, 5])⟩, ⟨0, 1, .reserve 20⟩] = some final ∧
      final.result = false ∧ (final.bufs 0).capacity = 12 ∧
      (final.bufs 0).current.position = 5 ∧ Sound final := by
  have hactions : Along step (fun system action => Bounded system action ∧ NoWrap system action)
      (start 4 fun _ _ _ => 0) [⟨0, 0, .call (.put [1, 2, 3, 4, 5])⟩,
        ⟨0, 1, .call (.put [1, 2, 3, 4, 5])⟩, ⟨0, 1, .reserve 20⟩] := by
    refine ⟨⟨⟨by decide, ?_⟩, ?_⟩, fun next hnext => ?_⟩
    · rintro target length hwrites
      cases hwrites
      decide
    · rintro target length hwrites
      cases hwrites
      exact ⟨0, by decide, by decide, .inl rfl⟩
    · obtain rfl : _ = next := Option.some.inj hnext
      refine ⟨⟨⟨by decide, ?_⟩, ?_⟩, fun next hnext => ?_⟩
      · rintro target length hwrites
        cases hwrites
        decide
      · rintro target length hwrites
        cases hwrites
        exact ⟨1, by decide, by decide, .inl rfl⟩
      · obtain rfl : _ = next := Option.some.inj hnext
        exact ⟨⟨trivial, 1, by decide, by decide, .inl rfl⟩, fun _ _ => trivial⟩
  obtain ⟨final, hrun, hsound⟩ :=
    linked_buffer_accounts 4 (by decide) (fun _ _ _ => 0) _ hactions
  refine ⟨final, hrun, ?_⟩
  obtain rfl : _ = final := Option.some.inj hrun
  exact ⟨rfl, rfl, rfl, hsound⟩

private theorem reserveLoop_refused {size : UInt32} {granted : Nat} {buf : LinkedBuffer}
    (hrefused : (reserveLoop size granted buf).2 = false) :
    (reserveLoop size granted buf).1.room = buf.room + granted * buf.blockSize.toNat := by
  induction granted generalizing buf with
  | zero =>
    rw [Nat.zero_mul]
    rfl
  | succ granted ih =>
    rw [reserveLoop] at hrefused ⊢
    split_ifs at hrefused ⊢
    rw [ih hrefused, room_pushBack, Nat.succ_mul, Nat.add_assoc, Nat.add_comm (buf.blockSize.toNat)]
    rfl

private theorem capacity_wrapped {granted : Nat} (hgranted : 2 ^ 32 ≤ (granted + 1) * 4088)
    {final : System} (hfinal : step (start 4088 fun _ _ _ => 0)
      ⟨0, granted, .call (.skip 0xFFFFFFFE)⟩ = some final) : ¬Accounted (final.bufs 0) := by
  have hskip := skip_never_succeeds granted fun _ _ => 0
  have hroom := reserveLoop_refused (reserveLoop_never_ends granted
    (by decide : (LinkedBuffer.create 4088 fun _ _ => 0).blockSize.toNat % 8 = 0) (by decide))
  have hcreated : (LinkedBuffer.create 4088 fun _ _ => 0).room +
      granted * (LinkedBuffer.create 4088 fun _ _ => 0).blockSize.toNat =
        (granted + 1) * 4088 := by
    change 4088 + granted * 4088 = _
    omega
  rw [hcreated] at hroom
  generalize (reserveLoop 0xFFFFFFFF granted (LinkedBuffer.create 4088 fun _ _ => 0)).1 = other
    at hskip hroom
  have hanswer : answer (start 4088 fun _ _ _ => 0).bufs ⟨0, granted, .call (.skip 0xFFFFFFFE)⟩ =
      some (Function.update (start 4088 fun _ _ _ => 0).bufs 0 other, false) := by
    have hfresh : (start 4088 fun _ _ _ => 0).bufs 0 = LinkedBuffer.create 4088 fun _ _ => 0 := rfl
    unfold answer LinkedBuffer.exec
    simp only [hfresh, hskip]
    rfl
  unfold step at hfinal
  rw [hanswer] at hfinal
  obtain rfl : _ = final := Option.some.inj hfinal
  intro haccounted
  have hcapacity : other.capacity.toNat = other.room := haccounted.capacity
  have hlt := other.capacity.toNat_lt
  omega

/-- Pages of 4096 bytes give blocks of 4088, of which 1050629 have more than 2^32
bytes: refused the block after that, `skip` leaves a capacity of 4056. -/
theorem capacity_wraps :
    ¬ ∀ (blockSize : UInt32) (bytes : Nat → Nat → Nat → UInt8) (actions : List Action),
      1 ≤ blockSize → Along step Bounded (start blockSize bytes) actions →
      ∃ final, run step (start blockSize bytes) actions = some final ∧ Sound final := by
  intro hall
  obtain ⟨final, hrun, hsound⟩ := hall 4088 (fun _ _ _ => 0)
    [⟨0, 1050628, .call (.skip 0xFFFFFFFE)⟩] (by decide) ⟨⟨by decide, by
      rintro target length hwrites
      cases hwrites
      decide⟩, fun _ _ => trivial⟩
  obtain ⟨next, hnext, hfinal⟩ := run_cons_eq_some.mp hrun
  obtain rfl : next = final := Option.some.inj hfinal
  exact capacity_wrapped (by decide) hnext (hsound.accounted 0)

end Libsax.Net.Space
