import Libsax.Net.LinkedBufferLayout

/-! Every operation of `linked_buffer` does to the chain what the operation of
the same name does to the flat array. -/
namespace Libsax.Net

open Libsax.Lib Libsax.Lib.Chunks

/-- Bytes that were read against what the flat array knows of them. -/
def Agree (bytes : List UInt8) (cells : List (Option UInt8)) : Prop :=
  List.Forall₂ (fun byte cell => ∀ value, cell = some value → byte = value) bytes cells

theorem Agree.length {bytes : List UInt8} {cells : List (Option UInt8)} (hagree : Agree bytes cells) :
    bytes.length = cells.length := List.Forall₂.length_eq hagree

theorem agree_some (data : List UInt8) : Agree data (data.map some) := by
  unfold Agree
  rw [List.forall₂_map_right_iff, List.forall₂_same]
  intro byte _ value hvalue
  exact Option.some.inj hvalue

theorem agree_iff {bytes : List UInt8} {cells : List (Option UInt8)} :
    Agree bytes cells ↔ bytes.length = cells.length ∧
      ∀ (index : Nat) (value : UInt8), cells[index]? = some (some value) →
        bytes[index]? = some value := by
  unfold Agree
  rw [List.forall₂_iff_get]
  refine and_congr_right fun hlength => ⟨fun h index value hvalue => ?_, ?_⟩
  · obtain ⟨hlt, hget⟩ := List.getElem?_eq_some_iff.mp hvalue
    have hlt' : index < bytes.length := by omega
    rw [List.getElem?_eq_getElem hlt']
    exact congrArg some (h index hlt' hlt value hget)
  · intro h index hl hr value hvalue
    have hsome : cells[index]? = some (some value) := by
      rw [List.getElem?_eq_getElem hr]
      exact congrArg some hvalue
    have := h index value hsome
    rw [List.getElem?_eq_getElem hl] at this
    exact Option.some.inj this

private theorem agree_of_map {bytes : List UInt8} {length : Nat} {held cells : Nat → Option UInt8}
    (hbytes : bytes.map some = (List.range length).map held)
    (hcells : ∀ index value, cells index = some value → held index = some value) :
    Agree bytes ((List.range length).map cells) := by
  refine agree_iff.mpr ⟨?_, fun index value hvalue => ?_⟩
  · simpa using congrArg List.length hbytes
  · rw [List.getElem?_map] at hvalue
    obtain ⟨entry, hentry, hcell⟩ := Option.map_eq_some_iff.mp hvalue
    have hheld : (bytes.map some)[index]? = some (some value) := by
      rw [hbytes, List.getElem?_map, hentry, Option.map_some, hcells entry value hcell]
    rw [List.getElem?_map] at hheld
    obtain ⟨byte, hbyte, hsame⟩ := Option.map_eq_some_iff.mp hheld
    rw [hbyte, hsame]

theorem FlatBuffer.write_append (flat : FlatBuffer) (left right : List (Option UInt8)) :
    flat.write (left ++ right) = (flat.write left).write right := by
  unfold FlatBuffer.write
  simp only [List.length_append, FlatBuffer.mk.injEq, and_true]
  refine ⟨funext fun index => ?_, by omega⟩
  by_cases hleft : flat.position ≤ index ∧ index < flat.position + left.length
  · rw [if_pos ⟨hleft.1, by omega⟩, if_neg (by omega), if_pos hleft,
      List.getElem?_append_left (by omega)]
  · rw [if_neg hleft]
    by_cases hright : flat.position + left.length ≤ index ∧
        index < flat.position + left.length + right.length
    · rw [if_pos ⟨by omega, by omega⟩, if_pos hright, List.getElem?_append_right (by omega)]
      congr 2
      omega
    · rw [if_neg (by omega), if_neg hright]

namespace LinkedBuffer

variable {buf other : LinkedBuffer} {base : Nat} {flat : FlatBuffer}

theorem create_refines {blockSize : UInt32} (hsize : 0 < blockSize.toNat)
    (bytes : Nat → Nat → UInt8) : (LinkedBuffer.create blockSize bytes).Refines 0 .create := by
  refine ⟨⟨hsize, List.nodup_singleton 0, ?_, ?_, Nat.zero_le _, ?_, ?_⟩,
    ⟨0, 0, rfl, rfl, by simp [create], by simp [create], ?_, rfl⟩, rfl, .inl ⟨rfl, rfl⟩,
    .inl ⟨rfl, rfl⟩, ?_, ?_⟩
  · intro block hmem
    rw [List.mem_singleton.mp hmem]
    exact Nat.one_pos
  · simp [create]
  · simp [create, room]
  · simp [create, room]
  · simpa [create] using hsize
  · intro limit hlimit
    exact absurd hlimit (by simp [FlatBuffer.create])
  · intro position byte hbyte
    exact absurd hbyte (by simp [FlatBuffer.create])

theorem At.inside {pos : Pos} (hat : buf.At base pos) :
    base + pos.position.toNat < buf.room := by
  obtain ⟨_, _, hcursor⟩ := hat
  exact hcursor.inside

theorem At.valid {pos : Pos} (hat : buf.At base pos) : pos.invalid = false := by
  obtain ⟨_, _, hcursor⟩ := hat
  exact hcursor.valid

theorem Tracks.invalid {pos : Pos} {value : Option Nat} (htracks : buf.Tracks base pos value) :
    pos.invalid = value.isNone := by
  rcases htracks with ⟨hinvalid, rfl⟩ | ⟨hat, rfl⟩
  · exact hinvalid
  · exact hat.valid

theorem Tracks.some {pos : Pos} {value : Nat} (htracks : buf.Tracks base pos (some value)) :
    buf.At base pos ∧ value = pos.position.toNat := by
  rcases htracks with ⟨-, h⟩ | ⟨hat, h⟩
  · exact absurd h (by simp)
  · exact ⟨hat, Option.some.inj h⟩

private theorem tracks_setInvalid (pos : Pos) : buf.Tracks base pos.setInvalid none := .inl
    ⟨rfl, rfl⟩

theorem Refines.sub_position (hrefines : buf.Refines base flat) {limit : Nat}
    (hlimit : flat.limit = .some limit) :
    (buf.limit.position - buf.current.position).toNat = limit - flat.position := by
  obtain ⟨-, hvalue⟩ := (hlimit ▸ hrefines.limit).some
  have horder := (hrefines.order limit hlimit).1
  rw [hrefines.position] at horder ⊢
  rw [UInt32.toNat_sub_of_le _ _ (UInt32.le_iff_toNat_le.mpr (hvalue ▸ horder)), hvalue]

theorem Refines.remaining (hrefines : buf.Refines base flat) :
    buf.remaining.toNat = flat.remaining.getD (2 ^ 32 - 1) := by
  have hinvalid := hrefines.limit.invalid
  unfold LinkedBuffer.remaining FlatBuffer.remaining
  cases hlimit : flat.limit with
  | none =>
    rw [hlimit] at hinvalid
    rw [hinvalid]
    rfl
  | some limit =>
    rw [hlimit] at hinvalid
    rw [hinvalid]
    exact hrefines.sub_position hlimit

theorem Refines.dataLength (hrefines : buf.Refines base flat) :
    buf.dataLength.toNat = flat.dataLength.getD (2 ^ 32 - 1) := by
  have hinvalid := hrefines.limit.invalid
  unfold LinkedBuffer.dataLength FlatBuffer.dataLength
  cases hlimit : flat.limit with
  | none =>
    rw [hlimit] at hinvalid
    rw [hinvalid]
    exact hrefines.position.symm
  | some limit =>
    rw [hlimit] at hinvalid
    rw [hinvalid]
    rfl

theorem Refines.readable_iff (hrefines : buf.Refines base flat) (length : UInt32) :
    (buf.limit.invalid || decide (buf.limit.position - buf.current.position < length)) = false ↔
      flat.Readable length.toNat := by
  rw [hrefines.limit.invalid]
  cases hlimit : flat.limit with
  | none => simp [FlatBuffer.Readable, hlimit]
  | some limit =>
    have hsub := hrefines.sub_position hlimit
    simp [FlatBuffer.Readable, hlimit, UInt32.lt_iff_toNat_lt, hsub]

theorem Refines.room_of_readable (hrefines : buf.Refines base flat) {length : Nat}
    (hreadable : flat.Readable length) :
    base + buf.current.position.toNat + length < buf.room ∧
      buf.current.position.toNat + length < 2 ^ 32 := by
  obtain ⟨limit, hlimit, hle⟩ := hreadable
  obtain ⟨hat, hvalue⟩ := (hlimit ▸ hrefines.limit).some
  have horder := (hrefines.order limit hlimit).1
  have hinside := hat.inside
  have hlt : buf.limit.position.toNat < 2 ^ 32 := buf.limit.position.toNat_lt
  have hposition := hrefines.position
  omega

theorem Refines.move (hrefines : buf.Refines base flat) {pos : Pos} (hat : buf.At base pos)
    (horder : ∀ limit, flat.limit = .some limit → pos.position.toNat ≤ limit) :
    { buf with current := pos }.Refines base { flat with position := pos.position.toNat } where
  chain := { hrefines.chain with }
  current := hat
  position := rfl
  mark := hrefines.mark
  limit := hrefines.limit
  order := fun limit hlimit => ⟨horder limit hlimit, (hrefines.order limit hlimit).2⟩
  cells := hrefines.cells

theorem Refines.remark (hrefines : buf.Refines base flat) {pos : Pos} (hat : buf.At base pos)
    (horder : ∀ limit, flat.limit = .some limit → pos.position.toNat ≤ limit) :
    { buf with mark := pos }.Refines base { flat with mark := .some pos.position.toNat } where
  chain := { hrefines.chain with }
  current := hrefines.current
  position := hrefines.position
  mark := .inr ⟨hat, rfl⟩
  limit := hrefines.limit
  order := fun limit hlimit => ⟨(hrefines.order limit hlimit).1, fun mark hmark => by
    rw [← Option.some.inj hmark]
    exact horder limit hlimit⟩
  cells := hrefines.cells

theorem Refines.get (hrefines : buf.Refines base flat) (length : UInt32) :
    (¬ flat.Readable length.toNat ∧ buf.get length = .some (buf, none)) ∨
    ∃ pos bytes, flat.Readable length.toNat ∧
      buf.get length = .some ({ buf with current := pos }, .some bytes) ∧
      Agree bytes (flat.read length.toNat) ∧
      { buf with current := pos }.Refines base
        { flat with position := flat.position + length.toNat } := by
  have hreadable := hrefines.readable_iff length
  unfold LinkedBuffer.get
  cases hcheck : (buf.limit.invalid ||
      decide (buf.limit.position - buf.current.position < length)) with
  | true =>
    rw [hcheck] at hreadable
    exact .inl ⟨fun h => absurd (hreadable.mpr h) (by simp), by simp⟩
  | false =>
    have hread := hreadable.mp hcheck
    obtain ⟨hroom, hfits⟩ := hrefines.room_of_readable hread
    obtain ⟨pos, chunks, hadvance, hat, hpos, hcovers⟩ :=
      hrefines.current.advance hrefines.chain.size hrefines.chain.nodup length hroom hfits
    refine .inr ⟨pos, _, hread, by simp [hadvance]; rfl, ?_, ?_⟩
    · have hload : (chunks.flatMap (load buf.bytes)).map Option.some = _ := load_covers hcovers
      rw [Nat.add_sub_cancel_left] at hload
      refine agree_of_map hload fun index value hvalue => ?_
      rw [hrefines.position] at hvalue
      rw [Nat.add_assoc]
      exact hrefines.cells _ value hvalue
    · have hposition : flat.position + length.toNat = pos.position.toNat := by
        rw [hpos, hrefines.position]
      rw [hposition]
      refine hrefines.move hat fun limit hlimit => ?_
      obtain ⟨other, hother, hle⟩ := hread
      rw [hlimit] at hother
      cases hother
      have := (hrefines.order limit hlimit).1
      omega

theorem Refines.store (hrefines : buf.Refines base flat) (hwriting : flat.limit = none)
    {data : List UInt8} {cells : List (Option UInt8)} (hagree : Agree data cells)
    (hbounded : buf.current.position.toNat + data.length < 2 ^ 32 - 1)
    (hroom : base + buf.current.position.toNat + data.length < buf.room) :
    ∃ pos chunks, buf.advance (UInt32.ofNat data.length) = .some (pos, chunks) ∧
      pos.position.toNat = buf.current.position.toNat + data.length ∧
      { buf with current := pos, bytes := storeAll buf.bytes chunks data }.Refines base
        (flat.write cells) := by
  have hlength : (UInt32.ofNat data.length).toNat = data.length := by
    rw [UInt32.toNat_ofNat', Nat.mod_eq_of_lt (by omega)]
  obtain ⟨pos, chunks, hadvance, hat, hpos, hcovers⟩ :=
    hrefines.current.advance hrefines.chain.size hrefines.chain.nodup (UInt32.ofNat data.length)
      (by omega) (by omega)
  rw [hlength] at hpos hcovers
  refine ⟨pos, chunks, hadvance, hpos, { hrefines.chain with }, hat, ?_, hrefines.mark,
    hrefines.limit, ?_, ?_⟩
  · dsimp only [FlatBuffer.write]
    rw [hpos, hrefines.position, hagree.length]
  · intro limit hlimit
    exact absurd (hwriting.symm.trans hlimit) (by simp)
  · intro index byte hbyte
    have hvalue : (if flat.position ≤ index ∧ index < flat.position + cells.length then
        (cells[index - flat.position]?).join else flat.cells index) = .some byte := hbyte
    change cell (storeAll buf.bytes chunks data) buf.bufList buf.blockSize.toNat (base + index) = _
    have hposition := hrefines.position
    have hcellsLength := hagree.length
    by_cases hinside : flat.position ≤ index ∧ index < flat.position + cells.length
    · rw [if_pos hinside] at hvalue
      rw [storeAll_cell hrefines.chain.size hrefines.chain.nodup hcovers (by omega) _
        (by unfold room at hroom; omega), if_pos (by omega)]
      have hsame : base + index - (base + buf.current.position.toNat) =
          index - flat.position := by omega
      rw [hsame]
      exact (agree_iff.mp hagree).2 _ byte (Option.join_eq_some_iff.mp hvalue)
    · rw [if_neg hinside] at hvalue
      have hcell := hrefines.cells index byte hvalue
      rw [storeAll_cell hrefines.chain.size hrefines.chain.nodup hcovers (by omega) _
        (lt_of_cell hrefines.chain.size hcell), if_neg (by omega)]
      exact hcell

theorem Refines.putUsable (hrefines : buf.Refines base flat) (hwriting : flat.limit = none)
    {data : List UInt8} {cells : List (Option UInt8)} (hagree : Agree data cells)
    (hbounded : buf.current.position.toNat + data.length < 2 ^ 32 - 1)
    (husable : buf.current.position + UInt32.ofNat data.length + 1 ≤ buf.usable) :
    ∃ pos bytes, (∀ memory, buf.put memory data =
        .some ({ buf with current := pos, bytes := bytes }, true)) ∧
      pos.position.toNat = buf.current.position.toNat + data.length ∧
      { buf with current := pos, bytes := bytes }.Refines base (flat.write cells) := by
  have hlength : (UInt32.ofNat data.length).toNat = data.length := by
    rw [UInt32.toNat_ofNat', Nat.mod_eq_of_lt (by omega)]
  have hsum := toNat_sum buf.current.position (UInt32.ofNat data.length) (by omega)
  have hroom := hrefines.chain.room_of_usable husable (by omega)
  obtain ⟨pos, chunks, hadvance, hpos, hnew⟩ :=
    hrefines.store hwriting hagree hbounded (by omega)
  have hvalid : buf.limit.invalid = true := by
    rw [hrefines.limit.invalid, hwriting]
    rfl
  refine ⟨pos, _, fun memory => ?_, hpos, hnew⟩
  simp only [LinkedBuffer.put, LinkedBuffer.ensure, hvalid, if_neg (UInt32.not_lt.mpr husable),
    hadvance]
  rfl

theorem ensure_of_usable {length : UInt32}
    (husable : buf.current.position + length + 1 ≤ buf.usable) (memory : Nat) :
    buf.ensure memory length = (buf, true) := by
  rw [LinkedBuffer.ensure, if_neg (UInt32.not_lt.mpr husable)]

theorem put_of_ensure {grown : LinkedBuffer} {memory : Nat} {data : List UInt8}
    (hinvalid : buf.limit.invalid = true) (hgrown : Grown buf grown)
    (hensure : buf.ensure memory (UInt32.ofNat data.length) = (grown, true))
    (husable : grown.current.position + UInt32.ofNat data.length + 1 ≤ grown.usable) :
    buf.put memory data = grown.put memory data := by
  have hinvalid' : grown.limit.invalid = true := hgrown.limit_eq ▸ hinvalid
  unfold LinkedBuffer.put
  simp only [hinvalid, hinvalid', hensure, ensure_of_usable husable, Bool.not_true,
    Bool.false_eq_true, if_false]

theorem Refines.putAgree (hrefines : buf.Refines base flat) {memory : Nat}
    (hmemory : 2 ^ 32 ≤ memory + 1) {data : List UInt8} {cells : List (Option UInt8)}
    (hagree : Agree data cells) (hfits : flat.limit = none → buf.Fits data.length) :
    ∃ other, buf.put memory data = .some (other, !flat.limit.isSome) ∧
      other.Refines base (if flat.limit.isSome then flat else flat.write cells) := by
  cases hlimit : flat.limit with
  | some limit =>
    have hinvalid : buf.limit.invalid = false := by
      rw [hrefines.limit.invalid, hlimit]
      rfl
    exact ⟨buf, by simp [LinkedBuffer.put, hinvalid], by simpa using hrefines⟩
  | none =>
    have hfit := hfits hlimit
    have hbounded := hfit.bounded
    have hlength : (UInt32.ofNat data.length).toNat = data.length := by
      rw [UInt32.toNat_ofNat', Nat.mod_eq_of_lt (by omega)]
    obtain ⟨grown, hensure, hgrown, hrefines', husable⟩ :=
      hrefines.ensure hmemory (UInt32.ofNat data.length) (hlength.symm ▸ hfit)
    have hcurrent : grown.current = buf.current := hgrown.current_eq
    obtain ⟨pos, bytes, hput, -, hfinal⟩ :=
      hrefines'.putUsable hlimit hagree (hcurrent ▸ hbounded) husable
    have hinvalid : buf.limit.invalid = true := by
      rw [hrefines.limit.invalid, hlimit]
      rfl
    refine ⟨_, ?_, by simpa using hfinal⟩
    rw [put_of_ensure hinvalid hgrown hensure husable]
    exact hput memory

theorem Refines.skipReading (hrefines : buf.Refines base flat) {limit : Nat}
    (hlimit : flat.limit = .some limit) (length : UInt32) :
    ∃ pos mark, (∀ memory, buf.skip memory length =
        .some ({ buf with mark := mark, current := pos }, (flat.skip length.toNat).2)) ∧
      { buf with mark := mark, current := pos }.Refines base (flat.skip length.toNat).1 ∧
      ((flat.skip length.toNat).2 = false → mark = buf.mark ∧ pos = buf.current) := by
  have hreadable := hrefines.readable_iff length
  have hinvalid := hrefines.limit.invalid
  rw [hlimit] at hinvalid
  have hvalid : buf.limit.invalid = false := hinvalid
  unfold LinkedBuffer.skip
  simp only [hvalid, Bool.false_or, decide_eq_false_iff_not] at hreadable
  by_cases hread : flat.Readable length.toNat
  · obtain ⟨hroom, hfits32⟩ := hrefines.room_of_readable hread
    obtain ⟨pos, chunks, hadvance, hat, hpos, -⟩ :=
      hrefines.current.advance hrefines.chain.size hrefines.chain.nodup length hroom hfits32
    have hcheck := hreadable.mpr hread
    have hflat : flat.skip length.toNat = ({ flat with
        mark := .some flat.position
        position := flat.position + length.toNat }, true) := by
      simp [FlatBuffer.skip, hread]
    simp only [hvalid, hcheck, hadvance, hflat, Bool.not_false, decide_false, Bool.and_false,
      Bool.false_eq_true, if_false]
    refine ⟨pos, buf.current, fun _ => rfl, ?_, fun h => absurd h (by simp)⟩
    have hle : pos.position.toNat ≤ limit := by
      obtain ⟨other, hother, hle⟩ := hread
      rw [hlimit] at hother
      cases hother
      have horder := (hrefines.order limit hlimit).1
      have hposition := hrefines.position
      omega
    have hmoved := (hrefines.remark hrefines.current fun other hother => by
      rw [← hrefines.position]
      exact (hrefines.order other hother).1).move hat fun other hother => by
        rw [hlimit] at hother
        cases hother
        exact hle
    rw [hpos, ← hrefines.position] at hmoved
    exact hmoved
  · have hcheck : decide (buf.limit.position - buf.current.position < length) = true := by
      by_contra hne
      exact hread (hreadable.mp (by simpa using hne))
    have hflat : flat.skip length.toNat = (flat, false) := by
      simp [FlatBuffer.skip, hread, hlimit]
    simp only [hvalid, hcheck, hflat, Bool.not_false, Bool.and_self, if_true]
    exact ⟨buf.current, buf.mark, fun _ => rfl, hrefines, fun _ => ⟨rfl, rfl⟩⟩

theorem Refines.skipUsable (hrefines : buf.Refines base flat) (hlimit : flat.limit = none)
    {length : UInt32} (hbounded : buf.current.position.toNat + length.toNat < 2 ^ 32 - 1)
    {grown : LinkedBuffer} {memory : Nat} (hensure : buf.ensure memory length = (grown, true))
    (hgrown : Grown buf grown) (hgrownRefines : grown.Refines base flat)
    (husable : grown.current.position + length + 1 ≤ grown.usable) :
    ∃ pos, buf.skip memory length =
        .some ({ grown with mark := grown.current, current := pos }, true) ∧
      { grown with mark := grown.current, current := pos }.Refines base
        (flat.skip length.toNat).1 := by
  have hinvalid := hrefines.limit.invalid
  rw [hlimit] at hinvalid
  have hvalid : buf.limit.invalid = true := hinvalid
  have hcurrent : grown.current = buf.current := hgrown.current_eq
  have hsum := toNat_sum grown.current.position length (by rw [hcurrent]; omega)
  have hroom := hgrownRefines.chain.room_of_usable husable (by omega)
  obtain ⟨pos, chunks, hadvance, hat, hpos, -⟩ :=
    hgrownRefines.current.advance hgrownRefines.chain.size hgrownRefines.chain.nodup length
      (by omega) (by rw [hcurrent]; omega)
  have hnolimit : ∀ value : Nat, ∀ limit, flat.limit = .some limit → value ≤ limit := by
    intro value limit h
    exact absurd (hlimit.symm.trans h) (by simp)
  have hflat : flat.skip length.toNat = ({ flat with
      mark := .some flat.position
      position := flat.position + length.toNat }, true) := by
    simp [FlatBuffer.skip, hlimit]
  unfold LinkedBuffer.skip
  simp only [hvalid, hensure, hadvance, hflat, Bool.not_true, Bool.false_and, Bool.false_eq_true,
    if_false, if_true]
  refine ⟨pos, rfl, ?_⟩
  have hmoved := (hgrownRefines.remark hgrownRefines.current (hnolimit _)).move hat (hnolimit _)
  rw [hpos, ← hgrownRefines.position] at hmoved
  exact hmoved

theorem Refines.skip (hrefines : buf.Refines base flat) {memory : Nat} (hmemory : 2 ^ 32 ≤ memory)
    (length : UInt32) (hfits : flat.limit = none → buf.Fits length.toNat) :
    ∃ other, buf.skip memory length = .some (other, (flat.skip length.toNat).2) ∧
      other.Refines base (flat.skip length.toNat).1 := by
  cases hlimit : flat.limit with
  | some limit =>
    obtain ⟨pos, mark, hskip, hmoved, -⟩ := hrefines.skipReading hlimit length
    exact ⟨_, hskip memory, hmoved⟩
  | none =>
    have hfit := hfits hlimit
    obtain ⟨grown, hensure, hgrown, hgrownRefines, husable⟩ :=
      hrefines.ensure (Nat.le_succ_of_le hmemory) length hfit
    obtain ⟨pos, hskip, hmoved⟩ :=
      hrefines.skipUsable hlimit hfit.bounded hensure hgrown hgrownRefines husable
    have hresult : (flat.skip length.toNat).2 = true := by
      simp [FlatBuffer.skip, hlimit]
    rw [hresult]
    exact ⟨_, hskip, hmoved⟩

theorem Refines.setMark (hrefines : buf.Refines base flat) :
    buf.setMark.Refines base flat.setMark := by
  have hmarked := hrefines.remark hrefines.current fun limit hlimit => by
    rw [← hrefines.position]
    exact (hrefines.order limit hlimit).1
  rw [← hrefines.position] at hmarked
  exact hmarked

theorem Refines.reset (hrefines : buf.Refines base flat) :
    buf.reset.2 = flat.reset.2 ∧ buf.reset.1.Refines base flat.reset.1 := by
  have hmark := hrefines.mark
  unfold LinkedBuffer.reset FlatBuffer.reset
  cases hvalue : flat.mark with
  | none =>
    rw [hvalue] at hmark
    have hinvalid : buf.mark.invalid = true := hmark.invalid
    rw [if_pos hinvalid]
    exact ⟨rfl, hrefines⟩
  | some mark =>
    rw [hvalue] at hmark
    have hinvalid : buf.mark.invalid = false := hmark.invalid
    obtain ⟨hat, rfl⟩ := hmark.some
    rw [if_neg (by simp [hinvalid])]
    refine ⟨rfl, ?_⟩
    have hmoved := hrefines.setMark.move hat fun limit hlimit =>
      (hrefines.order limit hlimit).2 _ hvalue
    exact hmoved

theorem Chain.zero_at (hchain : buf.Chain base) (hroom : base < buf.room) :
    buf.At base buf.zero := by
  obtain ⟨block, hhead⟩ : ∃ block, buf.bufList[0]? = .some block := by
    cases hlist : buf.bufList with
    | nil => simp [room, hlist] at hroom
    | cons first rest => exact ⟨first, rfl⟩
  have hlt : buf.blockSize.toNat < 2 ^ 32 := buf.blockSize.toNat_lt
  have hbase := hchain.baseLe
  rw [hchain.zero]
  refine ⟨0, block, hhead, ?_, ?_, ?_, hroom, rfl⟩
  · rw [← List.head?_eq_getElem?] at hhead
    exact hhead
  · dsimp only
    rw [UInt32.toNat_ofNat', Nat.mod_eq_of_lt (by omega)]
    omega
  · simp

theorem Refines.base_lt (hrefines : buf.Refines base flat) : base < buf.room := by
  have := hrefines.current.inside
  omega

theorem Refines.zero_position (hrefines : buf.Refines base flat) : buf.zero.position.toNat = 0 := by
  rw [hrefines.chain.zero]
  rfl

theorem Refines.rewind (hrefines : buf.Refines base flat) :
    buf.rewind.Refines base flat.rewind := by
  have hmoved := hrefines.setMark.move (hrefines.chain.zero_at hrefines.base_lt) fun limit _ => by
    rw [hrefines.zero_position]
    exact Nat.zero_le limit
  rw [hrefines.zero_position] at hmoved
  exact hmoved

theorem Refines.flip (hrefines : buf.Refines base flat) :
    buf.flip.2 = flat.flip.2 ∧ buf.flip.1.Refines base flat.flip.1 := by
  have hinvalid := hrefines.limit.invalid
  unfold LinkedBuffer.flip FlatBuffer.flip
  cases hlimit : flat.limit with
  | some limit =>
    rw [hlimit] at hinvalid
    rw [if_pos (by simp [hinvalid])]
    exact ⟨rfl, hrefines⟩
  | none =>
    rw [hlimit] at hinvalid
    rw [if_neg (by simp [hinvalid])]
    refine ⟨rfl, { hrefines.chain with }, hrefines.chain.zero_at hrefines.base_lt,
      hrefines.zero_position.symm, tracks_setInvalid _, .inr ⟨hrefines.current, ?_⟩, ?_,
      hrefines.cells⟩
    · exact congrArg Option.some hrefines.position
    · intro limit _
      exact ⟨Nat.zero_le limit, fun mark hmark => absurd hmark (by simp)⟩

theorem Refines.clear (hrefines : buf.Refines base flat) : buf.clear.Refines 0 .create := by
  have hsize := hrefines.chain.size
  obtain ⟨first, rest, hlist⟩ : ∃ first rest, buf.bufList = first :: rest := by
    cases hlist : buf.bufList with
    | nil =>
      have hroom := hrefines.base_lt
      simp [room, hlist] at hroom
    | cons first rest => exact ⟨first, rest, rfl⟩
  have hcleared : (if buf.bufList.length > 1 then buf.bufList.take 1 else buf.bufList) =
      [first] := by
    rw [hlist]
    cases rest <;> simp
  have hblockSize : buf.blockSize = UInt32.ofNat buf.blockSize.toNat := UInt32.ofNat_toNat.symm
  unfold LinkedBuffer.clear
  rw [hcleared]
  refine ⟨⟨hsize, List.nodup_singleton first, ?_, ?_, Nat.zero_le _, ?_, ?_⟩, ⟨0, first, ?_⟩, rfl,
    tracks_setInvalid _, tracks_setInvalid _, ?_, ?_⟩
  · intro block hmem
    rw [List.mem_singleton.mp hmem]
    exact hrefines.chain.fresh first (by simp [hlist])
  · simp
  · simp [room]
  · simp [room]
  · exact ⟨rfl, rfl, by simp, by simp, by simpa using hsize, rfl⟩
  · intro limit hlimit
    exact absurd hlimit (by simp [FlatBuffer.create])
  · intro index byte hbyte
    exact absurd hbyte (by simp [FlatBuffer.create])

private theorem popUntil_drop {blocks : List Nat} (hnodup : blocks.Nodup) {number block : Nat}
    (hblock : blocks[number]? = .some block) (blockSize capacity : UInt32) :
    popUntil (.some block) blockSize blocks capacity =
      .some (blocks.drop number, capacity - UInt32.ofNat number * blockSize) := by
  induction blocks generalizing number capacity with
  | nil => exact absurd hblock (by simp)
  | cons first rest ih =>
    cases number with
    | zero =>
      have hfirst : first = block := by simpa using hblock
      simp [popUntil, hfirst]
    | succ number =>
      have hrest : rest[number]? = .some block := by simpa using hblock
      have hne : first ≠ block := by
        rintro rfl
        exact (List.nodup_cons.mp hnodup).1 (List.mem_of_getElem? hrest)
      rw [popUntil, if_neg (by simpa using hne), ih (List.nodup_cons.mp hnodup).2 hrest]
      have hsum : capacity - blockSize - UInt32.ofNat number * blockSize =
          capacity - UInt32.ofNat (number + 1) * blockSize := by
        rw [UInt32.ofNat_add, UInt32.add_mul]
        change _ = capacity - (UInt32.ofNat number * blockSize + 1 * blockSize)
        grind
      rw [List.drop_succ_cons, hsum]

theorem Chain.drop (hchain : buf.Chain base) {number start : Nat} {block : Nat}
    (hblock : buf.bufList[number]? = .some block) (hstart : start ≤ buf.blockSize.toNat)
    {zero : Pos} (hzero : zero =
      ⟨0, UInt32.ofNat (buf.blockSize.toNat - start), .some block, start, false⟩)
    {current mark limit : Pos} :
    ({ buf with
      zero := zero
      current := current
      bufList := buf.bufList.drop number
      capacity := buf.capacity - UInt32.ofNat number * buf.blockSize
      usable := buf.capacity - UInt32.ofNat number * buf.blockSize -
        (buf.blockSize - zero.remaining)
      mark := mark
      limit := limit } : LinkedBuffer).Chain start := by
  have hlt := (List.getElem?_eq_some_iff.mp hblock).1
  have hblockSize : buf.blockSize = UInt32.ofNat buf.blockSize.toNat := UInt32.ofNat_toNat.symm
  have hcapacity : buf.capacity - UInt32.ofNat number * buf.blockSize =
      UInt32.ofNat ((buf.bufList.length - number) * buf.blockSize.toNat) := by
    have hle : number * buf.blockSize.toNat ≤ buf.room :=
      Nat.mul_le_mul_right _ (Nat.le_of_lt hlt)
    rw [hchain.capacity, Nat.sub_mul]
    conv_lhs => rw [hblockSize]
    rw [← UInt32.ofNat_mul, ← UInt32.ofNat_sub hle]
    rfl
  have hroom : start ≤ (buf.bufList.length - number) * buf.blockSize.toNat := by
    have hone : 1 * buf.blockSize.toNat ≤ (buf.bufList.length - number) * buf.blockSize.toNat :=
      Nat.mul_le_mul_right _ (by omega)
    omega
  refine ⟨hchain.size, hchain.nodup.sublist (List.drop_sublist _ _), ?_, ?_, hstart, ?_, ?_⟩
  · exact fun other hmem => hchain.fresh other (List.mem_of_mem_drop hmem)
  · dsimp only
    rw [hzero, List.head?_drop, hblock]
  · simp only [room, List.length_drop]
    exact hcapacity
  · simp only [room, List.length_drop]
    have hgap : buf.blockSize - zero.remaining = UInt32.ofNat start := by
      have hback : buf.blockSize.toNat - (buf.blockSize.toNat - start) = start := by omega
      calc buf.blockSize - zero.remaining
          = UInt32.ofNat buf.blockSize.toNat -
              UInt32.ofNat (buf.blockSize.toNat - start) := by rw [hzero, ← hblockSize]
        _ = UInt32.ofNat (buf.blockSize.toNat - (buf.blockSize.toNat - start)) :=
          (UInt32.ofNat_sub (Nat.sub_le _ _)).symm
        _ = UInt32.ofNat start := by rw [hback]
    rw [hcapacity, hgap, ← UInt32.ofNat_sub hroom]

theorem Refines.compact (hrefines : buf.Refines base flat) :
    ∃ other start, buf.compact = .some (other, flat.compact.2) ∧
      other.Refines start flat.compact.1 := by
  have hinvalid := hrefines.limit.invalid
  have hlimitTracks := hrefines.limit
  unfold LinkedBuffer.compact FlatBuffer.compact
  cases hlimit : flat.limit with
  | none =>
    rw [hlimit] at hinvalid
    have hnone : buf.limit.invalid = true := hinvalid
    rw [if_pos hnone]
    exact ⟨buf, base, rfl, hrefines⟩
  | some limit =>
    rw [hlimit] at hinvalid hlimitTracks
    have hsome : buf.limit.invalid = false := hinvalid
    obtain ⟨hat, rfl⟩ := hlimitTracks.some
    obtain ⟨number, block, hcursor⟩ := hrefines.current
    obtain ⟨last, lastBlock, hlast⟩ := hat
    have hposition := hrefines.position
    have horder := (hrefines.order _ hlimit).1
    have hsplit := hcursor.split
    have hindex := hcursor.index
    have hnumber := (List.getElem?_eq_some_iff.mp hcursor.inChain).1
    have hpop := popUntil_drop hrefines.chain.nodup hcursor.inChain buf.blockSize buf.capacity
    have hnolimit : ∀ (mark : Option Nat) (position limit : Nat), none = .some limit →
        position ≤ limit ∧ ∀ value, mark = .some value → value ≤ limit := by
      intro mark position limit h
      exact absurd h (by simp)
    rw [if_neg (by simp [hsome])]
    by_cases hdrained : buf.limit.position = buf.current.position
    · -- everything was read: start over at the beginning of the current block
      have hempty : buf.limit.position.toNat - flat.position = 0 := by
        rw [hposition, hdrained, Nat.sub_self]
      simp only [hdrained, if_true, hcursor.block, hpop, Option.bind_eq_bind, Option.bind_some]
      refine ⟨_, 0, rfl, hrefines.chain.drop hcursor.inChain (Nat.zero_le _) (by simp),
        ⟨0, block, ?_⟩, ?_, tracks_setInvalid _, tracks_setInvalid _, hnolimit _ _, ?_⟩
      · refine ⟨?_, rfl, by simp, by simp, ?_, rfl⟩
        · simpa using hcursor.inChain
        · have hone : 1 * buf.blockSize.toNat ≤
              (buf.bufList.length - number) * buf.blockSize.toNat :=
            Nat.mul_le_mul_right _ (by omega)
          have hsize := hrefines.chain.size
          simp only [List.length_drop]
          change 0 + 0 < _
          omega
      · simp [hposition]
      · intro index byte hbyte
        simp [hposition] at hbyte
    · -- the unread bytes stay where they are
      have hne : buf.limit.position.toNat ≠ buf.current.position.toNat := by
        rwa [ne_eq, UInt32.toNat_inj]
      have hle : number ≤ last := by
        have hlastSplit := hlast.split
        have hlastIndex := hlast.index
        have hlt : number * buf.blockSize.toNat < (last + 1) * buf.blockSize.toNat := by
          rw [Nat.succ_mul]
          omega
        have := Nat.lt_of_mul_lt_mul_right hlt
        omega
      have hsub : (buf.limit.position - buf.current.position).toNat =
          buf.limit.position.toNat - buf.current.position.toNat :=
        UInt32.toNat_sub_of_le _ _ (UInt32.le_iff_toNat_le.mpr (by omega))
      have hremaining : buf.current.remaining =
          UInt32.ofNat (buf.blockSize.toNat - buf.current.currBuf) := by
        rw [← UInt32.toNat_inj, UInt32.toNat_ofNat']
        have := buf.blockSize.toNat_lt
        rw [Nat.mod_eq_of_lt (by omega)]
        omega
      simp only [if_neg hdrained, hcursor.block, hpop, Option.bind_eq_bind, Option.bind_some]
      refine ⟨_, buf.current.currBuf, rfl,
        hrefines.chain.drop hcursor.inChain (by omega) (by rw [hremaining]),
        ⟨last - number, lastBlock, ?_⟩, ?_, tracks_setInvalid _, tracks_setInvalid _,
        hnolimit _ _, ?_⟩
      · have hmul : (last - number) * buf.blockSize.toNat =
            last * buf.blockSize.toNat - number * buf.blockSize.toNat := Nat.sub_mul _ _ _
        have hmulRoom : (buf.bufList.length - number) * buf.blockSize.toNat =
            buf.bufList.length * buf.blockSize.toNat - number * buf.blockSize.toNat :=
          Nat.sub_mul _ _ _
        have hlastIndex := hlast.index
        have hlastInside := hlast.inside
        refine ⟨?_, hlast.block, hlast.split, ?_, ?_, rfl⟩
        · rw [List.getElem?_drop, Nat.add_sub_cancel' hle]
          exact hlast.inChain
        · dsimp only
          have := Nat.mul_le_mul_right buf.blockSize.toNat hle
          omega
        · simp only [List.length_drop]
          omega
      · simp only [hsub, hposition]
      · intro index byte hbyte
        simp only at hbyte
        split_ifs at hbyte
        have hcell := hrefines.cells _ byte hbyte
        have hsame : base + (flat.position + index) =
            number * buf.blockSize.toNat + (buf.current.currBuf + index) := by omega
        dsimp only
        rw [cell_drop hrefines.chain.size, ← hsame]
        exact hcell

theorem Refines.putChunks (source : Nat → Nat → UInt8) {chunks : List Chunk}
    {cells : List (Option UInt8)} (hrefines : buf.Refines base flat) (hwriting : flat.limit = none)
    (hagree : Agree (chunks.flatMap (load source)) cells)
    (husable : buf.current.position.toNat + cells.length + 1 ≤ buf.usable.toNat) :
    ∃ pos bytes, (∀ memory, putChunks source memory chunks buf =
        .some { buf with current := pos, bytes := bytes }) ∧
      { buf with current := pos, bytes := bytes }.Refines base (flat.write cells) := by
  induction chunks generalizing buf flat cells with
  | nil =>
    have hcells : cells = [] := List.eq_nil_of_length_eq_zero hagree.length.symm
    subst hcells
    have hwrite : flat.write [] = flat := by
      unfold FlatBuffer.write
      have hcells : (fun index => if flat.position ≤ index ∧
          index < flat.position + ([] : List (Option UInt8)).length then
            (([] : List (Option UInt8))[index - flat.position]?).join
          else flat.cells index) = flat.cells := by
        funext index
        rw [if_neg (by simp)]
      rw [hcells]
      rfl
    exact ⟨buf.current, buf.bytes, fun _ => rfl, hwrite.symm ▸ hrefines⟩
  | cons chunk rest ih =>
    rw [List.flatMap_cons] at hagree
    have hfirst := List.forall₂_take_append cells _ _ hagree.flip
    have hrest := List.forall₂_drop_append cells _ _ hagree.flip
    have hsplit := List.take_append_drop (load source chunk).length cells
    generalize cells.take (load source chunk).length = first at hfirst hsplit
    generalize cells.drop (load source chunk).length = others at hrest hsplit
    subst hsplit
    have hfirst : Agree (load source chunk) first := hfirst.flip
    have hrest : Agree (rest.flatMap (load source)) others := hrest.flip
    rw [List.length_append] at husable
    have hlt := buf.usable.toNat_lt
    have hlength := hfirst.length
    have hsmall : (UInt32.ofNat (load source chunk).length).toNat =
        (load source chunk).length := by
      rw [UInt32.toNat_ofNat', Nat.mod_eq_of_lt (by omega)]
    have hsum := toNat_sum buf.current.position (UInt32.ofNat (load source chunk).length)
      (by omega)
    obtain ⟨pos, bytes, hput, hpos, hnew⟩ := hrefines.putUsable hwriting hfirst (by omega)
      (UInt32.le_iff_toNat_le.mpr (by omega))
    have husable' : pos.position.toNat + others.length + 1 ≤ buf.usable.toNat := by omega
    obtain ⟨last, content, hputs, hfinal⟩ := ih hnew hwriting hrest husable'
    refine ⟨last, content, fun memory => ?_, ?_⟩
    · rw [LinkedBuffer.putChunks, hput memory]
      exact hputs memory
    · rw [FlatBuffer.write_append]
      exact hfinal

/-- The chunks that `get` copies are put one by one into the space that `ensure`
made in the other buffer. -/
theorem Refines.getBufferUsable {target : LinkedBuffer} {start : Nat} {flatTarget : FlatBuffer}
    (hrefines : buf.Refines base flat) (htarget : target.Refines start flatTarget)
    {length : UInt32} (hread : flat.Readable length.toNat) (hlimit : flatTarget.limit = none)
    (hbounded : target.current.position.toNat + length.toNat < 2 ^ 32 - 1)
    {grown : LinkedBuffer} {memory : Nat} (hensure : target.ensure memory length = (grown, true))
    (hgrown : Grown target grown) (hgrownRefines : grown.Refines start flatTarget)
    (husable : grown.current.position + length + 1 ≤ grown.usable) :
    ∃ pos into bytes, buf.getBuffer target memory length =
        .some ({ buf with current := pos },
          { grown with current := into, bytes := bytes }, true) ∧
      { buf with current := pos }.Refines base
        { flat with position := flat.position + length.toNat } ∧
      { grown with current := into, bytes := bytes }.Refines start
        (flatTarget.write (flat.read length.toNat)) := by
  have hcheck := (hrefines.readable_iff length).mpr hread
  have hinvalid := htarget.limit.invalid
  rw [hlimit] at hinvalid
  have hopen : target.limit.invalid = true := hinvalid
  have hcurrent : grown.current = target.current := hgrown.current_eq
  have hsum := toNat_sum grown.current.position length (by rw [hcurrent]; omega)
  rw [UInt32.le_iff_toNat_le, hsum] at husable
  rcases hrefines.get length with ⟨hnot, -⟩ | ⟨pos, bytes, -, hget, hagree, hmoved⟩
  · exact absurd hread hnot
  · obtain ⟨hroom, hfits32⟩ := hrefines.room_of_readable hread
    obtain ⟨pos', chunks, hadvance, -, -, -⟩ :=
      hrefines.current.advance hrefines.chain.size hrefines.chain.nodup length hroom hfits32
    have hsame : pos' = pos ∧ chunks.flatMap (load buf.bytes) = bytes := by
      unfold LinkedBuffer.get at hget
      simp only [hcheck, hadvance, Bool.false_eq_true, if_false, Option.bind_eq_bind,
        Option.bind_some, Option.pure_def, Option.some.injEq, Prod.mk.injEq] at hget
      exact ⟨congrArg LinkedBuffer.current hget.1, hget.2⟩
    obtain ⟨rfl, rfl⟩ := hsame
    have hreadLength : (flat.read length.toNat).length = length.toNat := by
      simp [FlatBuffer.read]
    obtain ⟨into, content, hputs, hfinal⟩ := hgrownRefines.putChunks buf.bytes hlimit hagree
      (by rw [hreadLength]; exact husable)
    refine ⟨pos', into, content, ?_, hmoved, hfinal⟩
    unfold LinkedBuffer.getBuffer
    simp only [hcheck, hopen, hensure, hadvance, hputs memory, Bool.false_eq_true, if_false,
      Bool.not_true, Option.bind_eq_bind, Option.bind_some]
    rfl

theorem Refines.getBufferRefused {target : LinkedBuffer} {start : Nat} {flatTarget : FlatBuffer}
    (hrefines : buf.Refines base flat) (htarget : target.Refines start flatTarget)
    {length : UInt32} (hrefused : ¬(flat.Readable length.toNat ∧ flatTarget.limit = none))
    (memory : Nat) : buf.getBuffer target memory length = .some (buf, target, false) := by
  have hreadable := hrefines.readable_iff length
  have hinvalid := htarget.limit.invalid
  unfold LinkedBuffer.getBuffer
  by_cases hread : flat.Readable length.toNat
  · have hclosed : target.limit.invalid = false := by
      cases hlimit : flatTarget.limit with
      | some limit =>
        rw [hlimit] at hinvalid
        exact hinvalid
      | none => exact absurd ⟨hread, hlimit⟩ hrefused
    simp only [hreadable.mpr hread, hclosed, Bool.false_eq_true, if_false, Bool.not_false, if_true]
  · have hcheck : (buf.limit.invalid ||
        decide (buf.limit.position - buf.current.position < length)) = true := by
      by_contra hne
      exact hread (hreadable.mp (by simpa using hne))
    simp only [hcheck, if_true]

theorem Refines.getBuffer {target : LinkedBuffer} {start : Nat} {flatTarget : FlatBuffer}
    (hrefines : buf.Refines base flat) (htarget : target.Refines start flatTarget) {memory : Nat}
    (hmemory : 2 ^ 32 ≤ memory) (length : UInt32)
    (hfits : flat.Readable length.toNat → flatTarget.limit = none → target.Fits length.toNat) :
    ∃ buf' target', buf.getBuffer target memory length =
        .some (buf', target', (flat.getBuffer flatTarget length.toNat).2.2) ∧
      buf'.Refines base (flat.getBuffer flatTarget length.toNat).1 ∧
      target'.Refines start (flat.getBuffer flatTarget length.toNat).2.1 ∧
      ((flat.getBuffer flatTarget length.toNat).2.2 = false → buf' = buf ∧ target' = target) := by
  unfold FlatBuffer.getBuffer
  split_ifs with hmoves
  · obtain ⟨hread, hlimit⟩ := hmoves
    have hfit := hfits hread hlimit
    obtain ⟨grown, hensure, hgrown, hgrownRefines, husable⟩ :=
      htarget.ensure (Nat.le_succ_of_le hmemory) length hfit
    obtain ⟨pos, into, bytes, hget, hmoved, hfinal⟩ := hrefines.getBufferUsable htarget hread
      hlimit hfit.bounded hensure hgrown hgrownRefines husable
    exact ⟨_, _, hget, hmoved, hfinal, fun h => absurd h (by simp)⟩
  · exact ⟨buf, target, hrefines.getBufferRefused htarget hmoves memory, hrefines, htarget,
      fun _ => ⟨rfl, rfl⟩⟩

@[simp] theorem putInt_eq (buf : LinkedBuffer) (memory size number : Nat) (bigendian : Bool) :
    buf.putInt memory size number bigendian =
      buf.put memory (FlatBuffer.wire size number bigendian) := by
  cases bigendian <;> simp [LinkedBuffer.putInt, FlatBuffer.wire, isLittleEndian, Bytes.encode_swap]

private theorem agree_known {bytes : List UInt8} {cells : List (Option UInt8)}
    (hagree : Agree bytes cells)
    (hall : cells.all Option.isSome = true) : cells.map (fun cell => cell.getD 0) = bytes := by
  induction hagree with
  | nil => rfl
  | @cons byte cell bytes cells hhead hrest ih =>
    rw [List.all_cons, Bool.and_eq_true] at hall
    obtain ⟨value, rfl⟩ := Option.isSome_iff_exists.mp hall.1
    rw [List.map_cons, ih hall.2, hhead value rfl]
    rfl

theorem agree_number {bytes : List UInt8} {cells : List (Option UInt8)} (hagree : Agree bytes cells)
    {bigendian : Bool} {number : Nat} (hnumber : FlatBuffer.number cells bigendian = some number) :
    Bytes.decode (if bigendian then bytes.reverse else bytes) = number := by
  unfold FlatBuffer.number at hnumber
  by_cases hall : cells.all Option.isSome = true
  · rw [if_pos hall, agree_known hagree hall] at hnumber
    exact Option.some.inj hnumber
  · rw [if_neg hall] at hnumber
    exact absurd hnumber (by simp)

theorem Refines.getInt (hrefines : buf.Refines base flat) {size : Nat} (hsize : size < 2 ^ 32)
    (bigendian : Bool) :
    (¬ flat.Readable size ∧ buf.getInt size bigendian = .some (buf, none)) ∨
    ∃ pos number, flat.Readable size ∧
      buf.getInt size bigendian = .some ({ buf with current := pos }, .some number) ∧
      (∀ known, FlatBuffer.number (flat.read size) bigendian = .some known → number = known) ∧
      { buf with current := pos }.Refines base { flat with position := flat.position + size } := by
  have hlength : (UInt32.ofNat size).toNat = size := by
    rw [UInt32.toNat_ofNat', Nat.mod_eq_of_lt hsize]
  have hget := hrefines.get (UInt32.ofNat size)
  rw [hlength] at hget
  unfold LinkedBuffer.getInt
  rcases hget with ⟨hnot, hget⟩ | ⟨pos, bytes, hread, hget, hagree, hmoved⟩
  · left
    rw [hget]
    exact ⟨hnot, rfl⟩
  · right
    have hbytes : bytes.length = size := by
      rw [hagree.length]
      simp [FlatBuffer.read]
    refine ⟨pos, Bytes.decode (if bigendian then bytes.reverse else bytes), hread, ?_,
      fun known hknown => agree_number hagree hknown, hmoved⟩
    rw [hget]
    cases bigendian with
    | false => rfl
    | true =>
      change Option.some (_, Option.some (Bytes.swap size (Bytes.decode bytes))) = _
      rw [← hbytes, Bytes.swap_decode]
      rfl

theorem Refines.peekInt (hrefines : buf.Refines base flat) {size : Nat} (hsize : size < 2 ^ 32)
    (bigendian : Bool) :
    (¬ flat.Readable size ∧ buf.peekInt size bigendian = .some (buf, none)) ∨
    ∃ number, flat.Readable size ∧ buf.peekInt size bigendian = .some (buf, .some number) ∧
      ∀ known, FlatBuffer.number (flat.read size) bigendian = .some known → number = known := by
  unfold LinkedBuffer.peekInt
  rcases hrefines.getInt hsize bigendian with ⟨hnot, hget⟩ | ⟨pos, number, hread, hget, hknown, -⟩
  · left
    rw [hget]
    exact ⟨hnot, rfl⟩
  · right
    rw [hget]
    exact ⟨number, hread, rfl, hknown⟩

end LinkedBuffer

end Libsax.Net
