import Libsax.Net.LinkedBufferDirect
import Libsax.Net.LinkedBufferSpace

/-! Reading in place in any state of a `linked_buffer`. At the border of two blocks
the cursor and the limit may stand at one position in different blocks. -/
namespace Libsax.Net.Access

open Libsax.Lib Libsax.Lib.Chunks LinkedBuffer

/-- `direct_get` changes nothing and does not appear here. -/
inductive Deed where
  | ask (action : Space.Action)
  | commitGet (index : Nat) (ptr : Option Nat × Nat) (length : UInt32)
deriving DecidableEq

/-- The buffers before and after a deed, and what it returned. -/
structure Entry where
  before : Nat → LinkedBuffer
  deed : Deed
  after : Nat → LinkedBuffer
  result : Bool

structure System where
  bufs : Nat → LinkedBuffer
  trace : List Entry

def perform (bufs : Nat → LinkedBuffer) : Deed → Option ((Nat → LinkedBuffer) × Bool)
  | .ask action => Space.answer bufs action
  | .commitGet index ptr length => do
    let (buf, result) ← (bufs index).commitGet ptr length
    return (Function.update bufs index buf, result)

/-- `none` is a null dereference. -/
def step (system : System) (deed : Deed) : Option System := do
  let (bufs, result) ← perform system.bufs deed
  return ⟨bufs, system.trace ++ [⟨system.bufs, deed, bufs, result⟩]⟩

def start (blockSize : UInt32) (bytes : Nat → Nat → Nat → UInt8) : System where
  bufs := fun index => LinkedBuffer.create blockSize (bytes index)
  trace := []

/-- What `direct_get` reports can be read with `get`, and `commit_get` of `length`
bytes does what `get` of as many does. -/
structure Serves (buf : LinkedBuffer) (length : UInt32) : Prop where
  offered : ∃ block limitLength,
    buf.directGet = some ((some block, buf.current.currBuf), limitLength) ∧
      limitLength ≤ buf.remaining ∧ (0 < buf.remaining → 0 < limitLength) ∧
      ∃ next, buf.get limitLength = some (next,
        some (Chunks.load buf.bytes ⟨block, buf.current.currBuf, limitLength.toNat⟩))
  committed : ∃ next result,
    buf.commitGet (buf.current.block, buf.current.currBuf) length = some (next, result) ∧
      (result = true → length ≤ buf.remaining ∧
        ∃ other bytes, buf.get length = some (other, some bytes) ∧
          next.current.position = other.current.position ∧
          next.current.position.toNat = buf.current.position.toNat + length.toNat)

/-- The cursor is in the block of the limit, or there is a rest of its block just
when there is something to read. -/
def Level (buf : LinkedBuffer) : Prop :=
  buf.current.block = buf.limit.block ∨ (buf.current.remaining = 0 ↔ buf.remaining = 0)

/-- In the block of the limit the sum of the position and the length does not come
out at or below the limit by going round 2^32. -/
def Straight (buf : LinkedBuffer) (length : UInt32) : Prop :=
  buf.current.block = buf.limit.block →
    buf.current.position.toNat + length.toNat < 2 ^ 32 ∨
      buf.limit.position < buf.current.position + length

instance (buf : LinkedBuffer) : Decidable (Level buf) := inferInstanceAs (Decidable (_ ∨ _))

instance (buf : LinkedBuffer) (length : UInt32) : Decidable (Straight buf length) :=
  inferInstanceAs (Decidable (_ → _))

/-- The conditions on the bytes of a commit that is not refused beforehand. -/
def Sane (bufs : Nat → LinkedBuffer) : Deed → Prop
  | .ask _ => True
  | .commitGet index ptr length =>
    (bufs index).limit.invalid = false →
      ((bufs index).current.block, (bufs index).current.currBuf) = ptr →
        Level (bufs index) ∧ Straight (bufs index) length

/-- The sums and the counters of the calls do not wrap. -/
def Bounded (bufs : Nat → LinkedBuffer) : Deed → Prop
  | .ask action => Space.Bounded ⟨bufs, bufs, true⟩ action ∧ Space.NoWrap ⟨bufs, bufs, true⟩ action
  | .commitGet _ _ _ => True

variable {buf : LinkedBuffer} {base : Nat} {flat : FlatBuffer}

theorem advance_position {length : UInt32} {pos : Pos} {chunks : List Chunk}
    (hadvance : buf.advance length = some (pos, chunks)) :
    pos.position = buf.current.position + length := by
  simp only [LinkedBuffer.advance, Option.bind_eq_bind, Option.bind_eq_some_iff] at hadvance
  obtain ⟨block, -, hadvance⟩ := hadvance
  split_ifs at hadvance
  · obtain ⟨rfl, -⟩ := Prod.mk.inj (Option.some.inj hadvance)
    rfl
  · obtain ⟨⟨_, _⟩, -, hadvance⟩ := Option.bind_eq_some_iff.mp hadvance
    obtain ⟨rfl, -⟩ := Prod.mk.inj (Option.some.inj hadvance)
    rfl

private theorem advance_load {length : UInt32} {pos : Pos} {chunks : List Chunk} {block : Nat}
    (hblock : buf.current.block = some block) (hlength : length ≤ buf.current.remaining)
    (hadvance : buf.advance length = some (pos, chunks)) :
    chunks.flatMap (Chunks.load buf.bytes) =
      Chunks.load buf.bytes ⟨block, buf.current.currBuf, length.toNat⟩ := by
  simp only [LinkedBuffer.advance, hblock, Option.bind_eq_bind, Option.bind_some] at hadvance
  split_ifs at hadvance with hshort
  · obtain ⟨-, rfl⟩ := Prod.mk.inj (Option.some.inj hadvance)
    exact List.append_nil _
  · have hall : length = buf.current.remaining := by
      rw [UInt32.lt_iff_toNat_lt] at hshort
      rw [UInt32.le_iff_toNat_le] at hlength
      rw [← UInt32.toNat_inj]
      omega
    subst hall
    rw [UInt32.sub_self] at hadvance
    obtain ⟨⟨last, rest⟩, hwalk, hadvance⟩ := Option.bind_eq_some_iff.mp hadvance
    obtain ⟨-, rfl⟩ := Prod.mk.inj (Option.some.inj hadvance)
    change buf.walkLoop 1 buf.current 0 = _ at hwalk
    have hzero : ¬(0 : UInt32) > buf.blockSize := UInt32.not_lt.mpr (UInt32.zero_le)
    simp only [walkLoop, hblock, Option.bind_eq_bind, Option.bind_some, if_neg hzero] at hwalk
    obtain ⟨following, -, hwalk⟩ := Option.bind_eq_some_iff.mp hwalk
    obtain ⟨-, rfl⟩ := Prod.mk.inj (Option.some.inj hwalk)
    exact (congrArg _ (List.append_nil _)).trans (List.append_nil _)

theorem get_readable (hrefines : buf.Refines base flat) {length : UInt32}
    (hread : flat.Readable length.toNat) :
    ∃ pos chunks, buf.advance length = some (pos, chunks) ∧
      buf.get length = some ({ buf with current := pos },
        some (chunks.flatMap (Chunks.load buf.bytes))) ∧
      pos.position.toNat = buf.current.position.toNat + length.toNat := by
  obtain ⟨hroom, hfits⟩ := hrefines.room_of_readable hread
  obtain ⟨pos, chunks, hadvance, -, hposition, -⟩ :=
    hrefines.current.advance hrefines.chain.size hrefines.chain.nodup length hroom hfits
  have hcheck := (hrefines.readable_iff length).mpr hread
  refine ⟨pos, chunks, hadvance, ?_, hposition⟩
  unfold LinkedBuffer.get
  rw [hcheck, hadvance]
  rfl

private theorem remaining_le {limit : Nat} (hrefines : buf.Refines base flat)
    (hlimit : flat.limit = some limit) (hblock : buf.current.block ≠ buf.limit.block)
    (hdata : flat.position < limit) :
    buf.current.remaining.toNat ≤ limit - flat.position := by
  obtain ⟨hlimitAt, hlimitPosition⟩ := (hlimit ▸ hrefines.limit).some
  obtain ⟨number, block, hcursor⟩ := hrefines.current
  obtain ⟨last, lastBlock, hlast⟩ := hlimitAt
  have hposition := hrefines.position
  have hle := hcursor.number_le hlast (by omega)
  have hlt : number < last := by
    refine Nat.lt_of_le_of_ne hle fun heq => hblock ?_
    subst heq
    rw [hcursor.block, hlast.block, ← hcursor.inChain, ← hlast.inChain]
  have hmul : (number + 1) * buf.blockSize.toNat ≤ last * buf.blockSize.toNat :=
    Nat.mul_le_mul_right _ hlt
  have hsucc : (number + 1) * buf.blockSize.toNat =
      number * buf.blockSize.toNat + buf.blockSize.toNat := Nat.succ_mul _ _
  have hsplit := hcursor.split
  have hindex := hcursor.index
  have hlastIndex := hlast.index
  omega

private theorem data_le {limit : Nat} (hrefines : buf.Refines base flat)
    (hlimit : flat.limit = some limit) (hblock : buf.current.block = buf.limit.block) :
    limit - flat.position ≤ buf.current.remaining.toNat := by
  obtain ⟨hlimitAt, hlimitPosition⟩ := (hlimit ▸ hrefines.limit).some
  obtain ⟨number, block, hcursor⟩ := hrefines.current
  obtain ⟨last, lastBlock, hlast⟩ := hlimitAt
  have hposition := hrefines.position
  have hsame : block = lastBlock := by
    rw [hcursor.block, hlast.block] at hblock
    exact Option.some.inj hblock
  have hnumber : number = last := by
    obtain ⟨hlt, hget⟩ := List.getElem?_eq_some_iff.mp hcursor.inChain
    obtain ⟨hlt', hget'⟩ := List.getElem?_eq_some_iff.mp hlast.inChain
    exact (List.Nodup.getElem_inj_iff hrefines.chain.nodup).mp (by rw [hget, hget', hsame])
  subst hnumber
  have hsplit := hcursor.split
  have hindex := hcursor.index
  have hlastSplit := hlast.split
  have hlastIndex := hlast.index
  omega

/-- `direct_get` is right when it reports a length that is in the block and below the
limit, and nothing only when there is nothing. -/
private theorem offered_of_length (hrefines : buf.Refines base flat) {limit : Nat}
    (hlimit : flat.limit = some limit) (ptr : Option Nat × Nat) (length : UInt32)
    (hdirect : buf.directGet = some (ptr, length))
    (hblock : length ≤ buf.current.remaining) (hdata : length.toNat ≤ limit - flat.position)
    (hsome : flat.position < limit → 0 < length.toNat) :
    ∃ block limitLength,
      buf.directGet = some ((some block, buf.current.currBuf), limitLength) ∧
        limitLength ≤ buf.remaining ∧ (0 < buf.remaining → 0 < limitLength) ∧
        ∃ next, buf.get limitLength = some (next,
          some (Chunks.load buf.bytes ⟨block, buf.current.currBuf, limitLength.toNat⟩)) := by
  obtain ⟨number, block, hcursor⟩ := hrefines.current
  have hremaining : buf.remaining.toNat = limit - flat.position := by
    rw [hrefines.remaining, FlatBuffer.remaining, hlimit]
    rfl
  have hptr : ptr = (some block, buf.current.currBuf) := by
    unfold LinkedBuffer.directGet at hdirect
    split_ifs at hdirect <;>
      exact (Prod.mk.inj (Option.some.inj hdirect)).1.symm.trans (by rw [hcursor.block])
  obtain ⟨pos, chunks, hadvance, hget, -⟩ := get_readable hrefines ⟨limit, hlimit, hdata⟩
  rw [advance_load hcursor.block hblock hadvance] at hget
  refine ⟨block, length, hptr ▸ hdirect, ?_, fun hpos => ?_, _, hget⟩
  · rw [UInt32.le_iff_toNat_le]
    omega
  · have hpos : 0 < buf.remaining.toNat := UInt32.lt_iff_toNat_lt.mp hpos
    rw [UInt32.lt_iff_toNat_lt]
    exact hsome (by omega)

theorem committed_of_length (hrefines : buf.Refines base flat) {limit : Nat}
    (hlimit : flat.limit = some limit) {length : UInt32} (next : LinkedBuffer)
    (hmoved : next.current.position = buf.current.position + length)
    (hdata : length.toNat ≤ limit - flat.position) :
    length ≤ buf.remaining ∧ ∃ other bytes, buf.get length = some (other, some bytes) ∧
      next.current.position = other.current.position ∧
      next.current.position.toNat = buf.current.position.toNat + length.toNat := by
  have hremaining : buf.remaining.toNat = limit - flat.position := by
    rw [hrefines.remaining, FlatBuffer.remaining, hlimit]
    rfl
  obtain ⟨pos, chunks, hadvance, hget, hposition⟩ :=
    get_readable hrefines ⟨limit, hlimit, hdata⟩
  have hsame : next.current.position = pos.position :=
    hmoved.trans (advance_position hadvance).symm
  refine ⟨?_, _, _, hget, hsame, ?_⟩
  · rw [UInt32.le_iff_toNat_le]
    omega
  · rw [hsame]
    exact hposition

private theorem at_advanced (hrefines : buf.Refines base flat) {length : UInt32}
    (hblock : length ≤ buf.current.remaining)
    (hinside : base + buf.current.position.toNat + length.toNat < buf.room)
    (hfits : buf.current.position.toNat + length.toNat < 2 ^ 32) :
    buf.At base { buf.current with
      position := buf.current.position + length
      currBuf := buf.current.currBuf + length.toNat
      remaining := buf.current.remaining - length } := by
  obtain ⟨number, block, hcursor⟩ := hrefines.current
  have hsum : (buf.current.position + length).toNat =
      buf.current.position.toNat + length.toNat := by
    rw [UInt32.toNat_add, Nat.mod_eq_of_lt hfits]
  have hrest : (buf.current.remaining - length).toNat =
      buf.current.remaining.toNat - length.toNat := UInt32.toNat_sub_of_le _ _ hblock
  rw [UInt32.le_iff_toNat_le] at hblock
  have hsplit := hcursor.split
  have hindex := hcursor.index
  refine ⟨number, block, hcursor.inChain, hcursor.block, ?_, ?_, ?_, hcursor.valid⟩
  · dsimp only
    omega
  · dsimp only
    omega
  · change _ < buf.room
    dsimp only
    omega

private theorem at_next (hrefines : buf.Refines base flat)
    (hinside : base + buf.current.position.toNat + buf.current.remaining.toNat < buf.room)
    (hfits : buf.current.position.toNat + buf.current.remaining.toNat < 2 ^ 32) :
    ∃ block following, buf.current.block = some block ∧ buf.next block = some following ∧
      buf.At base ⟨buf.current.position + buf.current.remaining, buf.blockSize, some following, 0,
        buf.current.invalid⟩ := by
  obtain ⟨number, block, hcursor⟩ := hrefines.current
  have hsum : (buf.current.position + buf.current.remaining).toNat =
      buf.current.position.toNat + buf.current.remaining.toNat := by
    rw [UInt32.toNat_add, Nat.mod_eq_of_lt hfits]
  have hsplit := hcursor.split
  have hindex := hcursor.index
  have hsucc : (number + 1) * buf.blockSize.toNat =
      number * buf.blockSize.toNat + buf.blockSize.toNat := Nat.succ_mul _ _
  have hlt : number + 1 < buf.bufList.length := by
    refine Nat.lt_of_mul_lt_mul_right (a := buf.blockSize.toNat) ?_
    change _ < buf.room
    omega
  refine ⟨block, buf.bufList[number + 1], hcursor.block, ?_, number + 1, _,
    List.getElem?_eq_getElem hlt, rfl, ?_, ?_, ?_, hcursor.valid⟩
  · rw [next_eq hrefines.chain.nodup hcursor.inChain]
    exact List.getElem?_eq_getElem hlt
  · dsimp only
    omega
  · dsimp only
    omega
  · change _ < buf.room
    dsimp only
    omega

theorem commitGet_spec (hrefines : buf.Refines base flat) {limit : Nat}
    (hlimit : flat.limit = some limit) {length : UInt32} (hlevel : Level buf)
    (hstraight : Straight buf length) :
    buf.commitGet (buf.current.block, buf.current.currBuf) length = some (buf, false) ∨
    ∃ pos, buf.commitGet (buf.current.block, buf.current.currBuf) length =
        some ({ buf with current := pos }, true) ∧
      buf.At base pos ∧ pos.position = buf.current.position + length ∧
      length.toNat ≤ limit - flat.position := by
  obtain ⟨hlimitAt, hlimitPosition⟩ := (hlimit ▸ hrefines.limit).some
  have hvalid := hlimitAt.valid
  have hlimitInside := hlimitAt.inside
  have hlimitLt : buf.limit.position.toNat < 2 ^ 32 := buf.limit.position.toNat_lt
  have hposition := hrefines.position
  have horder := (hrefines.order limit hlimit).1
  have hremaining : buf.remaining.toNat = limit - flat.position := by
    rw [hrefines.remaining, FlatBuffer.remaining, hlimit]
    rfl
  by_cases hblock : buf.current.block = buf.limit.block
  · by_cases hpast : buf.current.position + length > buf.limit.position
    · exact Or.inl (by simp [LinkedBuffer.commitGet, hvalid, hblock, hpast])
    · have hfits : buf.current.position.toNat + length.toNat < 2 ^ 32 :=
        (hstraight hblock).resolve_right hpast
      have hsum : (buf.current.position + length).toNat =
          buf.current.position.toNat + length.toNat := by
        rw [UInt32.toNat_add, Nat.mod_eq_of_lt hfits]
      have hwithin := hpast
      rw [gt_iff_lt, UInt32.lt_iff_toNat_lt, hsum] at hwithin
      have hdata := data_le hrefines hlimit hblock
      refine Or.inr ⟨_, ?_, at_advanced hrefines ?_ (by omega) hfits, rfl, by omega⟩
      · simp [LinkedBuffer.commitGet, hvalid, hblock, hpast]
      · rw [UInt32.le_iff_toNat_le]
        omega
  · have hrest : buf.current.remaining.toNat ≤ limit - flat.position := by
      rcases Nat.lt_or_ge flat.position limit with hlt | hge
      · exact remaining_le hrefines hlimit hblock hlt
      · have hnothing : buf.remaining = 0 := by
          rw [← UInt32.toNat_inj, hremaining]
          exact Nat.sub_eq_zero_of_le hge
        rw [(hlevel.resolve_left hblock).mpr hnothing]
        exact Nat.zero_le _
    by_cases hshort : buf.current.remaining < length
    · exact Or.inl (by simp [LinkedBuffer.commitGet, hvalid, hblock, hshort])
    · by_cases hall : buf.current.remaining = length
      · subst hall
        obtain ⟨block, following, hcurrent, hnext, hat⟩ :=
          at_next hrefines (by omega) (by omega)
        refine Or.inr ⟨_, ?_, hat, rfl, hrest⟩
        rw [hcurrent] at hblock
        simp [LinkedBuffer.commitGet, hvalid, hblock, hcurrent, hnext]
      · have hless : length.toNat ≤ buf.current.remaining.toNat := by
          rw [UInt32.lt_iff_toNat_lt] at hshort
          omega
        refine Or.inr ⟨_, ?_, at_advanced hrefines (UInt32.le_iff_toNat_le.mpr hless) (by omega)
          (by omega), rfl, by omega⟩
        simp [LinkedBuffer.commitGet, hvalid, hblock, hshort, hall]

/-- Reading in place is right in just the states where cursor and limit are level,
and for just the lengths that do not wrap. -/
theorem serves_iff (hrefines : buf.Refines base flat) {limit : Nat}
    (hlimit : flat.limit = some limit) {length : UInt32} :
    Serves buf length ↔ Level buf ∧ Straight buf length := by
  obtain ⟨hlimitAt, hlimitPosition⟩ := (hlimit ▸ hrefines.limit).some
  have hvalid := hlimitAt.valid
  have hlimitLt : buf.limit.position.toNat < 2 ^ 32 := buf.limit.position.toNat_lt
  have hposition := hrefines.position
  have horder := (hrefines.order limit hlimit).1
  have hremaining : buf.remaining.toNat = limit - flat.position := by
    rw [hrefines.remaining, FlatBuffer.remaining, hlimit]
    rfl
  have hzero : buf.remaining = 0 ↔ limit ≤ flat.position := by
    rw [← UInt32.toNat_inj, hremaining]
    exact Nat.sub_eq_zero_iff_le
  constructor
  · rintro ⟨⟨block, limitLength, hdirect, hle, hsome, -⟩, next, result, hcommit, hresult⟩
    refine ⟨?_, fun hblock => ?_⟩
    · by_cases hblock : buf.current.block = buf.limit.block
      · exact Or.inl hblock
      · have hlength : buf.current.remaining = limitLength := by
          simp only [LinkedBuffer.directGet, hvalid, Bool.false_eq_true, if_false,
            if_neg hblock] at hdirect
          exact (Prod.mk.inj (Option.some.inj hdirect)).2
        subst hlength
        refine Or.inr ⟨fun hnone => ?_, fun hnone => ?_⟩
        · by_contra hne
          have hpos : 0 < buf.remaining := UInt32.pos_iff_ne_zero.mpr hne
          rw [hnone] at hsome
          exact absurd (hsome hpos) (by decide)
        · rw [hnone] at hle
          exact UInt32.le_zero_iff.mp hle
    · by_contra hwrap
      rw [not_or, UInt32.not_lt] at hwrap
      obtain ⟨hwrap, hbelow⟩ := hwrap
      have haccepted : result = true := by
        have hnot : ¬buf.current.position + length > buf.limit.position := UInt32.not_lt.mpr hbelow
        simp only [LinkedBuffer.commitGet, hvalid, Bool.false_or, ne_eq, not_true_eq_false,
          decide_false, Bool.false_eq_true, if_false, if_pos hblock, if_neg hnot] at hcommit
        exact (Prod.mk.inj (Option.some.inj hcommit)).2.symm
      have hless := UInt32.le_iff_toNat_le.mp (hresult haccepted).1
      omega
  · rintro ⟨hlevel, hstraight⟩
    refine ⟨?_, ?_⟩
    · by_cases hblock : buf.current.block = buf.limit.block
      · have hdata := data_le hrefines hlimit hblock
        have hsub := hrefines.sub_position hlimit
        refine offered_of_length hrefines hlimit (buf.current.block, buf.current.currBuf)
          (buf.limit.position - buf.current.position) ?_ ?_ (by omega) (by omega)
        · simp [LinkedBuffer.directGet, hvalid, hblock]
        · rw [UInt32.le_iff_toNat_le]
          omega
      · have hrest := hlevel.resolve_left hblock
        refine offered_of_length hrefines hlimit (buf.current.block, buf.current.currBuf)
          buf.current.remaining ?_ (UInt32.le_refl _) ?_ fun hlt => ?_
        · simp [LinkedBuffer.directGet, hvalid, hblock]
        · rcases Nat.lt_or_ge flat.position limit with hlt | hge
          · exact remaining_le hrefines hlimit hblock hlt
          · rw [hrest.mpr (hzero.mpr hge)]
            exact Nat.zero_le _
        · refine Nat.pos_of_ne_zero fun hnone => ?_
          have hnothing := hzero.mp (hrest.mp (UInt32.toNat_inj.mp hnone))
          omega
    · rcases commitGet_spec hrefines hlimit hlevel hstraight with
        hrefused | ⟨pos, hcommit, -, hmoved, hdata⟩
      · exact ⟨buf, false, hrefused, fun h => absurd h Bool.false_ne_true⟩
      · exact ⟨_, true, hcommit, fun _ =>
          committed_of_length hrefines hlimit { buf with current := pos } hmoved hdata⟩

end Libsax.Net.Access
