import Libsax.Net.FlatBuffer
import Libsax.Net.LinkedBuffer

/-! How the blocks of a `linked_buffer` hold a flat array: logical position `p`
is flat index `base + p` of the chain, where `base` is the offset of `_zero` in
the first block. -/
namespace Libsax.Net

open Libsax.Lib Libsax.Lib.Chunks

namespace LinkedBuffer

def room (buf : LinkedBuffer) : Nat := buf.bufList.length * buf.blockSize.toNat

/-- A position that is consistent with the chain. At the border of two blocks it
may stand at the end of the first or at the start of the second one, but a
block always follows. -/
structure Cursor (blocks : List Nat) (size base : Nat) (pos : Pos) (number block : Nat) :
    Prop where
  inChain : blocks[number]? = some block
  block : pos.block = some block
  split : pos.currBuf + pos.remaining.toNat = size
  index : number * size + pos.currBuf = base + pos.position.toNat
  inside : base + pos.position.toNat < blocks.length * size
  valid : pos.invalid = false

def At (buf : LinkedBuffer) (base : Nat) (pos : Pos) : Prop :=
  ∃ number block, Cursor buf.bufList buf.blockSize.toNat base pos number block

/-- An optional position and its flat counterpart. -/
def Tracks (buf : LinkedBuffer) (base : Nat) (pos : Pos) (flat : Option Nat) : Prop :=
  (pos.invalid = true ∧ flat = none) ∨ (buf.At base pos ∧ flat = some pos.position.toNat)

structure Chain (buf : LinkedBuffer) (base : Nat) : Prop where
  size : 0 < buf.blockSize.toNat
  nodup : buf.bufList.Nodup
  fresh : ∀ block ∈ buf.bufList, block < buf.nodes
  zero : buf.zero =
    ⟨0, UInt32.ofNat (buf.blockSize.toNat - base), buf.bufList.head?, base, false⟩
  baseLe : base ≤ buf.blockSize.toNat
  capacity : buf.capacity = UInt32.ofNat buf.room
  usable : buf.usable = UInt32.ofNat (buf.room - base)

structure Refines (buf : LinkedBuffer) (base : Nat) (flat : FlatBuffer) : Prop where
  chain : buf.Chain base
  current : buf.At base buf.current
  position : flat.position = buf.current.position.toNat
  mark : buf.Tracks base buf.mark flat.mark
  limit : buf.Tracks base buf.limit flat.limit
  order : ∀ limit, flat.limit = some limit →
    flat.position ≤ limit ∧ ∀ mark, flat.mark = some mark → mark ≤ limit
  cells : ∀ index byte, flat.cells index = some byte →
    cell buf.bytes buf.bufList buf.blockSize.toNat (base + index) = some byte

variable {buf other : LinkedBuffer} {base : Nat} {flat : FlatBuffer}

theorem next_eq (hnodup : buf.bufList.Nodup) {number block : Nat}
    (hblock : buf.bufList[number]? = some block) : buf.next block = buf.bufList[number + 1]? := by
  obtain ⟨hlt, rfl⟩ := List.getElem?_eq_some_iff.mp hblock
  unfold next
  rw [hnodup.idxOf_getElem]

private theorem walkLoop_covers (hsize : 0 < buf.blockSize.toNat) (hnodup : buf.bufList.Nodup)
    {fuel : Nat} (pos : Pos) {number block : Nat} (remaining : UInt32)
    (hpos : pos.block = some block) (hblock : buf.bufList[number]? = some block)
    (hfuel : remaining.toNat < fuel)
    (hroom : (number + 1) * buf.blockSize.toNat + remaining.toNat < buf.room) :
    ∃ final chunks number' block', buf.walkLoop fuel pos remaining = some (final, chunks) ∧
      final.block = some block' ∧ buf.bufList[number']? = some block' ∧
      final.currBuf + final.remaining.toNat = buf.blockSize.toNat ∧
      number' * buf.blockSize.toNat + final.currBuf =
        (number + 1) * buf.blockSize.toNat + remaining.toNat ∧
      final.invalid = pos.invalid ∧
      Covers buf.bufList buf.blockSize.toNat ((number + 1) * buf.blockSize.toNat) chunks
        ((number + 1) * buf.blockSize.toNat + remaining.toNat) := by
  induction fuel generalizing pos number block remaining with
  | zero => exact absurd hfuel (Nat.not_lt_zero _)
  | succ fuel ih =>
    have hlt : number + 1 < buf.bufList.length := by
      by_contra hge
      have := Nat.mul_le_mul_right buf.blockSize.toNat (Nat.le_of_not_lt hge)
      unfold room at hroom
      omega
    obtain ⟨following, hfollowing⟩ : ∃ following, buf.bufList[number + 1]? = some following :=
      ⟨_, List.getElem?_eq_getElem hlt⟩
    have hnext : buf.next block = some following := (next_eq hnodup hblock).trans hfollowing
    have haddress : ∀ index, index < buf.blockSize.toNat →
        address buf.bufList buf.blockSize.toNat ((number + 1) * buf.blockSize.toNat + index) =
          some (following, 0 + index) := by
      intro index hindex
      rw [Nat.zero_add]
      exact address_block hsize hfollowing hindex
    simp only [walkLoop, hpos, hnext, Option.bind_eq_bind, Option.bind_some, gt_iff_lt,
      UInt32.lt_iff_toNat_lt]
    by_cases hlong : buf.blockSize.toNat < remaining.toNat
    · have hrest : (remaining - buf.blockSize).toNat =
          remaining.toNat - buf.blockSize.toNat :=
        UInt32.toNat_sub_of_le _ _ (UInt32.le_iff_toNat_le.mpr (Nat.le_of_lt hlong))
      have hsucc : (number + 1 + 1) * buf.blockSize.toNat =
          (number + 1) * buf.blockSize.toNat + buf.blockSize.toNat := Nat.succ_mul _ _
      obtain ⟨final, chunks, number', block', hwalk, hfinal, hblock', hsplit, hindex, hinvalid,
          hcovers⟩ :=
        ih { pos with
            block := some following
            currBuf := buf.blockSize.toNat
            remaining := buf.blockSize - buf.blockSize }
          (remaining - buf.blockSize) rfl hfollowing (by omega) (by omega)
      rw [if_pos hlong, if_pos (by rw [hrest]; change 0 < _; omega), hwalk]
      refine ⟨final, _, number', block', rfl, hfinal, hblock', hsplit, by omega, hinvalid,
        haddress, ?_⟩
      rw [← hsucc]
      convert hcovers using 1
      omega
    · have htmp : (remaining - remaining).toNat = 0 := by simp
      rw [if_neg hlong, if_neg (by rw [htmp]; exact Nat.lt_irrefl 0)]
      refine ⟨_, _, number + 1, following, rfl, rfl, hfollowing, ?_, rfl, rfl, ?_, rfl⟩
      · change remaining.toNat + (buf.blockSize - remaining).toNat = _
        rw [UInt32.toNat_sub_of_le _ _ (UInt32.le_iff_toNat_le.mpr (Nat.le_of_not_lt hlong))]
        omega
      · intro index hindex
        have hindex : index < remaining.toNat := hindex
        exact haddress index (by omega)

theorem At.advance (hsize : 0 < buf.blockSize.toNat) (hnodup : buf.bufList.Nodup)
    (hcurrent : buf.At base buf.current) (length : UInt32)
    (hroom : base + buf.current.position.toNat + length.toNat < buf.room)
    (hfits : buf.current.position.toNat + length.toNat < 2 ^ 32) :
    ∃ pos chunks, buf.advance length = some (pos, chunks) ∧ buf.At base pos ∧
      pos.position.toNat = buf.current.position.toNat + length.toNat ∧
      Covers buf.bufList buf.blockSize.toNat (base + buf.current.position.toNat) chunks
        (base + buf.current.position.toNat + length.toNat) := by
  obtain ⟨number, block, hcursor⟩ := hcurrent
  have hposition : (buf.current.position + length).toNat =
      buf.current.position.toNat + length.toNat := by
    rw [UInt32.toNat_add, Nat.mod_eq_of_lt hfits]
  have hsplit := hcursor.split
  have hindex := hcursor.index
  have haddress : ∀ index, index < buf.current.remaining.toNat →
      address buf.bufList buf.blockSize.toNat (base + buf.current.position.toNat + index) =
        some (block, buf.current.currBuf + index) := by
    intro index hlt
    rw [← hindex, Nat.add_assoc]
    exact address_block hsize hcursor.inChain (by omega)
  simp only [LinkedBuffer.advance, hcursor.block, Option.bind_eq_bind, Option.bind_some,
    UInt32.lt_iff_toNat_lt]
  by_cases hshort : length.toNat < buf.current.remaining.toNat
  · have hsub : (buf.current.remaining - length).toNat =
        buf.current.remaining.toNat - length.toNat :=
      UInt32.toNat_sub_of_le _ _ (UInt32.le_iff_toNat_le.mpr (Nat.le_of_lt hshort))
    rw [if_pos hshort]
    refine ⟨_, _, rfl, ⟨number, block, ?_⟩, hposition, ?_, rfl⟩
    · refine ⟨hcursor.inChain, rfl, ?_, ?_, ?_, hcursor.valid⟩
      · dsimp only
        omega
      · dsimp only
        omega
      · change _ < buf.room
        dsimp only
        omega
    · exact fun index hlt => haddress index (by dsimp only at hlt; omega)
  · have hsub : (length - buf.current.remaining).toNat =
        length.toNat - buf.current.remaining.toNat :=
      UInt32.toNat_sub_of_le _ _ (UInt32.le_iff_toNat_le.mpr (Nat.le_of_not_lt hshort))
    have hsucc : (number + 1) * buf.blockSize.toNat =
        number * buf.blockSize.toNat + buf.blockSize.toNat := Nat.succ_mul _ _
    obtain ⟨final, chunks, number', block', hwalk, hfinal, hblock', hsplit', hindex', hinvalid,
        hcovers⟩ :=
      walkLoop_covers hsize hnodup buf.current (length - buf.current.remaining) hcursor.block
        hcursor.inChain (Nat.lt_succ_self _) (by omega)
    have hstop : (number + 1) * buf.blockSize.toNat + (length - buf.current.remaining).toNat =
        base + buf.current.position.toNat + length.toNat := by omega
    rw [if_neg hshort, hwalk]
    refine ⟨_, _, rfl, ⟨number', block', hblock', hfinal, hsplit', ?_, ?_, ?_⟩, hposition,
      haddress, ?_⟩
    · dsimp only
      omega
    · change _ < buf.room
      dsimp only
      omega
    · exact hinvalid.trans hcursor.valid
    · have hstart : (number + 1) * buf.blockSize.toNat =
          base + buf.current.position.toNat + buf.current.remaining.toNat := by omega
      rw [hstop, hstart] at hcovers
      exact hcovers

/-- Everything but the chain and its counters is the same, and the chain only grew. -/
def Grown (buf other : LinkedBuffer) : Prop :=
  ∃ more nodes capacity usable, other = { buf with
    bufList := buf.bufList ++ more
    nodes := nodes
    capacity := capacity
    usable := usable }

theorem Grown.refl (buf : LinkedBuffer) : Grown buf buf :=
  ⟨[], buf.nodes, buf.capacity, buf.usable, by rw [List.append_nil]⟩

theorem Grown.trans {last : LinkedBuffer} (hfirst : Grown buf other) (hsecond : Grown other last) :
    Grown buf last := by
  obtain ⟨more, nodes, capacity, usable, rfl⟩ := hfirst
  obtain ⟨others, nodes', capacity', usable', rfl⟩ := hsecond
  exact ⟨more ++ others, nodes', capacity', usable', by simp⟩

theorem Grown.pushBack (buf : LinkedBuffer) : Grown buf buf.pushBack :=
  ⟨[buf.nodes], _, _, _, rfl⟩

theorem Grown.current_eq (hgrown : Grown buf other) : other.current = buf.current := by
  obtain ⟨more, nodes, capacity, usable, rfl⟩ := hgrown
  rfl

theorem Grown.limit_eq (hgrown : Grown buf other) : other.limit = buf.limit := by
  obtain ⟨more, nodes, capacity, usable, rfl⟩ := hgrown
  rfl

theorem Grown.blockSize_eq (hgrown : Grown buf other) : other.blockSize = buf.blockSize := by
  obtain ⟨more, nodes, capacity, usable, rfl⟩ := hgrown
  rfl

theorem Grown.room_le (hgrown : Grown buf other) : buf.room ≤ other.room := by
  obtain ⟨more, nodes, capacity, usable, rfl⟩ := hgrown
  exact Nat.mul_le_mul_right _ (by simp)

theorem Grown.at (hgrown : Grown buf other) {pos : Pos} (hat : buf.At base pos) :
    other.At base pos := by
  have hroom := hgrown.room_le
  obtain ⟨more, nodes, capacity, usable, rfl⟩ := hgrown
  obtain ⟨number, block, hcursor⟩ := hat
  refine ⟨number, block, ?_, hcursor.block, hcursor.split, hcursor.index,
    Nat.lt_of_lt_of_le hcursor.inside hroom, hcursor.valid⟩
  dsimp only
  rw [List.getElem?_append_left (List.getElem?_eq_some_iff.mp hcursor.inChain).1]
  exact hcursor.inChain

theorem Grown.refines (hgrown : Grown buf other) (hrefines : buf.Refines base flat)
    (hchain : other.Chain base) : other.Refines base flat := by
  have hat : ∀ {pos}, buf.At base pos → other.At base pos := hgrown.at
  obtain ⟨more, nodes, capacity, usable, rfl⟩ := hgrown
  exact ⟨hchain, hat hrefines.current, hrefines.position,
    hrefines.mark.imp_right fun h => ⟨hat h.1, h.2⟩,
    hrefines.limit.imp_right fun h => ⟨hat h.1, h.2⟩, hrefines.order,
    fun index byte hbyte => cell_append (hrefines.cells index byte hbyte)⟩

theorem reserveLoop_grows (size : UInt32) (memory : Nat) (buf : LinkedBuffer) :
    Grown buf (reserveLoop size memory buf).1 := by
  induction memory generalizing buf with
  | zero => exact .refl buf
  | succ memory ih =>
    rw [reserveLoop]
    split_ifs
    · exact (Grown.pushBack buf).trans (ih buf.pushBack)
    · exact .refl buf

theorem ensure_grows {memory : Nat} {length : UInt32} {result : Bool}
    (hensure : buf.ensure memory length = (other, result)) : Grown buf other := by
  have hgrows : Grown buf (buf.ensure memory length).1 := by
    unfold ensure reserve
    split_ifs
    · exact reserveLoop_grows _ memory buf
    · exact .refl buf
  rw [hensure] at hgrows
  exact hgrows

theorem room_pushBack (buf : LinkedBuffer) :
    buf.pushBack.room = buf.room + buf.blockSize.toNat := by
  simp [room, LinkedBuffer.pushBack, Nat.succ_mul]

theorem Chain.pushBack (hchain : buf.Chain base) (hroom : base < buf.room) :
    buf.pushBack.Chain base := by
  have hgrow := buf.room_pushBack
  have hsize : buf.blockSize = UInt32.ofNat buf.blockSize.toNat := UInt32.ofNat_toNat.symm
  refine ⟨hchain.size, ?_, ?_, ?_, hchain.baseLe, ?_, ?_⟩
  · have hnew : buf.nodes ∉ buf.bufList := fun hmem => Nat.lt_irrefl _ (hchain.fresh _ hmem)
    simpa [LinkedBuffer.pushBack] using hchain.nodup.concat hnew
  · intro block hmem
    rcases List.mem_append.mp hmem with h | h
    · exact Nat.lt_succ_of_lt (hchain.fresh block h)
    · rw [List.mem_singleton.mp h]
      exact Nat.lt_succ_self _
  · change buf.zero = ⟨0, _, (buf.bufList ++ [buf.nodes]).head?, base, false⟩
    rw [hchain.zero]
    cases hlist : buf.bufList with
    | nil => simp [room, hlist] at hroom
    | cons first rest => rfl
  · rw [hgrow, UInt32.ofNat_add, ← hsize, ← hchain.capacity]
    rfl
  · have hsplit : buf.room + buf.blockSize.toNat - base =
        (buf.room - base) + buf.blockSize.toNat := by omega
    rw [hgrow, hsplit, UInt32.ofNat_add, ← hsize, ← hchain.usable]
    rfl

/-- The loop of `reserve` ends: some number of blocks more satisfies it. -/
def Reaches (buf : LinkedBuffer) (size : UInt32) : Prop :=
  ∃ blocks : Nat, size ≤ buf.usable + UInt32.ofNat blocks * buf.blockSize

private theorem reserveLoop_grown {size : UInt32} {memory : Nat} (hchain : buf.Chain base)
    (hroom : base < buf.room)
    (hreaches : ∃ blocks ≤ memory, size ≤ buf.usable + UInt32.ofNat blocks * buf.blockSize) :
    ∃ other, reserveLoop size memory buf = (other, true) ∧ Grown buf other ∧ other.Chain base ∧
      size ≤ other.usable := by
  induction memory generalizing buf with
  | zero =>
    obtain ⟨blocks, hzero, hle⟩ := hreaches
    rw [Nat.le_zero.mp hzero] at hle
    have husable : size ≤ buf.usable := by simpa using hle
    refine ⟨buf, ?_, .refl buf, hchain, husable⟩
    simp [reserveLoop, UInt32.not_lt.mpr husable]
  | succ memory ih =>
    rw [reserveLoop]
    by_cases hlt : buf.usable < size
    · rw [if_pos hlt]
      obtain ⟨blocks, hblocks, hle⟩ := hreaches
      obtain ⟨blocks, rfl⟩ : ∃ less, blocks = less + 1 := by
        cases blocks with
        | zero =>
          have husable : size ≤ buf.usable := by simpa using hle
          exact absurd hlt (UInt32.not_lt.mpr husable)
        | succ less => exact ⟨less, rfl⟩
      obtain ⟨other, hloop, hgrown, hchain', husable⟩ :=
        ih (hchain.pushBack hroom) (Nat.lt_of_lt_of_le hroom (Grown.pushBack buf).room_le)
          ⟨blocks, Nat.le_of_succ_le_succ hblocks, by
            have hsum : buf.usable + UInt32.ofNat (blocks + 1) * buf.blockSize =
                buf.usable + buf.blockSize + UInt32.ofNat blocks * buf.blockSize := by
              rw [UInt32.ofNat_add, UInt32.add_mul, UInt32.add_assoc, UInt32.add_comm buf.blockSize]
              congr 2
              exact UInt32.one_mul _
            exact hsum ▸ hle⟩
      exact ⟨other, hloop, (Grown.pushBack buf).trans hgrown, hchain', husable⟩
    · rw [if_neg hlt]
      exact ⟨buf, rfl, .refl buf, hchain, UInt32.not_lt.mp hlt⟩

/-- The call stays below the last position, and the loop of `reserve` ends. -/
structure Fits (buf : LinkedBuffer) (length : Nat) : Prop where
  bounded : buf.current.position.toNat + length < 2 ^ 32 - 1
  reaches : buf.Reaches (buf.current.position + UInt32.ofNat length + 1)

theorem Reaches.bounded {size : UInt32} (hreaches : buf.Reaches size) {memory : Nat}
    (hmemory : 2 ^ 32 ≤ memory + 1) :
    ∃ blocks ≤ memory, size ≤ buf.usable + UInt32.ofNat blocks * buf.blockSize := by
  obtain ⟨blocks, hle⟩ := hreaches
  refine ⟨blocks % 2 ^ 32, by omega, ?_⟩
  have hsame : UInt32.ofNat (blocks % 2 ^ 32) = UInt32.ofNat blocks := by
    rw [← UInt32.toNat_inj, UInt32.toNat_ofNat', UInt32.toNat_ofNat', Nat.mod_mod]
  rw [hsame]
  exact hle

theorem toNat_sum (position length : UInt32) (hbounded : position.toNat + length.toNat < 2 ^ 32 - 1) :
    (position + length + 1).toNat = position.toNat + length.toNat + 1 := by
  rw [UInt32.toNat_add, UInt32.toNat_add]
  change ((position.toNat + length.toNat) % 2 ^ 32 + 1) % 2 ^ 32 = _
  omega

theorem Fits.mono {length less : Nat} (hfits : buf.Fits length) (hle : less ≤ length) :
    buf.Fits less := by
  have hbounded := hfits.bounded
  have hnat : ∀ count, count ≤ length →
      (buf.current.position + UInt32.ofNat count + 1).toNat =
        buf.current.position.toNat + count + 1 := by
    intro count hcount
    have hcount : (UInt32.ofNat count).toNat = count := by
      rw [UInt32.toNat_ofNat', Nat.mod_eq_of_lt (by omega)]
    rw [toNat_sum _ _ (by omega), hcount]
  obtain ⟨blocks, hreaches⟩ := hfits.reaches
  refine ⟨by omega, blocks, UInt32.le_trans ?_ hreaches⟩
  rw [UInt32.le_iff_toNat_le, hnat less hle, hnat length (Nat.le_refl _)]
  omega

theorem Chain.room_of_usable (hchain : buf.Chain base) {size : UInt32} (hsize : size ≤ buf.usable)
    (hpos : 0 < size.toNat) : base + size.toNat ≤ buf.room := by
  rw [hchain.usable, UInt32.le_iff_toNat_le, UInt32.toNat_ofNat'] at hsize
  have := Nat.mod_le (buf.room - base) (2 ^ 32)
  omega

theorem Refines.ensure (hrefines : buf.Refines base flat) {memory : Nat}
    (hmemory : 2 ^ 32 ≤ memory + 1) (length : UInt32) (hfits : buf.Fits length.toNat) :
    ∃ other, buf.ensure memory length = (other, true) ∧ Grown buf other ∧
      other.Refines base flat ∧ other.current.position + length + 1 ≤ other.usable := by
  have hsize := hfits.reaches
  rw [UInt32.ofNat_toNat] at hsize
  unfold LinkedBuffer.ensure reserve
  by_cases hlt : buf.usable < buf.current.position + length + 1
  · have hroom : base < buf.room := by
      obtain ⟨_, _, hcursor⟩ := hrefines.current
      have hinside : base + buf.current.position.toNat < buf.room := hcursor.inside
      omega
    obtain ⟨other, hloop, hgrown, hchain, husable⟩ :=
      reserveLoop_grown hrefines.chain hroom (hsize.bounded hmemory)
    have hcurrent : other.current = buf.current := hgrown.current_eq
    rw [if_pos hlt]
    exact ⟨other, hloop, hgrown, hgrown.refines hrefines hchain, hcurrent ▸ husable⟩
  · rw [if_neg hlt]
    exact ⟨buf, rfl, .refl buf, hrefines, UInt32.not_lt.mp hlt⟩

end LinkedBuffer

end Libsax.Net
