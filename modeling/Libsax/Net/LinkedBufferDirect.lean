import Libsax.Net.LinkedBufferRefines

/-! A buffer as a queue of known bytes: it is written at the end, and read in
place, block by block, through `direct_get` and `commit_get`. -/
namespace Libsax.Net

open Libsax.Lib Libsax.Lib.Chunks

namespace LinkedBuffer

variable {buf other : LinkedBuffer} {base : Nat} {flat : FlatBuffer} {data : List UInt8}

/-- What a reader finds in a buffer that is being written. -/
def content (buf : LinkedBuffer) : List UInt8 :=
  match buf.flip.1.get buf.dataLength with
  | some (_, some bytes) => bytes
  | _ => []

/-- In writing mode, with `data` before the cursor. `_zero` stands inside its block. -/
structure Holds (buf : LinkedBuffer) (data : List UInt8) : Prop where
  start : buf.zero.currBuf < buf.blockSize.toNat
  refines : ∃ base flat, buf.Refines base flat ∧ flat.limit = none ∧
    flat.position = data.length ∧ ∀ index, index < data.length → flat.cells index = data[index]?

/-- In reading mode, with `data` from the cursor to the limit. The cursor stands
inside its block as long as there is something to read. -/
structure Offers (buf : LinkedBuffer) (data : List UInt8) : Prop where
  inside : data ≠ [] → buf.current.currBuf < buf.blockSize.toNat
  refines : ∃ base flat, buf.Refines base flat ∧
    flat.limit = some (flat.position + data.length) ∧
    ∀ index, index < data.length → flat.cells (flat.position + index) = data[index]?

theorem create_holds {blockSize : UInt32} (hsize : 0 < blockSize.toNat)
    (bytes : Nat → Nat → UInt8) : (create blockSize bytes).Holds [] :=
  ⟨hsize, 0, .create, create_refines hsize bytes, rfl, rfl, fun _ h => absurd h (by simp)⟩

theorem Holds.position (hholds : buf.Holds data) : buf.current.position.toNat = data.length := by
  obtain ⟨base, flat, hrefines, -, hposition, -⟩ := hholds.refines
  rw [← hrefines.position, hposition]

theorem Holds.position_eq_zero (hholds : buf.Holds data) :
    buf.current.position = 0 ↔ data = [] := by
  rw [← UInt32.toNat_inj, hholds.position]
  exact List.length_eq_zero_iff

theorem Offers.remaining (hoffers : buf.Offers data) : buf.remaining.toNat = data.length := by
  obtain ⟨base, flat, hrefines, hlimit, -⟩ := hoffers.refines
  rw [hrefines.remaining, FlatBuffer.remaining, hlimit]
  simp

theorem Offers.remaining_eq_zero (hoffers : buf.Offers data) : buf.remaining = 0 ↔ data = [] := by
  rw [← UInt32.toNat_inj, hoffers.remaining]
  exact List.length_eq_zero_iff

theorem put_blockSize {memory : Nat} {result : Bool} (hput : buf.put memory data = some (other, result)) :
    other.blockSize = buf.blockSize := by
  unfold put at hput
  dsimp only at hput
  split_ifs at hput
  · cases hput
    rfl
  · split at hput
    · rename_i hensure
      cases hput
      exact (ensure_grows hensure).blockSize_eq
    · rename_i hensure
      obtain ⟨_, -, hput⟩ := Option.bind_eq_some_iff.mp hput
      cases hput
      exact (ensure_grows hensure).blockSize_eq

theorem Refines.zero_currBuf (hrefines : buf.Refines base flat) : buf.zero.currBuf = base := by
  rw [hrefines.chain.zero]

theorem holds_written {more : List UInt8} (hstart : base < buf.blockSize.toNat)
    (hrefines : buf.Refines base (flat.write (more.map some))) (hlimit : flat.limit = none)
    (hposition : flat.position = data.length)
    (hcells : ∀ index, index < data.length → flat.cells index = data[index]?) :
    buf.Holds (data ++ more) := by
  refine ⟨hrefines.zero_currBuf.symm ▸ hstart, base, _, hrefines, hlimit, ?_,
    fun index hindex => ?_⟩
  · simp [FlatBuffer.write, hposition]
  · rw [List.length_append] at hindex
    simp only [FlatBuffer.write, hposition, List.length_map]
    by_cases hnew : data.length ≤ index
    · rw [if_pos ⟨hnew, hindex⟩, List.getElem?_append_right hnew, List.getElem?_map]
      cases more[index - data.length]? <;> rfl
    · rw [if_neg (by omega), List.getElem?_append_left (by omega)]
      exact hcells index (by omega)

theorem Holds.put (hholds : buf.Holds data) {memory : Nat} (hmemory : 2 ^ 32 ≤ memory + 1)
    {more : List UInt8} (hfits : buf.Fits more.length) :
    ∃ other, buf.put memory more = some (other, true) ∧ other.Holds (data ++ more) := by
  obtain ⟨base, flat, hrefines, hlimit, hposition, hcells⟩ := hholds.refines
  obtain ⟨other, hput, hother⟩ := hrefines.putAgree hmemory (agree_some more) fun _ => hfits
  rw [hlimit] at hput hother
  have hother : other.Refines base (flat.write (more.map some)) := hother
  have hstart : base < other.blockSize.toNat := by
    rw [put_blockSize hput, ← hrefines.zero_currBuf]
    exact hholds.start
  exact ⟨other, hput, holds_written hstart hother hlimit hposition hcells⟩

theorem Holds.flip (hholds : buf.Holds data) : buf.flip.1.Offers data := by
  obtain ⟨base, flat, hrefines, hlimit, hposition, hcells⟩ := hholds.refines
  obtain ⟨-, hflipped⟩ := hrefines.flip
  have hflat : flat.flip.1 = { flat with
      position := 0, mark := none, limit := some flat.position } := by
    unfold FlatBuffer.flip
    rw [hlimit]
  have hinvalid : buf.limit.invalid = true := by
    rw [hrefines.limit.invalid, hlimit]
    rfl
  refine ⟨fun _ => ?_, base, _, hflipped, ?_, fun index hindex => ?_⟩
  · unfold LinkedBuffer.flip
    rw [if_neg (by simp [hinvalid])]
    exact hholds.start
  · rw [hflat]
    simp [hposition]
  · rw [hflat]
    simpa using hcells index hindex

theorem Holds.content (hholds : buf.Holds data) : buf.content = data := by
  have hoffers := hholds.flip
  obtain ⟨base, flat, hrefines, hlimit, hcells⟩ := hoffers.refines
  have hlength : buf.dataLength.toNat = data.length := by
    obtain ⟨base', flat', hrefines', hlimit', hposition', -⟩ := hholds.refines
    rw [hrefines'.dataLength, FlatBuffer.dataLength, hlimit']
    simp [hposition']
  unfold LinkedBuffer.content
  rcases hrefines.get buf.dataLength with ⟨hnot, -⟩ | ⟨pos, bytes, -, hget, hagree, -⟩
  · exact absurd ⟨_, hlimit, by omega⟩ hnot
  · rw [hget]
    change bytes = data
    obtain ⟨hsame, hbytes⟩ := agree_iff.mp hagree
    rw [hlength] at hsame hbytes
    have hread : ∀ index, index < data.length →
        (flat.read data.length)[index]? = some (data[index]?) := by
      intro index hindex
      simp [FlatBuffer.read, hindex, hcells index hindex]
    refine List.ext_getElem? fun index => ?_
    by_cases hindex : index < data.length
    · obtain ⟨byte, hbyte⟩ : ∃ byte, data[index]? = some byte :=
        ⟨_, List.getElem?_eq_getElem hindex⟩
      rw [hbyte]
      exact hbytes index byte (by rw [hread index hindex, hbyte])
    · have hend : bytes.length ≤ index := by
        rw [hsame]
        simpa [FlatBuffer.read] using hindex
      rw [List.getElem?_eq_none hend, List.getElem?_eq_none (by omega)]

theorem Refines.load (hrefines : buf.Refines base flat) {number block : Nat}
    (hcursor : Cursor buf.bufList buf.blockSize.toNat base buf.current number block)
    (hcells : ∀ index, index < data.length → flat.cells (flat.position + index) = data[index]?)
    {count : Nat} (hcount : count ≤ buf.current.remaining.toNat) (hdata : count ≤ data.length) :
    load buf.bytes ⟨block, buf.current.currBuf, count⟩ = data.take count := by
  have hsplit := hcursor.split
  refine List.ext_getElem? fun index => ?_
  by_cases hlt : index < count
  · have haddress := address_block hrefines.chain.size hcursor.inChain
      (show buf.current.currBuf + index < buf.blockSize.toNat by omega)
    obtain ⟨byte, hbyte⟩ : ∃ byte, data[index]? = some byte :=
      ⟨_, List.getElem?_eq_getElem (by omega)⟩
    have hcell := hrefines.cells (flat.position + index) byte
      ((hcells index (by omega)).trans hbyte)
    rw [hrefines.position, ← Nat.add_assoc, ← hcursor.index, Nat.add_assoc, cell, haddress] at hcell
    rw [List.getElem?_take_of_lt hlt, hbyte, ← hcell]
    simp [Chunks.load, hlt]
  · have hload : (Chunks.load buf.bytes ⟨block, buf.current.currBuf, count⟩).length ≤ index := by
      simpa [Chunks.load] using hlt
    have htake : (data.take count).length ≤ index := by
      simp
      omega
    rw [List.getElem?_eq_none hload, List.getElem?_eq_none htake]

theorem Refines.offers_drop (hrefines : buf.Refines base flat)
    (hlimit : flat.limit = some (flat.position + data.length))
    (hcells : ∀ index, index < data.length → flat.cells (flat.position + index) = data[index]?)
    {pos : Pos} {count : Nat} (hcount : count ≤ data.length) (hat : buf.At base pos)
    (hto : pos.position.toNat = buf.current.position.toNat + count)
    (hinside : count < data.length → pos.currBuf < buf.blockSize.toNat) :
    { buf with current := pos }.Offers (data.drop count) := by
  have hposition := hrefines.position
  refine ⟨fun hne => hinside ?_, base, _, hrefines.move hat ?_, ?_, fun index hlt => ?_⟩
  · have := List.length_pos_iff.mpr hne
    rw [List.length_drop] at this
    omega
  · intro limit hsame
    rw [hlimit] at hsame
    cases hsame
    omega
  · dsimp only
    rw [hlimit, List.length_drop, hto, ← hposition]
    congr 1
    omega
  · dsimp only
    rw [List.length_drop] at hlt
    rw [hto, ← hposition, Nat.add_assoc, hcells _ (by omega), List.getElem?_drop]

theorem Cursor.number_le {blocks : List Nat} {size number block last lastBlock : Nat}
    {pos limit : Pos} (hcursor : Cursor blocks size base pos number block)
    (hlast : Cursor blocks size base limit last lastBlock)
    (horder : pos.position.toNat < limit.position.toNat) : number ≤ last := by
  have hindex := hcursor.index
  have hlastIndex := hlast.index
  have hlastSplit := hlast.split
  have hlt : number * size < (last + 1) * size := by
    rw [Nat.succ_mul]
    omega
  have := Nat.lt_of_mul_lt_mul_right hlt
  omega

section Unread

variable (hrefines : buf.Refines base flat) (hlimit : flat.limit = some (flat.position + data.length))
include hrefines hlimit

theorem Refines.toNat_unread {count : Nat} (hcount : count ≤ data.length) :
    (UInt32.ofNat count).toNat = count ∧
      (buf.current.position + UInt32.ofNat count).toNat = buf.current.position.toNat + count := by
  obtain ⟨-, hlimitPosition⟩ := (hlimit ▸ hrefines.limit).some
  have hposition := hrefines.position
  have hbound : buf.limit.position.toNat < 2 ^ 32 := buf.limit.position.toNat_lt
  have hofNat : (UInt32.ofNat count).toNat = count := by
    rw [UInt32.toNat_ofNat', Nat.mod_eq_of_lt (by omega)]
  rw [UInt32.toNat_add, hofNat, Nat.mod_eq_of_lt (by omega)]
  exact ⟨rfl, rfl⟩

variable (hcells : ∀ index, index < data.length → flat.cells (flat.position + index) = data[index]?)
  {number block count : Nat}
  (hcursor : Cursor buf.bufList buf.blockSize.toNat base buf.current number block)
  (hcount : count ≤ data.length)
include hcells hcursor hcount

theorem Refines.offers_within (hroom : count ≤ buf.current.remaining.toNat)
    (hstrict : count < data.length → count < buf.current.remaining.toNat) :
    Offers { buf with current := { buf.current with
      position := buf.current.position + UInt32.ofNat count
      currBuf := buf.current.currBuf + (UInt32.ofNat count).toNat
      remaining := buf.current.remaining - UInt32.ofNat count } } (data.drop count) := by
  obtain ⟨hofNat, hadd⟩ := hrefines.toNat_unread hlimit hcount
  have hsplit := hcursor.split
  have hindex := hcursor.index
  have hinside := hcursor.inside
  have hrest : (buf.current.remaining - UInt32.ofNat count).toNat =
      buf.current.remaining.toNat - count := by
    rw [UInt32.toNat_sub_of_le _ _ (UInt32.le_iff_toNat_le.mpr (by rw [hofNat]; omega)), hofNat]
  obtain ⟨hlimitAt, hlimitPosition⟩ := (hlimit ▸ hrefines.limit).some
  obtain ⟨last, lastBlock, hlast⟩ := hlimitAt
  have hlastInside := hlast.inside
  have hposition := hrefines.position
  refine hrefines.offers_drop hlimit hcells hcount ⟨number, block, hcursor.inChain,
    hcursor.block, ?_, ?_, ?_, hcursor.valid⟩ hadd fun hlt => ?_
  · dsimp only
    rw [hrest, hofNat]
    omega
  · dsimp only
    rw [hadd, hofNat]
    omega
  · dsimp only
    rw [hadd]
    omega
  · dsimp only
    rw [hofNat]
    have := hstrict hlt
    omega

theorem Refines.offers_following {following : Nat}
    (hfollowing : buf.bufList[number + 1]? = some following)
    (hall : count = buf.current.remaining.toNat) :
    Offers { buf with current :=
      ⟨buf.current.position + UInt32.ofNat count, buf.blockSize, some following, 0,
        buf.current.invalid⟩ } (data.drop count) := by
  obtain ⟨-, hadd⟩ := hrefines.toNat_unread hlimit hcount
  have hsplit := hcursor.split
  have hindex := hcursor.index
  have hsucc : (number + 1) * buf.blockSize.toNat =
      number * buf.blockSize.toNat + buf.blockSize.toNat := Nat.succ_mul _ _
  obtain ⟨hlimitAt, hlimitPosition⟩ := (hlimit ▸ hrefines.limit).some
  obtain ⟨last, lastBlock, hlast⟩ := hlimitAt
  have hlastInside := hlast.inside
  have hposition := hrefines.position
  refine hrefines.offers_drop hlimit hcells hcount ⟨number + 1, following,
    hfollowing, rfl, ?_, ?_, ?_, hcursor.valid⟩ hadd fun _ => hrefines.chain.size
  · dsimp only
    omega
  · dsimp only
    rw [hadd]
    omega
  · dsimp only
    rw [hadd]
    omega

end Unread

/-- What `direct_get` offers is a run of unread bytes inside the current block.
It ends at the limit or at the end of the block. -/
theorem Offers.directGet (hoffers : buf.Offers data) (hdata : data ≠ []) :
    ∃ block len, buf.directGet = some ((some block, buf.current.currBuf), len) ∧
      0 < len.toNat ∧ len.toNat ≤ data.length ∧
      ∀ count, 0 < count → count ≤ len.toNat →
        Chunks.load buf.bytes ⟨block, buf.current.currBuf, count⟩ = data.take count ∧
        ∃ next, buf.commitGet (some block, buf.current.currBuf) (UInt32.ofNat count) =
            some (next, true) ∧ next.Offers (data.drop count) := by
  have hinside := hoffers.inside hdata
  have hlength := List.length_pos_iff.mpr hdata
  obtain ⟨base, flat, hrefines, hlimit, hcells⟩ := hoffers.refines
  have hsub := hrefines.sub_position hlimit
  rw [Nat.add_sub_cancel_left] at hsub
  obtain ⟨hlimitAt, hlimitPosition⟩ := (hlimit ▸ hrefines.limit).some
  have hvalid := hlimitAt.valid
  obtain ⟨number, block, hcursor⟩ := hrefines.current
  obtain ⟨last, lastBlock, hlast⟩ := hlimitAt
  have hposition := hrefines.position
  have hsplit := hcursor.split
  have hindex := hcursor.index
  have hlastSplit := hlast.split
  have hlastIndex := hlast.index
  have hle := hcursor.number_le hlast (by omega)
  by_cases hsame : block = lastBlock
  · -- up to the limit, which is in the same block
    have hnumber : number = last := by
      obtain ⟨hlt, hget⟩ := List.getElem?_eq_some_iff.mp hcursor.inChain
      obtain ⟨hlt', hget'⟩ := List.getElem?_eq_some_iff.mp hlast.inChain
      exact (List.Nodup.getElem_inj_iff hrefines.chain.nodup).mp (by rw [hget, hget', hsame])
    subst hnumber hsame
    refine ⟨block, buf.limit.position - buf.current.position, ?_, by omega, by omega,
      fun count hpos hcount => ⟨hrefines.load hcursor hcells (by omega) (by omega), _, ?_,
        hrefines.offers_within hlimit hcells hcursor (by omega) (by omega) (by omega)⟩⟩
    · simp [LinkedBuffer.directGet, hvalid, hcursor.block, hlast.block]
    · have hfits : ¬ buf.current.position + UInt32.ofNat count > buf.limit.position := by
        rw [gt_iff_lt, UInt32.lt_iff_toNat_lt, (hrefines.toNat_unread hlimit (by omega)).2]
        omega
      simp [LinkedBuffer.commitGet, hvalid, hcursor.block, hlast.block, hfits]
  · -- up to the end of the block; another one follows
    have hlt : number < last := by
      rcases Nat.lt_or_ge number last with hlt | hge
      · exact hlt
      · have hnumber : number = last := by omega
        have hsome := hcursor.inChain.symm.trans (hnumber ▸ hlast.inChain)
        exact absurd (Option.some.inj hsome) hsame
    have hmul : (number + 1) * buf.blockSize.toNat ≤ last * buf.blockSize.toNat :=
      Nat.mul_le_mul_right _ hlt
    have hsucc : (number + 1) * buf.blockSize.toNat =
        number * buf.blockSize.toNat + buf.blockSize.toNat := Nat.succ_mul _ _
    refine ⟨block, buf.current.remaining, ?_, by omega, by omega, fun count hpos hcount =>
      ⟨hrefines.load hcursor hcells hcount (by omega), ?_⟩⟩
    · simp [LinkedBuffer.directGet, hvalid, hcursor.block, hlast.block, hsame]
    · have hunread : count ≤ data.length := by omega
      have hcountNat := (hrefines.toNat_unread hlimit hunread).1
      have hnotLess : ¬ buf.current.remaining < UInt32.ofNat count := by
        rw [UInt32.lt_iff_toNat_lt, hcountNat]
        omega
      by_cases hall : count = buf.current.remaining.toNat
      · have hequal : buf.current.remaining = UInt32.ofNat count := by
          rw [hall, UInt32.ofNat_toNat]
        obtain ⟨following, hfollowing⟩ : ∃ following, buf.bufList[number + 1]? = some following := by
          have hlastLt := (List.getElem?_eq_some_iff.mp hlast.inChain).1
          exact ⟨_, List.getElem?_eq_getElem (by omega)⟩
        have hnext := (next_eq hrefines.chain.nodup hcursor.inChain).trans hfollowing
        refine ⟨_, ?_, hrefines.offers_following hlimit hcells hcursor hunread hfollowing hall⟩
        simp [LinkedBuffer.commitGet, hvalid, hcursor.block, hlast.block, hsame, hequal, hnext]
      · have hnotEqual : buf.current.remaining ≠ UInt32.ofNat count := by
          intro h
          exact hall (by rw [h, hcountNat])
        refine ⟨_, ?_, hrefines.offers_within hlimit hcells hcursor hunread (by omega) (by omega)⟩
        simp [LinkedBuffer.commitGet, hvalid, hcursor.block, hlast.block, hsame, hnotLess,
          hnotEqual]

theorem Offers.compact (hoffers : buf.Offers data) :
    ∃ other, buf.compact = some (other, true) ∧ other.Holds data := by
  have hremaining := hoffers.remaining
  obtain ⟨base, flat, hrefines, hlimit, hcells⟩ := hoffers.refines
  obtain ⟨other, start, hcompact, hother⟩ := hrefines.compact
  have hinvalid : buf.limit.invalid = false := by
    rw [hrefines.limit.invalid, hlimit]
    rfl
  have hflat : flat.compact = (⟨fun index => if index < data.length then
      flat.cells (flat.position + index) else none, data.length, none, none⟩, true) := by
    unfold FlatBuffer.compact
    rw [hlimit]
    simp
  rw [hflat] at hcompact hother
  refine ⟨other, hcompact, ?_, start, _, hother, rfl, rfl, fun index hindex => ?_⟩
  · -- `_zero` is the cursor, or the start of its block when nothing is left
    unfold LinkedBuffer.compact at hcompact
    rw [if_neg (by simp [hinvalid])] at hcompact
    obtain ⟨⟨blocks, capacity⟩, -, hdone⟩ := Option.bind_eq_some_iff.mp hcompact
    cases hdone
    dsimp only
    by_cases hdrained : buf.limit.position = buf.current.position
    · rw [if_pos hdrained]
      exact hrefines.chain.size
    · rw [if_neg hdrained]
      refine hoffers.inside fun hempty => hdrained ?_
      have hsub := hrefines.sub_position hlimit
      have horder := (hrefines.order _ hlimit).1
      obtain ⟨-, hvalue⟩ := (hlimit ▸ hrefines.limit).some
      rw [hempty, List.length_nil, Nat.add_zero] at hvalue
      rw [← UInt32.toNat_inj, ← hvalue, hrefines.position]
  · dsimp only
    rw [if_pos hindex]
    exact hcells index hindex

end LinkedBuffer

end Libsax.Net
