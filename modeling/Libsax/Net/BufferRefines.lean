import Libsax.Net.Buffer

/-! Growing a `buffer` loses no byte but those that the caller is about to write
or skip, and so every call does what it does to the flat array. -/
namespace Libsax.Net

open Libsax.Lib

namespace FlatBuffer

def forget (flat : FlatBuffer) (length : Nat) : FlatBuffer :=
  { flat with cells := fun index =>
      if flat.position ≤ index ∧ index < flat.position + length then none else flat.cells index }

@[simp] private theorem write_forget (flat : FlatBuffer) (data : List (Option UInt8)) :
    (flat.forget data.length).write data = flat.write data := by
  unfold FlatBuffer.write forget
  simp only [FlatBuffer.mk.injEq, and_true]
  funext index
  split_ifs <;> rfl

private theorem write_replicate (flat : FlatBuffer) (length : Nat) :
    flat.write (List.replicate length none) =
      { flat.forget length with position := flat.position + length } := by
  unfold FlatBuffer.write forget
  simp only [List.length_replicate, FlatBuffer.mk.injEq, and_true]
  funext index
  split_ifs with hinside
  · rw [List.getElem?_replicate, if_pos (by omega)]
    rfl
  · rfl

end FlatBuffer

namespace Buffer

def optional (word : UInt32) : Option Nat := if word = invalidValue then none else some word.toNat

/-- The buffer and the flat array are in the same state. -/
structure Refines (buf : Buffer) (flat : FlatBuffer) : Prop where
  pages : ∃ exponent, buf.blockSize.toNat = 2 ^ exponent
  position : flat.position = buf.current.toNat
  mark : flat.mark = optional buf.mark
  limit : flat.limit = optional buf.limit
  size : buf.size = buf.capacity.toNat
  below : buf.capacity.toNat < 2 ^ 32 - 1
  inside : buf.current.toNat ≤ buf.capacity.toNat
  markInside : buf.mark ≠ invalidValue → buf.mark.toNat ≤ buf.capacity.toNat
  limitInside : buf.limit ≠ invalidValue →
    buf.current.toNat ≤ buf.limit.toNat ∧ buf.limit.toNat ≤ buf.capacity.toNat
  cells : ∀ index byte, flat.cells index = some byte →
    index < buf.capacity.toNat ∧ buf.bytes index = byte

variable {heap : Heap} {buf : Buffer} {flat : FlatBuffer}

/-- Whole pages that hold `size` bytes. A rest of a page means that pages have
more than one byte, so that their bytes come to an even number. -/
private theorem rounded {size page exponent count : Nat} (hpage : page = 2 ^ exponent)
    (hfits : size + page ≤ 2 ^ 32) (hsize : size < 2 ^ 32 - 1)
    (hcount : count = size / page + if 0 < size % page then 1 else 0) :
    size ≤ count * page ∧ count * page < 2 ^ 32 - 1 := by
  have hpos : 0 < page := hpage ▸ Nat.two_pow_pos exponent
  have hsplit := Nat.div_add_mod size page
  have hmod := Nat.mod_lt size hpos
  have hcomm : page * (size / page) = size / page * page := Nat.mul_comm _ _
  by_cases hrest : 0 < size % page
  · rw [if_pos hrest] at hcount
    have hmul : count * page = size / page * page + page := by
      rw [hcount, Nat.succ_mul]
    obtain ⟨less, rfl⟩ : ∃ less, exponent = less + 1 := by
      cases exponent with
      | zero =>
        rw [Nat.pow_zero] at hpage
        omega
      | succ less => exact ⟨less, rfl⟩
    have heven : count * page = 2 * (count * 2 ^ less) := by
      rw [hpage, Nat.pow_succ', Nat.mul_left_comm]
    omega
  · rw [if_neg hrest] at hcount
    rw [hcount, Nat.add_zero]
    omega

private theorem pages_spec {size blockSize : UInt32} {exponent : Nat}
    (hblock : blockSize.toNat = 2 ^ exponent) (hfits : size.toNat + blockSize.toNat ≤ 2 ^ 32)
    (hsize : size.toNat < 2 ^ 32 - 1) :
    let pages := size / blockSize + (if size &&& (blockSize - 1) > 0 then 1 else 0)
    (blockSize * pages).toNat = (pages * blockSize).toNat ∧
      size.toNat ≤ (pages * blockSize).toNat ∧ (pages * blockSize).toNat < 2 ^ 32 - 1 := by
  intro pages
  have hpos : 0 < blockSize.toNat := hblock ▸ Nat.two_pow_pos exponent
  have hmask : (size &&& (blockSize - 1)).toNat = size.toNat % blockSize.toNat := by
    have hone : 1 ≤ blockSize := UInt32.le_iff_toNat_le.mpr hpos
    rw [UInt32.toNat_and, UInt32.toNat_sub_of_le _ _ hone, hblock]
    exact Nat.and_two_pow_sub_one_eq_mod _ _
  have hrest : size &&& (blockSize - 1) > 0 ↔ 0 < size.toNat % blockSize.toNat := by
    rw [gt_iff_lt, UInt32.lt_iff_toNat_lt, hmask]
    exact Iff.rfl
  obtain ⟨hle, hlt⟩ := rounded hblock hfits hsize rfl
  have hcount : size.toNat / blockSize.toNat +
      (if 0 < size.toNat % blockSize.toNat then 1 else 0) < 2 ^ 32 := by
    have hmul := Nat.le_mul_of_pos_right (size.toNat / blockSize.toNat +
      if 0 < size.toNat % blockSize.toNat then 1 else 0) hpos
    omega
  have hpages : pages.toNat = size.toNat / blockSize.toNat +
      if 0 < size.toNat % blockSize.toNat then 1 else 0 := by
    have hif : (if size &&& (blockSize - 1) > 0 then (1 : UInt32) else 0).toNat =
        if 0 < size.toNat % blockSize.toNat then 1 else 0 := by
      rw [apply_ite UInt32.toNat]
      exact if_congr hrest rfl rfl
    change (size / blockSize + _).toNat = _
    rw [UInt32.toNat_add, UInt32.toNat_div, hif, Nat.mod_eq_of_lt hcount]
  have hproduct : (pages * blockSize).toNat = pages.toNat * blockSize.toNat := by
    rw [UInt32.toNat_mul, Nat.mod_eq_of_lt]
    rw [hpages]
    omega
  rw [UInt32.mul_comm blockSize pages, hproduct, hpages]
  exact ⟨rfl, hle, hlt⟩

/-- Space for `length` bytes behind the cursor: what is lost in growing is in
their place, because the old storage ends among them. -/
theorem Refines.reserve (hrefines : buf.Refines flat) (hheap : ∀ block, (heap block).isSome)
    {length : UInt32} (hbounded : buf.current.toNat + length.toNat < 2 ^ 32 - 1)
    (hgrowth : buf.capacity.toNat < buf.current.toNat + length.toNat →
      buf.current.toNat + length.toNat + buf.blockSize.toNat ≤ 2 ^ 32) :
    ∃ bytes size capacity blocks, Buffer.reserve heap buf (buf.current + length) =
        some ({ buf with bytes := bytes, size := size, capacity := capacity, blocks := blocks },
          true) ∧
      { buf with bytes := bytes, size := size, capacity := capacity, blocks := blocks }.Refines
        (flat.forget length.toNat) ∧
      buf.current.toNat + length.toNat ≤ capacity.toNat := by
  have hsum : (buf.current + length).toNat = buf.current.toNat + length.toNat := by
    rw [UInt32.toNat_add, Nat.mod_eq_of_lt (by omega)]
  have hforget : ∀ index byte, (flat.forget length.toNat).cells index = some byte →
      flat.cells index = some byte ∧ ¬(flat.position ≤ index ∧
        index < flat.position + length.toNat) := by
    intro index byte hbyte
    simp only [FlatBuffer.forget] at hbyte
    split_ifs at hbyte with hinside
    exact ⟨hbyte, hinside⟩
  have hposition := hrefines.position
  unfold Buffer.reserve
  by_cases hsmall : buf.capacity < buf.current + length
  · have hsmallNat : buf.capacity.toNat < buf.current.toNat + length.toNat :=
      hsum ▸ UInt32.lt_iff_toNat_lt.mp hsmall
    obtain ⟨exponent, hblock⟩ := hrefines.pages
    obtain ⟨hsame, hholds, hbelow⟩ := pages_spec hblock (hsum ▸ hgrowth hsmallNat)
      (hsum ▸ hbounded)
    rw [hsum] at hholds
    obtain ⟨fresh, hfresh⟩ := Option.isSome_iff_exists.mp (hheap buf.blocks)
    have hinside := hrefines.inside
    have hcopies : buf.current.toNat ≤ buf.size ∧ buf.current.toNat ≤ (buf.blockSize *
        ((buf.current + length) / buf.blockSize +
          if (buf.current + length) &&& buf.blockSizeMask > 0 then 1 else 0)).toNat := by
      refine ⟨hrefines.size ▸ hinside, ?_⟩
      unfold blockSizeMask
      omega
    rw [if_pos hsmall]
    simp only [hfresh, if_pos hcopies]
    refine ⟨_, _, _, _, rfl, ?_, hholds⟩
    refine ⟨⟨exponent, hblock⟩, hposition, hrefines.mark, hrefines.limit, hsame, hbelow, ?_,
      fun hmark => ?_, fun hlimit => ?_, fun index byte hbyte => ?_⟩
    · exact Nat.le_trans (Nat.le_add_right _ _) hholds
    · have hold := hrefines.markInside hmark
      exact Nat.le_trans (Nat.le_of_lt (Nat.lt_of_le_of_lt hold hsmallNat)) hholds
    · obtain ⟨hfrom, hto⟩ := hrefines.limitInside hlimit
      exact ⟨hfrom, Nat.le_trans (Nat.le_of_lt (Nat.lt_of_le_of_lt hto hsmallNat)) hholds⟩
    · obtain ⟨hknown, hkept⟩ := hforget index byte hbyte
      obtain ⟨hindex, hheld⟩ := hrefines.cells index byte hknown
      have hbefore : index < buf.current.toNat := by omega
      refine ⟨?_, ?_⟩
      · exact Nat.lt_of_lt_of_le (by omega) hholds
      · exact (if_pos hbefore).trans hheld
  · have henough : buf.current.toNat + length.toNat ≤ buf.capacity.toNat := by
      rw [UInt32.lt_iff_toNat_lt, hsum] at hsmall
      omega
    rw [if_neg hsmall]
    refine ⟨_, _, _, _, rfl, ?_, henough⟩
    exact { hrefines with
      position := hposition
      mark := hrefines.mark
      limit := hrefines.limit
      cells := fun index byte hbyte => hrefines.cells index byte (hforget index byte hbyte).1 }

@[simp] private theorem optional_eq_none {word : UInt32} :
    optional word = none ↔ word = invalidValue := by
  unfold optional
  split_ifs with h <;> simp [h]

private theorem optional_of_lt {word : UInt32} (hlt : word.toNat < 2 ^ 32 - 1) :
    optional word = some word.toNat := by
  unfold optional
  rw [if_neg]
  rintro rfl
  exact absurd hlt (by decide)

@[simp] theorem optional_getD (word : UInt32) : (optional word).getD (2 ^ 32 - 1) = word.toNat := by
  unfold optional
  split_ifs with h
  · rw [h]
    rfl
  · rfl

theorem Refines.writing_iff (hrefines : buf.Refines flat) :
    buf.limit = invalidValue ↔ flat.limit = none := by
  rw [hrefines.limit, optional_eq_none]

theorem Refines.current_valid (hrefines : buf.Refines flat) :
    optional buf.current = some flat.position := by
  have hinside := hrefines.inside
  have hbelow := hrefines.below
  rw [hrefines.position]
  exact optional_of_lt (by omega)

theorem Refines.limit_of_ne (hrefines : buf.Refines flat) (hlimit : buf.limit ≠ invalidValue) :
    flat.limit = some buf.limit.toNat := by
  rw [hrefines.limit, optional, if_neg hlimit]

theorem Refines.sub_position (hrefines : buf.Refines flat) (hlimit : buf.limit ≠ invalidValue) :
    (buf.limit - buf.current).toNat = buf.limit.toNat - flat.position := by
  have hfrom := (hrefines.limitInside hlimit).1
  rw [hrefines.position, UInt32.toNat_sub_of_le _ _ (UInt32.le_iff_toNat_le.mpr hfrom)]

theorem Refines.readable_iff (hrefines : buf.Refines flat) (length : UInt32) :
    ¬(buf.limit = invalidValue ∨ buf.limit - buf.current < length) ↔
      flat.Readable length.toNat := by
  by_cases hlimit : buf.limit = invalidValue
  · have hnone := hrefines.writing_iff.mp hlimit
    simp [FlatBuffer.Readable, hlimit, hnone]
  · have hsome := hrefines.limit_of_ne hlimit
    have hsub := hrefines.sub_position hlimit
    simp [FlatBuffer.Readable, hlimit, hsome, UInt32.lt_iff_toNat_lt, hsub]

theorem Refines.remaining (hrefines : buf.Refines flat) :
    buf.remaining.toNat = flat.remaining.getD (2 ^ 32 - 1) := by
  unfold Buffer.remaining FlatBuffer.remaining
  split_ifs with hlimit
  · rw [hrefines.writing_iff.mp hlimit]
    rfl
  · rw [hrefines.sub_position hlimit, hrefines.limit_of_ne hlimit]
    rfl

theorem Refines.dataLength (hrefines : buf.Refines flat) :
    buf.dataLength.toNat = flat.dataLength.getD (2 ^ 32 - 1) := by
  unfold Buffer.dataLength FlatBuffer.dataLength
  by_cases hlimit : buf.limit = invalidValue
  · rw [if_neg (not_not.mpr hlimit), hrefines.writing_iff.mp hlimit]
    exact hrefines.position.symm
  · rw [if_pos hlimit, hrefines.limit_of_ne hlimit]
    rfl

theorem Refines.readable_inside (hrefines : buf.Refines flat) {length : UInt32}
    (hread : flat.Readable length.toNat) :
    buf.current.toNat + length.toNat ≤ buf.size ∧
      (buf.current + length).toNat = flat.position + length.toNat ∧
      buf.limit ≠ invalidValue ∧ flat.position + length.toNat ≤ buf.limit.toNat := by
  have hlimit : buf.limit ≠ invalidValue := fun h =>
    (hrefines.readable_iff length).mpr hread (Or.inl h)
  obtain ⟨limit, hsome, hle⟩ := hread
  rw [hrefines.limit_of_ne hlimit] at hsome
  cases hsome
  obtain ⟨hfrom, hto⟩ := hrefines.limitInside hlimit
  have hbelow := hrefines.below
  have hposition := hrefines.position
  have hsize := hrefines.size
  refine ⟨by omega, ?_, hlimit, by omega⟩
  rw [UInt32.toNat_add, Nat.mod_eq_of_lt (by omega)]
  omega

theorem Refines.move (hrefines : buf.Refines flat) {current : UInt32} {position : Nat}
    (hposition : position = current.toNat) (hinside : current.toNat ≤ buf.capacity.toNat)
    (hlimit : buf.limit ≠ invalidValue → current.toNat ≤ buf.limit.toNat) :
    { buf with current := current }.Refines { flat with position := position } :=
  { hrefines with
    position := hposition
    inside := hinside
    limitInside := fun h => ⟨hlimit h, (hrefines.limitInside h).2⟩
    cells := hrefines.cells }

theorem Refines.remark (hrefines : buf.Refines flat) {mark : UInt32}
    (hinside : mark ≠ invalidValue → mark.toNat ≤ buf.capacity.toNat) :
    { buf with mark := mark }.Refines { flat with mark := optional mark } :=
  { hrefines with
    mark := rfl
    markInside := hinside
    cells := hrefines.cells }

theorem Refines.setMark (hrefines : buf.Refines flat) : buf.setMark.Refines flat.setMark := by
  have hmarked : { buf with mark := buf.current }.Refines
      { flat with mark := optional buf.current } := hrefines.remark fun _ => hrefines.inside
  rw [hrefines.current_valid] at hmarked
  exact hmarked

theorem Refines.rewind (hrefines : buf.Refines flat) : buf.rewind.Refines flat.rewind :=
  hrefines.setMark.move rfl (Nat.zero_le _) fun _ => Nat.zero_le _

theorem Refines.reset (hrefines : buf.Refines flat)
    (hsane : buf.limit ≠ invalidValue → buf.mark ≠ invalidValue → buf.mark ≤ buf.limit) :
    buf.reset.2 = flat.reset.2 ∧ buf.reset.1.Refines flat.reset.1 := by
  unfold Buffer.reset FlatBuffer.reset
  by_cases hmark : buf.mark = invalidValue
  · have hnone : flat.mark = none := by rw [hrefines.mark, optional_eq_none, hmark]
    rw [if_pos hmark, hnone]
    exact ⟨rfl, hrefines⟩
  · have hsome : flat.mark = some buf.mark.toNat := by rw [hrefines.mark, optional, if_neg hmark]
    rw [if_neg hmark, hsome]
    exact ⟨rfl, hrefines.setMark.move rfl (hrefines.markInside hmark) fun hlimit =>
      UInt32.le_iff_toNat_le.mp (hsane hlimit hmark)⟩

theorem Refines.setLimit (hrefines : buf.Refines flat) {newLimit : UInt32}
    (hbetween : buf.limit ≠ invalidValue → buf.current ≤ newLimit ∧ newLimit ≤ buf.capacity) :
    ∃ next preLimit, buf.setLimit newLimit = some (next, preLimit) ∧
      preLimit.toNat = (flat.setLimit newLimit.toNat).2.getD (2 ^ 32 - 1) ∧
      next.Refines (flat.setLimit newLimit.toNat).1 := by
  unfold Buffer.setLimit FlatBuffer.setLimit
  by_cases hlimit : buf.limit = invalidValue
  · rw [if_pos hlimit, hrefines.writing_iff.mp hlimit]
    exact ⟨buf, invalidValue, rfl, rfl, hrefines⟩
  · obtain ⟨hfrom, hto⟩ := hbetween hlimit
    have htoNat := UInt32.le_iff_toNat_le.mp hto
    have hbelow := hrefines.below
    have hvalid := optional_of_lt (Nat.lt_of_le_of_lt htoNat hbelow)
    rw [if_neg hlimit, if_pos hto, hrefines.limit_of_ne hlimit]
    refine ⟨_, _, rfl, rfl, ?_⟩
    exact { hrefines with
      limit := hvalid.symm
      limitInside := fun _ => ⟨UInt32.le_iff_toNat_le.mp hfrom, htoNat⟩
      cells := hrefines.cells }

theorem Refines.clear (hrefines : buf.Refines flat) : buf.clear.Refines flat.clear :=
  { hrefines with
    position := rfl
    mark := rfl
    limit := rfl
    inside := Nat.zero_le _
    markInside := fun h => absurd rfl h
    limitInside := fun h => absurd rfl h
    cells := hrefines.cells }

theorem Refines.flip (hrefines : buf.Refines flat) :
    buf.flip.2 = flat.flip.2 ∧ buf.flip.1.Refines flat.flip.1 := by
  unfold Buffer.flip FlatBuffer.flip
  by_cases hlimit : buf.limit = invalidValue
  · rw [if_neg (not_not.mpr hlimit), hrefines.writing_iff.mp hlimit]
    refine ⟨rfl, ?_⟩
    exact { hrefines with
      position := rfl
      mark := rfl
      limit := hrefines.current_valid.symm
      inside := Nat.zero_le _
      markInside := fun h => absurd rfl h
      limitInside := fun _ => ⟨Nat.zero_le _, hrefines.inside⟩
      cells := hrefines.cells }
  · rw [if_pos hlimit, hrefines.limit_of_ne hlimit]
    exact ⟨rfl, hrefines⟩

theorem Refines.compact (hrefines : buf.Refines flat) :
    ∃ next, buf.compact = some (next, flat.compactInPlace.2) ∧
      next.Refines flat.compactInPlace.1 := by
  unfold Buffer.compact FlatBuffer.compactInPlace
  by_cases hlimit : buf.limit = invalidValue
  · rw [if_pos hlimit, hrefines.writing_iff.mp hlimit]
    exact ⟨buf, rfl, hrefines⟩
  · have hsub := hrefines.sub_position hlimit
    obtain ⟨hfrom, hto⟩ := hrefines.limitInside hlimit
    have hposition := hrefines.position
    have hsize := hrefines.size
    have hcopies : ¬(buf.limit ≠ buf.current ∧
        ¬buf.current.toNat + (buf.limit - buf.current).toNat ≤ buf.size) := by
      rintro ⟨-, hout⟩
      omega
    rw [if_neg hlimit, hrefines.limit_of_ne hlimit]
    simp only [if_neg hcopies]
    refine ⟨_, rfl, ?_⟩
    refine { hrefines with
      position := hsub.symm
      mark := rfl
      limit := rfl
      inside := ?_
      markInside := fun h => absurd rfl h
      limitInside := fun h => absurd rfl h
      cells := fun index byte hbyte => ?_ }
    · change (buf.limit - buf.current).toNat ≤ buf.capacity.toNat
      omega
    · simp only [hsub, ← hposition] at hbyte ⊢
      split_ifs at hbyte ⊢ with hindex
      · exact ⟨by omega, (hrefines.cells _ byte hbyte).2⟩
      · exact hrefines.cells index byte hbyte

theorem Refines.get (hrefines : buf.Refines flat) (length : UInt32) :
    ¬flat.Readable length.toNat ∧ buf.get length = some (buf, none) ∨
    ∃ bytes, flat.Readable length.toNat ∧
      buf.get length = some ({ buf with current := buf.current + length }, some bytes) ∧
      Agree bytes (flat.read length.toNat) ∧
      { buf with current := buf.current + length }.Refines
        { flat with position := flat.position + length.toNat } := by
  have hreadable := hrefines.readable_iff length
  unfold Buffer.get
  by_cases hread : flat.Readable length.toNat
  · obtain ⟨hstored, hsum, -, hbelow⟩ := hrefines.readable_inside hread
    have hlimit := hrefines.limitInside
    have hsize := hrefines.size
    have hposition := hrefines.position
    rw [if_neg (hreadable.mpr hread), if_pos hstored]
    refine Or.inr ⟨_, hread, rfl, ?_, hrefines.move hsum.symm (by omega) fun _ => by omega⟩
    refine agree_iff.mpr ⟨by simp [FlatBuffer.read], fun index value hvalue => ?_⟩
    unfold FlatBuffer.read at hvalue
    rw [List.getElem?_map] at hvalue ⊢
    obtain ⟨entry, hentry, hcell⟩ := Option.map_eq_some_iff.mp hvalue
    rw [hentry, Option.map_some, ← hposition, (hrefines.cells _ value hcell).2]
  · have hrefused : buf.limit = invalidValue ∨ buf.limit - buf.current < length := by
      by_contra hnot
      exact hread (hreadable.mp hnot)
    rw [if_pos hrefused]
    exact Or.inl ⟨hread, rfl⟩

/-- What `put` and `skip` ask of the state before. -/
structure Fits (buf : Buffer) (length : Nat) : Prop where
  bounded : buf.current.toNat + length < 2 ^ 32 - 1
  growth : buf.capacity.toNat < buf.current.toNat + length →
    buf.current.toNat + length + buf.blockSize.toNat ≤ 2 ^ 32

theorem Refines.put (hrefines : buf.Refines flat) (hheap : ∀ block, (heap block).isSome)
    {data : List UInt8} (hfits : buf.limit = invalidValue → buf.Fits data.length) :
    ∃ next, buf.put heap data = some (next, (flat.put data).2) ∧
      next.Refines (flat.put data).1 := by
  unfold Buffer.put FlatBuffer.put
  by_cases hlimit : buf.limit = invalidValue
  · obtain ⟨hbounded, hgrowth⟩ := hfits hlimit
    have hnone := hrefines.writing_iff.mp hlimit
    have hlength : (UInt32.ofNat data.length).toNat = data.length := by
      rw [UInt32.toNat_ofNat', Nat.mod_eq_of_lt (by omega)]
    obtain ⟨bytes, size, capacity, blocks, hreserve, hgrown, henough⟩ :=
      hrefines.reserve hheap (hlength.symm ▸ hbounded) (hlength.symm ▸ hgrowth)
    rw [hlength] at hgrown henough
    have hsum : (buf.current + UInt32.ofNat data.length).toNat =
        buf.current.toNat + data.length := by
      rw [UInt32.toNat_add, hlength, Nat.mod_eq_of_lt (by omega)]
    have hposition := hrefines.position
    have hsize : size = capacity.toNat := hgrown.size
    have hcopies : buf.current.toNat + (UInt32.ofNat data.length).toNat ≤ size := by omega
    have hcells : (flat.forget data.length).write (data.map some) = flat.write (data.map some) := by
      have hforget := flat.write_forget (data.map some)
      rw [List.length_map] at hforget
      exact hforget
    rw [if_neg (not_not.mpr hlimit), hreserve, if_neg (by simp [hnone])]
    simp only [if_pos hcopies]
    refine ⟨_, rfl, ?_⟩
    rw [← hcells]
    exact { hgrown with
      position := by
        change flat.position + (data.map some).length =
          (buf.current + UInt32.ofNat data.length).toNat
        rw [List.length_map]
        omega
      mark := hgrown.mark
      limit := hgrown.limit
      inside := by
        change (buf.current + UInt32.ofNat data.length).toNat ≤ capacity.toNat
        omega
      limitInside := fun h => absurd hlimit h
      cells := fun index byte hbyte => by
        have hforgot : (flat.forget data.length).position = buf.current.toNat := hposition
        simp only [FlatBuffer.write, List.length_map, hforgot] at hbyte ⊢
        split_ifs at hbyte ⊢ with hindex
        · refine ⟨Nat.lt_of_lt_of_le hindex.2 henough, ?_⟩
          have hlt : index - buf.current.toNat < data.length := by omega
          rw [List.getElem?_map, List.getElem?_eq_getElem hlt] at hbyte
          rw [List.getD_eq_getElem?_getD, List.getElem?_eq_getElem hlt]
          exact Option.some.inj hbyte
        · exact hgrown.cells index byte hbyte }
  · rw [if_pos hlimit, hrefines.limit_of_ne hlimit]
    exact ⟨buf, rfl, hrefines⟩

theorem Refines.skip (hrefines : buf.Refines flat) (hheap : ∀ block, (heap block).isSome)
    {length : UInt32} (hfits : buf.limit = invalidValue → buf.Fits length.toNat) :
    ∃ next, buf.skip heap length = some (next, (flat.skipOver length.toNat).2) ∧
      next.Refines (flat.skipOver length.toNat).1 := by
  have hreadable := hrefines.readable_iff length
  unfold Buffer.skip FlatBuffer.skipOver
  by_cases hlimit : buf.limit = invalidValue
  · obtain ⟨hbounded, hgrowth⟩ := hfits hlimit
    obtain ⟨bytes, size, capacity, blocks, hreserve, hgrown, henough⟩ :=
      hrefines.reserve hheap hbounded hgrowth
    have hsum : (buf.current + length).toNat = buf.current.toNat + length.toNat := by
      rw [UInt32.toNat_add, Nat.mod_eq_of_lt (by omega)]
    have hposition := hrefines.position
    rw [if_pos hlimit, hreserve, hrefines.writing_iff.mp hlimit]
    refine ⟨_, rfl, ?_⟩
    simp only [Option.isSome_none, Bool.false_eq_true, if_false, FlatBuffer.write_replicate]
    refine hgrown.setMark.move ?_ ?_ fun h => absurd hlimit h
    · omega
    · change (buf.current + length).toNat ≤ capacity.toNat
      omega
  · have hreading : flat.limit.isSome = true := by
      rw [hrefines.limit_of_ne hlimit]
      rfl
    simp only [if_neg hlimit, hreading, if_true, FlatBuffer.skip, true_and]
    by_cases hread : flat.Readable length.toNat
    · obtain ⟨hstored, hsum, -, hbelow⟩ := hrefines.readable_inside hread
      have hsize := hrefines.size
      have hshort : ¬buf.limit - buf.current < length := fun h =>
        hreadable.mpr hread (Or.inr h)
      rw [if_neg hshort, if_neg (not_not.mpr hread)]
      refine ⟨_, rfl, ?_⟩
      refine hrefines.setMark.move hsum.symm ?_ fun _ => ?_
      · change (buf.current + length).toNat ≤ buf.capacity.toNat
        have hposition := hrefines.position
        omega
      · change (buf.current + length).toNat ≤ buf.limit.toNat
        omega
    · have hshort : buf.limit - buf.current < length := by
        by_contra hnot
        exact hread (hreadable.mp fun h => h.elim hlimit hnot)
      rw [if_pos hshort, if_pos hread]
      exact ⟨buf, rfl, hrefines⟩

theorem putInt_eq (heap : Heap) (buf : Buffer) (size number : Nat) (bigendian : Bool) :
    buf.putInt heap size number bigendian =
      buf.put heap (FlatBuffer.wire size number bigendian) := by
  cases bigendian <;>
    simp [Buffer.putInt, FlatBuffer.wire, LinkedBuffer.isLittleEndian, Bytes.encode_swap]

theorem Refines.getInt (hrefines : buf.Refines flat) {size : Nat} (hsize : size < 2 ^ 32)
    (bigendian : Bool) :
    ¬flat.Readable size ∧ buf.getInt size bigendian = some (buf, none) ∨
    ∃ next number, flat.Readable size ∧
      buf.getInt size bigendian = some ({ buf with current := next }, some number) ∧
      (∀ known, FlatBuffer.number (flat.read size) bigendian = some known → number = known) ∧
      { buf with current := next }.Refines { flat with position := flat.position + size } := by
  have hlength : (UInt32.ofNat size).toNat = size := by
    rw [UInt32.toNat_ofNat', Nat.mod_eq_of_lt hsize]
  have hget := hrefines.get (UInt32.ofNat size)
  rw [hlength] at hget
  unfold Buffer.getInt
  rcases hget with ⟨hnot, hget⟩ | ⟨bytes, hread, hget, hagree, hmoved⟩
  · refine Or.inl ⟨hnot, ?_⟩
    rw [hget]
    rfl
  · have hbytes : bytes.length = size := by
      rw [hagree.length]
      simp [FlatBuffer.read]
    refine Or.inr ⟨_, Bytes.decode (if bigendian then bytes.reverse else bytes), hread, ?_,
      fun known hknown => LinkedBuffer.agree_number hagree hknown, hmoved⟩
    rw [hget]
    cases bigendian with
    | false => rfl
    | true =>
      change some (_, some (Bytes.swap size (Bytes.decode bytes))) = _
      rw [← hbytes, Bytes.swap_decode]
      rfl

theorem Refines.peekInt (hrefines : buf.Refines flat) {size : Nat} (hsize : size < 2 ^ 32)
    (bigendian : Bool) :
    ¬flat.Readable size ∧ buf.peekInt size bigendian = some (buf, none) ∨
    ∃ number, flat.Readable size ∧ buf.peekInt size bigendian = some (buf, some number) ∧
      ∀ known, FlatBuffer.number (flat.read size) bigendian = some known → number = known := by
  unfold Buffer.peekInt
  rcases hrefines.getInt hsize bigendian with ⟨hnot, hget⟩ | ⟨_, number, hread, hget, hknown, -⟩
  · rw [hget]
    exact Or.inl ⟨hnot, rfl⟩
  · rw [hget]
    exact Or.inr ⟨number, hread, rfl, hknown⟩

end Buffer

end Libsax.Net
