import Libsax.Lib.Cells
import Libsax.Lib.Octet

/-! URL escapes: three characters for each byte that is not plain, into a destination of a
limited size, and back. -/
namespace Libsax.Text.UrlEscape

open Libsax.Lib

def isdigit (c : UInt8) : Bool := 48 ≤ c && c ≤ 57

def isalnum (c : UInt8) : Bool := isdigit c || (65 ≤ c && c ≤ 90) || (97 ≤ c && c ≤ 122)

def isxdigit (c : UInt8) : Bool := isdigit c || (65 ≤ c && c ≤ 70) || (97 ≤ c && c ≤ 102)

def tolower (c : UInt8) : UInt8 := if 65 ≤ c && c ≤ 90 then c + 32 else c

/-- `dont_escape`, "._-$,;~()" -/
def dontEscape : List UInt8 := [46, 95, 45, 36, 44, 59, 126, 40, 41]

def hex (digit : UInt8) : UInt8 :=
  [48, 49, 50, 51, 52, 53, 54, 55, 56, 57, 97, 98, 99, 100, 101, 102].getD digit.toNat 0

def hextoi (x : UInt8) : UInt8 := if isdigit x then x - 48 else x - 87

def plain (byte : UInt8) : Bool := isalnum byte || dontEscape.contains byte

def escape (byte : UInt8) : List UInt8 := [37, hex (byte >>> 4), hex (byte &&& 0xf)]

/-- The loop of `g_url_encode`; `limit` is the position of `end`. The destination moves on
once for each source byte, whether something is stored or not. -/
def encodeLoop (limit : Nat) : List UInt8 → Cells → Nat → Cells × Nat
  | [], cells, dst => (cells, dst)
  | byte :: src, cells, dst =>
    if byte ≠ 0 ∧ dst < limit then
      if plain byte then encodeLoop limit src (cells.put dst byte) (dst + 1)
      else if dst + 2 < limit then encodeLoop limit src (cells.putAll dst (escape byte)) (dst + 3)
      else encodeLoop limit src cells (dst + 1)
    else (cells, dst)

/-- `g_url_encode`, with the value that it returns. -/
def gUrlEncode (src : List UInt8) (dstLen : Int) : Cells × Nat :=
  let out := encodeLoop (dstLen - 1).toNat src Cells.fresh 0
  (out.1.put out.2 0, out.2)

/-- `src[i]`, in memory that is zero behind what is known of it. -/
def byteAt (src : List UInt8) (i : Nat) : UInt8 := src.getD i 0

/-- The test for an escape, which looks two bytes ahead. -/
def isEscape (src : List UInt8) (i : Nat) : Bool :=
  byteAt src i == 37 && isxdigit (byteAt src (i + 1)) && isxdigit (byteAt src (i + 2))

/-- The byte that a round stores, and how far it moves in the source. -/
def unit (src : List UInt8) (form : Bool) (i : Nat) : UInt8 × Nat :=
  if isEscape src i then
    ((hextoi (tolower (byteAt src (i + 1))) <<< 4) ||| hextoi (tolower (byteAt src (i + 2))), 3)
  else if form && byteAt src i == 43 then (32, 1)
  else (byteAt src i, 1)

/-- The loop of `g_url_decode`. Every round moves on, so `fuel` is the length. -/
def decodeLoop (src : List UInt8) (srcLen limit : Nat) (form : Bool) :
    Nat → Nat → Nat → Cells → Cells × Nat
  | 0, _, j, cells => (cells, j)
  | fuel + 1, i, j, cells =>
    if i < srcLen ∧ j < limit then
      decodeLoop src srcLen limit form fuel (i + (unit src form i).2) (j + 1)
        (cells.put j (unit src form i).1)
    else (cells, j)

/-- `g_url_decode`; `src` is the memory from the pointer on. -/
def gUrlDecode (src : List UInt8) (srcLen dstLen : Int) (form : Bool) : Cells × Nat :=
  let srcLen := if srcLen ≤ 0 then toInt (strlen src) else srcLen
  let out := decodeLoop src srcLen.toNat (dstLen - 1).toNat form srcLen.toNat 0 0 Cells.fresh
  (out.1.put out.2 0, out.2)

def encodeByte (byte : UInt8) : List UInt8 := if plain byte then [byte] else escape byte

def encoded (src : List UInt8) : List UInt8 := src.flatMap encodeByte

/-- What the call leaves is the text of the front of the string, all of it stored, and a
zero; it returns the length of the text. -/
def Clean (src : List UInt8) (dstLen : Int) : Prop :=
  ∃ front, front <+: src ∧ (gUrlEncode src dstLen).2 = (encoded front).length ∧
    (gUrlEncode src dstLen).1.Holds (encoded front ++ [0])

/-- Wherever a byte that is not plain still finds a place, there are three. -/
def RoomForEscapes (src : List UInt8) (dstLen : Int) : Prop :=
  ∀ front byte back, src = front ++ byte :: back → plain byte = false →
    ((encoded front).length : Int) < dstLen - 1 → ((encoded front).length : Int) + 3 ≤ dstLen - 1

variable {src front done : List UInt8} {byte : UInt8} {limit dst at_ : Nat} {cells : Cells}

@[simp] theorem encoded_cons (byte : UInt8) (src : List UInt8) :
    encoded (byte :: src) = encodeByte byte ++ encoded src := List.flatMap_cons

theorem encodeByte_plain (hplain : plain byte = true) : encodeByte byte = [byte] := if_pos hplain

theorem encodeByte_escape (hplain : plain byte = false) : encodeByte byte = escape byte := by
  rw [encodeByte, hplain]
  rfl

theorem encodeByte_pos (byte : UInt8) : 0 < (encodeByte byte).length := by
  unfold encodeByte
  split_ifs
  · exact Nat.zero_lt_one
  · exact Nat.zero_lt_succ _

private theorem encodeLoop_fits (hbyte : byte ≠ 0)
    (hfits : dst + (encodeByte byte).length ≤ limit) :
    encodeLoop limit (byte :: src) cells dst =
      encodeLoop limit src (cells.putAll dst (encodeByte byte))
        (dst + (encodeByte byte).length) := by
  have hpos := encodeByte_pos byte
  rw [encodeLoop, if_pos ⟨hbyte, by omega⟩]
  cases hplain : plain byte with
  | true =>
    rw [encodeByte_plain hplain, if_pos rfl]
    rfl
  | false =>
    rw [encodeByte_escape hplain] at hfits ⊢
    have hroom : dst + 2 < limit := hfits
    rw [if_neg Bool.false_ne_true, if_pos hroom]
    rfl

private theorem encodeLoop_skips (hbyte : byte ≠ 0) (hplain : plain byte = false)
    (hlt : dst < limit)
    (hfull : ¬ dst + 2 < limit) :
    encodeLoop limit (byte :: src) cells dst = encodeLoop limit src cells (dst + 1) := by
  rw [encodeLoop, if_pos ⟨hbyte, hlt⟩, hplain, if_neg Bool.false_ne_true, if_neg hfull]

private theorem encodeLoop_stops (hle : limit ≤ dst) : encodeLoop limit src cells dst =
    (cells, dst) := by
  cases src with
  | nil => rfl
  | cons byte src =>
    rw [encodeLoop, if_neg fun h => absurd h.2 (Nat.not_lt.mpr hle)]

private theorem encodeLoop_before (hlt : at_ < dst) :
    (encodeLoop limit src cells dst).1.cell at_ = cells.cell at_ ∧
      dst ≤ (encodeLoop limit src cells dst).2 := by
  induction src generalizing cells dst with
  | nil => exact ⟨rfl, le_refl dst⟩
  | cons byte src ih =>
    rw [encodeLoop]
    split_ifs with hgo hplain hroom
    · obtain ⟨hcell, hdst⟩ := @ih (dst + 1) (cells.put dst byte) (Nat.lt_succ_of_lt hlt)
      exact ⟨hcell.trans (Cells.cell_put_of_ne (Nat.ne_of_lt hlt)), by omega⟩
    · obtain ⟨hcell, hdst⟩ := @ih (dst + 3) (cells.putAll dst (escape byte)) (by omega)
      exact ⟨hcell.trans (Cells.cell_putAll_of_outside (.inl hlt)), by omega⟩
    · obtain ⟨hcell, hdst⟩ := @ih (dst + 1) cells (Nat.lt_succ_of_lt hlt)
      exact ⟨hcell, by omega⟩
    · exact ⟨rfl, le_refl dst⟩

theorem encodeLoop_front (hfront : ∀ byte ∈ front, byte ≠ 0) (hdone : cells.Holds done)
    (hfresh : ∀ i, done.length ≤ i → cells.cell i = none)
    (hfits : done.length + (encoded front).length ≤ limit) :
    ∃ after, encodeLoop limit (front ++ src) cells done.length =
        encodeLoop limit src after (done ++ encoded front).length ∧
      after.Holds (done ++ encoded front) ∧
      ∀ i, (done ++ encoded front).length ≤ i → after.cell i = none := by
  induction front generalizing cells done with
  | nil =>
    refine ⟨cells, ?_, ?_, ?_⟩
    · rw [encoded, List.flatMap_nil, List.append_nil]
      rfl
    · rwa [encoded, List.flatMap_nil, List.append_nil]
    · rwa [encoded, List.flatMap_nil, List.append_nil]
  | cons byte front ih =>
    rw [encoded_cons, List.length_append] at hfits
    have hplaced : (done ++ encodeByte byte).length = done.length + (encodeByte byte).length :=
      List.length_append
    have hstep := @encodeLoop_fits (front ++ src) byte limit done.length cells
      (hfront byte List.mem_cons_self) (by omega)
    have hfresh' : ∀ i, (done ++ encodeByte byte).length ≤ i →
        (cells.putAll done.length (encodeByte byte)).cell i = none := by
      intro i hi
      rw [Cells.cell_putAll_of_outside (.inr (by omega)), hfresh i (by omega)]
    obtain ⟨after, hloop, hholds, hbeyond⟩ :=
      ih (fun other hother => hfront other (List.mem_cons_of_mem _ hother))
        (hdone.putAll_next (encodeByte byte)) hfresh' (by omega)
    rw [hplaced, List.append_assoc, ← encoded_cons] at hloop
    rw [List.append_assoc, ← encoded_cons] at hholds hbeyond
    exact ⟨after, hstep.trans hloop, hholds, hbeyond⟩

private theorem encodeLoop_clean (hsrc : ∀ byte ∈ src, byte ≠ 0) (hdone : cells.Holds done)
    (hroom : ∀ front byte back, src = front ++ byte :: back → plain byte = false →
      done.length + (encoded front).length < limit →
      done.length + (encoded front).length + 3 ≤ limit) :
    ∃ front after, front <+: src ∧
      encodeLoop limit src cells done.length = (after, (done ++ encoded front).length) ∧
      after.Holds (done ++ encoded front) := by
  have hnothing : done ++ encoded [] = done := List.append_nil done
  induction src generalizing cells done with
  | nil => exact ⟨[], cells, List.nil_prefix, by rw [hnothing]; rfl, by rwa [hnothing]⟩
  | cons byte src ih =>
    by_cases hlt : done.length < limit
    · have hfits : done.length + (encodeByte byte).length ≤ limit := by
        cases hplain : plain byte with
        | true =>
          rw [encodeByte_plain hplain]
          exact hlt
        | false =>
          rw [encodeByte_escape hplain]
          exact hroom [] byte src rfl hplain hlt
      have hplaced : (done ++ encodeByte byte).length = done.length + (encodeByte byte).length :=
        List.length_append
      have hstep := @encodeLoop_fits src byte limit done.length cells
        (hsrc byte List.mem_cons_self) hfits
      have hroom' : ∀ front other back, src = front ++ other :: back → plain other = false →
          (done ++ encodeByte byte).length + (encoded front).length < limit →
          (done ++ encodeByte byte).length + (encoded front).length + 3 ≤ limit := by
        intro front other back hsplit hplain hless
        have hlength : (encoded (byte :: front)).length =
            (encodeByte byte).length + (encoded front).length := by
          rw [encoded_cons, List.length_append]
        have hat := hroom (byte :: front) other back (by rw [hsplit]; rfl) hplain (by omega)
        omega
      obtain ⟨front, after, hprefix, hloop, hholds⟩ :=
        ih (fun other hother => hsrc other (List.mem_cons_of_mem _ hother))
          (hdone.putAll_next (encodeByte byte)) hroom' (List.append_nil _)
      rw [hplaced, List.append_assoc, ← encoded_cons] at hloop
      rw [List.append_assoc, ← encoded_cons] at hholds
      exact ⟨byte :: front, after, List.cons_prefix_cons.mpr ⟨rfl, hprefix⟩,
        hstep.trans hloop, hholds⟩
    · refine ⟨[], cells, List.nil_prefix, ?_, by rwa [hnothing]⟩
      rw [encodeLoop_stops (Nat.le_of_not_lt hlt), hnothing]

/-- The text is cut cleanly exactly where every escape that is begun has its three places. -/
theorem clean_iff {src : List UInt8} {dstLen : Int} (hsrc : ∀ byte ∈ src, byte ≠ 0)
    (hdst : 1 ≤ dstLen) : Clean src dstLen ↔ RoomForEscapes src dstLen := by
  constructor
  · rintro ⟨stored, -, hlength, hholds⟩ front byte back hsplit hplain hless
    by_contra hfull
    have hbyte : byte ≠ 0 := hsrc byte (by rw [hsplit]; simp)
    have hfront : ∀ other ∈ front, other ≠ 0 := fun other hother =>
      hsrc other (by rw [hsplit]; exact List.mem_append_left _ hother)
    obtain ⟨after, hloop, -, hfresh⟩ := @encodeLoop_front (byte :: back) front []
      (dstLen - 1).toNat Cells.fresh hfront Cells.holds_nil (fun _ _ => rfl)
      (by rw [List.length_nil]; omega)
    rw [List.nil_append, ← hsplit, List.length_nil] at hloop
    rw [List.nil_append] at hfresh
    rw [encodeLoop_skips hbyte hplain (by omega) (by omega)] at hloop
    obtain ⟨hcell, hdst'⟩ := @encodeLoop_before back (dstLen - 1).toNat
      ((encoded front).length + 1) (encoded front).length after (Nat.lt_succ_self _)
    rw [← hloop] at hcell hdst'
    have hreturn : (gUrlEncode src dstLen).2 =
        (encodeLoop (dstLen - 1).toNat src Cells.fresh 0).2 := rfl
    have hempty : (gUrlEncode src dstLen).1.cell (encoded front).length = none := by
      rw [gUrlEncode]
      dsimp only
      rw [Cells.cell_put_of_ne (by omega), hcell, hfresh _ (le_refl _)]
    have hinside : (encoded front).length < (encoded stored ++ [0]).length := by
      rw [List.length_append, List.length_singleton]
      omega
    have hstored := hholds _ hinside
    rw [hempty, List.getElem?_eq_getElem hinside] at hstored
    exact absurd hstored.symm (Option.some_ne_none _)
  · intro hroom
    obtain ⟨front, after, hprefix, hloop, hholds⟩ := @encodeLoop_clean src []
      (dstLen - 1).toNat Cells.fresh hsrc Cells.holds_nil (by
        intro front byte back hsplit hplain hless
        rw [List.length_nil] at hless ⊢
        have hat := hroom front byte back hsplit hplain (by omega)
        omega)
    rw [List.nil_append] at hloop hholds
    rw [List.length_nil] at hloop
    refine ⟨front, hprefix, ?_, ?_⟩
    · rw [gUrlEncode, hloop]
    · rw [gUrlEncode, hloop]
      exact hholds.put_next

/-- "a b" in six places. -/
theorem clean_iff_six : Clean [97, 32, 98] 6 ↔ RoomForEscapes [97, 32, 98] 6 :=
  clean_iff (by simp) (by decide)

/-- "a b" in four places: there is none for the escape, and where it would start nothing is
stored, while the "b" comes behind. -/
theorem not_clean_four : ¬ Clean [97, 32, 98] 4 := by
  rintro ⟨front, -, hlength, hholds⟩
  have hthree : (gUrlEncode [97, 32, 98] 4).2 = 3 := rfl
  have hempty : (gUrlEncode [97, 32, 98] 4).1.cell 1 = none := rfl
  have hinside : 1 < (encoded front ++ [0]).length := by
    rw [List.length_append, ← hlength, hthree]
    decide
  have hstored := hholds 1 hinside
  rw [hempty, List.getElem?_eq_getElem hinside] at hstored
  exact absurd hstored.symm (Option.some_ne_none _)

end Libsax.Text.UrlEscape
