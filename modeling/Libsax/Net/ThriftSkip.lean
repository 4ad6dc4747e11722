import Libsax.Net.Thrift

/-! What `skip` does to any bytes. Nothing tells it that the buffer refused to read or to
skip, so what it returns is right only if nothing is cut off by the end of the bytes. -/
namespace Libsax.Net

open Libsax.Lib

namespace Buffer

/-- Reading mode, up to a limit, with these bytes in front of the cursor. -/
structure Reading (limit : UInt32) (buf : Buffer) (bytes : List UInt8) : Prop where
  valid : limit ≠ invalidValue
  limited : buf.limit = limit
  inside : limit.toNat ≤ buf.size
  extent : buf.current.toNat + bytes.length = limit.toNat
  content : (List.range bytes.length).map (fun i => buf.bytes (buf.current.toNat + i)) = bytes

variable {heap : Heap} {limit length : UInt32} {buf : Buffer} {bytes rest : List UInt8}

theorem Reading.sub (hreading : Reading limit buf bytes) :
    (buf.limit - buf.current).toNat = bytes.length := by
  have hextent := hreading.extent
  rw [hreading.limited, UInt32.toNat_sub_of_le _ _ (UInt32.le_iff_toNat_le.mpr (by omega))]
  omega

theorem Reading.refuses_iff (hreading : Reading limit buf bytes) :
    buf.limit - buf.current < length ↔ bytes.length < length.toNat := by
  rw [UInt32.lt_iff_toNat_lt, hreading.sub]

theorem Reading.not_writing (hreading : Reading limit buf bytes) : buf.limit ≠ invalidValue :=
  hreading.limited ▸ hreading.valid

theorem Reading.advance (hreading : Reading limit buf bytes) {mark : UInt32}
    (hlength : length.toNat ≤ bytes.length) :
    Reading limit { buf with mark := mark, current := buf.current + length }
      (bytes.drop length.toNat) := by
  have hextent := hreading.extent
  have hlimit := limit.toNat_lt
  have hcurrent : (buf.current + length).toNat = buf.current.toNat + length.toNat := by
    rw [UInt32.toNat_add, Nat.mod_eq_of_lt (by omega)]
  refine ⟨hreading.valid, hreading.limited, hreading.inside, ?_, ?_⟩
  · rw [List.length_drop]
    dsimp only
    omega
  · apply List.ext_getElem
    · simp
    · intro i hleft hright
      have hcontent := hreading.content
      rw [List.length_drop] at hright
      have hget : ((List.range bytes.length).map
          (fun i => buf.bytes (buf.current.toNat + i)))[length.toNat + i]? =
          bytes[length.toNat + i]? := by rw [hcontent]
      rw [List.getElem?_eq_getElem (by simp; omega), List.getElem?_eq_getElem (by omega)] at hget
      simp only [List.getElem_map, List.getElem_range, Option.some.injEq] at hget
      simp [hcurrent, List.getElem_drop, ← hget, Nat.add_assoc]

theorem Reading.skip_of_le (heap : Heap) (hreading : Reading limit buf bytes)
    (hlength : length.toNat ≤ bytes.length) :
    ∃ after, buf.skip heap length = some (after, true) ∧
      Reading limit after (bytes.drop length.toNat) := by
  refine ⟨{ buf with mark := buf.current, current := buf.current + length }, ?_,
    hreading.advance hlength⟩
  rw [Buffer.skip, if_neg hreading.not_writing,
    if_neg fun hlt => absurd (hreading.refuses_iff.mp hlt) (by omega)]

theorem Reading.skip_of_lt (hreading : Reading limit buf bytes)
    (hlength : bytes.length < length.toNat) : buf.skip heap length = some (buf, false) := by
  rw [Buffer.skip, if_neg hreading.not_writing, if_pos (hreading.refuses_iff.mpr hlength)]

theorem Reading.get_of_le (hreading : Reading limit buf bytes)
    (hlength : length.toNat ≤ bytes.length) :
    ∃ after, buf.get length = some (after, some (bytes.take length.toNat)) ∧
      Reading limit after (bytes.drop length.toNat) := by
  have hextent := hreading.extent
  have hinside := hreading.inside
  have htake : (List.range length.toNat).map (fun i => buf.bytes (buf.current.toNat + i)) =
      bytes.take length.toNat := by
    conv_rhs => rw [← hreading.content]
    rw [← List.map_take, List.take_range, Nat.min_eq_left hlength]
  refine ⟨{ buf with current := buf.current + length }, ?_, hreading.advance hlength⟩
  rw [Buffer.get, if_neg, if_pos (by omega), htake]
  rintro (hwriting | hlt)
  · exact hreading.not_writing hwriting
  · have := hreading.refuses_iff.mp hlt
    omega

theorem Reading.get_of_lt (hreading : Reading limit buf bytes)
    (hlength : bytes.length < length.toNat) : buf.get length = some (buf, none) := by
  rw [Buffer.get, if_pos (.inr (hreading.refuses_iff.mpr hlength))]

theorem Reading.getInt_of_le (hreading : Reading limit buf bytes) {size : Nat}
    (hsize : size < 2 ^ 32) (hle : size ≤ bytes.length) :
    ∃ after, buf.getInt size true = some (after, some (Bytes.decode (bytes.take size).reverse)) ∧
      Reading limit after (bytes.drop size) := by
  have hlength : (UInt32.ofNat size).toNat = size := by
    rw [UInt32.toNat_ofNat', Nat.mod_eq_of_lt hsize]
  obtain ⟨after, hget, hafter⟩ := hreading.get_of_le (hlength.symm ▸ hle)
  rw [hlength] at hget hafter
  refine ⟨after, ?_, hafter⟩
  have htake : (bytes.take size).length = size := by
    rw [List.length_take]
    omega
  unfold Buffer.getInt
  rw [hget]
  change some (after, some (Bytes.swap size (Bytes.decode (bytes.take size)))) = _
  have hswap := Bytes.swap_decode (bytes.take size)
  rw [htake] at hswap
  rw [hswap]

theorem Reading.getInt_of_lt (hreading : Reading limit buf bytes) {size : Nat}
    (hsize : size < 2 ^ 32) (hlt : bytes.length < size) :
    buf.getInt size true = some (buf, none) := by
  have hlength : (UInt32.ofNat size).toNat = size := by
    rw [UInt32.toNat_ofNat', Nat.mod_eq_of_lt hsize]
  unfold Buffer.getInt
  rw [hreading.get_of_lt (hlength.symm ▸ hlt)]
  rfl

end Buffer

namespace Thrift

/-- What there is to skip: a value, the fields of a structure from one on, or values one
after the other. -/
inductive Part where
  | value (type : TType)
  | fields
  | all (types : List TType)

/-- The size of the values of a type, where all have the same. -/
def width : TType → Option Nat
  | .bool => some 1
  | .byte => some 1
  | .i16 => some 2
  | .i32 => some 4
  | .i64 => some 8
  | .double => some 8
  | .string => none
  | .struct => none
  | .map => none
  | .set => none
  | .list => none
  | _ => some 0

def number (bytes : List UInt8) : Nat := Bytes.decode bytes.reverse

/-- The bytes behind the next ones, if there are as many; else none are taken. -/
def behind (length : Nat) (bytes : List UInt8) : List UInt8 :=
  if length ≤ bytes.length then bytes.drop length else bytes

def cut (length : Nat) (bytes : List UInt8) : Nat :=
  if length ≤ bytes.length then 0 else length

/-- The bytes go on with some part, and `rest` follows it. The types of its fields, the
headers of its containers and the lengths of its strings are whole; the end of the bytes
may cut off any other piece of it, which is then not there at all, and `missing` counts
those bytes. -/
inductive Skips : Part → List UInt8 → List UInt8 → Nat → Prop
  | fixed {type length} (hwidth : width type = some length) (bytes) :
      Skips (.value type) bytes (behind length bytes) (cut length bytes)
  | string {header} (hheader : header.length = 4) (bytes) :
      Skips (.value .string) (header ++ bytes) (behind (number header) bytes)
        (cut (number header) bytes)
  | struct {bytes rest missing} (hfields : Skips .fields bytes rest missing) :
      Skips (.value .struct) bytes rest missing
  | stop {code} (hstop : TType.ofByte code = .stop) (bytes) : Skips .fields (code :: bytes) bytes 0
  | field {code bytes between rest missing more} (hgoes : TType.ofByte code ≠ .stop)
      (hvalue : Skips (.value (.ofByte code)) (behind 2 bytes) between missing)
      (hfields : Skips .fields between rest more) :
      Skips .fields (code :: bytes) rest (cut 2 bytes + missing + more)
  | map {key value size bytes rest missing} (hsize : size.length = 4)
      (hentries : Skips (.all (List.replicate (number size)
        [TType.ofByte key, TType.ofByte value]).flatten) bytes rest missing) :
      Skips (.value .map) (key :: value :: (size ++ bytes)) rest missing
  | set {elem size bytes rest missing} (hsize : size.length = 4)
      (helems : Skips (.all (List.replicate (number size) (TType.ofByte elem))) bytes rest missing) :
      Skips (.value .set) (elem :: (size ++ bytes)) rest missing
  | list {elem size bytes rest missing} (hsize : size.length = 4)
      (helems : Skips (.all (List.replicate (number size) (TType.ofByte elem))) bytes rest missing) :
      Skips (.value .list) (elem :: (size ++ bytes)) rest missing
  | nil (bytes) : Skips (.all []) bytes bytes 0
  | cons {type types bytes between rest missing more}
      (hvalue : Skips (.value type) bytes between missing)
      (hrest : Skips (.all types) between rest more) :
      Skips (.all (type :: types)) bytes rest (missing + more)

/-- What is returned counts what was taken and what was not there. -/
def Counts (count : UInt32) (bytes rest : List UInt8) (missing : Nat) : Prop :=
  count + UInt32.ofNat rest.length = UInt32.ofNat (bytes.length + missing)

variable {heap : Heap} {limit count more result : UInt32} {buf after : Buffer}
  {bytes between rest : List UInt8} {missing lost length size fuel : Nat}

theorem Counts.trans (hfirst : Counts count bytes between missing)
    (hsecond : Counts more between rest lost) :
    Counts (count + more) bytes rest (missing + lost) := by
  unfold Counts at *
  rw [UInt32.add_assoc, hsecond, UInt32.ofNat_add, ← UInt32.add_assoc, hfirst,
    ← UInt32.ofNat_add, Nat.add_assoc]

private theorem counts_nil (bytes : List UInt8) : Counts 0 bytes bytes 0 := UInt32.zero_add _

private theorem counts_behind (length : Nat) (bytes : List UInt8) :
    Counts (UInt32.ofNat length) bytes (behind length bytes) (cut length bytes) := by
  unfold Counts behind cut
  split_ifs with hle
  · rw [← UInt32.ofNat_add, List.length_drop]
    congr 1
    omega
  · rw [← UInt32.ofNat_add, Nat.add_comm]

private theorem behind_length (length : Nat) (bytes : List UInt8) :
    (behind length bytes).length =
      if length ≤ bytes.length then bytes.length - length else bytes.length := by
  unfold behind
  split_ifs
  · exact List.length_drop
  · rfl

theorem counts_append (front rest : List UInt8) :
    Counts (UInt32.ofNat front.length) (front ++ rest) rest 0 := by
  unfold Counts
  rw [← UInt32.ofNat_add, List.length_append, Nat.add_zero]

theorem Counts.behind_header {header : List UInt8} (hheader : header.length = length)
    (hcount : Counts count bytes rest missing) :
    Counts (UInt32.ofNat length + count) (header ++ bytes) rest missing := by
  have hboth := (counts_append header bytes).trans hcount
  rw [hheader, Nat.zero_add] at hboth
  exact hboth

private theorem skipBytes_reading (heap : Heap) (hreading : buf.Reading limit bytes)
    (length : UInt32) :
    ∃ after, skipBytes heap length buf = some (after, length) ∧
      after.Reading limit (behind length.toNat bytes) := by
  unfold behind skipBytes
  by_cases hle : length.toNat ≤ bytes.length
  · obtain ⟨after, hskip, hafter⟩ := hreading.skip_of_le heap hle
    rw [hskip, if_pos hle]
    exact ⟨after, rfl, hafter⟩
  · rw [hreading.skip_of_lt (by omega), if_neg hle]
    exact ⟨buf, rfl, hreading⟩

theorem readInt_reading (hreading : buf.Reading limit bytes) (hsize : size < 2 ^ 32)
    (result : UInt32) :
    ∃ after, readInt size result buf =
        some (after, if size ≤ bytes.length then some (number (bytes.take size)) else none,
          result) ∧
      after.Reading limit (behind size bytes) := by
  unfold behind readInt
  by_cases hle : size ≤ bytes.length
  · obtain ⟨after, hget, hafter⟩ := hreading.getInt_of_le hsize hle
    rw [hget, if_pos hle, if_pos hle]
    exact ⟨after, rfl, hafter⟩
  · rw [hreading.getInt_of_lt hsize (by omega), if_neg hle, if_neg hle]
    exact ⟨buf, rfl, hreading⟩

@[simp] theorem typeOf_number (code : UInt8) : typeOf (some (number [code])) = some
    (.ofByte code) := by
  simp [typeOf, number, Bytes.decode]

theorem readByte_cons {code : UInt8} (hreading : buf.Reading limit (code :: bytes)) :
    ∃ after, readByte buf = some (after, some (number [code]), 1) ∧ after.Reading limit bytes := by
  obtain ⟨after, hread, hafter⟩ := readInt_reading hreading (by decide : 1 < 2 ^ 32) 1
  exact ⟨after, hread.trans (by simp), by simpa [behind] using hafter⟩

private theorem readI32_append {header : List UInt8} (hheader : header.length = 4)
    (hreading : buf.Reading limit (header ++ bytes)) :
    ∃ after, readI32 buf = some (after, some (number header), 4) ∧ after.Reading limit bytes := by
  obtain ⟨after, hread, hafter⟩ := readInt_reading hreading (by decide : 4 < 2 ^ 32) 4
  have htake : (header ++ bytes).take 4 = header := List.take_left' hheader
  have hdrop : (header ++ bytes).drop 4 = bytes := List.drop_left' hheader
  have hle : 4 ≤ (header ++ bytes).length := by
    rw [List.length_append]
    omega
  rw [if_pos hle, htake] at hread
  rw [behind, if_pos hle, hdrop] at hafter
  exact ⟨after, hread, hafter⟩

private theorem readI32_short (hreading : buf.Reading limit bytes) (hshort : bytes.length < 4) :
    ∃ after, readI32 buf = some (after, none, 4) := by
  obtain ⟨after, hread, -⟩ := readInt_reading hreading (by decide : 4 < 2 ^ 32) 4
  rw [if_neg (by omega)] at hread
  exact ⟨after, hread⟩

theorem exists_header (hlong : 4 ≤ bytes.length) :
    ∃ header rest : List UInt8, header.length = 4 ∧ bytes = header ++ rest :=
  ⟨bytes.take 4, bytes.drop 4, by simp [hlong], (List.take_append_drop 4 bytes).symm⟩

private theorem exists_listHeader (hlong : 5 ≤ bytes.length) :
    ∃ (elem : UInt8) (header rest : List UInt8), header.length = 4 ∧
      bytes = elem :: (header ++ rest) := by
  cases bytes with
  | nil => exact absurd hlong (by simp)
  | cons elem bytes =>
    obtain ⟨header, rest, hheader, rfl⟩ := exists_header (Nat.le_of_succ_le_succ hlong)
    exact ⟨elem, header, rest, hheader, rfl⟩

private theorem exists_mapHeader (hlong : 6 ≤ bytes.length) :
    ∃ (key value : UInt8) (header rest : List UInt8), header.length = 4 ∧
      bytes = key :: value :: (header ++ rest) := by
  cases bytes with
  | nil => exact absurd hlong (by simp)
  | cons key bytes =>
    obtain ⟨value, header, rest, hheader, rfl⟩ := exists_listHeader (Nat.le_of_succ_le_succ hlong)
    exact ⟨key, value, header, rest, hheader, rfl⟩

private theorem readFieldBegin_nil (hreading : buf.Reading limit []) :
    readFieldBegin buf = none := by
  obtain ⟨after, hread, -⟩ := readInt_reading hreading (by decide : 1 < 2 ^ 32) 1
  unfold readFieldBegin readByte
  rw [hread]
  rfl

theorem readFieldBegin_stop {code : UInt8} (hreading : buf.Reading limit (code :: bytes))
    (hstop : TType.ofByte code = .stop) :
    ∃ after, readFieldBegin buf = some (after, .stop, some 0, 1) ∧ after.Reading limit bytes := by
  obtain ⟨after, hread, hafter⟩ := readByte_cons hreading
  refine ⟨after, ?_, hafter⟩
  simp [readFieldBegin, hread, typeOf_number, hstop]

private theorem readFieldBegin_field {code : UInt8} (hreading : buf.Reading limit (code :: bytes))
    (hgoes : TType.ofByte code ≠ .stop) :
    ∃ after id, readFieldBegin buf = some (after, .ofByte code, id, 3) ∧
      after.Reading limit (behind 2 bytes) := by
  obtain ⟨between, hread, hbetween⟩ := readByte_cons hreading
  obtain ⟨after, hid, hafter⟩ := readInt_reading hbetween (by decide : 2 < 2 ^ 32) 2
  simp only [readFieldBegin, hread, typeOf_number, Option.bind_eq_bind, Option.bind_some,
    if_neg hgoes, readI16, hid]
  exact ⟨after, _, rfl, hafter⟩

private theorem readListBegin_short (hreading : buf.Reading limit bytes)
    (hshort : bytes.length < 5) :
    ∃ after elem, readListBegin buf = some (after, elem, none, 5) := by
  obtain ⟨between, hread, hbetween⟩ := readInt_reading hreading (by decide : 1 < 2 ^ 32) 1
  have hless : (behind 1 bytes).length < 4 := by
    have honce := behind_length 1 bytes
    split_ifs at honce <;> omega
  obtain ⟨after, hsize⟩ := readI32_short hbetween hless
  simp only [readListBegin, readByte, hread, Option.bind_eq_bind, Option.bind_some, hsize]
  exact ⟨after, _, rfl⟩

theorem readListBegin_whole {elem : UInt8} {header : List UInt8} (hheader : header.length = 4)
    (hreading : buf.Reading limit (elem :: (header ++ bytes))) :
    ∃ after, readListBegin buf =
        some (after, some (.ofByte elem), some (number header), 5) ∧
      after.Reading limit bytes := by
  obtain ⟨between, hread, hbetween⟩ := readByte_cons hreading
  obtain ⟨after, hsize, hafter⟩ := readI32_append hheader hbetween
  refine ⟨after, ?_, hafter⟩
  simp only [readListBegin, hread, Option.bind_eq_bind, Option.bind_some, hsize, typeOf_number]
  rfl

private theorem readMapBegin_short (hreading : buf.Reading limit bytes)
    (hshort : bytes.length < 6) :
    ∃ after key value, readMapBegin buf = some (after, key, value, none, 6) := by
  obtain ⟨first, hkey, hfirst⟩ := readInt_reading hreading (by decide : 1 < 2 ^ 32) 1
  obtain ⟨second, hvalue, hsecond⟩ := readInt_reading hfirst (by decide : 1 < 2 ^ 32) 1
  have hless : (behind 1 (behind 1 bytes)).length < 4 := by
    have htwice := behind_length 1 (behind 1 bytes)
    have honce := behind_length 1 bytes
    split_ifs at htwice honce <;> omega
  obtain ⟨after, hsize⟩ := readI32_short hsecond hless
  simp only [readMapBegin, readByte, hkey, hvalue, Option.bind_eq_bind, Option.bind_some, hsize]
  exact ⟨after, _, _, rfl⟩

theorem readMapBegin_whole {key value : UInt8} {header : List UInt8} (hheader : header.length = 4)
    (hreading : buf.Reading limit (key :: value :: (header ++ bytes))) :
    ∃ after, readMapBegin buf =
        some (after, some (.ofByte key), some (.ofByte value), some (number header), 6) ∧
      after.Reading limit bytes := by
  obtain ⟨first, hkey, hfirst⟩ := readByte_cons hreading
  obtain ⟨second, hvalue, hsecond⟩ := readByte_cons hfirst
  obtain ⟨after, hsize, hafter⟩ := readI32_append hheader hsecond
  refine ⟨after, ?_, hafter⟩
  simp only [readMapBegin, hkey, hvalue, Option.bind_eq_bind, Option.bind_some, hsize,
    typeOf_number]
  rfl

def skipAll (skip : TType → Skipper) : List TType → Skipper
  | [], buf => some (buf, 0)
  | type :: types, buf => do
    let (buf, first) ← skip type buf
    let (buf, rest) ← skipAll skip types buf
    return (buf, first + rest)

/-- What is added to what was returned before. -/
def add (result : UInt32) (outcome : Buffer × UInt32) : Buffer × UInt32 :=
  (outcome.1, result + outcome.2)

variable {skips : TType → Skipper}

private theorem skipLoop_elements (type : TType) (size : Nat) (buf : Buffer) (result : UInt32) :
    skipLoop (typed skips (some type)) size buf result =
      (skipAll skips (List.replicate size type) buf).map (add result) := by
  induction size generalizing buf result with
  | zero => simp [skipLoop, skipAll, add]
  | succ size ih =>
    rw [skipLoop, List.replicate_succ, skipAll]
    cases hfirst : skips type buf with
    | none => simp [typed, hfirst]
    | some outcome => simp [typed, hfirst, ih, Function.comp_def, add, UInt32.add_assoc,
        Option.map_eq_bind, Option.bind_assoc]

private theorem skipLoop_entries (key value : TType) (size : Nat) (buf : Buffer) (result : UInt32) :
    skipLoop (skipEntry (typed skips (some key)) (typed skips (some value))) size buf result =
      (skipAll skips (List.replicate size [key, value]).flatten buf).map (add result) := by
  induction size generalizing buf result with
  | zero => simp [skipLoop, skipAll, add]
  | succ size ih =>
    rw [skipLoop, List.replicate_succ, List.flatten_cons, List.cons_append, List.cons_append,
      List.nil_append, skipAll]
    cases hkey : skips key buf with
    | none => simp [skipEntry, typed, hkey]
    | some outcome =>
      obtain ⟨between, first⟩ := outcome
      cases hvalue : skips value between with
      | none => simp [skipEntry, typed, hkey, hvalue, skipAll]
      | some outcome => simp [skipEntry, typed, hkey, hvalue, skipAll, ih, Function.comp_def, add,
          UInt32.add_assoc, Option.map_eq_bind, Option.bind_assoc]

private theorem fieldLoop_add (fuel : Nat) (buf : Buffer) (result : UInt32) :
    fieldLoop skips fuel buf result = (fieldLoop skips fuel buf 0).map (add result) := by
  induction fuel generalizing buf result with
  | zero => rfl
  | succ fuel ih =>
    rw [fieldLoop, fieldLoop]
    cases hread : readFieldBegin buf with
    | none => rfl
    | some outcome =>
      obtain ⟨between, type, id, more⟩ := outcome
      by_cases hstop : type = .stop
      · simp [hstop, add]
      · cases hskip : skips type between with
        | none => simp [hstop, hskip]
        | some last =>
          simp only [Option.bind_eq_bind, Option.bind_some, if_neg hstop, hskip]
          rw [ih, ih last.1 (0 + more + last.2)]
          simp [Function.comp_def, add, UInt32.add_assoc, Option.map_eq_bind, Option.bind_assoc]

/-- Whatever a function skips is some part, and it returns the size of that. -/
def Accounts (skipper : Skipper) (part : Part) : Prop :=
  ∀ {limit buf bytes after count}, Buffer.Reading limit buf bytes →
    skipper buf = some (after, count) → ∃ rest missing, Skips part bytes rest missing ∧
      after.Reading limit rest ∧ Counts count bytes rest missing

private theorem accounts_all (hskips : ∀ type, Accounts (skips type) (.value type))
    (types : List TType) :
    Accounts (skipAll skips types) (.all types) := by
  induction types with
  | nil =>
    intro limit buf bytes after count hreading hskip
    obtain ⟨rfl, rfl⟩ := Prod.mk.inj (Option.some.inj hskip)
    exact ⟨bytes, 0, .nil bytes, hreading, counts_nil bytes⟩
  | cons type types ih =>
    intro limit buf bytes after count hreading hskip
    simp only [skipAll, Option.bind_eq_bind, Option.bind_eq_some_iff] at hskip
    obtain ⟨⟨next, first⟩, hfirst, ⟨last, second⟩, hsecond, hresult⟩ := hskip
    obtain ⟨rfl, rfl⟩ := Prod.mk.inj (Option.some.inj hresult)
    obtain ⟨between, missing, hvalue, hnext, hcount⟩ := hskips type hreading hfirst
    obtain ⟨rest, lost, hrest, hlast, hmore⟩ := ih hnext hsecond
    exact ⟨rest, _, .cons hvalue hrest, hlast, hcount.trans hmore⟩

private theorem accounts_fields (hskips : ∀ type, Accounts (skips type) (.value type))
    (fuel : Nat) :
    Accounts (fun buf => fieldLoop skips fuel buf 0) .fields := by
  induction fuel with
  | zero =>
    intro limit buf bytes after count _ hskip
    cases hskip
  | succ fuel ih =>
    intro limit buf bytes after count hreading hskip
    dsimp only at hskip
    rw [fieldLoop] at hskip
    cases bytes with
    | nil =>
      rw [readFieldBegin_nil hreading] at hskip
      cases hskip
    | cons code bytes =>
      by_cases hstop : TType.ofByte code = .stop
      · obtain ⟨next, hread, hnext⟩ := readFieldBegin_stop hreading hstop
        rw [hread] at hskip
        obtain ⟨rfl, rfl⟩ := Prod.mk.inj (Option.some.inj hskip)
        exact ⟨bytes, 0, .stop hstop bytes, hnext, counts_append [code] bytes⟩
      · obtain ⟨next, id, hread, hnext⟩ := readFieldBegin_field hreading hstop
        simp only [hread, Option.bind_eq_bind, Option.bind_some, if_neg hstop,
          Option.bind_eq_some_iff] at hskip
        obtain ⟨⟨behindValue, first⟩, hfirst, hloop⟩ := hskip
        rw [fieldLoop_add, Option.map_eq_some_iff] at hloop
        obtain ⟨⟨last, second⟩, hsecond, hresult⟩ := hloop
        obtain ⟨rfl, rfl⟩ := Prod.mk.inj hresult
        obtain ⟨between, missing, hvalue, hbetween, hcount⟩ := hskips _ hnext hfirst
        obtain ⟨rest, lost, hrest, hlast, hmore⟩ := ih hbetween hsecond
        have hcode : Counts 1 (code :: bytes) bytes 0 := counts_append [code] bytes
        have hhead := hcode.trans (counts_behind 2 bytes)
        rw [Nat.zero_add] at hhead
        refine ⟨rest, _, .field hstop hvalue hrest, hlast, ?_⟩
        exact (hhead.trans hcount).trans hmore

private theorem skip_width (heap : Heap) {type : TType} (hwidth : width type = some length)
    (hreading : buf.Reading limit bytes) :
    ∃ after, (∀ fuel, skip heap (fuel + 1) type buf = some (after, UInt32.ofNat length)) ∧
      after.Reading limit (behind length bytes) := by
  have hbytes : ∀ length : UInt32, ∃ after, (∀ _ : Nat, skipBytes heap length buf =
      some (after, length)) ∧ after.Reading limit (behind length.toNat bytes) := by
    intro length
    obtain ⟨after, hskip, hafter⟩ := skipBytes_reading heap hreading length
    exact ⟨after, fun _ => hskip, hafter⟩
  cases type <;> cases hwidth <;>
    first
      | exact hbytes _
      | exact ⟨buf, fun _ => rfl, by simpa [behind] using hreading⟩

/-- What `skip` does of a set or a list. -/
def skipElements (skip : TType → Skipper) : Skipper := fun buf => do
  let (buf, elemType, size, result) ← readListBegin buf
  skipLoop (typed skip elemType) (← size) buf result

private theorem elements_account (hskips : ∀ type, Accounts (skips type) (.value type))
    (hreading : buf.Reading limit bytes) (hskip : skipElements skips buf = some (after, count)) :
    ∃ (elem : UInt8) (header elems rest : List UInt8) (missing : Nat), header.length = 4 ∧
      bytes = elem :: (header ++ elems) ∧
      Skips (.all (List.replicate (number header) (TType.ofByte elem))) elems rest missing ∧
      after.Reading limit rest ∧ Counts count bytes rest missing := by
  unfold skipElements at hskip
  by_cases hlong : 5 ≤ bytes.length
  · obtain ⟨elem, header, elems, hheader, rfl⟩ := exists_listHeader hlong
    obtain ⟨between, hbegin, hbetween⟩ := readListBegin_whole hheader hreading
    simp only [hbegin, Option.bind_eq_bind, Option.bind_some, skipLoop_elements,
      Option.map_eq_some_iff] at hskip
    obtain ⟨⟨last, more⟩, hloop, hresult⟩ := hskip
    obtain ⟨rfl, rfl⟩ := Prod.mk.inj hresult
    obtain ⟨rest, missing, hall, hafter, hcount⟩ := accounts_all hskips _ hbetween hloop
    refine ⟨elem, header, elems, rest, missing, hheader, rfl, hall, hafter, ?_⟩
    have hwhole : (elem :: header).length = 5 := by rw [List.length_cons, hheader]
    exact hcount.behind_header hwhole
  · obtain ⟨next, elem, hbegin⟩ := readListBegin_short hreading (by omega)
    rw [hbegin] at hskip
    cases hskip

theorem number_lt {header : List UInt8} (hheader : header.length = 4) :
    number header < 2 ^ 32 := by
  have hlt := Bytes.decode_lt header.reverse
  rw [List.length_reverse, hheader] at hlt
  exact hlt

private theorem skip_accounts (fuel : Nat) (type : TType) :
    Accounts (skip heap fuel type) (.value type) := by
  induction fuel generalizing type with
  | zero =>
    intro limit buf bytes after count _ hskip
    cases hskip
  | succ fuel ih =>
    intro limit buf bytes after count hreading hskip
    cases hwidth : width type with
    | some length =>
      obtain ⟨next, hnext, hafter⟩ := skip_width heap hwidth hreading
      obtain ⟨rfl, rfl⟩ := Prod.mk.inj (Option.some.inj ((hnext fuel).symm.trans hskip))
      exact ⟨_, _, .fixed hwidth bytes, hafter, counts_behind length bytes⟩
    | none =>
      cases type with
      | string =>
        rw [skip] at hskip
        by_cases hlong : 4 ≤ bytes.length
        · obtain ⟨header, rest, hheader, rfl⟩ := exists_header hlong
          obtain ⟨between, hsize, hbetween⟩ := readI32_append hheader hreading
          obtain ⟨next, hnext, hafter⟩ :=
            skipBytes_reading heap hbetween (UInt32.ofNat (number header))
          have hnumber : (UInt32.ofNat (number header)).toNat = number header := by
            rw [UInt32.toNat_ofNat', Nat.mod_eq_of_lt (number_lt hheader)]
          simp only [hsize, Option.bind_eq_bind, Option.bind_some, hnext] at hskip
          obtain ⟨rfl, rfl⟩ := Prod.mk.inj (Option.some.inj hskip)
          rw [hnumber] at hafter
          refine ⟨_, _, .string hheader rest, hafter, ?_⟩
          exact (counts_behind (number header) rest).behind_header hheader
        · obtain ⟨next, hsize⟩ := readI32_short hreading (by omega)
          rw [hsize] at hskip
          cases hskip
      | struct =>
        obtain ⟨rest, missing, hfields, hafter, hcount⟩ := accounts_fields ih fuel hreading hskip
        exact ⟨rest, missing, .struct hfields, hafter, hcount⟩
      | map =>
        rw [skip] at hskip
        by_cases hlong : 6 ≤ bytes.length
        · obtain ⟨key, value, header, rest, hheader, rfl⟩ := exists_mapHeader hlong
          obtain ⟨between, hbegin, hbetween⟩ := readMapBegin_whole hheader hreading
          simp only [hbegin, Option.bind_eq_bind, Option.bind_some, skipLoop_entries,
            Option.map_eq_some_iff] at hskip
          obtain ⟨⟨last, more⟩, hloop, hresult⟩ := hskip
          obtain ⟨rfl, rfl⟩ := Prod.mk.inj hresult
          obtain ⟨final, missing, hall, hafter, hcount⟩ := accounts_all ih _ hbetween hloop
          refine ⟨final, missing, .map hheader hall, hafter, ?_⟩
          have hwhole : (key :: value :: header).length = 6 := by
            simp only [List.length_cons, hheader]
          exact hcount.behind_header hwhole
        · obtain ⟨next, key, value, hbegin⟩ := readMapBegin_short hreading (by omega)
          rw [hbegin] at hskip
          cases hskip
      | set =>
        obtain ⟨elem, header, elems, rest, missing, hheader, rfl, helems, hafter, hcount⟩ :=
          elements_account ih hreading hskip
        exact ⟨rest, missing, .set hheader helems, hafter, hcount⟩
      | list =>
        obtain ⟨elem, header, elems, rest, missing, hheader, rfl, helems, hafter, hcount⟩ :=
          elements_account ih hreading hskip
        exact ⟨rest, missing, .list hheader helems, hafter, hcount⟩
      | _ => cases hwidth

/-- What `skip` does of a part, to some depth and over some number of fields. -/
def skipPart (heap : Heap) (depth fuel : Nat) : Part → Skipper
  | .value type => skip heap depth type
  | .fields => fun buf => fieldLoop (skip heap depth) fuel buf 0
  | .all types => skipAll (skip heap depth) types

/-- With enough depth and fuel a part is skipped up to what follows it. -/
def Passes (heap : Heap) (part : Part) (bytes rest : List UInt8) (missing : Nat) : Prop :=
  ∀ {limit buf}, Buffer.Reading limit buf bytes → ∃ least after count,
    (∀ depth fuel, least ≤ depth → least ≤ fuel →
      skipPart heap depth fuel part buf = some (after, count)) ∧
    after.Reading limit rest ∧ Counts count bytes rest missing

private theorem passes_string {header : List UInt8} (hheader : header.length = 4)
    (bytes : List UInt8) :
    Passes heap (.value .string) (header ++ bytes) (behind (number header) bytes)
      (cut (number header) bytes) := by
  intro limit buf hreading
  obtain ⟨between, hsize, hbetween⟩ := readI32_append hheader hreading
  obtain ⟨next, hnext, hafter⟩ :=
    skipBytes_reading heap hbetween (UInt32.ofNat (number header))
  have hnumber : (UInt32.ofNat (number header)).toNat = number header := by
    rw [UInt32.toNat_ofNat', Nat.mod_eq_of_lt (number_lt hheader)]
  rw [hnumber] at hafter
  refine ⟨1, next, 4 + UInt32.ofNat (number header), fun depth fuel hdepth _ => ?_, hafter, ?_⟩
  · obtain ⟨depth, rfl⟩ := Nat.exists_eq_add_one.mpr hdepth
    simp only [skipPart, skip, hsize, Option.bind_eq_bind, Option.bind_some, hnext]
    rfl
  · exact (counts_behind (number header) bytes).behind_header hheader

private theorem passes_elements {elem : UInt8} {header : List UInt8} (hheader : header.length = 4)
    (helems : Passes heap (.all (List.replicate (number header) (TType.ofByte elem))) bytes rest
      missing) (hreading : buf.Reading limit (elem :: (header ++ bytes))) :
    ∃ least after count, (∀ depth, least ≤ depth →
        skipElements (skip heap depth) buf = some (after, count)) ∧
      after.Reading limit rest ∧ Counts count (elem :: (header ++ bytes)) rest missing := by
  obtain ⟨between, hbegin, hbetween⟩ := readListBegin_whole hheader hreading
  obtain ⟨least, after, count, hall, hafter, hcount⟩ := helems hbetween
  refine ⟨least, after, 5 + count, fun depth hdepth => ?_, hafter, ?_⟩
  · have hloop : skipAll (skip heap depth) (List.replicate (number header) (TType.ofByte elem))
        between = some (after, count) := hall depth depth hdepth hdepth
    simp only [skipElements, hbegin, Option.bind_eq_bind, Option.bind_some, skipLoop_elements,
      hloop]
    rfl
  · have hwhole : (elem :: header).length = 5 := by rw [List.length_cons, hheader]
    exact hcount.behind_header hwhole

theorem Skips.passes (heap : Heap) {part : Part} (hskips : Skips part bytes rest missing) :
    Passes heap part bytes rest missing := by
  induction hskips with
  | @fixed type length hwidth bytes =>
    intro limit buf hreading
    obtain ⟨next, hnext, hafter⟩ := skip_width heap hwidth hreading
    refine ⟨1, next, _, fun depth fuel hdepth _ => ?_, hafter, counts_behind length bytes⟩
    obtain ⟨depth, rfl⟩ := Nat.exists_eq_add_one.mpr hdepth
    exact hnext depth
  | string hheader bytes => exact passes_string hheader bytes
  | struct hfields ih =>
    intro limit buf hreading
    obtain ⟨least, after, count, hskip, hafter, hcount⟩ := ih hreading
    refine ⟨least + 1, after, count, fun depth fuel hdepth _ => ?_, hafter, hcount⟩
    obtain ⟨depth, rfl⟩ := Nat.exists_eq_add_one.mpr (Nat.zero_lt_of_lt hdepth)
    exact hskip depth depth (Nat.le_of_succ_le_succ hdepth) (Nat.le_of_succ_le_succ hdepth)
  | @stop code hstop bytes =>
    intro limit buf hreading
    obtain ⟨next, hread, hnext⟩ := readFieldBegin_stop hreading hstop
    refine ⟨1, next, 1, fun depth fuel _ hfuel => ?_, hnext, counts_append [code] bytes⟩
    obtain ⟨fuel, rfl⟩ := Nat.exists_eq_add_one.mpr hfuel
    simp only [skipPart, fieldLoop, hread, Option.bind_eq_bind, Option.bind_some]
    rfl
  | @field code bytes between rest missing more hgoes hvalue hfields ihvalue ihfields =>
    intro limit buf hreading
    obtain ⟨next, id, hread, hnext⟩ := readFieldBegin_field hreading hgoes
    obtain ⟨least, middle, first, hfirst, hmiddle, hcount⟩ := ihvalue hnext
    obtain ⟨least', after, second, hsecond, hafter, hmore⟩ := ihfields hmiddle
    refine ⟨max least least' + 1, after, 3 + first + second, fun depth fuel hdepth hfuel => ?_,
      hafter, ?_⟩
    · obtain ⟨fuel, rfl⟩ := Nat.exists_eq_add_one.mpr (Nat.zero_lt_of_lt hfuel)
      have hone : skip heap depth (TType.ofByte code) next = some (middle, first) :=
        hfirst depth depth (by omega) (by omega)
      have htwo : fieldLoop (skip heap depth) fuel middle 0 = some (after, second) :=
        hsecond depth fuel (by omega) (by omega)
      simp only [skipPart, fieldLoop, hread, Option.bind_eq_bind, Option.bind_some, if_neg hgoes,
        hone]
      rw [fieldLoop_add, htwo]
      simp [add]
    · have hcode : Counts 1 (code :: bytes) bytes 0 := counts_append [code] bytes
      have hhead := hcode.trans (counts_behind 2 bytes)
      rw [Nat.zero_add] at hhead
      exact (hhead.trans hcount).trans hmore
  | @map key value header bytes rest missing hheader hentries ih =>
    intro limit buf hreading
    obtain ⟨between, hbegin, hbetween⟩ := readMapBegin_whole hheader hreading
    obtain ⟨least, after, count, hall, hafter, hcount⟩ := ih hbetween
    refine ⟨least + 1, after, 6 + count, fun depth fuel hdepth _ => ?_, hafter, ?_⟩
    · obtain ⟨depth, rfl⟩ := Nat.exists_eq_add_one.mpr (Nat.zero_lt_of_lt hdepth)
      have hloop : skipAll (skip heap depth) _ between = some (after, count) :=
        hall depth depth (Nat.le_of_succ_le_succ hdepth) (Nat.le_of_succ_le_succ hdepth)
      simp only [skipPart, skip, hbegin, Option.bind_eq_bind, Option.bind_some, skipLoop_entries,
        hloop]
      rfl
    · have hwhole : (key :: value :: header).length = 6 := by
        simp only [List.length_cons, hheader]
      exact hcount.behind_header hwhole
  | set hheader helems ih =>
    intro limit buf hreading
    obtain ⟨least, after, count, hskip, hafter, hcount⟩ := passes_elements hheader ih hreading
    refine ⟨least + 1, after, count, fun depth fuel hdepth _ => ?_, hafter, hcount⟩
    obtain ⟨depth, rfl⟩ := Nat.exists_eq_add_one.mpr (Nat.zero_lt_of_lt hdepth)
    exact hskip depth (Nat.le_of_succ_le_succ hdepth)
  | list hheader helems ih =>
    intro limit buf hreading
    obtain ⟨least, after, count, hskip, hafter, hcount⟩ := passes_elements hheader ih hreading
    refine ⟨least + 1, after, count, fun depth fuel hdepth _ => ?_, hafter, hcount⟩
    obtain ⟨depth, rfl⟩ := Nat.exists_eq_add_one.mpr (Nat.zero_lt_of_lt hdepth)
    exact hskip depth (Nat.le_of_succ_le_succ hdepth)
  | nil bytes =>
    intro limit buf hreading
    exact ⟨0, buf, 0, fun _ _ _ _ => rfl, hreading, counts_nil bytes⟩
  | @cons type types bytes between rest missing more hvalue hrest ihvalue ihrest =>
    intro limit buf hreading
    obtain ⟨least, middle, first, hfirst, hmiddle, hcount⟩ := ihvalue hreading
    obtain ⟨least', after, second, hsecond, hafter, hmore⟩ := ihrest hmiddle
    refine ⟨max least least', after, first + second, fun depth fuel hdepth hfuel => ?_, hafter,
      hcount.trans hmore⟩
    have hone : skip heap depth type buf = some (middle, first) :=
      hfirst depth fuel (by omega) (by omega)
    have htwo : skipAll (skip heap depth) types middle = some (after, second) :=
      hsecond depth fuel (by omega) (by omega)
    simp only [skipPart, skipAll, hone, Option.bind_eq_bind, Option.bind_some, htwo]
    rfl

/-- Reading mode, with the cursor in front of the limit and the limit in the storage. -/
structure Readable (buf : Buffer) : Prop where
  valid : buf.limit ≠ Buffer.invalidValue
  ordered : buf.current ≤ buf.limit
  inside : buf.limit.toNat ≤ buf.size

def unread (buf : Buffer) : List UInt8 :=
  (List.range (buf.limit.toNat - buf.current.toNat)).map fun i =>
    buf.bytes (buf.current.toNat + i)

theorem Readable.reading (hreadable : Readable buf) : buf.Reading buf.limit (unread buf) := by
  have hordered := UInt32.le_iff_toNat_le.mp hreadable.ordered
  refine ⟨hreadable.valid, rfl, hreadable.inside, ?_, ?_⟩
  · rw [unread, List.length_map, List.length_range]
    omega
  · rw [unread, List.length_map, List.length_range]

/-- `skip` ends without the use of a variable that was not read, and returns by how much
the cursor has moved. -/
def Exact (heap : Heap) (type : TType) (buf : Buffer) : Prop :=
  ∃ fuel after count, skip heap fuel type buf = some (after, count) ∧
    buf.current.toNat + count.toNat = after.current.toNat

private theorem behind_length_le (length : Nat) (bytes : List UInt8) :
    (behind length bytes).length ≤ bytes.length := by
  rw [behind_length]
  split_ifs <;> omega

theorem Skips.length_le {part : Part} (hskips : Skips part bytes rest missing) :
    rest.length ≤ bytes.length := by
  induction hskips with
  | fixed hwidth bytes => exact behind_length_le _ _
  | string hheader bytes =>
    rw [List.length_append]
    exact Nat.le_trans (behind_length_le _ _) (Nat.le_add_left _ _)
  | struct hfields ih => exact ih
  | stop hstop bytes => exact Nat.le_succ _
  | @field code bytes between rest missing more hgoes hvalue hfields ihvalue ihfields =>
    have hid := behind_length_le 2 bytes
    rw [List.length_cons]
    omega
  | map hheader hentries ih =>
    simp only [List.length_cons, List.length_append]
    omega
  | set hheader helems ih =>
    rw [List.length_cons, List.length_append]
    omega
  | list hheader helems ih =>
    rw [List.length_cons, List.length_append]
    omega
  | nil bytes => exact le_refl _
  | cons hvalue hrest ihvalue ihrest => exact Nat.le_trans ihrest ihvalue

private theorem exact_iff_dvd (hreading : buf.Reading limit bytes)
    (hafter : after.Reading limit rest)
    (hcount : Counts count bytes rest missing) (hle : rest.length ≤ bytes.length) :
    buf.current.toNat + count.toNat = after.current.toNat ↔ 2 ^ 32 ∣ missing := by
  have hbefore := hreading.extent
  have hbehind := hafter.extent
  have hlimit := limit.toNat_lt
  have hlt := count.toNat_lt
  have hsum := congrArg UInt32.toNat hcount
  rw [UInt32.toNat_add, UInt32.toNat_ofNat', UInt32.toNat_ofNat'] at hsum
  omega

/-- What `skip` returns is right if nothing that it reads is cut off by the limit, and
nothing that it passes over, or 2^32 bytes of that, or a multiple of it. -/
theorem skip_exact_iff (heap : Heap) (type : TType) (hreadable : Readable buf) :
    Exact heap type buf ↔
      ∃ rest missing, Skips (.value type) (unread buf) rest missing ∧ 2 ^ 32 ∣ missing := by
  have hreading := hreadable.reading
  constructor
  · rintro ⟨fuel, after, count, hskip, hmoved⟩
    obtain ⟨rest, missing, hskips, hafter, hcount⟩ := skip_accounts fuel type hreading hskip
    exact ⟨rest, missing, hskips, (exact_iff_dvd hreading hafter hcount hskips.length_le).mp hmoved⟩
  · rintro ⟨rest, missing, hskips, hdvd⟩
    obtain ⟨least, after, count, hskip, hafter, hcount⟩ := hskips.passes heap hreading
    exact ⟨least, after, count, hskip least least (le_refl _) (le_refl _),
      (exact_iff_dvd hreading hafter hcount hskips.length_le).mpr hdvd⟩

/-- A buffer that is read from the front of these bytes to their end. -/
def reader (bytes : List UInt8) : Buffer where
  current := 0
  mark := Buffer.invalidValue
  limit := UInt32.ofNat bytes.length
  capacity := 4096
  blockSize := 4096
  bytes := fun index => bytes.getD index 0
  size := 4096
  blocks := 1

/-- Two integers of 16 bits in a list. -/
theorem skip_exact_iff_list :
    Readable (reader [6, 0, 0, 0, 2, 0, 1, 0, 2]) ∧
      Exact (fun _ => none) .list (reader [6, 0, 0, 0, 2, 0, 1, 0, 2]) := by
  have hreadable : Readable (reader [6, 0, 0, 0, 2, 0, 1, 0, 2]) :=
    ⟨by decide, by decide, by decide⟩
  have helems : Skips (.all [.i16, .i16]) [0, 1, 0, 2] [] 0 :=
    .cons (@Skips.fixed .i16 2 rfl [0, 1, 0, 2]) (.cons (@Skips.fixed .i16 2 rfl [0, 2]) (.nil []))
  have hlist : Skips (.value .list) [6, 0, 0, 0, 2, 0, 1, 0, 2] [] 0 :=
    @Skips.list 6 [0, 0, 0, 2] [0, 1, 0, 2] [] 0 rfl helems
  exact ⟨hreadable, (skip_exact_iff (fun _ => none) .list hreadable).mpr
    ⟨[], 0, hlist, ⟨0, rfl⟩⟩⟩

/-- An integer of 32 bits of which there is nothing: `skip` returns 4 all the same. -/
theorem skip_short_inexact :
    ¬ ∀ (heap : Heap) (type : TType) (buf : Buffer), Readable buf → Exact heap type buf := by
  intro hall
  obtain ⟨fuel, after, count, hskip, hmoved⟩ :=
    hall (fun _ => none) .i32 (reader []) ⟨by decide, by decide, by decide⟩
  cases fuel with
  | zero => cases hskip
  | succ fuel =>
    obtain ⟨rfl, rfl⟩ := Prod.mk.inj (Option.some.inj hskip)
    exact absurd hmoved (by decide)

end Thrift

end Libsax.Net
