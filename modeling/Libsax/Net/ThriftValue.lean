import Libsax.Net.BufferRuns
import Libsax.Net.ThriftSkip

/-! Values of the protocol, as generated code writes and reads them: `skip` passes over
exactly what was written. -/
namespace Libsax.Net.Thrift

open Libsax.Lib

namespace TType

def HasValues : TType → Prop
  | .bool => True
  | .byte => True
  | .i16 => True
  | .i32 => True
  | .i64 => True
  | .double => True
  | .string => True
  | .struct => True
  | .map => True
  | .set => True
  | .list => True
  | _ => False

instance : DecidablePred HasValues := by
  intro type
  cases type <;> unfold HasValues <;> infer_instance

private theorem ofByte_toByte {type : TType} (hvalues : type.HasValues) :
    ofByte type.toByte = type := by
  cases type <;> first | rfl | exact hvalues.elim

end TType

mutual

/-- Integers are given by their bits, and so is a floating point number. The elements of a
container have its element type. -/
inductive Value : TType → Type
  | bool (value : Bool) : Value .bool
  | byte (value : UInt8) : Value .byte
  | i16 (value : UInt16) : Value .i16
  | i32 (value : UInt32) : Value .i32
  | i64 (value : UInt64) : Value .i64
  | double (bits : UInt64) : Value .double
  | string (str : List UInt8) : Value .string
  | struct (fields : Fields) : Value .struct
  | map {keyType valType : TType} (hkey : keyType.HasValues) (hval : valType.HasValues)
      (entries : Entries keyType valType) : Value .map
  | set {elemType : TType} (helem : elemType.HasValues) (elems : Elements elemType) : Value .set
  | list {elemType : TType} (helem : elemType.HasValues) (elems : Elements elemType) : Value .list

inductive Fields : Type
  | stop : Fields
  | field {fieldType : TType} (fieldId : UInt16) (value : Value fieldType) (rest : Fields) : Fields

inductive Entries : TType → TType → Type
  | nil {keyType valType : TType} : Entries keyType valType
  | cons {keyType valType : TType} (key : Value keyType) (value : Value valType)
      (rest : Entries keyType valType) : Entries keyType valType

inductive Elements : TType → Type
  | nil {elemType : TType} : Elements elemType
  | cons {elemType : TType} (value : Value elemType) (rest : Elements elemType) :
      Elements elemType

end

theorem Value.hasValues {type : TType} (value : Value type) : type.HasValues := by
  cases value <;> trivial

def Entries.size {keyType valType : TType} : Entries keyType valType → Nat
  | .nil => 0
  | .cons _ _ rest => rest.size + 1

def Elements.size {elemType : TType} : Elements elemType → Nat
  | .nil => 0
  | .cons _ rest => rest.size + 1

def andThen (first second : Writer) : Writer := fun buf => do
  let (buf, wsize) ← first buf
  let (buf, more) ← second buf
  return (buf, wsize + more)

mutual

def Value.write (heap : Heap) {type : TType} : Value type → Writer
  | .bool value => writeBool heap value
  | .byte value => writeByte heap value
  | .i16 value => writeI16 heap value
  | .i32 value => writeI32 heap value
  | .i64 value => writeI64 heap value
  | .double bits => writeDouble heap bits
  | .string str => writeString heap str
  | .struct fields => fields.write heap
  | @Value.map keyType valType _ _ entries =>
    andThen (writeMapBegin heap keyType valType (UInt32.ofNat entries.size)) (entries.write heap)
  | @Value.set elemType _ elems =>
    andThen (writeSetBegin heap elemType (UInt32.ofNat elems.size)) (elems.write heap)
  | @Value.list elemType _ elems =>
    andThen (writeListBegin heap elemType (UInt32.ofNat elems.size)) (elems.write heap)

def Fields.write (heap : Heap) : Fields → Writer
  | .stop => writeFieldStop heap
  | @Fields.field fieldType fieldId value rest =>
    andThen (writeFieldBegin heap fieldType fieldId) (andThen (value.write heap) (rest.write heap))

def Entries.write (heap : Heap) {keyType valType : TType} : Entries keyType valType → Writer
  | .nil => fun buf => some (buf, 0)
  | .cons key value rest =>
    andThen (key.write heap) (andThen (value.write heap) (rest.write heap))

def Elements.write (heap : Heap) {elemType : TType} : Elements elemType → Writer
  | .nil => fun buf => some (buf, 0)
  | .cons value rest => andThen (value.write heap) (rest.write heap)

end

def bigEndian (size number : Nat) : List UInt8 := (Bytes.encode size number).reverse

mutual

def Value.bytes {type : TType} : Value type → List UInt8
  | .bool value => [if value then 1 else 0]
  | .byte value => [value]
  | .i16 value => bigEndian 2 value.toNat
  | .i32 value => bigEndian 4 value.toNat
  | .i64 value => bigEndian 8 value.toNat
  | .double bits => bigEndian 8 bits.toNat
  | .string str => bigEndian 4 str.length ++ str
  | .struct fields => fields.bytes
  | @Value.map keyType valType _ _ entries =>
    keyType.toByte :: valType.toByte :: (bigEndian 4 entries.size ++ entries.bytes)
  | @Value.set elemType _ elems => elemType.toByte :: (bigEndian 4 elems.size ++ elems.bytes)
  | @Value.list elemType _ elems => elemType.toByte :: (bigEndian 4 elems.size ++ elems.bytes)

def Fields.bytes : Fields → List UInt8
  | .stop => [TType.stop.toByte]
  | @Fields.field fieldType fieldId value rest =>
    fieldType.toByte :: (bigEndian 2 fieldId.toNat ++ (value.bytes ++ rest.bytes))

def Entries.bytes {keyType valType : TType} : Entries keyType valType → List UInt8
  | .nil => []
  | .cons key value rest => key.bytes ++ (value.bytes ++ rest.bytes)

def Elements.bytes {elemType : TType} : Elements elemType → List UInt8
  | .nil => []
  | .cons value rest => value.bytes ++ rest.bytes

end

def readElements {elemType : TType} (read : Buffer → Option (Buffer × Value elemType × UInt32)) :
    Nat → Buffer → Option (Buffer × Elements elemType × UInt32)
  | 0, buf => some (buf, .nil, 0)
  | size + 1, buf => do
    let (buf, value, result) ← read buf
    let (buf, rest, more) ← readElements read size buf
    return (buf, .cons value rest, result + more)

def readEntries {keyType valType : TType}
    (readKey : Buffer → Option (Buffer × Value keyType × UInt32))
    (readVal : Buffer → Option (Buffer × Value valType × UInt32)) :
    Nat → Buffer → Option (Buffer × Entries keyType valType × UInt32)
  | 0, buf => some (buf, .nil, 0)
  | size + 1, buf => do
    let (buf, key, result) ← readKey buf
    let (buf, value, more) ← readVal buf
    let (buf, rest, last) ← readEntries readKey readVal size buf
    return (buf, .cons key value rest, result + (more + last))

def readFields (read : (type : TType) → Buffer → Option (Buffer × Value type × UInt32)) :
    Nat → Buffer → Option (Buffer × Fields × UInt32)
  | 0, _ => none
  | fuel + 1, buf => do
    let (buf, fieldType, fieldId, result) ← readFieldBegin buf
    if fieldType = .stop then return (buf, .stop, result)
    let (buf, value, more) ← read fieldType buf
    let (buf, rest, last) ← readFields read fuel buf
    return (buf, .field (UInt16.ofNat (← fieldId)) value rest, result + (more + last))

/-- Reads a value element by element, to a depth of `fuel` and over as many fields. -/
def readValue : Nat → (type : TType) → Buffer → Option (Buffer × Value type × UInt32)
  | 0, _, _ => none
  | fuel + 1, type, buf =>
    match type with
    | .bool => do
      let (buf, value, result) ← readBool buf
      return (buf, .bool value, result)
    | .byte => do
      let (buf, value, result) ← readByte buf
      return (buf, .byte (UInt8.ofNat (← value)), result)
    | .i16 => do
      let (buf, value, result) ← readI16 buf
      return (buf, .i16 (UInt16.ofNat (← value)), result)
    | .i32 => do
      let (buf, value, result) ← readI32 buf
      return (buf, .i32 (UInt32.ofNat (← value)), result)
    | .i64 => do
      let (buf, value, result) ← readI64 buf
      return (buf, .i64 (UInt64.ofNat (← value)), result)
    | .double => do
      let (buf, bits, result) ← readDouble buf
      return (buf, .double (UInt64.ofNat (← bits)), result)
    | .string => do
      let (buf, str, result) ← readString buf
      return (buf, .string str, result)
    | .struct => do
      let (buf, fields, result) ← readFields (readValue fuel) fuel buf
      return (buf, .struct fields, result)
    | .map => do
      let (buf, keyType, valType, size, result) ← readMapBegin buf
      let keyType ← keyType
      let valType ← valType
      if hkey : keyType.HasValues then
        if hval : valType.HasValues then
          let (buf, entries, more) ←
            readEntries (readValue fuel keyType) (readValue fuel valType) (← size) buf
          return (buf, .map hkey hval entries, result + more)
        else none
      else none
    | .set => do
      let (buf, elemType, size, result) ← readSetBegin buf
      let elemType ← elemType
      if helem : elemType.HasValues then
        let (buf, elems, more) ← readElements (readValue fuel elemType) (← size) buf
        return (buf, .set helem elems, result + more)
      else none
    | .list => do
      let (buf, elemType, size, result) ← readListBegin buf
      let elemType ← elemType
      if helem : elemType.HasValues then
        let (buf, elems, more) ← readElements (readValue fuel elemType) (← size) buf
        return (buf, .list helem elems, result + more)
      else none
    | _ => none

variable {heap : Heap} {page limit : UInt32} {buf after : Buffer}
  {written data more bytes rest : List UInt8} {first second : Writer}

private theorem reserve_blockSize {size : UInt32} {result : Bool}
    (hreserve : buf.reserve heap size = some (after, result)) :
    after.blockSize = buf.blockSize := by
  unfold Buffer.reserve at hreserve
  by_cases hsmall : buf.capacity < size
  · rw [if_pos hsmall] at hreserve
    dsimp only at hreserve
    cases hfresh : heap buf.blocks with
    | none =>
      rw [hfresh] at hreserve
      cases hreserve
      rfl
    | some fresh =>
      rw [hfresh] at hreserve
      obtain ⟨-, hsome⟩ := Option.ite_none_right_eq_some.mp hreserve
      cases hsome
      rfl
  · rw [if_neg hsmall] at hreserve
    cases hreserve
    rfl

theorem put_blockSize {result : Bool} (hput : buf.put heap data = some (after, result)) :
    after.blockSize = buf.blockSize := by
  unfold Buffer.put at hput
  by_cases hreading : buf.limit ≠ Buffer.invalidValue
  · rw [if_pos hreading] at hput
    cases hput
    rfl
  · rw [if_neg hreading] at hput
    cases hreserve : Buffer.reserve heap buf (buf.current + UInt32.ofNat data.length) with
    | none =>
      rw [hreserve] at hput
      cases hput
    | some outcome =>
      obtain ⟨grown, ok⟩ := outcome
      rw [hreserve] at hput
      rw [← reserve_blockSize hreserve]
      cases ok with
      | false =>
        cases hput
        rfl
      | true =>
        obtain ⟨-, hsome⟩ := Option.ite_none_right_eq_some.mp hput
        cases hsome
        rfl

/-- Writing mode, with these bytes in front of the cursor. -/
structure Writing (page : UInt32) (buf : Buffer) (written : List UInt8) : Prop where
  page : buf.blockSize = page
  refines : ∃ flat, buf.Refines flat ∧ flat.limit = none ∧ flat.position = written.length ∧
    ∀ i byte, written[i]? = some byte → flat.cells i = some byte

/-- That many bytes fit into whole pages, whose size is one of 32 bits. -/
def Fits (page : UInt32) (length : Nat) : Prop :=
  length < 2 ^ 32 - 1 ∧ length + page.toNat ≤ 2 ^ 32

theorem Fits.mono {length longer : Nat} (hfits : Fits page longer) (hle : length ≤ longer) :
    Fits page length :=
  ⟨Nat.lt_of_le_of_lt hle hfits.1, Nat.le_trans (Nat.add_le_add_right hle _) hfits.2⟩

theorem Writing.put (hheap : ∀ block, (heap block).isSome) (hwriting : Writing page buf written)
    (data : List UInt8) (hfits : Fits page (written.length + data.length)) :
    ∃ after, buf.put heap data = some (after, true) ∧ Writing page after (written ++ data) := by
  obtain ⟨hpage, flat, hrefines, hlimit, hposition, hcells⟩ := hwriting
  have hcurrent := hrefines.position
  have hbounded := hfits.1
  have hgrowth := hfits.2
  have hfit : buf.Fits data.length := ⟨by omega, fun _ => by rw [hpage]; omega⟩
  obtain ⟨after, hput, hafter⟩ := hrefines.put hheap fun _ => hfit
  have hflat : flat.put data = (flat.write (data.map some), true) := by
    rw [FlatBuffer.put, hlimit]
    rfl
  rw [hflat] at hput hafter
  refine ⟨after, hput, (put_blockSize hput).trans hpage, _, hafter, hlimit, ?_, ?_⟩
  · simp [FlatBuffer.write, hposition]
  · intro i byte hbyte
    simp only [FlatBuffer.write, List.length_map, hposition]
    by_cases hold : i < written.length
    · rw [List.getElem?_append_left hold] at hbyte
      rw [if_neg (by omega)]
      exact hcells i byte hbyte
    · rw [List.getElem?_append_right (by omega)] at hbyte
      have hlt := (List.getElem?_eq_some_iff.mp hbyte).1
      rw [if_pos (by omega), List.getElem?_map, hbyte]
      rfl

def Writes (heap : Heap) (writer : Writer) (data : List UInt8) : Prop :=
  (∀ block, (heap block).isSome) → ∀ {page buf written}, Writing page buf written →
    Fits page (written.length + data.length) →
    ∃ after, writer buf = some (after, UInt32.ofNat data.length) ∧
      Writing page after (written ++ data)

theorem Writes.andThen (hfirst : Writes heap first data) (hsecond : Writes heap second more) :
    Writes heap (andThen first second) (data ++ more) := by
  intro hheap page buf written hwriting hfits
  have hlength : (written ++ data).length + more.length =
      written.length + (data ++ more).length := by
    simp only [List.length_append]
    omega
  obtain ⟨between, hone, hbetween⟩ := hfirst hheap hwriting (hfits.mono (by
    rw [List.length_append]
    omega))
  obtain ⟨after, htwo, hafter⟩ := hsecond hheap hbetween (hlength ▸ hfits)
  refine ⟨after, ?_, by rw [← List.append_assoc]; exact hafter⟩
  simp [Thrift.andThen, hone, htwo, UInt32.ofNat_add]

@[simp] private theorem writes_nil : Writes heap (fun buf => some (buf, 0)) [] := by
  intro _ page buf written hwriting _
  exact ⟨buf, rfl, by rw [List.append_nil]; exact hwriting⟩

private theorem writes_of_put {writer : Writer} (hwriter : ∀ {buf after},
      buf.put heap data = some (after, true) →
      writer buf = some (after, UInt32.ofNat data.length)) :
    Writes heap writer data := by
  intro hheap page buf written hwriting hfits
  obtain ⟨after, hput, hafter⟩ := hwriting.put hheap data hfits
  exact ⟨after, hwriter hput, hafter⟩

private theorem writes_byte (byte : UInt8) : Writes heap (writeByte heap byte) [byte] := by
  apply writes_of_put
  intro buf after hput
  simp [writeByte, hput]

private theorem writes_bool (value : Bool) :
    Writes heap (writeBool heap value) [if value then 1 else 0] := by
  apply writes_of_put
  intro buf after hput
  simp [writeBool, hput]

private theorem writes_int {size number : Nat} {count : UInt32}
    (hcount : count = UInt32.ofNat size) :
    Writes heap (fun buf => do
      let (buf, _) ← buf.putInt heap size number true
      return (buf, count)) (bigEndian size number) := by
  apply writes_of_put
  intro buf after hput
  have hput : buf.putInt heap size number true = some (after, true) :=
    (Buffer.putInt_eq heap buf size number true).trans hput
  simp [hput, hcount, bigEndian]

private theorem writes_i32 (heap : Heap) (i32 : UInt32) :
    Writes heap (writeI32 heap i32) (bigEndian 4 i32.toNat) :=
  writes_int rfl

private theorem writes_string (str : List UInt8) :
    Writes heap (writeString heap str) (bigEndian 4 str.length ++ str) := by
  intro hheap page buf written hwriting hfits
  have hlong := hfits.1
  rw [List.length_append] at hlong
  have hsize : (UInt32.ofNat str.length).toNat = str.length := by
    rw [UInt32.toNat_ofNat', Nat.mod_eq_of_lt (by omega)]
  have hheader := writes_i32 heap (UInt32.ofNat str.length)
  rw [hsize] at hheader
  by_cases hempty : str = []
  · subst hempty
    obtain ⟨after, hwrite, hafter⟩ := hheader hheap hwriting hfits
    refine ⟨after, ?_, by rw [List.append_nil]; exact hafter⟩
    simp only [writeString, hwrite, Option.bind_eq_bind, Option.bind_some]
    rfl
  · have hbody : Writes heap (fun buf => do
        let (buf, _) ← buf.put heap (str.take (UInt32.ofNat str.length).toNat)
        return (buf, UInt32.ofNat str.length)) str := by
      apply writes_of_put
      intro buf after hput
      rw [hsize, List.take_length]
      simp [hput]
    obtain ⟨after, hwrite, hafter⟩ := hheader.andThen hbody hheap hwriting hfits
    refine ⟨after, ?_, hafter⟩
    have hpos : UInt32.ofNat str.length > 0 := by
      rw [gt_iff_lt, UInt32.lt_iff_toNat_lt, hsize]
      exact List.length_pos_iff.mpr hempty
    rw [← hwrite]
    simp [writeString, andThen, hpos, Option.bind_assoc]

private theorem writes_listBegin (elemType : TType) {size : Nat} (hsize : size < 2 ^ 32) :
    Writes heap (writeListBegin heap elemType (UInt32.ofNat size))
      (elemType.toByte :: bigEndian 4 size) := by
  have hheader := (writes_byte elemType.toByte).andThen
    (writes_i32 heap (UInt32.ofNat size))
  rw [UInt32.toNat_ofNat', Nat.mod_eq_of_lt hsize] at hheader
  exact hheader

private theorem writes_mapBegin (keyType valType : TType) {size : Nat} (hsize : size < 2 ^ 32) :
    Writes heap (writeMapBegin heap keyType valType (UInt32.ofNat size))
      (keyType.toByte :: valType.toByte :: bigEndian 4 size) := by
  have hheader := ((writes_byte keyType.toByte).andThen
    (writes_byte valType.toByte)).andThen (writes_i32 heap (UInt32.ofNat size))
  rw [UInt32.toNat_ofNat', Nat.mod_eq_of_lt hsize] at hheader
  have hsame : writeMapBegin heap keyType valType (UInt32.ofNat size) =
      andThen (andThen (writeByte heap keyType.toByte) (writeByte heap valType.toByte))
        (writeI32 heap (UInt32.ofNat size)) := by
    funext buf
    simp [writeMapBegin, andThen, Option.bind_assoc]
  rw [hsame]
  exact hheader

private theorem writes_fieldBegin (fieldType : TType) (fieldId : UInt16) :
    Writes heap (writeFieldBegin heap fieldType fieldId)
      (fieldType.toByte :: bigEndian 2 fieldId.toNat) :=
  (writes_byte fieldType.toByte).andThen (writes_int rfl)

@[simp] private theorem bigEndian_length (size number : Nat) :
    (bigEndian size number).length = size := by
  rw [bigEndian, List.length_reverse, Bytes.encode_length]

theorem Value.bytes_pos {type : TType} (value : Value type) : 0 < value.bytes.length := by
  cases value with
  | struct fields => cases fields <;> simp [Value.bytes, Fields.bytes]
  | string str =>
    rw [Value.bytes, List.length_append, bigEndian_length]
    omega
  | _ => simp [Value.bytes, bigEndian_length]

theorem Entries.size_le {keyType valType : TType} (entries : Entries keyType valType) :
    entries.size ≤ entries.bytes.length := by
  match entries with
  | .nil => exact le_refl _
  | .cons key value rest =>
    have hkey := key.bytes_pos
    have hrest := rest.size_le
    simp only [Entries.size, Entries.bytes, List.length_append]
    omega

theorem Elements.size_le {elemType : TType} (elems : Elements elemType) :
    elems.size ≤ elems.bytes.length := by
  match elems with
  | .nil => exact le_refl _
  | .cons value rest =>
    have hvalue := value.bytes_pos
    have hrest := rest.size_le
    simp only [Elements.size, Elements.bytes, List.length_append]
    omega

theorem Writes.container {writer contents : Writer} {size : Nat} (hsize : size ≤ more.length)
    (hbegin : size < 2 ^ 32 → Writes heap writer data) (hcontents : Writes heap contents more) :
    Writes heap (Thrift.andThen writer contents) (data ++ more) := by
  intro hheap page buf written hwriting hfits
  have hlong := hfits.1
  rw [List.length_append] at hlong
  exact (hbegin (by omega)).andThen hcontents hheap hwriting hfits

mutual

theorem Value.writes (heap : Heap) {type : TType} :
    ∀ value : Value type, Writes heap (value.write heap) value.bytes
  | .bool value => by
    rw [Value.write, Value.bytes]
    exact writes_bool value
  | .byte value => by
    rw [Value.write, Value.bytes]
    exact writes_byte value
  | .i16 value => by
    rw [Value.write, Value.bytes]
    exact writes_int rfl
  | .i32 value => by
    rw [Value.write, Value.bytes]
    exact writes_int rfl
  | .i64 value => by
    rw [Value.write, Value.bytes]
    exact writes_int rfl
  | .double bits => by
    rw [Value.write, Value.bytes]
    exact writes_int rfl
  | .string str => by
    rw [Value.write, Value.bytes]
    exact writes_string str
  | .struct fields => by
    rw [Value.write, Value.bytes]
    exact fields.writes heap
  | .map hkey hval entries => by
    rw [Value.write, Value.bytes]
    exact Writes.container entries.size_le (writes_mapBegin _ _) (entries.writes heap)
  | .set helem elems => by
    rw [Value.write, Value.bytes]
    exact Writes.container elems.size_le (writes_listBegin _) (elems.writes heap)
  | .list helem elems => by
    rw [Value.write, Value.bytes]
    exact Writes.container elems.size_le (writes_listBegin _) (elems.writes heap)

theorem Fields.writes (heap : Heap) :
    ∀ fields : Fields, Writes heap (fields.write heap) fields.bytes
  | .stop => by
    rw [Fields.write, Fields.bytes]
    exact writes_byte _
  | .field fieldId value rest => by
    rw [Fields.write, Fields.bytes]
    exact (writes_fieldBegin _ fieldId).andThen ((value.writes heap).andThen (rest.writes heap))

theorem Entries.writes (heap : Heap) {keyType valType : TType} :
    ∀ entries : Entries keyType valType, Writes heap (entries.write heap) entries.bytes
  | .nil => by
    rw [Entries.write, Entries.bytes]
    exact writes_nil
  | .cons key value rest => by
    rw [Entries.write, Entries.bytes]
    exact (key.writes heap).andThen ((value.writes heap).andThen (rest.writes heap))

theorem Elements.writes (heap : Heap) {elemType : TType} :
    ∀ elems : Elements elemType, Writes heap (elems.write heap) elems.bytes
  | .nil => by
    rw [Elements.write, Elements.bytes]
    exact writes_nil
  | .cons value rest => by
    rw [Elements.write, Elements.bytes]
    exact (value.writes heap).andThen (rest.writes heap)

end

private theorem number_bigEndian {size number : Nat} (hlt : number < 256 ^ size) :
    Thrift.number (bigEndian size number) = number := by
  rw [Thrift.number, bigEndian, List.reverse_reverse, Bytes.decode_encode, Nat.mod_eq_of_lt hlt]

@[simp] private theorem behind_append (front rest : List UInt8) : behind front.length
    (front ++ rest) = rest := by
  simp [behind]

@[simp] private theorem cut_append (front rest : List UInt8) : cut front.length
    (front ++ rest) = 0 := by
  simp [cut]

private theorem skips_fixed {type : TType} (hwidth : width type = some data.length)
    (rest : List UInt8) :
    Skips (.value type) (data ++ rest) rest 0 := by
  have hskips := Skips.fixed hwidth (data ++ rest)
  rw [behind_append, cut_append] at hskips
  exact hskips

private theorem skips_string {str : List UInt8} (hlength : str.length < 2 ^ 32)
    (rest : List UInt8) :
    Skips (.value .string) (bigEndian 4 str.length ++ (str ++ rest)) rest 0 := by
  have hskips := Skips.string (bigEndian_length 4 str.length) (str ++ rest)
  rw [number_bigEndian hlength, behind_append, cut_append] at hskips
  exact hskips

private theorem skips_field {type : TType} (hvalues : type.HasValues) (fieldId : UInt16)
    {between : List UInt8} (hvalue : Skips (.value type) bytes between 0)
    (hfields : Skips .fields between rest 0) :
    Skips .fields (type.toByte :: (bigEndian 2 fieldId.toNat ++ bytes)) rest 0 := by
  have hcode := TType.ofByte_toByte hvalues
  have hbehind := behind_append (bigEndian 2 fieldId.toNat) bytes
  have hcut := cut_append (bigEndian 2 fieldId.toNat) bytes
  rw [bigEndian_length] at hbehind hcut
  have hskips : Skips .fields (type.toByte :: (bigEndian 2 fieldId.toNat ++ bytes)) rest
      (cut 2 (bigEndian 2 fieldId.toNat ++ bytes) + 0 + 0) := by
    apply Skips.field
    · rw [hcode]
      rintro rfl
      exact hvalues.elim
    · rw [hcode, hbehind]
      exact hvalue
    · exact hfields
  rw [hcut] at hskips
  exact hskips

mutual

theorem Value.skips {type : TType} : ∀ (value : Value type) (rest : List UInt8),
    value.bytes.length < 2 ^ 32 → Skips (.value type) (value.bytes ++ rest) rest 0
  | .bool value, rest, _ => by
    rw [Value.bytes]
    exact skips_fixed rfl rest
  | .byte value, rest, _ => by
    rw [Value.bytes]
    exact skips_fixed rfl rest
  | .i16 value, rest, _ => by
    rw [Value.bytes]
    exact skips_fixed (by rw [bigEndian_length]; rfl) rest
  | .i32 value, rest, _ => by
    rw [Value.bytes]
    exact skips_fixed (by rw [bigEndian_length]; rfl) rest
  | .i64 value, rest, _ => by
    rw [Value.bytes]
    exact skips_fixed (by rw [bigEndian_length]; rfl) rest
  | .double bits, rest, _ => by
    rw [Value.bytes]
    exact skips_fixed (by rw [bigEndian_length]; rfl) rest
  | .string str, rest, hlt => by
    rw [Value.bytes, List.length_append] at hlt
    rw [Value.bytes, List.append_assoc]
    exact skips_string (by omega) rest
  | .struct fields, rest, hlt => by
    rw [Value.bytes] at hlt ⊢
    exact .struct (fields.skips rest hlt)
  | @Value.map keyType valType hkey hval entries, rest, hlt => by
    have hsize := entries.size_le
    simp only [Value.bytes, List.length_cons, List.length_append] at hlt
    rw [Value.bytes, List.cons_append, List.cons_append, List.append_assoc]
    refine .map (bigEndian_length 4 _) ?_
    rw [number_bigEndian (Nat.lt_of_le_of_lt hsize (by omega)), TType.ofByte_toByte hkey,
      TType.ofByte_toByte hval]
    exact entries.skips rest (by omega)
  | @Value.set elemType helem elems, rest, hlt => by
    have hsize := elems.size_le
    simp only [Value.bytes, List.length_cons, List.length_append] at hlt
    rw [Value.bytes, List.cons_append, List.append_assoc]
    refine .set (bigEndian_length 4 _) ?_
    rw [number_bigEndian (Nat.lt_of_le_of_lt hsize (by omega)), TType.ofByte_toByte helem]
    exact elems.skips rest (by omega)
  | @Value.list elemType helem elems, rest, hlt => by
    have hsize := elems.size_le
    simp only [Value.bytes, List.length_cons, List.length_append] at hlt
    rw [Value.bytes, List.cons_append, List.append_assoc]
    refine .list (bigEndian_length 4 _) ?_
    rw [number_bigEndian (Nat.lt_of_le_of_lt hsize (by omega)), TType.ofByte_toByte helem]
    exact elems.skips rest (by omega)

theorem Fields.skips : ∀ (fields : Fields) (rest : List UInt8),
    fields.bytes.length < 2 ^ 32 → Skips .fields (fields.bytes ++ rest) rest 0
  | .stop, rest, _ => .stop rfl rest
  | .field fieldId value more, rest, hlt => by
    simp only [Fields.bytes, List.length_cons, List.length_append] at hlt
    rw [Fields.bytes, List.cons_append, List.append_assoc, List.append_assoc]
    exact skips_field value.hasValues fieldId (value.skips _ (by omega)) (more.skips rest (by omega))

theorem Entries.skips {keyType valType : TType} :
    ∀ (entries : Entries keyType valType) (rest : List UInt8), entries.bytes.length < 2 ^ 32 →
      Skips (.all (List.replicate entries.size [keyType, valType]).flatten)
        (entries.bytes ++ rest) rest 0
  | .nil, rest, _ => .nil rest
  | .cons key value more, rest, hlt => by
    simp only [Entries.bytes, List.length_append] at hlt
    rw [Entries.bytes, Entries.size, List.replicate_succ, List.append_assoc, List.append_assoc]
    exact .cons (key.skips _ (by omega)) (.cons (value.skips _ (by omega))
      (more.skips rest (by omega)))

theorem Elements.skips {elemType : TType} : ∀ (elems : Elements elemType) (rest : List UInt8),
    elems.bytes.length < 2 ^ 32 →
      Skips (.all (List.replicate elems.size elemType)) (elems.bytes ++ rest) rest 0
  | .nil, rest, _ => .nil rest
  | .cons value more, rest, hlt => by
    simp only [Elements.bytes, List.length_append] at hlt
    rw [Elements.bytes, Elements.size, List.replicate_succ, List.append_assoc]
    exact .cons (value.skips _ (by omega)) (more.skips rest (by omega))

end

/-- To enough depth and over enough fields, these bytes are read as this value. -/
def Reads {α : Type} (read : Nat → Nat → Buffer → Option (Buffer × α × UInt32)) (value : α)
    (data : List UInt8) : Prop :=
  ∀ {limit buf rest}, Buffer.Reading limit buf (data ++ rest) → ∃ least after,
    (∀ depth fuel, least ≤ depth → least ≤ fuel →
      read depth fuel buf = some (after, value, UInt32.ofNat data.length)) ∧
    after.Reading limit rest

private theorem readInt_append {size number : Nat} (hsize : size < 2 ^ 32)
    (hlt : number < 256 ^ size)
    (hreading : buf.Reading limit (bigEndian size number ++ rest)) (result : UInt32) :
    ∃ after, readInt size result buf = some (after, some number, result) ∧
      after.Reading limit rest := by
  obtain ⟨after, hread, hafter⟩ := readInt_reading hreading hsize result
  have hlength := bigEndian_length size number
  have hle : size ≤ (bigEndian size number ++ rest).length := by
    rw [List.length_append]
    omega
  rw [if_pos hle, List.take_left' hlength, number_bigEndian hlt] at hread
  have hbehind := behind_append (bigEndian size number) rest
  rw [hlength] at hbehind
  rw [hbehind] at hafter
  exact ⟨after, hread, hafter⟩

private theorem reads_integer {type : TType} {size number : Nat} {value : Value type}
    (hsize : size < 2 ^ 32) (hlt : number < 256 ^ size)
    (hread : ∀ {depth buf after}, readInt size (UInt32.ofNat size) buf =
        some (after, some number, UInt32.ofNat size) →
      readValue (depth + 1) type buf = some (after, value, UInt32.ofNat size)) :
    Reads (fun depth _ => readValue depth type) value (bigEndian size number) := by
  intro limit buf rest hreading
  obtain ⟨after, hint, hafter⟩ := readInt_append hsize hlt hreading (UInt32.ofNat size)
  refine ⟨1, after, fun depth fuel hdepth _ => ?_, hafter⟩
  obtain ⟨depth, rfl⟩ := Nat.exists_eq_add_one.mpr hdepth
  rw [bigEndian_length]
  exact hread hint

@[simp] private theorem bigEndian_one (byte : UInt8) : bigEndian 1 byte.toNat = [byte] := by
  simp [bigEndian, Bytes.encode]

private theorem reads_string {str : List UInt8} (hlength : str.length < 2 ^ 32) :
    Reads (fun depth _ => readValue depth .string) (.string str)
      (bigEndian 4 str.length ++ str) := by
  intro limit buf rest hreading
  rw [List.append_assoc] at hreading
  obtain ⟨between, hint, hbetween⟩ := readInt_append (by decide) (by omega) hreading 4
  have hsize : (UInt32.ofNat str.length).toNat = str.length := by
    rw [UInt32.toNat_ofNat', Nat.mod_eq_of_lt hlength]
  have hbody : ∃ after, readStringBody between (UInt32.ofNat str.length) =
      some (after, str, UInt32.ofNat str.length) ∧ after.Reading limit rest := by
    unfold readStringBody
    by_cases hempty : str = []
    · subst hempty
      exact ⟨between, rfl, hbetween⟩
    · have hne : UInt32.ofNat str.length ≠ 0 := by
        intro hzero
        rw [hzero] at hsize
        exact hempty (List.length_eq_zero_iff.mp hsize.symm)
      have hle : (UInt32.ofNat str.length).toNat ≤ (str ++ rest).length := by
        rw [hsize, List.length_append]
        omega
      obtain ⟨after, hget, hafter⟩ := hbetween.get_of_le hle
      rw [hsize, List.take_left, List.drop_left] at *
      refine ⟨after, ?_, hafter⟩
      rw [if_neg hne]
      simp [hget]
  obtain ⟨after, hbody, hafter⟩ := hbody
  refine ⟨1, after, fun depth fuel hdepth _ => ?_, hafter⟩
  obtain ⟨depth, rfl⟩ := Nat.exists_eq_add_one.mpr hdepth
  rw [List.length_append, bigEndian_length, UInt32.ofNat_add]
  simp only [readValue, readString, readI32, hint, Option.bind_eq_bind, Option.bind_some, hbody]
  rfl

private theorem reads_bool (value : Bool) :
    Reads (fun depth _ => readValue depth .bool) (.bool value) [if value then 1 else 0] := by
  intro limit buf rest hreading
  obtain ⟨after, hread, hafter⟩ := readByte_cons hreading
  refine ⟨1, after, fun depth fuel hdepth _ => ?_, hafter⟩
  obtain ⟨depth, rfl⟩ := Nat.exists_eq_add_one.mpr hdepth
  rw [readByte] at hread
  cases value <;> simp [readValue, readBool, hread, number, Bytes.decode]

private theorem reads_nothing {α : Type} {read : Nat → Buffer → Option (Buffer × α × UInt32)}
    {value : α} (hread : ∀ depth buf, read depth buf = some (buf, value, 0)) :
    Reads (fun depth _ => read depth) value [] := by
  intro limit buf rest hreading
  exact ⟨0, buf, fun depth _ _ _ => hread depth buf, hreading⟩

private theorem reads_stop :
    Reads (fun depth fuel => readFields (readValue depth) fuel) .stop [TType.stop.toByte] := by
  intro limit buf rest hreading
  obtain ⟨after, hread, hafter⟩ := readFieldBegin_stop hreading rfl
  refine ⟨1, after, fun depth fuel _ hfuel => ?_, hafter⟩
  obtain ⟨fuel, rfl⟩ := Nat.exists_eq_add_one.mpr hfuel
  simp [readFields, hread]

private theorem reads_struct {fields : Fields}
    (hfields : Reads (fun depth fuel => readFields (readValue depth) fuel) fields data) :
    Reads (fun depth _ => readValue depth .struct) (.struct fields) data := by
  intro limit buf rest hreading
  obtain ⟨least, after, hread, hafter⟩ := hfields hreading
  refine ⟨least + 1, after, fun depth fuel hdepth _ => ?_, hafter⟩
  obtain ⟨depth, rfl⟩ := Nat.exists_eq_add_one.mpr (Nat.zero_lt_of_lt hdepth)
  have hloop : readFields (readValue depth) depth buf =
      some (after, fields, UInt32.ofNat data.length) :=
    hread depth depth (Nat.le_of_succ_le_succ hdepth) (Nat.le_of_succ_le_succ hdepth)
  simp [readValue, hloop]

private theorem reads_field {type : TType} (fieldId : UInt16) {value : Value type} {fields : Fields}
    (hvalue : Reads (fun depth _ => readValue depth type) value data)
    (hfields : Reads (fun depth fuel => readFields (readValue depth) fuel) fields more) :
    Reads (fun depth fuel => readFields (readValue depth) fuel) (.field fieldId value fields)
      (type.toByte :: (bigEndian 2 fieldId.toNat ++ (data ++ more))) := by
  intro limit buf rest hreading
  have hcode := TType.ofByte_toByte value.hasValues
  have hgoes : type ≠ .stop := by
    rintro rfl
    exact value.hasValues.elim
  rw [List.cons_append, List.append_assoc, List.append_assoc] at hreading
  obtain ⟨between, htype, hbetween⟩ := readByte_cons hreading
  obtain ⟨next, hid, hnext⟩ := readInt_append (by decide) fieldId.toNat_lt hbetween 2
  obtain ⟨least, middle, hone, hmiddle⟩ := hvalue hnext
  obtain ⟨least', after, htwo, hafter⟩ := hfields hmiddle
  refine ⟨max least least' + 1, after, fun depth fuel hdepth hfuel => ?_, hafter⟩
  obtain ⟨fuel, rfl⟩ := Nat.exists_eq_add_one.mpr (Nat.zero_lt_of_lt hfuel)
  have hvalue : readValue depth type next = some (middle, value, UInt32.ofNat data.length) :=
    hone depth depth (by omega) (by omega)
  have hrest : readFields (readValue depth) fuel middle =
      some (after, fields, UInt32.ofNat more.length) := htwo depth fuel (by omega) (by omega)
  have hlength : (type.toByte :: (bigEndian 2 fieldId.toNat ++ (data ++ more))).length =
      3 + (data.length + more.length) := by
    simp [bigEndian_length]
    omega
  rw [hlength, UInt32.ofNat_add, UInt32.ofNat_add]
  simp only [readFields, readFieldBegin, htype, typeOf_number, hcode, Option.bind_eq_bind,
    Option.bind_some, if_neg hgoes, readI16, hid]
  simp [hgoes, hvalue, hrest]

private theorem reads_elements {elemType : TType} {value : Value elemType}
    {elems : Elements elemType}
    (hvalue : Reads (fun depth _ => readValue depth elemType) value data)
    (helems : Reads (fun depth _ => readElements (readValue depth elemType) elems.size) elems
      more) :
    Reads (fun depth _ => readElements (readValue depth elemType) (elems.size + 1))
      (.cons value elems) (data ++ more) := by
  intro limit buf rest hreading
  rw [List.append_assoc] at hreading
  obtain ⟨least, middle, hone, hmiddle⟩ := hvalue hreading
  obtain ⟨least', after, htwo, hafter⟩ := helems hmiddle
  refine ⟨max least least', after, fun depth fuel hdepth hfuel => ?_, hafter⟩
  have hfirst : readValue depth elemType buf = some (middle, value, UInt32.ofNat data.length) :=
    hone depth fuel (by omega) (by omega)
  have hrest : readElements (readValue depth elemType) elems.size middle =
      some (after, elems, UInt32.ofNat more.length) := htwo depth fuel (by omega) (by omega)
  rw [List.length_append, UInt32.ofNat_add]
  simp [readElements, hfirst, hrest]

private theorem reads_entries {keyType valType : TType} {key : Value keyType}
    {value : Value valType}
    {entries : Entries keyType valType} {last : List UInt8}
    (hkey : Reads (fun depth _ => readValue depth keyType) key data)
    (hvalue : Reads (fun depth _ => readValue depth valType) value more)
    (hentries : Reads (fun depth _ => readEntries (readValue depth keyType)
      (readValue depth valType) entries.size) entries last) :
    Reads (fun depth _ => readEntries (readValue depth keyType) (readValue depth valType)
      (entries.size + 1)) (.cons key value entries) (data ++ (more ++ last)) := by
  intro limit buf rest hreading
  rw [List.append_assoc, List.append_assoc] at hreading
  obtain ⟨least, next, hone, hnext⟩ := hkey hreading
  obtain ⟨least', middle, htwo, hmiddle⟩ := hvalue hnext
  obtain ⟨least'', after, hthree, hafter⟩ := hentries hmiddle
  refine ⟨max least (max least' least''), after, fun depth fuel hdepth hfuel => ?_, hafter⟩
  have hfirst : readValue depth keyType buf = some (next, key, UInt32.ofNat data.length) :=
    hone depth fuel (by omega) (by omega)
  have hsecond : readValue depth valType next = some (middle, value, UInt32.ofNat more.length) :=
    htwo depth fuel (by omega) (by omega)
  have hrest : readEntries (readValue depth keyType) (readValue depth valType) entries.size
      middle = some (after, entries, UInt32.ofNat last.length) :=
    hthree depth fuel (by omega) (by omega)
  rw [List.length_append, List.length_append, UInt32.ofNat_add, UInt32.ofNat_add]
  simp [readEntries, hfirst, hsecond, hrest]

private theorem readListBegin_append {elemType : TType} (helem : elemType.HasValues) {size : Nat}
    (hsize : size < 2 ^ 32)
    (hreading : buf.Reading limit (elemType.toByte :: (bigEndian 4 size ++ rest))) :
    ∃ after, readListBegin buf = some (after, some elemType, some size, 5) ∧
      after.Reading limit rest := by
  have hbegin := readListBegin_whole (bigEndian_length 4 size) hreading
  rw [TType.ofByte_toByte helem, number_bigEndian hsize] at hbegin
  exact hbegin

private theorem readMapBegin_append {keyType valType : TType} (hkey : keyType.HasValues)
    (hval : valType.HasValues) {size : Nat} (hsize : size < 2 ^ 32)
    (hreading : buf.Reading limit
      (keyType.toByte :: valType.toByte :: (bigEndian 4 size ++ rest))) :
    ∃ after, readMapBegin buf = some (after, some keyType, some valType, some size, 6) ∧
      after.Reading limit rest := by
  have hbegin := readMapBegin_whole (bigEndian_length 4 size) hreading
  rw [TType.ofByte_toByte hkey, TType.ofByte_toByte hval, number_bigEndian hsize] at hbegin
  exact hbegin

private theorem reads_sized {elemType type : TType} (helem : elemType.HasValues)
    {elems : Elements elemType} {value : Value type}
    (helems : Reads (fun depth _ => readElements (readValue depth elemType) elems.size) elems
      elems.bytes) (hsize : elems.size < 2 ^ 32)
    (hvalue : ∀ {depth : Nat} {buf between after : Buffer},
      readListBegin buf = some (between, some elemType, some elems.size, 5) →
      readElements (readValue depth elemType) elems.size between =
        some (after, elems, UInt32.ofNat elems.bytes.length) →
      readValue (depth + 1) type buf =
        some (after, value, 5 + UInt32.ofNat elems.bytes.length)) :
    Reads (fun depth _ => readValue depth type) value
      (elemType.toByte :: (bigEndian 4 elems.size ++ elems.bytes)) := by
  intro limit buf rest hreading
  rw [List.cons_append, List.append_assoc] at hreading
  obtain ⟨between, hbegin, hbetween⟩ := readListBegin_append helem hsize hreading
  obtain ⟨least, after, hread, hafter⟩ := helems hbetween
  refine ⟨least + 1, after, fun depth fuel hdepth _ => ?_, hafter⟩
  obtain ⟨depth, rfl⟩ := Nat.exists_eq_add_one.mpr (Nat.zero_lt_of_lt hdepth)
  have hloop : readElements (readValue depth elemType) elems.size between =
      some (after, elems, UInt32.ofNat elems.bytes.length) :=
    hread depth depth (Nat.le_of_succ_le_succ hdepth) (Nat.le_of_succ_le_succ hdepth)
  have hlength : (elemType.toByte :: (bigEndian 4 elems.size ++ elems.bytes)).length =
      5 + elems.bytes.length := by
    simp [bigEndian_length]
    omega
  rw [hlength, UInt32.ofNat_add]
  exact hvalue hbegin hloop

private theorem reads_list {elemType : TType} (helem : elemType.HasValues)
    {elems : Elements elemType}
    (helems : Reads (fun depth _ => readElements (readValue depth elemType) elems.size) elems
      elems.bytes) (hsize : elems.size < 2 ^ 32) :
    Reads (fun depth _ => readValue depth .list) (.list helem elems)
      (elemType.toByte :: (bigEndian 4 elems.size ++ elems.bytes)) := by
  refine reads_sized helem helems hsize fun hbegin hloop => ?_
  simp [readValue, hbegin, helem, hloop]

private theorem reads_set {elemType : TType} (helem : elemType.HasValues)
    {elems : Elements elemType}
    (helems : Reads (fun depth _ => readElements (readValue depth elemType) elems.size) elems
      elems.bytes) (hsize : elems.size < 2 ^ 32) :
    Reads (fun depth _ => readValue depth .set) (.set helem elems)
      (elemType.toByte :: (bigEndian 4 elems.size ++ elems.bytes)) := by
  refine reads_sized helem helems hsize fun hbegin hloop => ?_
  simp [readValue, readSetBegin, hbegin, helem, hloop]

private theorem reads_map {keyType valType : TType} (hkey : keyType.HasValues)
    (hval : valType.HasValues) {entries : Entries keyType valType}
    (hentries : Reads (fun depth _ => readEntries (readValue depth keyType)
      (readValue depth valType) entries.size) entries entries.bytes)
    (hsize : entries.size < 2 ^ 32) :
    Reads (fun depth _ => readValue depth .map) (.map hkey hval entries)
      (keyType.toByte :: valType.toByte :: (bigEndian 4 entries.size ++ entries.bytes)) := by
  intro limit buf rest hreading
  rw [List.cons_append, List.cons_append, List.append_assoc] at hreading
  obtain ⟨between, hbegin, hbetween⟩ := readMapBegin_append hkey hval hsize hreading
  obtain ⟨least, after, hread, hafter⟩ := hentries hbetween
  refine ⟨least + 1, after, fun depth fuel hdepth _ => ?_, hafter⟩
  obtain ⟨depth, rfl⟩ := Nat.exists_eq_add_one.mpr (Nat.zero_lt_of_lt hdepth)
  have hloop : readEntries (readValue depth keyType) (readValue depth valType) entries.size
      between = some (after, entries, UInt32.ofNat entries.bytes.length) :=
    hread depth depth (Nat.le_of_succ_le_succ hdepth) (Nat.le_of_succ_le_succ hdepth)
  have hlength : (keyType.toByte :: valType.toByte ::
      (bigEndian 4 entries.size ++ entries.bytes)).length = 6 + entries.bytes.length := by
    simp [bigEndian_length]
    omega
  rw [hlength, UInt32.ofNat_add]
  simp [readValue, hbegin, hkey, hval, hloop]

mutual

theorem Value.reads {type : TType} : ∀ value : Value type, value.bytes.length < 2 ^ 32 →
    Reads (fun depth _ => readValue depth type) value value.bytes
  | .bool value, _ => by
    rw [Value.bytes]
    exact reads_bool value
  | .byte value, _ => by
    rw [Value.bytes, ← bigEndian_one]
    refine reads_integer (by decide) value.toNat_lt fun hread => ?_
    simp [readValue, readByte] at hread ⊢
    simp [hread]
  | .i16 value, _ => by
    rw [Value.bytes]
    refine reads_integer (by decide) value.toNat_lt fun hread => ?_
    simp [readValue, readI16] at hread ⊢
    simp [hread]
  | .i32 value, _ => by
    rw [Value.bytes]
    refine reads_integer (by decide) value.toNat_lt fun hread => ?_
    simp [readValue, readI32] at hread ⊢
    simp [hread]
  | .i64 value, _ => by
    rw [Value.bytes]
    refine reads_integer (by decide) value.toNat_lt fun hread => ?_
    simp [readValue, readI64] at hread ⊢
    simp [hread]
  | .double bits, _ => by
    rw [Value.bytes]
    refine reads_integer (by decide) bits.toNat_lt fun hread => ?_
    simp [readValue, readDouble] at hread ⊢
    simp [hread]
  | .string str, hlt => by
    rw [Value.bytes, List.length_append] at hlt
    rw [Value.bytes]
    exact reads_string (by omega)
  | .struct fields, hlt => by
    rw [Value.bytes] at hlt ⊢
    exact reads_struct (fields.reads hlt)
  | .map hkey hval entries, hlt => by
    have hsize := entries.size_le
    simp only [Value.bytes, List.length_cons, List.length_append] at hlt
    rw [Value.bytes]
    exact reads_map hkey hval (entries.reads (by omega)) (by omega)
  | .set helem elems, hlt => by
    have hsize := elems.size_le
    simp only [Value.bytes, List.length_cons, List.length_append] at hlt
    rw [Value.bytes]
    exact reads_set helem (elems.reads (by omega)) (by omega)
  | .list helem elems, hlt => by
    have hsize := elems.size_le
    simp only [Value.bytes, List.length_cons, List.length_append] at hlt
    rw [Value.bytes]
    exact reads_list helem (elems.reads (by omega)) (by omega)

theorem Fields.reads : ∀ fields : Fields, fields.bytes.length < 2 ^ 32 →
    Reads (fun depth fuel => readFields (readValue depth) fuel) fields fields.bytes
  | .stop, _ => by
    rw [Fields.bytes]
    exact reads_stop
  | .field fieldId value rest, hlt => by
    simp only [Fields.bytes, List.length_cons, List.length_append] at hlt
    rw [Fields.bytes]
    exact reads_field fieldId (value.reads (by omega)) (rest.reads (by omega))

theorem Entries.reads {keyType valType : TType} : ∀ entries : Entries keyType valType,
    entries.bytes.length < 2 ^ 32 → Reads (fun depth _ => readEntries (readValue depth keyType)
      (readValue depth valType) entries.size) entries entries.bytes
  | .nil, _ => by
    rw [Entries.bytes]
    exact reads_nothing fun _ _ => rfl
  | .cons key value rest, hlt => by
    simp only [Entries.bytes, List.length_append] at hlt
    rw [Entries.bytes, Entries.size]
    exact reads_entries (key.reads (by omega)) (value.reads (by omega)) (rest.reads (by omega))

theorem Elements.reads {elemType : TType} : ∀ elems : Elements elemType,
    elems.bytes.length < 2 ^ 32 →
      Reads (fun depth _ => readElements (readValue depth elemType) elems.size) elems elems.bytes
  | .nil, _ => by
    rw [Elements.bytes]
    exact reads_nothing fun _ _ => rfl
  | .cons value rest, hlt => by
    simp only [Elements.bytes, List.length_append] at hlt
    rw [Elements.bytes, Elements.size]
    exact reads_elements (value.reads (by omega)) (rest.reads (by omega))

end

private theorem create_writing (hheap : ∀ block, (heap block).isSome) {exponent : Nat}
    (hpage : page.toNat = 2 ^ exponent) :
    ∃ buf, Buffer.create heap page = some buf ∧ Writing page buf [] := by
  obtain ⟨system, hstart, hinv⟩ := Contiguous.start_inv hheap hpage
  obtain ⟨buf, hcreate, rfl⟩ := Option.map_eq_some_iff.mp hstart
  refine ⟨buf, hcreate, ?_, .create, hinv.refines, rfl, rfl, by simp⟩
  unfold Buffer.create at hcreate
  obtain ⟨-, hsome⟩ := Option.ite_none_right_eq_some.mp hcreate
  split at hsome
  · rename_i hreserve
    cases hsome
    exact reserve_blockSize hreserve
  · cases hsome

theorem Writing.flip (hwriting : Writing page buf written) :
    buf.flip.1.Reading buf.current written := by
  obtain ⟨-, flat, hrefines, hlimit, hposition, hcells⟩ := hwriting
  have hwritten := hrefines.position
  have hinside := hrefines.inside
  have hbelow := hrefines.below
  have hsize := hrefines.size
  have hflip : buf.flip.1 =
      { buf with mark := Buffer.invalidValue, limit := buf.current, current := 0 } := by
    rw [Buffer.flip, if_neg (not_not.mpr (hrefines.writing_iff.mpr hlimit))]
  rw [hflip]
  refine ⟨?_, rfl, by dsimp only; omega, ?_, ?_⟩
  · intro hinvalid
    rw [hinvalid] at hinside
    exact absurd (Nat.lt_of_le_of_lt hinside hbelow) (by decide)
  · dsimp only
    rw [UInt32.toNat_zero, Nat.zero_add]
    omega
  · apply List.ext_getElem
    · simp
    · intro i _ hi
      have hcell := hcells i written[i] (List.getElem?_eq_getElem hi)
      simp [(hrefines.cells i _ hcell).2]

/-- A value between other bytes is written to a new buffer, and the cursor set to its
front. What is returned of `write` is kept. -/
def writtenBetween (heap : Heap) (page : UInt32) (before : List UInt8) {type : TType}
    (value : Value type) (further : List UInt8) : Option (Buffer × UInt32) := do
  let buf ← Buffer.create heap page
  let (buf, _) ← buf.put heap before
  let (buf, wsize) ← value.write heap buf
  let (buf, _) ← buf.put heap further
  let (buf, _) ← buf.flip.1.skip heap (UInt32.ofNat before.length)
  return (buf, wsize)

private theorem writtenBetween_reading (hheap : ∀ block, (heap block).isSome) {exponent : Nat}
    (hpage : page.toNat = 2 ^ exponent) {type : TType} (value : Value type)
    {before further : List UInt8}
    (hfits : Fits page (before.length + (value.bytes.length + further.length))) :
    ∃ buf limit, writtenBetween heap page before value further =
        some (buf, UInt32.ofNat value.bytes.length) ∧
      buf.Reading limit (value.bytes ++ further) := by
  obtain ⟨created, hcreate, hcreated⟩ := create_writing hheap hpage
  obtain ⟨first, hbefore, hfirst⟩ := hcreated.put hheap before (hfits.mono (by
    rw [List.length_nil]
    omega))
  rw [List.nil_append] at hfirst
  obtain ⟨second, hvalue, hsecond⟩ := value.writes heap hheap hfirst (hfits.mono (by omega))
  obtain ⟨third, hfurther, hthird⟩ := hsecond.put hheap further (hfits.mono (by
    rw [List.length_append]
    omega))
  have hbounded := hfits.1
  have hlength : (UInt32.ofNat before.length).toNat = before.length := by
    rw [UInt32.toNat_ofNat', Nat.mod_eq_of_lt (by omega)]
  have hle : (UInt32.ofNat before.length).toNat ≤ (before ++ value.bytes ++ further).length := by
    rw [hlength, List.length_append, List.length_append]
    omega
  obtain ⟨buf, hskip, hreading⟩ := hthird.flip.skip_of_le heap hle
  rw [hlength, List.append_assoc, List.drop_left] at hreading
  refine ⟨buf, third.current, ?_, hreading⟩
  simp only [writtenBetween, hcreate, hbefore, hvalue, hfurther, hskip, Option.bind_eq_bind,
    Option.bind_some]
  rfl

/-- `skip` passes over exactly the bytes that a value was written as, whatever follows
them, and so do the functions that read it. -/
theorem skip_written (heap : Heap) (hheap : ∀ block, (heap block).isSome) (page : UInt32)
    (exponent : Nat) (hpage : page.toNat = 2 ^ exponent) {type : TType} (value : Value type)
    (before further : List UInt8)
    (hfits : Fits page (before.length + (value.bytes.length + further.length))) :
    ∃ buf, writtenBetween heap page before value further =
        some (buf, UInt32.ofNat value.bytes.length) ∧
      unread buf = value.bytes ++ further ∧
      ∃ fuel skipped read,
        skip heap fuel type buf = some (skipped, UInt32.ofNat value.bytes.length) ∧
        readValue fuel type buf = some (read, value, UInt32.ofNat value.bytes.length) ∧
        skipped.current.toNat = buf.current.toNat + value.bytes.length ∧
        read.current = skipped.current := by
  obtain ⟨buf, limit, hwritten, hreading⟩ := writtenBetween_reading hheap hpage value hfits
  have hbounded := hfits.1
  have hextent := hreading.extent
  have hunread : unread buf = value.bytes ++ further := by
    have hlength : buf.limit.toNat - buf.current.toNat = (value.bytes ++ further).length := by
      rw [hreading.limited]
      omega
    rw [unread, hlength]
    exact hreading.content
  obtain ⟨least, skipped, count, hskip, hskipped, hcount⟩ :=
    (value.skips further (by omega)).passes heap hreading
  obtain ⟨least', read, hread, hafter⟩ := value.reads (by omega) hreading
  have hskippedExtent := hskipped.extent
  have hreadExtent := hafter.extent
  have hsize : count = UInt32.ofNat value.bytes.length := by
    have hsame := counts_append value.bytes further
    unfold Counts at hcount hsame
    exact (UInt32.add_left_inj _).mp (hcount.trans hsame.symm)
  refine ⟨buf, hwritten, hunread, max least least', skipped, read, ?_, ?_, ?_, ?_⟩
  · rw [← hsize]
    exact hskip _ (max least least') (le_max_left _ _) (le_max_left _ _)
  · exact hread _ (max least least') (le_max_right _ _) (le_max_right _ _)
  · rw [List.length_append] at hextent
    omega
  · apply UInt32.toNat.inj
    omega

/-- A structure with a list of two strings, one of them empty, in pages of 4096 bytes. -/
def sample : Value .struct :=
  .struct (.field 1 (.list (by decide : TType.string.HasValues)
    (.cons (.string [104, 105]) (.cons (.string []) .nil))) .stop)

theorem skip_written_sample : ∃ buf,
    writtenBetween (fun _ => some fun _ => 0) 4096 [9] sample [0, 255] = some (buf, 19) ∧
      unread buf = sample.bytes ++ [0, 255] ∧
      ∃ fuel skipped read, skip (fun _ => some fun _ => 0) fuel .struct buf = some (skipped, 19) ∧
        readValue fuel .struct buf = some (read, sample, 19) ∧
        skipped.current.toNat = buf.current.toNat + 19 ∧ read.current = skipped.current :=
  skip_written (fun _ => some fun _ => 0) (fun _ => rfl) 4096 12 rfl sample [9] [0, 255]
    ⟨by decide, by decide⟩

end Libsax.Net.Thrift
