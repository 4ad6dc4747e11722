import Mathlib.Algebra.Ring.Nat
import Mathlib.Algebra.Ring.Int.Defs
import Libsax.Lib.ByteStore
import Libsax.Lib.Run

/-! `m64_t`: a file whose first bytes are mapped into memory. Each access is split
at the end of the mapping into a copy and a file call. -/
namespace Libsax.Memory

open Libsax.Lib

/-- A file. The mapping shows the same bytes. -/
structure File where
  bytes : ByteStore
  size : Nat

namespace File

/-- `pread`, which transfers what there is up to the end of the file. -/
def pread (file : File) (amt : Int32) (offset : Int64) : List UInt8 :=
  file.bytes.read offset.toInt.toNat (min amt.toInt.toNat (file.size - offset.toInt.toNat))

/-- `pwrite`, which transfers everything; a hole in front of it reads as zeros. -/
def pwrite (file : File) (data : List UInt8) (offset : Int64) : File :=
  let start := offset.toInt.toNat
  { bytes := (file.bytes.write file.size (List.replicate (start - file.size) 0)).write start data
    size := max file.size (start + data.length) }

def f64read (file : File) (amt : Int32) (offset : Int64) : List UInt8 × Int32 :=
  let got := Int32.ofNat (file.pread amt offset).length
  (file.pread amt offset, if got < 0 then 0 else got)

/-- The loop of `f64write`; the file takes all that it is offered at once. -/
def f64writeLoop : Nat → File → List UInt8 → Int64 → Int32 → Option (File × Int32)
  | 0, _, _, _, _ => none
  | fuel + 1, file, data, offset, wrote =>
    let amt := Int32.ofNat data.length
    if amt > 0 then
      let got := amt
      f64writeLoop fuel (file.pwrite data offset) (data.drop got.toInt.toNat)
        (offset + got.toInt64) (wrote + got)
    else some (file, wrote)

def f64write (file : File) (data : List UInt8) (offset : Int64) : Option (File × Int32) :=
  f64writeLoop 2 file data offset 0

end File

/-- `shm` is the length of the mapping, if there is one. -/
structure M64 where
  file : File
  shm : Option UInt32

namespace M64

/-- `m64open`, which lets a file grow to the length of its mapping. `cc` is the
size of the file in 32 bits. -/
def «open» (file : File) (xmap : UInt32) : M64 :=
  if xmap = 0 then ⟨file, none⟩
  else
    let cc := UInt32.ofNat file.size
    if cc < xmap then ⟨file.pwrite [0] (Int64.ofNat (xmap.toNat - 1)), some xmap⟩
    else ⟨file, some xmap⟩

/-- `memcpy` out of the mapping; `none` is an access outside of it. -/
def copyOut (file : File) (len : UInt32) (offset : Int64) (amt : Int32) : Option (List UInt8) :=
  if 0 ≤ offset.toInt ∧ 0 ≤ amt.toInt ∧ offset.toInt + amt.toInt ≤ len.toNat then
    some (file.bytes.read offset.toInt.toNat amt.toInt.toNat)
  else none

def copyIn (file : File) (len : UInt32) (offset : Int64) (data : List UInt8) : Option File :=
  if 0 ≤ offset.toInt ∧ offset.toInt + data.length ≤ len.toNat then
    some { file with bytes := file.bytes.write offset.toInt.toNat data }
  else none

/-- `m64read`: what `ptr` holds then, and the count. -/
def m64read (m : M64) (amt : Int32) (offset : Int64) : Option (List UInt8 × Int32) :=
  match m.shm with
  | none => some (m.file.f64read amt offset)
  | some len =>
    let siz := Int64.ofNat len.toNat
    let «end» := offset + amt.toInt64
    if «end» ≤ siz then (copyOut m.file len offset amt).map fun bytes => (bytes, amt)
    else if offset < siz then
      let got := (siz - offset).toInt32
      (copyOut m.file len offset got).map fun front =>
        let (back, more) := m.file.f64read (amt - got) (offset + got.toInt64)
        (front ++ back, got + more)
    else some (m.file.f64read amt offset)

/-- `m64write`, with as many bytes as `amt` says. -/
def m64write (m : M64) (data : List UInt8) (offset : Int64) : Option (M64 × Int32) :=
  let amt := Int32.ofNat data.length
  match m.shm with
  | none => (m.file.f64write data offset).map fun (file, wrote) => ({ m with file := file }, wrote)
  | some len =>
    let siz := Int64.ofNat len.toNat
    let «end» := offset + amt.toInt64
    if «end» ≤ siz then
      (copyIn m.file len offset data).map fun file => ({ m with file := file }, amt)
    else if offset < siz then
      let got := (siz - offset).toInt32
      (copyIn m.file len offset (data.take got.toInt.toNat)).bind fun file =>
        (file.f64write (data.drop got.toInt.toNat) (offset + got.toInt64)).map fun (file, more) =>
          ({ m with file := file }, got + more)
    else
      (m.file.f64write data offset).map fun (file, wrote) => ({ m with file := file }, wrote)

end M64

/-- Bytes from an offset on, as far as there are any. -/
def flatRead (flat : List UInt8) (offset amt : Nat) : List UInt8 := (flat.drop offset).take amt

/-- Bytes at an offset, with zeros in front of them where there was nothing. -/
def flatWrite (flat : List UInt8) (offset : Nat) (data : List UInt8) : List UInt8 :=
  flat.take offset ++ List.replicate (offset - flat.length) 0 ++ data ++
    flat.drop (offset + data.length)

namespace M64

/-- `amt` is the number of bytes of a write. -/
inductive Call where
  | read (amt : Int32) (offset : Int64)
  | write (data : List UInt8) (offset : Int64)
deriving DecidableEq

def Call.amt : Call → Int
  | .read amt _ => amt.toInt
  | .write data _ => data.length

def Call.offset : Call → Int64
  | .read _ offset => offset
  | .write _ offset => offset

/-- Both sides, and what each of the calls so far has read and returned. -/
structure System where
  m : M64
  flat : List UInt8
  replies : List ((List UInt8 × Int) × (List UInt8 × Int))

/-- The array starts as what the file holds when it has been opened. -/
def start (file : File) (xmap : UInt32) : System :=
  let m := «open» file xmap
  ⟨m, m.file.bytes.read 0 m.file.size, []⟩

/-- `none` is an access outside of the mapping. -/
def step (system : System) : Call → Option System
  | .read amt offset =>
    (system.m.m64read amt offset).map fun (bytes, count) =>
      let flatBytes := flatRead system.flat offset.toInt.toNat amt.toInt.toNat
      { system with replies := system.replies ++
          [((bytes, count.toInt), (flatBytes, (flatBytes.length : Int)))] }
  | .write data offset =>
    (system.m.m64write data offset).map fun (m, count) =>
      ⟨m, flatWrite system.flat offset.toInt.toNat data,
        system.replies ++ [(([], count.toInt), ([], (data.length : Int)))]⟩

/-- The assertions of both functions, and an amount that is an `int`. -/
def Call.Valid (call : Call) : Prop :=
  0 < call.amt ∧ call.amt < 2 ^ 31 ∧ 0 ≤ call.offset.toInt

/-- There is no mapping, or the end of the range is a 64-bit offset. -/
def Ends (system : System) (call : Call) : Prop :=
  system.m.shm = none ∨ call.offset.toInt + call.amt < 2 ^ 63

instance (call : Call) : Decidable call.Valid := inferInstanceAs (Decidable (_ ∧ _ ∧ _))

instance (system : System) (call : Call) : Decidable (Ends system call) :=
  inferInstanceAs (Decidable (_ ∨ _))

/-- The file is the array, and no reply was different. -/
structure Sound (system : System) : Prop where
  replies : ∀ entry ∈ system.replies, entry.1 = entry.2
  content : system.m.file.bytes.read 0 system.m.file.size = system.flat

end M64

section Flat

variable {flat front back data : List UInt8} {offset : Nat}

private theorem flatWrite_getElem? (flat data : List UInt8) (offset i : Nat) :
    (flatWrite flat offset data)[i]? =
      if i < offset then if i < flat.length then flat[i]? else some 0
      else if i < offset + data.length then data[i - offset]?
      else flat[i]? := by
  unfold flatWrite
  have hhole : (flat.take offset ++ List.replicate (offset - flat.length) (0 : UInt8)).length =
      offset := by
    rw [List.length_append, List.length_take, List.length_replicate]
    omega
  split_ifs with hfront hold hdata
  · rw [List.append_assoc, List.append_assoc, List.getElem?_append_left (by simp; omega),
      List.getElem?_take_of_lt hfront]
  · rw [List.append_assoc, List.getElem?_append_left (by omega),
      List.getElem?_append_right (by simp; omega), List.getElem?_replicate, if_pos]
    rw [List.length_take]
    omega
  · rw [List.append_assoc, List.getElem?_append_right (by omega), hhole,
      List.getElem?_append_left (by omega)]
  · rw [List.getElem?_append_right (by rw [List.length_append, hhole]; omega), List.length_append,
      hhole, List.getElem?_drop]
    congr 1
    omega

@[simp] private theorem flatWrite_length (flat data : List UInt8) (offset : Nat) :
    (flatWrite flat offset data).length = max flat.length (offset + data.length) := by
  simp only [flatWrite, List.length_append, List.length_take, List.length_replicate,
    List.length_drop]
  omega

@[simp] private theorem flatWrite_append :
    flatWrite (flatWrite flat offset front) (offset + front.length) back =
      flatWrite flat offset (front ++ back) := by
  apply List.ext_getElem?
  intro i
  simp only [flatWrite_getElem?, flatWrite_length, List.length_append]
  rcases Nat.lt_or_ge i offset with hbefore | hafter
  · have hinner : i < offset + front.length := by omega
    have hlength : i < max flat.length (offset + front.length) := by omega
    simp [hbefore, hinner, hlength]
  · rcases Nat.lt_or_ge i (offset + front.length) with hfront | hback
    · have hlength : i < max flat.length (offset + front.length) := by omega
      have hboth : i < offset + (front.length + back.length) := by omega
      have hindex : i - offset < front.length := by omega
      simp only [hfront, hlength, hboth, if_true, if_neg (Nat.not_lt.mpr hafter)]
      rw [List.getElem?_append_left hindex]
    · have hindex : front.length ≤ i - offset := by omega
      simp only [if_neg (Nat.not_lt.mpr hafter), if_neg (Nat.not_lt.mpr hback), ← Nat.add_assoc]
      split_ifs with hboth
      · rw [List.getElem?_append_right hindex, Nat.sub_sub]
      · rfl

private theorem flatRead_add (flat : List UInt8) (offset first more : Nat) :
    flatRead flat offset (first + more) =
      flatRead flat offset first ++ flatRead flat (offset + first) more := by
  rw [flatRead, List.take_add, List.drop_drop]
  rfl

end Flat

namespace File

variable {file : File} {data : List UInt8} {offset : Int64}

def content (file : File) : List UInt8 := file.bytes.read 0 file.size

@[simp] private theorem content_length (file : File) : file.content.length = file.size := by
  simp [content]

private theorem content_getElem? (file : File) (i : Nat) :
    file.content[i]? = if i < file.size then some (file.bytes i) else none := by
  unfold content
  split_ifs with hi
  · rw [ByteStore.read_getElem? hi, Nat.zero_add]
  · rw [List.getElem?_eq_none (by simp; omega)]

theorem read_eq (file : File) {start length : Nat} (hinside : start + length ≤ file.size) :
    file.bytes.read start length = flatRead file.content start length := by
  apply List.ext_getElem?
  intro i
  unfold flatRead
  rcases Nat.lt_or_ge i length with hlt | hge
  · rw [ByteStore.read_getElem? hlt, List.getElem?_take_of_lt hlt, List.getElem?_drop,
      content_getElem?, if_pos (by omega)]
  · rw [List.getElem?_eq_none (by simp; omega), List.getElem?_eq_none (by simp; omega)]

private theorem pread_eq (file : File) (amt : Int32) (offset : Int64) :
    file.pread amt offset = flatRead file.content offset.toInt.toNat amt.toInt.toNat := by
  unfold pread
  rcases Nat.lt_or_ge offset.toInt.toNat file.size with hlt | hge
  · rw [read_eq file (by omega)]
    simp [flatRead, List.take_eq_take_iff]
  · have hzero : file.size - offset.toInt.toNat = 0 := by omega
    rw [hzero, Nat.min_zero, ByteStore.read_zero, flatRead,
      List.drop_eq_nil_of_le (by simpa using hge), List.take_nil]

private theorem content_write {start : Nat} (hinside : start + data.length ≤ file.size) :
    content { file with bytes := file.bytes.write start data } =
      flatWrite file.content start data := by
  apply List.ext_getElem?
  intro i
  rw [flatWrite_getElem?, content_getElem?, content_getElem?, content_length]
  dsimp only
  rcases Nat.lt_or_ge i start with hbefore | hafter
  · rw [ByteStore.write_of_outside (.inl hbefore)]
    simp [hbefore, show i < file.size by omega]
  · rcases Nat.lt_or_ge i (start + data.length) with hdata | hbehind
    · obtain ⟨j, rfl⟩ := Nat.exists_eq_add_of_le hafter
      have hj : j < data.length := by omega
      rw [ByteStore.write_of_inside hj]
      rw [if_pos (by omega), if_neg (by omega), if_pos hdata, Nat.add_sub_cancel_left,
        List.getElem?_eq_getElem hj]
    · rw [ByteStore.write_of_outside (.inr hbehind)]
      simp [Nat.not_lt.mpr hafter, Nat.not_lt.mpr hbehind]

@[simp] private theorem pwrite_content (file : File) (data : List UInt8) (offset : Int64) :
    (file.pwrite data offset).content = flatWrite file.content offset.toInt.toNat data := by
  apply List.ext_getElem?
  intro i
  rw [flatWrite_getElem?, content_getElem?, content_getElem?, content_length]
  unfold pwrite
  generalize offset.toInt.toNat = start
  dsimp only
  have hhole : (List.replicate (start - file.size) (0 : UInt8)).length = start - file.size :=
    List.length_replicate
  rcases Nat.lt_or_ge i start with hbefore | hafter
  · rw [ByteStore.write_of_outside (.inl hbefore), if_pos (by omega), if_pos hbefore]
    split_ifs with hold
    · rw [ByteStore.write_of_outside (.inl hold)]
    · obtain ⟨j, rfl⟩ := Nat.exists_eq_add_of_le (Nat.not_lt.mp hold)
      rw [ByteStore.write_of_inside (by omega), List.getElem_replicate]
  · rcases Nat.lt_or_ge i (start + data.length) with hdata | hbehind
    · obtain ⟨j, rfl⟩ := Nat.exists_eq_add_of_le hafter
      have hj : j < data.length := by omega
      rw [ByteStore.write_of_inside hj, if_pos (by omega), if_neg (by omega), if_pos hdata,
        Nat.add_sub_cancel_left, List.getElem?_eq_getElem hj]
    · rw [ByteStore.write_of_outside (.inr hbehind), if_neg (Nat.not_lt.mpr hafter),
        if_neg (Nat.not_lt.mpr hbehind)]
      rcases Nat.lt_or_ge i file.size with hold | hnew
      · rw [ByteStore.write_of_outside (.inl hold), if_pos (by omega), if_pos hold]
      · rw [if_neg (by omega), if_neg (by omega)]

private theorem size_pwrite (file : File) (data : List UInt8) (offset : Int64) :
    file.size ≤ (file.pwrite data offset).size := Nat.le_max_left _ _

private theorem f64read_spec (file : File) (offset : Int64) {amt : Int32} (hamt : 0 ≤ amt.toInt) :
    ∃ count, file.f64read amt offset =
        (flatRead file.content offset.toInt.toNat amt.toInt.toNat, count) ∧
      count.toInt = (flatRead file.content offset.toInt.toNat amt.toInt.toNat).length := by
  have hlt := amt.toInt_lt
  have hlength : (flatRead file.content offset.toInt.toNat amt.toInt.toNat).length < 2 ^ 31 := by
    rw [flatRead, List.length_take]
    omega
  have hcount := Int32.toInt_ofNat_of_lt hlength
  refine ⟨_, ?_, hcount⟩
  unfold f64read
  dsimp only
  rw [pread_eq, if_neg]
  rw [Int32.lt_iff_toInt_lt, hcount, Int32.toInt_zero]
  omega

private theorem f64write_spec (file : File) (offset : Int64) (hne : data ≠ [])
    (hlength : data.length < 2 ^ 31) : file.f64write data offset =
      some (file.pwrite data offset, Int32.ofNat data.length) := by
  have hcount := Int32.toInt_ofNat_of_lt hlength
  have hpos : Int32.ofNat data.length > 0 := by
    rw [GT.gt, Int32.lt_iff_toInt_lt, hcount, Int32.toInt_zero]
    have := List.length_pos_iff.mpr hne
    omega
  unfold f64write
  rw [f64writeLoop]
  dsimp only
  rw [if_pos hpos, hcount, Int.toNat_natCast, List.drop_length, f64writeLoop, if_neg (by decide),
    Int32.zero_add]

end File

namespace M64

variable {m : M64} {len : UInt32} {offset : Int64} {data : List UInt8}

/-- The mapping is within the file. -/
def Mapped (m : M64) : Prop := ∀ len ∈ m.shm, len.toNat ≤ m.file.size

private theorem open_mapped (file : File) (xmap : UInt32) : Mapped («open» file xmap) := by
  unfold «open» Mapped
  dsimp only
  split_ifs with hzero hgrow
  · simp
  · intro len hlen
    obtain rfl : xmap = len := Option.some.inj hlen
    have hlt := xmap.toNat_lt
    have hpos : xmap.toNat ≠ 0 := fun h => hzero (UInt32.toNat_inj.mp h)
    have hend : (Int64.ofNat (xmap.toNat - 1)).toInt = (xmap.toNat - 1 : Nat) :=
      Int64.toInt_ofNat_of_lt (by omega)
    unfold File.pwrite
    rw [hend]
    simp
    omega
  · intro len hlen
    obtain rfl : xmap = len := Option.some.inj hlen
    have hle := UInt32.le_iff_toNat_le.mp (UInt32.not_lt.mp hgrow)
    rw [UInt32.toNat_ofNat'] at hle
    exact Nat.le_trans hle (Nat.mod_le _ _)

private theorem copyOut_eq {file : File} {amt : Int32} (hoffset : 0 ≤ offset.toInt)
    (hamt : 0 ≤ amt.toInt)
    (hmap : offset.toInt + amt.toInt ≤ len.toNat) (hlen : len.toNat ≤ file.size) :
    copyOut file len offset amt =
      some (flatRead file.content offset.toInt.toNat amt.toInt.toNat) := by
  unfold copyOut
  rw [if_pos ⟨hoffset, hamt, hmap⟩, File.read_eq file (by omega)]

private theorem copyIn_eq {file : File} (hoffset : 0 ≤ offset.toInt)
    (hmap : offset.toInt + data.length ≤ len.toNat) (hlen : len.toNat ≤ file.size) :
    ∃ file', copyIn file len offset data = some file' ∧ file'.size = file.size ∧
      file'.content = flatWrite file.content offset.toInt.toNat data := by
  refine ⟨{ file with bytes := file.bytes.write offset.toInt.toNat data }, ?_, rfl, ?_⟩
  · rw [copyIn, if_pos ⟨hoffset, hmap⟩]
  · apply File.content_write
    omega

section Ranges

variable {amt : Int32}

private theorem end_toInt (hoffset : 0 ≤ offset.toInt) (hamt : 0 < amt.toInt)
    (hend : offset.toInt + amt.toInt < 2 ^ 63) :
    (offset + amt.toInt64).toInt = offset.toInt + amt.toInt := by
  rw [Int64.toInt_add, Int32.toInt_toInt64]
  exact Int.bmod_eq_of_le (by simp; omega) (by simp; omega)

@[simp] private theorem size_toInt (len : UInt32) : (Int64.ofNat len.toNat).toInt = len.toNat := by
  have hlt := len.toNat_lt
  exact Int64.toInt_ofNat_of_lt (by omega)

private theorem got_toInt (hbelow : offset.toInt < len.toNat)
    (habove : (len.toNat : Int) < offset.toInt + amt.toInt) :
    (Int64.ofNat len.toNat - offset).toInt32.toInt = len.toNat - offset.toInt := by
  have hamt := amt.toInt_lt
  have hsub : (Int64.ofNat len.toNat - offset).toInt = len.toNat - offset.toInt := by
    rw [Int64.toInt_sub, size_toInt]
    exact Int.bmod_eq_of_le (by simp; omega) (by simp; omega)
  rw [Int64.toInt_toInt32, hsub]
  exact Int.bmod_eq_of_le (by simp; omega) (by simp; omega)

private theorem inside_iff (hoffset : 0 ≤ offset.toInt) (hamt : 0 < amt.toInt)
    (hend : offset.toInt + amt.toInt < 2 ^ 63) : offset + amt.toInt64 ≤ Int64.ofNat len.toNat ↔
      offset.toInt + amt.toInt ≤ len.toNat := by
  rw [Int64.le_iff_toInt_le, size_toInt, end_toInt hoffset hamt hend]

private theorem across_iff : offset < Int64.ofNat len.toNat ↔ offset.toInt < len.toNat := by
  rw [Int64.lt_iff_toInt_lt, size_toInt]

private theorem add_toInt {got more : Int32} (hgot : 0 ≤ got.toInt) (hmore : 0 ≤ more.toInt)
    (hle : got.toInt + more.toInt ≤ amt.toInt) : (got + more).toInt = got.toInt + more.toInt := by
  have hlt := amt.toInt_lt
  rw [Int32.toInt_add]
  exact Int.bmod_eq_of_le (by simp; omega) (by simp; omega)

private theorem sub_toInt {got : Int32} (hgot : 0 ≤ got.toInt) (hle : got.toInt ≤ amt.toInt) :
    (amt - got).toInt = amt.toInt - got.toInt := by
  apply Int32.toInt_sub_of_le
  · exact Int32.le_iff_toInt_le.mpr hgot
  · exact Int32.le_iff_toInt_le.mpr hle

end Ranges

private theorem m64read_spec {amt : Int32} (hmapped : Mapped m) (hoffset : 0 ≤ offset.toInt)
    (hamt : 0 < amt.toInt) (hends : m.shm = none ∨ offset.toInt + amt.toInt < 2 ^ 63) :
    ∃ count, m.m64read amt offset =
        some (flatRead m.file.content offset.toInt.toNat amt.toInt.toNat, count) ∧
      count.toInt = (flatRead m.file.content offset.toInt.toNat amt.toInt.toNat).length := by
  have hnonneg : 0 ≤ amt.toInt := Int.le_of_lt hamt
  obtain ⟨whole, hwhole, hcount⟩ := m.file.f64read_spec offset hnonneg
  unfold m64read
  cases hshm : m.shm with
  | none => exact ⟨whole, congrArg some hwhole, hcount⟩
  | some len =>
    have hend := hends.resolve_left (by simp [hshm])
    have hlen : len.toNat ≤ m.file.size := hmapped len hshm
    dsimp only
    split_ifs with hinside hacross
    · rw [inside_iff hoffset hamt hend] at hinside
      refine ⟨amt, by rw [copyOut_eq hoffset hnonneg hinside hlen]; rfl, ?_⟩
      rw [flatRead, List.length_take, List.length_drop, File.content_length]
      omega
    · rw [inside_iff hoffset hamt hend] at hinside
      rw [across_iff] at hacross
      have hgot := got_toInt hacross (Int.not_le.mp hinside)
      generalize (Int64.ofNat len.toNat - offset).toInt32 = got at hgot ⊢
      have hmore : (amt - got).toInt = amt.toInt - got.toInt := sub_toInt (by omega) (by omega)
      have hnext : (offset + got.toInt64).toInt = offset.toInt + got.toInt :=
        end_toInt hoffset (by omega) (by omega)
      obtain ⟨more, hback, hmoreCount⟩ :=
        m.file.f64read_spec (offset + got.toInt64) (show 0 ≤ (amt - got).toInt by omega)
      -- the two parts tile the range
      have hsplit : flatRead m.file.content offset.toInt.toNat amt.toInt.toNat =
          flatRead m.file.content offset.toInt.toNat got.toInt.toNat ++
            flatRead m.file.content (offset + got.toInt64).toInt.toNat (amt - got).toInt.toNat := by
        rw [hnext, hmore, Int.toNat_add hoffset (by omega), ← flatRead_add]
        congr 1
        omega
      have hfront : (flatRead m.file.content offset.toInt.toNat got.toInt.toNat).length =
          got.toInt.toNat := by
        rw [flatRead, List.length_take, List.length_drop, File.content_length]
        omega
      have hrest : (flatRead m.file.content (offset + got.toInt64).toInt.toNat
          (amt - got).toInt.toNat).length ≤ (amt - got).toInt.toNat := by
        rw [flatRead, List.length_take]
        exact Nat.min_le_left _ _
      refine ⟨got + more, ?_, ?_⟩
      · rw [copyOut_eq hoffset (by omega) (by omega) hlen, Option.map_some, hback, hsplit]
      · rw [@add_toInt amt got more (by omega) (by omega) (by omega), hsplit, List.length_append,
          hfront, hmoreCount]
        omega
    · exact ⟨whole, congrArg some hwhole, hcount⟩

private theorem m64write_spec (hmapped : Mapped m) (hoffset : 0 ≤ offset.toInt) (hne : data ≠ [])
    (hlength : data.length < 2 ^ 31)
    (hends : m.shm = none ∨ offset.toInt + data.length < 2 ^ 63) :
    ∃ m' count, m.m64write data offset = some (m', count) ∧ m'.shm = m.shm ∧ Mapped m' ∧
      m'.file.content = flatWrite m.file.content offset.toInt.toNat data ∧
      count.toInt = data.length := by
  obtain ⟨origin, shm⟩ := m
  have hpos := List.length_pos_iff.mpr hne
  have hcount := Int32.toInt_ofNat_of_lt hlength
  have hwhole := origin.f64write_spec offset hne hlength
  have hpwrite : Mapped ⟨origin.pwrite data offset, shm⟩ := by
    intro len hlen
    exact Nat.le_trans (hmapped len hlen) (origin.size_pwrite data offset)
  have hcontent := origin.pwrite_content data offset
  unfold m64write
  dsimp only
  cases shm with
  | none =>
    rw [hwhole]
    exact ⟨_, _, rfl, rfl, hpwrite, hcontent, hcount⟩
  | some len =>
    have hend := hends.resolve_left (by simp)
    have hlen : len.toNat ≤ origin.size := hmapped len rfl
    have hiff := @inside_iff len offset (Int32.ofNat data.length) hoffset (by omega) (by omega)
    dsimp only
    split_ifs with hinside hacross
    · rw [hiff, hcount] at hinside
      obtain ⟨file, hcopy, hsize, hcopied⟩ := copyIn_eq hoffset hinside hlen
      rw [hcopy]
      refine ⟨_, _, rfl, rfl, ?_, hcopied, hcount⟩
      intro other hother
      have hold : other.toNat ≤ origin.size := hmapped other hother
      exact hsize ▸ hold
    · rw [hiff, hcount] at hinside
      rw [across_iff] at hacross
      have hgot := @got_toInt len offset (Int32.ofNat data.length) hacross (by omega)
      generalize (Int64.ofNat len.toNat - offset).toInt32 = got at hgot ⊢
      have hnext : (offset + got.toInt64).toInt = offset.toInt + got.toInt :=
        end_toInt hoffset (by omega) (by omega)
      have htake : (data.take got.toInt.toNat).length = got.toInt.toNat := by
        rw [List.length_take]
        omega
      have hdrop : (data.drop got.toInt.toNat).length = data.length - got.toInt.toNat :=
        List.length_drop
      obtain ⟨file, hcopy, hsize, hcopied⟩ :=
        @copyIn_eq len offset (data.take got.toInt.toNat) origin hoffset (by omega) hlen
      have hback := file.f64write_spec (offset + got.toInt64)
        (show data.drop got.toInt.toNat ≠ [] from List.ne_nil_of_length_pos (by omega)) (by omega)
      have hmoreCount := Int32.toInt_ofNat_of_lt
        (show (data.drop got.toInt.toNat).length < 2 ^ 31 by omega)
      rw [hcopy, Option.bind_some, hback]
      refine ⟨_, _, rfl, rfl, ?_, ?_, ?_⟩
      · intro other hother
        have hold : other.toNat ≤ origin.size := hmapped other hother
        have hgrown := file.size_pwrite (data.drop got.toInt.toNat) (offset + got.toInt64)
        dsimp only
        omega
      · have hstart : (offset + got.toInt64).toInt.toNat =
            offset.toInt.toNat + (data.take got.toInt.toNat).length := by
          rw [hnext, htake]
          omega
        rw [File.pwrite_content, hcopied, hstart, flatWrite_append, List.take_append_drop]
      · dsimp only
        rw [@add_toInt (Int32.ofNat data.length) got _ (by omega) (by omega) (by omega), hmoreCount]
        omega
    · rw [hwhole]
      exact ⟨_, _, rfl, rfl, hpwrite, hcontent, hcount⟩

structure Invariant (system : System) : Prop where
  mapped : Mapped system.m
  sound : Sound system

theorem start_invariant (file : File) (xmap : UInt32) : Invariant (start file xmap) :=
  ⟨open_mapped file xmap, by simp [start], rfl⟩

theorem Invariant.step {system : System} {call : Call} (hvalid : call.Valid)
    (hends : Ends system call) (hinv : Invariant system) :
    ∃ next, step system call = some next ∧ Invariant next := by
  obtain ⟨hmapped, hreplies, hcontent⟩ := hinv
  have hcontent : system.m.file.content = system.flat := hcontent
  have hadd : ∀ reply other : List UInt8 × Int, reply = other →
      ∀ entry ∈ system.replies ++ [(reply, other)], entry.1 = entry.2 := by
    intro reply other hsame entry hentry
    rcases List.mem_append.mp hentry with hold | hnew
    · exact hreplies entry hold
    · rw [List.mem_singleton.mp hnew]
      exact hsame
  cases call with
  | read amt offset =>
    have hoffset : 0 ≤ offset.toInt := hvalid.2.2
    obtain ⟨count, hread, hcount⟩ := m64read_spec hmapped hoffset hvalid.1 hends
    rw [hcontent] at hread hcount
    rw [M64.step, hread]
    refine ⟨_, rfl, hmapped, ?_, hcontent⟩
    apply hadd
    rw [hcount]
  | write data offset =>
    have hamt : (0 : Int) < data.length := hvalid.1
    have hlt : (data.length : Int) < 2 ^ 31 := hvalid.2.1
    have hoffset : 0 ≤ offset.toInt := hvalid.2.2
    obtain ⟨m, count, hwrite, -, hmapped', hcontent', hcount⟩ := m64write_spec hmapped hoffset
      (List.ne_nil_of_length_pos (show 0 < data.length by omega)) (by omega) hends
    rw [hcontent] at hcontent'
    rw [M64.step, hwrite]
    refine ⟨_, rfl, hmapped', ?_, hcontent'⟩
    apply hadd
    rw [hcount]

/-- Whatever is mapped, the accesses are those to one array. -/
theorem mapped_run_sound (file : File) (xmap : UInt32) (calls : List Call)
    (hcalls : Along step (fun system call => call.Valid ∧ Ends system call) (start file xmap)
      calls) :
    ∃ final, run step (start file xmap) calls = some final ∧ Sound final := by
  have hstep : ∀ (system : System) (call : Call), call.Valid ∧ Ends system call →
      Invariant system → ∃ next, step system call = some next ∧ Invariant next := by
    intro system call hcall hinv
    exact hinv.step hcall.1 hcall.2
  obtain ⟨final, hrun, hinv⟩ := run_along hstep hcalls (start_invariant file xmap)
  exact ⟨final, hrun, hinv.sound⟩

/-- A write and a read across the end of a mapping of two bytes. -/
theorem mapped_run_sound_across :
    let calls := [Call.write [1, 2, 3] 1, .read 4 0, .read 9 3]
    Along step (fun system call => call.Valid ∧ Ends system call) (start ⟨fun _ => 0, 0⟩ 2) calls ∧
      ∃ final, run step (start ⟨fun _ => 0, 0⟩ 2) calls = some final ∧ Sound final := by
  intro calls
  have hcalls : Along step (fun system call => call.Valid ∧ Ends system call)
      (start ⟨fun _ => 0, 0⟩ 2) calls := by decide
  exact ⟨hcalls, mapped_run_sound _ 2 calls hcalls⟩

/-- The last 64-bit offset is taken for one inside the mapping. -/
theorem last_offset_faults :
    let call := Call.read 1 0x7FFFFFFFFFFFFFFF
    call.Valid ∧ run step (start ⟨fun _ => 0, 0⟩ 1) [call] = none ∧
      ¬ ∃ final, run step (start ⟨fun _ => 0, 0⟩ 1) [call] = some final ∧ Sound final := by
  intro call
  have hnone : run step (start ⟨fun _ => 0, 0⟩ 1) [call] = none := rfl
  refine ⟨by decide, hnone, ?_⟩
  rw [hnone]
  simp

end M64

end Libsax.Memory
