import Mathlib.Data.List.Basic

/-! Bytes at positions: the content of a file or of a flat memory, read and
written a stretch at a time. -/
namespace Libsax.Lib

abbrev ByteStore := Nat → UInt8

namespace ByteStore

def read (store : ByteStore) (pos length : Nat) : List UInt8 :=
  (List.range length).map fun i => store (pos + i)

def write (store : ByteStore) (pos : Nat) (data : List UInt8) : ByteStore :=
  fun at_ => if pos ≤ at_ then (data[at_ - pos]?).getD (store at_) else store at_

/-- The stores hold the same bytes from `pos` on, `length` of them. -/
def Agree (pos length : Nat) (left right : ByteStore) : Prop :=
  ∀ i < length, left (pos + i) = right (pos + i)

variable {store : ByteStore} {pos length : Nat} {data : List UInt8}

@[simp] theorem read_length : (store.read pos length).length = length := by
  simp [read]

@[simp] theorem read_zero : store.read pos 0 = [] := rfl

theorem read_getElem? {i : Nat} (hi : i < length) :
    (store.read pos length)[i]? = some (store (pos + i)) := by
  simp [read, hi]

theorem read_congr {left right : ByteStore} (hagree : Agree pos length left right) :
    left.read pos length = right.read pos length :=
  List.map_congr_left fun i hi => hagree i (List.mem_range.mp hi)

theorem read_add (store : ByteStore) (pos front back : Nat) :
    store.read pos (front + back) = store.read pos front ++ store.read (pos + front) back := by
  unfold read
  rw [List.range_add, List.map_append, List.map_map]
  congr 2
  funext i
  exact congrArg store (Nat.add_assoc pos front i).symm

theorem write_of_outside {at_ : Nat} (hout : at_ < pos ∨ pos + data.length ≤ at_) :
    store.write pos data at_ = store at_ := by
  unfold write
  split_ifs with hle
  · rw [List.getElem?_eq_none (by omega)]
    rfl
  · rfl

theorem write_of_inside {i : Nat} (hi : i < data.length) :
    store.write pos data (pos + i) = data[i] := by
  unfold write
  rw [if_pos (Nat.le_add_right pos i), Nat.add_sub_cancel_left, List.getElem?_eq_getElem hi]
  rfl

theorem agree_write {other : Nat} (hout : other + length ≤ pos ∨ pos + data.length ≤ other) :
    Agree other length (store.write pos data) store := by
  intro i hi
  exact write_of_outside (by omega)

@[simp] theorem read_write : (store.write pos data).read pos data.length = data := by
  apply List.ext_getElem?
  intro i
  rcases Nat.lt_or_ge i data.length with hlt | hge
  · rw [read_getElem? hlt, write_of_inside hlt, List.getElem?_eq_getElem hlt]
  · rw [List.getElem?_eq_none (by rw [read_length]; exact hge), List.getElem?_eq_none hge]

theorem read_write_write {other : Nat} {more : List UInt8}
    (hout : pos + data.length ≤ other ∨ other + more.length ≤ pos) :
    ((store.write pos data).write other more).read pos data.length = data :=
  (read_congr (agree_write hout)).trans read_write

theorem write_append (store : ByteStore) (pos : Nat) (front back : List UInt8) :
    (store.write pos front).write (pos + front.length) back =
      store.write pos (front ++ back) := by
  funext at_
  rcases Nat.lt_or_ge at_ (pos + front.length) with hlt | hge
  · rw [write_of_outside (Or.inl hlt)]
    unfold write
    split_ifs with hle
    · rw [List.getElem?_append_left (by omega)]
    · rfl
  · have hpos : pos ≤ at_ := by omega
    have hfront : front[at_ - pos]? = none := List.getElem?_eq_none (by omega)
    unfold write
    rw [if_pos hge, if_pos hpos, if_pos hpos, hfront,
      List.getElem?_append_right (by omega), Nat.sub_sub]
    rfl

end ByteStore

end Libsax.Lib
