import Libsax.Db.HashBucket

/-! Records packed into a block: what the reads and writes of the search, the
insertion and the deletion do to them. -/
namespace Libsax.Db

open Libsax.Lib

@[simp] theorem peek_middle (front middle back : List UInt8) :
    peek (front ++ middle ++ back) front.length middle.length = some middle := by
  unfold peek
  rw [if_pos (by simp), List.append_assoc, List.drop_left, List.take_left]

theorem poke_middle (front middle back : List UInt8) {data : List UInt8}
    (hlength : middle.length = data.length) :
    poke (front ++ middle ++ back) front.length data = some (front ++ data ++ back) := by
  unfold poke
  have htake : (front ++ middle ++ back).take front.length = front := by
    rw [List.append_assoc, List.take_left]
  have hdrop : (front ++ middle ++ back).drop (front.length + data.length) = back := by
    rw [← hlength, ← List.length_append, List.drop_left]
  rw [if_pos (by simp [hlength]), htake, hdrop]

theorem poke_length {str data out : List UInt8} {p : Nat} (hpoke : poke str p data = some out) :
    out.length = str.length := by
  unfold poke at hpoke
  split_ifs at hpoke with hle
  cases hpoke
  simp only [List.length_append, List.length_take, List.length_drop]
  omega

theorem peekSize_middle (front back : List UInt8) {size : Nat} (hsize : size < 2 ^ 64) :
    peekSize (front ++ Bytes.encode 8 size ++ back) front.length = some size := by
  have hpeek := peek_middle front (Bytes.encode 8 size) back
  rw [Bytes.encode_length] at hpeek
  unfold peekSize
  rw [hpeek, Option.map_some, Bytes.decode_encode]
  exact congrArg some (Nat.mod_eq_of_lt (by omega))

@[simp] theorem record_length (key : Key) (value : Value) :
    (record key value).length = 16 + key.length + value.length := by
  simp only [record, List.length_append, Bytes.encode_length]

def packed (records : List (Key × Value)) : List UInt8 :=
  records.flatMap fun entry => record entry.1 entry.2

@[simp] theorem packed_nil : packed [] = [] := rfl

@[simp] theorem packed_cons (key : Key) (value : Value) (rest : List (Key × Value)) :
    packed ((key, value) :: rest) = record key value ++ packed rest := rfl

@[simp] theorem packed_append (left right : List (Key × Value)) :
    packed (left ++ right) = packed left ++ packed right := List.flatMap_append

theorem packed_length_ge {records : List (Key × Value)} (hkeys : ∀ entry ∈ records, entry.1 ≠ []) :
    17 * records.length ≤ (packed records).length := by
  induction records with
  | nil => exact Nat.le_refl _
  | cons entry rest ih =>
    have hrest := ih fun other hother => hkeys other (List.mem_cons_of_mem _ hother)
    have hkey := List.length_pos_of_ne_nil (hkeys entry List.mem_cons_self)
    rw [packed_cons, List.length_append, record_length, List.length_cons]
    omega

theorem record_length_le_packed {records : List (Key × Value)} {entry : Key × Value}
    (hentry : entry ∈ records) : (record entry.1 entry.2).length ≤ (packed records).length := by
  obtain ⟨left, right, rfl⟩ := List.append_of_mem hentry
  rw [packed_append, packed_cons, List.length_append, List.length_append]
  omega

/-- Where the search for a key ends among records that start at `p`. -/
def place (key : Key) : Nat → List (Key × Value) → Place
  | p, [] => .past p
  | p, entry :: rest =>
    if entry.1 = key then .found p else place key (p + (record entry.1 entry.2).length) rest

theorem record_reads (front back : List UInt8) {key : Key} {value : Value}
    (hkey : key.length < 2 ^ 64) (hvalue : value.length < 2 ^ 64) :
    peekSize (front ++ record key value ++ back) front.length = some key.length ∧
    peekSize (front ++ record key value ++ back) (front.length + 8) = some value.length ∧
    peek (front ++ record key value ++ back) (front.length + 8 + 8) key.length = some key ∧
    peek (front ++ record key value ++ back) (front.length + 8 + 8 + key.length) value.length =
      some value := by
  unfold record
  refine ⟨?_, ?_, ?_, ?_⟩
  · have hread := peekSize_middle front (Bytes.encode 8 value.length ++ key ++ value ++ back) hkey
    simpa only [List.append_assoc] using hread
  · have hread := peekSize_middle (front ++ Bytes.encode 8 key.length) (key ++ value ++ back) hvalue
    simpa only [List.append_assoc, List.length_append, Bytes.encode_length] using hread
  · have hread := peek_middle
      (front ++ Bytes.encode 8 key.length ++ Bytes.encode 8 value.length) key (value ++ back)
    simpa only [List.append_assoc, List.length_append, Bytes.encode_length, Nat.add_assoc]
      using hread
  · have hread := peek_middle
      (front ++ Bytes.encode 8 key.length ++ Bytes.encode 8 value.length ++ key) value back
    simpa only [List.append_assoc, List.length_append, Bytes.encode_length, Nat.add_assoc]
      using hread

theorem scan_packed (key : Key) {records : List (Key × Value)} (back : List UInt8)
    (hsizes : ∀ entry ∈ records, entry.1.length < 2 ^ 64 ∧ entry.2.length < 2 ^ 64)
    (front : List UInt8) :
    scan (front ++ packed records ++ back) key records.length front.length =
      some (place key front.length records) := by
  induction records generalizing front with
  | nil => rfl
  | cons entry rest ih =>
    obtain ⟨stored, value⟩ := entry
    obtain ⟨hkey, hvalue⟩ := hsizes (stored, value) List.mem_cons_self
    obtain ⟨hksz, hvsz, hstored, -⟩ := record_reads front (packed rest ++ back) hkey hvalue
    have hrest := ih (fun other hother => hsizes other (List.mem_cons_of_mem _ hother))
      (front ++ record stored value)
    have hsplit : front ++ packed ((stored, value) :: rest) ++ back =
        front ++ record stored value ++ (packed rest ++ back) := by
      simp only [packed_cons, List.append_assoc]
    have hnext : front.length + 8 + 8 + (stored.length + value.length) =
        (front ++ record stored value).length := by
      rw [List.length_append, record_length]
      omega
    have hfollow : scan (front ++ record stored value ++ (packed rest ++ back)) key rest.length
        (front.length + 8 + 8 + (stored.length + value.length)) =
        some (place key (front.length + (record stored value).length) rest) := by
      rw [hnext, ← List.append_assoc, hrest, List.length_append]
    rw [hsplit, List.length_cons]
    simp only [scan, hksz, hvsz, hstored, Option.bind_eq_bind, Option.bind_some, hfollow, place,
      record_length]
    by_cases hsame : stored = key
    · simp [hsame]
    · by_cases hlength : stored.length = key.length <;> simp [hsame, hlength]

theorem place_cases (key : Key) (records : List (Key × Value)) (p : Nat) :
    (∃ left value right, records = left ++ (key, value) :: right ∧
      (∀ entry ∈ left, entry.1 ≠ key) ∧ place key p records = .found (p + (packed left).length)) ∨
    ((∀ entry ∈ records, entry.1 ≠ key) ∧
      place key p records = .past (p + (packed records).length)) := by
  induction records generalizing p with
  | nil => exact Or.inr ⟨List.forall_mem_nil _, rfl⟩
  | cons entry rest ih =>
    obtain ⟨stored, value⟩ := entry
    by_cases hsame : stored = key
    · subst hsame
      exact Or.inl ⟨[], value, rest, rfl, List.forall_mem_nil _, if_pos rfl⟩
    · have hskip : place key p ((stored, value) :: rest) =
          place key (p + (record stored value).length) rest := if_neg hsame
      rcases ih (p + (record stored value).length) with
        ⟨left, found, right, hrest, hleft, hplace⟩ | ⟨hnone, hplace⟩
      · refine Or.inl ⟨(stored, value) :: left, found, right, ?_, ?_, ?_⟩
        · rw [hrest, List.cons_append]
        · exact List.forall_mem_cons.mpr ⟨hsame, hleft⟩
        · rw [hskip, hplace, packed_cons, List.length_append, Nat.add_assoc]
      · refine Or.inr ⟨List.forall_mem_cons.mpr ⟨hsame, hnone⟩, ?_⟩
        rw [hskip, hplace, packed_cons, List.length_append, Nat.add_assoc]

theorem poke_record {records : List (Key × Value)} {rest : List UInt8} {key : Key} {value : Value}
    (hroom : (record key value).length ≤ rest.length) :
    poke (packed records ++ rest) (packed records).length (record key value) =
      some (packed (records ++ [(key, value)]) ++ rest.drop (record key value).length) := by
  have hmiddle : (rest.take (record key value).length).length = (record key value).length :=
    List.length_take_of_le hroom
  have hpoke := poke_middle (packed records) (rest.take (record key value).length)
    (rest.drop (record key value).length) hmiddle
  rw [List.append_assoc, List.take_append_drop] at hpoke
  rw [hpoke]
  simp

theorem move_over (left right : List (Key × Value)) (rest : List UInt8) (key : Key)
    (value : Value) {leftSize : Nat} (hright : (packed right).length ≤ leftSize)
    (hrest : leftSize ≤ (packed right ++ rest).length) :
    ∃ moved rest',
      peek (packed (left ++ (key, value) :: right) ++ rest)
        ((packed left).length + (record key value).length) leftSize = some moved ∧
      poke (packed (left ++ (key, value) :: right) ++ rest) (packed left).length moved =
        some (packed (left ++ right) ++ rest') := by
  have hsplit : packed (left ++ (key, value) :: right) ++ rest =
      packed left ++ record key value ++ (packed right ++ rest) := by simp
  have htake : (packed right ++ rest).take leftSize =
      packed right ++ rest.take (leftSize - (packed right).length) := by
    rw [List.take_append, List.take_of_length_le hright]
  have hmoved : ((packed right ++ rest).take leftSize).length = leftSize :=
    List.length_take_of_le hrest
  refine ⟨(packed right ++ rest).take leftSize, rest.take (leftSize - (packed right).length) ++
    (packed left ++ record key value ++ (packed right ++ rest)).drop
      ((packed left).length + leftSize), ?_, ?_⟩
  · have hpeek := peek_middle (packed left ++ record key value)
      ((packed right ++ rest).take leftSize) ((packed right ++ rest).drop leftSize)
    rw [List.append_assoc _ (List.take _ _), List.take_append_drop, hmoved,
      List.length_append] at hpeek
    rw [hsplit, hpeek]
  · rw [hsplit]
    unfold poke
    rw [if_pos (by simp only [List.length_append, hmoved] at *; omega), hmoved,
      List.append_assoc (packed left), List.take_left, htake]
    simp

end Libsax.Db
