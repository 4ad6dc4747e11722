import Libsax.Db.PackedRecords
import Libsax.Btree.Node

/-! The records of a node in its page: what `write` puts there `read` finds. The records that do
not fit are in the overflow area, and a key size of 0 in the page stands for them. -/
namespace Libsax.Btree

open Libsax.Lib
open Libsax.Db (Key Value peek peekSize peek_middle peekSize_middle)

def written (cell : Cell) : Option (List UInt8) := do
  let bytes ← cell
  let vsize ← peekSize bytes 0
  peek bytes 0 (vsize + 8)

def itemBytes (item : Item) : List UInt8 :=
  Bytes.encode 8 item.1.length ++ item.1 ++ (written item.2).getD []

def itemsBytes (items : List Item) : List UInt8 := items.flatMap itemBytes

def Whole (item : Item) : Prop := (written item.2).isSome

/-- A record of a key and a value that are not empty, and whose sizes are of type `size_t`. -/
structure Filled (item : Item) : Prop where
  key : item.1 ≠ []
  size : item.1.length < 2 ^ 64
  value : ∃ value : Value, value ≠ [] ∧ value.length < 2 ^ 64 ∧ item.2 = cell value

variable {pageSize np : Nat} {front back : List UInt8} {item : Item}
  {items here there : List Item} {buf buf' : PageBuffer} {overflow : Option (List UInt8)}

private theorem peek_length {str out : List UInt8} {p length : Nat}
    (hpeek : peek str p length = some out) :
    out.length = length := by
  unfold peek at hpeek
  split_ifs at hpeek with hle
  cases hpeek
  rw [List.length_take, List.length_drop]
  omega

private theorem written_cell {value : Value} (hvalue : value.length < 2 ^ 64) :
    written (cell value) = some (Bytes.encode 8 value.length ++ value) := by
  have hsize := peekSize_middle [] value hvalue
  have hwhole := peek_middle [] (Bytes.encode 8 value.length ++ value) []
  rw [List.nil_append, List.append_nil, List.length_append, Bytes.encode_length,
    Nat.add_comm 8] at hwhole
  rw [List.nil_append, List.length_nil] at hsize
  simp only [written, cell, Option.bind_eq_bind, Option.bind_some]
  rw [hsize]
  exact hwhole

theorem Whole.peeks (hwhole : Whole item) : ∃ bytes vsize value, item.2 = some bytes ∧
    peekSize bytes 0 = some vsize ∧ peek bytes 0 (vsize + 8) = some value ∧
    itemBytes item = Bytes.encode 8 item.1.length ++ item.1 ++ value ∧
    (itemBytes item).length = 2 * 8 + item.1.length + vsize := by
  obtain ⟨value, hvalue⟩ := Option.isSome_iff_exists.mp hwhole
  obtain ⟨bytes, hbytes, hrest⟩ := Option.bind_eq_some_iff.mp hvalue
  obtain ⟨vsize, hvsize, hpeek⟩ := Option.bind_eq_some_iff.mp hrest
  have hitem : itemBytes item = Bytes.encode 8 item.1.length ++ item.1 ++ value := by
    rw [itemBytes, hvalue, Option.getD_some]
  refine ⟨bytes, vsize, value, hbytes, hvsize, hpeek, hitem, ?_⟩
  rw [hitem, List.length_append, List.length_append, Bytes.encode_length, peek_length hpeek]
  omega

private theorem whole_of_putItem (hput : putItem pageSize buf item = some buf') : Whole item := by
  obtain ⟨bytes, hbytes, hrest⟩ := Option.bind_eq_some_iff.mp hput
  obtain ⟨vsize, hvsize, hrest⟩ := Option.bind_eq_some_iff.mp hrest
  obtain ⟨value, hvalue, -⟩ := Option.bind_eq_some_iff.mp hrest
  unfold Whole written
  simp only [hbytes, hvsize, hvalue, Option.bind_eq_bind, Option.bind_some, Option.isSome_some]

theorem Filled.whole (hfilled : Filled item) : Whole item := by
  obtain ⟨value, -, hvalue, hcell⟩ := hfilled.value
  unfold Whole
  rw [hcell, written_cell hvalue]
  rfl

@[simp] private theorem itemsBytes_append (here there : List Item) :
    itemsBytes (here ++ there) = itemsBytes here ++ itemsBytes there := List.flatMap_append

@[simp] private theorem itemsBytes_singleton (item : Item) : itemsBytes [item] = itemBytes item :=
  List.flatMap_singleton _ _

private theorem itemsBytes_concat (items : List Item) (item : Item) :
    itemsBytes (items ++ [item]) = itemsBytes items ++ itemBytes item := by
  rw [itemsBytes_append, itemsBytes_singleton]

/-- Bytes up to the end of the first page, where the overflow area begins in the buffer. -/
def padded (pageSize : Nat) (bytes : List UInt8) : List UInt8 :=
  bytes ++ List.replicate (pageSize - bytes.length) 0

/-- A buffer with records: all of them in the page, or the first ones there and the others in
the overflow area. -/
inductive Holds (pageSize : Nat) (front : List UInt8) (items : List Item) : PageBuffer → Prop
  | inPage (hroom : (front ++ itemsBytes items).length + 8 ≤ pageSize) :
    Holds pageSize front items ⟨front ++ itemsBytes items, 1, true⟩
  | spilled (here there : List Item) (np : Nat) (hsplit : items = here ++ there)
    (hthere : there ≠ []) (hroom : (front ++ itemsBytes here).length + 8 ≤ pageSize)
    (hmore : 2 ≤ np) (hend : pageSize + (itemsBytes there).length + 8 ≤ np * pageSize) :
    Holds pageSize front items
      ⟨padded pageSize (front ++ itemsBytes here) ++ itemsBytes there, np, false⟩

theorem padded_length {bytes : List UInt8} (hle : bytes.length ≤ pageSize) :
    (padded pageSize bytes).length = pageSize := by
  unfold padded
  rw [List.length_append, List.length_replicate]
  omega

theorem padded_eq {bytes : List UInt8} (hlength : bytes.length = pageSize) :
    padded pageSize bytes = bytes := by
  rw [padded, hlength, Nat.sub_self, List.replicate_zero, List.append_nil]

private theorem le_pages_mul (hpage : 0 < pageSize) (size : Nat) :
    size ≤ ((size - 1) / pageSize + 1) * pageSize := by
  have hlt := Nat.lt_div_mul_add hpage (a := size - 1)
  rw [Nat.add_mul, Nat.one_mul]
  omega

private theorem putItem_fits (hwhole : Whole item)
    (hfits : buf.bytes.length + (itemBytes item).length + 8 ≤ buf.np * pageSize) :
    putItem pageSize buf item = some { buf with bytes := buf.bytes ++ itemBytes item } := by
  obtain ⟨bytes, vsize, value, hcell, hsize, hvalue, hitem, hlength⟩ := hwhole.peeks
  unfold putItem
  simp only [hcell, hsize, hvalue, Option.bind_eq_bind, Option.bind_some]
  rw [hlength] at hfits
  rw [if_neg (by omega)]
  rw [hitem]

private theorem putItem_spills (hwhole : Whole item)
    (hinside : buf.bytes.length < buf.np * pageSize)
    (hspills : buf.np * pageSize < buf.bytes.length + (itemBytes item).length + 8) :
    putItem pageSize buf item = some
      { bytes := (if buf.firstOvfl then padded pageSize buf.bytes else buf.bytes) ++
          itemBytes item
        np := ((if buf.firstOvfl then padded pageSize buf.bytes else buf.bytes).length +
          (itemBytes item).length + 8 - 1) / pageSize + 1
        firstOvfl := false } := by
  obtain ⟨bytes, vsize, value, hcell, hsize, hvalue, hitem, hlength⟩ := hwhole.peeks
  unfold putItem
  simp only [hcell, hsize, hvalue, Option.bind_eq_bind, Option.bind_some]
  rw [hlength] at hspills ⊢
  rw [if_pos (by omega), if_pos hinside]
  rw [hitem]
  rfl

theorem Holds.opened (hroom : front.length + 8 ≤ pageSize) :
    Holds pageSize front [] ⟨front, 1, true⟩ := by
  have hnone : front ++ itemsBytes [] = front := List.append_nil front
  have hholds : Holds pageSize front [] ⟨front ++ itemsBytes [], 1, true⟩ := by
    refine .inPage ?_
    rw [hnone]
    exact hroom
  rw [hnone] at hholds
  exact hholds

theorem Holds.putItem (hholds : Holds pageSize front items buf) (hwhole : Whole item) :
    ∃ buf', putItem pageSize buf item = some buf' ∧
      Holds pageSize front (items ++ [item]) buf' := by
  cases hholds with
  | inPage hroom =>
    by_cases hfits : (front ++ itemsBytes items).length + (itemBytes item).length + 8 ≤ 1 * pageSize
    · refine ⟨_, putItem_fits hwhole hfits, ?_⟩
      have hnew : (front ++ itemsBytes (items ++ [item])).length + 8 ≤ pageSize := by
        rw [itemsBytes_concat, ← List.append_assoc, List.length_append]
        omega
      have hholds := Holds.inPage hnew
      rw [itemsBytes_concat, ← List.append_assoc] at hholds
      exact hholds
    · refine ⟨_, putItem_spills hwhole (by dsimp only; omega) (Nat.lt_of_not_le hfits), ?_⟩
      have hpadded := padded_length (Nat.le_of_add_right_le hroom)
      have hend := le_pages_mul (show 0 < pageSize by omega)
        (pageSize + (itemBytes item).length + 8)
      have hpages : 1 ≤ (pageSize + (itemBytes item).length + 8 - 1) / pageSize :=
        (Nat.le_div_iff_mul_le (by omega)).mpr (by omega)
      have hholds : Holds pageSize front _ _ := .spilled items [item]
        ((pageSize + (itemBytes item).length + 8 - 1) / pageSize + 1) rfl (by simp) hroom
        (by omega) (by rw [itemsBytes_singleton]; exact hend)
      rw [itemsBytes_singleton] at hholds
      simp only [if_true, hpadded]
      exact hholds
  | spilled here there np hsplit hthere hroom hmore hend =>
    have hlength : (padded pageSize (front ++ itemsBytes here) ++ itemsBytes there).length =
        pageSize + (itemsBytes there).length := by
      rw [List.length_append, padded_length (Nat.le_of_add_right_le hroom)]
    have hsplit' : items ++ [item] = here ++ (there ++ [item]) := by
      rw [hsplit, List.append_assoc]
    have hnew : ∀ pages, 2 ≤ pages →
        pageSize + (itemsBytes there).length + (itemBytes item).length + 8 ≤ pages * pageSize →
        Holds pageSize front (items ++ [item])
          ⟨padded pageSize (front ++ itemsBytes here) ++ itemsBytes there ++ itemBytes item, pages,
            false⟩ := by
      intro pages hpages hroom'
      have hholds := Holds.spilled here (there ++ [item]) pages hsplit' (by simp) hroom hpages
        (by rw [itemsBytes_concat, List.length_append]; omega)
      rw [itemsBytes_concat, ← List.append_assoc] at hholds
      exact hholds
    by_cases hfits : pageSize + (itemsBytes there).length + (itemBytes item).length + 8 ≤
        np * pageSize
    · exact ⟨_, putItem_fits hwhole (by rw [hlength]; exact hfits), hnew np hmore hfits⟩
    · have hpage : 0 < pageSize := by omega
      have hroom' := le_pages_mul hpage
        (pageSize + (itemsBytes there).length + (itemBytes item).length + 8)
      refine ⟨_, putItem_spills hwhole (by rw [hlength]; dsimp only; omega)
        (by rw [hlength]; exact Nat.lt_of_not_le hfits), ?_⟩
      simp only [Bool.false_eq_true, if_false, hlength]
      refine hnew _ (Nat.succ_le_succ ?_) hroom'
      exact (Nat.le_div_iff_mul_le hpage).mpr (by omega)

theorem Holds.refront (hholds : Holds pageSize front items buf) {other : List UInt8}
    (hlength : other.length = front.length) :
    Holds pageSize other items { buf with bytes := other ++ buf.bytes.drop front.length } := by
  cases hholds with
  | inPage hroom =>
    have hholds' : Holds pageSize other items ⟨other ++ itemsBytes items, 1, true⟩ := by
      refine .inPage ?_
      rw [List.length_append] at hroom ⊢
      omega
    simpa only [List.drop_left] using hholds'
  | spilled here there np hsplit hthere hroom hmore hend =>
    have hholds' : Holds pageSize other items
        ⟨padded pageSize (other ++ itemsBytes here) ++ itemsBytes there, np, false⟩ := by
      refine .spilled here there np hsplit hthere ?_ hmore hend
      rw [List.length_append] at hroom ⊢
      omega
    unfold padded at hholds' ⊢
    simpa only [List.append_assoc, List.drop_left, List.length_append, hlength] using hholds'

theorem Holds.begins (hholds : Holds pageSize front items buf) :
    ∃ rest, buf.bytes = front ++ rest := by
  cases hholds with
  | inPage hroom => exact ⟨_, rfl⟩
  | spilled here there np hsplit hthere hroom hmore hend =>
    refine ⟨itemsBytes here ++ (List.replicate (pageSize - (front ++ itemsBytes here).length) 0 ++
      itemsBytes there), ?_⟩
    unfold padded
    simp only [List.append_assoc]

theorem Holds.le_length (hholds : Holds pageSize front items buf) (hnp : 2 ≤ buf.np) :
    pageSize ≤ buf.bytes.length ∧ buf.bytes.length ≤ buf.np * pageSize := by
  cases hholds with
  | inPage hroom => exact absurd hnp (Nat.not_succ_le_self 1)
  | spilled here there np hsplit hthere hroom hmore hend =>
    dsimp only
    rw [List.length_append, padded_length (Nat.le_of_add_right_le hroom)]
    omega

theorem Holds.length_le (hholds : Holds pageSize front items buf) (hnp : buf.np ≤ 1) :
    buf.bytes.length ≤ pageSize := by
  cases hholds with
  | inPage hroom => exact Nat.le_of_add_right_le hroom
  | spilled here there np hsplit hthere hroom hmore hend =>
    dsimp only at hnp
    omega

theorem Holds.page_length (hholds : Holds pageSize front items buf) (hnp : 2 ≤ buf.np)
    {other : List UInt8} (hlength : other.length = front.length) (hroom : front.length ≤ pageSize) :
    (other ++ (buf.bytes.take pageSize).drop front.length).length = pageSize := by
  have hle := (hholds.le_length hnp).1
  rw [List.length_append, List.length_drop, List.length_take]
  omega

theorem Holds.area_length (hholds : Holds pageSize front items buf) (hnp : 2 ≤ buf.np) :
    (buf.bytes.drop pageSize ++
      List.replicate (buf.np * pageSize - buf.bytes.length) (0xff : UInt8)).length =
        pageSize * (buf.np - 1) := by
  obtain ⟨hle, hmore⟩ := hholds.le_length hnp
  have hcomm := Nat.mul_comm pageSize buf.np
  rw [List.length_append, List.length_drop, List.length_replicate, Nat.mul_sub, Nat.mul_one]
  omega

theorem Holds.of_putItems (hholds : Holds pageSize front here buf)
    (hput : Btree.putItems pageSize buf there = some buf') :
    Holds pageSize front (here ++ there) buf' := by
  induction there generalizing here buf with
  | nil =>
    cases hput
    rw [List.append_nil]
    exact hholds
  | cons item rest ih =>
    obtain ⟨next, hnext, hrest⟩ := Option.bind_eq_some_iff.mp hput
    obtain ⟨other, hother, hholds'⟩ := hholds.putItem (whole_of_putItem hnext)
    obtain rfl : next = other := Option.some.inj (hnext.symm.trans hother)
    have hall := ih hholds' hrest
    rw [List.append_assoc] at hall
    exact hall

theorem Holds.putItems (hholds : Holds pageSize front here buf)
    (hwhole : ∀ item ∈ there, Whole item) :
    ∃ buf', putItems pageSize buf there = some buf' ∧ Holds pageSize front (here ++ there) buf' := by
  induction there generalizing here buf with
  | nil => exact ⟨buf, rfl, by rw [List.append_nil]; exact hholds⟩
  | cons item rest ih =>
    obtain ⟨hitem, hrest⟩ := List.forall_mem_cons.mp hwhole
    obtain ⟨next, hnext, hholds'⟩ := hholds.putItem hitem
    obtain ⟨buf', hbuf, hall⟩ := ih hholds' hrest
    refine ⟨buf', ?_, ?_⟩
    · rw [Btree.putItems, hnext]
      exact hbuf
    · rw [List.append_assoc] at hall
      exact hall

private theorem peekSize_head (hfilled : Filled item) (front back : List UInt8) :
    peekSize (front ++ itemBytes item ++ back) front.length = some item.1.length := by
  have hpeek := peekSize_middle front (item.1 ++ (written item.2).getD [] ++ back) hfilled.size
  simpa only [itemBytes, List.append_assoc] using hpeek

private theorem readItems_item (hfilled : Filled item) (overflow : Option (List UInt8)) (left : Nat)
    (front back : List UInt8) (firstOvfl : Bool) :
    BtreeNode.readItems overflow (left + 1) (front ++ itemBytes item ++ back) front.length
        firstOvfl =
      (BtreeNode.readItems overflow left (front ++ itemBytes item ++ back)
        (front ++ itemBytes item).length firstOvfl).map (item :: ·) := by
  obtain ⟨key, _⟩ := item
  obtain ⟨hkey, hsize, value, hvalue, hvsize, rfl⟩ := hfilled
  have hksize : key.length ≠ 0 := List.length_eq_zero_iff.not.mpr hkey
  have hvlength : value.length ≠ 0 := List.length_eq_zero_iff.not.mpr hvalue
  have hbytes : itemBytes (key, cell value) =
      Bytes.encode 8 key.length ++ key ++ (Bytes.encode 8 value.length ++ value) := by
    rw [itemBytes, written_cell hvsize, Option.getD_some]
  have hreadKsize := peekSize_middle front
    (key ++ (Bytes.encode 8 value.length ++ (value ++ back))) hsize
  have hreadKey := peek_middle (front ++ Bytes.encode 8 key.length) key
    (Bytes.encode 8 value.length ++ (value ++ back))
  have hreadVsize := peekSize_middle (front ++ (Bytes.encode 8 key.length ++ key)) (value ++ back)
    hvsize
  have hreadValue := peek_middle (front ++ (Bytes.encode 8 key.length ++ (key ++
    Bytes.encode 8 value.length))) value back
  simp only [List.append_assoc, List.length_append, Bytes.encode_length, ← Nat.add_assoc]
    at hreadKsize hreadKey hreadVsize hreadValue
  rw [hbytes]
  simp only [List.append_assoc, List.length_append, Bytes.encode_length]
  rw [BtreeNode.readItems]
  simp only [hreadKsize, hreadKey, hreadVsize, hreadValue, Option.bind_eq_bind, Option.bind_some,
    if_neg hksize]
  rw [if_pos hvlength]
  simp only [Nat.add_assoc]
  exact Option.map_eq_bind.symm

private theorem readItems_items (hfilled : ∀ item ∈ items, Filled item)
    (overflow : Option (List UInt8))
    (left : Nat) (front back : List UInt8) (firstOvfl : Bool) :
    BtreeNode.readItems overflow (items.length + left) (front ++ itemsBytes items ++ back)
        front.length firstOvfl =
      (BtreeNode.readItems overflow left (front ++ itemsBytes items ++ back)
        (front ++ itemsBytes items).length firstOvfl).map (items ++ ·) := by
  induction items generalizing front with
  | nil =>
    have hnone : itemsBytes [] = [] := rfl
    rw [hnone, List.append_nil, List.length_nil, Nat.zero_add]
    exact Option.map_id'.symm
  | cons item rest ih =>
    obtain ⟨hitem, hrest⟩ := List.forall_mem_cons.mp hfilled
    have hsplit : itemsBytes (item :: rest) = itemBytes item ++ itemsBytes rest := rfl
    have hhead := readItems_item hitem overflow (rest.length + left) front
      (itemsBytes rest ++ back) firstOvfl
    have htail := ih hrest (front ++ itemBytes item)
    rw [hsplit, List.length_cons, Nat.succ_add]
    simp only [List.append_assoc] at hhead htail ⊢
    rw [hhead, htail, Option.map_map]
    rfl

private theorem readItems_behind {page area : List UInt8} {p ksize : Nat}
    (hmark : peekSize page p = some 0)
    (hksize : peekSize area 0 = some ksize) (hkey : ksize ≠ 0) (left : Nat) :
    BtreeNode.readItems (some area) (left + 1) page p true =
      BtreeNode.readItems (some area) (left + 1) area 0 false := by
  rw [BtreeNode.readItems, BtreeNode.readItems]
  simp only [hmark, hksize, Option.bind_eq_bind, Option.bind_some, if_true, if_neg hkey]

theorem readItems_length {left p : Nat} {str : List UInt8} {firstOvfl : Bool}
    (hread : BtreeNode.readItems overflow left str p firstOvfl = some items) :
    items.length = left := by
  induction left generalizing str p firstOvfl items with
  | zero =>
    cases hread
    rfl
  | succ left ih =>
    rw [BtreeNode.readItems] at hread
    obtain ⟨ksize, -, hread⟩ := Option.bind_eq_some_iff.mp hread
    dsimp only at hread
    -- in the page, in the overflow area, or nowhere
    split_ifs at hread
    · obtain ⟨area, -, hread⟩ := Option.bind_eq_some_iff.mp hread
      simp only [Option.bind_eq_bind, Option.bind_some] at hread
      grind [Option.bind_eq_some_iff]
    · cases hread
    · simp only [Option.bind_eq_bind, Option.bind_some] at hread
      grind [Option.bind_eq_some_iff]

/-- The first bytes of a buffer make the page, the others the overflow area. -/
theorem Holds.read (hholds : Holds pageSize front items buf) (hfilled : ∀ item ∈ items, Filled item)
    {area : Option (List UInt8)} {pad : List UInt8}
    (harea : 2 ≤ buf.np → area = some (buf.bytes.drop pageSize ++ pad)) :
    BtreeNode.readItems area items.length (padded pageSize (buf.bytes.take pageSize)) front.length
      true = some items := by
  cases hholds with
  | inPage hroom =>
    have hpage : padded pageSize ((front ++ itemsBytes items).take pageSize) =
        front ++ itemsBytes items ++
          List.replicate (pageSize - (front ++ itemsBytes items).length) 0 := by
      rw [List.take_of_length_le (Nat.le_of_add_right_le hroom)]
      rfl
    have hread := readItems_items hfilled area 0 front
      (List.replicate (pageSize - (front ++ itemsBytes items).length) 0) true
    rw [Nat.add_zero] at hread
    rw [hpage, hread, BtreeNode.readItems, Option.map_some, List.append_nil]
  | spilled here there np hsplit hthere hroom hmore hend =>
    subst hsplit
    obtain ⟨hhere, hbehind⟩ := List.forall_mem_append.mp hfilled
    have hlength := padded_length (Nat.le_of_add_right_le hroom)
    have hpage : padded pageSize ((padded pageSize (front ++ itemsBytes here) ++
        itemsBytes there).take pageSize) = padded pageSize (front ++ itemsBytes here) := by
      rw [List.take_append_of_le_length (Nat.le_of_eq hlength.symm),
        List.take_of_length_le (Nat.le_of_eq hlength), padded_eq hlength]
    have hrest : (padded pageSize (front ++ itemsBytes here) ++ itemsBytes there).drop pageSize =
        itemsBytes there := List.drop_left' hlength
    have hmark : peekSize (padded pageSize (front ++ itemsBytes here))
        (front ++ itemsBytes here).length = some 0 := by
      obtain ⟨spare, hspare⟩ := Nat.exists_eq_add_of_le
        (show 8 ≤ pageSize - (front ++ itemsBytes here).length by omega)
      have hzero : Bytes.encode 8 0 = List.replicate 8 0 := rfl
      have hpeek := peekSize_middle (front ++ itemsBytes here) (List.replicate spare 0)
        (show 0 < 2 ^ 64 by decide)
      rw [hzero, List.append_assoc, List.replicate_append_replicate, ← hspare] at hpeek
      exact hpeek
    obtain ⟨first, rest, rfl⟩ := List.exists_cons_of_ne_nil hthere
    have hfirst := (List.forall_mem_cons.mp hbehind).1
    have hksize := peekSize_head hfirst [] (itemsBytes rest ++ pad)
    have hkey : first.1.length ≠ 0 := List.length_eq_zero_iff.not.mpr hfirst.key
    have hsplit : itemsBytes (first :: rest) = itemBytes first ++ itemsBytes rest := rfl
    rw [List.nil_append, ← List.append_assoc, ← hsplit] at hksize
    have hfront := readItems_items hhere area (first :: rest).length front
      (List.replicate (pageSize - (front ++ itemsBytes here).length) 0) true
    have hback := readItems_items hbehind area 0 [] pad false
    rw [harea hmore, hrest] at hfront hback ⊢
    rw [Nat.add_zero, List.nil_append, List.length_nil, BtreeNode.readItems, Option.map_some,
      List.append_nil] at hback
    have hjump := readItems_behind hmark hksize hkey rest.length
    rw [List.length_cons] at hfront hback
    rw [hpage, List.length_append, List.length_cons]
    unfold padded at hjump ⊢
    rw [hfront, hjump, hback, Option.map_some]

end Libsax.Btree
