import Libsax.Text.UrlEscape

/-! What `g_url_decode` sees of the memory behind its source. -/
namespace Libsax.Text.UrlEscape

open Libsax.Lib

/-- The memories hold the same bytes up to a length. -/
def Agree (src other : List UInt8) (len : Nat) : Prop := ∀ i < len, byteAt other i = byteAt src i

/-- The escapes that begin before a position. -/
def escapesBefore (src : List UInt8) (i : Nat) : Nat := (List.range i).countP (isEscape src)

/-- A percent sign that the end of the source cuts from its digits. -/
def Cut (src : List UInt8) (len i : Nat) : Prop :=
  byteAt src i = 37 ∧
    (i + 1 = len ∨ i + 2 = len ∧ isxdigit (byteAt src (i + 1)) = true)

/-- One of these is at a place where the destination still has room: every escape before it
takes three bytes to one. -/
def Straddles (src : List UInt8) (len : Nat) (dstLen : Int) : Prop :=
  ∃ i < len, Cut src len i ∧ (i : Int) - 2 * escapesBefore src i < dstLen - 1

variable {src other : List UInt8} {len limit i j : Nat} {form : Bool} {cells : Cells}

private theorem isxdigit_ne_percent (c : UInt8) (hdigit : isxdigit c = true) : c ≠ 37 := by
  rintro rfl
  exact absurd hdigit (by decide)

theorem isEscape_eq_true : isEscape src i = true ↔ byteAt src i = 37 ∧
    isxdigit (byteAt src (i + 1)) = true ∧ isxdigit (byteAt src (i + 2)) = true := by
  rw [isEscape, Bool.and_eq_true, Bool.and_eq_true, beq_iff_eq, and_assoc]

theorem isEscape_of_ne (hne : byteAt src i ≠ 37) : isEscape src i = false := by
  rw [← Bool.not_eq_true, isEscape_eq_true]
  exact fun h => hne h.1

private theorem escapesBefore_succ (src : List UInt8) (i : Nat) :
    escapesBefore src (i + 1) = escapesBefore src i + if isEscape src i then 1 else 0 := by
  rw [escapesBefore, List.range_succ, List.countP_append, List.countP_singleton]
  rfl

private theorem unit_width (src : List UInt8) (form : Bool) (i : Nat) :
    (unit src form i).2 = if isEscape src i then 3 else 1 := by
  unfold unit
  split_ifs <;> rfl

theorem escapesBefore_unit (src : List UInt8) (form : Bool) (i : Nat) :
    (unit src form i).2 = 1 + 2 * (escapesBefore src (i + (unit src form i).2) -
      escapesBefore src i) ∧ escapesBefore src i ≤ escapesBefore src (i + (unit src form i).2) := by
  have hwidth := unit_width src form i
  cases hescape : isEscape src i with
  | true =>
    obtain ⟨-, hfirst, hsecond⟩ := isEscape_eq_true.mp hescape
    rw [hescape, if_pos rfl] at hwidth
    have h1 := isEscape_of_ne (isxdigit_ne_percent _ hfirst)
    have h2 := isEscape_of_ne (isxdigit_ne_percent _ hsecond)
    have hcount : escapesBefore src (i + 3) = escapesBefore src i + 1 := by
      rw [escapesBefore_succ, escapesBefore_succ, escapesBefore_succ, h1, h2, hescape]
      rfl
    rw [hwidth, hcount]
    omega
  | false =>
    rw [hescape, if_neg Bool.false_ne_true] at hwidth
    have hcount : escapesBefore src (i + 1) = escapesBefore src i := by
      rw [escapesBefore_succ, hescape]
      rfl
    rw [hwidth, hcount]
    omega

private theorem isEscape_congr (hagree : Agree src other len) (hi : i < len)
    (hcut : ¬ Cut src len i) :
    isEscape other i = isEscape src i := by
  have h0 := hagree i hi
  by_cases hpercent : byteAt src i = 37
  · by_cases hnear : i + 2 < len
    · rw [isEscape, isEscape, h0, hagree (i + 1) (by omega), hagree (i + 2) hnear]
    · have hnext : i + 1 < len := by
        by_contra hend
        exact hcut ⟨hpercent, .inl (by omega)⟩
      have hdigit : isxdigit (byteAt src (i + 1)) = false := by
        rw [← Bool.not_eq_true]
        exact fun h => hcut ⟨hpercent, .inr ⟨by omega, h⟩⟩
      rw [isEscape, isEscape, hagree (i + 1) hnext, hdigit, Bool.and_false, Bool.and_false,
        Bool.false_and, Bool.false_and]
  · rw [isEscape_of_ne hpercent, isEscape_of_ne (h0 ▸ hpercent)]

private theorem unit_congr (hagree : Agree src other len) (hi : i < len) (hcut : ¬ Cut src len i) :
    unit other form i = unit src form i := by
  have hsame := isEscape_congr hagree hi hcut
  have h0 := hagree i hi
  cases hescape : isEscape src i with
  | true =>
    obtain ⟨hpercent, hfirst, -⟩ := isEscape_eq_true.mp hescape
    have hnear : i + 2 < len := by
      by_contra hend
      exact hcut ⟨hpercent, by
        by_cases hlast : i + 1 = len
        · exact .inl hlast
        · exact .inr ⟨by omega, hfirst⟩⟩
    rw [unit, unit, hsame, hescape, hagree (i + 1) (by omega), hagree (i + 2) hnear, h0]
  | false =>
    rw [unit, unit, hsame, hescape, h0, if_neg Bool.false_ne_true, if_neg Bool.false_ne_true]

private theorem not_cut_of_lt (hlt : i < j) (hj : j < len) (hpercent : byteAt src j = 37) :
    ¬ Cut src len i := by
  rintro ⟨-, hlast | ⟨hnear, hdigit⟩⟩
  · omega
  · obtain rfl : i + 1 = j := by omega
    exact isxdigit_ne_percent _ hdigit hpercent

private theorem escapesBefore_congr (hagree : Agree src other len) (hi : i < len)
    (hpercent : byteAt src i = 37) : escapesBefore other i = escapesBefore src i := by
  unfold escapesBefore
  apply List.countP_congr
  intro k hk
  have hlt := List.mem_range.mp hk
  rw [isEscape_congr hagree (by omega) (not_cut_of_lt hlt hi hpercent)]

/-- Unless an escape straddles the end, the loop does the same in both memories. -/
private theorem decodeLoop_congr (hagree : Agree src other len)
    (hcut : ∀ k < len, Cut src len k → k - 2 * escapesBefore src k ≥ limit) (fuel : Nat)
    (hplace : j + 2 * escapesBefore src i = i) :
    decodeLoop other len limit form fuel i j cells =
      decodeLoop src len limit form fuel i j cells := by
  induction fuel generalizing i j cells with
  | zero => rfl
  | succ fuel ih =>
    rw [decodeLoop, decodeLoop]
    split_ifs with hgo
    · have hwhole : ¬ Cut src len i := fun h => absurd (hcut i hgo.1 h) (by omega)
      obtain ⟨hmoved, hle⟩ := escapesBefore_unit src form i
      rw [unit_congr hagree hgo.1 hwhole]
      exact ih (by omega)
    · rfl

private theorem unit_le (hlt : i < j) (hpercent : byteAt src j = 37) : i +
    (unit src form i).2 ≤ j := by
  have hwidth := unit_width src form i
  cases hescape : isEscape src i with
  | true =>
    obtain ⟨-, hfirst, hsecond⟩ := isEscape_eq_true.mp hescape
    have h1 : i + 1 ≠ j := fun h => isxdigit_ne_percent _ hfirst (h ▸ hpercent)
    have h2 : i + 2 ≠ j := fun h => isxdigit_ne_percent _ hsecond (h ▸ hpercent)
    rw [hescape, if_pos rfl] at hwidth
    omega
  | false =>
    rw [hescape, if_neg Bool.false_ne_true] at hwidth
    omega

private theorem places_le {p : Nat} (hle : i ≤ p) (hpercent : byteAt src p = 37) :
    i + 2 * escapesBefore src p ≤ p + 2 * escapesBefore src i := by
  induction hgap : p - i using Nat.strong_induction_on generalizing i with
  | h gap ih =>
    rcases Nat.lt_or_eq_of_le hle with hlt | rfl
    · obtain ⟨hmoved, hmore⟩ := escapesBefore_unit src false i
      have hnext := @unit_le src i p false hlt hpercent
      have hlater := ih (p - (i + (unit src false i).2)) (by omega) hnext rfl
      omega
    · exact le_refl _

private theorem decodeLoop_reaches {fuel p : Nat} (hp : p < len) (hpercent : byteAt src p = 37)
    (hroom : p - 2 * escapesBefore src p < limit) (hplace : j + 2 * escapesBefore src i = i)
    (hle : i ≤ p) (hfuel : p - i < fuel) :
    ∃ fuel' cells', decodeLoop src len limit form fuel i j cells =
      decodeLoop src len limit form (fuel' + 1) p (p - 2 * escapesBefore src p) cells' := by
  induction fuel generalizing i j cells with
  | zero => exact absurd hfuel (Nat.not_lt_zero _)
  | succ fuel ih =>
    rcases Nat.lt_or_eq_of_le hle with hlt | rfl
    · have hplaces := places_le hle hpercent
      obtain ⟨hmoved, hmore⟩ := escapesBefore_unit src form i
      rw [decodeLoop, if_pos ⟨by omega, by omega⟩]
      exact ih (by omega) (unit_le hlt hpercent) (by omega)
    · obtain rfl : j = i - 2 * escapesBefore src i := by omega
      exact ⟨fuel, cells, rfl⟩

private theorem decodeLoop_before {fuel at_ : Nat} (hlt : at_ < j) :
    (decodeLoop src len limit form fuel i j cells).1.cell at_ = cells.cell at_ ∧
      j ≤ (decodeLoop src len limit form fuel i j cells).2 := by
  induction fuel generalizing i j cells with
  | zero => exact ⟨rfl, le_refl j⟩
  | succ fuel ih =>
    rw [decodeLoop]
    split_ifs
    · obtain ⟨hcell, hj⟩ := @ih (i + (unit src form i).2) (j + 1)
        (cells.put j (unit src form i).1) (Nat.lt_succ_of_lt hlt)
      exact ⟨hcell.trans (Cells.cell_put_of_ne (Nat.ne_of_lt hlt)), by omega⟩
    · exact ⟨rfl, le_refl j⟩

private theorem gUrlDecode_cell {srcLen dstLen : Int} {p : Nat} (hp : p < srcLen.toNat)
    (hpercent : byteAt src p = 37) (hroom : (p : Int) - 2 * escapesBefore src p < dstLen - 1) :
    (gUrlDecode src srcLen dstLen form).1.cell (p - 2 * escapesBefore src p) =
      some (unit src form p).1 := by
  have hstart : escapesBefore src 0 = 0 := rfl
  have hplaces := @places_le src 0 p (Nat.zero_le p) hpercent
  obtain ⟨fuel, cells, hreaches⟩ := @decodeLoop_reaches src srcLen.toNat (dstLen - 1).toNat 0 0
    form Cells.fresh srcLen.toNat p hp hpercent (by omega) rfl (Nat.zero_le p) (by omega)
  rw [decodeLoop, if_pos ⟨hp, by omega⟩] at hreaches
  obtain ⟨hcell, hj⟩ := @decodeLoop_before src srcLen.toNat (dstLen - 1).toNat
    (p + (unit src form p).2) (p - 2 * escapesBefore src p + 1) form
    (cells.put (p - 2 * escapesBefore src p) (unit src form p).1) fuel
    (p - 2 * escapesBefore src p) (Nat.lt_succ_self _)
  rw [gUrlDecode, if_neg (by omega)]
  dsimp only
  rw [hreaches, Cells.cell_put_of_ne (by omega), hcell]
  exact if_pos rfl

/-- The first bytes of a memory, with others behind them. -/
def cutAndExtend (src : List UInt8) (len : Nat) (tail : List UInt8) : List UInt8 :=
  (List.range len).map (byteAt src) ++ tail

private theorem agree_cutAndExtend (tail : List UInt8) : Agree src
    (cutAndExtend src len tail) len := by
  intro i hi
  rw [byteAt, cutAndExtend, List.getD_eq_getElem?_getD, List.getElem?_append_left (by simpa)]
  simp [hi]

private theorem byteAt_cutAndExtend (tail : List UInt8) (k : Nat) :
    byteAt (cutAndExtend src len tail) (len + k) = tail.getD k 0 := by
  rw [byteAt, cutAndExtend, List.getD_eq_getElem?_getD, List.getElem?_append_right (by simp)]
  simp

private theorem escape_zero_ne_percent : ∀ digit : UInt8,
    (digit <<< 4) ||| hextoi (tolower 48) ≠ 37 := Octet.forall_of_fin (by decide +kernel)

/-- The result depends on the source alone exactly where no escape straddles its end. -/
theorem gUrlDecode_depends_iff {src : List UInt8} {srcLen dstLen : Int} {form : Bool}
    (hlen : 0 < srcLen) :
    (∀ other, Agree src other srcLen.toNat →
      gUrlDecode other srcLen dstLen form = gUrlDecode src srcLen dstLen form) ↔
    ¬ Straddles src srcLen.toNat dstLen := by
  constructor
  · rintro hsame ⟨p, hp, hcut, hroom⟩
    have hdigits : ∀ tail, (gUrlDecode src srcLen dstLen form).1.cell
        (p - 2 * escapesBefore src p) =
          some (unit (cutAndExtend src srcLen.toNat tail) form p).1 := by
      intro tail
      have hagree := @agree_cutAndExtend src srcLen.toNat tail
      have hcount := escapesBefore_congr hagree hp hcut.1
      rw [← hsame _ hagree, ← hcount]
      exact gUrlDecode_cell hp (by rw [hagree p hp, hcut.1]) (by rw [hcount]; exact hroom)
    have hsecond : ∀ tail, byteAt (cutAndExtend src srcLen.toNat tail) (p + 2) =
        tail.getD (p + 2 - srcLen.toNat) 0 := by
      intro tail
      have hindex : p + 2 = srcLen.toNat + (p + 2 - srcLen.toNat) := by
        rcases hcut.2 with hlast | ⟨hnear, -⟩
        · omega
        · omega
      rw [hindex, byteAt_cutAndExtend, Nat.add_sub_cancel_left]
    have hpercent : ∀ tail, byteAt (cutAndExtend src srcLen.toNat tail) p = 37 := fun tail =>
      (agree_cutAndExtend tail p hp).trans hcut.1
    have hescaped : unit (cutAndExtend src srcLen.toNat [48, 48]) form p =
        ((hextoi (tolower (byteAt (cutAndExtend src srcLen.toNat [48, 48]) (p + 1))) <<< 4) |||
          hextoi (tolower 48), 3) := by
      have hzero : byteAt (cutAndExtend src srcLen.toNat [48, 48]) (p + 2) = 48 := by
        rw [hsecond]
        rcases hcut.2 with hlast | ⟨hnear, -⟩
        · have hindex : p + 2 - srcLen.toNat = 1 := by omega
          rw [hindex]
          rfl
        · have hindex : p + 2 - srcLen.toNat = 0 := by omega
          rw [hindex]
          rfl
      have hfirst : isxdigit (byteAt (cutAndExtend src srcLen.toNat [48, 48]) (p + 1)) = true := by
        rcases hcut.2 with hlast | ⟨hnear, hdigit⟩
        · rw [hlast]
          exact (congrArg isxdigit (byteAt_cutAndExtend [48, 48] 0)).trans rfl
        · rw [agree_cutAndExtend [48, 48] (p + 1) (by omega), hdigit]
      have hescape : isEscape (cutAndExtend src srcLen.toNat [48, 48]) p = true :=
        isEscape_eq_true.mpr ⟨hpercent _, hfirst, by rw [hzero]; rfl⟩
      rw [unit, hescape, if_pos rfl, hzero]
    have hbare : unit (cutAndExtend src srcLen.toNat []) form p = (37, 1) := by
      have hnone : isEscape (cutAndExtend src srcLen.toNat []) p = false := by
        rw [isEscape, hsecond]
        exact Bool.and_false _
      rw [unit, hnone, hpercent, if_neg Bool.false_ne_true]
      cases form <;> rfl
    have hclash := (hdigits [48, 48]).symm.trans (hdigits [])
    rw [hescaped, hbare] at hclash
    exact escape_zero_ne_percent _ (Option.some.inj hclash)
  · intro hwhole other hagree
    have hcuts : ∀ k < srcLen.toNat, Cut src srcLen.toNat k →
        k - 2 * escapesBefore src k ≥ (dstLen - 1).toNat := by
      intro k hk hcut
      have hplaces := @places_le src 0 k (Nat.zero_le k) hcut.1
      have hstart : escapesBefore src 0 = 0 := rfl
      by_contra hless
      exact hwhole ⟨k, hk, hcut, by omega⟩
    have hpos : ¬ srcLen ≤ 0 := by omega
    rw [gUrlDecode, gUrlDecode, if_neg hpos, if_neg hpos,
      decodeLoop_congr hagree hcuts srcLen.toNat rfl]

/-- "a%41", decoded with its length. -/
theorem gUrlDecode_depends_iff_short :
    (∀ other, Agree [97, 37, 52, 49] other 4 →
      gUrlDecode other 4 3 false = gUrlDecode [97, 37, 52, 49] 4 3 false) ↔
    ¬ Straddles [97, 37, 52, 49] 4 3 :=
  @gUrlDecode_depends_iff [97, 37, 52, 49] 4 3 false (by decide)

/-- "%" decoded with its length 1: two digits that follow in memory change the result. -/
theorem gUrlDecode_differs :
    Agree [37] [37, 52, 49] 1 ∧ gUrlDecode [37, 52, 49] 1 2 false ≠ gUrlDecode [37] 1 2 false := by
  constructor
  · intro i hi
    obtain rfl : i = 0 := by omega
    rfl
  · intro hsame
    have hcell := congrArg (fun out => out.1.cell 0) hsame
    exact absurd hcell (by decide)

end Libsax.Text.UrlEscape
