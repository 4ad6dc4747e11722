import Libsax.Lib.CString

/-! `g_strlcpy` and `g_strlcat`: copies that stop at the size of their destination and
return the length that they would have needed. -/
namespace Libsax.Text.StrCopy

open Libsax.Lib

def toInt32 (value : Int) : Int := value.bmod (2 ^ 32)

/-- The `do` loop of `g_strlcpy` with the counter `n`, which stops behind a zero; `d` and `s`
have both moved by `i`. -/
def copyLoop : Nat → List UInt8 → Memory → Nat → Memory × Nat × Nat
  | 0, _, dst, i => (dst, i, 0)
  | n + 1, [], dst, i => (Function.update dst i 0, i + 1, n + 1)
  | n + 1, char :: rest, dst, i =>
    if char = 0 then (Function.update dst i char, i + 1, n + 1)
    else copyLoop n rest (Function.update dst i char) (i + 1)

def pastZero : List UInt8 → Nat → Nat
  | [], s => s + 1
  | char :: rest, s => if char = 0 then s + 1 else pastZero rest (s + 1)

def gStrlcpy (dst : Memory) (src : CString) (siz : Int) : Memory × Int :=
  let n := siz - 1
  let (dst, i, n) : Memory × Nat × Int :=
    if n > 0 then
      let (dst, i, n) := copyLoop n.toNat src.chars dst 0
      (dst, i, n)
    else (dst, 0, n)
  if n = 0 then
    let dst := if siz ≠ 0 then Function.update dst i 0 else dst
    (dst, toInt32 (pastZero (src.chars.drop i) i - 1))
  else (dst, toInt32 (i - 1))

/-- `while (n-- != 0 && *d != '\0') d++;` -/
def findEnd (dst : Memory) : Nat → Nat → Nat
  | 0, d => d
  | n + 1, d => if dst d ≠ 0 then findEnd dst n (d + 1) else d

/-- The second loop of `g_strlcat`; `n` is the room that is left. -/
def appendLoop : List UInt8 → Nat → Memory → Nat → Memory × Nat
  | [], _, dst, d => (dst, d)
  | char :: rest, n, dst, d =>
    if n ≠ 1 then appendLoop rest (n - 1) (Function.update dst d char) (d + 1)
    else appendLoop rest n dst d

def gStrlcat (dst : Memory) (src : CString) (siz : Int) : Memory × Int :=
  if siz < 0 then (dst, -1)
  else
    let dlen := findEnd dst siz.toNat 0
    let n := siz.toNat - dlen
    if n = 0 then (dst, toInt32 (dlen + src.chars.length))
    else
      let (dst, d) := appendLoop src.chars n dst dlen
      (Function.update dst d 0, toInt32 (dlen + src.chars.length))

/-- The contract of both: what is to be in the destination, when it is said to be terminated,
and the length that is documented for the result. -/
structure Contract (siz : Nat) (dst out : Memory) (intended : List UInt8) (terminated : Prop)
    (length : Nat) (result : Int) : Prop where
  outside : ∀ i, siz ≤ i → out i = dst i
  longest : terminated → ∃ text, out.Holds siz text ∧ text <+: intended ∧
    ∀ other, other <+: intended → other.length < siz → other.length ≤ text.length
  value : result = length
  truncated : siz ≤ result ↔ ¬ out.Holds siz intended

/-- The string in the destination, of which no more than `siz` bytes are looked at. -/
def initial (dst : Memory) (siz : Nat) : List UInt8 := dst.string siz 0

def CopyContract (dst : Memory) (src : CString) (siz : Nat) : Prop :=
  Contract siz dst (gStrlcpy dst src siz).1 src.chars (0 < siz) src.chars.length
    (gStrlcpy dst src siz).2

def AppendContract (dst : Memory) (src : CString) (siz : Nat) : Prop :=
  Contract siz dst (gStrlcat dst src siz).1 (initial dst siz ++ src.chars)
    ((initial dst siz).length < siz) (src.chars.length + min siz (initial dst siz).length)
    (gStrlcat dst src siz).2

theorem toInt32_of_lt {size : Nat} (hlt : size < 2 ^ 31) : toInt32 size = size :=
  Int.bmod_eq_of_le (by omega) (by omega)

private theorem toInt32_eq_iff (size : Nat) : toInt32 size = size ↔ size < 2 ^ 31 := by
  constructor
  · intro heq
    have hbound : toInt32 size < 2 ^ 31 := Int.bmod_lt (by decide)
    omega
  · exact toInt32_of_lt

variable {dst : Memory} {chars : List UInt8} {siz : Nat}

private theorem pastZero_eq (hchars : ∀ char ∈ chars, char ≠ 0) (s : Nat) :
    pastZero chars s = s + chars.length + 1 := by
  induction chars generalizing s with
  | nil => rfl
  | cons char rest ih =>
    rw [pastZero, if_neg (hchars char List.mem_cons_self),
      ih (fun other hother => hchars other (List.mem_cons_of_mem _ hother)), List.length_cons]
    omega

/-- With less room than the source has characters, the loop ends with the counter. -/
private theorem copyLoop_short (hchars : ∀ char ∈ chars, char ≠ 0) {n : Nat} (hn : n ≤ chars.length)
    (dst : Memory) (i : Nat) :
    copyLoop n chars dst i = (dst.putAll i (chars.take n), i + n, 0) := by
  induction n generalizing chars dst i with
  | zero =>
    rw [copyLoop, List.take_zero]
    rfl
  | succ n ih =>
    cases chars with
    | nil => exact absurd hn (Nat.not_succ_le_zero n)
    | cons char rest =>
      rw [copyLoop, if_neg (hchars char List.mem_cons_self),
        ih (fun other hother => hchars other (List.mem_cons_of_mem _ hother))
          (Nat.le_of_succ_le_succ hn), List.take_succ_cons, Memory.putAll]
      simp only [Prod.mk.injEq, and_true, true_and]
      omega

private theorem copyLoop_whole (hchars : ∀ char ∈ chars, char ≠ 0) {n : Nat} (hn : chars.length < n)
    (dst : Memory) (i : Nat) : copyLoop n chars dst i =
      (dst.putAll i (chars ++ [0]), i + chars.length + 1, n - chars.length) := by
  induction chars generalizing n dst i with
  | nil =>
    obtain ⟨n, rfl⟩ := Nat.exists_eq_add_one.mpr hn
    rfl
  | cons char rest ih =>
    obtain ⟨n, rfl⟩ := Nat.exists_eq_add_one.mpr (Nat.zero_lt_of_lt hn)
    rw [List.length_cons] at hn
    rw [copyLoop, if_neg (hchars char List.mem_cons_self),
      ih (fun other hother => hchars other (List.mem_cons_of_mem _ hother)) (by omega),
      List.length_cons, List.cons_append, Memory.putAll]
    simp only [Prod.mk.injEq, true_and]
    omega

private theorem findEnd_eq (dst : Memory) (n d : Nat) :
    findEnd dst n d = d + (dst.string n d).length := by
  induction n generalizing d with
  | zero => rfl
  | succ n ih =>
    rw [findEnd, Memory.string]
    by_cases hzero : dst d = 0
    · rw [if_neg (not_not_intro hzero), if_pos hzero]
      rfl
    · rw [if_pos hzero, if_neg hzero, ih, List.length_cons]
      omega

private theorem appendLoop_eq (chars : List UInt8) {n : Nat} (hn : 0 < n) (dst : Memory) (d : Nat) :
    appendLoop chars n dst d =
      (dst.putAll d (chars.take (n - 1)), d + (chars.take (n - 1)).length) := by
  induction chars generalizing n dst d with
  | nil =>
    rw [List.take_nil]
    rfl
  | cons char rest ih =>
    rw [appendLoop]
    by_cases hlast : n = 1
    · subst hlast
      rw [if_neg (not_not_intro rfl), ih hn]
      simp only [Nat.sub_self, List.take_zero]
    · obtain ⟨room, rfl⟩ : ∃ room, n = room + 2 := ⟨n - 2, by omega⟩
      have hroom : room + 2 - 1 = room + 1 := rfl
      rw [if_pos hlast, ih (by omega), hroom, List.take_succ_cons, Nat.add_sub_cancel,
        List.length_cons, Memory.putAll]
      simp only [Prod.mk.injEq, true_and]
      omega

theorem gStrlcpy_eq (dst : Memory) (src : CString) (hsiz : 0 < siz) :
    gStrlcpy dst src siz =
      (dst.putAll 0 (src.chars.take (siz - 1) ++ [0]), toInt32 src.chars.length) := by
  obtain ⟨n, rfl⟩ := Nat.exists_eq_add_one.mpr hsiz
  have hcount : ((n + 1 : Nat) : Int) - 1 = n := by omega
  have hne : ((n + 1 : Nat) : Int) ≠ 0 := by omega
  unfold gStrlcpy
  simp only [hcount, Int.toNat_natCast, Nat.add_sub_cancel, if_pos hne]
  by_cases hfits : src.chars.length < n
  · have hpos : (n : Int) > 0 := by omega
    have hleft : ((n - src.chars.length : Nat) : Int) ≠ 0 := by omega
    have hlength : ((0 + src.chars.length + 1 : Nat) : Int) - 1 = src.chars.length := by omega
    rw [if_pos hpos, copyLoop_whole src.chars_ne_zero hfits]
    simp only [if_neg hleft, hlength, List.take_of_length_le (Nat.le_of_lt hfits)]
  · have hle : n ≤ src.chars.length := Nat.le_of_not_lt hfits
    have hshort : (if (n : Int) > 0 then
        ((copyLoop n src.chars dst 0).1, (copyLoop n src.chars dst 0).2.1,
          ((copyLoop n src.chars dst 0).2.2 : Int))
        else (dst, 0, (n : Int))) = (dst.putAll 0 (src.chars.take n), n, 0) := by
      rw [copyLoop_short src.chars_ne_zero hle, Nat.zero_add]
      split_ifs with hpos
      · rfl
      · obtain rfl : n = 0 := by omega
        rfl
    have hpast : ∀ char ∈ src.chars.drop n, char ≠ 0 := fun char hchar =>
      src.chars_ne_zero char (List.mem_of_mem_drop hchar)
    have hlength : ((pastZero (src.chars.drop n) n : Nat) : Int) - 1 = src.chars.length := by
      rw [pastZero_eq hpast, List.length_drop]
      omega
    have htake : (src.chars.take n).length = n := by
      rw [List.length_take, Nat.min_eq_left hle]
    rw [hshort]
    simp only [if_true, hlength]
    rw [Memory.putAll_append, htake, Nat.zero_add]
    rfl

private theorem gStrlcat_full (dst : Memory) (src : CString)
    (hfull : siz ≤ (initial dst siz).length) :
    gStrlcat dst src siz =
      (dst, toInt32 ((initial dst siz).length + src.chars.length)) := by
  have hend : findEnd dst siz 0 = (initial dst siz).length := by
    rw [findEnd_eq, Nat.zero_add, initial]
  unfold gStrlcat
  rw [if_neg (Int.not_lt.mpr (Int.natCast_nonneg siz))]
  simp only [Int.toNat_natCast, hend, Nat.sub_eq_zero_of_le hfull, if_true]

theorem gStrlcat_eq (dst : Memory) (src : CString) (hroom : (initial dst siz).length < siz) :
    gStrlcat dst src siz =
      (dst.putAll (initial dst siz).length
          (src.chars.take (siz - (initial dst siz).length - 1) ++ [0]),
        toInt32 ((initial dst siz).length + src.chars.length)) := by
  have hend : findEnd dst siz 0 = (initial dst siz).length := by
    rw [findEnd_eq, Nat.zero_add, initial]
  have hleft : 0 < siz - (initial dst siz).length := Nat.sub_pos_of_lt hroom
  unfold gStrlcat
  rw [if_neg (Int.not_lt.mpr (Int.natCast_nonneg siz))]
  simp only [Int.toNat_natCast, hend, if_neg (Nat.ne_of_gt hleft), appendLoop_eq _ hleft,
    Memory.putAll_append]
  rfl

private theorem contract_iff {front text : List UInt8} {out : Memory} {terminated : Prop}
    (hfront : ∀ char ∈ front, char ≠ 0) (htext : ∀ char ∈ text, char ≠ 0)
    (hroom : front.length < siz) (hat : dst.At 0 front)
    (hout : out = dst.putAll front.length (text.take (siz - front.length - 1) ++ [0])) :
    Contract siz dst out (front ++ text) terminated (front ++ text).length
      (toInt32 (front ++ text).length) ↔ (front ++ text).length < 2 ^ 31 := by
  have hlength : (front ++ text).length = front.length + text.length := List.length_append
  generalize hpart : text.take (siz - front.length - 1) = part at hout
  have hpartLength : part.length = min (siz - front.length - 1) text.length := by
    rw [← hpart, List.length_take]
  have hheld : (front ++ part).length = front.length + part.length := List.length_append
  have hne : ∀ char ∈ front ++ part, char ≠ 0 := by
    intro char hchar
    rcases List.mem_append.mp hchar with hchar | hchar
    · exact hfront char hchar
    · rw [← hpart] at hchar
      exact htext char (List.mem_of_mem_take hchar)
  have hstored : out.At 0 (front ++ (part ++ [0])) := by
    apply Memory.at_append.mpr
    constructor
    · apply Memory.at_congr _ hat
      intro j _ hlt
      rw [hout, Memory.putAll_of_lt (by omega)]
    · rw [Nat.zero_add, hout]
      exact Memory.at_putAll _ _ _
  have hstring : out.string siz 0 = front ++ part := by
    apply Memory.string_of_at _ hne
    · omega
    · rwa [List.append_assoc]
  constructor
  · intro hcontract
    exact (toInt32_eq_iff _).mp hcontract.value
  · intro hsmall
    have hvalue := toInt32_of_lt hsmall
    refine ⟨fun i hi => ?_, fun _ => ⟨front ++ part, ⟨by omega, hstring⟩, ?_, ?_⟩, hvalue, ?_⟩
    · rw [hout]
      apply Memory.putAll_of_le
      rw [List.length_append, List.length_singleton]
      omega
    · rw [← hpart]
      exact (List.prefix_append_right_inj front).mpr (List.take_prefix _ _)
    · intro other hother hlt
      have hle := hother.length_le
      omega
    · rw [hvalue]
      constructor
      · rintro hle ⟨hlt, -⟩
        omega
      · intro hcut
        by_contra hlt
        apply hcut
        refine ⟨by omega, ?_⟩
        rw [hstring, ← hpart, List.take_of_length_le (by omega)]

private theorem contract_full_iff {intended : List UInt8} {terminated : Prop} (hfull : ¬ terminated)
    (hlong : siz ≤ intended.length) {length : Nat} (hlength : siz ≤ length) :
    Contract siz dst dst intended terminated length (toInt32 length) ↔ length < 2 ^ 31 := by
  constructor
  · intro hcontract
    exact (toInt32_eq_iff _).mp hcontract.value
  · intro hsmall
    have hvalue := toInt32_of_lt hsmall
    refine ⟨fun _ _ => rfl, fun hterminated => absurd hterminated hfull, hvalue, ?_⟩
    rw [hvalue]
    constructor
    · rintro - ⟨hlt, -⟩
      omega
    · intro _
      omega

private theorem copyContract_iff (dst : Memory) (src : CString) (siz : Nat) :
    CopyContract dst src siz ↔ siz ≠ 0 ∧ src.chars.length < 2 ^ 31 := by
  rcases Nat.eq_zero_or_pos siz with rfl | hpos
  · constructor
    · intro hcontract
      have hvalue : (-1 : Int) = src.chars.length := hcontract.value
      omega
    · rintro ⟨hne, -⟩
      exact absurd rfl hne
  · have hcontract := @contract_iff dst siz [] src.chars _ (0 < siz)
      (fun _ hchar => absurd hchar List.not_mem_nil) src.chars_ne_zero hpos trivial rfl
    rw [List.nil_append, List.length_nil, Nat.sub_zero] at hcontract
    unfold CopyContract
    rw [gStrlcpy_eq dst src hpos]
    dsimp only
    rw [hcontract, and_iff_right (Nat.ne_of_gt hpos)]

private theorem appendContract_iff (dst : Memory) (src : CString) (siz : Nat) :
    AppendContract dst src siz ↔
      src.chars.length + min siz (initial dst siz).length < 2 ^ 31 := by
  have hle : (initial dst siz).length ≤ siz := Memory.string_length_le dst siz 0
  have hlength : (initial dst siz ++ src.chars).length =
      src.chars.length + min siz (initial dst siz).length := by
    rw [List.length_append, Nat.min_eq_right hle, Nat.add_comm]
  have hsum : ((initial dst siz).length : Int) + src.chars.length =
      (initial dst siz ++ src.chars).length := by
    rw [List.length_append]
    exact (Int.natCast_add _ _).symm
  unfold AppendContract
  rw [← hlength]
  by_cases hroom : (initial dst siz).length < siz
  · have hcontract := @contract_iff dst siz (initial dst siz) src.chars _
      ((initial dst siz).length < siz) (Memory.string_ne_zero dst siz 0) src.chars_ne_zero hroom
        (Memory.at_string dst siz 0) rfl
    rw [gStrlcat_eq dst src hroom, hsum]
    dsimp only
    rw [hcontract]
  · have hfull := Nat.le_of_not_lt hroom
    have hlong : siz ≤ (initial dst siz ++ src.chars).length := by
      rw [List.length_append]
      omega
    rw [gStrlcat_full dst src hfull, hsum]
    dsimp only
    exact contract_full_iff hroom hlong hlong

/-- Both keep their contract, except for a copy into nothing and for lengths that are no
`int`. -/
theorem contracts_iff (dst : Memory) (src : CString) (siz : Nat) :
    (CopyContract dst src siz ↔ siz ≠ 0 ∧ src.chars.length < 2 ^ 31) ∧
      (AppendContract dst src siz ↔
        src.chars.length + min siz (initial dst siz).length < 2 ^ 31) :=
  ⟨copyContract_iff dst src siz, appendContract_iff dst src siz⟩

/-- A copy of one character into nothing returns -1. -/
theorem not_copyContract_zero : ¬ CopyContract (fun _ => 0) ⟨[97], by simp⟩ 0 := by
  intro hcontract
  obtain ⟨hne, -⟩ := (copyContract_iff _ _ 0).mp hcontract
  exact hne rfl

end Libsax.Text.StrCopy
