import Libsax.Text.UrlDecode

/-! The wrappers `url_encode` and `url_decode`, with the destinations that they allocate. -/
namespace Libsax.Text.UrlEscape

open Libsax.Lib

/-- The wrapper `url_encode`; sizes are of 64 bits. -/
def urlEncode (url : List UInt8) : Filled :=
  let dstLen := (3 * strlen url + 1) % 2 ^ 64
  let out := gUrlEncode url (toInt dstLen)
  ⟨dstLen, out.1, out.1.zeroText out.1.used 0⟩

def urlDecode (url : List UInt8) (form : Bool) : Filled :=
  let dstLen := (strlen url + 1) % 2 ^ 64
  let out := gUrlDecode url (toInt (strlen url)) (toInt dstLen) form
  ⟨dstLen, out.1, out.1.text out.2⟩

/-- Neither wrapper stores outside of its destination, and the string comes back. -/
def ComesBack (src : List UInt8) : Prop :=
  (urlEncode src).Fits ∧ ∃ url, (urlEncode src).text = some url ∧
    ∀ form, (urlDecode url form).Fits ∧ (urlDecode url form).text = some src

variable {src front back done : List UInt8} {byte : UInt8} {len limit dst i j : Nat} {form : Bool}
  {cells : Cells}

private theorem escape_back : ∀ byte : UInt8,
    isxdigit (hex (byte >>> 4)) = true ∧ isxdigit (hex (byte &&& 0xf)) = true ∧
      (hextoi (tolower (hex (byte >>> 4))) <<< 4) ||| hextoi (tolower (hex (byte &&& 0xf))) =
        byte := Octet.forall_of_fin (by decide +kernel)

private theorem plain_ne (byte : UInt8) (hplain : plain byte = true) :
    byte ≠ 37 ∧ byte ≠ 43 ∧ byte ≠ 0 := by
  refine ⟨?_, ?_, ?_⟩ <;> rintro rfl <;> exact absurd hplain (by decide)

private theorem isxdigit_ne_zero (c : UInt8) (hdigit : isxdigit c = true) : c ≠ 0 := by
  rintro rfl
  exact absurd hdigit (by decide)

private theorem encodeByte_length_le (byte : UInt8) : (encodeByte byte).length ≤ 3 := by
  unfold encodeByte
  split_ifs
  · exact (by decide : 1 ≤ 3)
  · exact le_refl 3

private theorem encodeByte_ne_zero (byte : UInt8) : ∀ c ∈ encodeByte byte, c ≠ 0 := by
  intro c hc
  cases hplain : plain byte with
  | true =>
    rw [encodeByte_plain hplain, List.mem_singleton] at hc
    exact hc ▸ (plain_ne byte hplain).2.2
  | false =>
    obtain ⟨hhigh, hlow, -⟩ := escape_back byte
    rw [encodeByte_escape hplain] at hc
    simp only [escape, List.mem_cons, List.not_mem_nil, or_false] at hc
    rcases hc with rfl | rfl | rfl
    · decide
    · exact isxdigit_ne_zero _ hhigh
    · exact isxdigit_ne_zero _ hlow

private theorem encoded_length_le (src : List UInt8) : (encoded src).length ≤ 3 * src.length := by
  induction src with
  | nil => exact le_refl 0
  | cons byte src ih =>
    have hbyte := encodeByte_length_le byte
    rw [encoded_cons, List.length_append, List.length_cons]
    omega

private theorem length_le_encoded (src : List UInt8) : src.length ≤ (encoded src).length := by
  induction src with
  | nil => exact le_refl 0
  | cons byte src ih =>
    have hbyte := encodeByte_pos byte
    rw [encoded_cons, List.length_append, List.length_cons]
    omega

theorem encoded_ne_zero (src : List UInt8) : ∀ c ∈ encoded src, c ≠ 0 := by
  intro c hc
  obtain ⟨byte, -, hbyte⟩ := List.mem_flatMap.mp hc
  exact encodeByte_ne_zero byte c hbyte

private theorem unit_encodeByte (front back : List UInt8) (byte : UInt8) :
    unit (front ++ (encodeByte byte ++ back)) form front.length =
      (byte, (encodeByte byte).length) := by
  have hat : ∀ k, byteAt (front ++ (encodeByte byte ++ back)) (front.length + k) =
      byteAt (encodeByte byte ++ back) k := by
    intro k
    rw [byteAt, List.getD_eq_getElem?_getD, List.getElem?_append_right (Nat.le_add_right _ _),
      Nat.add_sub_cancel_left, byteAt, List.getD_eq_getElem?_getD]
  have h0 := hat 0
  rw [Nat.add_zero] at h0
  cases hplain : plain byte with
  | true =>
    obtain ⟨hpercent, hplus, -⟩ := plain_ne byte hplain
    rw [encodeByte_plain hplain] at h0 ⊢
    have hbyte : byteAt (front ++ ([byte] ++ back)) front.length = byte := h0
    have hnone : isEscape (front ++ ([byte] ++ back)) front.length = false :=
      isEscape_of_ne (by rwa [hbyte])
    rw [unit, hnone, hbyte, if_neg Bool.false_ne_true, beq_eq_false_iff_ne.mpr hplus,
      Bool.and_false, if_neg Bool.false_ne_true]
    rfl
  | false =>
    obtain ⟨hhigh, hlow, hback⟩ := escape_back byte
    have h1 := hat 1
    have h2 := hat 2
    rw [encodeByte_escape hplain] at h0 h1 h2 ⊢
    have hfirst : byteAt (front ++ (escape byte ++ back)) (front.length + 1) =
        hex (byte >>> 4) := h1
    have hsecond : byteAt (front ++ (escape byte ++ back)) (front.length + 2) =
        hex (byte &&& 0xf) := h2
    have hescape : isEscape (front ++ (escape byte ++ back)) front.length = true :=
      isEscape_eq_true.mpr ⟨h0, by rwa [hfirst], by rwa [hsecond]⟩
    rw [unit, hescape, if_pos rfl, hfirst, hsecond, hback]
    rfl

@[simp] private theorem encoded_append (front back : List UInt8) :
    encoded (front ++ back) = encoded front ++ encoded back := List.flatMap_append

private theorem decodeLoop_encoded (fuel : Nat) (hdone : cells.Holds front)
    (hfuel : back.length ≤ fuel) (hroom : front.length + back.length ≤ limit)
    (hused : cells.used ≤ limit) :
    ∃ after, decodeLoop (encoded (front ++ back)) (encoded (front ++ back)).length limit form fuel
        (encoded front).length front.length cells = (after, (front ++ back).length) ∧
      after.Holds (front ++ back) ∧ after.used ≤ limit := by
  induction fuel generalizing front back cells with
  | zero =>
    obtain rfl := List.eq_nil_of_length_eq_zero (Nat.le_zero.mp hfuel)
    exact ⟨cells, by rw [List.append_nil]; rfl, by rwa [List.append_nil], hused⟩
  | succ fuel ih =>
    cases back with
    | nil =>
      rw [decodeLoop, List.append_nil, if_neg fun h => Nat.lt_irrefl _ h.1]
      exact ⟨cells, rfl, hdone, hused⟩
    | cons byte back =>
      have htext : encoded (front ++ byte :: back) =
          encoded front ++ (encodeByte byte ++ encoded back) := by
        rw [encoded_append, encoded_cons]
      have hpos := encodeByte_pos byte
      have hunit := @unit_encodeByte form (encoded front) (encoded back) byte
      have hinside : (encoded front).length < (encoded (front ++ byte :: back)).length := by
        rw [htext, List.length_append, List.length_append]
        omega
      rw [List.length_cons] at hfuel hroom
      have hplace : (front ++ [byte]).length = front.length + 1 := by
        rw [List.length_append, List.length_singleton]
      have hsource : (encoded (front ++ [byte])).length =
          (encoded front).length + (encodeByte byte).length := by
        have hone : encoded [byte] = encodeByte byte := List.append_nil _
        rw [encoded_append, hone, List.length_append]
      have hsplit : (front ++ [byte]) ++ back = front ++ byte :: back := by
        rw [List.append_assoc]
        rfl
      have hused' : (cells.put front.length byte).used ≤ limit := by
        rw [Cells.used_put]
        omega
      obtain ⟨after, hloop, hholds, hlast⟩ :=
        @ih (front ++ [byte]) back (cells.put front.length byte) hdone.put_next (by omega)
          (by omega) hused'
      rw [hsplit, hplace, hsource] at hloop
      rw [hsplit] at hholds
      refine ⟨after, ?_, hholds, hlast⟩
      rw [decodeLoop, if_pos ⟨hinside, by omega⟩, ← hloop]
      rw [← htext] at hunit
      rw [hunit]

private theorem decodeLoop_le {src : List UInt8} (fuel : Nat) :
    (decodeLoop src len limit form fuel i j cells).2 ≤ j + (len - i) := by
  induction fuel generalizing i j cells with
  | zero => exact Nat.le_add_right _ _
  | succ fuel ih =>
    rw [decodeLoop]
    split_ifs with hgo
    · have hpos : 1 ≤ (unit src form i).2 := by
        obtain ⟨hmoved, -⟩ := escapesBefore_unit src form i
        omega
      have hnext := @ih (i + (unit src form i).2) (j + 1) (cells.put j (unit src form i).1)
      omega
    · exact Nat.le_add_right _ _

private theorem encodeLoop_le (hle : dst ≤ limit) (hused : cells.used ≤ limit) :
    (encodeLoop limit src cells dst).2 ≤ limit ∧
      (encodeLoop limit src cells dst).1.used ≤ limit := by
  induction src generalizing cells dst with
  | nil => exact ⟨hle, hused⟩
  | cons byte src ih =>
    rw [encodeLoop]
    split_ifs with hgo hplain hroom
    · have hput : (cells.put dst byte).used ≤ limit := by
        rw [Cells.used_put]
        omega
      exact ih hgo.2 hput
    · exact ih hroom (Cells.used_putAll_le hused hroom)
    · exact ih hgo.2 hused
    · exact ⟨hle, hused⟩

private theorem urlEncode_spec (hsrc : ∀ byte ∈ src, byte ≠ 0)
    (hfits : 3 * src.length + 1 < 2 ^ 31) :
    (urlEncode src).Fits ∧ (urlEncode src).text = some (encoded src) := by
  have hlimit : (toInt (3 * src.length + 1) - 1).toNat = 3 * src.length := by
    rw [toInt_of_lt hfits]
    omega
  have hlength := encoded_length_le src
  have hsize : (3 * strlen src + 1) % 2 ^ 64 = 3 * src.length + 1 := by
    rw [strlen_of_ne_zero hsrc]
    exact Nat.mod_eq_of_lt (by omega)
  obtain ⟨after, hloop, hholds, -⟩ := @encodeLoop_front [] src [] (3 * src.length) Cells.fresh
    hsrc Cells.holds_nil (fun _ _ => rfl) (by rwa [List.length_nil, Nat.zero_add])
  obtain ⟨-, hused⟩ := @encodeLoop_le src (3 * src.length) 0 Cells.fresh (Nat.zero_le _)
    (Nat.zero_le _)
  have hend : encodeLoop (3 * src.length) [] after (encoded src).length =
      (after, (encoded src).length) := rfl
  rw [List.append_nil, List.nil_append, List.length_nil, hend] at hloop
  rw [List.nil_append] at hholds
  rw [hloop] at hused
  have hall : gUrlEncode src (toInt (3 * src.length + 1)) =
      (after.put (encoded src).length 0, (encoded src).length) := by
    rw [gUrlEncode, hlimit, hloop]
  unfold Filled.Fits urlEncode
  dsimp only
  rw [hsize, hall]
  constructor
  · exact Nat.max_le.mpr ⟨Nat.le_succ_of_le hused, Nat.succ_le_succ hlength⟩
  · have hfuel : (encoded src).length < (after.put (encoded src).length 0).used :=
      Nat.le_max_right _ _
    have hstored : (after.put (encoded src).length 0).Holds ([] ++ encoded src ++ [0]) := by
      rw [List.nil_append]
      exact hholds.put_next
    exact @Cells.Holds.zeroText (after.put (encoded src).length 0) [] (encoded src) hstored
      (encoded_ne_zero src) _ hfuel

private theorem urlDecode_spec (hfits : 3 * src.length + 1 < 2 ^ 31) (form : Bool) :
    (urlDecode (encoded src) form).Fits ∧ (urlDecode (encoded src) form).text = some src := by
  have hstrlen := strlen_of_ne_zero (encoded_ne_zero src)
  have hlength := encoded_length_le src
  have hmore := length_le_encoded src
  have hsize : ((encoded src).length + 1) % 2 ^ 64 = (encoded src).length + 1 := by omega
  have hlimit : (toInt ((encoded src).length + 1) - 1).toNat = (encoded src).length := by
    rw [toInt_of_lt (by omega)]
    omega
  have hsrcLen : (if toInt (encoded src).length ≤ 0 then toInt (strlen (encoded src))
      else toInt (encoded src).length).toNat = (encoded src).length := by
    rw [hstrlen, ite_self, toInt_of_lt (by omega)]
    omega
  obtain ⟨after, hloop, hholds, hused⟩ := @decodeLoop_encoded [] src (encoded src).length form
    Cells.fresh (encoded src).length Cells.holds_nil hmore
    (by rwa [List.length_nil, Nat.zero_add]) (Nat.zero_le _)
  rw [List.nil_append] at hloop hholds
  have hall : gUrlDecode (encoded src) (toInt (encoded src).length)
      (toInt ((encoded src).length + 1)) form = (after.put src.length 0, src.length) := by
    rw [gUrlDecode, hsrcLen, hlimit]
    exact congrArg (fun out : Cells × Nat => (out.1.put out.2 0, out.2)) hloop
  unfold Filled.Fits urlDecode
  dsimp only
  rw [hstrlen, hsize, hall]
  constructor
  · exact Nat.max_le.mpr ⟨Nat.le_succ_of_le hused, Nat.succ_le_succ hmore⟩
  · exact (hholds.put_behind (le_refl _)).text

/-- Where the text may not fit in an `int`, what is written is shorter than the string. -/
private theorem urlEncode_short {url : List UInt8} (hsrc : ∀ byte ∈ src, byte ≠ 0)
    (hlong : 2 ^ 31 ≤ 3 * src.length + 1) (htext : (urlEncode src).text = some url) :
    url.length < src.length := by
  unfold urlEncode at htext
  dsimp only at htext
  rw [strlen_of_ne_zero hsrc] at htext
  have hsize : (3 * src.length + 1) % 2 ^ 64 = 3 * src.length + 1 ∨ 2 ^ 31 ≤ src.length := by
    omega
  generalize (3 * src.length + 1) % 2 ^ 64 = size at htext hsize
  have hlt := toInt_lt size
  have hlimit : (toInt size - 1).toNat < src.length := by
    rcases hsize with rfl | hhuge
    · have hle := toInt_of_ge hlong
      omega
    · omega
  generalize toInt size = dstLen at htext hlimit
  obtain ⟨hdst, -⟩ := @encodeLoop_le src (dstLen - 1).toNat 0 Cells.fresh (Nat.zero_le _)
    (Nat.zero_le _)
  have hzero : (gUrlEncode src dstLen).1.cell (gUrlEncode src dstLen).2 = some 0 := if_pos rfl
  have hle := Cells.zeroText_length_le hzero (Nat.zero_le _) htext
  have hreturn : (gUrlEncode src dstLen).2 ≤ (dstLen - 1).toNat := hdst
  omega

private theorem gUrlDecode_le (url : List UInt8) (dstLen : Int) (form : Bool) :
    (gUrlDecode url (toInt (strlen url)) dstLen form).2 ≤ url.length := by
  have hstrlen := strlen_le url
  have hint := toInt_le (strlen url)
  have hreturn : ∀ out : Cells × Nat, (out.1.put out.2 0, out.2).2 = out.2 := fun _ => rfl
  rw [gUrlDecode, ite_self]
  generalize toInt (strlen url) = srcLen at hint
  have hloop := @decodeLoop_le srcLen.toNat (dstLen - 1).toNat 0 0 form Cells.fresh url
    srcLen.toNat
  exact (hreturn _).trans_le (hloop.trans (by omega))

private theorem urlDecode_length_le {url : List UInt8}
    (htext : (urlDecode url form).text = some src) :
    src.length ≤ url.length := by
  unfold urlDecode at htext
  dsimp only at htext
  obtain ⟨hlength, -⟩ := Cells.text_eq_some.mp htext
  exact hlength.trans_le (gUrlDecode_le url _ form)

/-- A string comes back, within what was allocated, exactly when three characters for each
of its bytes and a zero fit in an `int`. -/
theorem comesBack_iff {src : List UInt8} (hsrc : ∀ byte ∈ src, byte ≠ 0) :
    ComesBack src ↔ 3 * src.length + 1 < 2 ^ 31 := by
  constructor
  · rintro ⟨-, url, htext, hback⟩
    by_contra hlong
    have hshort := urlEncode_short hsrc (Nat.le_of_not_lt hlong) htext
    have hle := urlDecode_length_le (hback false).2
    omega
  · intro hfits
    obtain ⟨hencode, htext⟩ := urlEncode_spec hsrc hfits
    exact ⟨hencode, encoded src, htext, urlDecode_spec hfits⟩

/-- "%+a" comes back. -/
theorem comesBack_iff_short : ComesBack [37, 43, 97] ↔ 3 * [37, 43, 97].length + 1 < 2 ^ 31 :=
  comesBack_iff (by simp)

/-- A string of 2^30 bytes does not. -/
theorem not_comesBack_long : ¬ ComesBack (List.replicate (2 ^ 30) 97) := by
  rintro ⟨-, url, htext, hback⟩
  have hsrc : ∀ byte ∈ List.replicate (2 ^ 30) (97 : UInt8), byte ≠ 0 := by
    intro byte hbyte
    rw [List.eq_of_mem_replicate hbyte]
    decide
  have hlength : (List.replicate (2 ^ 30) (97 : UInt8)).length = 2 ^ 30 := List.length_replicate
  generalize List.replicate (2 ^ 30) (97 : UInt8) = src at htext hback hsrc hlength
  have hshort := urlEncode_short hsrc (by omega) htext
  have hle := urlDecode_length_le (hback false).2
  omega

end Libsax.Text.UrlEscape
