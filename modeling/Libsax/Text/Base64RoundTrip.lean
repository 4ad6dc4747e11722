import Libsax.Text.Base64

/-! The loops over the groups and the two wrappers: what they store, which texts are
refused, and which strings come back. -/
namespace Libsax.Text.Base64

open Libsax.Lib

variable {cells : Cells} {done src : List UInt8} {limit : Nat}

private theorem put_group {stored : List UInt8} (hdone : cells.Holds done)
    (hused : cells.used ≤ limit) (hroom : done.length + stored.length ≤ limit) (ret : Nat) :
    (cells.putAll done.length stored).Holds (done ++ stored.take ret) ∧
      (cells.putAll done.length stored).used ≤ limit := by
  have hall := hdone.putAll_next stored
  rw [← List.take_append_drop ret stored, ← List.append_assoc] at hall
  rw [List.take_append_drop] at hall
  exact ⟨hall.left, Cells.used_putAll_le hused hroom⟩

private theorem encodeLoop_spec (fuel : Nat) (hdone : cells.Holds done) (hle : done.length ≤ limit)
    (hused : cells.used ≤ limit) :
    ∃ after out, encodeLoop fuel src limit cells done.length = (after, (done ++ out).length) ∧
      after.Holds (done ++ out) ∧ (done ++ out).length ≤ limit ∧ after.used ≤ limit ∧
      (src.length ≤ fuel → done.length + (encoded src).length ≤ limit → out = encoded src) := by
  induction fuel generalizing src done cells with
  | zero =>
    refine ⟨cells, [], by rw [List.append_nil]; rfl, by rwa [List.append_nil],
      by rwa [List.append_nil], hused, fun hfuel _ => ?_⟩
    rw [List.eq_nil_of_length_eq_zero (Nat.le_zero.mp hfuel)]
    rfl
  | succ fuel ih =>
    rw [encodeLoop]
    by_cases hgo : src ≠ [] ∧ done.length < limit
    · obtain ⟨hsrc, hlt⟩ := hgo
      rw [if_pos ⟨hsrc, hlt⟩, b64EncodeGroup]
      have hstep := encoded_step hsrc
      have hgroup : (src.take 3).length ≤ 3 := List.length_take_le 3 src
      generalize hfull : quad ((src.take 3).getD 0 0) ((src.take 3).getD 1 0)
        ((src.take 3).getD 2 0) = full at hstep ⊢
      have hfour : full.length = 4 := by rw [← hfull]; rfl
      generalize hstored : full.take (limit - done.length) = stored
      have hroom : stored.length ≤ limit - done.length := by
        rw [← hstored]
        exact List.length_take_le _ _
      generalize hret : min stored.length ((src.take 3).length + 1) = ret
      have hplaced : (done ++ stored.take ret).length = done.length + ret := by
        rw [List.length_append, List.length_take]
        omega
      have hstay : done.length + stored.length ≤ limit := by omega
      obtain ⟨hholds, hused'⟩ := put_group hdone hused hstay ret
      obtain ⟨after, out, hloop, hafter, hend, hlast, hexact⟩ :=
        @ih _ _ (src.drop 3) hholds (by omega) hused'
      refine ⟨after, stored.take ret ++ out, ?_, ?_, ?_, hlast, fun hfuel hfits => ?_⟩
      · rw [← List.append_assoc, ← hloop, hplaced]
      · rwa [← List.append_assoc]
      · rwa [← List.append_assoc]
      · have hchars : (full.take ((src.take 3).length + 1)).length = (src.take 3).length + 1 := by
          rw [List.length_take]
          omega
        rw [hstep, List.length_append, hchars] at hfits
        have hlength : stored.length = min (limit - done.length) 4 := by
          rw [← hstored, List.length_take, hfour]
        have hmin : ret = (src.take 3).length + 1 := by omega
        have hfront : stored.take ret = full.take ((src.take 3).length + 1) := by
          rw [← hstored, List.take_take, hmin, Nat.min_eq_left (by omega)]
        have hshorter : (src.drop 3).length ≤ fuel := by
          rw [List.length_drop]
          omega
        rw [hfront, hstep, hexact hshorter (by omega)]
    · rw [if_neg hgo]
      refine ⟨cells, [], by rw [List.append_nil], by rwa [List.append_nil],
        by rwa [List.append_nil], hused, fun _ hfits => ?_⟩
      rw [encoded_length] at hfits
      have hnil : src = [] := by
        by_contra hsrc
        have hpos : 0 < src.length := List.length_pos_iff.mpr hsrc
        exact hgo ⟨hsrc, by omega⟩
      rw [hnil]
      rfl

private theorem decodedLen_step {len : Nat} (hlen : 0 < len) :
    decodedLen len = decodedLen (min len 4) + decodedLen (len - 4) ∧
      0 < decodedLen (min len 4) := by
  unfold decodedLen
  omega

/-- What `b64_decode` stores of a group begins with the bytes of the group. -/
private theorem b64DecodeGroup_spec (group : List UInt8) (room : Nat) (hgroup : 0 < group.length)
    (hfour : group.length ≤ 4) (hroom : 0 < room) :
    (bytesOf group = none ∧ b64DecodeGroup group room = none) ∨
      ∃ bytes stored ret, bytesOf group = some bytes ∧
        b64DecodeGroup group room = some (stored, ret) ∧ stored.length ≤ room ∧ 0 < ret ∧
        ret ≤ stored.length ∧ bytes.length = decodedLen group.length ∧
        (bytes.length ≤ room → stored.take ret = bytes) := by
  rw [bytesOf, b64DecodeGroup]
  by_cases hbad : -1 ∈ group.map t256
  · exact .inl ⟨if_pos hbad, if_pos hbad⟩
  · rw [if_neg hbad, if_neg hbad]
    dsimp only
    generalize hall : triple ((group.map t256).getD 0 0).toUInt8
      ((group.map t256).getD 1 0).toUInt8 ((group.map t256).getD 2 0).toUInt8
      ((group.map t256).getD 3 0).toUInt8 = all
    have hthree : all.length = 3 := by rw [← hall]; rfl
    generalize hcount : (if group.length = 4 then 3 else group.length) = count
    have hcount' : 0 < count ∧ count ≤ 3 ∧ decodedLen group.length = count := by
      rw [← hcount, decodedLen]
      split_ifs <;> omega
    obtain ⟨hpos, hle, hdecoded⟩ := hcount'
    have hstored : (all.take room).length = min room 3 := by rw [List.length_take, hthree]
    have hbytes : (all.take count).length = count := by rw [List.length_take]; omega
    refine .inr ⟨all.take count, all.take room, min (all.take room).length count, rfl, rfl,
      ?_, ?_, ?_, ?_, ?_⟩
    · omega
    · omega
    · omega
    · rw [hbytes, hdecoded]
    · intro hfits
      rw [hbytes] at hfits
      rw [List.take_take, hstored]
      congr 1
      omega

private theorem decodeLoop_spec (fuel : Nat) (hdone : cells.Holds done) (hle : done.length ≤ limit)
    (hused : cells.used ≤ limit) (hfuel : src.length ≤ fuel) :
    ∃ after result, decodeLoop fuel src limit cells done.length = (after, result) ∧
      after.used ≤ limit ∧
      (result = -1 ∨ ∃ out, result = (done ++ out).length ∧ after.Holds (done ++ out) ∧
        (done ++ out).length ≤ limit) ∧
      (done.length + decodedLen src.length ≤ limit →
        (decoded src = none → result = -1) ∧
        ∀ bytes, decoded src = some bytes → result = (done ++ bytes).length ∧
          after.Holds (done ++ bytes)) := by
  induction fuel generalizing src done cells with
  | zero =>
    refine ⟨cells, done.length, rfl, hused, .inr ⟨[], by rw [List.append_nil],
      by rwa [List.append_nil], by rwa [List.append_nil]⟩, fun _ => ?_⟩
    rw [List.eq_nil_of_length_eq_zero (Nat.le_zero.mp hfuel)]
    refine ⟨fun hnone => absurd hnone (Option.some_ne_none _), fun bytes hbytes => ?_⟩
    obtain rfl : [] = bytes := Option.some.inj hbytes
    exact ⟨by rw [List.append_nil], by rwa [List.append_nil]⟩
  | succ fuel ih =>
    rw [decodeLoop]
    by_cases hgo : src ≠ [] ∧ done.length < limit
    · obtain ⟨hsrc, hlt⟩ := hgo
      rw [if_pos ⟨hsrc, hlt⟩]
      have hpos : 0 < src.length := List.length_pos_iff.mpr hsrc
      have htake : (src.take 4).length = min src.length 4 := by
        rw [List.length_take, Nat.min_comm]
      obtain ⟨hlen, -⟩ := decodedLen_step hpos
      have hstep := decoded_step hsrc
      rcases b64DecodeGroup_spec (src.take 4) (limit - done.length) (by omega) (by omega)
        (by omega) with ⟨hnone, hgroup⟩ | ⟨front, stored, ret, hfront, hgroup, hroom, hret, hle',
          hfrontLen, hexact⟩
      · rw [hgroup]
        refine ⟨cells, -1, rfl, hused, .inl rfl, fun _ => ⟨fun _ => rfl, fun bytes hbytes => ?_⟩⟩
        rw [hstep, hnone] at hbytes
        exact absurd hbytes.symm (Option.some_ne_none _)
      · rw [hgroup]
        dsimp only
        rw [if_neg (by omega)]
        have hstay : done.length + stored.length ≤ limit := by omega
        obtain ⟨hholds, hused'⟩ := put_group hdone hused hstay ret
        have hplaced : (done ++ stored.take ret).length = done.length + ret := by
          rw [List.length_append, List.length_take]
          omega
        have hshorter : (src.drop 4).length ≤ fuel := by
          rw [List.length_drop]
          omega
        obtain ⟨after, result, hloop, hlast, hresult, hrest⟩ :=
          ih hholds (by omega) hused' hshorter
        rw [hplaced] at hloop
        refine ⟨after, result, hloop, hlast, ?_, fun hfits => ?_⟩
        · rcases hresult with hbad | ⟨out, heq, hafter, hend⟩
          · exact .inl hbad
          · rw [List.append_assoc] at heq hafter hend
            exact .inr ⟨stored.take ret ++ out, heq, hafter, hend⟩
        · rw [hlen] at hfits
          rw [htake] at hfrontLen
          have hwhole : front.length ≤ limit - done.length := by
            clear hresult hrest
            omega
          have hsame := hexact hwhole
          rw [hsame] at hrest hplaced
          rw [hstep, hfront, Option.bind_some]
          obtain ⟨hnone, hsome⟩ := hrest (by
            clear hresult hrest
            rw [List.length_append, List.length_drop, hfrontLen]
            omega)
          constructor
          · intro hmap
            exact hnone (Option.map_eq_none_iff.mp hmap)
          · intro bytes hmap
            obtain ⟨back, hback, rfl⟩ := Option.map_eq_some_iff.mp hmap
            rw [← List.append_assoc]
            exact hsome back hback
    · rw [if_neg hgo]
      refine ⟨cells, done.length, rfl, hused, .inr ⟨[], by rw [List.append_nil],
        by rwa [List.append_nil], by rwa [List.append_nil]⟩, fun hfits => ?_⟩
      have hnil : src = [] := by
        by_contra hsrc
        have hpos : 0 < src.length := List.length_pos_iff.mpr hsrc
        obtain ⟨hlen, hgroup⟩ := decodedLen_step hpos
        exact hgo ⟨hsrc, by omega⟩
      rw [hnil]
      refine ⟨fun hnone => absurd hnone (Option.some_ne_none _), fun bytes hbytes => ?_⟩
      obtain rfl : [] = bytes := Option.some.inj hbytes
      exact ⟨by rw [List.append_nil], by rwa [List.append_nil]⟩

private theorem decoded_eq_none_iff (src : List UInt8) :
    decoded src = none ↔ ∃ char ∈ src, t256 char = -1 := by
  have hgroup : ∀ group, bytesOf group = none ↔ ∃ char ∈ group, t256 char = -1 := by
    intro group
    rw [bytesOf]
    by_cases hbad : -1 ∈ group.map t256
    · exact ⟨fun _ => List.mem_map.mp hbad, fun _ => if_pos hbad⟩
    · rw [if_neg hbad]
      exact ⟨fun h => absurd h (Option.some_ne_none _),
        fun h => absurd (List.mem_map.mpr h) hbad⟩
  fun_induction decoded src with
  | case1 c0 c1 c2 c3 rest ih =>
    have hsplit : (∃ char ∈ c0 :: c1 :: c2 :: c3 :: rest, t256 char = -1) ↔
        (∃ char ∈ [c0, c1, c2, c3], t256 char = -1) ∨ ∃ char ∈ rest, t256 char = -1 := by
      have happend : c0 :: c1 :: c2 :: c3 :: rest = [c0, c1, c2, c3] ++ rest := rfl
      simp only [happend, List.mem_append, or_and_right, exists_or]
    rw [hsplit, ← hgroup]
    cases hfront : bytesOf [c0, c1, c2, c3] with
    | none => simp
    | some front => simpa using ih
  | case2 => simp
  | case3 tail => exact hgroup tail

private theorem gB64Decode_spec (hsrc : src ≠ []) {dstLen : Int}
    (hroom : (decodedLen src.length : Int) ≤ dstLen) :
    (decoded src = none → (gB64Decode src src.length dstLen).2 = -1) ∧
      ∀ bytes, decoded src = some bytes →
        (gB64Decode src src.length dstLen).2 = bytes.length ∧
          (gB64Decode src src.length dstLen).1.Holds bytes := by
  have hpos : 0 < src.length := List.length_pos_iff.mpr hsrc
  have hwhole : gB64Decode src src.length dstLen =
      decodeLoop src.length src dstLen.toNat Cells.fresh 0 := by
    rw [gB64Decode, if_neg (by omega), Int.toNat_natCast, List.take_length]
  obtain ⟨after, result, hloop, -, -, hexact⟩ := @decodeLoop_spec Cells.fresh [] src dstLen.toNat
    src.length Cells.holds_nil (Nat.zero_le _) (Nat.zero_le _) (le_refl _)
  rw [List.length_nil] at hloop hexact
  rw [hwhole, hloop]
  exact hexact (by omega)

/-- A count is returned only for characters of the alphabet, and -1 for others. -/
def Rejects (src : List UInt8) (dstLen : Int) : Prop :=
  let result := (gB64Decode src src.length dstLen).2
  (0 ≤ result → ∀ char ∈ src, char ∈ alphabet) ∧
    ((∃ char ∈ src, char ∉ alphabet) → result = -1)

/-- Foreign characters are found out, unless those that are not listed are the only ones. -/
theorem rejects_iff {src : List UInt8} {dstLen : Int} (hsrc : src ≠ [])
    (hroom : (decodedLen src.length : Int) ≤ dstLen) :
    Rejects src dstLen ↔
      ((∃ char ∈ src, 224 ≤ char.toNat) → ∃ char ∈ src, char.toNat < 224 ∧ char ∉ alphabet) := by
  obtain ⟨hnone, hsome⟩ := gB64Decode_spec hsrc hroom
  cases hdecoded : decoded src with
  | none =>
    have hresult := hnone hdecoded
    obtain ⟨char, hchar, hentry⟩ := (decoded_eq_none_iff src).mp hdecoded
    have hlisted : char.toNat < 224 := by
      by_contra hbeyond
      have hzero := (t256_unlisted char (Nat.le_of_not_lt hbeyond)).1
      exact absurd (hzero.symm.trans hentry) (by decide)
    have hforeign : char ∉ alphabet := fun hmem => (t256_ne_iff char hlisted).mpr hmem hentry
    refine ⟨fun _ _ => ⟨char, hchar, hlisted, hforeign⟩, fun _ => ⟨fun hle => ?_, fun _ => hresult⟩⟩
    rw [hresult] at hle
    exact absurd hle (by decide)
  | some bytes =>
    have hresult := (hsome bytes hdecoded).1
    have hallowed : ∀ char ∈ src, char.toNat < 224 → char ∈ alphabet := by
      intro char hchar hlisted
      by_contra hforeign
      have hentry : t256 char = -1 := by
        by_contra hne
        exact hforeign ((t256_ne_iff char hlisted).mp hne)
      have hbad := (decoded_eq_none_iff src).mpr ⟨char, hchar, hentry⟩
      exact absurd (hdecoded.symm.trans hbad) (Option.some_ne_none bytes)
    constructor
    · rintro ⟨hcount, -⟩ ⟨char, hchar, hbeyond⟩
      have hall := hcount (by rw [hresult]; exact Int.natCast_nonneg _)
      exact absurd (hall char hchar) (t256_unlisted char hbeyond).2
    · intro hlisted
      have hall : ∀ char ∈ src, char ∈ alphabet := by
        intro char hchar
        by_cases hbeyond : 224 ≤ char.toNat
        · obtain ⟨other, hother, hlow, hforeign⟩ := hlisted ⟨char, hchar, hbeyond⟩
          exact absurd (hallowed other hother hlow) hforeign
        · exact hallowed char hchar (Nat.lt_of_not_le hbeyond)
      exact ⟨fun _ => hall, fun ⟨char, hchar, hforeign⟩ => absurd (hall char hchar) hforeign⟩

/-- The text "AQ" has no byte from 224 on. -/
theorem rejects_iff_short : Rejects [65, 81] 2 ↔
    ((∃ char ∈ [65, 81], 224 ≤ UInt8.toNat char) →
      ∃ char ∈ [65, 81], UInt8.toNat char < 224 ∧ char ∉ alphabet) :=
  rejects_iff (by decide) (by decide)

/-- A byte 224 passes for an "A". -/
theorem not_rejects_unlisted : ¬ Rejects [224] 1 := by
  intro hrejects
  exact absurd (hrejects.1 (by decide) 224 (by decide)) (by decide)

private theorem gB64Encode_spec (src : List UInt8) (dstLen : Int) :
    ∃ out, (gB64Encode src dstLen).2 = out.length ∧ (gB64Encode src dstLen).1.Holds out ∧
      out.length ≤ (dstLen - 1).toNat ∧
      (gB64Encode src dstLen).1.used ≤ (dstLen - 1).toNat + 1 ∧
      ((encoded src).length ≤ (dstLen - 1).toNat → out = encoded src) := by
  obtain ⟨after, out, hloop, hholds, hend, hused, hexact⟩ := @encodeLoop_spec Cells.fresh [] src
    (dstLen - 1).toNat src.length Cells.holds_nil (Nat.zero_le _) (Nat.zero_le _)
  rw [List.nil_append] at hloop hholds hend
  rw [List.length_nil] at hloop hexact
  have hfirst : (gB64Encode src dstLen).1 = after.put out.length 0 := by
    rw [gB64Encode, hloop]
  have hsecond : (gB64Encode src dstLen).2 = out.length := by
    rw [gB64Encode, hloop]
  refine ⟨out, hsecond, ?_, hend, ?_, fun hfits => hexact (le_refl _) (by omega)⟩
  · rw [hfirst]
    exact hholds.put_behind (le_refl _)
  · rw [hfirst, Cells.used_put]
    omega

private theorem b64Encode_fits (src : List UInt8) : (b64Encode src).Fits := by
  obtain ⟨out, -, -, -, hused, -⟩ := gB64Encode_spec (src.take (toInt src.length).toNat)
    (toInt ((4 * src.length + 2) % 2 ^ 64 / 3 + 1))
  have hle := toInt_le ((4 * src.length + 2) % 2 ^ 64 / 3 + 1)
  unfold Filled.Fits b64Encode
  dsimp only
  omega

private theorem b64Decode_spec (url : List UInt8) (len : Nat) :
    (b64Decode url len).Fits ∧
      ∀ bytes, (b64Decode url len).text = some bytes → bytes.length < 2 ^ 31 := by
  unfold Filled.Fits b64Decode
  dsimp only
  generalize (if len > 0 then len else strlen url) = siz
  unfold gB64Decode
  dsimp only
  generalize (if toInt siz ≤ 0 then toInt (strlen url) else toInt siz) = srcLen
  have hle := toInt_le ((siz + 1) % 2 ^ 64)
  have hlt := toInt_lt ((siz + 1) % 2 ^ 64)
  obtain ⟨after, result, hloop, hused, hresult, -⟩ :=
    @decodeLoop_spec Cells.fresh [] (url.take srcLen.toNat) (toInt ((siz + 1) % 2 ^ 64)).toNat
      url.length Cells.holds_nil (Nat.zero_le _) (Nat.zero_le _) (List.length_take_le' _ _)
  rw [List.length_nil] at hloop
  rw [hloop]
  refine ⟨by dsimp only; omega, fun bytes hbytes => ?_⟩
  dsimp only at hbytes
  split_ifs at hbytes with hpos
  · have hlength := (Cells.text_eq_some.mp hbytes).1
    rcases hresult with hbad | ⟨out, heq, -, hend⟩
    · omega
    · rw [List.nil_append] at heq hend
      omega
  · obtain rfl : [] = bytes := Option.some.inj hbytes
    exact Nat.zero_lt_succ _

/-- The text of a string whose size fits in an `int`, and nothing if only the room for the
text does not. -/
private theorem b64Encode_text (hsrc : src.length < 2 ^ 31) :
    (b64Encode src).text =
      some (if (4 * src.length + 2) / 3 + 1 < 2 ^ 31 then encoded src else []) := by
  have hwhole : src.take (toInt src.length).toNat = src := by
    rw [toInt_of_lt hsrc, Int.toNat_natCast, List.take_length]
  have hroom : (4 * src.length + 2) % 2 ^ 64 / 3 + 1 = (4 * src.length + 2) / 3 + 1 := by omega
  unfold b64Encode
  rw [hwhole, hroom]
  obtain ⟨out, hlength, hholds, hend, -, hexact⟩ :=
    gB64Encode_spec src (toInt ((4 * src.length + 2) / 3 + 1))
  dsimp only
  rw [hlength, hholds.text]
  split_ifs with hfits
  · rw [toInt_of_lt hfits] at hexact
    rw [hexact (by rw [encoded_length]; omega)]
  · have hnegative := toInt_of_ge (Nat.le_of_not_lt hfits)
    have hnothing : out = [] := List.eq_nil_of_length_eq_zero (by omega)
    rw [hnothing]

private theorem b64Decode_text {url bytes : List UInt8} (hurl : ∀ char ∈ url, char ≠ 0)
    (hfits : url.length + 1 < 2 ^ 31) (hbytes : decoded url = some bytes) {len : Nat}
    (hlen : len = 0 ∨ len = url.length) : (b64Decode url len).text = some bytes := by
  have hstrlen := strlen_of_ne_zero hurl
  have hsiz : (if len > 0 then len else strlen url) = url.length := by
    rw [hstrlen]
    split_ifs with hpos
    · exact hlen.resolve_left (Nat.ne_of_gt hpos)
    · rfl
  have hroom : (url.length + 1) % 2 ^ 64 = url.length + 1 := by omega
  have hsrcLen : (if toInt url.length ≤ 0 then toInt (strlen url) else toInt url.length) =
      url.length := by
    rw [hstrlen, toInt_of_lt (by omega), ite_self]
  obtain ⟨after, result, hloop, -, -, hexact⟩ :=
    @decodeLoop_spec Cells.fresh [] url (url.length + 1) url.length Cells.holds_nil
      (Nat.zero_le _) (Nat.zero_le _) (le_refl _)
  rw [List.length_nil] at hloop hexact
  have hdecodedLen : 0 + decodedLen url.length ≤ url.length + 1 := by
    unfold decodedLen
    omega
  obtain ⟨hresult, hholds⟩ := (hexact hdecodedLen).2 bytes hbytes
  rw [List.nil_append] at hresult hholds
  unfold b64Decode gB64Decode
  simp only [hsiz, hroom, hsrcLen, toInt_of_lt hfits, Int.toNat_natCast, List.take_length, hloop,
    hresult]
  split_ifs with hpos
  · exact hholds.text
  · have hnothing : bytes = [] := List.eq_nil_of_length_eq_zero (by omega)
    rw [hnothing]

/-- The two wrappers stay in their buffers, and the string comes back, whether the decoder
is told the length of the text or looks for its end. -/
def RoundTrips (src : List UInt8) : Prop :=
  (b64Encode src).Fits ∧ ∃ url, (b64Encode src).text = some url ∧
    ∀ len, len = 0 ∨ len = url.length →
      (b64Decode url len).Fits ∧ (b64Decode url len).text = some src

/-- Only strings of whole groups come back, and only while the room for their text fits in
an `int`. -/
theorem roundTrips_iff {src : List UInt8} (hsrc : src ≠ []) :
    RoundTrips src ↔ src.length % 3 = 0 ∧ (4 * src.length + 2) / 3 + 1 < 2 ^ 31 := by
  constructor
  · rintro ⟨-, url, htext, hback⟩
    have hsmall := (b64Decode_spec url 0).2 src (hback 0 (.inl rfl)).2
    rw [b64Encode_text hsmall] at htext
    obtain rfl := Option.some.inj htext
    have hfits : (4 * src.length + 2) / 3 + 1 < 2 ^ 31 := by
      by_contra hbeyond
      rw [if_neg hbeyond] at hback
      have hempty := (hback 0 (.inl rfl)).2
      exact hsrc (Option.some.inj hempty).symm
    rw [if_pos hfits] at hback
    have hlength := encoded_length src
    have hdecoded := b64Decode_text (encoded_ne_zero src) (by omega) (decoded_encoded src)
      (.inl (rfl : 0 = 0))
    have hsame := Option.some.inj (hdecoded.symm.trans (hback 0 (.inl rfl)).2)
    refine ⟨?_, hfits⟩
    by_contra hshort
    rw [if_neg hshort] at hsame
    exact absurd (List.append_right_eq_self.mp hsame) (by decide)
  · rintro ⟨hwhole, hfits⟩
    have hlength := encoded_length src
    have hdecoded := decoded_encoded src
    rw [if_pos hwhole, List.append_nil] at hdecoded
    refine ⟨b64Encode_fits src, encoded src, ?_, fun len hlen => ⟨(b64Decode_spec _ len).1, ?_⟩⟩
    · rw [b64Encode_text (by omega), if_pos hfits]
    · exact b64Decode_text (encoded_ne_zero src) (by omega) hdecoded hlen

/-- "abc" comes back. -/
theorem roundTrips_iff_abc : RoundTrips [97, 98, 99] ↔
    [97, 98, 99].length % 3 = 0 ∧ (4 * [97, 98, 99].length + 2) / 3 + 1 < 2 ^ 31 :=
  roundTrips_iff (List.cons_ne_nil 97 [98, 99])

/-- "a" comes back with a zero behind it. -/
theorem not_roundTrips_a : ¬ RoundTrips [97] := by
  rintro ⟨-, url, htext, hback⟩
  rw [b64Encode_text (by decide)] at htext
  obtain rfl := Option.some.inj htext
  exact absurd (hback 0 (.inl rfl)).2 (by decide)

end Libsax.Text.Base64
