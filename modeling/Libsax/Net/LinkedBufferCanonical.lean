import Libsax.Net.LinkedBufferAccessRuns

/-! Where the cursors of a `linked_buffer` stand. A logical position has one place,
unless a call passes into a later block and ends just with it: then the cursor stays
behind that block's last byte. -/
namespace Libsax.Net.Space

open Libsax.Lib Libsax.Lib.Chunks LinkedBuffer

variable {buf other : LinkedBuffer} {base : Nat} {flat : FlatBuffer} {length : UInt32}

/-- The place of a logical position; `_zero` is the one of the first. -/
def place (buf : LinkedBuffer) (position : UInt32) : Pos :=
  let index := buf.zero.currBuf + position.toNat
  ⟨position, UInt32.ofNat (buf.blockSize.toNat - index % buf.blockSize.toNat),
    buf.bufList[index / buf.blockSize.toNat]?, index % buf.blockSize.toNat, false⟩

structure Canonical (buf : LinkedBuffer) : Prop where
  remaining : buf.current.remaining ≠ 0
  current : buf.current = place buf buf.current.position
  mark : buf.mark.invalid = false → buf.mark = place buf buf.mark.position
  limit : buf.limit.invalid = false → buf.limit = place buf buf.limit.position

/-- The bytes go beyond the current block and end with a later one. -/
def Overshoots (buf : LinkedBuffer) (length : UInt32) : Prop :=
  buf.current.remaining < length ∧ (length - buf.current.remaining) % buf.blockSize = 0

instance (buf : LinkedBuffer) (length : UInt32) : Decidable (Overshoots buf length) :=
  inferInstanceAs (Decidable (_ ∧ _))

def readable (buf : LinkedBuffer) (length : UInt32) : Bool :=
  !(buf.limit.invalid || decide (buf.limit.position - buf.current.position < length))

def writable (buf : LinkedBuffer) (granted : Nat) (length : UInt32) : Bool :=
  buf.limit.invalid && (buf.ensure granted length).2

/-- The buffer whose cursor a call moves over bytes, and how many. `peek` takes the
cursor back. -/
def passes (bufs : Nat → LinkedBuffer) (granted index : Nat) : Call → Option (Nat × UInt32)
  | .put data => written (UInt32.ofNat data.length)
  | .putInt size _ _ => written (UInt32.ofNat size)
  | .get length => walk (readable (bufs index) length) index length
  | .getInt size _ => walk (readable (bufs index) (UInt32.ofNat size)) index (UInt32.ofNat size)
  | .skip length =>
    if (bufs index).limit.invalid then written length
    else walk (readable (bufs index) length) index length
  | .getBuffer other length => moves index other length
  | .getAll other => moves index other (bufs index).remaining
  | .putBuffer other length => moves other index length
  | .putAll other => moves other index (bufs other).remaining
  | _ => none
where
  walk (ahead : Bool) (number : Nat) (length : UInt32) : Option (Nat × UInt32) :=
    if ahead then some (number, length) else none
  written (length : UInt32) : Option (Nat × UInt32) :=
    walk (writable (bufs index) granted length) index length
  moves (source target : Nat) (length : UInt32) : Option (Nat × UInt32) :=
    walk (readable (bufs source) length && writable (bufs target) granted length) source length

/-- No bytes that a call passes end with a later block than they begin in. -/
def Meets (system : System) (action : Action) : Prop :=
  match action.request with
  | .call call => ∀ number length,
      passes system.bufs action.granted action.index call = some (number, length) →
        ¬Overshoots (system.bufs number) length
  | .reserve _ => True

private theorem toNat_eq_zero {word : UInt32} : word = 0 ↔ word.toNat = 0 := UInt32.toNat_inj.symm

private theorem walkLoop_remaining (hsize : 0 < buf.blockSize.toNat) {fuel : Nat} {pos final : Pos}
    {remaining : UInt32} {chunks : List Chunk}
    (hwalk : buf.walkLoop fuel pos remaining = some (final, chunks)) :
    final.remaining = 0 ↔ remaining ≠ 0 ∧ remaining % buf.blockSize = 0 := by
  induction fuel generalizing pos remaining chunks with
  | zero => cases hwalk
  | succ fuel ih =>
    simp only [walkLoop, Option.bind_eq_bind, Option.bind_eq_some_iff] at hwalk
    obtain ⟨block, -, following, -, hwalk⟩ := hwalk
    by_cases hlong : remaining > buf.blockSize
    · have hlongNat := UInt32.lt_iff_toNat_lt.mp hlong
      have hrest : (remaining - buf.blockSize).toNat = remaining.toNat - buf.blockSize.toNat :=
        UInt32.toNat_sub_of_le _ _ (UInt32.le_iff_toNat_le.mpr (Nat.le_of_lt hlongNat))
      have hmore : remaining - buf.blockSize > 0 := by
        rw [gt_iff_lt, UInt32.lt_iff_toNat_lt, hrest]
        change 0 < _
        omega
      rw [if_pos hlong, if_pos hmore] at hwalk
      obtain ⟨⟨last, rest⟩, hrestWalk, hwalk⟩ := Option.bind_eq_some_iff.mp hwalk
      obtain ⟨rfl, -⟩ := Prod.mk.inj (Option.some.inj hwalk)
      have hmod : remaining.toNat % buf.blockSize.toNat =
          (remaining.toNat - buf.blockSize.toNat) % buf.blockSize.toNat :=
        Nat.mod_eq_sub_mod (Nat.le_of_lt hlongNat)
      rw [ih hrestWalk, ne_eq, ne_eq, toNat_eq_zero, toNat_eq_zero, toNat_eq_zero, toNat_eq_zero,
        UInt32.toNat_mod, UInt32.toNat_mod, hrest, hmod]
      constructor
      · rintro ⟨-, hwhole⟩
        exact ⟨by omega, hwhole⟩
      · rintro ⟨-, hwhole⟩
        exact ⟨by omega, hwhole⟩
    · have hle : remaining.toNat ≤ buf.blockSize.toNat :=
        Nat.le_of_not_lt fun hlt => hlong (UInt32.lt_iff_toNat_lt.mpr hlt)
      have hlast : ¬remaining - remaining > 0 := by simp
      rw [if_neg hlong, if_neg hlast] at hwalk
      obtain ⟨rfl, -⟩ := Prod.mk.inj (Option.some.inj hwalk)
      have hrest : (buf.blockSize - remaining).toNat = buf.blockSize.toNat - remaining.toNat :=
        UInt32.toNat_sub_of_le _ _ (UInt32.le_iff_toNat_le.mpr hle)
      rw [ne_eq, toNat_eq_zero, toNat_eq_zero, toNat_eq_zero, UInt32.toNat_mod, hrest]
      constructor
      · intro hfull
        have hsame : remaining.toNat = buf.blockSize.toNat := by omega
        rw [hsame, Nat.mod_self]
        exact ⟨Nat.ne_of_gt hsize, rfl⟩
      · rintro ⟨hne, hwhole⟩
        by_contra hless
        rw [Nat.mod_eq_of_lt (by omega)] at hwhole
        exact hne hwhole

private theorem advance_remaining (hsize : 0 < buf.blockSize.toNat) {pos : Pos}
    {chunks : List Chunk}
    (hadvance : buf.advance length = some (pos, chunks)) :
    pos.remaining = 0 ↔ Overshoots buf length := by
  simp only [LinkedBuffer.advance, Option.bind_eq_bind, Option.bind_eq_some_iff] at hadvance
  obtain ⟨block, -, hadvance⟩ := hadvance
  unfold Overshoots
  split_ifs at hadvance with hshort
  · obtain ⟨rfl, -⟩ := Prod.mk.inj (Option.some.inj hadvance)
    have hshortNat := UInt32.lt_iff_toNat_lt.mp hshort
    have hsub : (buf.current.remaining - length).toNat =
        buf.current.remaining.toNat - length.toNat :=
      UInt32.toNat_sub_of_le _ _ (UInt32.le_iff_toNat_le.mpr (Nat.le_of_lt hshortNat))
    rw [toNat_eq_zero, hsub, UInt32.lt_iff_toNat_lt]
    omega
  · obtain ⟨⟨last, rest⟩, hwalk, hadvance⟩ := Option.bind_eq_some_iff.mp hadvance
    obtain ⟨rfl, -⟩ := Prod.mk.inj (Option.some.inj hadvance)
    have hlongNat : buf.current.remaining.toNat ≤ length.toNat :=
      Nat.le_of_not_lt fun hlt => hshort (UInt32.lt_iff_toNat_lt.mpr hlt)
    have hsub : (length - buf.current.remaining).toNat =
        length.toNat - buf.current.remaining.toNat :=
      UInt32.toNat_sub_of_le _ _ (UInt32.le_iff_toNat_le.mpr hlongNat)
    refine (walkLoop_remaining hsize hwalk).trans (and_congr_left fun _ => ?_)
    rw [ne_eq, toNat_eq_zero, hsub, UInt32.lt_iff_toNat_lt]
    omega

private theorem walkLoop_chunks {fuel : Nat} {pos final : Pos} {remaining : UInt32}
    {chunks : List Chunk}
    (hwalk : buf.walkLoop fuel pos remaining = some (final, chunks)) :
    ∀ chunk ∈ chunks, chunk.length ≤ buf.blockSize.toNat := by
  induction fuel generalizing pos remaining chunks with
  | zero => cases hwalk
  | succ fuel ih =>
    simp only [walkLoop, Option.bind_eq_bind, Option.bind_eq_some_iff] at hwalk
    obtain ⟨block, -, following, -, hwalk⟩ := hwalk
    have htmp : (if remaining > buf.blockSize then buf.blockSize else remaining).toNat ≤
        buf.blockSize.toNat := by
      split_ifs with hlong
      · exact Nat.le_refl _
      · exact Nat.le_of_not_lt fun hlt => hlong (UInt32.lt_iff_toNat_lt.mpr hlt)
    by_cases hmore : remaining -
        (if remaining > buf.blockSize then buf.blockSize else remaining) > 0
    · rw [if_pos hmore] at hwalk
      obtain ⟨⟨last, rest⟩, hrest, hwalk⟩ := Option.bind_eq_some_iff.mp hwalk
      obtain ⟨rfl, rfl⟩ := Prod.mk.inj (Option.some.inj hwalk)
      exact List.forall_mem_cons.mpr ⟨htmp, ih hrest⟩
    · rw [if_neg hmore] at hwalk
      obtain ⟨-, rfl⟩ := Prod.mk.inj (Option.some.inj hwalk)
      exact List.forall_mem_singleton.mpr htmp

private theorem advance_chunks (hcurrent : buf.current.remaining.toNat ≤ buf.blockSize.toNat)
    {pos : Pos}
    {chunks : List Chunk} (hadvance : buf.advance length = some (pos, chunks)) :
    ∀ chunk ∈ chunks, chunk.length ≤ buf.blockSize.toNat := by
  simp only [LinkedBuffer.advance, Option.bind_eq_bind, Option.bind_eq_some_iff] at hadvance
  obtain ⟨block, -, hadvance⟩ := hadvance
  split_ifs at hadvance with hshort
  · obtain ⟨-, rfl⟩ := Prod.mk.inj (Option.some.inj hadvance)
    have hshortNat := UInt32.lt_iff_toNat_lt.mp hshort
    exact List.forall_mem_singleton.mpr (Nat.le_trans (Nat.le_of_lt hshortNat) hcurrent)
  · obtain ⟨⟨last, rest⟩, hwalk, hadvance⟩ := Option.bind_eq_some_iff.mp hadvance
    obtain ⟨-, rfl⟩ := Prod.mk.inj (Option.some.inj hadvance)
    exact List.forall_mem_cons.mpr ⟨hcurrent, walkLoop_chunks hwalk⟩

/-- No cursor stands behind the last byte of its block. -/
structure Settled (buf : LinkedBuffer) : Prop where
  size : 0 < buf.blockSize.toNat
  current : buf.current.remaining ≠ 0
  zero : buf.zero.remaining ≠ 0
  mark : buf.mark.invalid = false → buf.mark.remaining ≠ 0
  limit : buf.limit.invalid = false → buf.limit.remaining ≠ 0

/-- All cursors but the current one are settled after a call, and that one just if
`wrong` does not hold. -/
structure Leaves (before after : LinkedBuffer) (wrong : Prop) : Prop where
  blockSize : after.blockSize = before.blockSize
  current : after.current.remaining = 0 ↔ wrong
  settled : after.current.remaining ≠ 0 → Settled after

variable {wrong : Prop}

theorem Settled.leaves (hsettled : Settled buf) (hwrong : ¬wrong) : Leaves buf buf wrong :=
  ⟨rfl, ⟨fun h => absurd h hsettled.current, fun h => absurd h hwrong⟩, fun _ => hsettled⟩

theorem Leaves.of_settled (hsettled : Settled other) (hsame : other.blockSize = buf.blockSize)
    (hwrong : ¬wrong) : Leaves buf other wrong :=
  ⟨hsame, ⟨fun h => absurd h hsettled.current, fun h => absurd h hwrong⟩, fun _ => hsettled⟩

theorem Settled.blockSize_ne (hsettled : Settled buf) : buf.blockSize ≠ 0 := by
  rw [ne_eq, toNat_eq_zero]
  exact Nat.ne_of_gt hsettled.size

private theorem not_valid {pos : Pos} {p : Prop} (hvalid : pos.setInvalid.invalid = false) : p :=
  Bool.noConfusion hvalid

theorem Settled.grown (hsettled : Settled buf) (hgrown : Grown buf other) : Settled other := by
  obtain ⟨_, _, _, _, rfl⟩ := hgrown
  exact { hsettled with }

private theorem overshoots_grown (hgrown : Grown buf other) (length : UInt32) :
    Overshoots other length ↔ Overshoots buf length := by
  obtain ⟨_, _, _, _, rfl⟩ := hgrown
  exact Iff.rfl

private theorem writable_eq {granted : Nat} {grown : LinkedBuffer} {ok : Bool}
    (hinvalid : buf.limit.invalid = true) (hensure : buf.ensure granted length = (grown, ok)) :
    writable buf granted length = ok := by
  rw [writable, hinvalid, hensure, Bool.true_and]

private theorem leaves_refused (hsettled : Settled buf) {granted : Nat}
    (hinvalid : buf.limit.invalid = true) (hensure : buf.ensure granted length = (other, false)) :
    Leaves buf other (writable buf granted length = true ∧ Overshoots buf length) := by
  have hgrown := ensure_grows hensure
  refine .of_settled (hsettled.grown hgrown) hgrown.blockSize_eq fun hwrong => ?_
  rw [writable_eq hinvalid hensure] at hwrong
  cases hwrong.1

private theorem written_remaining (hsettled : Settled buf) {granted : Nat} {grown : LinkedBuffer}
    (hinvalid : buf.limit.invalid = true) (hensure : buf.ensure granted length = (grown, true))
    {pos : Pos} {chunks : List Chunk} (hadvance : grown.advance length = some (pos, chunks)) :
    pos.remaining = 0 ↔ writable buf granted length = true ∧ Overshoots buf length := by
  have hgrown := ensure_grows hensure
  have hremaining := advance_remaining (hsettled.grown hgrown).size hadvance
  rw [overshoots_grown hgrown] at hremaining
  rw [writable_eq hinvalid hensure]
  exact hremaining.trans (iff_and_self.mpr fun _ => rfl)

private theorem leaves_put (hsettled : Settled buf) {granted : Nat} {data : List UInt8}
    {result : Bool}
    (hput : buf.put granted data = some (other, result)) :
    Leaves buf other (writable buf granted (UInt32.ofNat data.length) = true ∧
      Overshoots buf (UInt32.ofNat data.length)) := by
  unfold LinkedBuffer.put at hput
  dsimp only at hput
  split_ifs at hput with hreading
  · obtain ⟨rfl, -⟩ := Prod.mk.inj (Option.some.inj hput)
    refine hsettled.leaves fun hwrong => ?_
    have hinvalid := (Bool.and_eq_true_iff.mp hwrong.1).1
    simp [hinvalid] at hreading
  · have hinvalid : buf.limit.invalid = true := by simpa using hreading
    split at hput
    · rename_i grown hensure
      obtain ⟨rfl, -⟩ := Prod.mk.inj (Option.some.inj hput)
      exact leaves_refused hsettled hinvalid hensure
    · rename_i grown hensure
      obtain ⟨⟨pos, chunks⟩, hadvance, hput⟩ := Option.bind_eq_some_iff.mp hput
      obtain ⟨rfl, -⟩ := Prod.mk.inj (Option.some.inj hput)
      have hgrown := ensure_grows hensure
      have hgrownSettled := hsettled.grown hgrown
      exact ⟨hgrown.blockSize_eq, written_remaining hsettled hinvalid hensure hadvance,
        fun hcurrent => { hgrownSettled with current := hcurrent }⟩

private theorem leaves_get (hsettled : Settled buf) {bytes : Option (List UInt8)}
    (hget : buf.get length = some (other, bytes)) :
    Leaves buf other (readable buf length = true ∧ Overshoots buf length) := by
  unfold LinkedBuffer.get at hget
  split_ifs at hget with hrefused
  · obtain ⟨rfl, -⟩ := Prod.mk.inj (Option.some.inj hget)
    refine hsettled.leaves fun hwrong => ?_
    rw [readable, hrefused] at hwrong
    cases hwrong.1
  · obtain ⟨⟨pos, chunks⟩, hadvance, hget⟩ := Option.bind_eq_some_iff.mp hget
    obtain ⟨rfl, -⟩ := Prod.mk.inj (Option.some.inj hget)
    refine ⟨rfl, ?_, fun hcurrent => { hsettled with current := hcurrent }⟩
    exact (advance_remaining hsettled.size hadvance).trans
      (iff_and_self.mpr fun _ => by rw [readable, eq_false_of_ne_true hrefused]; rfl)

private theorem leaves_getInt (hsettled : Settled buf) {size : Nat} {bigendian : Bool}
    {number : Option Nat} (hget : buf.getInt size bigendian = some (other, number)) :
    Leaves buf other (readable buf (UInt32.ofNat size) = true ∧
      Overshoots buf (UInt32.ofNat size)) := by
  unfold LinkedBuffer.getInt at hget
  obtain ⟨⟨next, bytes⟩, hbytes, hget⟩ := Option.bind_eq_some_iff.mp hget
  have hleaves := leaves_get hsettled hbytes
  cases bytes with
  | none =>
    obtain ⟨rfl, -⟩ := Prod.mk.inj (Option.some.inj hget)
    exact hleaves
  | some bytes =>
    obtain ⟨rfl, -⟩ := Prod.mk.inj (Option.some.inj hget)
    exact hleaves

private theorem leaves_skip (hsettled : Settled buf) {granted : Nat} {result : Bool}
    (hskip : buf.skip granted length = some (other, result)) :
    Leaves buf other ((if buf.limit.invalid then writable buf granted length
      else readable buf length) = true ∧ Overshoots buf length) := by
  unfold LinkedBuffer.skip at hskip
  cases hinvalid : buf.limit.invalid with
  | false =>
    have hreadable : readable buf length =
        !decide (buf.limit.position - buf.current.position < length) := by
      rw [readable, hinvalid, Bool.false_or]
    simp only [hinvalid, Bool.not_false, Bool.true_and, Bool.false_eq_true, if_false] at hskip ⊢
    rw [hreadable]
    split_ifs at hskip with hrefused
    · obtain ⟨rfl, -⟩ := Prod.mk.inj (Option.some.inj hskip)
      refine hsettled.leaves fun hwrong => ?_
      rw [hrefused] at hwrong
      cases hwrong.1
    · obtain ⟨⟨pos, chunks⟩, hadvance, hskip⟩ := Option.bind_eq_some_iff.mp hskip
      obtain ⟨rfl, -⟩ := Prod.mk.inj (Option.some.inj hskip)
      refine ⟨rfl, ?_, fun hcurrent => { hsettled with
        current := hcurrent
        mark := fun _ => hsettled.current }⟩
      exact (advance_remaining hsettled.size hadvance).trans
        (iff_and_self.mpr fun _ => by simpa using hrefused)
  | true =>
    simp only [hinvalid, Bool.not_true, Bool.false_and, Bool.false_eq_true, if_false, if_true]
      at hskip ⊢
    split at hskip
    · rename_i grown hensure
      obtain ⟨rfl, -⟩ := Prod.mk.inj (Option.some.inj hskip)
      exact leaves_refused hsettled hinvalid hensure
    · rename_i grown hensure
      obtain ⟨⟨pos, chunks⟩, hadvance, hskip⟩ := Option.bind_eq_some_iff.mp hskip
      obtain ⟨rfl, -⟩ := Prod.mk.inj (Option.some.inj hskip)
      have hgrown := ensure_grows hensure
      have hgrownSettled := hsettled.grown hgrown
      exact ⟨hgrown.blockSize_eq, written_remaining hsettled hinvalid hensure hadvance,
        fun hcurrent => { hgrownSettled with
          current := hcurrent
          mark := fun _ => hgrownSettled.current }⟩

private theorem leaves_setMark (hsettled : Settled buf) : Leaves buf buf.setMark False :=
  .of_settled ⟨hsettled.size, hsettled.current, hsettled.zero, fun _ => hsettled.current,
    hsettled.limit⟩ rfl id

private theorem leaves_rewind (hsettled : Settled buf) : Leaves buf buf.rewind False :=
  .of_settled ⟨hsettled.size, hsettled.zero, hsettled.zero, fun _ => hsettled.current,
    hsettled.limit⟩ rfl id

private theorem leaves_reset (hsettled : Settled buf) : Leaves buf buf.reset.1 False := by
  unfold LinkedBuffer.reset
  split_ifs with hinvalid
  · exact hsettled.leaves id
  · have hvalid : buf.mark.invalid = false := eq_false_of_ne_true hinvalid
    exact .of_settled { hsettled with
      current := hsettled.mark hvalid
      mark := fun _ => hsettled.current } rfl id

private theorem leaves_flip (hsettled : Settled buf) : Leaves buf buf.flip.1 False := by
  unfold LinkedBuffer.flip
  split_ifs with hreading
  · exact hsettled.leaves id
  · exact .of_settled { hsettled with
      current := hsettled.zero
      mark := not_valid
      limit := fun _ => hsettled.current } rfl id

private theorem leaves_compact (hsettled : Settled buf) {result : Bool}
    (hcompact : buf.compact = some (other, result)) : Leaves buf other False := by
  have hsize := hsettled.blockSize_ne
  unfold LinkedBuffer.compact at hcompact
  split_ifs at hcompact with hinvalid
  · obtain ⟨rfl, -⟩ := Prod.mk.inj (Option.some.inj hcompact)
    exact hsettled.leaves id
  · have hlimit : buf.limit.remaining ≠ 0 := hsettled.limit (by simpa using hinvalid)
    obtain ⟨⟨blocks, capacity⟩, -, hcompact⟩ := Option.bind_eq_some_iff.mp hcompact
    obtain ⟨rfl, -⟩ := Prod.mk.inj (Option.some.inj hcompact)
    refine .of_settled ⟨hsettled.size, ?_, ?_, not_valid, not_valid⟩ rfl id
    · dsimp only
      split_ifs
      · exact hsize
      · exact hlimit
    · dsimp only
      split_ifs
      · exact hsize
      · exact hsettled.current

private theorem leaves_clear (hsettled : Settled buf) : Leaves buf buf.clear False :=
  .of_settled ⟨hsettled.size, hsettled.blockSize_ne, hsettled.blockSize_ne, not_valid, not_valid⟩
    rfl id

private theorem not_overshoots (hsettled : Settled buf)
    (hlength : length.toNat ≤ buf.blockSize.toNat) :
    ¬Overshoots buf length := by
  rintro ⟨hlong, hwhole⟩
  have hlongNat := UInt32.lt_iff_toNat_lt.mp hlong
  have hcurrent : buf.current.remaining.toNat ≠ 0 := mt toNat_eq_zero.mpr hsettled.current
  rw [toNat_eq_zero, UInt32.toNat_mod, UInt32.toNat_sub_of_le _ _
    (UInt32.le_iff_toNat_le.mpr (Nat.le_of_lt hlongNat)), Nat.mod_eq_of_lt (by omega)] at hwhole
  omega

private theorem settled_putChunks {source : Nat → Nat → UInt8} {granted : Nat} {chunks : List Chunk}
    (hsettled : Settled buf) (hchunks : ∀ chunk ∈ chunks, chunk.length ≤ buf.blockSize.toNat)
    (hput : putChunks source granted chunks buf = some other) :
    Settled other ∧ other.blockSize = buf.blockSize := by
  induction chunks generalizing buf with
  | nil =>
    obtain rfl := Option.some.inj hput
    exact ⟨hsettled, rfl⟩
  | cons chunk rest ih =>
    obtain ⟨hchunk, hrest⟩ := List.forall_mem_cons.mp hchunks
    obtain ⟨⟨next, result⟩, hnext, hput⟩ := Option.bind_eq_some_iff.mp hput
    have hleaves := leaves_put hsettled hnext
    have hlength : (UInt32.ofNat (load source chunk).length).toNat ≤ buf.blockSize.toNat := by
      rw [load, List.length_map, List.length_range, UInt32.toNat_ofNat']
      exact Nat.le_trans (Nat.mod_le _ _) hchunk
    have hnextSettled := hleaves.settled fun hzero =>
      not_overshoots hsettled hlength (hleaves.current.mp hzero).2
    rw [← hleaves.blockSize] at hrest
    obtain ⟨hother, hsame⟩ := ih hnextSettled hrest hput
    exact ⟨hother, hsame.trans hleaves.blockSize⟩

private theorem leaves_getBuffer {target into : LinkedBuffer} (hsettled : Settled buf)
    (htarget : Settled target) (hsame : target.blockSize = buf.blockSize)
    (hcurrent : buf.current.remaining.toNat ≤ buf.blockSize.toNat) {granted : Nat} {result : Bool}
    (hget : buf.getBuffer target granted length = some (other, into, result)) :
    Leaves buf other ((readable buf length && writable target granted length) = true ∧
      Overshoots buf length) ∧ Leaves target into False := by
  unfold LinkedBuffer.getBuffer at hget
  split_ifs at hget with hrefused hreading
  · obtain ⟨rfl, hpair⟩ := Prod.mk.inj (Option.some.inj hget)
    obtain ⟨rfl, -⟩ := Prod.mk.inj hpair
    refine ⟨hsettled.leaves fun hwrong => ?_, htarget.leaves id⟩
    rw [readable, hrefused] at hwrong
    cases hwrong.1
  · obtain ⟨rfl, hpair⟩ := Prod.mk.inj (Option.some.inj hget)
    obtain ⟨rfl, -⟩ := Prod.mk.inj hpair
    refine ⟨hsettled.leaves fun hwrong => ?_, htarget.leaves id⟩
    have hinvalid := (Bool.and_eq_true_iff.mp (Bool.and_eq_true_iff.mp hwrong.1).2).1
    simp [hinvalid] at hreading
  · have hreadable : readable buf length = true := by
      rw [readable, eq_false_of_ne_true hrefused]
      rfl
    have hinvalid : target.limit.invalid = true := by simpa using hreading
    rw [hreadable, Bool.true_and]
    split at hget
    · rename_i grown hensure
      obtain ⟨rfl, hpair⟩ := Prod.mk.inj (Option.some.inj hget)
      obtain ⟨rfl, -⟩ := Prod.mk.inj hpair
      have hgrown := ensure_grows hensure
      rw [writable_eq hinvalid hensure]
      exact ⟨hsettled.leaves fun hwrong => Bool.false_ne_true hwrong.1,
        .of_settled (htarget.grown hgrown) hgrown.blockSize_eq id⟩
    · rename_i grown hensure
      obtain ⟨⟨pos, chunks⟩, hadvance, hget⟩ := Option.bind_eq_some_iff.mp hget
      obtain ⟨filled, hput, hget⟩ := Option.bind_eq_some_iff.mp hget
      obtain ⟨rfl, hpair⟩ := Prod.mk.inj (Option.some.inj hget)
      obtain ⟨rfl, -⟩ := Prod.mk.inj hpair
      have hgrown := ensure_grows hensure
      have hchunks := advance_chunks hcurrent hadvance
      rw [← hsame, ← hgrown.blockSize_eq] at hchunks
      obtain ⟨hfilled, hfilledSize⟩ := settled_putChunks (htarget.grown hgrown) hchunks hput
      rw [writable_eq hinvalid hensure]
      refine ⟨⟨rfl, ?_, fun hcurrent => { hsettled with current := hcurrent }⟩,
        .of_settled hfilled (hfilledSize.trans hgrown.blockSize_eq) id⟩
      exact (advance_remaining hsettled.size hadvance).trans (iff_and_self.mpr fun _ => rfl)

variable {bufs : Nat → LinkedBuffer} {granted index : Nat} {call : Call}

/-- The call goes wrong in this buffer. -/
def Wrong (bufs : Nat → LinkedBuffer) (walked : Option (Nat × UInt32)) (number : Nat) : Prop :=
  ∃ length, walked = some (number, length) ∧ Overshoots (bufs number) length

private theorem wrong_walk_iff {ahead : Bool} {source number : Nat} :
    Wrong bufs (passes.walk ahead source length) number ↔
      source = number ∧ ahead = true ∧ Overshoots (bufs source) length := by
  unfold Wrong passes.walk
  constructor
  · rintro ⟨passed, hpassed, hover⟩
    split_ifs at hpassed with hahead
    obtain ⟨rfl, rfl⟩ := Prod.mk.inj (Option.some.inj hpassed)
    exact ⟨rfl, hahead, hover⟩
  · rintro ⟨rfl, hahead, hover⟩
    exact ⟨length, if_pos hahead, hover⟩

private theorem not_wrong_none (number : Nat) : ¬Wrong bufs none number := by
  rintro ⟨length, hnone, -⟩
  cases hnone

private theorem leaves_walk (hall : ∀ number, Settled (bufs number)) {ahead : Bool}
    (hleaves : Leaves (bufs index) other (ahead = true ∧ Overshoots (bufs index) length))
    (number : Nat) : Leaves (bufs number) (Function.update bufs index other number)
      (Wrong bufs (passes.walk ahead index length) number) := by
  by_cases heq : number = index
  · subst heq
    rw [Function.update_self]
    exact ⟨hleaves.blockSize, hleaves.current.trans (by simp [wrong_walk_iff]), hleaves.settled⟩
  · rw [Function.update_of_ne heq]
    exact (hall number).leaves fun hwrong => heq (wrong_walk_iff.mp hwrong).1.symm

private theorem leaves_still (hall : ∀ number, Settled (bufs number))
    (hleaves : Leaves (bufs index) other False) (number : Nat) :
    Leaves (bufs number) (Function.update bufs index other number) (Wrong bufs none number) := by
  by_cases heq : number = index
  · subst heq
    rw [Function.update_self]
    exact ⟨hleaves.blockSize, hleaves.current.trans ⟨False.elim, not_wrong_none number⟩,
      hleaves.settled⟩
  · rw [Function.update_of_ne heq]
    exact (hall number).leaves (not_wrong_none number)

private theorem leaves_moves (hall : ∀ number, Settled (bufs number)) {source target : Nat}
    {into : LinkedBuffer} (hleaves : Leaves (bufs source) other
      ((readable (bufs source) length && writable (bufs target) granted length) = true ∧
        Overshoots (bufs source) length))
    (hinto : Leaves (bufs target) into False) (number : Nat) :
    Leaves (bufs number) (Function.update (Function.update bufs source other) target into number)
      (Wrong bufs (passes.moves bufs granted source target length) number) := by
  by_cases heq : number = target
  · subst heq
    rw [Function.update_self]
    refine ⟨hinto.blockSize, hinto.current.trans ⟨False.elim, fun hwrong => ?_⟩, hinto.settled⟩
    -- a buffer is not both read and written
    obtain ⟨rfl, hahead, -⟩ := wrong_walk_iff.mp hwrong
    obtain ⟨hread, hwrite⟩ := Bool.and_eq_true_iff.mp hahead
    have hinvalid := (Bool.and_eq_true_iff.mp hwrite).1
    simp [readable, hinvalid] at hread
  · rw [Function.update_of_ne heq]
    exact leaves_walk hall hleaves number

private theorem leaves_exec (hall : ∀ number, Settled (bufs number))
    (hrefines : ∀ number, ∃ base flat, (bufs number).Refines base flat)
    (hsame : ∀ left right, (bufs left).blockSize = (bufs right).blockSize)
    (hsize : call.size < 2 ^ 32 - 1) {after : Nat → LinkedBuffer} {reply : Reply}
    (hexec : LinkedBuffer.exec granted bufs index call = some (after, reply)) (number : Nat) :
    Leaves (bufs number) (after number) (Wrong bufs (passes bufs granted index call) number) := by
  have hindex := hall index
  have hcurrent : ∀ number,
      (bufs number).current.remaining.toNat ≤ (bufs number).blockSize.toNat := by
    intro number
    obtain ⟨base, flat, hrefines⟩ := hrefines number
    obtain ⟨_, _, hcursor⟩ := hrefines.current
    have hsplit := hcursor.split
    omega
  have hmoves : ∀ source target length result (other into : LinkedBuffer),
      (bufs source).getBuffer (bufs target) granted length = some (other, into, result) →
      ∀ number, Leaves (bufs number)
        (Function.update (Function.update bufs source other) target into number)
        (Wrong bufs (passes.moves bufs granted source target length) number) := by
    intro source target length result other into hget
    obtain ⟨hother, hinto⟩ := leaves_getBuffer (hall source) (hall target) (hsame target source)
      (hcurrent source) hget
    exact leaves_moves hall hother hinto
  unfold LinkedBuffer.exec at hexec
  cases call with
  | put data =>
    obtain ⟨⟨other, result⟩, hput, hexec⟩ := Option.bind_eq_some_iff.mp hexec
    obtain ⟨rfl, -⟩ := Prod.mk.inj (Option.some.inj hexec)
    exact leaves_walk hall (leaves_put hindex hput) number
  | putInt size value bigendian =>
    obtain ⟨⟨other, result⟩, hput, hexec⟩ := Option.bind_eq_some_iff.mp hexec
    obtain ⟨rfl, -⟩ := Prod.mk.inj (Option.some.inj hexec)
    have hlength : (FlatBuffer.wire size value bigendian).length = size := by
      cases bigendian <;> simp [FlatBuffer.wire]
    rw [LinkedBuffer.putInt_eq] at hput
    have hleaves := leaves_put hindex hput
    rw [hlength] at hleaves
    exact leaves_walk hall hleaves number
  | get length =>
    obtain ⟨⟨other, bytes⟩, hget, hexec⟩ := Option.bind_eq_some_iff.mp hexec
    obtain ⟨rfl, -⟩ := Prod.mk.inj (Option.some.inj hexec)
    exact leaves_walk hall (leaves_get hindex hget) number
  | getInt size bigendian =>
    obtain ⟨⟨other, value⟩, hget, hexec⟩ := Option.bind_eq_some_iff.mp hexec
    obtain ⟨rfl, -⟩ := Prod.mk.inj (Option.some.inj hexec)
    exact leaves_walk hall (leaves_getInt hindex hget) number
  | peekInt size bigendian =>
    obtain ⟨base, flat, hrefines⟩ := hrefines index
    have hsize : size < 2 ^ 32 := Nat.lt_of_lt_of_le hsize (by decide)
    obtain ⟨value, hpeek⟩ := peekInt_same hrefines hsize bigendian
    simp only [hpeek] at hexec
    obtain ⟨rfl, -⟩ := Prod.mk.inj (Option.some.inj hexec)
    exact leaves_still hall (hindex.leaves id) number
  | skip length =>
    obtain ⟨⟨other, result⟩, hskip, hexec⟩ := Option.bind_eq_some_iff.mp hexec
    obtain ⟨rfl, -⟩ := Prod.mk.inj (Option.some.inj hexec)
    have hleaves := leaves_skip hindex hskip
    have hpasses : passes bufs granted index (.skip length) = passes.walk
        (if (bufs index).limit.invalid then writable (bufs index) granted length
          else readable (bufs index) length) index length := by
      unfold passes passes.written
      split_ifs <;> rfl
    rw [hpasses]
    exact leaves_walk hall hleaves number
  | mark =>
    obtain ⟨rfl, -⟩ := Prod.mk.inj (Option.some.inj hexec)
    exact leaves_still hall (leaves_setMark hindex) number
  | reset =>
    obtain ⟨rfl, -⟩ := Prod.mk.inj (Option.some.inj hexec)
    exact leaves_still hall (leaves_reset hindex) number
  | rewind =>
    obtain ⟨rfl, -⟩ := Prod.mk.inj (Option.some.inj hexec)
    exact leaves_still hall (leaves_rewind hindex) number
  | flip =>
    obtain ⟨rfl, -⟩ := Prod.mk.inj (Option.some.inj hexec)
    exact leaves_still hall (leaves_flip hindex) number
  | compact =>
    obtain ⟨⟨other, result⟩, hcompact, hexec⟩ := Option.bind_eq_some_iff.mp hexec
    obtain ⟨rfl, -⟩ := Prod.mk.inj (Option.some.inj hexec)
    exact leaves_still hall (leaves_compact hindex hcompact) number
  | clear =>
    obtain ⟨rfl, -⟩ := Prod.mk.inj (Option.some.inj hexec)
    exact leaves_still hall (leaves_clear hindex) number
  | getBuffer other length =>
    obtain ⟨⟨source, into, result⟩, hget, hexec⟩ := Option.bind_eq_some_iff.mp hexec
    obtain ⟨rfl, -⟩ := Prod.mk.inj (Option.some.inj hexec)
    exact hmoves index other length result source into hget number
  | getAll other =>
    obtain ⟨⟨source, into, result⟩, hget, hexec⟩ := Option.bind_eq_some_iff.mp hexec
    obtain ⟨rfl, -⟩ := Prod.mk.inj (Option.some.inj hexec)
    exact hmoves index other _ result source into hget number
  | putBuffer other length =>
    obtain ⟨⟨source, into, result⟩, hget, hexec⟩ := Option.bind_eq_some_iff.mp hexec
    obtain ⟨rfl, -⟩ := Prod.mk.inj (Option.some.inj hexec)
    exact hmoves other index length result source into hget number
  | putAll other =>
    obtain ⟨⟨source, into, result⟩, hget, hexec⟩ := Option.bind_eq_some_iff.mp hexec
    obtain ⟨rfl, -⟩ := Prod.mk.inj (Option.some.inj hexec)
    exact hmoves other index _ result source into hget number

private theorem eq_place (hrefines : buf.Refines base flat) {pos : Pos} (hat : buf.At base pos)
    (hremaining : pos.remaining ≠ 0) : pos = place buf pos.position := by
  obtain ⟨number, block, hcursor⟩ := hat
  have hbase := hrefines.zero_currBuf
  have hsplit := hcursor.split
  have hleft : pos.remaining.toNat ≠ 0 := mt toNat_eq_zero.mpr hremaining
  have hindex : base + pos.position.toNat = pos.currBuf + number * buf.blockSize.toNat := by
    rw [Nat.add_comm pos.currBuf]
    exact hcursor.index.symm
  have hsize : 0 < buf.blockSize.toNat := hrefines.chain.size
  have hdiv : (base + pos.position.toNat) / buf.blockSize.toNat = number := by
    rw [hindex, Nat.add_mul_div_right _ _ hsize, Nat.div_eq_of_lt (by omega), Nat.zero_add]
  have hmod : (base + pos.position.toNat) % buf.blockSize.toNat = pos.currBuf := by
    rw [hindex, Nat.add_mul_mod_self_right, Nat.mod_eq_of_lt (by omega)]
  have hrest : UInt32.ofNat (buf.blockSize.toNat - pos.currBuf) = pos.remaining := by
    rw [← hsplit, Nat.add_sub_cancel_left, UInt32.ofNat_toNat]
  have hblock := hcursor.block
  have hvalid := hcursor.valid
  unfold place
  dsimp only
  rw [hbase, hdiv, hmod, hrest, hcursor.inChain]
  cases pos
  simp only at hblock hvalid
  rw [hblock, hvalid]

private theorem canonical (hrefines : buf.Refines base flat) (hsettled : Settled buf) :
    Canonical buf where
  remaining := hsettled.current
  current := eq_place hrefines hrefines.current hsettled.current
  mark := fun hvalid => by
    rcases hrefines.mark with ⟨hinvalid, -⟩ | ⟨hat, -⟩
    · exact absurd (hinvalid.symm.trans hvalid) (by decide)
    · exact eq_place hrefines hat (hsettled.mark hvalid)
  limit := fun hvalid => by
    rcases hrefines.limit with ⟨hinvalid, -⟩ | ⟨hat, -⟩
    · exact absurd (hinvalid.symm.trans hvalid) (by decide)
    · exact eq_place hrefines hat (hsettled.limit hvalid)

private theorem step_of_answer {system : System} {action : Action} {after : Nat → LinkedBuffer}
    {result : Bool} (hanswer : answer system.bufs action = some (after, result)) :
    Space.step system action = some ⟨after, system.bufs, result⟩ := by
  simp only [Space.step, hanswer, Option.bind_eq_bind, Option.bind_some]
  rfl

/-- The buffers of a run that met no overshooting; their counters may have wrapped. -/
structure Resting (system : System) : Prop where
  refines : ∀ index, ∃ base flat, (system.bufs index).Refines base flat
  same : ∀ left right, (system.bufs left).blockSize = (system.bufs right).blockSize
  settled : ∀ index, Settled (system.bufs index)

private theorem refines_answer {system : System} {action : Action}
    (hbounded : Bounded system action)
    (hrefines : ∀ index, ∃ base flat, (system.bufs index).Refines base flat) :
    ∃ after result, answer system.bufs action = some (after, result) ∧
      ∀ index, ∃ base flat, (after index).Refines base flat := by
  unfold Bounded at hbounded
  unfold answer
  cases hrequest : action.request with
  | call call =>
    rw [hrequest] at hbounded
    obtain ⟨after, reply, hexec, hkept⟩ := kept_exec hrefines action.granted hbounded.1 hbounded.2
    simp only [hexec]
    exact ⟨_, _, rfl, fun index => (hkept index).refines⟩
  | reserve size =>
    obtain ⟨base, flat, hindex⟩ := hrefines action.index
    exact ⟨_, _, rfl, fun index =>
      (kept_update hrefines (kept_reserve hindex action.granted size) index).refines⟩

private theorem leaves_answer {system : System} (hresting : Resting system) {action : Action}
    (hbounded : Bounded system action) {after : Nat → LinkedBuffer} {result : Bool}
    (hanswer : answer system.bufs action = some (after, result)) :
    ∃ wrong : Nat → Prop, (Meets system action ↔ ∀ number, ¬wrong number) ∧
      ∀ number, Leaves (system.bufs number) (after number) (wrong number) := by
  unfold answer at hanswer
  unfold Bounded at hbounded
  unfold Meets
  cases hrequest : action.request with
  | call call =>
    simp only [hrequest] at hanswer hbounded
    obtain ⟨⟨after, reply⟩, hexec, hanswer⟩ := Option.bind_eq_some_iff.mp hanswer
    obtain ⟨rfl, -⟩ := Prod.mk.inj (Option.some.inj hanswer)
    refine ⟨Wrong system.bufs (passes system.bufs action.granted action.index call), ?_,
      leaves_exec hresting.settled hresting.refines hresting.same hbounded.1 hexec⟩
    simp only [Wrong, not_exists, not_and]
  | reserve size =>
    simp only [hrequest] at hanswer
    obtain ⟨rfl, -⟩ := Prod.mk.inj (Option.some.inj hanswer)
    refine ⟨Wrong system.bufs none, by simp [not_wrong_none], leaves_still hresting.settled ?_⟩
    have hgrown := reserveLoop_grows (size + 1) action.granted (system.bufs action.index)
    exact .of_settled ((hresting.settled action.index).grown hgrown) hgrown.blockSize_eq id

theorem Resting.step {system : System} {action : Action} (hbounded : Bounded system action)
    (hresting : Resting system) :
    ∃ next, Space.step system action = some next ∧ (Meets system action → Resting next) ∧
      ((∀ index, Canonical (next.bufs index)) → Meets system action) := by
  obtain ⟨after, result, hanswer, hrefines⟩ := refines_answer hbounded hresting.refines
  obtain ⟨wrong, hmeets, hleaves⟩ := leaves_answer hresting hbounded hanswer
  refine ⟨_, step_of_answer hanswer, fun hmeet => ⟨hrefines, fun left right => ?_,
    fun index => ?_⟩, fun hcanonical => hmeets.mpr fun number hwrong => ?_⟩
  · exact (hleaves left).blockSize.trans
      ((hresting.same left right).trans (hleaves right).blockSize.symm)
  · exact (hleaves index).settled fun hzero =>
      hmeets.mp hmeet index ((hleaves index).current.mp hzero)
  · exact (hcanonical number).remaining ((hleaves number).current.mpr hwrong)

private theorem start_resting (blockSize : UInt32) (hsize : 1 ≤ blockSize)
    (bytes : Nat → Nat → Nat → UInt8) : Resting (start blockSize bytes) := by
  have hpos : 0 < blockSize.toNat := UInt32.le_iff_toNat_le.mp hsize
  have hne : blockSize ≠ 0 := by
    rw [ne_eq, toNat_eq_zero]
    exact Nat.ne_of_gt hpos
  exact ⟨fun index => ⟨0, .create, create_refines hpos (bytes index)⟩, fun _ _ => rfl,
    fun index => ⟨hpos, hne, hne, fun hvalid => Bool.noConfusion hvalid,
      fun hvalid => Bool.noConfusion hvalid⟩⟩

/-- Every run goes through, and all its states are canonical just when no call passes
beyond the current block and ends with a later one. -/
theorem positions_canonical_iff (blockSize : UInt32) (hsize : 1 ≤ blockSize)
    (bytes : Nat → Nat → Nat → UInt8) (actions : List Action)
    (hbounded : Along step Bounded (start blockSize bytes) actions) :
    (∃ final, run step (start blockSize bytes) actions = some final) ∧
      ((∀ taken rest system, actions = taken ++ rest →
        run step (start blockSize bytes) taken = some system →
          ∀ index, Canonical (system.bufs index)) ↔
        Along step Meets (start blockSize bytes) actions) := by
  have hstart := start_resting blockSize hsize bytes
  constructor
  · have hstep : ∀ system action, Bounded system action →
        (∀ index, ∃ base flat, (system.bufs index).Refines base flat) →
        ∃ next, step system action = some next ∧
          ∀ index, ∃ base flat, (next.bufs index).Refines base flat := by
      intro system action hbounded hrefines
      obtain ⟨after, result, hanswer, hafter⟩ := refines_answer hbounded hrefines
      exact ⟨_, step_of_answer hanswer, hafter⟩
    obtain ⟨final, hrun, -⟩ := run_along hstep hbounded hstart.refines
    exact ⟨final, hrun⟩
  · refine everywhere_iff_along (fun system hresting index => ?_)
      (fun system action hbounded hresting => hresting.step hbounded) hbounded hstart
    obtain ⟨base, flat, hrefines⟩ := hresting.refines index
    exact canonical hrefines (hresting.settled index)

/-- Five bytes end inside their second block; after the flip the mark stands at the
second block's start. -/
theorem positions_canonical_iff_five : ∃ final,
    run step (start 4 fun _ _ _ => 0) [⟨0, 2, .call (.put [1, 2, 3, 4, 5])⟩, ⟨0, 0, .call .flip⟩,
      ⟨0, 0, .call (.get 4)⟩, ⟨0, 0, .call .mark⟩] = some final ∧
      (final.bufs 0).mark = place (final.bufs 0) 4 ∧ ∀ index, Canonical (final.bufs index) := by
  have hbounded : Along step Bounded (start 4 fun _ _ _ => 0)
      [⟨0, 2, .call (.put [1, 2, 3, 4, 5])⟩, ⟨0, 0, .call .flip⟩, ⟨0, 0, .call (.get 4)⟩,
        ⟨0, 0, .call .mark⟩] := by
    refine ⟨⟨by decide, ?_⟩, fun next hnext => ?_⟩
    · rintro target length hwrites
      cases hwrites
      decide
    · obtain rfl : _ = next := Option.some.inj hnext
      refine ⟨⟨by decide, by rintro _ _ ⟨⟩⟩, fun next hnext => ?_⟩
      obtain rfl : _ = next := Option.some.inj hnext
      refine ⟨⟨by decide, by rintro _ _ ⟨⟩⟩, fun next hnext => ?_⟩
      obtain rfl : _ = next := Option.some.inj hnext
      exact ⟨⟨by decide, by rintro _ _ ⟨⟩⟩, fun _ _ => trivial⟩
  have hmeets : Along step Meets (start 4 fun _ _ _ => 0)
      [⟨0, 2, .call (.put [1, 2, 3, 4, 5])⟩, ⟨0, 0, .call .flip⟩, ⟨0, 0, .call (.get 4)⟩,
        ⟨0, 0, .call .mark⟩] := by
    refine ⟨?_, fun next hnext => ?_⟩
    · rintro number length hpasses
      obtain ⟨rfl, rfl⟩ := Prod.mk.inj (Option.some.inj hpasses)
      decide
    · obtain rfl : _ = next := Option.some.inj hnext
      refine ⟨by rintro _ _ ⟨⟩, fun next hnext => ?_⟩
      obtain rfl : _ = next := Option.some.inj hnext
      refine ⟨?_, fun next hnext => ?_⟩
      · rintro number length hpasses
        obtain ⟨rfl, rfl⟩ := Prod.mk.inj (Option.some.inj hpasses)
        decide
      · obtain rfl : _ = next := Option.some.inj hnext
        exact ⟨by rintro _ _ ⟨⟩, fun _ _ => trivial⟩
  obtain ⟨⟨final, hrun⟩, hiff⟩ := positions_canonical_iff 4 (by decide) (fun _ _ _ => 0) _ hbounded
  refine ⟨final, hrun, ?_, hiff.mpr hmeets _ [] final (List.append_nil _).symm hrun⟩
  obtain rfl : _ = final := Option.some.inj hrun
  rfl

/-- Two whole blocks skipped at once leave the cursor behind the second. -/
theorem skip_rests_at_border :
    ¬ ∀ (blockSize : UInt32) (bytes : Nat → Nat → Nat → UInt8) (actions : List Action),
      1 ≤ blockSize → Along step Bounded (start blockSize bytes) actions →
      ∀ taken rest system, actions = taken ++ rest →
        run step (start blockSize bytes) taken = some system →
          ∀ index, Canonical (system.bufs index) := by
  intro hall
  have hcanonical := hall 4088 (fun _ _ _ => 0) [⟨0, 2, .call (.skip 8176)⟩] (by decide)
    ⟨⟨by decide, by
      rintro target length hwrites
      cases hwrites
      decide⟩, fun _ _ => trivial⟩ _ [] _ (List.append_nil _).symm rfl 0
  exact hcanonical.remaining rfl

end Libsax.Net.Space
