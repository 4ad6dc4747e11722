import Libsax.Net.BinaryRuns
import Mathlib.Algebra.Ring.Int.Defs
import Mathlib.Tactic.SplitIfs

/-! For which requests `ensure` finishes: its loops double an `int`, so they get no further
than `2 ^ 30`. -/
namespace Libsax.Net.Binary

open Libsax.Lib

/-- `ensure` of an `int`: below zero every comparison with it goes as with zero. -/
def ensureInt (b : Binary) (need : Int) (malloc : Option ByteStore) : Option (Binary × Bool) :=
  b.ensure need.toNat malloc

def perform (b : Binary) (call : BinaryCall) : Option Binary := (b.exec call).map (·.1)

/-- The call ends, and unless it answers `false` there is the space that was asked for. -/
def Ensures (b : Binary) (need : Int) (malloc : Option ByteStore) : Prop :=
  ∃ next answer, b.ensureInt need malloc = some (next, answer) ∧
    (answer = true → need ≤ next.getFreeLen)

/-- The free part and what was drained before the content. -/
def idle (b : Binary) : Nat := b.end_ - b.free + b.data

/-- The requests that stay within `int`: of a first block, of the free part, of a larger
block, and of a block that is moved together or found too full for that. -/
def Within (b : Binary) (need : Nat) : Prop :=
  match b.start with
  | none => need ≤ 2 ^ 30
  | some _ =>
    b.free + need ≤ b.end_ ∨
    b.idle < need ∧ need + b.getDataLen ≤ 2 ^ 30 ∨
    need ≤ b.idle ∧ b.idle < 2 ^ 29 ∧ (b.idle * 4 < b.getDataLen → b.end_ ≤ 2 ^ 29)

private theorem int_none {number : Nat} (hle : 2 ^ 31 ≤ number) : int number = none :=
  if_neg (Nat.not_lt.mpr hle)

/-- The loop goes through the powers of two, up to the largest in an `int`. -/
private theorem grow_pow {fuel k wanted : Nat} (hfuel : 31 ≤ k + fuel) (hk : k ≤ 30)
    (hwanted : wanted ≤ 2 ^ 30) :
    ∃ j, grow fuel (2 ^ k) wanted = some (2 ^ j) ∧ k ≤ j ∧ j ≤ 30 ∧ wanted ≤ 2 ^ j := by
  induction fuel generalizing k with
  | zero => omega
  | succ fuel ih =>
    unfold grow
    split_ifs with hless
    · have hlt : k < 30 := by
        by_contra hge
        have htop : k = 30 := by omega
        rw [htop] at hless
        omega
      have hdouble : 2 * 2 ^ k = 2 ^ (k + 1) := (Nat.pow_succ').symm
      have hint : 2 ^ (k + 1) < 2 ^ 31 := Nat.pow_lt_pow_right (by decide) (by omega)
      obtain ⟨j, hgrow, hle, hj, hreach⟩ := @ih (k + 1) (by omega) (by omega)
      refine ⟨j, ?_, by omega, hj, hreach⟩
      rw [hdouble, int_eq hint, Option.bind_some, hgrow]
    · exact ⟨k, rfl, le_refl k, hk, Nat.le_of_not_lt hless⟩

private theorem grow_pow_none {fuel k wanted : Nat} (hk : k ≤ 30) (hwanted : 2 ^ 30 < wanted) :
    grow fuel (2 ^ k) wanted = none := by
  induction fuel generalizing k with
  | zero => rfl
  | succ fuel ih =>
    have hpow : 2 ^ k ≤ 2 ^ 30 := Nat.pow_le_pow_right (by decide) hk
    have hdouble : 2 * 2 ^ k = 2 ^ (k + 1) := (Nat.pow_succ').symm
    unfold grow
    rw [if_pos (Nat.lt_of_le_of_lt hpow hwanted), hdouble]
    by_cases hlt : k < 30
    · have hint : 2 ^ (k + 1) < 2 ^ 31 := Nat.pow_lt_pow_right (by decide) (by omega)
      rw [int_eq hint, Option.bind_some]
      exact ih hlt
    · have htop : k = 30 := by omega
      rw [htop, int_none (le_refl _), Option.bind_none]

/-- A block has a power of two bytes and its pointers are in order. -/
structure Ordered (end_ data free : Nat) : Prop where
  data_le_free : data ≤ free
  free_le_end : free ≤ end_
  power : ∃ k, 8 ≤ k ∧ k ≤ 30 ∧ end_ = 2 ^ k

def Shaped (b : Binary) : Prop := b.start.isSome = true → Ordered b.end_ b.data b.free

variable {b : Binary} {need : Nat} {malloc : Option ByteStore}

theorem Ordered.int_lt {end_ data free number : Nat} (hordered : Ordered end_ data free)
    (hle : number ≤ end_) : number < 2 ^ 31 := by
  obtain ⟨k, -, hk, hend⟩ := hordered.power
  have hpow : 2 ^ k ≤ 2 ^ 30 := Nat.pow_le_pow_right (by decide) hk
  omega

theorem Ordered.half {end_ data free : Nat} (hordered : Ordered end_ data free)
    (hlt : end_ < 2 ^ 30) : end_ ≤ 2 ^ 29 := by
  obtain ⟨k, -, hk, hend⟩ := hordered.power
  have hless : k < 30 := (Nat.pow_lt_pow_iff_right (by decide)).mp (hend ▸ hlt)
  exact hend ▸ Nat.pow_le_pow_right (by decide) (by omega)

private theorem enlarge_some {k wanted : Nat} (hk : 8 ≤ k) (hless : k ≤ 29)
    (hwanted : wanted ≤ 2 ^ 30)
    (after : Nat → Option (Binary × Bool)) :
    ∃ j, 8 ≤ j ∧ j ≤ 30 ∧ wanted ≤ 2 ^ j ∧
      ((int (2 ^ k * 2)).bind fun bufsize => (grow 32 bufsize wanted).bind after) =
        after (2 ^ j) := by
  have hint : 2 ^ k * 2 = 2 ^ (k + 1) := (Nat.pow_succ 2 k).symm
  have hlt : 2 ^ (k + 1) < 2 ^ 31 := Nat.pow_lt_pow_right (by decide) (by omega)
  obtain ⟨j, hgrow, hle, hj, hreach⟩ :=
    @grow_pow 32 (k + 1) wanted (by omega) (by omega) hwanted
  refine ⟨j, by omega, hj, hreach, ?_⟩
  rw [hint, int_eq hlt, Option.bind_some, hgrow, Option.bind_some]

private theorem enlarge_none {k wanted : Nat} (hk : k ≤ 30) (htop : k = 30 ∨ 2 ^ 30 < wanted)
    (after : Nat → Option (Binary × Bool)) :
    ((int (2 ^ k * 2)).bind fun bufsize => (grow 32 bufsize wanted).bind after) = none := by
  have hint : 2 ^ k * 2 = 2 ^ (k + 1) := (Nat.pow_succ 2 k).symm
  by_cases hlast : k = 30
  · rw [hlast, int_none (by decide), Option.bind_none]
  · have hlt : 2 ^ (k + 1) < 2 ^ 31 := Nat.pow_lt_pow_right (by decide) (by omega)
    rw [hint, int_eq hlt, Option.bind_some,
      grow_pow_none (by omega) (htop.resolve_left hlast), Option.bind_none]

/-- A call that ends keeps the shape and answers as it should. -/
def Answered (need : Nat) (result : Option (Binary × Bool)) : Prop :=
  ∃ next answer, result = some (next, answer) ∧ Shaped next ∧
    (answer = true → need ≤ next.getFreeLen)

private theorem answered_larger {j need len : Nat} (neu : ByteStore) (hj : 8 ≤ j) (hj30 : j ≤ 30)
    (hroom : need + len ≤ 2 ^ j) :
    Answered need (some (⟨some neu, 2 ^ j, 0, len⟩, true)) := by
  refine ⟨⟨some neu, 2 ^ j, 0, len⟩, true, rfl, ?_, ?_⟩
  · exact fun _ => ⟨Nat.zero_le _, by dsimp only; omega, j, hj, hj30, rfl⟩
  · intro _
    unfold getFreeLen
    dsimp only
    omega

private theorem answered_same (hshaped : Shaped b) : Answered need (some (b, false)) :=
  ⟨b, false, rfl, hshaped, fun h => Bool.noConfusion h⟩

private theorem ensure_first (hstart : b.start = none) :
    (need ≤ 2 ^ 30 → Answered need (b.ensure need malloc)) ∧
      (¬ need ≤ 2 ^ 30 → b.ensure need malloc = none) := by
  have hshaped : Shaped b := by
    intro hsome
    rw [hstart] at hsome
    exact Bool.noConfusion hsome
  constructor
  · intro hneed
    obtain ⟨j, hgrow, hle, hj, hreach⟩ := @grow_pow 32 8 need (by decide) (by decide) hneed
    change grow 32 256 need = some (2 ^ j) at hgrow
    unfold ensure
    cases malloc with
    | none =>
      simp only [hstart, hgrow, Option.bind_eq_bind, Option.bind_some]
      exact answered_same hshaped
    | some block =>
      simp only [hstart, hgrow, Option.bind_eq_bind, Option.bind_some]
      exact answered_larger block hle hj hreach
  · intro hmore
    have hgrow : grow 32 256 need = none :=
      @grow_pow_none 32 8 need (by decide) (Nat.lt_of_not_le hmore)
    unfold ensure
    simp only [hstart, hgrow, Option.bind_eq_bind, Option.bind_none]

private theorem sizes_some (hordered : Ordered b.end_ b.data b.free) :
    int (b.end_ - b.free + b.data) = some b.idle ∧
      int (b.free - b.data) = some b.getDataLen := by
  have hdata := hordered.data_le_free
  have hfree := hordered.free_le_end
  exact ⟨int_eq (hordered.int_lt (by omega)), int_eq (hordered.int_lt (by omega))⟩

/-- The content in a larger block, if there is memory for it. -/
def exchange (b : Binary) (block : ByteStore) (malloc : Option ByteStore) (bufsize : Nat) :
    Option (Binary × Bool) :=
  malloc.elim (some (b, false)) fun neu =>
    some (⟨some (neu.write 0 (block.read b.data b.getDataLen)), bufsize, 0, b.getDataLen⟩, true)

/-- Too little is idle: less than what is asked for, or than a fifth. -/
def Crowded (b : Binary) (need : Nat) : Prop :=
  b.idle < need ∨ need ≤ b.idle ∧ b.idle < 2 ^ 29 ∧ b.idle * 4 < b.getDataLen

private theorem ensure_crowded {block : ByteStore} (hstart : b.start = some block)
    (hordered : Ordered b.end_ b.data b.free) (hshort : b.end_ < b.free + need)
    (hcrowded : Crowded b need) :
    b.ensure need malloc = (int (b.end_ * 2)).bind fun bufsize =>
      (grow 32 bufsize (need + b.getDataLen)).bind (b.exchange block malloc) := by
  obtain ⟨hflen, hdlen⟩ := sizes_some hordered
  unfold ensure
  simp only [hstart, if_pos hshort, hflen, hdlen, Option.bind_eq_bind, Option.bind_some]
  cases hcrowded with
  | inl hless =>
    rw [if_pos hless]
    cases malloc <;> rfl
  | inr hfull =>
    obtain ⟨hroom, hsmall, hfifth⟩ := hfull
    have hfour : int (b.idle * 4) = some (b.idle * 4) := int_eq (by omega)
    rw [if_neg (Nat.not_lt.mpr hroom), hfour]
    simp only [Option.map_some, Option.bind_some, decide_eq_true hfifth, if_true]
    cases malloc <;> rfl

private theorem ensure_larger {block : ByteStore} (hstart : b.start = some block)
    (hordered : Ordered b.end_ b.data b.free) (hshort : b.end_ < b.free + need)
    (hcrowded : Crowded b need) (hend29 : b.end_ ≤ 2 ^ 29)
    (hwanted : need + b.getDataLen ≤ 2 ^ 30) : Answered need (b.ensure need malloc) := by
  obtain ⟨k, hk, hk30, hend⟩ := hordered.power
  have hless : k ≤ 29 := by
    by_contra hgt
    have htop : k = 30 := by omega
    rw [hend, htop] at hend29
    omega
  obtain ⟨j, hj, hj30, hreach, hafter⟩ :=
    enlarge_some hk hless hwanted (b.exchange block malloc)
  rw [ensure_crowded hstart hordered hshort hcrowded, hend, hafter]
  cases malloc with
  | none => exact answered_same fun _ => hordered
  | some neu => exact answered_larger _ hj hj30 hreach

private theorem ensure_too_large {block : ByteStore} (hstart : b.start = some block)
    (hordered : Ordered b.end_ b.data b.free) (hshort : b.end_ < b.free + need)
    (hcrowded : Crowded b need)
    (hbeyond : ¬ b.end_ ≤ 2 ^ 29 ∨ ¬ need + b.getDataLen ≤ 2 ^ 30) :
    b.ensure need malloc = none := by
  obtain ⟨k, hk, hk30, hend⟩ := hordered.power
  have htop : k = 30 ∨ 2 ^ 30 < need + b.getDataLen := by
    refine hbeyond.imp (fun hgt => ?_) Nat.lt_of_not_le
    by_contra hne
    exact hgt (hend ▸ Nat.pow_le_pow_right (by decide) (by omega))
  rw [ensure_crowded hstart hordered hshort hcrowded, hend]
  exact enlarge_none hk30 htop _

private theorem ensure_moved {block : ByteStore} (hstart : b.start = some block)
    (hordered : Ordered b.end_ b.data b.free) (hshort : b.end_ < b.free + need)
    (hroom : need ≤ b.idle) (hsmall : b.idle < 2 ^ 29) (hloose : ¬ b.idle * 4 < b.getDataLen) :
    Answered need (b.ensure need malloc) := by
  obtain ⟨hflen, hdlen⟩ := sizes_some hordered
  have hdata := hordered.data_le_free
  have hfree := hordered.free_le_end
  have hfour : int (b.idle * 4) = some (b.idle * 4) := int_eq (by omega)
  unfold ensure
  simp only [hstart, if_pos hshort, hflen, hdlen, Option.bind_eq_bind, Option.bind_some,
    if_neg (Nat.not_lt.mpr hroom), hfour, Option.map_some, decide_eq_false hloose,
    Bool.false_eq_true, if_false]
  refine ⟨_, true, rfl, fun _ => ⟨Nat.zero_le _, ?_, hordered.power⟩, fun _ => ?_⟩
  · unfold getDataLen
    dsimp only
    omega
  · unfold idle at hroom
    unfold getFreeLen getDataLen
    dsimp only
    omega

private theorem ensure_overflows {block : ByteStore} (hstart : b.start = some block)
    (hordered : Ordered b.end_ b.data b.free) (hshort : b.end_ < b.free + need)
    (hroom : need ≤ b.idle) (hlarge : ¬ b.idle < 2 ^ 29) : b.ensure need malloc = none := by
  obtain ⟨hflen, hdlen⟩ := sizes_some hordered
  have hfour : int (b.idle * 4) = none := int_none (by omega)
  unfold ensure
  simp only [hstart, if_pos hshort, hflen, hdlen, Option.bind_eq_bind, Option.bind_some,
    if_neg (Nat.not_lt.mpr hroom), hfour, Option.map_none, Option.bind_none]

private theorem ensure_enough {block : ByteStore} (hstart : b.start = some block)
    (hordered : Ordered b.end_ b.data b.free) (henough : b.free + need ≤ b.end_) :
    Answered need (b.ensure need malloc) := by
  unfold ensure
  simp only [hstart, if_neg (Nat.not_lt.mpr henough)]
  refine ⟨b, true, rfl, fun _ => hordered, fun _ => ?_⟩
  unfold getFreeLen
  omega

private theorem ensure_spec (hshaped : Shaped b) :
    (Within b need → Answered need (b.ensure need malloc)) ∧
      (¬ Within b need → b.ensure need malloc = none) := by
  cases hstart : b.start with
  | none =>
    unfold Within
    simp only [hstart]
    exact ensure_first hstart
  | some block =>
    have hordered := hshaped (by rw [hstart]; rfl)
    have hdata := hordered.data_le_free
    have hfree := hordered.free_le_end
    have hparts : b.idle + b.getDataLen = b.end_ := by
      unfold idle getDataLen
      omega
    unfold Within
    simp only [hstart]
    by_cases henough : b.free + need ≤ b.end_
    · exact ⟨fun _ => ensure_enough hstart hordered henough,
        fun hnot => absurd (.inl henough) hnot⟩
    have hshort := Nat.lt_of_not_le henough
    by_cases hless : b.idle < need
    · refine ⟨fun hwithin => ?_, fun hnot => ?_⟩
      · have hwanted : need + b.getDataLen ≤ 2 ^ 30 := by omega
        exact ensure_larger hstart hordered hshort (.inl hless) (hordered.half (by omega)) hwanted
      · exact ensure_too_large hstart hordered hshort (.inl hless) (.inr (by omega))
    have hroom := Nat.le_of_not_lt hless
    by_cases hsmall : b.idle < 2 ^ 29
    · by_cases hfifth : b.idle * 4 < b.getDataLen
      · have hcrowded : Crowded b need := .inr ⟨hroom, hsmall, hfifth⟩
        refine ⟨fun hwithin => ?_, fun hnot => ?_⟩
        · have hend29 : b.end_ ≤ 2 ^ 29 := by omega
          exact ensure_larger hstart hordered hshort hcrowded hend29 (by omega)
        · exact ensure_too_large hstart hordered hshort hcrowded (.inl (by omega))
      · exact ⟨fun _ => ensure_moved hstart hordered hshort hroom hsmall hfifth,
          fun hnot => absurd (.inr (.inr ⟨hroom, hsmall, fun h => absurd h hfifth⟩)) hnot⟩
    · exact ⟨fun hwithin => by omega,
        fun _ => ensure_overflows hstart hordered hshort hroom hsmall⟩

theorem Shaped.clear (hshaped : Shaped b) : Shaped b.clear := fun hsome =>
  ⟨le_refl 0, Nat.zero_le _, (hshaped hsome).power⟩

theorem Shaped.drain (hshaped : Shaped b) (len : Nat) : Shaped (b.drain len) := by
  unfold Binary.drain
  dsimp only
  split_ifs with hall
  · exact fun hsome => ⟨le_refl 0, Nat.zero_le _, (hshaped hsome).power⟩
  · exact fun hsome => ⟨Nat.le_of_not_le hall, (hshaped hsome).free_le_end, (hshaped hsome).power⟩

theorem Shaped.strip (hshaped : Shaped b) (len : Nat) : Shaped (b.strip len).1 := by
  unfold Binary.strip
  split_ifs with hthere
  · intro hsome
    have hordered := hshaped hsome
    have hfree := hordered.free_le_end
    exact ⟨by dsimp only; omega, by dsimp only; omega, hordered.power⟩
  · exact hshaped

theorem Shaped.pour (hshaped : Shaped b) (bytes : List UInt8) :
    Shaped ((b.fill bytes).pour bytes.length).1 := by
  unfold fill Binary.pour
  by_cases hroom : b.free + bytes.length ≤ b.end_
  · simp only [if_pos hroom]
    intro hsome
    have hordered := hshaped (by simpa using hsome)
    have hdata := hordered.data_le_free
    exact ⟨by dsimp only; omega, hroom, hordered.power⟩
  · simp only [if_neg hroom]
    exact hshaped

theorem Shaped.shrink {next : Binary} (hshaped : Shaped b)
    (hshrink : b.shrink malloc = some next) : Shaped next := by
  cases hstart : b.start with
  | none =>
    unfold Binary.shrink at hshrink
    simp only [hstart] at hshrink
    exact Option.some.inj hshrink ▸ hshaped
  | some block =>
    unfold Binary.shrink at hshrink
    simp only [hstart] at hshrink
    by_cases hkeep : b.end_ ≤ maxSize ∨ b.free - b.data > maxSize
    · rw [if_pos hkeep] at hshrink
      exact Option.some.inj hshrink ▸ hshaped
    · rw [if_neg hkeep] at hshrink
      cases malloc with
      | none =>
        by_cases hcontent : b.free - b.data > 0
        · simp only [if_pos hcontent, reduceCtorEq] at hshrink
        · simp only [if_neg hcontent] at hshrink
          exact Option.some.inj hshrink ▸ fun hsome => Bool.noConfusion hsome
      | some newbuf =>
        have hsmall := (not_or.mp hkeep).2
        refine Option.some.inj hshrink ▸ fun _ => ⟨Nat.zero_le _, ?_, 11, ?_⟩
        · exact Nat.le_of_not_lt hsmall
        · exact ⟨by decide, by decide, rfl⟩

theorem Shaped.perform {call : BinaryCall} {next : Binary} (hshaped : Shaped b)
    (hperform : b.perform call = some next) : Shaped next := by
  cases call with
  | ensure need malloc =>
    change (b.ensure need malloc).map (·.1) = some next at hperform
    by_cases hwithin : Within b need
    · obtain ⟨other, answer, hensure, hother, -⟩ :=
        (@ensure_spec b need malloc hshaped).1 hwithin
      rw [hensure] at hperform
      exact Option.some.inj hperform ▸ hother
    · rw [(ensure_spec hshaped).2 hwithin] at hperform
      exact absurd hperform.symm (Option.some_ne_none next)
  | pour bytes => exact Option.some.inj hperform ▸ hshaped.pour bytes
  | drain len => exact Option.some.inj hperform ▸ hshaped.drain len
  | strip len => exact Option.some.inj hperform ▸ hshaped.strip len
  | shrink malloc =>
    change ((b.shrink malloc).map (·, true)).map (·.1) = some next at hperform
    rw [Option.map_map] at hperform
    obtain ⟨other, hshrink, rfl⟩ := Option.map_eq_some_iff.mp hperform
    exact hshaped.shrink hshrink
  | clear => exact Option.some.inj hperform ▸ hshaped.clear

/-- In every buffer that a run leaves, `ensure` ends as it should exactly within the bounds. -/
theorem ensure_finishes_iff {calls : List BinaryCall} (hrun : run perform create calls = some b)
    (need : Int) (malloc : Option ByteStore) :
    Ensures b need malloc ↔ Within b need.toNat := by
  have hcreate : Shaped create := fun hsome => Bool.noConfusion hsome
  have hshaped : Shaped b :=
    run_invariant (fun _ _ _ hshaped hperform => hshaped.perform hperform) hcreate hrun
  constructor
  · rintro ⟨next, answer, hensure, -⟩
    by_contra hnot
    rw [ensureInt, (ensure_spec hshaped).2 hnot] at hensure
    exact absurd hensure.symm (Option.some_ne_none _)
  · intro hwithin
    obtain ⟨next, answer, hensure, -, hroom⟩ := (ensure_spec hshaped).1 hwithin
    exact ⟨next, answer, hensure, fun htrue => Int.toNat_le.mp (hroom htrue)⟩

theorem ensure_finishes_after_three :
    ∃ b, run perform create [.ensure 3 (some fun _ => 0), .pour [1, 2, 3]] = some b ∧
      (Ensures b 300 none ↔ Within b 300) :=
  ⟨_, rfl, @ensure_finishes_iff _ [.ensure 3 (some fun _ => 0), .pour [1, 2, 3]] rfl 300 none⟩

/-- A buffer without a block does not survive a request of more than `2 ^ 30`. -/
theorem ensure_large_fails : ¬ Ensures create (2 ^ 30 + 1) none := by
  rintro ⟨next, answer, hensure, -⟩
  rw [ensureInt, (ensure_first rfl).2 (by decide)] at hensure
  exact absurd hensure.symm (Option.some_ne_none _)

end Libsax.Net.Binary
