import Mathlib.Algebra.Ring.Nat
import Mathlib.Order.Lattice

/-! The binary searches of `bsearch.h`: unsigned bounds of a closed interval. -/
namespace Libsax.Container.BinarySearch

variable {T : Type*} [LinearOrder T]

/-- An array with a length of type `size_t`. -/
structure Arr (T : Type*) where
  elements : List T
  fits : elements.length < 2 ^ 64

def Arr.len (arr : Arr T) : UInt64 := UInt64.ofNat arr.elements.length

/-- How the loop of a search ends: at a match, with crossed bounds, or with a read outside. -/
inductive LoopEnd where
  | found (mid : UInt64)
  | crossed (low : UInt64)
  | outside
  | unfinished

/-- The loop; `read` is the element at a position, if there is one. -/
def searchLoop (read : UInt64 → Option T) (x : T) : Nat → UInt64 → UInt64 → LoopEnd
  | 0, _, _ => .unfinished
  | fuel + 1, low, high =>
    if low ≤ high then
      let mid := low + (high - low) / 2
      match read mid with
      | none => .outside
      | some element =>
        if element = x then .found mid
        else if element < x then searchLoop read x fuel (mid + 1) high
        else searchLoop read x fuel low (mid - 1)
    else .crossed low

def Arr.read (arr : Arr T) (i : UInt64) : Option T := arr.elements[i.toNat]?

def readNamed (arr : List T) (stride : UInt64) (ID : Arr UInt64) (i : UInt64) : Option T :=
  (ID.read i).bind fun id => arr[(id * stride).toNat]?

def LoopEnd.returns (missed : UInt64 → UInt64) : LoopEnd → Option UInt64
  | .found mid => some mid
  | .crossed low => some (missed low)
  | .outside => none
  | .unfinished => none

def bsearch (fuel : Nat) (arr : Arr T) (x : T) : Option UInt64 :=
  (searchLoop arr.read x fuel 0 (arr.len - 1)).returns fun _ => -1

def binarySearch (fuel : Nat) (arr : Arr T) (x : T) : Option UInt64 :=
  (searchLoop arr.read x fuel 0 (arr.len - 1)).returns id

/-- `BinarySearch` with a `stride` and `ID[]`; `len` is the length of `ID[]`. -/
def binarySearchNamed (fuel : Nat) (arr : List T) (stride : UInt64) (ID : Arr UInt64)
    (x : T) : Option UInt64 :=
  (searchLoop (readNamed arr stride ID) x fuel 0 (ID.len - 1)).returns id

structure Increasing (read : UInt64 → Option T) (len : UInt64) : Prop where
  inside : ∀ i, i < len ↔ ∃ element, read i = some element
  ordered : ∀ i j a b, i ≤ j → read i = some a → read j = some b → a ≤ b

/-- There is a first element, and it is not above `x`. -/
def FirstLe (read : UInt64 → Option T) (x : T) : Prop :=
  ∃ first, read 0 = some first ∧ first ≤ x

def smaller (read : UInt64 → Option T) (len : UInt64) (x : T) : Nat :=
  (List.range len.toNat).countP fun i => (read (UInt64.ofNat i)).any (· < x)

/-- A search returns: a position of `x` if there is one, and `missed` otherwise. -/
def Finds (search : Nat → Option UInt64) (read : UInt64 → Option T) (x : T)
    (missed : UInt64 → Prop) : Prop :=
  ∃ fuel answer, search fuel = some answer ∧
    (read answer = some x ∨ (∀ i, read i ≠ some x) ∧ missed answer)

/-- A position that cuts the sequence at `x`. -/
structure Cuts (read : UInt64 → Option T) (x : T) (len low : UInt64) : Prop where
  inside : low ≤ len
  below : ∀ i element, i < low → read i = some element → element < x
  above : ∀ i element, low ≤ i → read i = some element → x < element

variable {read : UInt64 → Option T} {len : UInt64} {x : T} {low high : UInt64}

/-- The bounds between two rounds: what is left out on either side is not `x`. -/
structure Between (read : UInt64 → Option T) (x : T) (len low high : UInt64) : Prop where
  inside : high < len
  near : low.toNat ≤ high.toNat + 1
  below : ∀ i element, i < low → read i = some element → element < x
  above : ∀ i element, high < i → read i = some element → x < element

private theorem mid_toNat (hle : low ≤ high) :
    (low + (high - low) / 2).toNat = low.toNat + (high.toNat - low.toNat) / 2 := by
  have hnat := UInt64.le_iff_toNat_le.mp hle
  have hhigh := high.toNat_lt
  have hhalf : ((high - low) / 2).toNat = (high.toNat - low.toNat) / 2 := by
    rw [UInt64.toNat_div, UInt64.toNat_sub_of_le _ _ hle]
    rfl
  rw [UInt64.toNat_add, hhalf]
  exact Nat.mod_eq_of_lt (by omega)

theorem Between.raise (hseq : Increasing read len) (hbetween : Between read x len low high)
    {mid : UInt64} (hmid : mid ≤ high) {element : T} (hread : read mid = some element)
    (hsmall : element < x) :
    (mid + 1).toNat = mid.toNat + 1 ∧ Between read x len (mid + 1) high := by
  have hhigh := UInt64.lt_iff_toNat_lt.mp hbetween.inside
  have hlen := len.toNat_lt
  have hle := UInt64.le_iff_toNat_le.mp hmid
  have hnext : (mid + 1).toNat = mid.toNat + 1 := by
    rw [UInt64.toNat_add]
    exact Nat.mod_eq_of_lt (show mid.toNat + 1 < 2 ^ 64 by omega)
  refine ⟨hnext, hbetween.inside, by omega, ?_, hbetween.above⟩
  intro i other hi hother
  have hlt := UInt64.lt_iff_toNat_lt.mp hi
  have hi' : i ≤ mid := UInt64.le_iff_toNat_le.mpr (by omega)
  exact (hseq.ordered i mid other element hi' hother hread).trans_lt hsmall

theorem Between.lower (hseq : Increasing read len) (hfirst : FirstLe read x)
    (hbetween : Between read x len low high) {mid : UInt64} (hlow : low ≤ mid)
    (hmid : mid ≤ high) {element : T} (hread : read mid = some element)
    (hlarge : x < element) :
    (mid - 1).toNat + 1 = mid.toNat ∧ Between read x len low (mid - 1) := by
  obtain ⟨first, hzero, hle⟩ := hfirst
  have hne : mid ≠ 0 := by
    intro hmid0
    rw [hmid0, hzero] at hread
    exact absurd (Option.some.inj hread ▸ hlarge) (not_lt.mpr hle)
  have hpos : 1 ≤ mid.toNat := by
    have hnat : mid.toNat ≠ 0 := fun h => hne (UInt64.toNat_inj.mp h)
    omega
  have hprev : (mid - 1).toNat = mid.toNat - 1 :=
    UInt64.toNat_sub_of_le _ _ (UInt64.le_iff_toNat_le.mpr hpos)
  have hhigh := UInt64.lt_iff_toNat_lt.mp hbetween.inside
  have hmid' := UInt64.le_iff_toNat_le.mp hmid
  have hlow' := UInt64.le_iff_toNat_le.mp hlow
  refine ⟨by omega, UInt64.lt_iff_toNat_lt.mpr (by omega), by omega, hbetween.below, ?_⟩
  intro i other hi hother
  have hlt := UInt64.lt_iff_toNat_lt.mp hi
  have hi' : mid ≤ i := UInt64.le_iff_toNat_le.mpr (by omega)
  exact hlarge.trans_le (hseq.ordered mid i element other hi' hread hother)

/-- Where the first element is not above `x`, the loop ends at `x` or at the cut. -/
private theorem searchLoop_spec (hseq : Increasing read len) (hfirst : FirstLe read x) {fuel : Nat}
    (hfuel : high.toNat + 1 - low.toNat < fuel) (hbetween : Between read x len low high) :
    (∃ mid, searchLoop read x fuel low high = .found mid ∧ read mid = some x) ∨
      ∃ cut, searchLoop read x fuel low high = .crossed cut ∧ Cuts read x len cut := by
  induction fuel generalizing low high with
  | zero => exact absurd hfuel (Nat.not_lt_zero _)
  | succ fuel ih =>
    rw [searchLoop]
    by_cases hle : low ≤ high
    · have hnat := UInt64.le_iff_toNat_le.mp hle
      have hmid := mid_toNat hle
      have hmidLow : low ≤ low + (high - low) / 2 := UInt64.le_iff_toNat_le.mpr (by omega)
      have hmidHigh : low + (high - low) / 2 ≤ high := UInt64.le_iff_toNat_le.mpr (by omega)
      have hhigh := UInt64.lt_iff_toNat_lt.mp hbetween.inside
      obtain ⟨element, hread⟩ := (hseq.inside (low + (high - low) / 2)).mp
        (UInt64.lt_iff_toNat_lt.mpr (by omega))
      rw [if_pos hle]
      simp only [hread]
      split_ifs with heq hsmall
      · exact .inl ⟨_, rfl, heq ▸ hread⟩
      · obtain ⟨hnext, hafter⟩ := hbetween.raise hseq hmidHigh hread hsmall
        exact ih (by omega) hafter
      · have hlarge : x < element := lt_of_le_of_ne (not_lt.mp hsmall) (Ne.symm heq)
        obtain ⟨hprev, hafter⟩ := hbetween.lower hseq hfirst hmidLow hmidHigh hread hlarge
        exact ih (by omega) hafter
    · rw [if_neg hle]
      have hcrossed : high < low := UInt64.not_le.mp hle
      have hnear := hbetween.near
      have hhigh := UInt64.lt_iff_toNat_lt.mp hbetween.inside
      refine .inr ⟨low, rfl, UInt64.le_iff_toNat_le.mpr (by omega), hbetween.below, ?_⟩
      exact fun i element hi => hbetween.above i element (UInt64.lt_of_lt_of_le hcrossed hi)

/-- Where every element is above `x`, the lower bound stays at 0: the loop ends with a read
outside, if at all. -/
private theorem searchLoop_below (hbelow : ∀ i element, read i = some element → x < element)
    (fuel : Nat) (high : UInt64) :
    searchLoop read x fuel 0 high = .outside ∨ searchLoop read x fuel 0 high = .unfinished := by
  induction fuel generalizing high with
  | zero => exact .inr rfl
  | succ fuel ih =>
    rw [searchLoop, if_pos (UInt64.le_iff_toNat_le.mpr (Nat.zero_le _))]
    cases hread : read (0 + (high - 0) / 2) with
    | none => exact .inl (by simp only [hread])
    | some element =>
      have hlarge := hbelow _ element hread
      simp only [hread, if_neg (ne_of_gt hlarge), if_neg (not_lt_of_gt hlarge)]
      exact ih _

theorem Cuts.smaller_eq {cut : UInt64} (hseq : Increasing read len)
    (hcut : Cuts read x len cut) : cut.toNat = smaller read len x := by
  have hle := UInt64.le_iff_toNat_le.mp hcut.inside
  have hlen := len.toNat_lt
  have hsplit : len.toNat = cut.toNat + (len.toNat - cut.toNat) := by omega
  have hbelow : (List.range cut.toNat).countP
      (fun i => (read (UInt64.ofNat i)).any (· < x)) = cut.toNat := by
    rw [List.countP_eq_length.mpr, List.length_range]
    intro i hi
    have hlt := List.mem_range.mp hi
    have hat : (UInt64.ofNat i).toNat = i := Nat.mod_eq_of_lt (by omega)
    obtain ⟨element, hread⟩ := (hseq.inside (UInt64.ofNat i)).mp
      (UInt64.lt_iff_toNat_lt.mpr (by omega))
    have hsmall := hcut.below _ element (UInt64.lt_iff_toNat_lt.mpr (by omega)) hread
    rw [hread, Option.any_some]
    exact decide_eq_true hsmall
  have habove : ((List.range (len.toNat - cut.toNat)).map (cut.toNat + ·)).countP
      (fun i => (read (UInt64.ofNat i)).any (· < x)) = 0 := by
    rw [List.countP_eq_zero]
    intro i hi
    obtain ⟨j, hj, rfl⟩ := List.mem_map.mp hi
    have hlt := List.mem_range.mp hj
    have hat : (UInt64.ofNat (cut.toNat + j)).toNat = cut.toNat + j :=
      Nat.mod_eq_of_lt (by omega)
    obtain ⟨element, hread⟩ := (hseq.inside (UInt64.ofNat (cut.toNat + j))).mp
      (UInt64.lt_iff_toNat_lt.mpr (by omega))
    have hlarge := hcut.above _ element (UInt64.le_iff_toNat_le.mpr (by omega)) hread
    rw [hread, Option.any_some, decide_eq_true_eq]
    exact not_lt_of_gt hlarge
  rw [smaller, hsplit, List.range_add, List.countP_append, hbelow, habove, Nat.add_zero]

theorem Cuts.absent {cut : UInt64} (hcut : Cuts read x len cut) (i : UInt64) :
    read i ≠ some x := by
  intro hread
  by_cases hi : i < cut
  · exact lt_irrefl x (hcut.below i x hi hread)
  · exact lt_irrefl x (hcut.above i x (UInt64.not_lt.mp hi) hread)

private theorem between_start (hseq : Increasing read len) (hfirst : FirstLe read x) :
    Between read x len 0 (len - 1) := by
  obtain ⟨first, hzero, -⟩ := hfirst
  have hpos := UInt64.lt_iff_toNat_lt.mp ((hseq.inside 0).mpr ⟨first, hzero⟩)
  have hlast : (len - 1).toNat = len.toNat - 1 :=
    UInt64.toNat_sub_of_le _ _ (UInt64.le_iff_toNat_le.mpr hpos)
  refine ⟨UInt64.lt_iff_toNat_lt.mpr (by omega), Nat.zero_le _, ?_, ?_⟩
  · intro i element hi
    exact absurd (UInt64.lt_iff_toNat_lt.mp hi) (Nat.not_lt_zero _)
  · intro i element hi hread
    have hlt := UInt64.lt_iff_toNat_lt.mp hi
    have hinside := UInt64.lt_iff_toNat_lt.mp ((hseq.inside i).mpr ⟨element, hread⟩)
    omega

/-- Where there is no first element that is not above `x`, there is no element at all that
is not above it. -/
private theorem below_of_not_firstLe (hseq : Increasing read len) (hnot : ¬ FirstLe read x)
    (i : UInt64) (element : T) (hread : read i = some element) : x < element := by
  have hinside := UInt64.lt_iff_toNat_lt.mp ((hseq.inside i).mpr ⟨element, hread⟩)
  obtain ⟨first, hzero⟩ := (hseq.inside 0).mp
    (UInt64.lt_iff_toNat_lt.mpr (Nat.lt_of_le_of_lt (Nat.zero_le _) hinside))
  have hfirst : x < first := by
    by_contra hle
    exact hnot ⟨first, hzero, not_lt.mp hle⟩
  exact hfirst.trans_le (hseq.ordered 0 i first element
    (UInt64.le_iff_toNat_le.mpr (Nat.zero_le _)) hzero hread)

/-- A search finds what it should exactly where the first element is not above `x`. -/
theorem finds_iff (hseq : Increasing read len) (missed : UInt64 → UInt64)
    (expected : UInt64 → Prop) (hmissed : ∀ cut, Cuts read x len cut → expected (missed cut)) :
    Finds (fun fuel => (searchLoop read x fuel 0 (len - 1)).returns missed) read x expected ↔
      FirstLe read x := by
  constructor
  · rintro ⟨fuel, answer, hreturns, -⟩
    by_contra hnot
    cases searchLoop_below (below_of_not_firstLe hseq hnot) fuel (len - 1) with
    | inl houtside => simp [houtside, LoopEnd.returns] at hreturns
    | inr hunfinished => simp [hunfinished, LoopEnd.returns] at hreturns
  · intro hfirst
    cases searchLoop_spec hseq hfirst (Nat.lt_succ_self _) (between_start hseq hfirst) with
    | inl hfound =>
      obtain ⟨mid, hloop, hread⟩ := hfound
      exact ⟨_, mid, congrArg (LoopEnd.returns missed) hloop, .inl hread⟩
    | inr hcrossed =>
      obtain ⟨cut, hloop, hcut⟩ := hcrossed
      exact ⟨_, missed cut, congrArg (LoopEnd.returns missed) hloop,
        .inr ⟨hcut.absent, hmissed cut hcut⟩⟩

private theorem increasing_read {arr : Arr T} (hsorted : arr.elements.Pairwise (· ≤ ·)) :
    Increasing arr.read arr.len := by
  have hlen : arr.len.toNat = arr.elements.length := Nat.mod_eq_of_lt arr.fits
  refine ⟨?_, ?_⟩
  · intro i
    rw [UInt64.lt_iff_toNat_lt, hlen, Arr.read]
    exact ⟨fun hi => ⟨_, List.getElem?_eq_getElem hi⟩,
      fun ⟨_, hread⟩ => (List.getElem?_eq_some_iff.mp hread).1⟩
  · intro i j a b hij ha hb
    obtain ⟨hi, rfl⟩ := List.getElem?_eq_some_iff.mp ha
    obtain ⟨hj, rfl⟩ := List.getElem?_eq_some_iff.mp hb
    rcases Nat.lt_or_eq_of_le (UInt64.le_iff_toNat_le.mp hij) with hlt | heq
    · exact List.pairwise_iff_getElem.mp hsorted _ _ hi hj hlt
    · simp only [heq, le_refl]

/-- Each of the searches is right exactly where the array has a first element and `x` is
not smaller. -/
theorem searches_find_iff (x : T) :
    (∀ arr : Arr T, arr.elements.Pairwise (· ≤ ·) →
      (Finds (bsearch · arr x) arr.read x (· = -1) ↔ FirstLe arr.read x) ∧
      (Finds (binarySearch · arr x) arr.read x (·.toNat = smaller arr.read arr.len x) ↔
        FirstLe arr.read x)) ∧
    ∀ (arr : List T) (stride : UInt64) (ID : Arr UInt64),
      Increasing (readNamed arr stride ID) ID.len →
      (Finds (binarySearchNamed · arr stride ID x) (readNamed arr stride ID) x
          (·.toNat = smaller (readNamed arr stride ID) ID.len x) ↔
        FirstLe (readNamed arr stride ID) x) := by
  constructor
  · intro arr hsorted
    have hseq := increasing_read hsorted
    exact ⟨finds_iff hseq _ _ fun _ _ => rfl,
      finds_iff hseq id _ fun _ hcut => hcut.smaller_eq hseq⟩
  · intro arr stride ID hseq
    exact finds_iff hseq id _ fun _ hcut => hcut.smaller_eq hseq

def threeFive : Arr Nat := ⟨[3, 5], by decide⟩

def zeroOne : Arr UInt64 := ⟨[0, 1], by decide⟩

private theorem readNamed_zeroOne : readNamed [3, 5] 1 zeroOne = threeFive.read := by
  funext i
  rw [readNamed, Arr.read, Arr.read, zeroOne, threeFive]
  rcases hi : i.toNat with _ | _ | n
  · rfl
  · rfl
  · rfl

/-- 5 is found in 3, 5 by all three searches. -/
theorem searches_find_five :
    Finds (bsearch · threeFive 5) threeFive.read 5 (· = -1) ∧
    Finds (binarySearch · threeFive 5) threeFive.read 5
      (·.toNat = smaller threeFive.read threeFive.len 5) ∧
    Finds (binarySearchNamed · [3, 5] 1 zeroOne 5) (readNamed [3, 5] 1 zeroOne) 5
      (·.toNat = smaller (readNamed [3, 5] 1 zeroOne) zeroOne.len 5) := by
  have hsorted : threeFive.elements.Pairwise (· ≤ ·) := by decide
  have hfirst : FirstLe threeFive.read 5 := ⟨3, rfl, by decide⟩
  have hplain := (searches_find_iff 5).1 threeFive hsorted
  have hseq : Increasing (readNamed [3, 5] 1 zeroOne) zeroOne.len :=
    readNamed_zeroOne ▸ increasing_read hsorted
  have hnamed := (searches_find_iff 5).2 [3, 5] 1 zeroOne hseq
  exact ⟨hplain.1.mpr hfirst, hplain.2.mpr hfirst, hnamed.mpr (readNamed_zeroOne ▸ hfirst)⟩

/-- Below the first element of 3, 5 the upper bound wraps: nothing is ever returned. -/
theorem bsearch_below_first : ¬ Finds (bsearch · threeFive 1) threeFive.read 1 (· = -1) := by
  have hsorted : threeFive.elements.Pairwise (· ≤ ·) := by decide
  intro hfinds
  obtain ⟨first, hzero, hle⟩ :=
    (finds_iff (increasing_read hsorted) (fun _ => -1) (· = -1) fun _ _ => rfl).mp hfinds
  obtain rfl : 3 = first := Option.some.inj hzero
  exact absurd hle (by decide)

end Libsax.Container.BinarySearch
