import Libsax.Lib.CString

/-! `split` at delimiters, and `join`. -/
namespace Libsax.Text.StrUtil

open Libsax.Lib

/-- The first position from `pos` on with a character of a kind. -/
def findFrom (kind : UInt8 → Bool) (str : List UInt8) (pos : Nat) : Option Nat :=
  ((str.drop pos).findIdx? kind).map (pos + ·)

def isDelim (delims : CString) (char : UInt8) : Bool := delims.chars.contains char

/-- `std::string::find_first_of`; `none` is `npos`. -/
def findFirstOf (str : List UInt8) (delims : CString) (pos : Nat) : Option Nat :=
  findFrom (isDelim delims) str pos

def findFirstNotOf (str : List UInt8) (delims : CString) (pos : Nat) : Option Nat :=
  findFrom (fun char => !isDelim delims char) str pos

/-- `std::string::substr`, from `first` up to `last` -/
def slice (str : List UInt8) (first last : Nat) : List UInt8 := (str.drop first).take (last - first)

/-- The loop of `split`, given up after `fuel` rounds. -/
def splitLoop (str : List UInt8) (delims : CString) :
    Nat → Nat → List (List UInt8) → Option (List (List UInt8))
  | 0, _, _ => none
  | fuel + 1, s, ret =>
    match findFirstNotOf str delims s with
    | none => some ret
    | some s =>
      match findFirstOf str delims s with
      | none => some (ret ++ [str.drop s])
      | some i => splitLoop str delims fuel (i + 1) (ret ++ [slice str s i])

/-- `split`. Every round but the last passes a delimiter. -/
def split (str : List UInt8) (delims : CString) : Option (List (List UInt8)) :=
  splitLoop str delims (str.length + 1) 0 []

def join (ss : List (List UInt8)) (sep : List UInt8) : List UInt8 :=
  match ss with
  | [] => []
  | first :: rest =>
    rest.foldl (fun ret sub =>
      let ret := if sep.length ≠ 0 then ret ++ sep else ret
      if sub.length ≠ 0 then ret ++ sub else ret) first

/-- Positions `first` to `last` of a string are a longest part without delimiters. -/
structure IsRun (delims : CString) (str : List UInt8) (first last : Nat) : Prop where
  nonempty : first < last
  inside : last ≤ str.length
  plain : ∀ i char, first ≤ i → i < last → str[i]? = some char → isDelim delims char = false
  before : first = 0 ∨ ∃ char, str[first - 1]? = some char ∧ isDelim delims char = true
  behind : last = str.length ∨ ∃ char, str[last]? = some char ∧ isDelim delims char = true

/-- The runs, each behind the one before it. -/
structure Runs (delims : CString) (str : List UInt8) (runs : List (Nat × Nat)) : Prop where
  ordered : runs.Pairwise fun run next => run.2 < next.1
  all : ∀ first last, (first, last) ∈ runs ↔ IsRun delims str first last

variable {kind : UInt8 → Bool} {delims : CString} {str done pass back : List UInt8}
  {pos i first last : Nat}

private theorem findFrom_none (hnone : findFrom kind str pos = none) {char : UInt8} (hle : pos ≤ i)
    (hchar : str[i]? = some char) : kind char = false := by
  have hidx := List.findIdx?_eq_none_iff.mp (Option.map_eq_none_iff.mp hnone)
  apply hidx
  apply List.mem_of_getElem? (i := i - pos)
  rw [List.getElem?_drop, Nat.add_sub_cancel' hle, hchar]

private theorem findFrom_some (hsome : findFrom kind str pos = some i) :
    pos ≤ i ∧ (∃ char, str[i]? = some char ∧ kind char = true) ∧
      ∀ j char, pos ≤ j → j < i → str[j]? = some char → kind char = false := by
  obtain ⟨k, hk, rfl⟩ := Option.map_eq_some_iff.mp hsome
  obtain ⟨hlt, hkind, hbefore⟩ := List.findIdx?_eq_some_iff_getElem.mp hk
  refine ⟨Nat.le_add_right _ _, ⟨(str.drop pos)[k], ?_, hkind⟩, ?_⟩
  · rw [← List.getElem?_drop, List.getElem?_eq_getElem hlt]
  · intro j char hle hj hchar
    have hother := hbefore (j - pos) (by omega)
    have hsame : (str.drop pos)[j - pos]? = some char := by
      rw [List.getElem?_drop, Nat.add_sub_cancel' hle, hchar]
    rw [List.getElem?_eq_getElem (by omega)] at hsame
    rw [Option.some.inj hsame] at hother
    exact Bool.not_eq_true _ ▸ hother

private theorem findFrom_pass {char : UInt8} (hpass : ∀ char ∈ pass, kind char = false)
    (hchar : kind char = true) :
    findFrom kind (done ++ (pass ++ char :: back)) done.length = some (done ++ pass).length := by
  have hidx : pass.findIdx? kind = none := List.findIdx?_eq_none_iff.mpr hpass
  rw [findFrom, List.drop_left, List.findIdx?_append, hidx, List.findIdx?_cons, if_pos hchar]
  simp

private theorem findFrom_end (hpass : ∀ char ∈ pass, kind char = false) :
    findFrom kind (done ++ pass) done.length = none := by
  have hidx : pass.findIdx? kind = none := List.findIdx?_eq_none_iff.mpr hpass
  rw [findFrom, List.drop_left, hidx, Option.map_none]

theorem IsRun.le (hrun : IsRun delims str first last) {char : UInt8} (hle : first ≤ i)
    (hchar : str[i]? = some char) (hdelim : isDelim delims char = true) : last ≤ i := by
  by_contra hlt
  have hplain := hrun.plain i char hle (Nat.lt_of_not_le hlt) hchar
  rw [hdelim] at hplain
  cases hplain

theorem IsRun.first_plain (hrun : IsRun delims str first last) {char : UInt8}
    (hchar : str[first]? = some char) : isDelim delims char = false :=
  hrun.plain first char (le_refl first) hrun.nonempty hchar

theorem IsRun.last_unique {other : Nat} (hrun : IsRun delims str first last)
    (hother : IsRun delims str first other) : last ≤ other := by
  rcases hother.behind with hend | ⟨char, hchar, hdelim⟩
  · rw [hend]
    exact hrun.inside
  · exact hrun.le (Nat.le_of_lt hother.nonempty) hchar hdelim

theorem IsRun.first_le {other stop : Nat} (hother : IsRun delims str other stop)
    (hrun : IsRun delims str first last) (hle : other ≤ last) : other ≤ first := by
  by_contra hlt
  have hlater : first < other := Nat.lt_of_not_le hlt
  rcases hother.before with hzero | ⟨char, hchar, hdelim⟩
  · omega
  · have hend := hrun.le (Nat.le_sub_one_of_lt hlater) hchar hdelim
    omega

/-- The runs that begin in front of a position. -/
structure Found (delims : CString) (str : List UInt8) (s : Nat) (runs : List (Nat × Nat)) :
    Prop where
  ordered : runs.Pairwise fun run next => run.2 < next.1
  all : ∀ first last, (first, last) ∈ runs ↔ IsRun delims str first last ∧ first < s

/-- A position that is the first one or behind a delimiter. -/
def AtStart (delims : CString) (str : List UInt8) (s : Nat) : Prop :=
  s = 0 ∨ ∃ char, str[s - 1]? = some char ∧ isDelim delims char = true

theorem Found.end_lt {s : Nat} {runs : List (Nat × Nat)} (hfound : Found delims str s runs)
    (hstart : AtStart delims str s) {run : Nat × Nat} (hrun : run ∈ runs) : run.2 < s := by
  obtain ⟨hisRun, hlt⟩ := (hfound.all run.1 run.2).mp hrun
  rcases hstart with rfl | ⟨char, hchar, hdelim⟩
  · exact absurd hlt (Nat.not_lt_zero _)
  · have hle := hisRun.le (Nat.le_sub_one_of_lt hlt) hchar hdelim
    omega

theorem Found.append {s next : Nat} {runs : List (Nat × Nat)} (hfound : Found delims str s runs)
    (hstart : AtStart delims str s) (hle : s ≤ first) (hrun : IsRun delims str first last)
    (hgap : ∀ i char, s ≤ i → i < first → str[i]? = some char → isDelim delims char = true)
    (hnext : first < next)
    (hlast : ∀ other stop, IsRun delims str other stop → other < next → other ≤ first) :
    Found delims str next (runs ++ [(first, last)]) := by
  refine ⟨?_, fun other stop => ?_⟩
  · rw [List.pairwise_append]
    refine ⟨hfound.ordered, List.pairwise_singleton _ _, fun run hmem next hnext => ?_⟩
    rw [List.mem_singleton.mp hnext]
    exact Nat.lt_of_lt_of_le (hfound.end_lt hstart hmem) hle
  · rw [List.mem_append, hfound.all, List.mem_singleton, Prod.mk.injEq]
    constructor
    · rintro (⟨hother, hlt⟩ | ⟨rfl, rfl⟩)
      · exact ⟨hother, by omega⟩
      · exact ⟨hrun, hnext⟩
    · rintro ⟨hother, hlt⟩
      by_cases hold : other < s
      · exact Or.inl ⟨hother, hold⟩
      · have hsame : other = first := by
          by_contra hne
          have hbetween : other < first := Nat.lt_of_le_of_ne (hlast other stop hother hlt) hne
          have hin : other < str.length := Nat.lt_of_lt_of_le hother.nonempty hother.inside
          have hdelim := hgap other _ (Nat.le_of_not_lt hold) hbetween
            (List.getElem?_eq_getElem hin)
          have hplain := hother.first_plain (List.getElem?_eq_getElem hin)
          rw [hdelim] at hplain
          cases hplain
        subst hsame
        exact Or.inr ⟨rfl, Nat.le_antisymm (hother.last_unique hrun) (hrun.last_unique hother)⟩

theorem Found.runs {s : Nat} {runs : List (Nat × Nat)} (hfound : Found delims str s runs)
    (hall : ∀ first last, IsRun delims str first last → first < s) : Runs delims str runs := by
  refine ⟨hfound.ordered, fun first last => ?_⟩
  rw [hfound.all]
  exact and_iff_left_of_imp (hall first last)

private theorem findFirstNotOf_none {s : Nat} (hnone : findFirstNotOf str delims s = none)
    {char : UInt8} (hle : s ≤ i) (hchar : str[i]? = some char) : isDelim delims char = true := by
  have hkind := findFrom_none hnone hle hchar
  rwa [Bool.not_eq_false'] at hkind

private theorem splitLoop_runs {fuel s : Nat} {runs : List (Nat × Nat)}
    (hfound : Found delims str s runs)
    (hstart : AtStart delims str s) (hfuel : str.length < s + fuel) (hs : s ≤ str.length) :
    ∃ all, Runs delims str all ∧
      splitLoop str delims fuel s (runs.map fun run => slice str run.1 run.2) =
        some (all.map fun run => slice str run.1 run.2) := by
  induction fuel generalizing s runs with
  | zero => omega
  | succ fuel ih =>
    rw [splitLoop]
    cases hnot : findFirstNotOf str delims s with
    | none =>
      refine ⟨runs, hfound.runs fun first last hrun => ?_, rfl⟩
      by_contra hlt
      have hin : first < str.length := Nat.lt_of_lt_of_le hrun.nonempty hrun.inside
      have hchar := List.getElem?_eq_getElem hin
      have hdelim := findFirstNotOf_none hnot (Nat.le_of_not_lt hlt) hchar
      rw [hrun.first_plain hchar] at hdelim
      cases hdelim
    | some first =>
      obtain ⟨hle, ⟨char, hchar, hkind⟩, hgap⟩ := findFrom_some hnot
      have hplain : isDelim delims char = false := by rwa [Bool.not_eq_true'] at hkind
      have hdelims : ∀ i char, s ≤ i → i < first → str[i]? = some char →
          isDelim delims char = true := by
        intro i char hi hlt hother
        have hfalse := hgap i char hi hlt hother
        rwa [Bool.not_eq_false'] at hfalse
      have hin : first < str.length := (List.getElem?_eq_some_iff.mp hchar).1
      have hbefore : AtStart delims str first := by
        rcases Nat.eq_or_lt_of_le hle with rfl | hlt
        · exact hstart
        · have hprev : first - 1 < str.length := by omega
          exact Or.inr ⟨_, List.getElem?_eq_getElem hprev,
            hdelims (first - 1) _ (by omega) (by omega) (List.getElem?_eq_getElem hprev)⟩
      cases hof : findFirstOf str delims first with
      | none =>
        have hrun : IsRun delims str first str.length :=
          ⟨hin, le_refl _, fun i char hi _ hother => findFrom_none hof hi hother, hbefore,
            Or.inl rfl⟩
        have hnext := hfound.append hstart hle hrun hdelims hin
          fun other stop hother hlt => hother.first_le hrun (Nat.le_of_lt hlt)
        have hall := hnext.runs fun other stop hother =>
          Nat.lt_of_lt_of_le hother.nonempty hother.inside
        have hslice : slice str first str.length = str.drop first := by
          apply List.take_of_length_le
          rw [List.length_drop]
        refine ⟨_, hall, ?_⟩
        dsimp only
        rw [hof, List.map_append, List.map_singleton, hslice]
      | some last =>
        obtain ⟨hlast, ⟨stop, hstop, hdelim⟩, hinside⟩ := findFrom_some hof
        have hne : first ≠ last := by
          rintro rfl
          rw [hchar] at hstop
          obtain rfl := Option.some.inj hstop
          rw [hplain] at hdelim
          cases hdelim
        have hend : last < str.length := (List.getElem?_eq_some_iff.mp hstop).1
        have hrun : IsRun delims str first last :=
          ⟨Nat.lt_of_le_of_ne hlast hne, Nat.le_of_lt hend, hinside, hbefore,
            Or.inr ⟨stop, hstop, hdelim⟩⟩
        have hnext := hfound.append hstart hle hrun hdelims (Nat.lt_succ_of_le hlast)
          fun other stop hother hlt => hother.first_le hrun (Nat.le_of_lt_succ hlt)
        obtain ⟨all, hall, hloop⟩ := ih hnext (Or.inr ⟨stop, hstop, hdelim⟩)
          (by omega) (Nat.succ_le_of_lt hend)
        rw [List.map_append, List.map_singleton] at hloop
        refine ⟨all, hall, ?_⟩
        dsimp only
        rw [hof]
        exact hloop

/-- What `join` puts behind the first string. -/
def tail (ss : List (List UInt8)) (sep : List UInt8) : List UInt8 := ss.flatMap (sep ++ ·)

@[simp] theorem join_cons (word : List UInt8) (ss : List (List UInt8)) (sep : List UInt8) :
    join (word :: ss) sep = word ++ tail ss sep := by
  have hround : ∀ ret sub : List UInt8,
      (if sub.length ≠ 0 then (if sep.length ≠ 0 then ret ++ sep else ret) ++ sub
        else if sep.length ≠ 0 then ret ++ sep else ret) = ret ++ (sep ++ sub) := by
    intro ret sub
    cases sep <;> cases sub <;> simp
  unfold join tail
  simp only [hround]
  induction ss generalizing word with
  | nil => simp
  | cons sub ss ih =>
    rw [List.foldl_cons, ih, List.flatMap_cons, List.append_assoc]

@[simp] private theorem slice_append (front word back : List UInt8) :
    slice (front ++ (word ++ back)) front.length (front ++ word).length = word := by
  rw [slice, List.drop_left, List.length_append, Nat.add_sub_cancel_left, List.take_left]

variable {seps word sep : List UInt8} {ss : List (List UInt8)}

private theorem findFirstNotOf_word (hseps : ∀ char ∈ seps, isDelim delims char = true)
    (hword : word ≠ [])
    (hplain : ∀ char ∈ word, isDelim delims char = false) :
    findFirstNotOf (done ++ (seps ++ (word ++ back))) delims done.length =
      some (done ++ seps).length := by
  obtain ⟨char, rest, rfl⟩ := List.exists_cons_of_ne_nil hword
  apply findFrom_pass
  · intro other hother
    rw [hseps other hother]
    rfl
  · rw [hplain char List.mem_cons_self]
    rfl

private theorem length_lt_join (word : List UInt8) (ss : List (List UInt8)) (hsep : sep ≠ []) :
    ss.length < (word ++ tail ss sep).length + 1 := by
  have hle : ss.length ≤ (tail ss sep).length := by
    induction ss with
    | nil => exact Nat.zero_le _
    | cons next ss ih =>
      have hpos := List.length_pos_iff.mpr hsep
      rw [tail, List.flatMap_cons, ← tail, List.length_append, List.length_append,
        List.length_cons]
      omega
  rw [List.length_append]
  omega

private theorem splitLoop_joined (hseps : ∀ char ∈ seps, isDelim delims char = true)
    (hword : word ≠ [])
    (hplain : ∀ char ∈ word, isDelim delims char = false)
    (hss : ∀ s ∈ ss, s ≠ [] ∧ ∀ char ∈ s, isDelim delims char = false) (hsep : sep ≠ [])
    (hsepDelims : ∀ char ∈ sep, isDelim delims char = true) {fuel : Nat}
    (hfuel : ss.length < fuel) (ret : List (List UInt8)) :
    splitLoop (done ++ (seps ++ (word ++ tail ss sep))) delims fuel done.length ret =
      some (ret ++ word :: ss) := by
  induction ss generalizing done seps word fuel ret with
  | nil =>
    obtain ⟨fuel, rfl⟩ := Nat.exists_eq_add_one.mpr hfuel
    have hof : findFirstOf (done ++ seps ++ word) delims (done ++ seps).length = none :=
      findFrom_end hplain
    have hstr : done ++ (seps ++ (word ++ tail [] sep)) = done ++ seps ++ word := by
      rw [tail, List.flatMap_nil, List.append_nil, List.append_assoc]
    rw [splitLoop, findFirstNotOf_word hseps hword hplain]
    dsimp only
    rw [hstr, hof, List.drop_left]
  | cons next ss ih =>
    obtain ⟨fuel, rfl⟩ := Nat.exists_eq_add_one.mpr (Nat.zero_lt_of_lt hfuel)
    obtain ⟨delim, more, rfl⟩ := List.exists_cons_of_ne_nil hsep
    obtain ⟨hnext, hlater⟩ := List.forall_mem_cons.mp hss
    obtain ⟨hdelim, hmore⟩ := List.forall_mem_cons.mp hsepDelims
    have hstr : done ++ (seps ++ (word ++ tail (next :: ss) (delim :: more))) =
        done ++ seps ++ (word ++ delim :: (more ++ (next ++ tail ss (delim :: more)))) := by
      rw [tail, List.flatMap_cons, ← tail]
      simp only [List.append_assoc, List.cons_append]
    have hof := @findFrom_pass (isDelim delims) (done ++ seps) word
      (more ++ (next ++ tail ss (delim :: more))) delim hplain hdelim
    have hmoved : done ++ seps ++ (word ++ delim :: (more ++ (next ++ tail ss (delim :: more)))) =
        done ++ seps ++ word ++ [delim] ++ (more ++ (next ++ tail ss (delim :: more))) := by
      simp only [List.append_assoc, List.cons_append, List.nil_append]
    have hlength :
        (done ++ seps ++ word).length + 1 = (done ++ seps ++ word ++ [delim]).length := by
      simp only [List.length_append, List.length_singleton]
    have hslice := slice_append (done ++ seps) word
      (delim :: (more ++ (next ++ tail ss (delim :: more))))
    rw [splitLoop, findFirstNotOf_word hseps hword hplain]
    dsimp only
    rw [hstr, findFirstOf, hof]
    dsimp only
    rw [hslice, hlength, hmoved,
      ih hmore hnext.1 hnext.2 hlater (Nat.lt_of_succ_lt_succ hfuel), List.append_assoc]
    rfl

/-- `split` finds the longest parts without delimiters, from the left to the right, and takes
apart what `join` puts together from strings without delimiters. -/
theorem split_laws (delims : CString) :
    (∀ str, ∃ runs, Runs delims str runs ∧
      split str delims = some (runs.map fun run => slice str run.1 run.2)) ∧
    ∀ ss sep, ss ≠ [] → (∀ s ∈ ss, s ≠ [] ∧ ∀ char ∈ s, isDelim delims char = false) →
      sep ≠ [] → (∀ char ∈ sep, isDelim delims char = true) →
        split (join ss sep) delims = some ss := by
  refine ⟨fun str => ?_, fun ss sep hne hss hsep hdelims => ?_⟩
  · have hfound : Found delims str 0 [] := by
      refine ⟨List.Pairwise.nil, fun first last => ⟨fun hmem => absurd hmem List.not_mem_nil, ?_⟩⟩
      rintro ⟨-, hlt⟩
      exact absurd hlt (Nat.not_lt_zero _)
    exact splitLoop_runs hfound (Or.inl rfl) (by omega) (Nat.zero_le _)
  · obtain ⟨word, more, rfl⟩ := List.exists_cons_of_ne_nil hne
    obtain ⟨hword, hlater⟩ := List.forall_mem_cons.mp hss
    have hfuel := length_lt_join word more hsep
    rw [split, join_cons] at *
    have hseps : ∀ char ∈ ([] : List UInt8), isDelim delims char = true :=
      fun _ hchar => absurd hchar List.not_mem_nil
    exact @splitLoop_joined delims [] [] word sep more hseps hword.1 hword.2 hlater hsep hdelims _
      hfuel []

/-- "ab", "c" with ", " between them. -/
theorem split_laws_two : split (join [[97, 98], [99]] [44, 32]) ⟨[32, 44], by simp⟩ =
    some [[97, 98], [99]] := by
  apply (split_laws ⟨[32, 44], by simp⟩).2
  all_goals simp [isDelim]

end Libsax.Text.StrUtil
