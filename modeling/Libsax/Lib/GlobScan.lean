import Libsax.Lib.Glob
import Mathlib.Logic.Relation

/-! Where a scan that never goes back begins the parts of a pattern. If it begins each where
it first stands, it misses no match; a part that it passes over can cost one. -/
namespace Libsax.Lib.Glob

variable {α : Type} {star : α} (same : α → α → Bool)

/-- Somewhere in the text the part begins inside a longer beginning of it that breaks
off, as `aab` does in `aaab`. -/
def Overrun (part text : List α) : Prop :=
  ∃ place ∈ text.tails, ∃ broken < part.length, ∃ distance < broken, 0 < distance ∧
    (strip same (part.take broken) place).isSome = true ∧
    strip same (part.take (broken + 1)) place = none ∧
    (strip same part (place.drop distance)).isSome = true

instance [DecidableEq α] (part text : List α) : Decidable (Overrun same part text) := by
  unfold Overrun
  infer_instance

variable {same}

theorem Overrun.suffix {part text rest : List α} (hoverrun : Overrun same part rest)
    (hsuffix : rest <:+ text) : Overrun same part text := by
  obtain ⟨place, hplace, hbroken⟩ := hoverrun
  exact ⟨place, (List.mem_tails _ _).mpr (((List.mem_tails _ _).mp hplace).trans hsuffix), hbroken⟩

private theorem overrun_of_inside {done pending front text place rest : List α} {w t : α}
    (hdone : strip same done front = some []) (hsame : ¬ same t w = true)
    (hplace : place <:+ front ++ t :: text)
    (hstrip : strip same (done ++ w :: pending) place = some rest)
    (hinside : ¬ place <:+ t :: text) :
    Overrun same (done ++ w :: pending) (front ++ t :: text) := by
  have hlength := strip_length hdone
  have hbehind : strip same done (front ++ t :: text) = some (t :: text) :=
    strip_behind hdone (t :: text)
  have hbreaks : strip same (done ++ [w]) (front ++ t :: text) = none := by
    rw [strip_append, hbehind]
    simp [strip, hsame]
  obtain ⟨inner, rfl⟩ : t :: text <:+ place :=
    (List.suffix_or_suffix_of_suffix hplace (List.suffix_append front (t :: text))).resolve_left
      hinside
  obtain ⟨skipped, hskipped⟩ := hplace
  obtain rfl : skipped ++ inner = front := by
    rw [← List.append_assoc] at hskipped
    exact List.append_cancel_right hskipped
  have hinner : inner ≠ [] := by
    rintro rfl
    exact hinside (by simp)
  have hdistance : skipped ≠ [] := by
    rintro rfl
    rw [List.nil_append] at hbehind
    rw [strip_append, hbehind] at hstrip
    simp [strip, hsame] at hstrip
  refine ⟨_, (List.mem_tails _ _).mpr List.suffix_rfl, done.length, by simp, skipped.length, ?_,
    List.length_pos_of_ne_nil hdistance, ?_, ?_, ?_⟩
  · have := List.length_pos_of_ne_nil hinner
    simp at hlength
    omega
  · rw [List.take_left, hbehind]
    rfl
  · have htake : (done ++ w :: pending).take (done.length + 1) = done ++ [w] := by
      simp [List.take_append]
    rw [htake]
    exact hbreaks
  · rw [List.append_assoc, List.drop_left, hstrip]
    rfl

variable (same)

/-- Where the part is begun next if the beginning here breaks off: at the symbol that breaks
it off, if that one can begin it. -/
def breakOff (part : List α) : List α → List α → Option (List α)
  | [], _ => none
  | _ :: _, [] => none
  | w :: pending, t :: text =>
    if same t w then breakOff part pending text
    else some (if part.head?.any (same t) then t :: text else text)

/-- The scan begins the part there. -/
def Begun (part text place : List α) : Prop :=
  Relation.ReflTransGen (fun here next => breakOff same part part here = some next) text place

/-- The first place in the text where the part stands. -/
structure First (part text place : List α) : Prop where
  within : place <:+ text
  there : (strip same part place).isSome = true
  first : ∀ other, other <:+ text → (strip same part other).isSome = true → other <:+ place

private theorem first_iff {part text place : List α} :
    First same part text place ↔ place ∈ text.tails ∧ (strip same part place).isSome = true ∧
      ∀ other ∈ text.tails, (strip same part other).isSome = true → other ∈ place.tails := by
  simp only [List.mem_tails]
  exact ⟨fun h => ⟨h.within, h.there, h.first⟩, fun h => ⟨h.1, h.2.1, h.2.2⟩⟩

instance [DecidableEq α] (part text place : List α) : Decidable (First same part text place) :=
  decidable_of_iff _ (first_iff same).symm

/-- As long as more than stars is left, each part in turn is begun where it first stands in
what is left of the text. -/
def Found : List (List α) → List α → Prop
  | [], _ => True
  | part :: more, text => more.all List.isEmpty = true ∨ ∃ place rest,
      First same part text place ∧ Begun same part text place ∧
        strip same part place = some rest ∧ Found more rest

variable {same}

private theorem breakOff_spec {part pending text next : List α}
    (hbreak : breakOff same part pending text = some next) :
    ∃ done w others front t behind, pending = done ++ w :: others ∧
      text = front ++ t :: behind ∧ strip same done front = some [] ∧ ¬ same t w = true ∧
      next = if part.head?.any (same t) then t :: behind else behind := by
  induction pending generalizing text with
  | nil => cases hbreak
  | cons w pending ih =>
    cases text with
    | nil => cases hbreak
    | cons t text =>
      rw [breakOff] at hbreak
      by_cases hsame : same t w = true
      · rw [if_pos hsame] at hbreak
        obtain ⟨done, w', others, front, t', behind, rfl, rfl, hdone, hbreaks, hnext⟩ := ih hbreak
        exact ⟨w :: done, w', others, t :: front, t', behind, rfl, rfl,
          by rw [strip, if_pos hsame, hdone], hbreaks, hnext⟩
      · rw [if_neg hsame] at hbreak
        exact ⟨[], w, pending, [], t, text, rfl, rfl, rfl, hsame, (Option.some.inj hbreak).symm⟩

private theorem breakOff_behind {part pending text next : List α}
    (hbreak : breakOff same part pending text = some next) (behind : List α) :
    breakOff same part pending (text ++ behind) = some (next ++ behind) := by
  induction pending generalizing text with
  | nil => cases hbreak
  | cons w pending ih =>
    cases text with
    | nil => cases hbreak
    | cons t text =>
      rw [List.cons_append, breakOff]
      rw [breakOff] at hbreak
      split_ifs at hbreak ⊢
      · exact ih hbreak
      · cases hbreak
        rfl
      · cases hbreak
        rfl

private theorem breakOff_of_strip {part pending text : List α}
    (hstrip : strip same pending text = none)
    (hlength : pending.length ≤ text.length) :
    ∃ next, breakOff same part pending text = some next := by
  induction pending generalizing text with
  | nil => cases hstrip
  | cons w pending ih =>
    cases text with
    | nil => exact absurd hlength (by simp)
    | cons t text =>
      rw [strip] at hstrip
      rw [breakOff]
      split_ifs at hstrip with hsame
      · rw [if_pos hsame]
        exact ih hstrip (by simpa using hlength)
      · rw [if_neg hsame]
        exact ⟨_, rfl⟩

private theorem scan_restart (part : List α) (t : α) (text : List α) (hne : part ≠ []) :
    scan same part (restart same part t) text =
      scan same part part (if part.head?.any (same t) then t :: text else text) := by
  obtain ⟨first, others, rfl⟩ := List.exists_cons_of_ne_nil hne
  rw [restart, List.head?_cons, Option.any_some]
  split_ifs with hsame
  · rw [scan, if_pos hsame]
  · rfl

private theorem scan_breakOff {part pending text next : List α} (hne : part ≠ [])
    (hbreak : breakOff same part pending text = some next) :
    scan same part pending text = scan same part part next := by
  induction pending generalizing text with
  | nil => cases hbreak
  | cons w pending ih =>
    cases text with
    | nil => cases hbreak
    | cons t text =>
      rw [breakOff] at hbreak
      rw [scan]
      by_cases hsame : same t w = true
      · rw [if_pos hsame] at hbreak ⊢
        exact ih hbreak
      · rw [if_neg hsame] at hbreak ⊢
        rw [scan_restart part t text hne, Option.some.inj hbreak]

private theorem scan_direct {part pending text rest : List α}
    (hstrip : strip same pending text = some rest) :
    scan same part pending text = some rest := by
  induction pending generalizing text with
  | nil =>
    cases hstrip
    cases rest <;> rfl
  | cons w pending ih =>
    cases text with
    | nil => cases hstrip
    | cons t text =>
      rw [strip] at hstrip
      split_ifs at hstrip with hsame
      rw [scan, if_pos hsame]
      exact ih hstrip

private theorem ne_nil_of_breakOff {part text next : List α}
    (hbreak : breakOff same part part text = some next) : part ≠ [] := by
  rintro rfl
  cases hbreak

private theorem scan_begun {part text place rest : List α} (hbegun : Begun same part text place)
    (hstrip : strip same part place = some rest) : scan same part part text = some rest := by
  induction hbegun using Relation.ReflTransGen.head_induction_on with
  | refl => exact scan_direct hstrip
  | head hbreak _ ih => rw [scan_breakOff (ne_nil_of_breakOff hbreak) hbreak, ih]

private theorem breakOff_length {part text next : List α}
    (hbreak : breakOff same part part text = some next) :
    next <:+ text ∧ next.length < text.length := by
  obtain ⟨done, w, others, front, t, behind, rfl, rfl, hdone, hbreaks, rfl⟩ := breakOff_spec hbreak
  have hlength := strip_length hdone
  rw [List.length_nil, Nat.add_zero] at hlength
  split_ifs with hagain
  · refine ⟨List.suffix_append _ _, ?_⟩
    have hpos : done ≠ [] := by
      rintro rfl
      exact hbreaks (by simpa using hagain)
    have := List.length_pos_of_ne_nil hpos
    simp only [List.length_append, List.length_cons]
    omega
  · refine ⟨⟨front ++ [t], by simp⟩, ?_⟩
    simp only [List.length_append, List.length_cons]
    omega

private theorem begun_of_scan {part text rest : List α}
    (hscan : scan same part part text = some rest) :
    ∃ place, Begun same part text place ∧ strip same part place = some rest := by
  induction hlength : text.length using Nat.strong_induction_on generalizing text with
  | _ length ih =>
    cases hstrip : strip same part text with
    | some found =>
      rw [scan_direct hstrip] at hscan
      exact ⟨text, .refl, hstrip.trans hscan⟩
    | none =>
      obtain ⟨place, hplace, hthere⟩ := scan_sound hscan (List.nil_append part).symm rfl
      obtain ⟨next, hbreak⟩ := @breakOff_of_strip _ same part part text hstrip (by
        have := strip_length hthere
        have := hplace.length_le
        rw [List.nil_append] at this
        omega)
      rw [scan_breakOff (ne_nil_of_breakOff hbreak) hbreak] at hscan
      obtain ⟨place, hbegun, hthere⟩ :=
        ih _ (hlength ▸ (breakOff_length hbreak).2) hscan rfl
      exact ⟨place, .head hbreak hbegun, hthere⟩

theorem Begun.behind {part text place : List α} (hbegun : Begun same part text place)
    (behind : List α) : Begun same part (text ++ behind) (place ++ behind) := by
  induction hbegun with
  | refl => exact .refl
  | tail _ hbreak ih => exact ih.tail (breakOff_behind hbreak behind)

private theorem place_of_breakOff {part text next place : List α}
    (hclear : ¬ Overrun same part text) (hbreak : breakOff same part part text = some next)
    (hplace : place <:+ text) (hthere : (strip same part place).isSome = true) :
    place <:+ next := by
  obtain ⟨rest, hstrip⟩ := Option.isSome_iff_exists.mp hthere
  obtain ⟨done, w, others, front, t, behind, hpart, rfl, hdone, hbreaks, rfl⟩ :=
    breakOff_spec hbreak
  have hinside : place <:+ t :: behind := by
    by_contra hinside
    refine hclear ?_
    rw [hpart]
    exact overrun_of_inside hdone hbreaks hplace (hpart ▸ hstrip) hinside
  split_ifs with hagain
  · exact hinside
  · rcases List.suffix_cons_iff.mp hinside with rfl | hbehind
    · obtain ⟨first, more, rfl⟩ := List.exists_cons_of_ne_nil (ne_nil_of_breakOff hbreak)
      rw [strip, if_neg (by simpa using hagain)] at hstrip
      cases hstrip
    · exact hbehind

theorem First.begun {part text place : List α} (hfirst : First same part text place)
    (hclear : ¬ Overrun same part text) : Begun same part text place := by
  induction hlength : text.length using Nat.strong_induction_on generalizing text with
  | _ length ih =>
    cases hstrip : strip same part text with
    | some found =>
      have hplace := hfirst.first text List.suffix_rfl (by simp [hstrip])
      rw [hfirst.within.eq_of_length_le hplace.length_le]
      exact .refl
    | none =>
      obtain ⟨rest, hthere⟩ := Option.isSome_iff_exists.mp hfirst.there
      obtain ⟨next, hbreak⟩ := @breakOff_of_strip _ same part part text hstrip (by
        have := strip_length hthere
        have := hfirst.within.length_le
        omega)
      obtain ⟨hnext, hless⟩ := breakOff_length hbreak
      exact .head hbreak (ih _ (hlength ▸ hless)
        ⟨place_of_breakOff hclear hbreak hfirst.within hfirst.there, hfirst.there,
          fun other hother => hfirst.first other (hother.trans hnext)⟩
        (fun hoverrun => hclear (hoverrun.suffix hnext)) rfl)

private theorem exists_first {part text place : List α} (hplace : place <:+ text)
    (hthere : (strip same part place).isSome = true) : ∃ first, First same part text first := by
  induction text with
  | nil =>
    obtain rfl := List.suffix_nil.mp hplace
    exact ⟨[], List.suffix_rfl, hthere, fun other hother _ => hother⟩
  | cons t text ih =>
    by_cases hhere : (strip same part (t :: text)).isSome = true
    · exact ⟨t :: text, List.suffix_rfl, hhere, fun other hother _ => hother⟩
    · have hbehind : ∀ {other}, other <:+ t :: text → (strip same part other).isSome = true →
          other <:+ text := by
        intro other hother hisSome
        rcases List.suffix_cons_iff.mp hother with rfl | hother
        · exact absurd hisSome hhere
        · exact hother
      obtain ⟨first, hfirst⟩ := ih (hbehind hplace hthere)
      exact ⟨first, hfirst.within.trans (List.suffix_cons t text), hfirst.there,
        fun other hother hisSome => hfirst.first other (hbehind hother hisSome) hisSome⟩

theorem First.rest {part text place other rest rest' : List α}
    (hfirst : First same part text place) (hstrip : strip same part place = some rest)
    (hother : other <:+ text) (hstrip' : strip same part other = some rest') : rest' <:+ rest := by
  have hle := hfirst.first other hother (by simp [hstrip'])
  refine List.suffix_of_suffix_length_le ((strip_suffix hstrip').trans hle)
    (strip_suffix hstrip) ?_
  have := strip_length hstrip
  have := strip_length hstrip'
  have := hle.length_le
  omega

private theorem settles_stars {more : List (List α)} (hall : more.all List.isEmpty = true)
    (hne : more ≠ []) (text : List α) : settles same more text = true := by
  induction more generalizing text with
  | nil => exact absurd rfl hne
  | cons part more ih =>
    simp only [List.all_cons, Bool.and_eq_true, List.isEmpty_iff] at hall
    obtain ⟨rfl, hall⟩ := hall
    cases more with
    | nil => exact endsWith_iff.mpr ⟨[], List.nil_suffix, rfl⟩
    | cons next more =>
      have hcheck : check same [] (next :: more) text = some text :=
        check_eq_some.mpr ⟨scan_direct rfl, fun _ => hall⟩
      rw [settles, place, hcheck, Option.some_or]
      exact ih hall (by simp) text

private theorem tries_isSome {part : List α} {more : List (List α)} {text start rest : List α}
    (hstart : start <:+ text) (hne : start ≠ []) (hcheck : check same part more start = some rest) :
    (tries same part more text).isSome = true := by
  induction text with
  | nil => exact absurd (List.suffix_nil.mp hstart) hne
  | cons t text ih =>
    rw [tries, Option.isSome_or]
    rcases List.suffix_cons_iff.mp hstart with rfl | hstart
    · simp [hcheck]
    · simp [ih hstart]

private theorem settles_before_stars {part next : List α} {more : List (List α)}
    {text place : List α}
    (hall : (next :: more).all List.isEmpty = true) (hplace : place <:+ text)
    (hthere : (strip same part place).isSome = true) :
    settles same (part :: next :: more) text = true := by
  obtain ⟨rest, hstrip⟩ := Option.isSome_iff_exists.mp hthere
  have hcheck : check same part (next :: more) place = some rest :=
    check_eq_some.mpr ⟨scan_direct hstrip, fun _ => hall⟩
  have hfound : (Glob.place same part (next :: more) text).isSome = true := by
    rw [Glob.place, Option.isSome_or, Bool.or_eq_true]
    by_cases hnil : place = []
    · subst hnil
      obtain rfl : part = [] := by
        cases part with
        | nil => rfl
        | cons w part => cases hstrip
      exact .inl (by rw [check_eq_some.mpr ⟨scan_direct rfl, fun _ => hall⟩]; rfl)
    · exact .inr (tries_isSome hplace hnil hcheck)
  obtain ⟨found, hfound⟩ := Option.isSome_iff_exists.mp hfound
  rw [settles, hfound]
  exact settles_stars hall (by simp) found

private theorem matches_settles {more : List (List α)} (hplain : ∀ part ∈ more, star ∉ part)
    {text : List α} (hfound : Found same more text)
    (hmatch : Matches star same text (rejoin star more)) : settles same more text = true := by
  induction more generalizing text with
  | nil =>
    rw [rejoin, matches_nil] at hmatch
    rw [hmatch]
    rfl
  | cons part more ih =>
    cases more with
    | nil =>
      rw [matches_last (hplain part List.mem_cons_self)] at hmatch
      exact hmatch
    | cons next more =>
      have hothers : ∀ other ∈ next :: more, star ∉ other := fun other hother =>
        hplain other (List.mem_cons_of_mem _ hother)
      rw [rejoin, matches_star] at hmatch
      obtain ⟨place, hplace, hmatch⟩ := hmatch
      rw [matches_part (hplain part List.mem_cons_self)] at hmatch
      obtain ⟨rest, hstrip, hrest⟩ := hmatch
      rcases hfound with hall | ⟨first, behind, hfirst, hbegun, hbehind, hmore⟩
      · exact settles_before_stars hall hplace (by simp [hstrip])
      · have hleft := hrest.suffix (hfirst.rest hbehind hplace hstrip)
        have hcheck : check same part (next :: more) text = some behind := by
          rw [check_eq_some]
          refine ⟨scan_begun hbegun hbehind, fun hnil => ?_⟩
          rw [hnil] at hleft
          exact (matches_empty hothers).mp hleft
        rw [settles, Glob.place, hcheck, Option.some_or]
        exact ih hothers hmore hleft

private theorem found_of_clear {more : List (List α)} (hplain : ∀ part ∈ more, star ∉ part)
    {text : List α} (hclear : ∀ part ∈ more.dropLast, ¬ Overrun same part text)
    (hmatch : Matches star same text (rejoin star more)) : Found same more text := by
  induction more generalizing text with
  | nil => trivial
  | cons part more ih =>
    cases more with
    | nil => exact .inl rfl
    | cons next more =>
      rw [rejoin, matches_star] at hmatch
      obtain ⟨place, hplace, hmatch⟩ := hmatch
      rw [matches_part (hplain part List.mem_cons_self)] at hmatch
      obtain ⟨rest, hstrip, hrest⟩ := hmatch
      obtain ⟨first, hfirst⟩ := @exists_first _ same part text place hplace (by simp [hstrip])
      obtain ⟨behind, hbehind⟩ := Option.isSome_iff_exists.mp hfirst.there
      refine .inr ⟨first, behind, hfirst, hfirst.begun (hclear part (by simp)), hbehind,
        ih (fun other hother => hplain other (List.mem_cons_of_mem _ hother)) ?_
          (hrest.suffix (hfirst.rest hbehind hplace hstrip))⟩
      exact fun other hother hoverrun => hclear other (by simp [hother])
        (hoverrun.suffix ((strip_suffix hbehind).trans hfirst.within))

theorem Begun.within {part text place : List α} (hbegun : Begun same part text place) :
    place <:+ text := by
  induction hbegun with
  | refl => exact List.suffix_rfl
  | tail _ hbreak ih => exact (breakOff_length hbreak).1.trans ih

theorem First.passed {part front place : List α} (hfirst : First same part front place)
    (hend : strip same part place = some []) (hpassed : ¬ Begun same part front place) :
    scan same part part front = none := by
  cases hscan : scan same part part front with
  | none => rfl
  | some rest =>
    obtain ⟨other, hbegun, hstrip⟩ := begun_of_scan hscan
    have hbehind := hfirst.first other hbegun.within (by simp [hstrip])
    have hlength : place.length ≤ other.length := by
      rw [strip_length hend, strip_length hstrip]
      simp
    rw [hbehind.eq_of_length_le hlength] at hbegun
    exact absurd hbegun hpassed

private theorem restart_subset (part : List α) (t : α) : restart same part t ⊆ part := by
  rcases restart_spec part t with ⟨hfresh, -⟩ | ⟨first, others, hcons, -, hothers⟩
  · rw [hfresh]
    exact List.Subset.refl part
  · rw [hothers, hcons]
    exact List.subset_cons_self first others

private theorem scan_afresh {part pending front behind : List α} {x : α}
    (hx : ∀ w ∈ part, ¬ same x w = true) (hpending : pending ⊆ part)
    (hscan : scan same part pending front = none) :
    scan same part pending (front ++ x :: behind) = scan same part part behind := by
  induction front generalizing pending with
  | nil =>
    cases pending with
    | nil => cases hscan
    | cons w pending =>
      have hfresh : restart same part x = part := by
        cases part with
        | nil => rfl
        | cons first others => exact if_neg (hx first List.mem_cons_self)
      rw [List.nil_append, scan, if_neg (hx w (hpending List.mem_cons_self)), hfresh]
  | cons t front ih =>
    cases pending with
    | nil => cases hscan
    | cons w pending =>
      rw [List.cons_append, scan]
      rw [scan] at hscan
      split_ifs at hscan ⊢ with hsame
      · exact ih (fun v hv => hpending (List.mem_cons_of_mem _ hv)) hscan
      · exact ih (restart_subset part t) hscan

/-- A text in which the part stands at first behind `front`, and then once more: a symbol `x`
stands behind the first place only. -/
private theorem settles_iff_begun {part front place back : List α} {w x y : α}
    (hfirst : First same part front place) (hend : strip same part place = some [])
    (hback : strip same part back = some []) (hx : ∀ v ∈ part, ¬ same x v = true)
    (hxw : same x w = true) (hyw : ¬ same y w = true) :
    settles same [part, [w], []] (front ++ x :: (back ++ [y])) = true ↔
      Begun same part front place := by
  have hsettles : ∀ t rest,
      scan same part part (front ++ x :: (back ++ [y])) = some (t :: rest) →
      settles same [part, [w], []] (front ++ x :: (back ++ [y])) =
        settles same [[w], []] (t :: rest) := by
    intro t rest hscan
    rw [settles, Glob.place, check_eq_some.mpr ⟨hscan, fun h => by cases h⟩, Option.some_or]
  by_cases hbegun : Begun same part front place
  · have hscan : scan same part part (front ++ x :: (back ++ [y])) =
        some (x :: (back ++ [y])) :=
      scan_begun (hbegun.behind _) (by simpa using strip_behind hend (x :: (back ++ [y])))
    rw [hsettles _ _ hscan]
    exact iff_of_true (settles_before_stars rfl List.suffix_rfl (by simp [strip, hxw])) hbegun
  · have hscan : scan same part part (front ++ x :: (back ++ [y])) = some [y] := by
      rw [scan_afresh hx (List.Subset.refl part) (hfirst.passed hend hbegun)]
      exact scan_direct (by simpa using strip_behind hback [y])
    rw [hsettles _ _ hscan]
    refine iff_of_false ?_ hbegun
    simp [settles, Glob.place, tries, check, scan, restart, hyw]

theorem matches_first {part front place behind : List α} {w x : α} (hplain : star ∉ part)
    (hw : w ≠ star) (hplace : place <:+ front) (hend : strip same part place = some [])
    (hxw : same x w = true) :
    Matches star same (front ++ x :: behind) (star :: (part ++ [star, w, star])) := by
  obtain ⟨before, rfl⟩ := hplace
  rw [List.append_assoc]
  refine .star before ((matches_part hplain).mpr ⟨x :: behind, ?_, ?_⟩)
  · simpa using strip_behind hend (x :: behind)
  · exact .star [] (.plain hw hxw (matches_star.mpr ⟨[], List.nil_suffix, .nil⟩))

section Patterns

variable [DecidableEq α] (star same)

private theorem parts_plain {part pat : List α} (hplain : star ∉ part) :
    parts star (part ++ star :: pat) = (part, (parts star pat).1 :: (parts star pat).2) := by
  induction part with
  | nil => rw [List.nil_append, parts, if_pos rfl]
  | cons w part ih =>
    obtain ⟨hw, hmore⟩ : star ≠ w ∧ star ∉ part := by simpa using hplain
    rw [List.cons_append, parts, if_neg (Ne.symm hw), ih hmore]

/-- The text begins with the first part, and what is behind it settles. -/
def settled (text pat : List α) : Bool :=
  (strip same (parts star pat).1 text).any (settles same (parts star pat).2)

/-- In the text behind the first part the others are found. -/
def FoundIn (text pat : List α) : Prop :=
  ∀ rest, strip same (parts star pat).1 text = some rest → Found same (parts star pat).2 rest

/-- The parts that stand between two stars. -/
def between (pat : List α) : List (List α) := (parts star pat).2.dropLast

variable {star same}

private theorem matches_iff_parts {text pat : List α} :
    Matches star same text pat ↔ ∃ rest, strip same (parts star pat).1 text = some rest ∧
      Matches star same rest (rejoin star (parts star pat).2) := by
  rw [← matches_part (star_notMem_parts star pat).1, parts_rejoin]

theorem settled_matches {text pat : List α} (hsettled : settled star same text pat = true) :
    Matches star same text pat := by
  obtain ⟨rest, hstrip, hsettles⟩ := (Option.any_eq_true _ _).mp hsettled
  exact matches_iff_parts.mpr
    ⟨rest, hstrip, settles_matches (star_notMem_parts star pat).2 hsettles⟩

theorem matches_settled {text pat : List α} (hfound : FoundIn star same text pat)
    (hmatch : Matches star same text pat) : settled star same text pat = true := by
  obtain ⟨rest, hstrip, hrest⟩ := matches_iff_parts.mp hmatch
  exact (Option.any_eq_true _ _).mpr ⟨rest, hstrip,
    matches_settles (star_notMem_parts star pat).2 (hfound rest hstrip) hrest⟩

theorem settled_iff_begun {part front place back : List α} {w x y : α} (hplain : star ∉ part)
    (hw : w ≠ star) (hfirst : First same part front place)
    (hend : strip same part place = some []) (hback : strip same part back = some [])
    (hx : ∀ v ∈ part, ¬ same x v = true) (hxw : same x w = true) (hyw : ¬ same y w = true) :
    settled star same (front ++ x :: (back ++ [y])) (star :: (part ++ [star, w, star])) = true ↔
      Begun same part front place := by
  have hparts : parts star (star :: (part ++ [star, w, star])) = ([], [part, [w], []]) := by
    rw [parts, if_pos rfl, parts_plain star hplain]
    simp [parts, hw]
  rw [settled, hparts]
  exact settles_iff_begun hfirst hend hback hx hxw hyw

theorem foundIn_of_clear {text pat : List α}
    (hclear : ∀ part ∈ between star pat, ¬ Overrun same part text)
    (hmatch : Matches star same text pat) : FoundIn star same text pat := by
  obtain ⟨rest, hstrip, hrest⟩ := matches_iff_parts.mp hmatch
  intro rest' hstrip'
  rw [hstrip] at hstrip'
  cases hstrip'
  exact found_of_clear (star_notMem_parts star pat).2
    (fun part hpart hoverrun => hclear part hpart (hoverrun.suffix (strip_suffix hstrip))) hrest

end Patterns

end Libsax.Lib.Glob
