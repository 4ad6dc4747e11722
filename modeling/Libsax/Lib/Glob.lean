import Mathlib.Data.List.Infix

/-! Patterns in which a star stands for any run of symbols, and what a scan finds of
them that goes through the text without ever going back. -/
namespace Libsax.Lib.Glob

variable {α : Type} (star : α) (same : α → α → Bool)

/-- `Matches star same text pat`; `same t w` is whether `t` is what the symbol `w` asks for. -/
inductive Matches : List α → List α → Prop
  | nil : Matches [] []
  | plain {t w : α} {text pat : List α} (hplain : w ≠ star) (hsame : same t w = true)
      (hrest : Matches text pat) : Matches (t :: text) (w :: pat)
  | star (front : List α) {text pat : List α} (hrest : Matches text pat) :
      Matches (front ++ text) (star :: pat)

/-- The part in front of the first star, and the parts behind each star. -/
def parts [DecidableEq α] : List α → List α × List (List α)
  | [] => ([], [])
  | w :: pat =>
    if w = star then ([], (parts pat).1 :: (parts pat).2)
    else (w :: (parts pat).1, (parts pat).2)

def rejoin : List (List α) → List α
  | [] => []
  | part :: more => star :: (part ++ rejoin more)

@[simp] theorem parts_rejoin [DecidableEq α] (pat : List α) :
    (parts star pat).1 ++ rejoin star (parts star pat).2 = pat := by
  induction pat with
  | nil => rfl
  | cons w pat ih =>
    unfold parts
    split_ifs with hstar
    · rw [hstar]
      exact congrArg (star :: ·) ih
    · exact congrArg (w :: ·) ih

theorem star_notMem_parts [DecidableEq α] (pat : List α) :
    star ∉ (parts star pat).1 ∧ ∀ part ∈ (parts star pat).2, star ∉ part := by
  induction pat with
  | nil => simp [parts]
  | cons w pat ih =>
    unfold parts
    split_ifs with hstar
    · refine ⟨List.not_mem_nil, fun part hpart => ?_⟩
      rcases List.mem_cons.mp hpart with rfl | hmore
      · exact ih.1
      · exact ih.2 part hmore
    · refine ⟨fun hmem => ?_, ih.2⟩
      rcases List.mem_cons.mp hmem with rfl | hmore
      · exact hstar rfl
      · exact ih.1 hmore

theorem subset_rejoin {part : List α} {more : List (List α)} (hpart : part ∈ more) :
    part ⊆ rejoin star more := by
  induction more with
  | nil => cases hpart
  | cons other more ih =>
    unfold rejoin
    rcases List.mem_cons.mp hpart with rfl | hmore
    · intro symbol hsymbol
      exact List.mem_cons_of_mem _ (List.mem_append_left _ hsymbol)
    · intro symbol hsymbol
      exact List.mem_cons_of_mem _ (List.mem_append_right _ (ih hmore hsymbol))

/-- The text behind a part that it begins with. -/
def strip : List α → List α → Option (List α)
  | [], text => some text
  | _ :: _, [] => none
  | w :: part, t :: text => if same t w then strip part text else none

@[simp] theorem strip_append (part pending text : List α) :
    strip same (part ++ pending) text = (strip same part text).bind (strip same pending) := by
  induction part generalizing text with
  | nil => rfl
  | cons w part ih =>
    cases text with
    | nil => rfl
    | cons t text =>
      rw [List.cons_append, strip, strip]
      split_ifs
      · exact ih text
      · rfl

variable {same}

theorem strip_length {part text rest : List α} (hstrip : strip same part text = some rest) :
    text.length = part.length + rest.length := by
  induction part generalizing text with
  | nil =>
    cases hstrip
    simp
  | cons w part ih =>
    cases text with
    | nil => cases hstrip
    | cons t text =>
      rw [strip] at hstrip
      split_ifs at hstrip
      rw [List.length_cons, List.length_cons, ih hstrip]
      omega

theorem strip_suffix {part text rest : List α} (hstrip : strip same part text = some rest) :
    rest <:+ text := by
  induction part generalizing text with
  | nil =>
    cases hstrip
    exact List.suffix_rfl
  | cons w part ih =>
    cases text with
    | nil => cases hstrip
    | cons t text =>
      rw [strip] at hstrip
      split_ifs at hstrip
      exact (ih hstrip).trans (List.suffix_cons t text)

theorem strip_behind {part text rest : List α} (hstrip : strip same part text = some rest)
    (behind : List α) : strip same part (text ++ behind) = some (rest ++ behind) := by
  induction part generalizing text with
  | nil =>
    cases hstrip
    rfl
  | cons w part ih =>
    cases text with
    | nil => cases hstrip
    | cons t text =>
      rw [List.cons_append, strip]
      rw [strip] at hstrip
      split_ifs at hstrip ⊢
      exact ih hstrip

variable {star}

@[simp] theorem matches_nil {text : List α} : Matches star same text [] ↔ text = [] := by
  constructor
  · intro hmatch
    cases hmatch
    rfl
  · rintro rfl
    exact .nil

theorem matches_star {text pat : List α} :
    Matches star same text (star :: pat) ↔ ∃ rest, rest <:+ text ∧ Matches star same rest pat := by
  constructor
  · intro hmatch
    cases hmatch with
    | plain hplain => exact absurd rfl hplain
    | star front hrest => exact ⟨_, List.suffix_append _ _, hrest⟩
  · rintro ⟨rest, ⟨front, rfl⟩, hrest⟩
    exact .star front hrest

theorem matches_part {part pat text : List α} (hpart : star ∉ part) :
    Matches star same text (part ++ pat) ↔
      ∃ rest, strip same part text = some rest ∧ Matches star same rest pat := by
  induction part generalizing text with
  | nil => simp [strip]
  | cons w part ih =>
    obtain ⟨hplain, hmore⟩ : star ≠ w ∧ star ∉ part := by simpa using hpart
    constructor
    · intro hmatch
      cases hmatch with
      | plain _ hsame hrest =>
        rw [strip, if_pos hsame]
        exact (ih hmore).mp hrest
      | star => exact absurd rfl hplain
    · rintro ⟨rest, hstrip, hrest⟩
      cases text with
      | nil => cases hstrip
      | cons t text =>
        rw [strip] at hstrip
        split_ifs at hstrip with hsame
        exact .plain (Ne.symm hplain) hsame ((ih hmore).mpr ⟨rest, hstrip, hrest⟩)

theorem Matches.suffix {part text rest : List α} {more : List (List α)}
    (hmatch : Matches star same rest (rejoin star (part :: more))) (hsuffix : rest <:+ text) :
    Matches star same text (rejoin star (part :: more)) := by
  obtain ⟨behind, hbehind, hrest⟩ := matches_star.mp hmatch
  exact matches_star.mpr ⟨behind, hbehind.trans hsuffix, hrest⟩

theorem matches_empty {more : List (List α)} (hmore : ∀ part ∈ more, star ∉ part) :
    Matches star same [] (rejoin star more) ↔ more.all List.isEmpty = true := by
  induction more with
  | nil => simp [rejoin]
  | cons part more ih =>
    have ih := ih fun other hother => hmore other (List.mem_cons_of_mem _ hother)
    rw [rejoin, matches_star]
    simp only [List.suffix_nil, exists_eq_left, matches_part (hmore part List.mem_cons_self)]
    cases part with
    | nil => simpa [strip] using ih
    | cons w part => simp [strip]

variable (same)

def endsWith (part : List α) : List α → Bool
  | [] => part.isEmpty
  | t :: text => (strip same part (t :: text)).any List.isEmpty || endsWith part text

variable {same}

theorem endsWith_iff {part text : List α} :
    endsWith same part text = true ↔ ∃ rest, rest <:+ text ∧ strip same part rest = some [] := by
  have hany : ∀ text, (strip same part text).any List.isEmpty = true ↔
      strip same part text = some [] := by
    intro text
    cases strip same part text with
    | none => simp
    | some rest => simp
  induction text with
  | nil =>
    simp only [endsWith, List.suffix_nil, exists_eq_left]
    cases part <;> simp [strip]
  | cons t text ih =>
    simp only [endsWith, Bool.or_eq_true, List.suffix_cons_iff, or_and_right, exists_or,
      exists_eq_left]
    exact or_congr (hany (t :: text)) ih

theorem matches_last {part text : List α} (hpart : star ∉ part) :
    Matches star same text (rejoin star [part]) ↔ endsWith same part text = true := by
  rw [rejoin, matches_star, endsWith_iff]
  refine exists_congr fun rest => and_congr_right fun _ => ?_
  rw [matches_part hpart]
  simp [rejoin]

variable (same)

/-- What is still asked for after a mismatch: it throws the beginning of the part away that
was found, and the scan starts over with the symbol at hand. -/
def restart (part : List α) (t : α) : List α :=
  match part with
  | [] => []
  | first :: others => if same t first then others else first :: others

/-- The text behind the place where the part is first completed; `pending` is what is
still missing of it. -/
def scan (part : List α) : List α → List α → Option (List α)
  | [], text => some text
  | _ :: _, [] => none
  | w :: pending, t :: text =>
    if same t w then scan part pending text else scan part (restart same part t) text

/-- The scan that runs on to the end of the text: whether it ends with the part complete. -/
def scanEnd (part : List α) : List α → List α → Bool
  | pending, [] => pending.isEmpty
  | [], t :: text => scanEnd part (restart same part t) text
  | w :: pending, t :: text =>
    if same t w then scanEnd part pending text else scanEnd part (restart same part t) text

/-- A place at the end of the text is of use only if nothing is asked for behind it. -/
def check (part : List α) (more : List (List α)) (text : List α) : Option (List α) :=
  (scan same part part text).filter fun rest => !rest.isEmpty || more.all List.isEmpty

/-- The scan is tried again from one symbol further on, as long as there is one. -/
def tries (part : List α) (more : List (List α)) : List α → Option (List α)
  | [] => none
  | t :: text => (check same part more (t :: text)).or (tries part more text)

def place (part : List α) (more : List (List α)) (text : List α) : Option (List α) :=
  (check same part more text).or (tries same part more text)

/-- Each part behind a star is put where the scan places it, without a second thought. -/
def settles : List (List α) → List α → Bool
  | [], text => text.isEmpty
  | [part], text => endsWith same part text
  | part :: next :: more, text =>
    match place same part (next :: more) text with
    | none => false
    | some rest => settles (next :: more) rest

variable {same}

theorem restart_spec (part : List α) (t : α) :
    (restart same part t = part ∧ ∀ text, part ≠ [] → strip same part (t :: text) = none) ∨
      ∃ first others, part = first :: others ∧ same t first = true ∧
        restart same part t = others := by
  cases part with
  | nil => exact .inl ⟨rfl, fun _ h => absurd rfl h⟩
  | cons first others =>
    by_cases hsame : same t first = true
    · exact .inr ⟨first, others, rfl, hsame, if_pos hsame⟩
    · exact .inl ⟨if_neg hsame, fun _ _ => if_neg hsame⟩

theorem scan_sound {part pending text rest : List α} (hscan : scan same part pending text = some rest)
    {done front : List α} (hpart : part = done ++ pending)
    (hdone : strip same done front = some []) :
    ∃ place, place <:+ front ++ text ∧ strip same part place = some rest := by
  induction text generalizing pending done front with
  | nil =>
    cases pending with
    | nil =>
      cases hscan
      refine ⟨front, by simp, ?_⟩
      rw [hpart, List.append_nil]
      exact hdone
    | cons => cases hscan
  | cons t text ih =>
    cases pending with
    | nil =>
      cases hscan
      refine ⟨front ++ t :: text, List.suffix_rfl, ?_⟩
      rw [hpart, List.append_nil]
      simpa using strip_behind hdone (t :: text)
    | cons w pending =>
      rw [scan] at hscan
      split_ifs at hscan with hsame
      · obtain ⟨place, hplace, hstrip⟩ := @ih _ hscan (done ++ [w]) (front ++ [t])
          (by simp [hpart]) (by
            rw [strip_append, strip_behind hdone]
            simp [strip, hsame])
        exact ⟨place, by simpa using hplace, hstrip⟩
      · rcases restart_spec part t with ⟨hfresh, -⟩ | ⟨first, others, hcons, hfirst, hothers⟩
        · rw [hfresh] at hscan
          obtain ⟨place, hplace, hstrip⟩ := @ih _ hscan [] [] rfl rfl
          exact ⟨place, hplace.trans ⟨front ++ [t], by simp⟩, hstrip⟩
        · rw [hothers] at hscan
          obtain ⟨place, hplace, hstrip⟩ := @ih _ hscan [first] [t]
            hcons (by simp [strip, hfirst])
          exact ⟨place, hplace.trans (List.suffix_append front (t :: text)), hstrip⟩

theorem scan_suffix {part pending text rest : List α}
    (hscan : scan same part pending text = some rest) : rest <:+ text := by
  induction text generalizing pending with
  | nil =>
    cases pending with
    | nil =>
      cases hscan
      exact List.suffix_rfl
    | cons => cases hscan
  | cons t text ih =>
    cases pending with
    | nil =>
      cases hscan
      exact List.suffix_rfl
    | cons w pending =>
      rw [scan] at hscan
      split_ifs at hscan
      · exact (ih hscan).trans (List.suffix_cons t text)
      · exact (ih hscan).trans (List.suffix_cons t text)

theorem scanEnd_sound {part pending text : List α} (hscan : scanEnd same part pending text = true)
    {done front : List α} (hpart : part = done ++ pending)
    (hdone : strip same done front = some []) :
    ∃ place, place <:+ front ++ text ∧ strip same part place = some [] := by
  induction text generalizing pending done front with
  | nil =>
    cases pending with
    | nil =>
      refine ⟨front, by simp, ?_⟩
      rw [hpart, List.append_nil]
      exact hdone
    | cons => cases hscan
  | cons t text ih =>
    have hrestart : scanEnd same part (restart same part t) text = true →
        ∃ place, place <:+ front ++ t :: text ∧ strip same part place = some [] := by
      intro hscan
      rcases restart_spec part t with ⟨hfresh, -⟩ | ⟨first, others, hcons, hfirst, hothers⟩
      · rw [hfresh] at hscan
        obtain ⟨place, hplace, hstrip⟩ := @ih _ hscan [] [] rfl rfl
        exact ⟨place, hplace.trans ⟨front ++ [t], by simp⟩, hstrip⟩
      · rw [hothers] at hscan
        obtain ⟨place, hplace, hstrip⟩ := @ih _ hscan [first] [t] hcons (by simp [strip, hfirst])
        exact ⟨place, hplace.trans (List.suffix_append front (t :: text)), hstrip⟩
    cases pending with
    | nil =>
      rw [scanEnd] at hscan
      exact hrestart hscan
    | cons w pending =>
      rw [scanEnd] at hscan
      split_ifs at hscan with hsame
      · obtain ⟨place, hplace, hstrip⟩ := @ih _ hscan (done ++ [w]) (front ++ [t])
          (by simp [hpart]) (by
            rw [strip_append, strip_behind hdone]
            simp [strip, hsame])
        exact ⟨place, by simpa using hplace, hstrip⟩
      · exact hrestart hscan

theorem scanEnd_direct {part pending text : List α} (hstrip : strip same pending text = some []) :
    scanEnd same part pending text = true := by
  induction pending generalizing text with
  | nil =>
    cases hstrip
    rfl
  | cons w pending ih =>
    cases text with
    | nil => cases hstrip
    | cons t text =>
      rw [strip] at hstrip
      split_ifs at hstrip with hsame
      rw [scanEnd, if_pos hsame]
      exact ih hstrip

theorem check_eq_some {part : List α} {more : List (List α)} {text rest : List α} :
    check same part more text = some rest ↔ scan same part part text = some rest ∧
      (rest = [] → more.all List.isEmpty = true) := by
  unfold check
  rw [Option.filter_eq_some_iff]
  cases rest <;> simp

private theorem place_sound {part : List α} {more : List (List α)} {text rest : List α}
    (hplace : place same part more text = some rest) :
    ∃ start, start <:+ text ∧ check same part more start = some rest := by
  have htries : ∀ text, tries same part more text = some rest →
      ∃ start, start <:+ text ∧ check same part more start = some rest := by
    intro text
    induction text with
    | nil =>
      intro htries
      cases htries
    | cons t text ih =>
      intro htries
      rcases Option.or_eq_some_iff.mp htries with hcheck | ⟨-, hmore⟩
      · exact ⟨_, List.suffix_rfl, hcheck⟩
      · obtain ⟨start, hstart, hcheck⟩ := ih hmore
        exact ⟨start, hstart.trans (List.suffix_cons t text), hcheck⟩
  rcases Option.or_eq_some_iff.mp hplace with hcheck | ⟨-, hmore⟩
  · exact ⟨text, List.suffix_rfl, hcheck⟩
  · exact htries text hmore

@[simp] theorem settles_empty {more : List (List α)} :
    settles same more [] = more.all List.isEmpty := by
  induction more with
  | nil => rfl
  | cons part more ih =>
    cases more with
    | nil => simp [settles, endsWith]
    | cons next more =>
      cases part with
      | nil =>
        have hcheck : check same [] (next :: more) [] =
            if (next :: more).all List.isEmpty then some [] else none := by
          simp [check, scan, Option.filter]
        rw [settles, place, hcheck]
        split_ifs with hall
        · simpa [hall] using ih
        · simpa [tries] using hall
      | cons w part => rfl

theorem settles_matches {more : List (List α)} (hplain : ∀ part ∈ more, star ∉ part)
    {text : List α} (hsettles : settles same more text = true) :
    Matches star same text (rejoin star more) := by
  induction more generalizing text with
  | nil => simpa [settles, rejoin] using hsettles
  | cons part more ih =>
    cases more with
    | nil =>
      rw [matches_last (hplain part List.mem_cons_self)]
      exact hsettles
    | cons next more =>
      rw [settles] at hsettles
      split at hsettles
      · cases hsettles
      · rename_i rest hplace
        obtain ⟨start, hstart, hcheck⟩ := place_sound hplace
        obtain ⟨place, hfound, hstrip⟩ :=
          scan_sound (check_eq_some.mp hcheck).1 (List.nil_append part).symm rfl
        rw [rejoin, matches_star]
        refine ⟨place, hfound.trans hstart, ?_⟩
        rw [matches_part (hplain part List.mem_cons_self)]
        exact ⟨rest, hstrip, ih (fun other hother => hplain other
          (List.mem_cons_of_mem _ hother)) hsettles⟩

end Libsax.Lib.Glob
