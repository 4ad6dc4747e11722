import Libsax.Lib.GlobScan

/-! `g_strmatch`: matching a text with a pattern that may hold stars, in one loop. A
pointer into a string is the list of the characters from there to the terminating NUL. -/
namespace Libsax.Text

open Libsax.Lib.Glob

def star : UInt8 := 42

/-- `*s`, which is NUL behind the last character -/
def deref (s : List UInt8) : UInt8 := s.headD 0

def ended (terminator c : UInt8) : Bool := c = 0 || c = terminator

/-- Lowercase unless case counts; `'A'` is 65 and `'a' - 'A'` is 32. -/
def fold (isCaseSensitive : Bool) (c : UInt8) : UInt8 :=
  if !isCaseSensitive && 65 ≤ c && c ≤ 90 then c + 32 else c

/-- The variables of the loop. `last` is `pAfterLastWild` and `pAfterLastTame`, which are
set together and start as `NULL`. -/
structure Walk where
  str : List UInt8
  pat : List UInt8
  last : Option (List UInt8 × List UInt8)

/-- One round of the loop: the variables it leaves, or the result it returns. -/
def step (isCaseSensitive : Bool) (terminator : UInt8) (s : Walk) : Walk ⊕ Bool :=
  let t := deref s.str
  let w := deref s.pat
  if ended terminator t then
    if ended terminator w then .inr true
    else if w = star then .inl { s with pat := s.pat.tail }
    else
      match s.last with
      | some (wild, tame) =>
        if ended terminator (deref tame) then .inr false
        else .inl ⟨tame, wild, some (wild, tame.tail)⟩
      | none => .inr false
  else
    let t := fold isCaseSensitive t
    let w := fold isCaseSensitive w
    if t ≠ w then
      if w = star then .inl ⟨s.str, s.pat.tail, some (s.pat.tail, s.str)⟩
      else
        match s.last with
        | some (wild, _) =>
          if ended terminator (deref wild) then .inr true
          else
            let w := fold isCaseSensitive (deref wild)
            .inl { s with str := s.str.tail, pat := if t = w then wild.tail else wild }
        | none => .inr false
    else .inl { s with str := s.str.tail, pat := s.pat.tail }

def loop (isCaseSensitive : Bool) (terminator : UInt8) : Nat → Walk → Option Bool
  | 0, _ => none
  | fuel + 1, s =>
    match step isCaseSensitive terminator s with
    | .inr result => some result
    | .inl next => loop isCaseSensitive terminator fuel next

/-- `g_strmatch`, given up after `fuel` rounds -/
def gStrmatch (fuel : Nat) (str pat : List UInt8) (isCaseSensitive : Bool)
    (terminator : UInt8) : Option Bool :=
  loop isCaseSensitive terminator fuel ⟨str, pat, none⟩

/-- Whether the character `t` of a text is what `w` stands for in a pattern. -/
def same (isCaseSensitive : Bool) (t w : UInt8) : Bool :=
  fold isCaseSensitive t = fold isCaseSensitive w

/-- A star stands for any characters, any other character for itself. -/
def Globs (isCaseSensitive : Bool) (str pat : List UInt8) : Prop :=
  Matches star (same isCaseSensitive) str pat

/-- The loop ends, and what it returns is whether the text matches. -/
def Decides (isCaseSensitive : Bool) (str pat : List UInt8) : Prop :=
  ∃ fuel result, gStrmatch fuel str pat isCaseSensitive 0 = some result ∧
    (result = true ↔ Globs isCaseSensitive str pat)

variable {isCaseSensitive : Bool}

@[simp] private theorem fold_star_iff {c : UInt8} : fold isCaseSensitive c = star ↔ c = star := by
  unfold fold star
  split_ifs with hupper
  · simp only [Bool.and_eq_true, decide_eq_true_eq, UInt8.le_iff_toNat_le] at hupper
    rw [← UInt8.toNat_inj, ← UInt8.toNat_inj, UInt8.toNat_add]
    change (c.toNat + 32) % 256 = 42 ↔ c.toNat = 42
    obtain ⟨⟨-, hlow⟩, hhigh⟩ := hupper
    change 65 ≤ c.toNat at hlow
    change c.toNat ≤ 90 at hhigh
    omega
  · rfl

@[simp] private theorem fold_zero_iff {c : UInt8} : fold isCaseSensitive c = 0 ↔ c = 0 := by
  unfold fold
  split_ifs with hupper
  · simp only [Bool.and_eq_true, decide_eq_true_eq, UInt8.le_iff_toNat_le] at hupper
    rw [← UInt8.toNat_inj, ← UInt8.toNat_inj, UInt8.toNat_add]
    obtain ⟨⟨-, hlow⟩, hhigh⟩ := hupper
    change (c.toNat + 32) % 256 = 0 ↔ c.toNat = 0
    change 65 ≤ c.toNat at hlow
    change c.toNat ≤ 90 at hhigh
    omega
  · rfl

structure Tame (t : UInt8) : Prop where
  notEnd : t ≠ 0
  notStar : t ≠ star

section Steps

variable {t w : UInt8} {x p : List UInt8} {last : Option (List UInt8 × List UInt8)}

@[simp] private theorem deref_nil : deref [] = 0 := rfl

@[simp] private theorem deref_cons : deref (w :: p) = w := rfl

@[simp] private theorem ended_nul : ended 0 0 = true := rfl

private theorem ended_of_ne (hend : w ≠ 0) : ended 0 w = false := by simp [ended, hend]

private theorem step_over : step isCaseSensitive 0 ⟨[], [], last⟩ = .inr true := rfl

private theorem step_over_star : step isCaseSensitive 0 ⟨[], star :: p, last⟩ = .inl
    ⟨[], p, last⟩ := rfl

private theorem step_over_none (hend : w ≠ 0) (hplain : w ≠ star) :
    step isCaseSensitive 0 ⟨[], w :: p, none⟩ = .inr false := by
  simp [step, ended_of_ne hend, hplain]

private theorem step_over_last (hend : w ≠ 0) (hplain : w ≠ star) (wild : List UInt8) :
    step isCaseSensitive 0 ⟨[], w :: p, some (wild, [])⟩ = .inr false := by
  simp [step, ended_of_ne hend, hplain]

private theorem step_over_retry {c : UInt8} (hend : w ≠ 0) (hplain : w ≠ star)
    (wild tame : List UInt8)
    (hc : c ≠ 0) :
    step isCaseSensitive 0 ⟨[], w :: p, some (wild, c :: tame)⟩ =
      .inl ⟨c :: tame, wild, some (wild, tame)⟩ := by
  simp [step, ended_of_ne hend, ended_of_ne hc, hplain]

private theorem step_same (htame : Tame t) (hsame : same isCaseSensitive t w = true) :
    step isCaseSensitive 0 ⟨t :: x, w :: p, last⟩ = .inl ⟨x, p, last⟩ := by
  have heq : fold isCaseSensitive t = fold isCaseSensitive w := by simpa [same] using hsame
  simp [step, ended_of_ne htame.notEnd, heq]

private theorem step_star (htame : Tame t) :
    step isCaseSensitive 0 ⟨t :: x, star :: p, last⟩ =
      .inl ⟨t :: x, p, some (p, t :: x)⟩ := by
  have hstar : fold isCaseSensitive star = star := fold_star_iff.mpr rfl
  have hne : fold isCaseSensitive t ≠ star := fun h => htame.notStar (fold_star_iff.mp h)
  simp [step, ended_of_ne htame.notEnd, hstar, hne]

/-- What the pattern asks for is not a star and not what the text has. -/
def Differs (isCaseSensitive : Bool) (t : UInt8) : List UInt8 → Prop
  | [] => True
  | w :: _ => w ≠ star ∧ same isCaseSensitive t w = false

private theorem step_differs (htame : Tame t) (hdiffers : Differs isCaseSensitive t p) :
    step isCaseSensitive 0 ⟨t :: x, p, last⟩ =
      match last with
      | some (wild, _) =>
        if ended 0 (deref wild) then .inr true
        else .inl ⟨x, restart (same isCaseSensitive) wild t, last⟩
      | none => .inr false := by
  have hne : fold isCaseSensitive t ≠ fold isCaseSensitive (deref p) := by
    cases p with
    | nil => exact fun h => htame.notEnd (fold_zero_iff.mp (h.trans (fold_zero_iff.mpr rfl)))
    | cons w p => simpa [same] using hdiffers.2
  have hplain : fold isCaseSensitive (deref p) ≠ star := by
    cases p with
    | nil => exact fun h => absurd (fold_star_iff.mp h) (by decide)
    | cons w p => exact fun h => hdiffers.1 (fold_star_iff.mp h)
  unfold step
  simp only [deref_cons, ended_of_ne htame.notEnd, hplain, hne, Bool.false_eq_true, ne_eq,
    not_false_eq_true, ↓reduceIte]
  rcases last with _ | ⟨_ | ⟨first, others⟩, tame⟩
  · rfl
  · rfl
  · by_cases hfirst : fold isCaseSensitive t = fold isCaseSensitive first <;>
      simp [restart, same, hfirst]

end Steps

/-- The loop returns `result` from here. -/
def Returns (isCaseSensitive : Bool) (s : Walk) (result : Bool) : Prop :=
  ∃ fuel, loop isCaseSensitive 0 fuel s = some result

private theorem returns_next {s next : Walk} {result : Bool}
    (hstep : step isCaseSensitive 0 s = .inl next) :
    Returns isCaseSensitive s result ↔ Returns isCaseSensitive next result := by
  constructor
  · rintro ⟨fuel, hloop⟩
    cases fuel with
    | zero => cases hloop
    | succ fuel =>
      rw [loop, hstep] at hloop
      exact ⟨fuel, hloop⟩
  · rintro ⟨fuel, hloop⟩
    refine ⟨fuel + 1, ?_⟩
    rw [loop, hstep]
    exact hloop

private theorem returns_done {s : Walk} {answer result : Bool}
    (hstep : step isCaseSensitive 0 s = .inr answer) :
    Returns isCaseSensitive s result ↔ result = answer := by
  constructor
  · rintro ⟨fuel, hloop⟩
    cases fuel with
    | zero => cases hloop
    | succ fuel =>
      rw [loop, hstep] at hloop
      exact (Option.some.inj hloop).symm
  · rintro rfl
    refine ⟨1, ?_⟩
    rw [loop, hstep]

/-- The end of the text is reached with the part behind the last star incomplete: the loop
goes back to the text behind that star, and one character further on the next time. -/
def Retried (isCaseSensitive : Bool) (wild : List UInt8) (result : Bool) : List UInt8 → Prop
  | [] => result = false
  | c :: tame => Returns isCaseSensitive ⟨c :: tame, wild, some (wild, tame)⟩ result

section Scans

variable {x pending part rest wild tame : List UInt8} {more : List (List UInt8)} {w : UInt8}
  {result : Bool}

private theorem returns_retried (hw : w ≠ 0) (hplain : w ≠ star) (htame : ∀ c ∈ tame, Tame c) :
    Returns isCaseSensitive ⟨[], w :: rest, some (wild, tame)⟩ result ↔
      Retried isCaseSensitive wild result tame := by
  cases tame with
  | nil => exact returns_done (step_over_last hw hplain wild)
  | cons c tame =>
    exact returns_next (step_over_retry hw hplain wild tame (htame c List.mem_cons_self).notEnd)

/-- A part that is to be found, which has no star. -/
def Plain (part : List UInt8) : Prop := ∀ w ∈ part, w ≠ 0 ∧ w ≠ star

private theorem returns_restart {t : UInt8} {p : List UInt8} (ht : Tame t)
    (hdiffers : Differs isCaseSensitive t p) (hpart : Plain part) (hne : part ≠ []) :
    Returns isCaseSensitive ⟨t :: x, p, some (part ++ rest, tame)⟩ result ↔
      Returns isCaseSensitive
        ⟨x, restart (same isCaseSensitive) part t ++ rest, some (part ++ rest, tame)⟩ result := by
  refine returns_next ((step_differs ht hdiffers).trans ?_)
  obtain ⟨first, others, rfl⟩ := List.exists_cons_of_ne_nil hne
  have hfirst : ended 0 first = false := ended_of_ne (hpart first List.mem_cons_self).1
  by_cases hsame : same isCaseSensitive t first = true <;>
    simp [restart, hfirst, hsame]

theorem Plain.restart (hpart : Plain part) (t : UInt8) :
    Plain (restart (same isCaseSensitive) part t) := by
  rcases restart_spec part t with ⟨hfresh, -⟩ | ⟨first, others, hcons, -, hothers⟩
  · rw [hfresh]
    exact hpart
  · rw [hothers]
    exact fun w hw => hpart w (hcons ▸ List.mem_cons_of_mem _ hw)

private theorem returns_scan (hpart : Plain part) (hpending : Plain pending)
    (hne : pending = [] ∨ part ≠ []) (hx : ∀ c ∈ x, Tame c) (htame : ∀ c ∈ tame, Tame c) :
    Returns isCaseSensitive ⟨x, pending ++ rest, some (part ++ rest, tame)⟩ result ↔
      match scan (same isCaseSensitive) part pending x with
      | some behind => Returns isCaseSensitive ⟨behind, rest, some (part ++ rest, tame)⟩ result
      | none => Retried isCaseSensitive (part ++ rest) result tame := by
  induction x generalizing pending with
  | nil =>
    cases pending with
    | nil => rfl
    | cons w pending =>
      obtain ⟨hw, hplain⟩ := hpending w List.mem_cons_self
      exact returns_retried hw hplain htame
  | cons t x ih =>
    have hx' : ∀ c ∈ x, Tame c := fun c hc => hx c (List.mem_cons_of_mem _ hc)
    cases pending with
    | nil => rfl
    | cons w pending =>
      have hnonempty : part ≠ [] := hne.resolve_left (by simp)
      have ht := hx t List.mem_cons_self
      rw [scan]
      by_cases hsame : same isCaseSensitive t w = true
      · rw [if_pos hsame, List.cons_append, returns_next (step_same ht hsame)]
        exact ih (fun c hc => hpending c (List.mem_cons_of_mem _ hc)) (.inr hnonempty) hx'
      · have hdiffers : Differs isCaseSensitive t (w :: (pending ++ rest)) :=
          ⟨(hpending w List.mem_cons_self).2, by simpa using hsame⟩
        rw [if_neg hsame, List.cons_append, returns_restart ht hdiffers hpart hnonempty]
        exact ih (hpart.restart t) (.inr hnonempty) hx'

private theorem returns_scanEnd (hpart : Plain part) (hpending : Plain pending) (hne : part ≠ [])
    (hx : ∀ c ∈ x, Tame c) (htame : ∀ c ∈ tame, Tame c) :
    Returns isCaseSensitive ⟨x, pending, some (part, tame)⟩ result ↔
      if scanEnd (same isCaseSensitive) part pending x then result = true
      else Retried isCaseSensitive part result tame := by
  induction x generalizing pending with
  | nil =>
    cases pending with
    | nil => exact returns_done step_over
    | cons w pending =>
      obtain ⟨hw, hplain⟩ := hpending w List.mem_cons_self
      exact returns_retried hw hplain htame
  | cons t x ih =>
    have hx' : ∀ c ∈ x, Tame c := fun c hc => hx c (List.mem_cons_of_mem _ hc)
    have ht := hx t List.mem_cons_self
    have hrestart : ∀ p, Differs isCaseSensitive t p →
        (Returns isCaseSensitive ⟨t :: x, p, some (part, tame)⟩ result ↔
          if scanEnd (same isCaseSensitive) part (restart (same isCaseSensitive) part t) x then
            result = true
          else Retried isCaseSensitive part result tame) := by
      intro p hdiffers
      have hstep : Returns isCaseSensitive ⟨t :: x, p, some (part ++ [], tame)⟩ result ↔
          Returns isCaseSensitive ⟨x, restart (same isCaseSensitive) part t ++ [],
            some (part ++ [], tame)⟩ result := returns_restart ht hdiffers hpart hne
      rw [List.append_nil, List.append_nil] at hstep
      exact hstep.trans (ih (hpart.restart t) hx')
    cases pending with
    | nil => exact hrestart [] trivial
    | cons w pending =>
      rw [scanEnd]
      by_cases hsame : same isCaseSensitive t w = true
      · rw [if_pos hsame, returns_next (step_same ht hsame)]
        exact ih (fun c hc => hpending c (List.mem_cons_of_mem _ hc)) hx'
      · rw [if_neg hsame]
        exact hrestart (w :: pending)
          ⟨(hpending w List.mem_cons_self).2, by simpa using hsame⟩

private theorem returns_end (hmore : ∀ part ∈ more, Plain part) (htame : ∀ c ∈ tame, Tame c) :
    Returns isCaseSensitive ⟨[], rejoin star more, some (wild, tame)⟩ result ↔
      if more.all List.isEmpty then result = true
      else Retried isCaseSensitive wild result tame := by
  induction more with
  | nil => exact returns_done step_over
  | cons part more ih =>
    have ih := ih fun other hother => hmore other (List.mem_cons_of_mem _ hother)
    rw [rejoin, returns_next step_over_star]
    cases part with
    | nil => simpa using ih
    | cons w part =>
      obtain ⟨hw, hplain⟩ := hmore (w :: part) List.mem_cons_self w List.mem_cons_self
      simpa using returns_retried hw hplain htame

private theorem returns_check {next : List UInt8} (hpart : Plain part)
    (hmore : ∀ other ∈ next :: more, Plain other) (hx : ∀ c ∈ x, Tame c)
    (htame : ∀ c ∈ tame, Tame c)
    (hnext : ∀ y, (∀ c ∈ y, Tame c) →
      (Returns isCaseSensitive ⟨y, next ++ rejoin star more, some (next ++ rejoin star more, y)⟩
        result ↔ result = settles (same isCaseSensitive) (next :: more) y)) :
    Returns isCaseSensitive ⟨x, part ++ rejoin star (next :: more),
        some (part ++ rejoin star (next :: more), tame)⟩ result ↔
      match check (same isCaseSensitive) part (next :: more) x with
      | some rest => result = settles (same isCaseSensitive) (next :: more) rest
      | none => Retried isCaseSensitive (part ++ rejoin star (next :: more)) result tame := by
  have hne : part = [] ∨ part ≠ [] := Classical.em _
  rw [returns_scan hpart hpart hne hx htame]
  unfold check
  cases hscan : scan (same isCaseSensitive) part part x with
  | none => rfl
  | some behind =>
    cases behind with
    | nil =>
      dsimp only
      rw [returns_end hmore htame]
      by_cases hall : (next :: more).all List.isEmpty = true
      · simp only [hall, if_true, Option.filter_some, Bool.or_true, settles_empty]
      · simp only [hall, if_false, Option.filter_some, List.isEmpty_nil, Bool.not_true,
          Bool.or_self, Bool.false_eq_true]
    | cons c behind =>
      have hbehind : ∀ d ∈ c :: behind, Tame d := fun d hd => hx d ((scan_suffix hscan).subset hd)
      dsimp only
      rw [rejoin, returns_next (step_star (hbehind c List.mem_cons_self)), hnext _ hbehind]
      simp [Option.filter]

private theorem returns_tries {next : List UInt8} (hpart : Plain part)
    (hmore : ∀ other ∈ next :: more, Plain other) (hx : ∀ c ∈ x, Tame c)
    (hnext : ∀ y, (∀ c ∈ y, Tame c) →
      (Returns isCaseSensitive ⟨y, next ++ rejoin star more, some (next ++ rejoin star more, y)⟩
        result ↔ result = settles (same isCaseSensitive) (next :: more) y)) :
    Retried isCaseSensitive (part ++ rejoin star (next :: more)) result x ↔
      match tries (same isCaseSensitive) part (next :: more) x with
      | some rest => result = settles (same isCaseSensitive) (next :: more) rest
      | none => result = false := by
  induction x with
  | nil => rfl
  | cons c x ih =>
    have hx' : ∀ d ∈ x, Tame d := fun d hd => hx d (List.mem_cons_of_mem _ hd)
    rw [Retried, returns_check hpart hmore hx hx' hnext, tries]
    cases hcheck : check (same isCaseSensitive) part (next :: more) (c :: x) with
    | none => simpa using ih hx'
    | some rest => simp

private theorem returns_last (hpart : Plain part) (hx : ∀ c ∈ x, Tame c) :
    Returns isCaseSensitive ⟨x, part, some (part, x)⟩ result ↔
      result = endsWith (same isCaseSensitive) part x := by
  by_cases hne : part = []
  · subst hne
    have hends : endsWith (same isCaseSensitive) [] x = true :=
      endsWith_iff.mpr ⟨[], List.nil_suffix, rfl⟩
    rw [hends]
    cases x with
    | nil => exact returns_done step_over
    | cons t x => exact returns_done (step_differs (hx t List.mem_cons_self) trivial)
  · have hfound : ∀ {x}, scanEnd (same isCaseSensitive) part part x = true →
        endsWith (same isCaseSensitive) part x = true := by
      intro x hscan
      obtain ⟨place, hplace, hstrip⟩ := scanEnd_sound hscan (List.nil_append part).symm rfl
      exact endsWith_iff.mpr ⟨place, hplace, hstrip⟩
    have htries : ∀ {x}, (∀ c ∈ x, Tame c) → (Retried isCaseSensitive part result x ↔
        result = endsWith (same isCaseSensitive) part x) := by
      intro x hx
      induction x with
      | nil =>
        have hempty : part.isEmpty = false := by simpa using hne
        rw [Retried, endsWith, hempty]
      | cons c x ih =>
        have hx' : ∀ d ∈ x, Tame d := fun d hd => hx d (List.mem_cons_of_mem _ hd)
        rw [Retried, returns_scanEnd hpart hpart hne hx hx']
        split_ifs with hscan
        · rw [hfound hscan]
        · rw [ih hx', endsWith]
          have hnot : (strip (same isCaseSensitive) part (c :: x)).any List.isEmpty = false := by
            rw [Bool.eq_false_iff]
            intro hany
            obtain ⟨rest, hstrip, hrest⟩ := (Option.any_eq_true _ _).mp hany
            rw [List.isEmpty_iff.mp hrest] at hstrip
            exact hscan (scanEnd_direct hstrip)
          rw [hnot, Bool.false_or]
    rw [returns_scanEnd hpart hpart hne hx hx]
    split_ifs with hscan
    · rw [hfound hscan]
    · exact htries hx

private theorem returns_settles (hpart : Plain part) (hmore : ∀ other ∈ more, Plain other)
    (hx : ∀ c ∈ x, Tame c) :
    Returns isCaseSensitive ⟨x, part ++ rejoin star more, some (part ++ rejoin star more, x)⟩
        result ↔
      result = settles (same isCaseSensitive) (part :: more) x := by
  induction more generalizing part x with
  | nil =>
    rw [rejoin, List.append_nil]
    exact returns_last hpart hx
  | cons next more ih =>
    have hnext := fun y hy => @ih y next (hmore next List.mem_cons_self)
      (fun other hother => hmore other (List.mem_cons_of_mem _ hother)) hy
    rw [returns_check hpart hmore hx hx hnext, settles, place]
    cases hcheck : check (same isCaseSensitive) part (next :: more) x with
    | none =>
      simp only [Option.none_or]
      rw [returns_tries hpart hmore hx hnext]
      cases tries (same isCaseSensitive) part (next :: more) x <;> rfl
    | some rest => rfl

private theorem returns_stars (hmore : ∀ other ∈ more, Plain other) :
    Returns isCaseSensitive ⟨[], rejoin star more, none⟩ result ↔
      result = more.all List.isEmpty := by
  induction more with
  | nil => exact returns_done step_over
  | cons part more ih =>
    have ih := ih fun other hother => hmore other (List.mem_cons_of_mem _ hother)
    rw [rejoin, returns_next step_over_star]
    cases part with
    | nil => exact ih
    | cons w part =>
      obtain ⟨hw, hplain⟩ := hmore (w :: part) List.mem_cons_self w List.mem_cons_self
      exact returns_done (step_over_none hw hplain)

private theorem returns_first (hpart : Plain part) (hmore : ∀ other ∈ more, Plain other)
    (hx : ∀ c ∈ x, Tame c) :
    Returns isCaseSensitive ⟨x, part ++ rejoin star more, none⟩ result ↔
      result = (strip (same isCaseSensitive) part x).any (settles (same isCaseSensitive) more) := by
  induction part generalizing x with
  | nil =>
    rw [List.nil_append, strip, Option.any_some]
    cases x with
    | nil =>
      rw [settles_empty]
      exact returns_stars hmore
    | cons t x =>
      have ht := hx t List.mem_cons_self
      cases more with
      | nil => exact returns_done (step_differs ht trivial)
      | cons next more =>
        rw [rejoin, returns_next (step_star ht)]
        exact returns_settles (hmore next List.mem_cons_self)
          (fun other hother => hmore other (List.mem_cons_of_mem _ hother)) hx
  | cons w part ih =>
    obtain ⟨hw, hplain⟩ := hpart w List.mem_cons_self
    cases x with
    | nil => exact returns_done (step_over_none hw hplain)
    | cons t x =>
      have ht := hx t List.mem_cons_self
      rw [strip]
      by_cases hsame : same isCaseSensitive t w = true
      · rw [if_pos hsame, List.cons_append, returns_next (step_same ht hsame)]
        exact ih (fun c hc => hpart c (List.mem_cons_of_mem _ hc))
          fun c hc => hx c (List.mem_cons_of_mem _ hc)
      · have hdiffers : Differs isCaseSensitive t (w :: (part ++ rejoin star more)) :=
          ⟨hplain, by simpa using hsame⟩
        rw [if_neg hsame, List.cons_append]
        exact returns_done (step_differs ht hdiffers)

end Scans

private theorem gStrmatch_settled {str pat : List UInt8} (hstr : ∀ c ∈ str, c ≠ 0 ∧ c ≠ star)
    (hpat : ∀ w ∈ pat, w ≠ 0) {result : Bool} :
    (∃ fuel, gStrmatch fuel str pat isCaseSensitive 0 = some result) ↔
      result = settled star (same isCaseSensitive) str pat := by
  have hplain : ∀ part, part ⊆ pat → star ∉ part → Plain part := fun part hsubset hnotMem w hw =>
    ⟨hpat w (hsubset hw), fun hstar => hnotMem (hstar ▸ hw)⟩
  obtain ⟨hfirst, hmore⟩ := star_notMem_parts star pat
  have hparts := parts_rejoin star pat
  have hrun : Returns isCaseSensitive ⟨str, pat, none⟩ result ↔
      result = settled star (same isCaseSensitive) str pat := by
    nth_rewrite 1 [← hparts]
    refine returns_first (hplain _ ?_ hfirst) (fun part hpart => hplain part ?_ (hmore part hpart))
      fun c hc => ⟨(hstr c hc).1, (hstr c hc).2⟩
    · nth_rewrite 2 [← hparts]
      exact List.subset_append_left _ _
    · nth_rewrite 1 [← hparts]
      exact List.Subset.trans (subset_rejoin star hpart) (List.subset_append_right _ _)
  exact hrun

/-- The loop ends, and misses no match unless a text that matches does not settle. -/
private theorem decides_iff_settled {str pat : List UInt8} (hstr : ∀ c ∈ str, c ≠ 0 ∧ c ≠ star)
    (hpat : ∀ w ∈ pat, w ≠ 0) :
    Decides isCaseSensitive str pat ↔
      (Globs isCaseSensitive str pat → settled star (same isCaseSensitive) str pat = true) := by
  constructor
  · rintro ⟨fuel, result, hresult, htruth⟩ hglobs
    rw [← (gStrmatch_settled hstr hpat).mp ⟨fuel, hresult⟩]
    exact htruth.mpr hglobs
  · intro hsettles
    obtain ⟨fuel, hresult⟩ :=
      (@gStrmatch_settled isCaseSensitive _ _ hstr hpat _).mpr rfl
    exact ⟨fuel, _, hresult, settled_matches, hsettles⟩

/-- `g_strmatch` ends with the right answer if the loop begins each part, as long as more than
stars is left of the pattern, where it first stands in what is left of the text; so it does
if the text overruns no part between two stars. A part that is passed over where it first
stands is missed if what comes behind it does not come again behind another place of it. -/
theorem g_strmatch_decides (isCaseSensitive : Bool) (str pat : List UInt8)
    (hstr : ∀ c ∈ str, c ≠ 0 ∧ c ≠ star) (hpat : ∀ w ∈ pat, w ≠ 0) :
    ((Globs isCaseSensitive str pat → FoundIn star (same isCaseSensitive) str pat) →
      Decides isCaseSensitive str pat) ∧
    ((∀ part ∈ between star pat, ¬ Overrun (same isCaseSensitive) part str) →
      Decides isCaseSensitive str pat) ∧
    ∀ part front place back x y w, str = front ++ x :: (back ++ [y]) →
      pat = star :: (part ++ [star, w, star]) → star ∉ part → w ≠ star →
      First (same isCaseSensitive) part front place →
      strip (same isCaseSensitive) part place = some [] →
      strip (same isCaseSensitive) part back = some [] →
      (∀ v ∈ part, ¬ same isCaseSensitive x v = true) → same isCaseSensitive x w = true →
      ¬ same isCaseSensitive y w = true →
      (Decides isCaseSensitive str pat ↔ Begun (same isCaseSensitive) part front place) := by
  refine ⟨fun hfound => ?_, fun hclear => ?_, ?_⟩
  · exact (decides_iff_settled hstr hpat).mpr fun hglobs =>
      matches_settled (hfound hglobs) hglobs
  · exact (decides_iff_settled hstr hpat).mpr fun hglobs =>
      matches_settled (foundIn_of_clear hclear hglobs) hglobs
  · rintro part front place back x y w rfl rfl hplain hw hfirst hend hback hx hxw hyw
    have hglobs : Globs isCaseSensitive (front ++ x :: (back ++ [y]))
        (star :: (part ++ [star, w, star])) := matches_first hplain hw hfirst.within hend hxw
    rw [decides_iff_settled hstr hpat,
      ← settled_iff_begun hplain hw hfirst hend hback hx hxw hyw]
    exact ⟨fun hsettles => hsettles hglobs, fun hsettled _ => hsettled⟩

/-- `*sip*i` and `mississippi`; `*aab*X*` and `aaabXaabY`, where the first `aab` is not begun. -/
theorem g_strmatch_decides_sip :
    Decides false [109, 105, 115, 115, 105, 115, 115, 105, 112, 112, 105]
      [star, 115, 105, 112, star, 105] ∧
    ¬ Decides true [97, 97, 97, 98, 88, 97, 97, 98, 89]
      [star, 97, 97, 98, star, 88, star] := by
  constructor
  · refine (g_strmatch_decides false [109, 105, 115, 115, 105, 115, 115, 105, 112, 112, 105]
      [star, 115, 105, 112, star, 105] (by simp [star]) (by simp [star])).1 fun _ rest hrest => ?_
    cases hrest
    exact .inr ⟨[115, 105, 112, 112, 105], [112, 105], by decide,
      .head rfl (.head rfl (.head rfl (.head rfl (.head rfl .refl)))), rfl, .inl rfl⟩
  · rw [(g_strmatch_decides true [97, 97, 97, 98, 88, 97, 97, 98, 89]
      [star, 97, 97, 98, star, 88, star] (by simp [star]) (by simp [star])).2.2
      [97, 97, 98] [97, 97, 97, 98] [97, 97, 98] [97, 97, 98] 88 89 88 rfl rfl (by decide)
      (by decide) (by decide) rfl rfl (by simp [same, fold]) rfl (by decide)]
    intro hbegun
    rcases hbegun.cases_head with heq | ⟨next, hbreak, hbegun⟩
    · exact absurd heq (by decide)
    · cases hbreak
      exact absurd (Begun.within hbegun).length_le (by decide)

/-- `*aab*X*` matches `aaabXaabY`. The scan drops the `aa` in front of the third `a`, takes
the second `aab` for the part, and finds no `X` behind it. -/
theorem g_strmatch_overruns :
    ¬ ∀ (isCaseSensitive : Bool) (str pat : List UInt8), (∀ c ∈ str, c ≠ 0 ∧ c ≠ star) →
      (∀ w ∈ pat, w ≠ 0) → Decides isCaseSensitive str pat := by
  intro hall
  have hstr : ∀ c ∈ ([97, 97, 97, 98, 88, 97, 97, 98, 89] : List UInt8), c ≠ 0 ∧ c ≠ star := by
    simp [star]
  have hpat : ∀ w ∈ [star, 97, 97, 98, star, 88, star], w ≠ 0 := by simp [star]
  obtain ⟨fuel, result, hresult, htruth⟩ := hall true _ _ hstr hpat
  have hfalse : result = false := (gStrmatch_settled hstr hpat).mp ⟨fuel, hresult⟩
  have hglobs : Globs true [97, 97, 97, 98, 88, 97, 97, 98, 89]
      [star, 97, 97, 98, star, 88, star] :=
    .star [97] (.plain (by decide) (by decide) (.plain (by decide) (by decide)
      (.plain (by decide) (by decide) (.star [] (.plain (by decide) (by decide)
        (.star [97, 97, 98, 89] .nil))))))
  rw [hfalse] at htruth
  exact Bool.false_ne_true (htruth.mpr hglobs)

end Libsax.Text
