import Mathlib.Data.List.Basic

/-! Runs of a partial step function. An action that is not enabled has no
successor, so a run exists only when every one of its actions was allowed. -/
namespace Libsax.Lib

/-- Execute a list of actions from left to right. -/
def run (step : σ → α → Option σ) : σ → List α → Option σ
  | state, [] => some state
  | state, action :: rest => (step state action).bind fun next => run step next rest

@[simp] theorem run_nil (step : σ → α → Option σ) (state : σ) :
    run step state [] = some state := rfl

@[simp] theorem run_cons (step : σ → α → Option σ) (state : σ) (action : α) (rest : List α) :
    run step state (action :: rest) =
      (step state action).bind fun next => run step next rest := rfl

theorem run_cons_eq_some {step : σ → α → Option σ} {state final : σ} {action : α}
    {rest : List α} :
    run step state (action :: rest) = some final ↔
      ∃ next, step state action = some next ∧ run step next rest = some final := by
  rw [run_cons]
  exact Option.bind_eq_some_iff

theorem run_append (step : σ → α → Option σ) (state : σ) (left right : List α) :
    run step state (left ++ right) =
      (run step state left).bind fun next => run step next right := by
  induction left generalizing state with
  | nil => rfl
  | cons action rest ih =>
    rw [List.cons_append, run_cons, run_cons, Option.bind_assoc]
    exact congrArg (Option.bind (step state action)) (funext ih)

theorem run_preserves {step : σ → α → Option σ} {inv : σ → Prop} {allowed : α → Prop}
    (hstep : ∀ state action next, allowed action → inv state →
      step state action = some next → inv next)
    {state final : σ} {actions : List α} (hallowed : ∀ action ∈ actions, allowed action)
    (hinv : inv state) (hrun : run step state actions = some final) : inv final := by
  induction actions generalizing state with
  | nil =>
    cases hrun
    exact hinv
  | cons action rest ih =>
    obtain ⟨next, hnext, hrest⟩ := run_cons_eq_some.mp hrun
    have hhead := hstep state action next (hallowed action (by simp)) hinv hnext
    exact ih (fun other hother => hallowed other (by simp [hother])) hhead hrest

theorem run_invariant {step : σ → α → Option σ} {inv : σ → Prop}
    (hstep : ∀ state action next, inv state → step state action = some next → inv next)
    {state final : σ} {actions : List α} (hinv : inv state)
    (hrun : run step state actions = some final) : inv final := by
  have hallowed : ∀ action ∈ actions, (fun _ : α => True) action := fun _ _ => trivial
  exact run_preserves (fun state action next _ => hstep state action next) hallowed hinv hrun

/-- Every step of the run meets a condition on its state and its action. -/
def Along (step : σ → α → Option σ) (allowed : σ → α → Prop) : σ → List α → Prop
  | _, [] => True
  | state, action :: rest =>
    allowed state action ∧ ∀ next, step state action = some next → Along step allowed next rest

instance Along.decidable {step : σ → α → Option σ} {allowed : σ → α → Prop}
    [∀ state action, Decidable (allowed state action)] :
    ∀ (state : σ) (actions : List α), Decidable (Along step allowed state actions)
  | _, [] => .isTrue trivial
  | state, action :: rest =>
    match hstep : step state action with
    | none =>
      decidable_of_iff (allowed state action)
        ⟨fun h => ⟨h, fun _ hnext => nomatch hstep.symm.trans hnext⟩, And.left⟩
    | some next =>
      have : Decidable (Along step allowed next rest) := Along.decidable next rest
      decidable_of_iff (allowed state action ∧ Along step allowed next rest)
        ⟨fun h => ⟨h.1, fun _ hnext => Option.some.inj (hstep.symm.trans hnext) ▸ h.2⟩,
          fun h => ⟨h.1, h.2 next hstep⟩⟩

theorem along_of_forall {step : σ → α → Option σ} {allowed : α → Prop}
    {actions : List α} (hallowed : ∀ action ∈ actions, allowed action) (state : σ) :
    Along step (fun _ => allowed) state actions := by
  induction actions generalizing state with
  | nil => trivial
  | cons action rest ih =>
    exact ⟨hallowed action List.mem_cons_self, fun next _ =>
      ih (fun other hother => hallowed other (List.mem_cons_of_mem _ hother)) next⟩

theorem along_append {step : σ → α → Option σ} {allowed : σ → α → Prop} {state : σ}
    {left right : List α} (hleft : Along step allowed state left)
    (hright : ∀ next, run step state left = some next → Along step allowed next right) :
    Along step allowed state (left ++ right) := by
  induction left generalizing state with
  | nil => exact hright state rfl
  | cons action rest ih =>
    refine ⟨hleft.1, fun next hnext => ih (hleft.2 next hnext) fun final hfinal => ?_⟩
    exact hright final (run_cons_eq_some.mpr ⟨next, hnext, hfinal⟩)

theorem run_along {step : σ → α → Option σ} {allowed : σ → α → Prop} {inv : σ → Prop}
    (hstep : ∀ state action, allowed state action → inv state →
      ∃ next, step state action = some next ∧ inv next)
    {state : σ} {actions : List α} (hallowed : Along step allowed state actions)
    (hinv : inv state) : ∃ final, run step state actions = some final ∧ inv final := by
  induction actions generalizing state with
  | nil => exact ⟨state, rfl, hinv⟩
  | cons action rest ih =>
    obtain ⟨next, hnext, hinvNext⟩ := hstep state action hallowed.1 hinv
    obtain ⟨final, hfinal, hinvFinal⟩ := ih (hallowed.2 next hnext) hinvNext
    exact ⟨final, run_cons_eq_some.mpr ⟨next, hnext, hfinal⟩, hinvFinal⟩

theorem run_along_preserves {step : σ → α → Option σ} {allowed : σ → α → Prop} {inv : σ → Prop}
    (hstep : ∀ state action next, allowed state action → inv state →
      step state action = some next → inv next)
    {state final : σ} {actions : List α} (hallowed : Along step allowed state actions)
    (hinv : inv state) (hrun : run step state actions = some final) : inv final := by
  induction actions generalizing state with
  | nil =>
    cases hrun
    exact hinv
  | cons action rest ih =>
    obtain ⟨next, hnext, hrest⟩ := run_cons_eq_some.mp hrun
    have hhead := hstep state action next hallowed.1 hinv hnext
    exact ih (hallowed.2 next hnext) hhead hrest

/-- Where the allowed steps keep an invariant and the others are seen to break what it
gives, that is the case after every part of a run just when all steps are allowed. -/
theorem everywhere_iff_along {step : σ → α → Option σ} {bounded allowed : σ → α → Prop}
    {good inv : σ → Prop} (hgood : ∀ state, inv state → good state)
    (hstep : ∀ state action, bounded state action → inv state →
      ∃ next, step state action = some next ∧ (allowed state action → inv next) ∧
        (good next → allowed state action))
    {state : σ} {actions : List α} (hbounded : Along step bounded state actions)
    (hinv : inv state) :
    (∀ taken rest next, actions = taken ++ rest → run step state taken = some next → good next) ↔
      Along step allowed state actions := by
  induction actions generalizing state with
  | nil =>
    refine ⟨fun _ => trivial, fun _ taken rest next htaken hrun => ?_⟩
    obtain ⟨rfl, -⟩ := List.append_eq_nil_iff.mp htaken.symm
    obtain rfl := Option.some.inj hrun
    exact hgood state hinv
  | cons action actions ih =>
    obtain ⟨next, hnext, hkeeps, hbreaks⟩ := hstep state action hbounded.1 hinv
    constructor
    · intro heverywhere
      have hallowed := hbreaks (heverywhere [action] actions next rfl
        (run_cons_eq_some.mpr ⟨next, hnext, rfl⟩))
      refine ⟨hallowed, fun other hother => ?_⟩
      obtain rfl := Option.some.inj (hnext.symm.trans hother)
      refine (ih (hbounded.2 next hnext) (hkeeps hallowed)).mp fun taken rest last htaken hrun => ?_
      exact heverywhere (action :: taken) rest last (congrArg (action :: ·) htaken)
        (run_cons_eq_some.mpr ⟨next, hnext, hrun⟩)
    · intro halong taken rest last htaken hrun
      cases taken with
      | nil =>
        obtain rfl := Option.some.inj hrun
        exact hgood state hinv
      | cons head taken =>
        obtain ⟨rfl, hrest⟩ := List.cons.inj htaken
        obtain ⟨other, hother, hrun⟩ := run_cons_eq_some.mp hrun
        obtain rfl := Option.some.inj (hnext.symm.trans hother)
        exact (ih (hbounded.2 next hnext) (hkeeps halong.1)).mpr (halong.2 next hnext) taken rest
          last hrest hrun

/-- Execute a list of calls from left to right; each is answered. -/
def serve (step : σ → α → Option (σ × β)) : σ → List α → Option (σ × List β)
  | state, [] => some (state, [])
  | state, call :: rest => do
    let (next, answer) ← step state call
    let (final, answers) ← serve step next rest
    some (final, answer :: answers)

/-- The calls in a model where each of them is allowed. -/
def replay (spec : τ → α → τ × β) : τ → List α → τ × List β
  | model, [] => (model, [])
  | model, call :: rest =>
    ((replay spec (spec model call).1 rest).1, (spec model call).2 ::
      (replay spec (spec model call).1 rest).2)

private theorem serve_cons_eq_some {step : σ → α → Option (σ × β)} {state final : σ} {call : α}
    {rest : List α} {answers : List β} :
    serve step state (call :: rest) = some (final, answers) ↔
      ∃ next answer later, step state call = some (next, answer) ∧
        serve step next rest = some (final, later) ∧ answers = answer :: later := by
  constructor
  · intro hserve
    obtain ⟨⟨next, answer⟩, hstep, hrest⟩ := Option.bind_eq_some_iff.mp hserve
    obtain ⟨⟨last, later⟩, hlater, hsame⟩ := Option.bind_eq_some_iff.mp hrest
    cases hsame
    exact ⟨next, answer, later, hstep, hlater, rfl⟩
  · rintro ⟨next, answer, later, hstep, hrest, rfl⟩
    rw [serve, hstep]
    simp only [Option.bind_eq_bind, Option.bind_some, hrest]

theorem serve_refines {step : σ → α → Option (σ × β)} {spec : τ → α → τ × β}
    (related : σ → τ → Prop) {allowed : α → Prop}
    (hstep : ∀ {state model call next answer}, allowed call → related state model →
      step state call = some (next, answer) →
        related next (spec model call).1 ∧ answer = (spec model call).2)
    {state final : σ} {model : τ} {calls : List α} {answers : List β}
    (hallowed : ∀ call ∈ calls, allowed call) (hrelated : related state model)
    (hserve : serve step state calls = some (final, answers)) :
    related final (replay spec model calls).1 ∧ answers = (replay spec model calls).2 := by
  induction calls generalizing state model answers with
  | nil =>
    cases hserve
    exact ⟨hrelated, rfl⟩
  | cons call rest ih =>
    obtain ⟨next, answer, later, hcall, hrest, rfl⟩ := serve_cons_eq_some.mp hserve
    obtain ⟨hnext, rfl⟩ := hstep (hallowed call List.mem_cons_self) hrelated hcall
    obtain ⟨hfinal, rfl⟩ := ih (fun other hother => hallowed other (List.mem_cons_of_mem _ hother))
      hnext hrest
    exact ⟨hfinal, rfl⟩

end Libsax.Lib
