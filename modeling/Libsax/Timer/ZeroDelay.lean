import Libsax.Timer.Runs

/-! Timers that are started with a delay of zero: outside of a callback they hang in
the list of the current tick, which is not looked at before the next revolution. -/
namespace Libsax.Timer

open Libsax.Lib

variable {system next : System} {shape : Shape} {due : Cell → Nat} {serial tick : Nat}

/-- The timer fires in tick `tick`, if it is not cancelled. -/
structure Booked (serial tick : Nat) (system : System) : Prop where
  known : serial < system.started.length
  pending : (∃ shape due, Live system shape due ∧
      Books system (shape.pending.map system.timer.serial) ∧
      ∀ cell ∈ shape.pending, system.timer.serial cell = serial → due cell = tick) ∨
    (system.control = .destroyed ∧ Books system [])
  fired : ∀ ended ∈ system.ended, ended.serial = serial → ended.outcome = .fired →
    ended.ticks = tick

theorem Booked.inv (hbooked : Booked serial tick system) : Inv system := by
  rcases hbooked.pending with ⟨shape, due, hlive, hbooks, -⟩ | hdestroyed
  · exact .inl ⟨shape, due, hlive, hbooks⟩
  · exact .inr hdestroyed

theorem Booked.of_goes (hknown : serial < system.started.length)
    (hdue : ∀ cell ∈ shape.pending, system.timer.serial cell = serial → due cell = tick)
    (hfired : ∀ ended ∈ system.ended, ended.serial = serial → ended.outcome = .fired →
      ended.ticks = tick) (hgoes : Goes system shape due next) : Booked serial tick next := by
  refine ⟨Nat.lt_of_lt_of_le hknown hgoes.started.length_le, ?_, fun ended hmem hserial hout => ?_⟩
  · rcases hgoes.carries with ⟨shape', due', hlive, hbooks, hcarries⟩ | hdestroyed
    · refine .inl ⟨shape', due', hlive, hbooks, fun cell hmem hcell => ?_⟩
      obtain ⟨hold, hsame, hdue'⟩ := hcarries.kept cell hmem (by omega)
      rw [hdue']
      exact hdue cell hold (hsame ▸ hcell)
    · exact .inr hdestroyed
  · rcases hgoes.ends ended hmem with hold | ⟨cell, hcell, hsame, hticks⟩
    · exact hfired ended hold hserial hout
    · rw [hticks hout]
      exact hdue cell hcell (hsame ▸ hserial)

theorem Booked.step {action : Action} (hbooked : Booked serial tick system)
    (hstep : Timer.step system action = some next) : Booked serial tick next := by
  have henabled := enabled_of_step hstep
  rcases hbooked.pending with ⟨shape, due, hlive, hbooks, hdue⟩ | hdestroyed
  · obtain ⟨other, hother, hgoes⟩ := hlive.enabled hbooks henabled
    rw [hstep] at hother
    cases hother
    exact .of_goes hbooked.known hdue hbooked.fired hgoes
  · obtain ⟨other, hother, -⟩ := hbooked.inv.enabled henabled
    have hcontrol := hdestroyed.1
    cases action with
    | cancel node =>
      cases node with
      | head _ => exact henabled.elim
      | node number => exact absurd henabled.1 (by simp [hcontrol, Control.calls])
    | start | poll | advance | destroy =>
      simp [System.Enabled, hcontrol, Control.calls] at henabled

theorem Booked.run {actions : List Action} {final : System} (hbooked : Booked serial tick system)
    (hrun : Lib.run Timer.step system actions = some final) : Booked serial tick final :=
  run_invariant (fun _ _ _ hinv hstep => Booked.step hinv hstep) hbooked hrun

theorem Books.serial_lt {pending : List Nat} (hbooks : Books system pending) {ended : Ended}
    (hmem : ended ∈ system.ended) : ended.serial < system.started.length := by
  obtain ⟨started, hstarted, -⟩ := hbooks.handed ended hmem
  exact (List.getElem?_eq_some_iff.mp hstarted).1

private theorem start_started {delayTicks : UInt32} {userData : Nat} {memory : Bool}
    (hstart : step system (.start delayTicks userData memory) = some next) :
    (next.started = system.started ∨
        next.started = system.started ++ [⟨system.ticks, delayTicks, userData⟩]) ∧
      next.control = system.control ∧ next.ticks = system.ticks ∧ next.ended = system.ended := by
  simp only [step, System.start] at hstart
  split_ifs at hstart
  obtain ⟨⟨timer, result⟩, -, hstart⟩ := Option.bind_eq_some_iff.mp hstart
  cases result with
  | none =>
    obtain rfl := Option.some.inj hstart
    exact ⟨.inl rfl, rfl, rfl, rfl⟩
  | some node =>
    obtain rfl := Option.some.inj hstart
    exact ⟨.inr rfl, rfl, rfl, rfl⟩

theorem Inv.booked_zero (hinv : Inv system) (hidle : system.control = .idle) {userData : Nat}
    {memory : Bool} (hstart : Timer.step system (.start 0 userData memory) = some next)
    (hnew : next.started ≠ system.started) :
    Booked system.started.length (system.ticks + 256) next := by
  obtain ⟨hstarted, -, -, hended⟩ := start_started hstart
  replace hstarted := hstarted.resolve_left hnew
  rcases hinv with ⟨shape, due, hlive, hbooks⟩ | ⟨hcontrol, -⟩
  · obtain ⟨other, hother, hgoes⟩ := hlive.enabled hbooks (enabled_of_step hstart)
    rw [hstart] at hother
    cases hother
    refine ⟨by rw [hstarted]; simp, ?_, fun ended hmem hserial _ => ?_⟩
    · rcases hgoes.carries with ⟨shape', due', hlive', hbooks', hcarries⟩ | hdestroyed
      · refine .inl ⟨shape', due', hlive', hbooks', fun cell hmem hcell => ?_⟩
        obtain ⟨started, hsame, hdue⟩ := hcarries.fresh cell hmem hcell
        rw [hstarted] at hsame
        obtain rfl := List.singleton_injective (List.append_cancel_left hsame)
        rw [hdue, hidle]
        rfl
      · exact .inr hdestroyed
    · rw [hended] at hmem
      have hlt := hbooks.serial_lt hmem
      omega
  · rw [hidle] at hcontrol
    cases hcontrol

theorem Inv.start_idle (hinv : Inv system) (hidle : system.control = .idle) (delayTicks : UInt32)
    (userData : Nat) : ∃ next, Timer.step system (.start delayTicks userData true) = some next ∧
      next.started = system.started ++ [⟨system.ticks, delayTicks, userData⟩] := by
  have henabled : system.Enabled (.start delayTicks userData true) := by
    rw [System.Enabled, hidle]
    rfl
  obtain ⟨next, hnext, -⟩ := hinv.enabled henabled
  refine ⟨next, hnext, ?_⟩
  simp only [Timer.step, System.start] at hnext
  split_ifs at hnext
  obtain ⟨⟨timer, result⟩, hstart, hnext⟩ := Option.bind_eq_some_iff.mp hnext
  cases result with
  | none =>
    exfalso
    obtain ⟨⟨allocated, node⟩, halloc, hstart⟩ := Option.bind_eq_some_iff.mp hstart
    cases node with
    | none =>
      unfold xslabAlloc at halloc
      split_ifs at halloc
      · obtain ⟨ptr, -, halloc⟩ := Option.bind_eq_some_iff.mp halloc
        cases halloc
      · cases halloc
      · contradiction
    | some node =>
      obtain ⟨scheduled, -, hstart⟩ := Option.bind_eq_some_iff.mp hstart
      cases hstart
  | some node =>
    obtain rfl := Option.some.inj hnext
    rfl

/-- How many steps a tick that is being fired still takes: two for every timer that has
not ended, and the return of a callback. -/
def Control.stepsLeft (control : Control) (waiting : Nat) : Nat :=
  match control with
  | .callback .. => 2 * waiting + 1
  | _ => 2 * waiting

theorem Inv.ended_le (hinv : Inv system) : system.ended.length ≤ system.started.length := by
  have hledger : ∃ pending, Books system pending := by
    rcases hinv with ⟨shape, due, -, hbooks⟩ | ⟨-, hbooks⟩
    · exact ⟨_, hbooks⟩
    · exact ⟨_, hbooks⟩
  obtain ⟨pending, hbooks⟩ := hledger
  have hlength := hbooks.ledger.length_eq
  simp only [List.length_append, List.length_map, List.length_range] at hlength
  omega

/-- The state in the middle of the last tick of a poll. -/
def Control.lastTick : Control → Prop
  | .firing lapsedTicks _ => lapsedTicks = 0
  | .callback lapsedTicks _ _ => lapsedTicks = 0
  | _ => False

private theorem advance_lastTick (hlast : system.control.lastTick)
    (hadvance : step system .advance = some next) :
    next.ticks = system.ticks ∧ next.started = system.started ∧
      (∀ ended ∈ next.ended, ended ∈ system.ended ∨
        ended.outcome = .fired ∧ ended.ticks = system.ticks) ∧
      (next.control = .polling 0 ∨ next.control.lastTick ∧
        ∀ total, next.ended.length ≤ total →
          next.control.stepsLeft (total - next.ended.length) <
            system.control.stepsLeft (total - system.ended.length)) := by
  simp only [step, System.advance] at hadvance
  cases hcontrol : system.control with
  | idle | polling | destroyed =>
    rw [hcontrol] at hlast
    exact hlast.elim
  | firing lapsedTicks head =>
    rw [hcontrol] at hlast
    obtain rfl : lapsedTicks = 0 := hlast
    rw [hcontrol] at hadvance
    obtain ⟨node, -, hadvance⟩ := Option.bind_eq_some_iff.mp hadvance
    split_ifs at hadvance with hempty
    · obtain rfl := Option.some.inj hadvance
      exact ⟨rfl, rfl, fun _ hmem => .inl hmem, .inl rfl⟩
    · obtain ⟨links, -, hadvance⟩ := Option.bind_eq_some_iff.mp hadvance
      obtain rfl := Option.some.inj hadvance
      refine ⟨rfl, rfl, fun ended hmem => ?_, .inr ⟨rfl, fun total hle => ?_⟩⟩
      · rcases List.mem_append.mp hmem with h | h
        · exact .inl h
        · rw [List.mem_singleton.mp h]
          exact .inr ⟨rfl, rfl⟩
      · simp only [List.length_append, List.length_singleton, Control.stepsLeft] at hle ⊢
        omega
  | callback lapsedTicks head node =>
    rw [hcontrol] at hlast
    obtain rfl : lapsedTicks = 0 := hlast
    rw [hcontrol] at hadvance
    obtain rfl := Option.some.inj hadvance
    exact ⟨rfl, rfl, fun _ hmem => .inl hmem, .inr ⟨rfl, fun total _ => Nat.lt_succ_self _⟩⟩

theorem Inv.drain (hinv : Inv system) (hlast : system.control.lastTick) :
    ∃ count final, run Timer.step system (List.replicate count .advance) = some final ∧
      final.control = .idle ∧ final.ticks = system.ticks ∧ final.started = system.started ∧
      ∀ ended ∈ final.ended, ended ∈ system.ended ∨
        ended.outcome = .fired ∧ ended.ticks = system.ticks := by
  induction hleft : system.control.stepsLeft (system.started.length - system.ended.length)
    using Nat.strong_induction_on generalizing system with
  | _ left ih =>
    have henabled : system.Enabled .advance := by
      constructor <;> intro h <;> rw [h] at hlast <;> exact hlast
    obtain ⟨next, hnext, hinvNext⟩ := hinv.enabled henabled
    obtain ⟨hticks, hstarted, hended, hpolling | ⟨hlastNext, hfewer⟩⟩ :=
      advance_lastTick hlast hnext
    · have hidle : Timer.step next .advance = some { next with control := .idle } := by
        simp only [Timer.step, System.advance, hpolling]
        rfl
      refine ⟨2, { next with control := .idle }, ?_, rfl, hticks, hstarted, hended⟩
      simp only [List.replicate, run_cons, hnext, Option.bind_some, hidle]
      rfl
    · have hless := hfewer system.started.length (hstarted ▸ hinvNext.ended_le)
      obtain ⟨count, final, hrun, hidle, hticks', hstarted', hended'⟩ :=
        ih _ (hleft ▸ hless) hinvNext hlastNext (by rw [hstarted])
      refine ⟨count + 1, final, ?_, hidle, hticks'.trans hticks, hstarted'.trans hstarted,
        fun ended hmem => ?_⟩
      · rw [List.replicate_succ, run_cons, hnext]
        exact hrun
      · rcases hended' ended hmem with h | ⟨hout, hat⟩
        · exact hended ended h
        · exact .inr ⟨hout, hat.trans hticks⟩

theorem Inv.pollOne (hinv : Inv system) (hidle : system.control = .idle) :
    ∃ actions final, run Timer.step system actions = some final ∧
      final.control = .idle ∧ final.ticks = system.ticks + 1 ∧ final.started = system.started ∧
      ∀ ended ∈ final.ended, ended ∈ system.ended ∨
        ended.outcome = .fired ∧ ended.ticks = system.ticks + 1 := by
  have hpoll : Timer.step system (.poll 1) = some { system with control := .polling 1 } :=
    if_pos hidle
  have hpolling := hinv.step hpoll
  obtain ⟨firing, hfiring, hinvFiring⟩ := @Inv.enabled _ .advance hpolling ⟨by simp, by simp⟩
  have hshape : firing.control.lastTick ∧ firing.ticks = system.ticks + 1 ∧
      firing.started = system.started ∧ firing.ended = system.ended := by
    simp only [Timer.step, System.advance] at hfiring
    split_ifs at hfiring with hzero
    · cases hzero
    · obtain ⟨⟨timer, head⟩, -, hfiring⟩ := Option.bind_eq_some_iff.mp hfiring
      obtain rfl := Option.some.inj hfiring
      exact ⟨rfl, rfl, rfl, rfl⟩
  obtain ⟨hlast, hticks, hstarted, hended⟩ := hshape
  obtain ⟨count, final, hrun, hfinal, hticks', hstarted', hended'⟩ := hinvFiring.drain hlast
  refine ⟨.poll 1 :: .advance :: List.replicate count .advance, final, ?_, hfinal,
    hticks'.trans hticks, hstarted'.trans hstarted, fun ended hmem => ?_⟩
  · rw [run_cons, hpoll, Option.bind_some, run_cons, hfiring]
    exact hrun
  · rcases hended' ended hmem with h | ⟨hout, hat⟩
    · exact .inl (hended ▸ h)
    · exact .inr ⟨hout, hat.trans hticks⟩

/-- Of two timers started one after the other outside of a callback, with delays 0 and
1, the first has ended by the end of the tick in which the second fires. -/
def ZeroNoLater (system : System) : Prop :=
  ∀ userData other more final,
    run step system (.start 0 userData true :: .start 1 other true :: more) = some final →
    final.control.turned = 0 →
    (∃ ended ∈ final.ended, ended.serial = system.started.length + 1 ∧
      ended.outcome = .fired) →
    ∃ ended ∈ final.ended, ended.serial = system.started.length

/-- Wherever the wheel stands and whatever is pending, a timer with delay 0 that is
started outside of a callback fires 256 ticks later and not before, while one with
delay 1 fires in the next tick. -/
theorem zero_delay_late (now : UInt32) (actions : List Action) (system : System)
    (hrun : run step (create now) actions = some system) (hidle : system.control = .idle) :
    ¬ZeroNoLater system ∧
      ∀ userData memory after more final,
        step system (.start 0 userData memory) = some after → after.started ≠ system.started →
        run step after more = some final →
        ∀ ended ∈ final.ended, ended.serial = system.started.length → ended.outcome = .fired →
          ended.ticks = system.ticks + 256 := by
  have hinv := reachable_inv hrun
  refine ⟨fun hall => ?_, fun userData memory after more final hstart hnew hmore =>
    ((hinv.booked_zero hidle hstart hnew).run hmore).fired⟩
  obtain ⟨after, hzero, hafter⟩ := hinv.start_idle hidle 0 0
  have hinvAfter := hinv.step hzero
  obtain ⟨-, hsame, hticks, hended⟩ := start_started hzero
  obtain ⟨both, hone, hboth⟩ := hinvAfter.start_idle (hsame.trans hidle) 1 0
  obtain ⟨-, hsame', hticks', hended'⟩ := start_started hone
  have hbothIdle : both.control = .idle := hsame'.trans (hsame.trans hidle)
  obtain ⟨poll, final, hpoll, hfinal, hlater, hstarted, hfired⟩ :=
    (hinvAfter.step hone).pollOne hbothIdle
  have hwhole : run step system (.start 0 0 true :: .start 1 0 true :: poll) = some final := by
    rw [run_cons, hzero, Option.bind_some, run_cons, hone]
    exact hpoll
  have hbooked : Booked system.started.length (system.ticks + 256) final :=
    (((hinv.booked_zero hidle hzero (by rw [hafter]; simp)).step hone).run hpoll)
  -- the timers that have ended in this tick
  have hnew : ∀ ended ∈ final.ended, system.started.length ≤ ended.serial →
      ended.outcome = .fired ∧ ended.ticks = system.ticks + 1 := by
    intro ended hmem hserial
    rcases hfired ended hmem with hold | ⟨hout, hat⟩
    · rw [hended', hended] at hold
      have hlt : ended.serial < system.started.length := by
        rcases hinv with ⟨shape, due, -, hbooks⟩ | ⟨-, hbooks⟩
        · exact hbooks.serial_lt hold
        · exact hbooks.serial_lt hold
      omega
    · exact ⟨hout, by omega⟩
  have hsecond : ∃ ended ∈ final.ended, ended.serial = system.started.length + 1 := by
    rcases hbooked.pending with ⟨shape, due, hlive, hbooks, -⟩ | ⟨hdestroyed, -⟩
    · have hsome : final.started[system.started.length + 1]? = some ⟨after.ticks, 1, 0⟩ := by
        rw [hstarted, hboth, hafter]
        simp
      refine hlive.notLate hbooks hsome (fun h => absurd h (by decide : (1 : UInt32) ≠ 0)) ?_
      rw [hfinal]
      change after.ticks + 1 + 0 ≤ final.ticks
      omega
    · rw [hfinal] at hdestroyed
      cases hdestroyed
  obtain ⟨second, hmem, hserial⟩ := hsecond
  obtain ⟨first, hfirst, hfirstSerial⟩ := hall 0 0 poll final hwhole (by rw [hfinal]; rfl)
    ⟨second, hmem, hserial, (hnew second hmem (by omega)).1⟩
  obtain ⟨hout, hat⟩ := hnew first hfirst (by omega)
  have hdue := hbooked.fired first hfirst hfirstSerial hout
  omega

/-- With another timer pending; the one with delay 0 fires after a revolution. -/
theorem zero_delay_late_one : ∃ system, run step (create 5) [.start 300 9 true] = some system ∧
    system.control = .idle ∧ system.timer.count = 1 ∧ ¬ZeroNoLater system :=
  ⟨_, rfl, rfl, rfl, (zero_delay_late 5 [.start 300 9 true] _ rfl rfl).1⟩

/-- In a fresh wheel the tick after the start fires the timer with delay 1 only. -/
theorem zero_delay_waits :
    ¬ ∀ (now : UInt32) (actions : List Action) (system : System),
      run step (create now) actions = some system → system.control = .idle →
      ZeroNoLater system := by
  intro hall
  obtain ⟨final, hrun⟩ : ∃ final, run step (create 0)
      (.start 0 7 true :: .start 1 8 true :: .poll 1 :: List.replicate 5 .advance) =
        some final := ⟨_, rfl⟩
  have hlater := hall 0 [] _ rfl rfl 7 8 _ final hrun
  obtain rfl : _ = final := Option.some.inj hrun
  obtain ⟨ended, hmem, hserial⟩ := hlater rfl ⟨_, List.mem_singleton_self _, rfl, rfl⟩
  rw [List.mem_singleton.mp hmem] at hserial
  exact absurd hserial (by decide)

end Libsax.Timer
