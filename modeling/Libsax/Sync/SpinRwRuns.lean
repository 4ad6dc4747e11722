import Mathlib.Algebra.Ring.Nat
import Mathlib.Data.Nat.Bitwise
import Libsax.Sync.SpinRw

/-! Runs of the spinning read-write lock: the semaphore word always counts the
readers inside, the readers about to undo, and the one writer by its flag. -/
namespace Libsax.Sync.SpinRw

open Libsax.Lib

/-- What the lock promises its parties. -/
structure Sound (n : Nat) (system : System) : Prop where
  /-- a writer is alone with the lock -/
  exclusive : ∀ t < n, system.parties t = .holding .writer →
    ∀ other < n, other ≠ t → ∀ role, system.parties other ≠ .holding role
  /-- with no party in an operation or inside, both words are zero again -/
  quiet : (∀ t < n, system.parties t = .idle) →
    system.lock.sem = 0 ∧ system.lock.w = 0

private theorem toNat_word {k : Nat} (hk : k < 2 ^ 32) : (UInt32.ofNat k).toNat = k :=
  UInt32.toNat_ofNat_of_lt' hk

private theorem and_flag {k : Nat} (hk : k < 2 ^ 30) : UInt32.ofNat k &&& writerFlag = 0 := by
  rw [← UInt32.toNat_inj, UInt32.toNat_and, toNat_word (by omega)]
  change k &&& 2 ^ 30 = 0
  rw [Nat.and_two_pow, Nat.testBit_lt_two_pow hk]
  rfl

private theorem add_and_flag {k : Nat} (hk : k < 2 ^ 30) :
    UInt32.ofNat (2 ^ 30 + k) &&& writerFlag ≠ 0 := by
  rw [ne_eq, ← UInt32.toNat_inj, UInt32.toNat_and, toNat_word (by omega)]
  change ¬(2 ^ 30 + k) &&& 2 ^ 30 = 0
  rw [Nat.and_two_pow, Nat.testBit_two_pow_add_eq, Nat.testBit_lt_two_pow hk]
  decide

private theorem mask_low : ∀ i < 30, Nat.testBit 3221225471 i = true := by decide

private theorem add_and_not_flag {k : Nat} (hk : k < 2 ^ 30) :
    UInt32.ofNat (2 ^ 30 + k) &&& ~~~writerFlag = UInt32.ofNat k := by
  rw [← UInt32.toNat_inj, UInt32.toNat_and, toNat_word (by omega), toNat_word (by omega)]
  change (2 ^ 30 + k) &&& 3221225471 = k
  refine Nat.eq_of_testBit_eq fun i => ?_
  rw [Nat.testBit_and]
  rcases Nat.lt_trichotomy i 30 with hlow | rfl | hhigh
  · rw [Nat.testBit_two_pow_add_gt hlow, mask_low i hlow, Bool.and_true]
  · rw [Nat.testBit_lt_two_pow hk]
    have hmask : Nat.testBit 3221225471 30 = false := by decide
    rw [hmask, Bool.and_false]
  · have hpow : 2 ^ 31 ≤ 2 ^ i := Nat.pow_le_pow_right (by decide) hhigh
    have hsum : Nat.testBit (2 ^ 30 + k) i = false := Nat.testBit_lt_two_pow (by omega)
    have hcount : Nat.testBit k i = false := Nat.testBit_lt_two_pow (by omega)
    rw [hsum, hcount, Bool.false_and]

/-- The party has swapped the flag in and not taken it out again. -/
def owning : Party → Nat
  | .holding .writer => 1
  | .retract _ true => 1
  | _ => 0

def reading : Party → Nat
  | .holding .reader => 1
  | _ => 0

def undoing : Party → Nat
  | .trying _ _ .undo => 1
  | _ => 0

/-- A writer behind its first `TRYLOCK` stands announced. -/
def waiting (call : Call) : Site → Nat
  | .first => 0
  | _ => if call.role = .writer then 1 else 0

def announced : Party → Nat
  | .trying call site _ => waiting call site
  | .clock call => if call.role = .writer then 1 else 0
  | .retract _ _ => 1
  | _ => 0

/-- The accesses of each role's `TRYLOCK`. -/
def Access.role : Access → Role
  | .testSem => .writer
  | .swap => .writer
  | _ => .reader

/-- A party runs the code of its own role. -/
def Proper : Party → Prop
  | .trying call _ access => call.role = access.role
  | .announce call => call.role = .writer
  | .retract call _ => call.role = .writer
  | _ => True

/-- What a party counts for in the semaphore word and in `w`. -/
structure Weighs (party : Party) (own read undo wait : Nat) : Prop where
  proper : Proper party
  own : owning party = own
  read : reading party = read
  undo : undoing party = undo
  wait : announced party = wait

private theorem attempt_weighs (call : Call) (site : Site) :
    Weighs (attempt call site) 0 0 0 (waiting call site) := by
  unfold attempt
  cases hrole : call.role <;> exact ⟨hrole, rfl, rfl, rfl, rfl⟩

private theorem enter_weighs (call : Call) : Weighs (enter call) 0 0 0 0 := by
  obtain ⟨role, patience, spin⟩ := call
  cases role <;> cases patience <;> exact ⟨rfl, rfl, rfl, rfl, rfl⟩

private theorem failed_weighs (call : Call) (site : Site) :
    Weighs (failed call site) 0 0 0 (waiting call site) := by
  obtain ⟨role, patience, spin⟩ := call
  cases site with
  | first => cases role <;> cases patience <;> exact ⟨by trivial, rfl, rfl, rfl, rfl⟩
  | head => exact attempt_weighs _ (.spinning 1)
  | spinning n =>
    unfold failed
    dsimp only
    split_ifs
    · exact attempt_weighs _ (.spinning (2 * n))
    · exact ⟨trivial, rfl, rfl, rfl, rfl⟩
    · exact attempt_weighs _ .head

private theorem passed_weighs (call : Call) (site : Site) :
    Weighs (passed call site) (if call.role = .writer then 1 else 0)
      (if call.role = .reader then 1 else 0) 0 (waiting call site) := by
  obtain ⟨role, patience, spin⟩ := call
  cases site <;> cases role <;> exact ⟨by trivial, rfl, rfl, rfl, rfl⟩

private theorem weights_le (party : Party) : owning party + reading party + undoing party ≤ 1 := by
  cases party with
  | trying call site point => cases point <;> simp [owning, reading, undoing]
  | retract call got => cases got <;> simp [owning, reading, undoing]
  | holding role => cases role <;> simp [owning, reading, undoing]
  | _ => simp [owning, reading, undoing]

/-- The semaphore word that these parties make. -/
def word (n : Nat) (parties : Nat → Party) : UInt32 :=
  UInt32.ofNat (2 ^ 30 * census n owning parties +
    (census n reading parties + census n undoing parties))

structure Inv (n : Nat) (system : System) : Prop where
  proper : ∀ t < n, Proper (system.parties t)
  sem : system.lock.sem = word n system.parties
  w : system.lock.w =
    if system.lock.preferWriter then UInt32.ofNat (census n announced system.parties) else 0
  alone : census n owning system.parties = 0 ∨
    census n owning system.parties = 1 ∧ census n reading system.parties = 0

private theorem counts_le (n : Nat) (parties : Nat → Party) :
    census n owning parties + census n reading parties + census n undoing parties ≤ n := by
  have hle : census n (fun party => owning party + reading party + undoing party) parties ≤ n :=
    census_le weights_le parties
  rwa [census_add, census_add] at hle

section Steps

variable {n : Nat} {lock next : Lock} {parties : Nat → Party} {t : Nat} {party : Party}
  {own read undo wait own' read' undo' wait' : Nat}

theorem census_step (ht : t < n) (hold : Weighs (parties t) own read undo wait)
    (hnew : Weighs party own' read' undo' wait') :
    census n owning (Function.update parties t party) + own = census n owning parties + own' ∧
    census n reading (Function.update parties t party) + read =
      census n reading parties + read' ∧
    census n undoing (Function.update parties t party) + undo =
      census n undoing parties + undo' ∧
    census n announced (Function.update parties t party) + wait =
      census n announced parties + wait' := by
  refine ⟨?_, ?_, ?_, ?_⟩
  · rw [← hold.own, ← hnew.own]
    exact census_update ht owning parties party
  · rw [← hold.read, ← hnew.read]
    exact census_update ht reading parties party
  · rw [← hold.undo, ← hnew.undo]
    exact census_update ht undoing parties party
  · rw [← hold.wait, ← hnew.wait]
    exact census_update ht announced parties party

private theorem proper_step (hproper : ∀ s < n, Proper (parties s))
    (hnew : Weighs party own' read' undo' wait') :
    ∀ s < n, Proper (Function.update parties t party s) := by
  intro s hs
  by_cases heq : s = t
  · subst heq
    rw [Function.update_self]
    exact hnew.proper
  · rw [Function.update_of_ne heq]
    exact hproper s hs

theorem Inv.rewait (hinv : Inv n ⟨lock, parties⟩) (ht : t < n)
    (hold : Weighs (parties t) own read undo wait) (hnew : Weighs party own read undo wait')
    (hsem : next.sem = lock.sem)
    (hw : next.w = if next.preferWriter then
      UInt32.ofNat (census n announced (Function.update parties t party)) else 0) :
    Inv n ⟨next, Function.update parties t party⟩ := by
  obtain ⟨hown, hread, hundo, -⟩ := census_step ht hold hnew
  have hown' := Nat.add_right_cancel hown
  have hread' := Nat.add_right_cancel hread
  have hundo' := Nat.add_right_cancel hundo
  refine ⟨proper_step hinv.proper hnew, ?_, hw, ?_⟩
  · change next.sem = word n (Function.update parties t party)
    unfold word
    rw [hown', hread', hundo', hsem]
    exact hinv.sem
  · rw [hown', hread']
    exact hinv.alone

theorem Inv.silent (hinv : Inv n ⟨lock, parties⟩) (ht : t < n)
    (hold : Weighs (parties t) own read undo wait) (hnew : Weighs party own read undo wait) :
    Inv n ⟨lock, Function.update parties t party⟩ := by
  refine hinv.rewait ht hold hnew rfl ?_
  rw [Nat.add_right_cancel (census_step ht hold hnew).2.2.2]
  exact hinv.w

theorem Inv.flag (hn : n < 2 ^ 30) (hinv : Inv n ⟨lock, parties⟩) :
    lock.sem &&& writerFlag = 0 ↔ census n owning parties = 0 := by
  have hcounts := counts_le n parties
  have hsem : lock.sem = word n parties := hinv.sem
  rw [hsem]
  unfold word
  rcases hinv.alone with hnone | ⟨hone, -⟩
  · have hsame : census n owning parties = 0 := hnone
    rw [hsame, Nat.mul_zero, Nat.zero_add]
    exact ⟨fun _ => rfl, fun _ => and_flag (by omega)⟩
  · have hsame : census n owning parties = 1 := hone
    rw [hsame, Nat.mul_one]
    exact ⟨fun hzero => absurd hzero (add_and_flag (by omega)), fun h => absurd h Nat.one_ne_zero⟩

theorem Inv.empty (hn : n < 2 ^ 30) (hinv : Inv n ⟨lock, parties⟩) (hzero : lock.sem = 0) :
    census n owning parties = 0 ∧ census n reading parties = 0 ∧
      census n undoing parties = 0 := by
  have hcounts := counts_le n parties
  have hsem : lock.sem = word n parties := hinv.sem
  have hle : census n owning parties ≤ 1 := by
    rcases hinv.alone with hnone | ⟨hone, -⟩
    · exact Nat.le_trans (Nat.le_of_eq hnone) (Nat.zero_le 1)
    · exact Nat.le_of_eq hone
  rw [hzero] at hsem
  unfold word at hsem
  have htotal := congrArg UInt32.toNat hsem
  rw [toNat_word (by omega)] at htotal
  change 0 = _ at htotal
  omega

private theorem word_succ (before after : Nat → Party)
    (htotal : 2 ^ 30 * census n owning after + (census n reading after + census n undoing after) =
      2 ^ 30 * census n owning before +
        (census n reading before + census n undoing before) + 1) :
    word n after = word n before + 1 := by
  unfold word
  rw [htotal, UInt32.ofNat_add]
  rfl

theorem Inv.swap (hn : n < 2 ^ 30) (hinv : Inv n ⟨lock, parties⟩) (ht : t < n)
    (hzero : lock.sem = 0) (hold : Weighs (parties t) 0 0 0 wait)
    (hnew : Weighs party 1 0 0 wait) :
    Inv n ⟨{ lock with sem := writerFlag }, Function.update parties t party⟩ := by
  obtain ⟨hown, hread, hundo, hwait⟩ := census_step ht hold hnew
  obtain ⟨hnone, hnobody, hno⟩ := hinv.empty hn hzero
  have hown' : census n owning (Function.update parties t party) = 1 := by omega
  have hread' : census n reading (Function.update parties t party) = 0 := by omega
  have hundo' : census n undoing (Function.update parties t party) = 0 := by omega
  refine ⟨proper_step hinv.proper hnew, ?_, ?_, Or.inr ⟨hown', hread'⟩⟩
  · change writerFlag = word n (Function.update parties t party)
    unfold word
    rw [hown', hread', hundo']
    rfl
  · rw [Nat.add_right_cancel hwait]
    exact hinv.w

theorem Inv.add (hinv : Inv n ⟨lock, parties⟩) (ht : t < n)
    (hold : Weighs (parties t) 0 0 0 wait) (hnew : Weighs party 0 read undo wait)
    (hone : read + undo = 1) (hread : census n owning parties ≠ 0 → read = 0) :
    Inv n ⟨{ lock with sem := lock.sem + 1 }, Function.update parties t party⟩ := by
  obtain ⟨hown, hreads, hundo, hwait⟩ := census_step ht hold hnew
  refine ⟨proper_step hinv.proper hnew, ?_, ?_, ?_⟩
  · have hsem : lock.sem = word n parties := hinv.sem
    change lock.sem + 1 = word n (Function.update parties t party)
    rw [word_succ parties _ (by omega), hsem]
  · rw [Nat.add_right_cancel hwait]
    exact hinv.w
  · change census n owning (Function.update parties t party) = 0 ∨
      census n owning (Function.update parties t party) = 1 ∧
      census n reading (Function.update parties t party) = 0
    rcases hinv.alone with hnone | ⟨hwriter, hnobody⟩
    · have hsame : census n owning parties = 0 := hnone
      exact Or.inl (by omega)
    · have hsame : census n owning parties = 1 := hwriter
      have hempty : census n reading parties = 0 := hnobody
      have hout := hread (by omega)
      exact Or.inr ⟨by omega, by omega⟩

theorem Inv.subtract (hinv : Inv n ⟨lock, parties⟩) (ht : t < n)
    (hold : Weighs (parties t) 0 read undo wait) (hone : read + undo = 1)
    (hnew : Weighs party 0 0 0 wait) :
    Inv n ⟨{ lock with sem := lock.sem - 1 }, Function.update parties t party⟩ := by
  obtain ⟨hown, hreads, hundo, hwait⟩ := census_step ht hold hnew
  refine ⟨proper_step hinv.proper hnew, ?_, ?_, ?_⟩
  · have hsem : lock.sem = word n parties := hinv.sem
    change lock.sem - 1 = word n (Function.update parties t party)
    rw [hsem, word_succ (Function.update parties t party) parties (by omega)]
    exact UInt32.add_sub_cancel _ _
  · rw [Nat.add_right_cancel hwait]
    exact hinv.w
  · change census n owning (Function.update parties t party) = 0 ∨
      census n owning (Function.update parties t party) = 1 ∧
      census n reading (Function.update parties t party) = 0
    rcases hinv.alone with hnone | ⟨hwriter, hnobody⟩
    · have hsame : census n owning parties = 0 := hnone
      exact Or.inl (by omega)
    · have hsame : census n owning parties = 1 := hwriter
      have hempty : census n reading parties = 0 := hnobody
      exact Or.inr ⟨by omega, by omega⟩

theorem Inv.access (hn : n < 2 ^ 30) (hinv : Inv n ⟨lock, parties⟩) (ht : t < n) {call : Call}
    {site : Site} {point : Access} (hparty : parties t = .trying call site point) :
    Inv n ⟨(access lock call site point).1,
      Function.update parties t (access lock call site point).2⟩ := by
  have hproper : call.role = point.role := by
    have h := hinv.proper t ht
    change Proper (parties t) at h
    rwa [hparty] at h
  have hfailed := failed_weighs call site
  have hpassed := passed_weighs call site
  -- the accesses in front of the last one of a `TRYLOCK` weigh nothing
  have hlight : ∀ other : Access, other ≠ .undo → call.role = other.role →
      Weighs (.trying call site other) 0 0 0 (waiting call site) := by
    intro other hne hrole
    refine ⟨hrole, rfl, rfl, ?_, rfl⟩
    cases other <;> first | rfl | exact absurd rfl hne
  cases point with
  | testSem =>
    have hold := hlight .testSem (by decide) hproper
    rw [← hparty] at hold
    unfold SpinRw.access
    dsimp only
    split_ifs
    · exact hinv.silent ht hold (hlight .swap (by decide) hproper)
    · exact hinv.silent ht hold hfailed
  | swap =>
    have hold := hlight .swap (by decide) hproper
    rw [← hparty] at hold
    have hrole : call.role = .writer := hproper
    rw [hrole] at hpassed
    unfold SpinRw.access
    dsimp only
    split_ifs with hzero
    · exact hinv.swap hn ht hzero hold hpassed
    · exact hinv.silent ht hold hfailed
  | testW =>
    have hold := hlight .testW (by decide) hproper
    rw [← hparty] at hold
    unfold SpinRw.access
    dsimp only
    split_ifs
    · exact hinv.silent ht hold (hlight .testFlag (by decide) hproper)
    · exact hinv.silent ht hold hfailed
  | testFlag =>
    have hold := hlight .testFlag (by decide) hproper
    rw [← hparty] at hold
    unfold SpinRw.access
    dsimp only
    split_ifs
    · exact hinv.silent ht hold (hlight .add (by decide) hproper)
    · exact hinv.silent ht hold hfailed
  | add =>
    have hold := hlight .add (by decide) hproper
    rw [← hparty] at hold
    have hrole : call.role = .reader := hproper
    rw [hrole] at hpassed
    have hflag := hinv.flag hn
    unfold SpinRw.access
    dsimp only
    split_ifs with hup
    · have hnew : Weighs (.trying call site .undo) 0 0 1 (waiting call site) :=
        ⟨hproper, rfl, rfl, rfl, rfl⟩
      exact hinv.add ht hold hnew rfl fun _ => rfl
    · have hdown : lock.sem &&& writerFlag = 0 := not_not.mp hup
      exact hinv.add ht hold hpassed rfl fun hwriter => absurd (hflag.mp hdown) hwriter
  | undo =>
    have hold : Weighs (parties t) 0 0 1 (waiting call site) := by
      rw [hparty]
      exact ⟨hproper, rfl, rfl, rfl, rfl⟩
    exact hinv.subtract ht hold rfl hfailed

theorem Inv.announce (hinv : Inv n ⟨lock, parties⟩) (ht : t < n)
    (hold : Weighs (parties t) own read undo 0) (hnew : Weighs party own read undo 1) :
    Inv n ⟨if lock.preferWriter then { lock with w := lock.w + 1 } else lock,
      Function.update parties t party⟩ := by
  have hwait := (census_step ht hold hnew).2.2.2
  rw [Nat.add_zero] at hwait
  obtain ⟨sem, w, prefer⟩ := lock
  have hw : w = if prefer then UInt32.ofNat (census n announced parties) else 0 := hinv.w
  cases prefer with
  | false => exact hinv.rewait ht hold hnew rfl hw
  | true =>
    refine hinv.rewait ht hold hnew rfl ?_
    change w + 1 = UInt32.ofNat (census n announced (Function.update parties t party))
    rw [hwait, UInt32.ofNat_add, hw]
    rfl

theorem Inv.retract (hinv : Inv n ⟨lock, parties⟩) (ht : t < n)
    (hold : Weighs (parties t) own read undo 1) (hnew : Weighs party own read undo 0) :
    Inv n ⟨if lock.preferWriter then { lock with w := lock.w - 1 } else lock,
      Function.update parties t party⟩ := by
  have hwait : census n announced (Function.update parties t party) + 1 =
      census n announced parties := (census_step ht hold hnew).2.2.2
  obtain ⟨sem, w, prefer⟩ := lock
  have hw : w = if prefer then UInt32.ofNat (census n announced parties) else 0 := hinv.w
  cases prefer with
  | false => exact hinv.rewait ht hold hnew rfl hw
  | true =>
    refine hinv.rewait ht hold hnew rfl ?_
    change w - 1 = UInt32.ofNat (census n announced (Function.update parties t party))
    rw [hw, ← hwait, UInt32.ofNat_add]
    exact UInt32.add_sub_cancel _ _

theorem Inv.advance (hn : n < 2 ^ 30) (hinv : Inv n ⟨lock, parties⟩) (ht : t < n) {late : Bool}
    (hstep : SpinRw.advance lock late (parties t) = some (next, party)) :
    Inv n ⟨next, Function.update parties t party⟩ := by
  have hproper : Proper (parties t) := hinv.proper t ht
  cases hparty : parties t with
  | idle =>
    rw [hparty] at hstep
    cases hstep
  | holding role =>
    rw [hparty] at hstep
    cases hstep
  | trying call site point =>
    rw [hparty] at hstep
    have heq : SpinRw.access lock call site point = (next, party) := Option.some.inj hstep
    have hnext := hinv.access hn ht hparty
    rw [heq] at hnext
    exact hnext
  | announce call =>
    rw [hparty] at hstep hproper
    cases hstep
    have hrole : call.role = .writer := hproper
    have hold : Weighs (parties t) 0 0 0 0 := by
      rw [hparty]
      exact ⟨hproper, rfl, rfl, rfl, rfl⟩
    have hnew := attempt_weighs call .head
    rw [show waiting call .head = 1 from if_pos hrole] at hnew
    exact hinv.announce ht hold hnew
  | clock call =>
    rw [hparty] at hstep
    cases hstep
    have hold : Weighs (parties t) 0 0 0 (waiting call .head) := by
      rw [hparty]
      exact ⟨trivial, rfl, rfl, rfl, rfl⟩
    refine hinv.silent ht hold ?_
    cases late with
    | false => exact attempt_weighs call .head
    | true =>
      obtain ⟨role, patience, spin⟩ := call
      cases role <;> exact ⟨by trivial, rfl, rfl, rfl, rfl⟩
  | retract call got =>
    rw [hparty] at hstep hproper
    cases hstep
    have hrole : call.role = .writer := hproper
    cases got with
    | false =>
      have hold : Weighs (parties t) 0 0 0 1 := by
        rw [hparty]
        exact ⟨hproper, rfl, rfl, rfl, rfl⟩
      exact hinv.retract ht hold ⟨trivial, rfl, rfl, rfl, rfl⟩
    | true =>
      have hold : Weighs (parties t) 1 0 0 1 := by
        rw [hparty]
        exact ⟨hproper, rfl, rfl, rfl, rfl⟩
      rw [hrole]
      exact hinv.retract ht hold ⟨trivial, rfl, rfl, rfl, rfl⟩

theorem Inv.release (hn : n < 2 ^ 30) (hinv : Inv n ⟨lock, parties⟩) (ht : t < n) {role : Role}
    (hparty : parties t = .holding role) :
    Inv n ⟨release lock role, Function.update parties t .idle⟩ := by
  have hnew : Weighs .idle 0 0 0 0 := ⟨trivial, rfl, rfl, rfl, rfl⟩
  cases role with
  | reader =>
    have hold : Weighs (parties t) 0 1 0 0 := by
      rw [hparty]
      exact ⟨trivial, rfl, rfl, rfl, rfl⟩
    exact hinv.subtract ht hold rfl hnew
  | writer =>
    have hold : Weighs (parties t) 1 0 0 0 := by
      rw [hparty]
      exact ⟨trivial, rfl, rfl, rfl, rfl⟩
    obtain ⟨hown, hread, hundo, hwait⟩ := census_step ht hold hnew
    have hcounts := counts_le n parties
    have hown' : census n owning (Function.update parties t .idle) = 0 := by
      rcases hinv.alone with hnone | ⟨hone, -⟩
      · have hsame : census n owning parties = 0 := hnone
        omega
      · have hsame : census n owning parties = 1 := hone
        omega
    refine ⟨proper_step hinv.proper hnew, ?_, ?_, Or.inl hown'⟩
    · have hsem : lock.sem = word n parties := hinv.sem
      change lock.sem &&& ~~~writerFlag = word n (Function.update parties t .idle)
      unfold word at hsem ⊢
      have hone : census n owning parties = 1 := by omega
      rw [hsem, hone, Nat.mul_one, add_and_not_flag (by omega), hown', Nat.mul_zero, Nat.zero_add,
        Nat.add_right_cancel hread, Nat.add_right_cancel hundo]
    · rw [Nat.add_right_cancel hwait]
      exact hinv.w

end Steps

theorem create_inv (n : Nat) (preferWriter : Bool) : Inv n (create preferWriter) := by
  have hzero : ∀ weight : Party → Nat, weight .idle = 0 →
      census n weight (fun _ => Party.idle) = 0 :=
    fun weight hidle => census_eq_zero.mpr fun _ _ => hidle
  have hown : census n owning (create preferWriter).parties = 0 := hzero owning rfl
  have hread : census n reading (create preferWriter).parties = 0 := hzero reading rfl
  have hundo : census n undoing (create preferWriter).parties = 0 := hzero undoing rfl
  have hwait : census n announced (create preferWriter).parties = 0 := hzero announced rfl
  refine ⟨fun _ _ => trivial, ?_, ?_, Or.inl hown⟩
  · unfold word
    rw [hown, hread, hundo]
    rfl
  · rw [hwait]
    cases preferWriter <;> rfl

theorem Inv.step {n : Nat} (hn : n < 2 ^ 30) {system next : System} {action : Action}
    (hinv : Inv n system) (hstep : SpinRw.step n system action = some next) : Inv n next := by
  cases action with
  | enter t call =>
    simp only [SpinRw.step] at hstep
    split_ifs at hstep with hidle
    cases hstep
    have hold : Weighs (system.parties t) 0 0 0 0 := by
      rw [hidle.2]
      exact ⟨trivial, rfl, rfl, rfl, rfl⟩
    exact hinv.silent hidle.1 hold (enter_weighs call)
  | go t late =>
    simp only [SpinRw.step] at hstep
    split_ifs at hstep with ht
    obtain ⟨⟨lock, party⟩, hadvance, rfl⟩ := Option.map_eq_some_iff.mp hstep
    exact hinv.advance hn ht hadvance
  | leave t =>
    simp only [SpinRw.step] at hstep
    split at hstep
    · rename_i role hparty
      split_ifs at hstep with ht
      cases hstep
      exact hinv.release hn ht hparty
    · cases hstep

theorem Inv.sound {n : Nat} {system : System} (hinv : Inv n system) :
    Sound n system where
  exclusive := by
    intro t ht hwriter other hother hne role hheld
    have howner : owning (system.parties t) = 1 := by rw [hwriter]; rfl
    have hone : census n owning system.parties = 1 ∧ census n reading system.parties = 0 := by
      rcases hinv.alone with hnone | hone
      · have hle := weight_le_census ht owning system.parties
        omega
      · exact hone
    cases role with
    | writer =>
      have hsecond : owning (system.parties other) = 1 := by rw [hheld]; rfl
      have hle := weights_le_census ht hother (Ne.symm hne) owning system.parties
      omega
    | reader =>
      have hsecond : reading (system.parties other) = 1 := by rw [hheld]; rfl
      have hle := weight_le_census hother reading system.parties
      omega
  quiet := by
    intro hidle
    have hzero : ∀ weight : Party → Nat, weight .idle = 0 →
        census n weight system.parties = 0 := by
      intro weight hweight
      refine census_eq_zero.mpr fun t ht => ?_
      rw [hidle t ht, hweight]
    constructor
    · rw [hinv.sem]
      unfold word
      rw [hzero owning rfl, hzero reading rfl, hzero undoing rfl]
      rfl
    · rw [hinv.w, hzero announced rfl]
      cases system.lock.preferWriter <;> rfl

/-- Any interleaving of the atomic steps of fewer than 2^30 parties keeps
writers alone, and leaves both words at zero once every party is out again. -/
theorem spin_rw_exclusion {n : Nat} (hn : n < 2 ^ 30) {preferWriter : Bool}
    {actions : List Action} {final : System}
    (hrun : run (step n) (create preferWriter) actions = some final) : Sound n final := by
  have hinv : Inv n final :=
    run_invariant (fun _ _ _ hinv hstep => hinv.step hn hstep) (create_inv n preferWriter) hrun
  exact hinv.sound

/-- A reader is inside while a writer announces itself, times out and gives up. -/
theorem spin_rw_exclusion_timeout : ∃ final,
    run (step 2) (create true) [.enter 0 ⟨.reader, .forever, 0⟩, .go 0 false, .go 0 false,
      .go 0 false, .enter 1 ⟨.writer, .limited, 0⟩, .go 1 false, .go 1 false, .go 1 false,
      .go 1 false, .go 1 true, .go 1 false, .leave 0] = some final ∧ Sound 2 final := by
  have hsome : (run (step 2) (create true) [.enter 0 ⟨.reader, .forever, 0⟩, .go 0 false,
      .go 0 false, .go 0 false, .enter 1 ⟨.writer, .limited, 0⟩, .go 1 false, .go 1 false,
      .go 1 false, .go 1 false, .go 1 true, .go 1 false, .leave 0]).isSome = true := by decide
  obtain ⟨final, hrun⟩ := Option.isSome_iff_exists.mp hsome
  exact ⟨final, hrun, spin_rw_exclusion (by decide) hrun⟩

end Libsax.Sync.SpinRw
