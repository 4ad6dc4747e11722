import Libsax.Sync.Fifo

/-! Runs of the bounded queue: every slot is accounted for by a semaphore, by a
thread between two of its steps, or by a value in the array. -/
namespace Libsax.Sync.Fifo

open Libsax.Lib

variable {T : Type}

def pushing : Party T → Nat
  | .pushing _ => 1
  | _ => 0

def pushed : Party T → Nat
  | .pushed => 1
  | _ => 0

def popping : Party T → Nat
  | .popping => 1
  | _ => 0

def popped : Party T → Nat
  | .popped => 1
  | _ => 0

/-- `items` are the values in the array, oldest first. -/
structure Inv (n : Nat) (system : System T) (items : List T) : Prop where
  cap_pos : 0 < system.queue.cap
  window : Window system.queue.cap system.queue.queue system.queue.head system.queue.tail items
  history : system.pushes = system.pops ++ items
  /-- free slots: counted, taken by a producer, or vacated and not yet posted -/
  free : system.queue.tsem + census n pushing system.parties + items.length +
    census n popped system.parties = system.queue.cap
  /-- filled slots: counted, taken by a consumer, or filled and not yet posted -/
  full : system.queue.hsem + census n pushed system.parties +
    census n popping system.parties = items.length
  unread : ∀ slot < system.queue.cap, system.unread slot = true ↔
    Covered system.queue.cap system.queue.head items.length slot

private theorem putTail_tail {q : Queue T} (htail : q.tail < q.cap) (one : T) :
    (putTail q one).tail = nextSlot q.cap q.tail := by
  unfold putTail nextSlot
  dsimp only
  split_ifs <;> omega

private theorem takeHead_head {q : Queue T} (hhead : q.head < q.cap) :
    (takeHead q).1.head = nextSlot q.cap q.head := by
  unfold takeHead nextSlot
  dsimp only
  split_ifs <;> omega

theorem Inv.sound {n : Nat} {system : System T} {items : List T} (hinv : Inv n system items) :
    Sound n system where
  ordered := ⟨items, hinv.history.symm⟩
  bounded := by
    have hfits := hinv.window.fits
    rw [hinv.history, List.length_append]
    omega
  safe := by
    intro t ht one hparty
    have hfree := hinv.free
    have htaken := weight_le_census ht pushing system.parties
    rw [hparty] at htaken
    change 1 ≤ _ at htaken
    rw [← Bool.not_eq_true, hinv.unread _ hinv.window.stop_lt]
    exact hinv.window.not_covered_stop (by omega)
  filled := by
    intro t ht hparty
    have hfull := hinv.full
    have htaken := weight_le_census ht popping system.parties
    rw [hparty] at htaken
    change 1 ≤ _ at htaken
    have hhead := hinv.window.start_lt
    rw [hinv.unread _ hhead]
    exact ⟨0, by omega, Nat.mod_eq_of_lt hhead⟩

section Steps

variable {n t : Nat} {system : System T} {items : List T}

theorem census_step (ht : t < n) {old : Party T} (hold : system.parties t = old)
    (party : Party T) :
    census n pushing (Function.update system.parties t party) + pushing old =
      census n pushing system.parties + pushing party ∧
    census n pushed (Function.update system.parties t party) + pushed old =
      census n pushed system.parties + pushed party ∧
    census n popping (Function.update system.parties t party) + popping old =
      census n popping system.parties + popping party ∧
    census n popped (Function.update system.parties t party) + popped old =
      census n popped system.parties + popped party := by
  subst hold
  exact ⟨census_update ht pushing _ _, census_update ht pushed _ _,
    census_update ht popping _ _, census_update ht popped _ _⟩

theorem Inv.transfer (hinv : Inv n system items) (ht : t < n) {party old : Party T}
    (hold : system.parties t = old) {tsem hsem : Nat}
    (hfree : tsem + pushing party + popped party =
      system.queue.tsem + pushing old + popped old)
    (hfull : hsem + pushed party + popping party =
      system.queue.hsem + pushed old + popping old) :
    Inv n { system.setParty t party with
      queue := { system.queue with tsem := tsem, hsem := hsem } } items := by
  obtain ⟨hpushing, hpushed, hpopping, hpopped⟩ := census_step ht hold party
  have hfreeOld := hinv.free
  have hfullOld := hinv.full
  refine ⟨hinv.cap_pos, hinv.window, hinv.history, ?_, ?_, hinv.unread⟩
  · change tsem + census n pushing (Function.update system.parties t party) + items.length +
      census n popped (Function.update system.parties t party) = system.queue.cap
    omega
  · change hsem + census n pushed (Function.update system.parties t party) +
      census n popping (Function.update system.parties t party) = items.length
    omega

theorem Inv.pushLocked (hinv : Inv n system items) (ht : t < n) {one : T}
    (hparty : system.parties t = .pushing one) :
    Inv n { system.setParty t .pushed with
      queue := putTail system.queue one
      pushes := system.pushes ++ [one]
      unread := Function.update system.unread system.queue.tail true } (items ++ [one]) := by
  obtain ⟨hpushing, hpushed, hpopping, hpopped⟩ :=
    census_step ht hparty .pushed
  have hfree := hinv.free
  have hfull := hinv.full
  simp only [pushing, pushed, popping, popped] at hpushing hpushed hpopping hpopped
  have hroom : items.length < system.queue.cap := by omega
  have hwindow := hinv.window.push hroom one
  rw [← putTail_tail hinv.window.stop_lt one] at hwindow
  refine ⟨hinv.cap_pos, hwindow, ?_, ?_, ?_, ?_⟩
  · change system.pushes ++ [one] = system.pops ++ (items ++ [one])
    rw [hinv.history, List.append_assoc]
  · change system.queue.tsem + census n pushing (Function.update system.parties t .pushed) +
      (items ++ [one]).length + census n popped (Function.update system.parties t .pushed) =
      system.queue.cap
    rw [List.length_append, List.length_singleton]
    omega
  · change system.queue.hsem + census n pushed (Function.update system.parties t .pushed) +
      census n popping (Function.update system.parties t .pushed) = (items ++ [one]).length
    rw [List.length_append, List.length_singleton]
    omega
  · intro slot hslot
    change Function.update system.unread system.queue.tail true slot = true ↔
      Covered system.queue.cap system.queue.head (items ++ [one]).length slot
    rw [List.length_append, List.length_singleton, covered_succ, ← hinv.window.stop_eq]
    by_cases heq : slot = system.queue.tail
    · subst heq
      rw [Function.update_self]
      exact ⟨fun _ => Or.inr rfl, fun _ => rfl⟩
    · rw [Function.update_of_ne heq, hinv.unread slot hslot]
      exact ⟨Or.inl, fun h => h.resolve_right (Ne.symm heq)⟩

theorem Inv.popLocked (hinv : Inv n system items) (ht : t < n)
    (hparty : system.parties t = .popping) :
    ∃ item rest, items = item :: rest ∧
    Inv n { system.setParty t .popped with
      queue := (takeHead system.queue).1
      pops := system.pops ++ [(takeHead system.queue).2]
      unread := Function.update system.unread system.queue.head false } rest := by
  obtain ⟨hpushing, hpushed, hpopping, hpopped⟩ := census_step ht hparty .popped
  have hfree := hinv.free
  have hfull := hinv.full
  simp only [pushing, pushed, popping, popped] at hpushing hpushed hpopping hpopped
  cases items with
  | nil =>
    rw [List.length_nil] at hfull
    omega
  | cons item rest =>
    rw [List.length_cons] at hfree hfull
    have hstart := hinv.window.start_lt
    obtain ⟨hitem, hwindow⟩ := hinv.window.pop
    rw [← takeHead_head hstart] at hwindow
    refine ⟨item, rest, rfl, hinv.cap_pos, hwindow, ?_, ?_, ?_, ?_⟩
    · change system.pushes = system.pops ++ [system.queue.queue system.queue.head] ++ rest
      rw [hitem, hinv.history, List.append_assoc, List.singleton_append]
    · change system.queue.tsem + census n pushing (Function.update system.parties t .popped) +
        rest.length + census n popped (Function.update system.parties t .popped) =
        system.queue.cap
      omega
    · change system.queue.hsem + census n pushed (Function.update system.parties t .popped) +
        census n popping (Function.update system.parties t .popped) = rest.length
      omega
    · intro slot hslot
      change Function.update system.unread system.queue.head false slot = true ↔
        Covered system.queue.cap (takeHead system.queue).1.head rest.length slot
      rw [takeHead_head hstart]
      by_cases heq : slot = system.queue.head
      · subst heq
        rw [Function.update_self]
        exact ⟨fun h => absurd h Bool.false_ne_true,
          fun h => absurd h (not_covered_start hstart (by omega))⟩
      · rw [Function.update_of_ne heq, hinv.unread slot hslot, List.length_cons,
          covered_cons hstart]
        exact ⟨fun h => h.resolve_left (Ne.symm heq), Or.inr⟩

theorem Inv.pushWait (hinv : Inv n system items) (ht : t < n) {one : T} {ok : Bool}
    {next : System T} (hstep : Fifo.pushWait system t one ok = some next) :
    Inv n next items := by
  unfold Fifo.pushWait at hstep
  split at hstep
  · cases hstep
    exact hinv
  · rename_i hparty
    split_ifs at hstep with hunit
    cases hstep
    have hfree : system.queue.tsem - 1 + 1 = system.queue.tsem := Nat.sub_add_cancel hunit
    exact hinv.transfer ht hparty hfree rfl
  · cases hstep

theorem Inv.popWait (hinv : Inv n system items) (ht : t < n) {ok : Bool} {next : System T}
    (hstep : Fifo.popWait system t ok = some next) : Inv n next items := by
  unfold Fifo.popWait at hstep
  split at hstep
  · cases hstep
    exact hinv
  · rename_i hparty
    split_ifs at hstep with hunit
    cases hstep
    have hfull : system.queue.hsem - 1 + 1 = system.queue.hsem := Nat.sub_add_cancel hunit
    exact hinv.transfer ht hparty rfl hfull
  · cases hstep

theorem Inv.step (hinv : Inv n system items) {action : Action T} {next : System T}
    (hstep : Fifo.step n system action = some next) : ∃ other, Inv n next other := by
  unfold Fifo.step at hstep
  split_ifs at hstep with ht
  cases action with
  | pushWait t one ok => exact ⟨items, hinv.pushWait ht hstep⟩
  | pushLocked t =>
    simp only [Fifo.pushLocked] at hstep
    split at hstep
    · rename_i one hparty
      cases hstep
      exact ⟨items ++ [one], hinv.pushLocked ht hparty⟩
    · cases hstep
  | pushPost t =>
    simp only [Fifo.pushPost] at hstep
    split at hstep
    · rename_i hparty
      cases hstep
      exact ⟨items, hinv.transfer ht hparty rfl rfl⟩
    · cases hstep
  | popWait t ok => exact ⟨items, hinv.popWait ht hstep⟩
  | popLocked t =>
    simp only [Fifo.popLocked] at hstep
    split at hstep
    · rename_i hparty
      cases hstep
      obtain ⟨-, rest, -, hnext⟩ := hinv.popLocked ht hparty
      exact ⟨rest, hnext⟩
    · cases hstep
  | popPost t =>
    simp only [Fifo.popPost] at hstep
    split at hstep
    · rename_i hparty
      cases hstep
      exact ⟨items, hinv.transfer ht hparty rfl rfl⟩
    · cases hstep

end Steps

theorem start_inv (n : Nat) {cap : Nat} (hcap : 0 < cap) (queue : Nat → T) :
    Inv n (start cap queue) [] := by
  have hzero : ∀ weight : Party T → Nat, weight .idle = 0 →
      census n weight (start cap queue).parties = 0 :=
    fun weight hidle => census_eq_zero.mpr fun _ _ => hidle
  refine ⟨hcap, ⟨hcap, Nat.zero_le _, (Nat.zero_mod cap).symm, by simp⟩, rfl, ?_, ?_, ?_⟩
  · rw [hzero pushing rfl, hzero popped rfl]
    rfl
  · rw [hzero pushed rfl, hzero popping rfl]
    rfl
  · intro slot _
    exact ⟨fun h => absurd h Bool.false_ne_true, fun ⟨i, hi, _⟩ => absurd hi (Nat.not_lt_zero i)⟩

/-- Any interleaving of any number of producers and consumers keeps the order
of the values, the bound, and every value that nobody has read yet. -/
theorem fifo_ordered {n cap : Nat} (hcap : 0 < cap) {queue : Nat → T}
    {actions : List (Action T)} {final : System T}
    (hrun : run (step n) (start cap queue) actions = some final) : Sound n final := by
  have hstep : ∀ (system : System T) (action : Action T) (next : System T),
      (∃ items, Inv n system items) → step n system action = some next →
      ∃ items, Inv n next items := fun _ _ _ ⟨_, hinv⟩ hnext => hinv.step hnext
  obtain ⟨items, hinv⟩ := run_invariant hstep ⟨[], start_inv n hcap queue⟩ hrun
  exact hinv.sound

/-- Two producers and a consumer on one slot: the second producer gets it after
the consumer's post. -/
theorem fifo_ordered_one_slot : ∃ final,
    run (step 3) (start 1 fun _ => 0) [.pushWait 0 7 true, .pushWait 1 8 false, .pushLocked 0,
      .pushPost 0, .popWait 2 true, .popLocked 2, .popPost 2, .pushWait 1 8 true,
      .pushLocked 1] = some final ∧ Sound 3 final := by
  have hsome : (run (step 3) (start 1 fun _ => 0) [.pushWait 0 7 true, .pushWait 1 8 false,
      .pushLocked 0, .pushPost 0, .popWait 2 true, .popLocked 2, .popPost 2, .pushWait 1 8 true,
      .pushLocked 1]).isSome = true := by decide
  obtain ⟨final, hrun⟩ := Option.isSome_iff_exists.mp hsome
  exact ⟨final, hrun, fifo_ordered (by decide) hrun⟩

end Libsax.Sync.Fifo
