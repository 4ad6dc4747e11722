import Libsax.Timer.Wheel

/-! Where a timer may hang. Ticks and due times are counted without wrapping
around; the wheel itself only sees them modulo 2^32. -/
namespace Libsax.Timer

/-- The list head of a level for the due time `due`. -/
def slotAt (level due : Nat) : Fin 1024 :=
  lv level (due / 256 ^ level % 256)

/-- Levels below `turned` are about to be visited in the current tick, the
others have been. -/
def grace (turned level : Nat) : Nat := if level < turned then 0 else 1

/-- A due time that its level visits at the right moment: not behind the
current tick, and less than one revolution ahead. -/
structure Window (turned now level due : Nat) : Prop where
  lower : now / 256 ^ level + grace turned level ≤ due / 256 ^ level
  upper : due / 256 ^ level ≤ now / 256 ^ level + 255 + grace turned level

/-- A timer for `due` may hang in the list `head`. -/
def Placed (turned now : Nat) (head : Fin 1024) (due : Nat) : Prop :=
  ∃ level, level < 4 ∧ head = slotAt level due ∧ Window turned now level due

private theorem ofNat_shiftRight_toNat (due level : Nat) (hlevel : level < 4) :
    ((UInt32.ofNat due >>> (8 * UInt32.ofNat level)) &&& 0xFF).toNat =
      due / 256 ^ level % 256 := by
  have hlevels : level = 0 ∨ level = 1 ∨ level = 2 ∨ level = 3 := by omega
  rw [UInt32.toNat_and, UInt32.toNat_shiftRight, UInt32.toNat_ofNat']
  change (due % 2 ^ 32) >>> _ &&& (2 ^ 8 - 1) = _
  rw [Nat.and_two_pow_sub_one_eq_mod, Nat.shiftRight_eq_div_pow]
  rcases hlevels with rfl | rfl | rfl | rfl
  · change due % 2 ^ 32 / 2 ^ 0 % 2 ^ 8 = due / 256 ^ 0 % 256
    omega
  · change due % 2 ^ 32 / 2 ^ 8 % 2 ^ 8 = due / 256 ^ 1 % 256
    omega
  · change due % 2 ^ 32 / 2 ^ 16 % 2 ^ 8 = due / 256 ^ 2 % 256
    omega
  · change due % 2 ^ 32 / 2 ^ 24 % 2 ^ 8 = due / 256 ^ 3 % 256
    omega

theorem slot_ofNat (level due : Nat) (hlevel : level < 4) :
    slot level (UInt32.ofNat due) = slotAt level due := by
  unfold slot slotAt
  rw [ofNat_shiftRight_toNat due level hlevel]

theorem slotAt_val (level due : Nat) (hlevel : level < 4) :
    (slotAt level due).val = 256 * level + due / 256 ^ level % 256 := by
  have hmod : due / 256 ^ level % 256 < 256 := Nat.mod_lt _ (by decide)
  change (256 * level + due / 256 ^ level % 256) % 1024 = _
  omega

private theorem slotAt_eq (level other due turn : Nat) (hlevel : level < 4) (hother : other < 4)
    (h : slotAt level due = slotAt other turn) :
    level = other ∧ due / 256 ^ level % 256 = turn / 256 ^ level % 256 := by
  have hval := congrArg Fin.val h
  rw [slotAt_val level due hlevel, slotAt_val other turn hother] at hval
  have hleft : due / 256 ^ level % 256 < 256 := Nat.mod_lt _ (by decide)
  have hright : turn / 256 ^ other % 256 < 256 := Nat.mod_lt _ (by decide)
  have hlevels : level = other := by omega
  subst hlevels
  exact ⟨rfl, by omega⟩

private theorem listHead_ofNat (due : Nat) (delayTicks : UInt32) :
    ∃ level, level < 4 ∧ listHead (UInt32.ofNat due) delayTicks = slotAt level due ∧
      (level = 0 ∨ 256 ^ level ≤ delayTicks.toNat) ∧ delayTicks.toNat < 256 ^ (level + 1) := by
  have hbound : delayTicks.toNat < 2 ^ 32 := delayTicks.toNat_lt
  unfold listHead
  simp only [UInt32.le_iff_toNat_le, gt_iff_lt, UInt32.lt_iff_toNat_lt]
  change ∃ level, level < 4 ∧ (if delayTicks.toNat ≤ 0xFFFF then
      if 0xFF < delayTicks.toNat then slot 1 (UInt32.ofNat due) else slot 0 (UInt32.ofNat due)
    else if delayTicks.toNat ≤ 0xFFFFFF then slot 2 (UInt32.ofNat due)
      else slot 3 (UInt32.ofNat due)) = slotAt level due ∧ _
  split_ifs with hlow hone htwo
  · exact ⟨1, by decide, slot_ofNat 1 due (by decide), .inr (by omega), by omega⟩
  · exact ⟨0, by decide, slot_ofNat 0 due (by decide), .inl rfl, by omega⟩
  · exact ⟨2, by decide, slot_ofNat 2 due (by decide), .inr (by omega), by omega⟩
  · exact ⟨3, by decide, slot_ofNat 3 due (by decide), .inr (by omega), by omega⟩

private theorem div_succ_of_mod_ne (now size : Nat) (hmod : (now + 1) % size ≠ 0) :
    (now + 1) / size = now / size := by
  rw [Nat.succ_div, if_neg, Nat.add_zero]
  exact fun hdvd => hmod (Nat.mod_eq_zero_of_dvd hdvd)

private theorem div_succ_of_mod_eq (now size : Nat) (hmod : (now + 1) % size = 0) :
    (now + 1) / size = now / size + 1 := by
  rw [Nat.succ_div, if_pos (Nat.dvd_of_mod_eq_zero hmod)]

theorem Placed.tick {now : Nat} {head : Fin 1024} {due turned : Nat}
    (hturned : ∀ level, level < 4 → (level < turned ↔ (now + 1) % 256 ^ level = 0))
    (hplaced : Placed 0 now head due) : Placed turned (now + 1) head due := by
  obtain ⟨level, hlevel, hhead, hlower, hupper⟩ := hplaced
  have hgrace : grace 0 level = 1 := rfl
  rw [hgrace] at hlower hupper
  refine ⟨level, hlevel, hhead, ?_, ?_⟩ <;> unfold grace <;> split_ifs with hlt
  · rw [div_succ_of_mod_eq now _ ((hturned level hlevel).mp hlt)]
    omega
  · rw [div_succ_of_mod_ne now _ (mt (hturned level hlevel).mpr hlt)]
    omega
  · rw [div_succ_of_mod_eq now _ ((hturned level hlevel).mp hlt)]
    omega
  · rw [div_succ_of_mod_ne now _ (mt (hturned level hlevel).mpr hlt)]
    omega

theorem Placed.ahead {turned now : Nat} {head : Fin 1024} {due : Nat} (hturned : turned ≤ 1)
    (hplaced : Placed turned now head due) : now + 1 ≤ due + turned := by
  obtain ⟨level, -, -, hlower, -⟩ := hplaced
  unfold grace at hlower
  split_ifs at hlower with hlt
  · have hzero : level = 0 := by omega
    subst hzero
    omega
  · have hmono : due ≤ now → due / 256 ^ level ≤ now / 256 ^ level :=
      fun h => Nat.div_le_div_right h
    omega

theorem Placed.turned {now level due : Nat} (hlevel : level < 4)
    (hplaced : Placed (level + 1) now (slotAt level now) due) :
    due / 256 ^ level = now / 256 ^ level := by
  obtain ⟨other, hother, hhead, hlower, hupper⟩ := hplaced
  obtain ⟨rfl, hdigit⟩ := slotAt_eq level other now due hlevel hother hhead
  have hgrace : grace (level + 1) level = 0 := if_pos (Nat.lt_succ_self level)
  rw [hgrace] at hlower hupper
  omega

theorem Placed.stay {now level due : Nat} {head : Fin 1024} (hlevel : level < 4)
    (hplaced : Placed (level + 1) now head due) (hhead : head ≠ slotAt level now) :
    Placed level now head due := by
  obtain ⟨other, hother, rfl, hlower, hupper⟩ := hplaced
  refine ⟨other, hother, rfl, ?_, ?_⟩
  · by_cases hsame : other = level
    · subst hsame
      have hdigit : due / 256 ^ other ≠ now / 256 ^ other := by
        intro heq
        apply hhead
        unfold slotAt
        rw [heq]
      have hgrace : grace (other + 1) other = 0 := if_pos (Nat.lt_succ_self other)
      have hafter : grace other other = 1 := if_neg (Nat.lt_irrefl other)
      omega
    · have hgrace : grace level other = grace (level + 1) other := by
        unfold grace
        split_ifs <;> omega
      rw [hgrace]
      exact hlower
  · have hgrace : grace (level + 1) other ≤ grace level other := by
      unfold grace
      split_ifs <;> omega
    omega

theorem Placed.cascade {now level due : Nat} (hlevel : level < 4)
    (hstart : now % 256 ^ level = 0) (hgranule : due / 256 ^ level = now / 256 ^ level)
    {delayTicks : UInt32} (hdelay : delayTicks = UInt32.ofNat due - UInt32.ofNat now)
    (hpos : 0 < level) :
    Placed level now (listHead (UInt32.ofNat due) delayTicks) due ∧
      listHead (UInt32.ofNat due) delayTicks ≠ slotAt level now := by
  have hlevels : level = 1 ∨ level = 2 ∨ level = 3 := by omega
  have hle : now ≤ due := by
    rcases hlevels with rfl | rfl | rfl <;> omega
  have hlt : due - now < 256 ^ level := by
    rcases hlevels with rfl | rfl | rfl <;> omega
  have htoNat : delayTicks.toNat = due - now := by
    rw [hdelay, UInt32.toNat_sub, UInt32.toNat_ofNat', UInt32.toNat_ofNat']
    rcases hlevels with rfl | rfl | rfl <;> omega
  obtain ⟨lower, hfour, hhead, hmin, hmax⟩ := listHead_ofNat due delayTicks
  rw [htoNat] at hmin hmax
  have hbelow : lower < level := by
    by_contra hge
    have hpow : 256 ^ level ≤ 256 ^ lower := Nat.pow_le_pow_right (by decide) (by omega)
    omega
  have hgrace : grace level lower = 0 := if_pos hbelow
  refine ⟨⟨lower, hfour, hhead, ?_, ?_⟩, ?_⟩
  · rw [hgrace]
    exact Nat.div_le_div_right hle
  · have hlowers : lower = 0 ∨ lower = 1 ∨ lower = 2 := by omega
    rw [hgrace]
    rcases hlevels with rfl | rfl | rfl <;> rcases hlowers with rfl | rfl | rfl <;> omega
  · intro heq
    have := (slotAt_eq lower level due now hfour hlevel (hhead.symm.trans heq)).1
    omega

/-- The due time of a timer started at `now`. With a delay of zero it hangs in
the list that level 0 visits next: at once if that list is being fired, and
after a whole revolution otherwise. -/
def dueTime (turned now : Nat) (delayTicks : UInt32) : Nat :=
  if delayTicks = 0 ∧ turned = 0 then now + 256 else now + delayTicks.toNat

theorem Placed.start (turned now : Nat) (delayTicks : UInt32) (hturned : turned ≤ 1) :
    Placed turned now (listHead (UInt32.ofNat now + delayTicks) delayTicks)
        (dueTime turned now delayTicks) ∧
      (256 ≤ (listHead (UInt32.ofNat now + delayTicks) delayTicks).val →
        UInt32.ofNat now + delayTicks = UInt32.ofNat (dueTime turned now delayTicks)) := by
  have hsum : UInt32.ofNat now + delayTicks = UInt32.ofNat (now + delayTicks.toNat) := by
    rw [UInt32.ofNat_add, UInt32.ofNat_toNat]
  rw [hsum]
  obtain ⟨level, hlevel, hhead, hmin, hmax⟩ :=
    listHead_ofNat (now + delayTicks.toNat) delayTicks
  have hlevels : level = 0 ∨ level = 1 ∨ level = 2 ∨ level = 3 := by omega
  have hzero : delayTicks = 0 ↔ delayTicks.toNat = 0 := by
    rw [← UInt32.toNat_inj]
    rfl
  rw [hhead]
  unfold dueTime
  split_ifs with hcase
  · have hdelay : delayTicks.toNat = 0 := hzero.mp hcase.1
    have hlevelZero : level = 0 := by
      rcases hmin with h | h
      · exact h
      · have : 0 < 256 ^ level := Nat.pow_pos (by decide)
        omega
    subst hlevelZero
    rw [hdelay]
    refine ⟨⟨0, by decide, ?_, ?_, ?_⟩, fun hhigh => ?_⟩
    · apply Fin.ext
      rw [slotAt_val 0 _ (by decide), slotAt_val 0 _ (by decide)]
      omega
    · rw [hcase.2, show grace 0 0 = 1 from rfl]
      omega
    · rw [hcase.2, show grace 0 0 = 1 from rfl]
      omega
    · rw [slotAt_val 0 _ (by decide)] at hhigh
      omega
  · have hpositive : grace turned level = 1 → level = 0 → 1 ≤ delayTicks.toNat := by
      intro hgrace hlevelZero
      unfold grace at hgrace
      rw [hzero] at hcase
      split_ifs at hgrace
      omega
    have hgraceLe : grace turned level ≤ 1 := by
      unfold grace
      split_ifs <;> omega
    have hgraceHigh : level ≠ 0 → grace turned level = 1 := by
      intro hne
      exact if_neg (by omega)
    refine ⟨⟨level, hlevel, rfl, ?_, ?_⟩, fun _ => rfl⟩
    · rcases hlevels with rfl | rfl | rfl | rfl <;> omega
    · rcases hlevels with rfl | rfl | rfl | rfl <;> omega

end Libsax.Timer
