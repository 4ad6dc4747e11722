import Libsax.Timer.Heap
import Libsax.Timer.Placement

/-! Cascading and ticking: every node stays in the wheel, and each one hangs in
a list that is visited when the node is due. -/
namespace Libsax.Timer

open Libsax.Lib

variable {wheel : Wheel} {shape : Shape} {loose : List Cell} {intact : Fin 1024 → Prop}

theorem Heap.mono {narrow : Fin 1024 → Prop} (hheap : Heap wheel shape loose intact)
    (hnarrow : ∀ head, narrow head → intact head) : Heap wheel shape loose narrow :=
  { hheap with family := ⟨fun head h => hheap.family.ring head (hnarrow head h), hheap.family.apart⟩ }

/-- The cells of a list after each of `moved` went to the list of its own choice. -/
def Redistributed (before after : Fin 1024 → List Cell) (moved : List Cell)
    (target : Cell → Fin 1024) : Prop :=
  ∀ head, ∀ cell ∈ after head, cell ∈ before head ∧ cell ∉ moved ∨ cell ∈ moved ∧ target cell = head

theorem Heap.rescheduleLoop {head : Fin 1024} {now : UInt32} {fuel : Nat} {node : Cell}
    {remaining : List Cell} (hfuel : remaining.length < fuel)
    (hheap : Heap wheel shape [] (· ≠ head)) (hlist : shape.lists head = remaining)
    (hnodup : remaining.Nodup) (hwalk : wheel.links.Walk node remaining (.head head))
    (hleave : ∀ cell ∈ remaining, listHead (wheel.expire cell) (wheel.expire cell - now) ≠ head) :
    ∃ links lists, rescheduleLoop head now fuel wheel node = some { wheel with links := links } ∧
      Heap { wheel with links := links } { shape with lists := lists } [] (· ≠ head) ∧
      lists head = [] ∧
      Redistributed shape.lists lists remaining
        (fun cell => listHead (wheel.expire cell) (wheel.expire cell - now)) ∧
      ({ shape with lists := lists } : Shape).pending.Perm shape.pending := by
  induction remaining generalizing wheel shape node fuel with
  | nil =>
    obtain ⟨fuel, rfl⟩ := Nat.exists_eq_succ_of_ne_zero (Nat.ne_of_gt hfuel)
    refine ⟨wheel.links, shape.lists, if_pos hwalk, hheap, hlist, ?_, .refl _⟩
    intro j cell hmem
    exact .inl ⟨hmem, by simp⟩
  | cons cell rest ih =>
    obtain ⟨fuel, rfl⟩ := Nat.exists_eq_succ_of_ne_zero (Nat.ne_of_gt (Nat.zero_lt_of_lt hfuel))
    obtain ⟨rfl, after, hafter, hwalk⟩ := hwalk
    have hmem : node ∈ shape.lists head := by simp [hlist]
    have hne : node ≠ .head head := (hheap.ownedLists head node hmem).ne_head head
    have hout := List.nodup_cons.mp hnodup
    have htarget := hleave node (by simp)
    have htake := hheap.take (fun h => h rfl) hlist (hlist ▸ hnodup)
    obtain ⟨links, hschedule, hheap', hnext⟩ := htake.schedule (wheel.expire node - now) htarget
    generalize htargetEq : listHead (wheel.expire node) (wheel.expire node - now) = target
      at htarget hschedule hheap' hnext
    have htargetList : (shape.put head rest).lists target = shape.lists target :=
      shape.put_lists_of_ne htarget rest
    rw [htargetList] at hheap' hnext
    have hwalk' : links.Walk after rest (.head head) := by
      refine hwalk.congr fun other hother => ?_
      have hotherMem : other ∈ shape.lists head := by simp [hlist, hother]
      refine hnext other ?_ (hheap.ownedLists head other hotherMem).ne_head ?_
      · rintro rfl
        exact hout.1 hother
      · intro h
        exact hheap.family.apart target head htarget other (List.mem_cons_of_mem _ h)
          (List.mem_cons_of_mem _ hotherMem)
    have hrest : ((shape.put head rest).put target (node :: shape.lists target)).lists head =
        rest := by
      rw [Shape.put_lists_of_ne _ (Ne.symm htarget), Shape.put_lists_self]
    obtain ⟨links', lists, hloop, hfinal, hempty, hmoved, hperm⟩ :=
      ih (Nat.lt_of_succ_lt_succ hfuel) hheap' hrest hout.2 hwalk'
        (fun other h => hleave other (List.mem_cons_of_mem _ h))
    refine ⟨links', lists, ?_, hfinal, hempty, ?_, hperm.trans ?_⟩
    · simp only [Timer.rescheduleLoop, if_neg hne, hafter, Option.bind_eq_bind, Option.bind_some,
        hschedule]
      exact hloop
    · intro j other hother
      rcases hmoved j other hother with ⟨hbefore, hnotRest⟩ | ⟨hmoved, htargetOther⟩
      · rw [Shape.mem_put] at hbefore
        split_ifs at hbefore with hj
        · rcases List.mem_cons.mp hbefore with rfl | h
          · exact .inr ⟨by simp, htargetEq.trans hj.symm⟩
          · refine .inl ⟨hj ▸ h, ?_⟩
            rw [List.mem_cons, not_or]
            refine ⟨?_, hnotRest⟩
            rintro rfl
            exact hheap.family.apart target head htarget other (List.mem_cons_of_mem _ h)
              (List.mem_cons_of_mem _ hmem)
        · rw [Shape.mem_put] at hbefore
          split_ifs at hbefore with hjhead
          · exact absurd hbefore hnotRest
          · refine .inl ⟨hbefore, ?_⟩
            rw [List.mem_cons, not_or]
            refine ⟨?_, hnotRest⟩
            rintro rfl
            exact hheap.family.apart j head hjhead other (List.mem_cons_of_mem _ hbefore)
              (List.mem_cons_of_mem _ hmem)
      · exact .inr ⟨List.mem_cons_of_mem _ hmoved, htargetOther⟩
    · have hput := (shape.put head rest).put_pending target (node :: shape.lists target)
      have htaken := shape.put_pending head rest
      rw [htargetList] at hput
      rw [hlist] at htaken
      have hcons : ((shape.put head rest).put target (node :: shape.lists target)).pending.Perm
          (node :: (shape.put head rest).pending) := by
        refine (List.perm_append_right_iff (shape.lists target)).mp (hput.trans ?_)
        exact List.perm_middle
      refine hcons.trans ((List.perm_append_right_iff rest).mp ?_)
      exact List.perm_middle.symm.trans htaken

theorem Heap.reschedule {head : Fin 1024} {now : UInt32}
    (hheap : Heap wheel shape [] fun _ => True)
    (hleave : ∀ cell ∈ shape.lists head,
      listHead (wheel.expire cell) (wheel.expire cell - now) ≠ head) :
    ∃ links lists, reschedule wheel head now = some { wheel with links := links } ∧
      Heap { wheel with links := links } { shape with lists := lists } [] (fun _ => True) ∧
      Redistributed shape.lists lists (shape.lists head)
        (fun cell => listHead (wheel.expire cell) (wheel.expire cell - now)) ∧
      ({ shape with lists := lists } : Shape).pending.Perm shape.pending := by
  have hring := hheap.family.ring head trivial
  have hnodup := (List.nodup_cons.mp hring.nodup).2
  obtain ⟨first, hfirst, hwalk⟩ := hring.segment.walk
  obtain ⟨links, lists, hloop, hfinal, hempty, hmoved, hperm⟩ :=
    (hheap.mono fun _ _ => trivial).rescheduleLoop
      (Nat.lt_succ_of_le (hheap.length_le hnodup)) rfl hnodup hwalk hleave
  refine ⟨links.reset (.head head), lists, ?_, ?_, hmoved, hperm⟩
  · unfold Timer.reschedule
    simp only [hfirst, Option.bind_eq_bind, Option.bind_some, hloop]
    rfl
  · refine (hfinal.reset hempty).mono fun j _ => ?_
    by_cases hj : j = head
    · exact .inr hj
    · exact .inl hj

/-- Every node in the wheel hangs where it belongs for its due time, and above
level 0 carries it. (A node started with a delay of zero carries another one.) -/
def Timed (wheel : Wheel) (shape : Shape) (turned now : Nat) (due : Cell → Nat) : Prop :=
  ∀ head, ∀ cell ∈ shape.lists head,
    Placed turned now head (due cell) ∧
      (256 ≤ head.val → wheel.expire cell = UInt32.ofNat (due cell))

theorem Timed.turn {now level : Nat} {due : Cell → Nat}
    (hheap : Heap wheel shape [] fun _ => True) (htimed : Timed wheel shape (level + 1) now due)
    (hpos : 0 < level) (hlevel : level < 4) (hstart : now % 256 ^ level = 0) :
    ∃ links lists,
      reschedule wheel (slotAt level now) (UInt32.ofNat now) =
        some { wheel with links := links } ∧
      Heap { wheel with links := links } { shape with lists := lists } [] (fun _ => True) ∧
      Timed { wheel with links := links } { shape with lists := lists } level now due ∧
      ({ shape with lists := lists } : Shape).pending.Perm shape.pending := by
  have hhigh : 256 ≤ (slotAt level now).val := by
    rw [slotAt_val level now hlevel]
    omega
  have hcascade : ∀ cell ∈ shape.lists (slotAt level now),
      Placed level now (listHead (wheel.expire cell) (wheel.expire cell - UInt32.ofNat now))
        (due cell) ∧
      listHead (wheel.expire cell) (wheel.expire cell - UInt32.ofNat now) ≠ slotAt level now := by
    intro cell hmem
    obtain ⟨hplaced, hexpire⟩ := htimed _ cell hmem
    rw [hexpire hhigh]
    exact Placed.cascade hlevel hstart (hplaced.turned hlevel) rfl hpos
  obtain ⟨links, lists, hreschedule, hfinal, hmoved, hperm⟩ :=
    hheap.reschedule fun cell hmem => (hcascade cell hmem).2
  refine ⟨links, lists, hreschedule, hfinal, ?_, hperm⟩
  intro j cell hmem
  rcases hmoved j cell hmem with ⟨hbefore, hstays⟩ | ⟨hleft, rfl⟩
  · obtain ⟨hplaced, hexpire⟩ := htimed j cell hbefore
    refine ⟨hplaced.stay hlevel ?_, hexpire⟩
    rintro rfl
    exact hstays hbefore
  · exact ⟨(hcascade cell hleft).1, fun _ => (htimed _ cell hleft).2 hhigh⟩

private theorem ofNat_and_eq_zero (now bits : Nat) (hbits : bits < 32) :
    UInt32.ofNat now &&& UInt32.ofNat (2 ^ bits - 1) = 0 ↔ now % 2 ^ bits = 0 := by
  have hle : 2 ^ bits ≤ 2 ^ 31 := Nat.pow_le_pow_right (by decide) (by omega)
  have hmask : (2 ^ bits - 1) % 2 ^ 32 = 2 ^ bits - 1 := Nat.mod_eq_of_lt (by omega)
  rw [← UInt32.toNat_inj, UInt32.toNat_and, UInt32.toNat_ofNat', UInt32.toNat_ofNat', hmask,
    Nat.and_two_pow_sub_one_eq_mod, Nat.mod_mod_of_dvd _ (Nat.pow_dvd_pow 2 (by omega))]
  rfl

theorem slot_zero {now level : Nat} (hlevel : level < 4) (hdigit : now / 256 ^ level % 256 = 0) :
    slot level 0 = slotAt level now := by
  change slot level (UInt32.ofNat 0) = _
  rw [slot_ofNat level 0 hlevel]
  unfold slotAt
  rw [hdigit, Nat.zero_div]

/-- The state after some of the levels have been turned. -/
structure Turned (wheel : Wheel) (shape : Shape) (level now : Nat) (due : Cell → Nat)
    (next : Wheel) (lists : Fin 1024 → List Cell) : Prop where
  same : next = { wheel with links := next.links }
  heap : Heap next { shape with lists := lists } [] fun _ => True
  timed : Timed next { shape with lists := lists } level now due
  perm : ({ shape with lists := lists } : Shape).pending.Perm shape.pending

theorem Turned.turn {now level : Nat} {due : Cell → Nat} {next : Wheel}
    {lists : Fin 1024 → List Cell} (hturned : Turned wheel shape (level + 1) now due next lists)
    (hpos : 0 < level) (hlevel : level < 4) (hstart : now % 256 ^ level = 0) :
    ∃ final after, reschedule next (slotAt level now) (UInt32.ofNat now) = some final ∧
      Turned wheel shape level now due final after := by
  obtain ⟨links, after, hreschedule, hheap, htimed, hperm⟩ :=
    hturned.timed.turn hturned.heap hpos hlevel hstart
  refine ⟨_, after, hreschedule, ?_, hheap, htimed, hperm.trans hturned.perm⟩
  rw [hturned.same]

theorem Turned.tick {now : Nat} {due : Cell → Nat} (hlast : wheel.last = UInt32.ofNat now)
    (hheap : Heap wheel shape [] fun _ => True) (htimed : Timed wheel shape 0 now due) :
    ∃ next lists, Timer.tick wheel = some (next, slotAt 0 (now + 1)) ∧
      Turned { wheel with last := UInt32.ofNat (now + 1) } shape 1 (now + 1) due next lists := by
  have hlast : wheel.last + 1 = UInt32.ofNat (now + 1) := by
    rw [hlast, UInt32.ofNat_add]
    rfl
  have hlow : UInt32.ofNat (now + 1) &&& 0xFF = 0 ↔ (now + 1) % 2 ^ 8 = 0 :=
    ofNat_and_eq_zero (now + 1) 8 (by decide)
  have hmiddle : UInt32.ofNat (now + 1) &&& 0xFFFF = 0 ↔ (now + 1) % 2 ^ 16 = 0 :=
    ofNat_and_eq_zero (now + 1) 16 (by decide)
  have hhigh : UInt32.ofNat (now + 1) &&& 0xFFFFFF = 0 ↔ (now + 1) % 2 ^ 24 = 0 :=
    ofNat_and_eq_zero (now + 1) 24 (by decide)
  have hbegin : ∀ turned, (∀ level, level < 4 →
      (level < turned ↔ (now + 1) % 256 ^ level = 0)) →
      Turned { wheel with last := UInt32.ofNat (now + 1) } shape turned (now + 1) due
        { wheel with last := UInt32.ofNat (now + 1) } shape.lists := by
    intro turned hlevels
    refine ⟨rfl, { hheap with }, ?_, .refl _⟩
    intro head cell hmem
    obtain ⟨hplaced, hexpire⟩ := htimed head cell hmem
    exact ⟨hplaced.tick hlevels, hexpire⟩
  generalize now + 1 = next at hlast hlow hmiddle hhigh hbegin ⊢
  have hcases : ∀ level, level < 4 → level = 0 ∨ level = 1 ∨ level = 2 ∨ level = 3 := by omega
  unfold Timer.tick
  simp only [hlast, Option.bind_eq_bind]
  by_cases hone : next % 2 ^ 8 = 0
  · have hfirst : slot 0 0 = slotAt 0 next := slot_zero (by decide) (by omega)
    rw [if_neg (not_not.mpr (hlow.mpr hone)), hfirst]
    by_cases htwo : next % 2 ^ 16 = 0
    · have hsecond : slot 1 0 = slotAt 1 next := slot_zero (by decide) (by omega)
      rw [if_neg (not_not.mpr (hmiddle.mpr htwo)), hsecond]
      by_cases hthree : next % 2 ^ 24 = 0
      · -- the last three bytes are zero: turn all four levels
        have hthird : slot 2 0 = slotAt 2 next := slot_zero (by decide) (by omega)
        rw [if_neg (not_not.mpr (hhigh.mpr hthree)), hthird, slot_ofNat 3 next (by decide)]
        have hstart := hbegin 4 fun level hlevel => by
          rcases hcases level hlevel with rfl | rfl | rfl | rfl <;> omega
        obtain ⟨after3, lists3, h3, ht3⟩ := hstart.turn (by decide) (by decide) (by omega)
        obtain ⟨after2, lists2, h2, ht2⟩ := ht3.turn (by decide) (by decide) (by omega)
        obtain ⟨after1, lists1, h1, ht1⟩ := ht2.turn (by decide) (by decide) (by omega)
        exact ⟨after1, lists1, by simp [h3, h2, h1], ht1⟩
      · rw [if_pos (mt hhigh.mp hthree), slot_ofNat 2 next (by decide)]
        have hstart := hbegin 3 fun level hlevel => by
          rcases hcases level hlevel with rfl | rfl | rfl | rfl <;> omega
        obtain ⟨after2, lists2, h2, ht2⟩ := hstart.turn (by decide) (by decide) (by omega)
        obtain ⟨after1, lists1, h1, ht1⟩ := ht2.turn (by decide) (by decide) (by omega)
        exact ⟨after1, lists1, by simp [h2, h1], ht1⟩
    · rw [if_pos (mt hmiddle.mp htwo), slot_ofNat 1 next (by decide)]
      have hstart := hbegin 2 fun level hlevel => by
        rcases hcases level hlevel with rfl | rfl | rfl | rfl <;> omega
      obtain ⟨after1, lists1, h1, ht1⟩ := hstart.turn (by decide) (by decide) (by omega)
      exact ⟨after1, lists1, by simp [h1], ht1⟩
  · rw [if_pos (mt hlow.mp hone), slot_ofNat 0 next (by decide)]
    have hstart := hbegin 1 fun level hlevel => by
      rcases hcases level hlevel with rfl | rfl | rfl | rfl <;> omega
    exact ⟨_, _, rfl, hstart⟩

end Libsax.Timer
