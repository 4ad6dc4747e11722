import Mathlib.Data.Set.Card

/-! Named files that are removed and renamed, one by one, and a rotation of them: every file in
some slots moves one slot on, and the file on top into the first one. -/
namespace Libsax.Lib.Renames

inductive Op (ι : Type) where
  | remove (name : ι)
  | rename (source target : ι)

variable {ι α : Type} {files : ι → Option α}

/-- Each file, marked with its name. -/
def labels (files : ι → Option α) : ι → Option ι := fun name => (files name).map fun _ => name

def used (files : ι → Option α) (slot : Nat → ι) : Set Nat := {i | (files (slot i)).isSome}

@[simp] theorem mem_used {slot : Nat → ι} {i : Nat} : i ∈ used files slot ↔
    (files (slot i)).isSome :=
  Iff.rfl

variable [DecidableEq ι]

/-- A file that is not there cannot be renamed. -/
def Op.apply (files : ι → Option α) : Op ι → ι → Option α
  | .remove name => Function.update files name none
  | .rename source target =>
    match files source with
    | none => files
    | some content => Function.update (Function.update files source none) target (some content)

def applyAll (files : ι → Option α) (ops : List (Op ι)) : ι → Option α :=
  ops.foldl Op.apply files

/-- Moves the files of the slots below one to the next slots, the last one first. -/
def shift (slot : Nat → ι) : Nat → List (Op ι)
  | 0 => []
  | i + 1 => .rename (slot i) (slot (i + 1)) :: shift slot i

/-- Makes room in the slots up to one, for the file on top. -/
def rotation (slot : Nat → ι) (top : ι) (last : Nat) : List (Op ι) :=
  .remove (slot last) :: (shift slot last ++ [.rename top (slot 0)])

private theorem apply_rename {source target : ι} (hfree : files target = none) :
    Op.apply files (.rename source target) =
      Function.update (Function.update files source none) target (files source) := by
  unfold Op.apply
  dsimp only
  split
  case h_1 hnone =>
    funext name
    rw [hnone, Function.update_apply, Function.update_apply]
    split_ifs with htarget hsource
    · rw [htarget, hfree]
    · rw [hsource, hnone]
    · rfl
  case h_2 content hcontent => rw [hcontent]

variable {slot : Nat → ι} {top : ι} {last : Nat}

private theorem shift_spec (hslot : Function.Injective slot) (last : Nat) {files : ι → Option α}
    (hfree : files (slot last) = none) :
    applyAll files (shift slot last) (slot 0) = none ∧
      (∀ i < last, applyAll files (shift slot last) (slot (i + 1)) = files (slot i)) ∧
      ∀ name, (∀ i ≤ last, name ≠ slot i) → applyAll files (shift slot last) name = files name := by
  induction last generalizing files with
  | zero => exact ⟨hfree, fun _ hi => absurd hi (Nat.not_lt_zero _), fun _ _ => rfl⟩
  | succ last ih =>
    have hother : ∀ {i j : Nat}, i ≠ j → slot i ≠ slot j := fun hne heq => hne (hslot heq)
    have hmoved := @apply_rename _ _ _ _ (slot last) _ hfree
    have hfreed : Op.apply files (.rename (slot last) (slot (last + 1))) (slot last) = none := by
      rw [hmoved, Function.update_of_ne (hother (by omega)), Function.update_self]
    have hsame : ∀ name, name ≠ slot last → name ≠ slot (last + 1) →
        Op.apply files (.rename (slot last) (slot (last + 1))) name = files name := by
      intro name hsource htarget
      rw [hmoved, Function.update_of_ne htarget, Function.update_of_ne hsource]
    obtain ⟨hfirst, hnext, hrest⟩ := ih hfreed
    unfold applyAll at hfirst hnext hrest ⊢
    rw [shift, List.foldl_cons]
    refine ⟨hfirst, fun i hi => ?_, fun name hname => ?_⟩
    · rcases Nat.lt_succ_iff_lt_or_eq.mp hi with hlt | rfl
      · rw [hnext i hlt, hsame _ (hother (by omega)) (hother (by omega))]
      · rw [hrest _ fun j hj => hother (by omega), hmoved, Function.update_self]
    · rw [hrest name fun i hi => hname i (by omega)]
      exact hsame name (hname last (by omega)) (hname (last + 1) (le_refl _))

theorem rotation_spec (hslot : Function.Injective slot) (htop : ∀ i, slot i ≠ top)
    (files : ι → Option α) (last : Nat) :
    applyAll files (rotation slot top last) top = none ∧
      applyAll files (rotation slot top last) (slot 0) = files top ∧
      (∀ i < last, applyAll files (rotation slot top last) (slot (i + 1)) = files (slot i)) ∧
      ∀ name, name ≠ top → (∀ i ≤ last, name ≠ slot i) →
        applyAll files (rotation slot top last) name = files name := by
  have hother : ∀ {i j : Nat}, i ≠ j → slot i ≠ slot j := fun hne heq => hne (hslot heq)
  have hfree : Function.update files (slot last) none (slot last) = none :=
    Function.update_self _ _ _
  obtain ⟨hfirst, hnext, hrest⟩ := shift_spec hslot last hfree
  have hmoved := @apply_rename _ _ _ _ top _ hfirst
  have hops : applyAll files (rotation slot top last) = Op.apply
      (applyAll (Function.update files (slot last) none) (shift slot last))
      (.rename top (slot 0)) := by
    unfold applyAll rotation
    rw [List.foldl_cons, List.foldl_append]
    rfl
  rw [hops, hmoved]
  refine ⟨?_, ?_, fun i hi => ?_, fun name hname hslots => ?_⟩
  · rw [Function.update_of_ne (htop 0).symm, Function.update_self]
  · rw [Function.update_self, hrest top fun i _ => (htop i).symm,
      Function.update_of_ne (htop last).symm]
  · rw [Function.update_of_ne (hother (by omega)), Function.update_of_ne (htop _), hnext i hi,
      Function.update_of_ne (hother (by omega))]
  · rw [Function.update_of_ne (hslots 0 (Nat.zero_le _)), Function.update_of_ne hname,
      hrest name hslots, Function.update_of_ne (hslots last (le_refl _))]

theorem rotation_keeps (hslot : Function.Injective slot) (htop : ∀ i, slot i ≠ top) {name : ι}
    (hname : name ≠ slot last) : ∃ place, place ≠ top ∧ ∀ {β : Type} (files : ι → Option β),
      applyAll files (rotation slot top last) place = files name := by
  by_cases hcurrent : name = top
  · exact ⟨slot 0, htop 0, fun files => hcurrent ▸ (rotation_spec hslot htop files last).2.1⟩
  · by_cases hlast : ∃ i < last, name = slot i
    · obtain ⟨i, hi, rfl⟩ := hlast
      exact ⟨slot (i + 1), htop _, fun files => (rotation_spec hslot htop files last).2.2.1 i hi⟩
    · refine ⟨name, hcurrent, fun files => (rotation_spec hslot htop files last).2.2.2 name
        hcurrent fun i hi heq => ?_⟩
      rcases Nat.lt_or_eq_of_le hi with hlt | rfl
      · exact hlast ⟨i, hlt, heq⟩
      · exact hname heq

theorem rotation_loses (hslot : Function.Injective slot) (htop : ∀ i, slot i ≠ top) (place : ι) :
    applyAll (labels files) (rotation slot top last) place ≠ some (slot last) := by
  obtain ⟨hgone, hfirst, hnext, hrest⟩ := rotation_spec hslot htop (labels files) last
  have hlabel : ∀ name, labels files name = some (slot last) → name = slot last := by
    intro name hname
    obtain ⟨_, -, heq⟩ := Option.map_eq_some_iff.mp hname
    exact heq
  intro hplace
  by_cases hcurrent : place = top
  · rw [hcurrent, hgone] at hplace
    exact absurd hplace.symm (Option.some_ne_none _)
  · by_cases hmoved : ∃ i ≤ last, place = slot i
    · obtain ⟨i, hi, rfl⟩ := hmoved
      cases i with
      | zero =>
        rw [hfirst] at hplace
        exact htop last (hlabel _ hplace).symm
      | succ i =>
        rw [hnext i hi] at hplace
        exact absurd (hslot (hlabel _ hplace)) (by omega)
    · have hslots : ∀ i ≤ last, place ≠ slot i := fun i hi heq => hmoved ⟨i, hi, heq⟩
      rw [hrest place hcurrent hslots] at hplace
      exact hslots last (le_refl _) (hlabel _ hplace)

theorem rotation_used (hslot : Function.Injective slot) (htop : ∀ i, slot i ≠ top)
    (hcurrent : (files top).isSome) :
    (used (applyAll files (rotation slot top last)) slot).encard =
      (used files slot \ {last}).encard + 1 := by
  obtain ⟨-, hfirst, hnext, hrest⟩ := rotation_spec hslot htop files last
  let move : Nat → Nat := fun i => if i < last then i + 1 else i
  have hmove : ∀ i, i ≠ last →
      applyAll files (rotation slot top last) (slot (move i)) = files (slot i) := by
    intro i hi
    rcases Nat.lt_or_gt_of_ne hi with hlt | hgt
    · rw [show move i = i + 1 from if_pos hlt, hnext i hlt]
    · rw [show move i = i from if_neg (Nat.lt_asymm hgt)]
      exact hrest _ (htop i) fun j hj heq => absurd (hslot heq) (by omega)
  have hcover : ∀ j, j ≠ 0 → ∃ i, i ≠ last ∧ move i = j := by
    intro j hj
    rcases Nat.lt_or_ge last j with hlt | hle
    · exact ⟨j, Nat.ne_of_gt hlt, if_neg (Nat.lt_asymm hlt)⟩
    · exact ⟨j - 1, by omega, (if_pos (by omega)).trans (by omega)⟩
  have hused : used (applyAll files (rotation slot top last)) slot =
      insert 0 (move '' (used files slot \ {last})) := by
    apply Set.Subset.antisymm
    · intro j hj
      rcases eq_or_ne j 0 with rfl | hne
      · exact Set.mem_insert 0 _
      · obtain ⟨i, hi, rfl⟩ := hcover j hne
        have hthere : (files (slot i)).isSome := hmove i hi ▸ hj
        exact Set.mem_insert_of_mem 0 ⟨i, ⟨hthere, hi⟩, rfl⟩
    · rintro j (rfl | ⟨i, ⟨hi, hne⟩, rfl⟩)
      · exact mem_used.mpr (hfirst ▸ hcurrent)
      · exact mem_used.mpr ((hmove i hne).symm ▸ hi)
  have hzero : 0 ∉ move '' (used files slot \ {last}) := by
    rintro ⟨i, ⟨-, hne⟩, hi⟩
    have hlast : i ≠ last := hne
    dsimp only [move] at hi
    split_ifs at hi
    omega
  have hinjective : Set.InjOn move (used files slot \ {last}) := by
    rintro i ⟨-, hne⟩ j ⟨-, hne'⟩ heq
    have hi : i ≠ last := hne
    have hj : j ≠ last := hne'
    dsimp only [move] at heq
    split_ifs at heq <;> omega
  rw [hused, Set.encard_insert_of_notMem hzero, hinjective.encard_image]

end Libsax.Lib.Renames
