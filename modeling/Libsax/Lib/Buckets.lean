import Mathlib.Data.List.Find
import Libsax.Lib.Groups

/-! Hash buckets: a family of lists, each element filed in the bucket that an
index function names for it. -/
namespace Libsax.Lib

variable {α : Type}

/-- Put an element in front of the bucket `i`. -/
def file (i : Nat) (buckets : Nat → List α) (x : α) : Nat → List α :=
  Function.update buckets i (x :: buckets i)

/-- Everything the first `size` buckets hold, bucket by bucket. -/
def contents (size : Nat) (buckets : Nat → List α) : List α :=
  (List.range size).flatMap buckets

/-- Every element lies in its own bucket. -/
def Filed (size : Nat) (index : α → Nat) (buckets : Nat → List α) : Prop :=
  ∀ i < size, ∀ x ∈ buckets i, index x = i

@[simp] theorem mem_contents {size : Nat} {buckets : Nat → List α} {x : α} :
    x ∈ contents size buckets ↔ ∃ i < size, x ∈ buckets i := by
  simp [contents]

@[simp] theorem contents_empty (size : Nat) : contents size (fun _ => ([] : List α)) = [] := by
  simp [contents]

theorem contents_congr {size : Nat} {buckets other : Nat → List α}
    (heq : ∀ i < size, buckets i = other i) : contents size buckets = contents size other :=
  List.flatMap_congr fun i hi => heq i (List.mem_range.mp hi)

theorem contents_succ (size : Nat) (buckets : Nat → List α) :
    contents (size + 1) buckets = contents size buckets ++ buckets size := by
  simp [contents, List.range_succ]

private theorem contents_update_perm {size i : Nat} (hi : i < size) (buckets : Nat → List α)
    (list : List α) :
    (contents size (Function.update buckets i list) ++ buckets i).Perm
      (contents size buckets ++ list) :=
  flatMap_update_perm (List.mem_range.mpr hi) List.nodup_range buckets list

theorem contents_update_more {size i : Nat} (hi : i < size) {buckets : Nat → List α}
    {list : List α} {x : α} (hmore : list.Perm (x :: buckets i)) :
    (contents size (Function.update buckets i list)).Perm (x :: contents size buckets) := by
  have hperm := contents_update_perm hi buckets list
  have hmiddle : (contents size buckets ++ list).Perm (x :: contents size buckets ++ buckets i) :=
    (hmore.append_left _).trans List.perm_middle
  exact (List.perm_append_right_iff _).mp (hperm.trans hmiddle)

theorem contents_update_less {size i : Nat} (hi : i < size) {buckets : Nat → List α}
    {list : List α} {x : α} (hless : (buckets i).Perm (x :: list)) :
    (contents size buckets).Perm (x :: contents size (Function.update buckets i list)) := by
  have hback : (buckets i).Perm (x :: Function.update buckets i list i) := by
    rwa [Function.update_self]
  have hperm := contents_update_more hi hback
  rwa [Function.update_idem, Function.update_eq_self] at hperm

theorem file_contents {size i : Nat} (hi : i < size) (buckets : Nat → List α) (x : α) :
    (contents size (file i buckets x)).Perm (x :: contents size buckets) :=
  contents_update_more hi (List.Perm.refl _)

theorem contents_cut {size i : Nat} (hi : i < size) {buckets : Nat → List α}
    {left right : List α} {x : α} (hbucket : buckets i = left ++ x :: right) :
    (contents size buckets).Perm
      (x :: contents size (Function.update buckets i (left ++ right))) := by
  refine contents_update_less hi ?_
  rw [hbucket]
  exact List.perm_middle

theorem contents_extend {size more : Nat} (hle : size ≤ more) {buckets : Nat → List α}
    (hempty : ∀ i, size ≤ i → i < more → buckets i = []) :
    contents more buckets = contents size buckets := by
  induction more with
  | zero =>
    rw [Nat.le_zero.mp hle]
  | succ more ih =>
    rcases Nat.lt_or_ge more size with hlt | hge
    · rw [show size = more + 1 by omega]
    · rw [contents_succ, hempty more hge (Nat.lt_succ_self more), List.append_nil]
      exact ih hge fun i hi hlt => hempty i hi (Nat.lt_succ_of_lt hlt)

theorem contents_perm {size : Nat} {buckets other : Nat → List α}
    (hperm : ∀ i < size, (buckets i).Perm (other i)) :
    (contents size buckets).Perm (contents size other) := by
  induction size with
  | zero => exact List.Perm.refl _
  | succ size ih =>
    rw [contents_succ, contents_succ]
    exact (ih fun i hi => hperm i (Nat.lt_succ_of_lt hi)).append (hperm size (Nat.lt_succ_self _))

private theorem contents_length_le {size : Nat} {buckets other : Nat → List α}
    (hle : ∀ i < size, (buckets i).length ≤ (other i).length) :
    (contents size buckets).length ≤ (contents size other).length := by
  induction size with
  | zero => exact Nat.le_refl _
  | succ size ih =>
    rw [contents_succ, contents_succ, List.length_append, List.length_append]
    exact Nat.add_le_add (ih fun i hi => hle i (Nat.lt_succ_of_lt hi))
      (hle size (Nat.lt_succ_self _))

theorem contents_length_lt {size : Nat} {buckets other : Nat → List α}
    (hle : ∀ i < size, (buckets i).length ≤ (other i).length) {i : Nat} (hi : i < size)
    (hlt : (buckets i).length < (other i).length) :
    (contents size buckets).length < (contents size other).length := by
  have hswap := (contents_update_perm hi other (buckets i)).length_eq
  rw [List.length_append, List.length_append] at hswap
  have hbound : (contents size buckets).length ≤
      (contents size (Function.update other i (buckets i))).length := by
    refine contents_length_le fun j hj => ?_
    by_cases heq : j = i
    · subst heq
      rw [Function.update_self]
    · rw [Function.update_of_ne heq]
      exact hle j hj
  omega

namespace Filed

variable {size : Nat} {index : α → Nat} {buckets : Nat → List α}

theorem update (hfiled : Filed size index buckets) {i : Nat} {list : List α}
    (hlist : ∀ x ∈ list, index x = i) : Filed size index (Function.update buckets i list) := by
  intro j hj x hx
  by_cases heq : j = i
  · subst heq
    rw [Function.update_self] at hx
    exact hlist x hx
  · rw [Function.update_of_ne heq] at hx
    exact hfiled j hj x hx

theorem file (hfiled : Filed size index buckets) {x : α} (hx : index x < size) :
    Filed size index (Lib.file (index x) buckets x) := by
  refine hfiled.update ?_
  intro y hy
  rcases List.mem_cons.mp hy with rfl | hold
  · rfl
  · exact hfiled _ hx y hold

theorem empty : Filed size index fun _ => [] := by
  intro i _ x hx
  exact absurd hx List.not_mem_nil

theorem mem_iff (hfiled : Filed size index buckets) {x : α} (hx : index x < size) :
    x ∈ contents size buckets ↔ x ∈ buckets (index x) := by
  rw [mem_contents]
  constructor
  · rintro ⟨i, hi, hmem⟩
    rwa [hfiled i hi x hmem]
  · exact fun hmem => ⟨index x, hx, hmem⟩

/-- A search for elements that can only be in bucket `i` needs to look at no
other one. -/
theorem find?_bucket (hfiled : Filed size index buckets) {i : Nat} (hi : i < size)
    {test : α → Bool} (hplace : ∀ x, test x = true → index x = i) :
    (contents size buckets).find? test = (buckets i).find? test := by
  have hother : ∀ j < size, j ≠ i → (buckets j).find? test = none := by
    intro j hj hne
    rw [List.find?_eq_none]
    intro x hx hmatch
    exact hne ((hfiled j hj x hx).symm.trans (hplace x hmatch))
  have hsplit : ∀ n, n ≤ size → (contents n buckets).find? test =
      if i < n then (buckets i).find? test else none := by
    intro n
    induction n with
    | zero => simp [contents]
    | succ n ih =>
      intro hn
      rw [contents_succ, List.find?_append, ih (by omega)]
      by_cases heq : n = i
      · subst heq
        simp
      · rw [hother n (by omega) heq, Option.or_none]
        congr 1
        exact propext (by omega)
  rw [hsplit size (Nat.le_refl _), if_pos hi]

theorem foldl_file (hindex : ∀ x, index x < size) (list : List α)
    {buckets : Nat → List α} (hfiled : Filed size index buckets) :
    Filed size index (list.foldl (fun other x => Lib.file (index x) other x) buckets) ∧
    (contents size (list.foldl (fun other x => Lib.file (index x) other x) buckets)).Perm
      (list ++ contents size buckets) := by
  induction list generalizing buckets with
  | nil => exact ⟨hfiled, List.Perm.refl _⟩
  | cons x rest ih =>
    obtain ⟨hrest, hperm⟩ := ih (hfiled.file (hindex x))
    refine ⟨hrest, hperm.trans ?_⟩
    exact ((file_contents (hindex x) buckets x).append_left rest).trans List.perm_middle

private theorem filter_contents (hfiled : Filed size index buckets) {i : Nat} (hi : i < size) :
    (contents size buckets).filter (fun x => decide (index x = i)) = buckets i := by
  have hsplit : ∀ n, n ≤ size →
      (contents n buckets).filter (fun x => decide (index x = i)) =
        if i < n then buckets i else [] := by
    intro n
    induction n with
    | zero => simp [contents]
    | succ n ih =>
      intro hn
      rw [contents_succ, List.filter_append, ih (by omega)]
      by_cases heq : n = i
      · subst heq
        have hall : (buckets n).filter (fun x => decide (index x = n)) = buckets n :=
          List.filter_eq_self.mpr fun x hx => decide_eq_true (hfiled n (by omega) x hx)
        simp [hall]
      · have hnone : (buckets n).filter (fun x => decide (index x = i)) = [] :=
          List.filter_eq_nil_iff.mpr fun x hx => by
            rw [hfiled n (by omega) x hx]
            simp [heq]
        rw [hnone, List.append_nil]
        congr 1
        exact propext (by omega)
  rw [hsplit size (Nat.le_refl _), if_pos hi]

theorem bucket_perm (hfiled : Filed size index buckets) {other : Nat → List α}
    (hother : Filed size index other)
    (hperm : (contents size buckets).Perm (contents size other)) {i : Nat} (hi : i < size) :
    (buckets i).Perm (other i) := by
  rw [← hfiled.filter_contents hi, ← hother.filter_contents hi]
  exact hperm.filter _

end Filed

end Libsax.Lib
