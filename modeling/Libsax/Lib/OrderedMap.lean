import Std.Data.TreeMap.Lemmas

/-! Ordered maps that keep the first value of each key. -/
namespace Libsax.Lib

variable {α β γ : Type} [Ord α] [Std.TransOrd α] [Std.LawfulEqOrd α] [DecidableEq α]

theorem getElem?_foldl_insertIfNew (key : γ → α) (value : γ → β) (items : List γ)
    (map : Std.TreeMap α β) (pos : α) :
    (items.foldl (fun map item => map.insertIfNew (key item) (value item)) map)[pos]? =
      map[pos]?.or ((items.find? fun item => decide (key item = pos)).map value) := by
  induction items generalizing map with
  | nil => simp
  | cons item rest ih =>
    rw [List.foldl_cons, ih, Std.TreeMap.getElem?_insertIfNew, List.find?_cons]
    by_cases hsame : key item = pos
    · subst hsame
      by_cases hmem : key item ∈ map
      · simp [hmem]
      · simp [hmem]
    · have hcmp : compare (key item) pos ≠ .eq := fun heq =>
        hsame (Std.LawfulEqOrd.eq_of_compare heq)
      simp [hsame, hcmp]

theorem mem_of_foldl_insertIfNew (key : γ → α) (value : γ → β) {items : List γ} {pos : α} {v : β}
    (hmem : (pos, v) ∈
      (items.foldl (fun map item => map.insertIfNew (key item) (value item))
        (∅ : Std.TreeMap α β)).toList) :
    ∃ item ∈ items, key item = pos ∧ value item = v := by
  rw [Std.TreeMap.mem_toList_iff_getElem?_eq_some, getElem?_foldl_insertIfNew] at hmem
  obtain ⟨item, hfind, hvalue⟩ := Option.map_eq_some_iff.mp (by simpa using hmem)
  have htest := List.find?_some hfind
  exact ⟨item, List.mem_of_find?_eq_some hfind, of_decide_eq_true htest, hvalue⟩

end Libsax.Lib
