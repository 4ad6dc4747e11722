import Libsax.Lib.CString
import Libsax.Lib.Substitution

/-! `replace`: all occurrences of a string are replaced in place, the search going on behind
what was inserted. -/
namespace Libsax.Text.StrUtil

open Libsax.Lib

/-- `std::string::find`; `none` is `npos`. -/
def find (str sub : List UInt8) (pos : Nat) : Option Nat :=
  if pos ≤ str.length then (firstAt sub (str.drop pos)).map (pos + ·) else none

/-- The loop of `replace`, given up after `fuel` rounds. -/
def replaceLoop (sub neu : CString) : Nat → List UInt8 → Option Nat → Option (List UInt8)
  | 0, _, _ => none
  | _ + 1, str, none => some str
  | fuel + 1, str, some i =>
    let str := str.take i ++ neu.chars ++ str.drop (i + sub.chars.length)
    replaceLoop sub neu fuel str (find str sub.chars (i + neu.chars.length))

def replace (fuel : Nat) (str : List UInt8) (sub neu : CString) : Option (List UInt8) :=
  replaceLoop sub neu fuel str (find str sub.chars 0)

/-- It ends, and where there is something to search for, all of it is replaced. -/
def Replaces (str : List UInt8) (sub neu : CString) : Prop :=
  ∃ fuel result, replace fuel str sub neu = some result ∧
    (sub.chars ≠ [] → Substitutes sub.chars neu.chars str result)

variable {sub neu : CString} {done rest : List UInt8}

private theorem replaceLoop_substitutes (hsub : sub.chars ≠ []) {fuel : Nat}
    (hfuel : rest.length < fuel) :
    ∃ result, Substitutes sub.chars neu.chars rest result ∧
      replaceLoop sub neu fuel (done ++ rest) (find (done ++ rest) sub.chars done.length) =
        some (done ++ result) := by
  induction fuel generalizing done rest with
  | zero => exact absurd hfuel (Nat.not_lt_zero _)
  | succ fuel ih =>
    have hle : done.length ≤ (done ++ rest).length := by
      rw [List.length_append]
      exact Nat.le_add_right _ _
    have hfind : find (done ++ rest) sub.chars done.length =
        (firstAt sub.chars rest).map (done.length + ·) := by
      rw [find, if_pos hle, List.drop_left]
    cases hfirst : firstAt sub.chars rest with
    | none =>
      rw [hfind, hfirst]
      exact ⟨rest, substitutes_of_none hfirst, rfl⟩
    | some i =>
      obtain ⟨front, back, hrest, hfront, hsubstitutes⟩ :=
        @exists_of_firstAt _ _ _ neu.chars _ hsub _ hfirst
      have hpos : 0 < sub.chars.length := List.length_pos_iff.mpr hsub
      have hlength : rest.length = front.length + sub.chars.length + back.length := by
        rw [hrest, List.length_append, List.length_append]
      have htake : (done ++ rest).take (done.length + i) = done ++ front := by
        rw [hrest, ← hfront, List.take_length_add_append, List.append_assoc, List.take_left]
      have hdrop : (done ++ rest).drop (done.length + i + sub.chars.length) = back := by
        have hpast : done.length + i + sub.chars.length = (done ++ front ++ sub.chars).length := by
          rw [List.length_append, List.length_append, hfront]
        have hsplit : done ++ rest = done ++ front ++ sub.chars ++ back := by
          rw [hrest]
          simp only [List.append_assoc]
        rw [hsplit, hpast, List.drop_left]
      obtain ⟨result, hresult, hloop⟩ := @ih (done ++ front ++ neu.chars) back (by omega)
      have hnext : done.length + i + neu.chars.length = (done ++ front ++ neu.chars).length := by
        rw [List.length_append, List.length_append, hfront]
      refine ⟨front ++ neu.chars ++ result, hsubstitutes result hresult, ?_⟩
      rw [hfind, hfirst, Option.map_some, replaceLoop, htake, hdrop, hnext, hloop]
      simp only [List.append_assoc]

private theorem replaceLoop_empty (hsub : sub.chars = []) (fuel : Nat) {str : List UInt8} {i : Nat}
    (hi : i ≤ str.length) : replaceLoop sub neu fuel str (some i) = none := by
  induction fuel generalizing str i with
  | zero => rfl
  | succ fuel ih =>
    have hle : i + neu.chars.length ≤
        (str.take i ++ neu.chars ++ str.drop (i + sub.chars.length)).length := by
      rw [List.length_append, List.length_append, List.length_take, Nat.min_eq_left hi]
      exact Nat.le_add_right _ _
    rw [replaceLoop, find, if_pos hle, hsub, firstAt_nil, Option.map_some]
    rw [hsub] at hle
    exact ih hle

/-- It does so whenever there is something to search for. -/
theorem replaces_iff (str : List UInt8) (sub neu : CString) :
    Replaces str sub neu ↔ sub.chars ≠ [] := by
  constructor
  · rintro ⟨fuel, result, hreplace, -⟩ hsub
    have hfind : find str sub.chars 0 = some 0 := by
      rw [find, if_pos (Nat.zero_le _), hsub, firstAt_nil]
      rfl
    rw [replace, hfind, replaceLoop_empty hsub fuel (Nat.zero_le _)] at hreplace
    cases hreplace
  · intro hsub
    obtain ⟨result, hresult, hloop⟩ :=
      @replaceLoop_substitutes sub neu [] str hsub _ (Nat.lt_succ_self _)
    exact ⟨_, result, hloop, fun _ => hresult⟩

/-- Replacing nothing by nothing in an empty string goes on forever. -/
theorem not_replaces_empty : ¬ Replaces [] ⟨[], by simp⟩ ⟨[], by simp⟩ := fun hreplaces =>
  (replaces_iff _ _ _).mp hreplaces rfl

end Libsax.Text.StrUtil
