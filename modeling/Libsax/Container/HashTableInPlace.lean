import Mathlib.Data.List.Monad
import Libsax.Container.HashTableRuns

/-! Plan B of `htab_expand`: the bucket array is reallocated and the entries
are moved inside it. The words behind the old buckets are whatever `realloc`
left there until the code clears them. -/
namespace Libsax.Container.HashTable

open Libsax.Lib

variable {K V : Type}

/-- A bucket pointer: the entries met behind it, and the word that ends the
chain. A chain of the table ends in NULL; any other word leads astray. -/
structure Slot (K V : Type) where
  entries : List (Entry K V)
  tail : UInt64

/-- The array of bucket pointers at address `base`, eight bytes each, with the
ranges (address, length) stored to. Stores to an entry's own `next` field are
not among them. -/
structure BucketArray (K V : Type) where
  base : Nat
  slots : Nat → Slot K V
  stored : List (Nat × Nat)

/-- What `realloc` answers: where the array lies now, and what words it finds
behind the old ones. -/
structure Moved where
  base : Nat
  leftover : Nat → UInt64

/-- The pointer itself; `place` tells where each entry was allocated. -/
def Slot.word (place : Entry K V → UInt64) (s : Slot K V) : UInt64 :=
  match s.entries with
  | [] => s.tail
  | e :: _ => place e

/-- Zero the covered bytes of a word. -/
def clearWord (word : UInt64) (covered : Nat → Bool) : UInt64 :=
  (List.range 8).foldl
    (fun word b =>
      if covered b then word &&& ~~~((0xff : UInt64) <<< (8 * b).toUInt64) else word) word

/-- Byte `b` of bucket pointer `i` lies in the `length` bytes at `dest`. -/
def covers (base dest length i b : Nat) : Bool :=
  decide (dest ≤ base + 8 * i + b ∧ base + 8 * i + b < dest + length)

/-- `memset(dest, 0, length)` as far as it concerns the array: a pointer that
loses a set bit no longer leads to its chain. -/
def memset (place : Entry K V → UInt64) (a : BucketArray K V) (dest length : Nat) :
    BucketArray K V :=
  { a with
    slots := fun i =>
      let word := (a.slots i).word place
      let cleared := clearWord word (covers a.base dest length i)
      if cleared = word then a.slots i else ⟨[], cleared⟩
    stored := (dest, length) :: a.stored }

def BucketArray.store (a : BucketArray K V) (i : Nat) (entries : List (Entry K V)) :
    BucketArray K V :=
  { a with
    slots := Function.update a.slots i ⟨entries, (a.slots i).tail⟩
    stored := (a.base + 8 * i, 8) :: a.stored }

/-- `*pE = e->next`: `pE` is the bucket pointer, or the `next` field of the last
entry that stayed. -/
def BucketArray.unlink (a : BucketArray K V) (i : Nat) (kept next : List (Entry K V)) :
    BucketArray K V :=
  if kept.isEmpty then a.store i next
  else { a with slots := Function.update a.slots i ⟨kept ++ next, (a.slots i).tail⟩ }

/-- The inner loop of plan B over the rest of chain `i`. -/
def walk (newsize : UInt32) (i : Nat) (a : BucketArray K V) (kept : List (Entry K V)) :
    List (Entry K V) → BucketArray K V
  | [] => a
  | e :: next =>
    let index := slot newsize e.h
    if index = i then walk newsize i a (kept ++ [e]) next
    else
      let a := a.unlink i kept next
      let a := a.store index (e :: (a.slots index).entries)
      walk newsize i a kept next

/-- One round of the outer loop. A chain that does not end in NULL is followed
to no entry: the code reads through a stray pointer. -/
def rehashSlot (newsize : UInt32) (a : BucketArray K V) (i : Nat) :
    Option (BucketArray K V) :=
  let a := walk newsize i a [] (a.slots i).entries
  if (a.slots i).tail = 0 then some a else none

def reallocated (moved : Moved) (t : Table K V) : BucketArray K V where
  base := moved.base
  slots := fun i =>
    if i < t.tablelength.toNat then ⟨t.table i, 0⟩ else ⟨[], moved.leftover i⟩
  stored := []

/-- Plan B up to the end of its loops. The destination of the `memset` is the
value `newtable[h->tablelength]`, its length is a count of buckets. -/
def expandInPlace (place : Entry K V → UInt64) (moved : Moved) (t : Table K V)
    (newsize : UInt32) : Option (BucketArray K V) :=
  let a := reallocated moved t
  let dest := (a.slots t.tablelength.toNat).word place
  let a := memset place a dest.toNat (newsize - t.tablelength).toNat
  (List.range t.tablelength.toNat).foldlM (rehashSlot newsize) a

/-- The range lies inside an array of `newsize` bucket pointers. -/
def Inside (base : Nat) (newsize : UInt32) (range : Nat × Nat) : Prop :=
  base ≤ range.1 ∧ range.1 + range.2 ≤ base + 8 * newsize.toNat

/-- Plan B does what plan A does, and stores inside the new array only. -/
def Agrees (place : Entry K V → UInt64) (moved : Moved) (t : Table K V)
    (newsize : UInt32) : Prop :=
  ∃ a, expandInPlace place moved t newsize = some a ∧
    (∀ range ∈ a.stored, Inside moved.base newsize range) ∧
    ∀ i < newsize.toNat, (a.slots i).tail = 0 ∧
      (a.slots i).entries.Perm (rehash t newsize i)

/-- The word in the first new bucket happens to be an address from which the
bytes cleared lie in the new array, leave no set bit in the new buckets and
clear none in the old ones. -/
def Lucky (place : Entry K V → UInt64) (moved : Moved) (t : Table K V)
    (newsize : UInt32) : Prop :=
  let dest := (moved.leftover t.tablelength.toNat).toNat
  let length := (newsize - t.tablelength).toNat
  Inside moved.base newsize (dest, length) ∧
    (∀ i, t.tablelength.toNat ≤ i → i < newsize.toNat →
      clearWord (moved.leftover i) (covers moved.base dest length i) = 0) ∧
    ∀ i < t.tablelength.toNat, ∀ e, (t.table i).head? = some e →
      clearWord (place e) (covers moved.base dest length i) = place e

def BucketArray.chains (a : BucketArray K V) : Nat → List (Entry K V) :=
  fun i => (a.slots i).entries

/-- From `a` the loops can lead to `b`. -/
structure Reshuffled (newsize : UInt32) (a b : BucketArray K V) : Prop where
  base : b.base = a.base
  tail : ∀ j, (b.slots j).tail = (a.slots j).tail
  perm : (contents newsize.toNat b.chains).Perm (contents newsize.toNat a.chains)
  kept : ∀ range ∈ a.stored, range ∈ b.stored
  inside : ∀ range ∈ b.stored, range ∈ a.stored ∨ Inside a.base newsize range
  /-- an entry is where it was, or in its own bucket -/
  settled : ∀ j, ∀ e ∈ b.chains j, e ∈ a.chains j ∨ slot newsize e.h = j

theorem Reshuffled.refl (newsize : UInt32) (a : BucketArray K V) : Reshuffled newsize a a :=
  ⟨rfl, fun _ => rfl, List.Perm.refl _, fun _ h => h, fun _ h => Or.inl h,
    fun _ _ h => Or.inl h⟩

theorem Reshuffled.trans {newsize : UInt32} {a b c : BucketArray K V}
    (hleft : Reshuffled newsize a b) (hright : Reshuffled newsize b c) :
    Reshuffled newsize a c where
  base := hright.base.trans hleft.base
  tail := fun j => (hright.tail j).trans (hleft.tail j)
  perm := hright.perm.trans hleft.perm
  kept := fun range hmem => hright.kept range (hleft.kept range hmem)
  inside := by
    intro range hmem
    rcases hright.inside range hmem with hold | hinside
    · exact hleft.inside range hold
    · exact Or.inr (hleft.base ▸ hinside)
  settled := by
    intro j e he
    rcases hright.settled j e he with hold | hplace
    · exact hleft.settled j e hold
    · exact Or.inr hplace

@[simp] private theorem store_chains (a : BucketArray K V) (i : Nat) (entries : List (Entry K V)) :
    (a.store i entries).chains = Function.update a.chains i entries := by
  funext j
  unfold BucketArray.chains BucketArray.store
  by_cases heq : j = i
  · subst heq
    simp only [Function.update_self]
  · simp only [Function.update_of_ne heq]

@[simp] private theorem store_tail (a : BucketArray K V) (i j : Nat) (entries : List (Entry K V)) :
    ((a.store i entries).slots j).tail = (a.slots j).tail := by
  unfold BucketArray.store
  by_cases heq : j = i
  · subst heq
    simp only [Function.update_self]
  · simp only [Function.update_of_ne heq]

private theorem store_inside {a : BucketArray K V} {newsize : UInt32} {i : Nat}
    (hi : i < newsize.toNat) (entries : List (Entry K V)) :
    ∀ range ∈ (a.store i entries).stored, range ∈ a.stored ∨ Inside a.base newsize range := by
  intro range hmem
  rcases List.mem_cons.mp hmem with rfl | hold
  · refine Or.inr ⟨Nat.le_add_right _ _, ?_⟩
    dsimp only
    omega
  · exact Or.inl hold

@[simp] private theorem unlink_chains (a : BucketArray K V) (i : Nat)
    (kept next : List (Entry K V)) :
    (a.unlink i kept next).chains = Function.update a.chains i (kept ++ next) := by
  unfold BucketArray.unlink
  split_ifs with hkept
  · rw [store_chains, List.isEmpty_iff.mp hkept, List.nil_append]
  · funext j
    unfold BucketArray.chains
    by_cases heq : j = i
    · subst heq
      simp only [Function.update_self]
    · simp only [Function.update_of_ne heq]

@[simp] private theorem unlink_tail (a : BucketArray K V) (i j : Nat)
    (kept next : List (Entry K V)) :
    ((a.unlink i kept next).slots j).tail = (a.slots j).tail := by
  unfold BucketArray.unlink
  split_ifs
  · exact store_tail a i j next
  · by_cases heq : j = i
    · subst heq
      simp only [Function.update_self]
    · simp only [Function.update_of_ne heq]

private theorem unlink_stored (a : BucketArray K V) (i : Nat) (kept next : List (Entry K V)) :
    (a.unlink i kept next).base = a.base ∧
    ((a.unlink i kept next).stored = a.stored ∨
      (a.unlink i kept next).stored = (a.base + 8 * i, 8) :: a.stored) := by
  unfold BucketArray.unlink
  split_ifs
  · exact ⟨rfl, Or.inr rfl⟩
  · exact ⟨rfl, Or.inl rfl⟩

private theorem unlink_kept {a : BucketArray K V} {i : Nat} (kept next : List (Entry K V)) :
    ∀ range ∈ a.stored, range ∈ (a.unlink i kept next).stored := by
  intro range hmem
  rcases (unlink_stored a i kept next).2 with hsame | hmore
  · rwa [hsame]
  · rw [hmore]
    exact List.mem_cons_of_mem _ hmem

private theorem unlink_inside {a : BucketArray K V} {newsize : UInt32} {i : Nat}
    (hi : i < newsize.toNat) (kept next : List (Entry K V)) :
    ∀ range ∈ (a.unlink i kept next).stored,
      range ∈ a.stored ∨ Inside a.base newsize range := by
  intro range hmem
  rcases (unlink_stored a i kept next).2 with hsame | hmore
  · rw [hsame] at hmem
    exact Or.inl hmem
  · rw [hmore] at hmem
    exact store_inside hi next range hmem

private theorem move_reshuffled {newsize : UInt32} (hpos : 0 < newsize) {a : BucketArray K V}
    {i : Nat}
    (hi : i < newsize.toNat) {kept next : List (Entry K V)} {e : Entry K V}
    (hchain : a.chains i = kept ++ e :: next) :
    Reshuffled newsize a ((a.unlink i kept next).store (slot newsize e.h)
      (e :: (a.unlink i kept next).chains (slot newsize e.h))) := by
  have hindex := slot_lt hpos e.h
  have hchains : ((a.unlink i kept next).store (slot newsize e.h)
      (e :: (a.unlink i kept next).chains (slot newsize e.h))).chains =
      file (slot newsize e.h) (Function.update a.chains i (kept ++ next)) e := by
    rw [store_chains, unlink_chains]
    rfl
  refine ⟨(unlink_stored a i kept next).1, ?_, ?_, ?_, ?_, ?_⟩
  · intro j
    rw [store_tail, unlink_tail]
  · rw [hchains]
    exact (file_contents hindex _ e).trans (contents_cut hi hchain).symm
  · intro range hmem
    exact List.mem_cons_of_mem _ (unlink_kept kept next range hmem)
  · intro range hmem
    rcases store_inside hindex _ range hmem with hold | hinside
    · exact unlink_inside hi kept next range hold
    · exact Or.inr ((unlink_stored a i kept next).1 ▸ hinside)
  · intro j other hother
    have hcut : ∀ other ∈ Function.update a.chains i (kept ++ next) j, other ∈ a.chains j := by
      intro other hother
      by_cases heq : j = i
      · subst heq
        rw [Function.update_self] at hother
        rw [hchain]
        rcases List.mem_append.mp hother with hleft | hright
        · exact List.mem_append_left _ hleft
        · exact List.mem_append_right _ (List.mem_cons_of_mem _ hright)
      · rwa [Function.update_of_ne heq] at hother
    rw [hchains] at hother
    unfold file at hother
    by_cases heq : j = slot newsize e.h
    · subst heq
      rw [Function.update_self] at hother
      rcases List.mem_cons.mp hother with rfl | hold
      · exact Or.inr rfl
      · exact Or.inl (hcut other hold)
    · rw [Function.update_of_ne heq] at hother
      exact Or.inl (hcut other hother)

private theorem walk_reshuffled {newsize : UInt32} (hpos : 0 < newsize) {i : Nat}
    (hi : i < newsize.toNat) {rest kept : List (Entry K V)} {a : BucketArray K V}
    (hchain : a.chains i = kept ++ rest) (hkept : ∀ e ∈ kept, slot newsize e.h = i) :
    Reshuffled newsize a (walk newsize i a kept rest) ∧
    ∀ e ∈ (walk newsize i a kept rest).chains i, slot newsize e.h = i := by
  induction rest generalizing a kept with
  | nil =>
    refine ⟨Reshuffled.refl newsize a, ?_⟩
    intro e he
    change e ∈ a.chains i at he
    rw [hchain, List.append_nil] at he
    exact hkept e he
  | cons e next ih =>
    unfold walk
    by_cases hstay : slot newsize e.h = i
    · simp only [if_pos hstay]
      refine ih (by rw [hchain, List.append_assoc, List.singleton_append]) ?_
      intro other hother
      rcases List.mem_append.mp hother with hold | hlast
      · exact hkept other hold
      · rw [List.mem_singleton.mp hlast]
        exact hstay
    · simp only [if_neg hstay]
      have hmove := move_reshuffled hpos hi hchain
      have hnext : ((a.unlink i kept next).store (slot newsize e.h)
          (e :: (a.unlink i kept next).chains (slot newsize e.h))).chains i = kept ++ next := by
        rw [store_chains, Function.update_of_ne (Ne.symm hstay), unlink_chains,
          Function.update_self]
      obtain ⟨hrest, hown⟩ := ih hnext hkept
      exact ⟨hmove.trans hrest, hown⟩

private theorem rehashSlot_cases {newsize : UInt32} (hpos : 0 < newsize) (a : BucketArray K V)
    {i : Nat}
    (hi : i < newsize.toNat) :
    ∃ b, Reshuffled newsize a b ∧ (∀ e ∈ b.chains i, slot newsize e.h = i) ∧
      rehashSlot newsize a i = if (a.slots i).tail = 0 then some b else none := by
  have hchain : a.chains i = [] ++ a.chains i := rfl
  obtain ⟨hwalk, hown⟩ := walk_reshuffled hpos hi hchain (by simp)
  refine ⟨_, hwalk, hown, ?_⟩
  unfold rehashSlot
  rw [← hwalk.tail i]
  rfl

/-- The outer loop up to chain `m`: it goes through exactly if every chain it
meets ends in NULL, and these chains are then settled. -/
private theorem rehashSlots_spec {newsize : UInt32} (hpos : 0 < newsize) (a : BucketArray K V)
    {m : Nat}
    (hm : m ≤ newsize.toNat) :
    (∀ b, (List.range m).foldlM (rehashSlot newsize) a = some b →
      Reshuffled newsize a b ∧ ∀ i < m, ∀ e ∈ b.chains i, slot newsize e.h = i) ∧
    ((∀ i < m, (a.slots i).tail = 0) →
      ∃ b, (List.range m).foldlM (rehashSlot newsize) a = some b) := by
  induction m with
  | zero =>
    refine ⟨?_, fun _ => ⟨a, rfl⟩⟩
    intro b hb
    cases hb
    exact ⟨Reshuffled.refl newsize a, fun i hi => absurd hi (Nat.not_lt_zero i)⟩
  | succ m ih =>
    obtain ⟨hdone, hgoes⟩ := ih (Nat.le_of_succ_le hm)
    have hsplit : (List.range (m + 1)).foldlM (rehashSlot newsize) a =
        ((List.range m).foldlM (rehashSlot newsize) a).bind
          fun b => rehashSlot newsize b m := by
      rw [List.range_succ, List.foldlM_append]
      cases (List.range m).foldlM (rehashSlot newsize) a with
      | none => rfl
      | some b => simp
    rw [hsplit]
    constructor
    · intro c hc
      obtain ⟨b, hb, hlast⟩ := Option.bind_eq_some_iff.mp hc
      obtain ⟨hold, hsettled⟩ := hdone b hb
      obtain ⟨d, hstep, hown, heq⟩ := rehashSlot_cases hpos b hm
      rw [heq] at hlast
      split_ifs at hlast
      cases hlast
      refine ⟨hold.trans hstep, ?_⟩
      intro i hi e he
      rcases Nat.lt_succ_iff_lt_or_eq.mp hi with hlt | rfl
      · rcases hstep.settled i e he with hbefore | hplace
        · exact hsettled i hlt e hbefore
        · exact hplace
      · exact hown e he
    · intro htails
      obtain ⟨b, hb⟩ := hgoes fun i hi => htails i (Nat.lt_succ_of_lt hi)
      obtain ⟨d, -, -, heq⟩ := rehashSlot_cases hpos b hm
      have htail : (b.slots m).tail = 0 :=
        ((hdone b hb).1.tail m).trans (htails m (Nat.lt_succ_self m))
      rw [if_pos htail] at heq
      exact ⟨d, by rw [hb, Option.bind_some, heq]⟩

private theorem reallocated_word (place : Entry K V → UInt64) (moved : Moved) (t : Table K V)
    {i : Nat}
    (hi : t.tablelength.toNat ≤ i) :
    ((reallocated moved t).slots i).word place = moved.leftover i := by
  unfold reallocated Slot.word
  simp only [if_neg (Nat.not_lt.mpr hi)]

private theorem reallocated_chains (moved : Moved) (t : Table K V) (i : Nat) :
    (reallocated moved t).chains i = if i < t.tablelength.toNat then t.table i else [] := by
  exact apply_ite Slot.entries _ _ _

private theorem reallocated_contents (moved : Moved) (t : Table K V) {newsize : UInt32}
    (hless : t.tablelength.toNat ≤ newsize.toNat) :
    contents newsize.toNat (reallocated moved t).chains = t.entries := by
  rw [contents_extend hless fun i hi _ => by
    rw [reallocated_chains, if_neg (Nat.not_lt.mpr hi)]]
  exact contents_congr fun i hi => by rw [reallocated_chains, if_pos hi]

private theorem clearWord_uncovered {word : UInt64} {covered : Nat → Bool}
    (hnone : ∀ b < 8, covered b = false) : clearWord word covered = word := by
  unfold clearWord
  refine List.foldlRecOn (motive := fun cleared => cleared = word) _ _ rfl ?_
  rintro cleared rfl b hb
  rw [hnone b (List.mem_range.mp hb), if_neg Bool.false_ne_true]

@[simp] private theorem clearWord_zero (covered : Nat → Bool) : clearWord 0 covered = 0 := by
  have hstep : ∀ list : List Nat, list.foldl
      (fun word b =>
        if covered b then word &&& ~~~((0xff : UInt64) <<< (8 * b).toUInt64) else word)
      (0 : UInt64) = 0 := by
    intro list
    induction list with
    | nil => rfl
    | cons b rest ih =>
      rw [List.foldl_cons]
      split_ifs
      · rw [UInt64.zero_and]
        exact ih
      · exact ih
  exact hstep _

private theorem memset_slot (place : Entry K V → UInt64) (a : BucketArray K V)
    (dest length i : Nat) :
    (memset place a dest length).slots i =
      if clearWord ((a.slots i).word place) (covers a.base dest length i) =
          (a.slots i).word place then a.slots i
      else ⟨[], clearWord ((a.slots i).word place) (covers a.base dest length i)⟩ := rfl

private theorem memset_chain_le (place : Entry K V → UInt64) (a : BucketArray K V)
    (dest length i : Nat) :
    ((memset place a dest length).chains i).length ≤ (a.chains i).length := by
  unfold BucketArray.chains
  rw [memset_slot]
  split_ifs
  · exact Nat.le_refl _
  · exact Nat.zero_le _

section Clearing

variable {place : Entry K V → UInt64} {moved : Moved} {t : Table K V} {newsize : UInt32}

def cleared (place : Entry K V → UInt64) (moved : Moved) (t : Table K V) (newsize : UInt32) :
    BucketArray K V :=
  memset place (reallocated moved t) (moved.leftover t.tablelength.toNat).toNat
    (newsize - t.tablelength).toNat

private theorem expandInPlace_eq : expandInPlace place moved t newsize =
    (List.range t.tablelength.toNat).foldlM (rehashSlot newsize)
      (cleared place moved t newsize) := by
  unfold expandInPlace cleared
  simp only [reallocated_word place moved t (Nat.le_refl _)]

/-- A new bucket is empty behind the `memset` exactly if no bit of it is left. -/
private theorem cleared_tail {i : Nat} (hi : t.tablelength.toNat ≤ i) :
    ((cleared place moved t newsize).slots i).tail =
      clearWord (moved.leftover i) (covers moved.base
        (moved.leftover t.tablelength.toNat).toNat (newsize - t.tablelength).toNat i) := by
  have hword := reallocated_word place moved t hi
  have hslot : (reallocated moved t).slots i = ⟨[], moved.leftover i⟩ :=
    if_neg (Nat.not_lt.mpr hi)
  unfold cleared
  rw [memset_slot, hword, hslot]
  split_ifs with hsame
  · exact hsame.symm
  · rfl

private theorem cleared_old {i : Nat} (hi : i < t.tablelength.toNat)
    (hkept : ∀ e, (t.table i).head? = some e →
      clearWord (place e) (covers moved.base
        (moved.leftover t.tablelength.toNat).toNat (newsize - t.tablelength).toNat i) = place e) :
    (cleared place moved t newsize).slots i = ⟨t.table i, 0⟩ := by
  have hslot : (reallocated moved t).slots i = ⟨t.table i, 0⟩ := if_pos hi
  unfold cleared
  rw [memset_slot, hslot]
  refine if_pos ?_
  unfold Slot.word
  cases hchain : t.table i with
  | nil => exact clearWord_zero _
  | cons e next => exact hkept e (by rw [hchain]; rfl)

private theorem cleared_lost {i : Nat} (hi : i < t.tablelength.toNat) {e : Entry K V}
    (hhead : (t.table i).head? = some e)
    (hlost : clearWord (place e) (covers moved.base
      (moved.leftover t.tablelength.toNat).toNat (newsize - t.tablelength).toNat i) ≠ place e) :
    (cleared place moved t newsize).chains i = [] := by
  have hslot : (reallocated moved t).slots i = ⟨t.table i, 0⟩ := if_pos hi
  unfold BucketArray.chains cleared
  rw [memset_slot, hslot]
  cases hchain : t.table i with
  | nil =>
    rw [hchain] at hhead
    cases hhead
  | cons other next =>
    rw [hchain] at hhead
    cases hhead
    exact congrArg Slot.entries (if_neg hlost)

private theorem agrees_of_lucky (hless : t.tablelength.toNat < newsize.toNat)
    (hlucky : Lucky place moved t newsize) : Agrees place moved t newsize := by
  obtain ⟨hinside, hnew, hold⟩ := hlucky
  have hpos : 0 < newsize := UInt32.lt_iff_toNat_lt.mpr (Nat.lt_of_le_of_lt (Nat.zero_le _) hless)
  have hslots : ∀ i < t.tablelength.toNat,
      (cleared place moved t newsize).slots i = ⟨t.table i, 0⟩ :=
    fun i hi => cleared_old hi (hold i hi)
  have hempty : ∀ i, t.tablelength.toNat ≤ i →
      (cleared place moved t newsize).chains i = [] := by
    intro i hi
    have hle := memset_chain_le place (reallocated moved t)
      (moved.leftover t.tablelength.toNat).toNat (newsize - t.tablelength).toNat i
    rw [reallocated_chains, if_neg (Nat.not_lt.mpr hi)] at hle
    exact List.length_eq_zero_iff.mp (Nat.le_zero.mp hle)
  obtain ⟨hdone, hgoes⟩ := rehashSlots_spec hpos (cleared place moved t newsize)
    (Nat.le_of_lt hless)
  obtain ⟨b, hb⟩ := hgoes fun i hi => by rw [hslots i hi]
  obtain ⟨hshuffled, hsettled⟩ := hdone b hb
  have hfiled : Filed newsize.toNat (fun e : Entry K V => slot newsize e.h) b.chains := by
    intro i hi e he
    rcases Nat.lt_or_ge i t.tablelength.toNat with hlt | hge
    · exact hsettled i hlt e he
    · rcases hshuffled.settled i e he with hbefore | hplace
      · rw [hempty i hge] at hbefore
        exact absurd hbefore List.not_mem_nil
      · exact hplace
  have hcontents : contents newsize.toNat (cleared place moved t newsize).chains = t.entries := by
    rw [contents_extend (Nat.le_of_lt hless) fun i hi _ => hempty i hi]
    exact contents_congr fun i hi => by rw [BucketArray.chains, hslots i hi]
  obtain ⟨hrehash, hrehashPerm⟩ := rehash_spec t hpos
  have hperm : (contents newsize.toNat b.chains).Perm
      (contents newsize.toNat (rehash t newsize)) := by
    refine hshuffled.perm.trans ?_
    rw [hcontents]
    exact hrehashPerm.symm
  refine ⟨b, by rw [expandInPlace_eq, hb], ?_, ?_⟩
  · intro range hmem
    rcases hshuffled.inside range hmem with hbefore | hin
    · rw [show (cleared place moved t newsize).stored =
        [((moved.leftover t.tablelength.toNat).toNat, (newsize - t.tablelength).toNat)] from rfl,
        List.mem_singleton] at hbefore
      rw [hbefore]
      exact hinside
    · exact hin
  · intro i hi
    refine ⟨?_, hfiled.bucket_perm hrehash hperm hi⟩
    rw [hshuffled.tail i]
    rcases Nat.lt_or_ge i t.tablelength.toNat with hlt | hge
    · rw [hslots i hlt]
    · rw [cleared_tail hge]
      exact hnew i hge hi

private theorem lucky_of_agrees (hless : t.tablelength.toNat < newsize.toNat)
    (hagrees : Agrees place moved t newsize) : Lucky place moved t newsize := by
  obtain ⟨b, hb, hinside, hsame⟩ := hagrees
  have hpos : 0 < newsize := UInt32.lt_iff_toNat_lt.mpr (Nat.lt_of_le_of_lt (Nat.zero_le _) hless)
  rw [expandInPlace_eq] at hb
  obtain ⟨hdone, -⟩ := rehashSlots_spec hpos (cleared place moved t newsize)
    (Nat.le_of_lt hless)
  obtain ⟨hshuffled, -⟩ := hdone b hb
  refine ⟨hinside _ (hshuffled.kept _ List.mem_cons_self), ?_, ?_⟩
  · intro i hi hlt
    rw [← cleared_tail hi, ← hshuffled.tail i]
    exact (hsame i hlt).1
  · intro i hi e hhead
    by_contra hlost
    have hnonempty : (t.table i).length ≠ 0 := by
      intro hzero
      rw [List.length_eq_zero_iff.mp hzero] at hhead
      cases hhead
    -- a chain whose pointer lost a bit is missing from then on
    have hfewer : (contents newsize.toNat (cleared place moved t newsize).chains).length <
        (contents newsize.toNat (reallocated moved t).chains).length := by
      refine contents_length_lt (fun j _ => memset_chain_le place _ _ _ j)
        (Nat.lt_trans hi hless) ?_
      rw [cleared_lost hi hhead hlost, reallocated_chains, if_pos hi]
      exact Nat.pos_of_ne_zero hnonempty
    have hall : (contents newsize.toNat b.chains).Perm t.entries :=
      (contents_perm fun j hj => (hsame j hj).2).trans (rehash_spec t hpos).2
    rw [reallocated_contents moved t (Nat.le_of_lt hless), ← hall.length_eq,
      hshuffled.perm.length_eq] at hfewer
    exact Nat.lt_irrefl _ hfewer

end Clearing

private theorem primes_ascend : primes.Pairwise (· < ·) := by decide

private theorem next_prime_lt {i : Nat} {size newsize : UInt32} (hsize : primes[i]? = some size)
    (hnext : primes[i + 1]? = some newsize) : size < newsize := by
  obtain ⟨hi, rfl⟩ := List.getElem?_eq_some_iff.mp hsize
  obtain ⟨hj, rfl⟩ := List.getElem?_eq_some_iff.mp hnext
  exact List.pairwise_iff_getElem.mp primes_ascend i (i + 1) hi hj (Nat.lt_succ_self i)

/-- For every table: plan B does what plan A does exactly if the stray
destination of its `memset` happens to clear the new buckets and nothing else. -/
theorem in_place_iff (place : Entry K V → UInt64) (moved : Moved) {t : Table K V}
    {newsize : UInt32} (hlength : primes[t.primeindex]? = some t.tablelength)
    (hnext : primes[t.primeindex + 1]? = some newsize) :
    Agrees place moved t newsize ↔ Lucky place moved t newsize := by
  have hless := next_prime_lt hlength hnext
  have hlessNat := UInt32.lt_iff_toNat_lt.mp hless
  exact ⟨lucky_of_agrees hlessNat, agrees_of_lucky hlessNat⟩

/-- The smallest table when its 35th key is inserted, which is one more than its limit: the code
expands it before it files the key. -/
def crowded : Table Nat Unit :=
  let t := (List.range 34).foldl (fun t k => (insert plain ⟨true, true⟩ t k ()).1) (smallest Unit)
  { t with entrycount := t.entrycount + 1 }

private theorem crowded_expands : crowded.loadlimit < crowded.entrycount ∧ crowded.primeindex = 0 ∧
    crowded.tablelength = 53 ∧ ∃ i < 53, ∃ e ∈ crowded.table i, slot 97 e.h ≠ i := by
  decide +kernel

def places (e : Entry Nat Unit) : UInt64 := UInt64.ofNat (4096 + 32 * e.k)

/-- `realloc` left zeros, but in the first new bucket the bucket's own address. -/
def ownAddress : Moved where
  base := 65536
  leftover := fun i => if i = 53 then 65960 else 0

theorem in_place_iff_own_address : Agrees places ownAddress crowded 97 := by
  obtain ⟨-, hindex, hlength, -⟩ := crowded_expands
  have hiff : Agrees places ownAddress crowded 97 ↔ Lucky places ownAddress crowded 97 :=
    in_place_iff _ _ (by rw [hindex, hlength]; rfl) (by rw [hindex]; rfl)
  refine hiff.mpr ?_
  unfold Lucky
  rw [hlength]
  refine ⟨⟨by decide, by decide⟩, ?_, ?_⟩
  · intro i _ _
    by_cases heq : i = 53
    · subst heq
      decide
    · rw [show ownAddress.leftover i = 0 from if_neg heq]
      exact clearWord_zero _
  · -- the bytes that are cleared begin behind the old buckets
    intro i hi e _
    exact clearWord_uncovered fun b hb => decide_eq_false fun hin => by
      have hle : (65960 : Nat) ≤ 65536 + 8 * i + b := hin.1
      have hi' : i < 53 := hi
      omega

/-- With zeros left in the new buckets, the `memset` goes to address 0. -/
theorem in_place_stores_outside : ¬Agrees places ⟨65536, fun _ => 0⟩ crowded 97 := by
  obtain ⟨-, hindex, hlength, -⟩ := crowded_expands
  intro hagrees
  have hinside := (lucky_of_agrees (by rw [hlength]; decide) hagrees).1
  exact absurd hinside.1 (by decide)

end Libsax.Container.HashTable
