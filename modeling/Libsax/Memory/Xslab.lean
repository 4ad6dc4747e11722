import Mathlib.Algebra.Ring.Int.Defs
import Mathlib.Data.List.Nodup
import Mathlib.Logic.Function.Basic
import Libsax.Lib.Counter
import Libsax.Lib.Line
import Libsax.Lib.Run

/-! `g_xslab`: freed blocks are kept in a list that is threaded through their
first words, whose length is counted apart from it. -/
namespace Libsax.Memory

open Libsax.Lib

structure Xslab (α : Type) where
  head : Option α
  usableAmount : Int32
  shrinkAmount : Int32
  allocSize : Int32
deriving DecidableEq, Repr

inductive Fate where
  | listed
  | released
deriving DecidableEq, Repr

namespace Xslab

variable {α : Type}

/-- `g_xslab_init`, whose comparison takes place in `size_t`. -/
def init (size : Int32) : Xslab α where
  head := none
  usableAmount := 0
  shrinkAmount := 0
  allocSize := if size.toInt64.toUInt64 < 8 then 8 else size

/-- The loop of `g_xslab_destroy`: the blocks that it gives back, as far as they
go. `none` is a null dereference. -/
def destroyLoop (link : α → Option α) : Nat → Xslab α → Option (List α)
  | 0, slab => if slab.usableAmount > 0 then none else some []
  | fuel + 1, slab =>
    if slab.usableAmount > 0 then
      match slab.head with
      | none => none
      | some ptr =>
        (destroyLoop link fuel { slab with
          head := link ptr
          usableAmount := slab.usableAmount - 1 }).map (ptr :: ·)
    else some []

/-- `g_xslab_destroy`, whose every round takes one off the amount. -/
def destroy (slab : Xslab α) (link : α → Option α) : Option (List α) :=
  destroyLoop link slab.usableAmount.toInt.toNat slab

/-- `g_xslab_alloc`, with the answer of `malloc` for when it is asked. The outer
`none` is a null dereference. -/
def alloc (slab : Xslab α) (link : α → Option α) (memory : Option α) :
    Option (Xslab α × Option α) :=
  if slab.usableAmount > 0 then
    match slab.head with
    | none => none
    | some ptr =>
      some ({ slab with head := link ptr, usableAmount := slab.usableAmount - 1 }, some ptr)
  else some (slab, memory)

/-- `g_xslab_shrink`; `kept` is what `(int32_t) (tmp_usable_amount * keep)` comes to. -/
def shrink (slab : Xslab α) (kept : Int32) : Xslab α :=
  { slab with shrinkAmount := slab.usableAmount - kept }

variable [DecidableEq α]

def free (slab : Xslab α) (link : α → Option α) (ptr : α) : Xslab α × (α → Option α) × Fate :=
  if slab.shrinkAmount = 0 then
    ({ slab with head := some ptr, usableAmount := slab.usableAmount + 1 },
      Function.update link ptr slab.head, .listed)
  else ({ slab with shrinkAmount := slab.shrinkAmount - 1 }, link, .released)

end Xslab

/-- `client` is the client, who writes into the first word of a block. -/
inductive XslabCall (α : Type) where
  | alloc (memory : Option α)
  | free (ptr : α)
  | shrink (kept : Int32)
  | client (ptr : α) (word : Option α)
deriving DecidableEq, Repr

/-- `live` and `listed` are the blocks that are handed out and those that were
freed and kept. `due` is what the last shrink set the amount to, and `fates` tells
where the blocks that were freed since then went. -/
structure XslabSystem (α : Type) where
  slab : Xslab α
  link : α → Option α
  live : List α
  listed : List α
  due : Nat
  fates : List Fate

namespace XslabSystem

variable {α : Type}

def start (size : Int32) (link : α → Option α) : XslabSystem α := ⟨.init size, link, [], [], 0, []⟩

section Calls

variable [DecidableEq α]

/-- `none` is a null dereference. -/
def step (system : XslabSystem α) : XslabCall α → Option (XslabSystem α)
  | .alloc memory =>
    (system.slab.alloc system.link memory).map fun (slab, ptr) =>
      { system with
        slab := slab
        live := ptr.toList ++ system.live
        listed := ptr.elim system.listed system.listed.erase }
  | .free ptr =>
    let (slab, link, fate) := system.slab.free system.link ptr
    some { system with
      slab := slab
      link := link
      live := system.live.erase ptr
      listed := if fate = .listed then ptr :: system.listed else system.listed
      fates := system.fates ++ [fate] }
  | .shrink kept =>
    let slab := system.slab.shrink kept
    some { system with slab := slab, due := slab.shrinkAmount.toInt.toNat, fates := [] }
  | .client ptr word => some { system with link := Function.update system.link ptr word }

/-- `malloc` gives memory that is not in use; live blocks are freed; a part of the
amount is kept; and the client leaves the blocks alone that it has freed. -/
def Allowed (system : XslabSystem α) : XslabCall α → Prop
  | .alloc memory => ∀ ptr ∈ memory, ptr ∉ system.live ∧ ptr ∉ system.listed
  | .free ptr => ptr ∈ system.live
  | .shrink kept => 0 ≤ kept.toInt ∧ kept.toInt ≤ system.slab.usableAmount.toInt
  | .client ptr _ => ptr ∉ system.listed

def Countable (system : XslabSystem α) : XslabCall α → Prop
  | .free _ => system.slab.shrinkAmount = 0 → system.slab.usableAmount.toInt < 2 ^ 31 - 1
  | _ => True

instance (system : XslabSystem α) : ∀ call, Decidable (Allowed system call)
  | .alloc memory => inferInstanceAs (Decidable (∀ ptr ∈ memory, _ ∧ _))
  | .free ptr => inferInstanceAs (Decidable (ptr ∈ system.live))
  | .shrink _ => inferInstanceAs (Decidable (_ ∧ _))
  | .client ptr _ => inferInstanceAs (Decidable (ptr ∉ system.listed))

instance (system : XslabSystem α) : ∀ call, Decidable (Countable system call)
  | .alloc _ => .isTrue trivial
  | .free _ => inferInstanceAs (Decidable (_ = _ → _ < _))
  | .shrink _ => .isTrue trivial
  | .client _ _ => .isTrue trivial

end Calls

/-- The books are right, and so is what comes next. -/
structure Sound (system : XslabSystem α) : Prop where
  usable : system.slab.usableAmount.toInt = system.listed.length
  threaded : ∀ fuel ≥ system.listed.length,
    Links.follow system.link fuel system.slab.head = some system.listed
  apart : (system.live ++ system.listed).Nodup
  alloc : ∀ memory, (∀ ptr ∈ memory, ptr ∉ system.listed) →
    ∃ slab result, system.slab.alloc system.link memory = some (slab, result) ∧
      ((∃ ptr ∈ result, ptr ∈ system.listed) ↔ system.listed ≠ [])
  fates : system.fates = List.replicate (min system.due system.fates.length) .released ++
    List.replicate (system.fates.length - system.due) .listed
  destroy : system.slab.destroy system.link = some system.listed

/-- Following the first words from `head` meets exactly these blocks and then a
null pointer. -/
def Threaded (link : α → Option α) : Option α → List α → Prop
  | head, [] => head = none
  | head, ptr :: rest => head = some ptr ∧ Threaded link (link ptr) rest

section Lists

variable {link other : α → Option α} {head : Option α} {listed : List α} {slab : Xslab α}

theorem Threaded.follow (hthreaded : Threaded link head listed) {fuel : Nat}
    (hfuel : listed.length ≤ fuel) : Links.follow link fuel head = some listed := by
  induction listed generalizing head fuel with
  | nil =>
    rw [show head = none from hthreaded]
    simp
  | cons ptr rest ih =>
    obtain ⟨rfl, hrest⟩ := hthreaded
    obtain ⟨fuel, rfl⟩ : ∃ less, fuel = less + 1 := ⟨fuel - 1, by simp at hfuel; omega⟩
    rw [Links.follow, ih hrest (by simpa using hfuel)]
    rfl

theorem Threaded.congr (hthreaded : Threaded link head listed)
    (hsame : ∀ ptr ∈ listed, other ptr = link ptr) : Threaded other head listed := by
  induction listed generalizing head with
  | nil => exact hthreaded
  | cons ptr rest ih =>
    refine ⟨hthreaded.1, ?_⟩
    rw [hsame ptr (by simp)]
    exact ih hthreaded.2 fun block hblock => hsame block (by simp [hblock])

theorem Threaded.update [DecidableEq α] (hthreaded : Threaded link head listed) {ptr : α}
    (hnot : ptr ∉ listed) (word : Option α) :
    Threaded (Function.update link ptr word) head listed := by
  apply hthreaded.congr
  intro block hblock
  rw [Function.update_of_ne (ne_of_mem_of_not_mem hblock hnot)]

private theorem destroyLoop_eq (husable : slab.usableAmount.toInt = listed.length)
    (hthreaded : Threaded link slab.head listed) :
    slab.destroyLoop link listed.length = some listed := by
  induction listed generalizing slab with
  | nil =>
    rw [List.length_nil, Xslab.destroyLoop, if_neg]
    rw [pos_iff, husable]
    simp
  | cons ptr rest ih =>
    have hpos : 0 < slab.usableAmount.toInt := by
      rw [husable]
      simp
    rw [List.length_cons, Xslab.destroyLoop, if_pos (pos_iff.mpr hpos), hthreaded.1]
    dsimp only
    rw [ih ?_ hthreaded.2]
    · rfl
    · rw [pred_toInt hpos, husable]
      simp

end Lists

structure Invariant (system : XslabSystem α) : Prop where
  usable : system.slab.usableAmount.toInt = system.listed.length
  threaded : Threaded system.link system.slab.head system.listed
  apart : (system.live ++ system.listed).Nodup
  shrink : system.slab.shrinkAmount.toInt = (system.due - system.fates.length : Nat)
  fates : system.fates = List.replicate (min system.due system.fates.length) .released ++
    List.replicate (system.fates.length - system.due) .listed

section Steps

variable {system : XslabSystem α}

theorem start_invariant (size : Int32) (link : α → Option α) : Invariant (start size link) where
  usable := rfl
  threaded := rfl
  apart := List.nodup_nil
  shrink := rfl
  fates := rfl

theorem Invariant.pos_iff (hinv : Invariant system) :
    system.slab.usableAmount > 0 ↔ system.listed ≠ [] := by
  rw [Lib.pos_iff, hinv.usable, ← List.length_pos_iff]
  omega

theorem Invariant.sound (hinv : Invariant system) : Sound system where
  usable := hinv.usable
  threaded := fun _ => hinv.threaded.follow
  apart := hinv.apart
  alloc := by
    intro memory hmemory
    unfold Xslab.alloc
    split_ifs with hpos
    · have hne := hinv.pos_iff.mp hpos
      obtain ⟨ptr, rest, hlisted⟩ := List.exists_cons_of_ne_nil hne
      have hthreaded := hinv.threaded
      rw [hlisted] at hthreaded
      rw [hthreaded.1]
      exact ⟨_, _, rfl, fun _ => hne, fun _ => ⟨ptr, rfl, by simp [hlisted]⟩⟩
    · refine ⟨_, _, rfl, ?_, ?_⟩
      · rintro ⟨ptr, hptr, hmem⟩
        exact absurd hmem (hmemory ptr hptr)
      · intro hne
        exact absurd (hinv.pos_iff.mpr hne) hpos
  fates := hinv.fates
  destroy := by
    unfold Xslab.destroy
    rw [hinv.usable]
    exact destroyLoop_eq hinv.usable hinv.threaded

variable [DecidableEq α]

theorem Invariant.alloc (hinv : Invariant system) {memory : Option α}
    (hmemory : ∀ ptr ∈ memory, ptr ∉ system.live ∧ ptr ∉ system.listed) :
    ∃ next, step system (.alloc memory) = some next ∧ Invariant next := by
  rw [step, Xslab.alloc]
  split_ifs with hpos
  · obtain ⟨ptr, rest, hlisted⟩ := List.exists_cons_of_ne_nil (hinv.pos_iff.mp hpos)
    have husable := hinv.usable
    have hthreaded := hinv.threaded
    have hapart := hinv.apart
    rw [hlisted] at husable hthreaded hapart
    rw [hthreaded.1, hlisted]
    refine ⟨_, rfl, ?_, ?_, ?_, hinv.shrink, hinv.fates⟩
    · dsimp only [Option.elim]
      rw [pred_toInt (Lib.pos_iff.mp hpos), husable, List.erase_cons_head]
      simp
    · dsimp only [Option.elim]
      rw [List.erase_cons_head]
      exact hthreaded.2
    · dsimp only [Option.elim]
      rw [List.erase_cons_head]
      exact List.nodup_middle.mp hapart
  · cases memory with
    | none => exact ⟨_, rfl, hinv.usable, hinv.threaded, hinv.apart, hinv.shrink, hinv.fates⟩
    | some ptr =>
      obtain ⟨hlive, hlisted⟩ := hmemory ptr rfl
      have herase : system.listed.erase ptr = system.listed := List.erase_of_not_mem hlisted
      refine ⟨_, rfl, ?_, ?_, ?_, hinv.shrink, hinv.fates⟩
      · dsimp only [Option.elim]
        rw [herase]
        exact hinv.usable
      · dsimp only [Option.elim]
        rw [herase]
        exact hinv.threaded
      · dsimp only [Option.elim]
        rw [herase]
        exact List.nodup_cons.mpr ⟨by simp [hlive, hlisted], hinv.apart⟩

theorem Invariant.free (hinv : Invariant system) {ptr : α} (hlive : ptr ∈ system.live)
    (hcount : system.slab.shrinkAmount = 0 → system.slab.usableAmount.toInt < 2 ^ 31 - 1) :
    ∃ next, step system (.free ptr) = some next ∧ Invariant next := by
  obtain ⟨hnodupLive, hnodupListed, hdisjoint⟩ := List.nodup_append'.mp hinv.apart
  have hlisted : ptr ∉ system.listed := hdisjoint hlive
  have hfates := hinv.fates
  rw [step, Xslab.free]
  split_ifs with hshrink
  · have hdue : system.due - system.fates.length = 0 := by
      have hzero := hinv.shrink
      rw [hshrink, Int32.toInt_zero] at hzero
      omega
    refine ⟨_, rfl, ?_, ?_, ?_, ?_, ?_⟩
    · dsimp only
      rw [if_pos rfl, succ_toInt (by rw [hinv.usable]; omega) (hcount hshrink), hinv.usable]
      simp
    · dsimp only
      rw [if_pos rfl]
      refine ⟨rfl, ?_⟩
      rw [Function.update_self]
      exact hinv.threaded.update hlisted _
    · dsimp only
      rw [if_pos rfl]
      refine List.nodup_append'.mpr ⟨hnodupLive.erase ptr,
        List.nodup_cons.mpr ⟨hlisted, hnodupListed⟩, ?_⟩
      intro block hblock hmem
      rcases List.mem_cons.mp hmem with rfl | hmem
      · exact hnodupLive.not_mem_erase hblock
      · exact hdisjoint (List.mem_of_mem_erase hblock) hmem
    · dsimp only
      rw [hinv.shrink, List.length_append]
      simp only [List.length_singleton]
      omega
    · have hmin : min system.due (system.fates.length + 1) =
          min system.due system.fates.length := by omega
      have hrest : system.fates.length + 1 - system.due =
          system.fates.length - system.due + 1 := by omega
      dsimp only
      rw [List.length_append, List.length_singleton, hmin, hrest, List.replicate_succ',
        ← List.append_assoc, ← hfates]
  · have hpos : 0 < system.slab.shrinkAmount.toInt := by
      have hne : system.slab.shrinkAmount.toInt ≠ 0 := fun hzero =>
        hshrink (Int32.toInt_inj.mp hzero)
      have hshrink := hinv.shrink
      omega
    have hdue : system.fates.length < system.due := by
      have hshrink := hinv.shrink
      omega
    refine ⟨_, rfl, hinv.usable, hinv.threaded, ?_, ?_, ?_⟩
    · dsimp only
      rw [if_neg (by simp)]
      refine List.nodup_append'.mpr ⟨hnodupLive.erase ptr, hnodupListed, ?_⟩
      intro block hblock hmem
      exact hdisjoint (List.mem_of_mem_erase hblock) hmem
    · dsimp only
      rw [pred_toInt hpos, hinv.shrink, List.length_append, List.length_singleton]
      omega
    · have hmin : min system.due (system.fates.length + 1) = system.fates.length + 1 := by omega
      have hrest : system.fates.length + 1 - system.due = 0 := by omega
      have hminOld : min system.due system.fates.length = system.fates.length := by omega
      have hrestOld : system.fates.length - system.due = 0 := by omega
      rw [hminOld, hrestOld, List.replicate_zero, List.append_nil] at hfates
      dsimp only
      rw [List.length_append, List.length_singleton, hmin, hrest, List.replicate_succ', ← hfates,
        List.replicate_zero, List.append_nil]

theorem Invariant.shrink_step (hinv : Invariant system) {kept : Int32} (hnonneg : 0 ≤ kept.toInt)
    (hle : kept.toInt ≤ system.slab.usableAmount.toInt) :
    ∃ next, step system (.shrink kept) = some next ∧ Invariant next := by
  have hsub : 0 ≤ (system.slab.usableAmount - kept).toInt := by
    rw [Int32.toInt_sub_of_le _ _ (Int32.le_iff_toInt_le.mpr hnonneg)
      (Int32.le_iff_toInt_le.mpr hle)]
    omega
  refine ⟨_, rfl, hinv.usable, hinv.threaded, hinv.apart, ?_, ?_⟩
  · dsimp only [Xslab.shrink]
    rw [List.length_nil, Nat.sub_zero, Int.toNat_of_nonneg hsub]
  · simp

theorem Invariant.step {call : XslabCall α} (hallowed : Allowed system call)
    (hcount : Countable system call) (hinv : Invariant system) :
    ∃ next, step system call = some next ∧ Invariant next := by
  cases call with
  | alloc memory => exact hinv.alloc hallowed
  | free ptr => exact hinv.free hallowed hcount
  | shrink kept => exact hinv.shrink_step hallowed.1 hallowed.2
  | client ptr word =>
    exact ⟨_, rfl, hinv.usable, hinv.threaded.update hallowed word, hinv.apart, hinv.shrink,
      hinv.fates⟩

end Steps

/-- The books are right as long as the blocks that are kept can be counted. -/
theorem slab_run_sound [DecidableEq α] (size : Int32) (link : α → Option α)
    (calls : List (XslabCall α))
    (hcalls : Along step (fun system call => Allowed system call ∧ Countable system call)
      (start size link) calls) :
    ∃ final, run step (start size link) calls = some final ∧ Sound final := by
  have hstep : ∀ (system : XslabSystem α) (call : XslabCall α),
      Allowed system call ∧ Countable system call → Invariant system →
        ∃ next, step system call = some next ∧ Invariant next := by
    intro system call hcall hinv
    exact hinv.step hcall.1 hcall.2
  obtain ⟨final, hrun, hinv⟩ := run_along hstep hcalls (start_invariant size link)
  exact ⟨final, hrun, hinv.sound⟩

/-- A block that is freed, used again, and then given up by a shrink. -/
theorem slab_run_sound_shrink :
    let calls : List (XslabCall Nat) :=
      [.alloc (some 1), .free 1, .shrink 0, .alloc none, .client 1 (some 9), .free 1]
    Along step (fun system call => Allowed system call ∧ Countable system call)
        (start 24 fun _ => none) calls ∧
      ∃ final, run step (start 24 fun _ => none) calls = some final ∧ Sound final := by
  intro calls
  have hcalls : Along step (fun system call => Allowed system call ∧ Countable system call)
      (start 24 fun _ => none) calls := by decide
  exact ⟨hcalls, slab_run_sound 24 (fun _ => none) calls hcalls⟩

section Overflow

variable [DecidableEq α] {system : XslabSystem α} {blocks : List α}

private theorem run_alloc (hempty : ¬ system.slab.usableAmount > 0) (hnodup : blocks.Nodup)
    (hnew : ∀ ptr ∈ blocks, ptr ∉ system.live ∧ ptr ∉ system.listed) :
    Along step Allowed system (blocks.map fun ptr => .alloc (some ptr)) ∧
      run step system (blocks.map fun ptr => .alloc (some ptr)) =
        some { system with live := blocks.reverse ++ system.live } := by
  induction blocks generalizing system with
  | nil => exact ⟨trivial, rfl⟩
  | cons ptr rest ih =>
    obtain ⟨hnotMem, hrest⟩ := List.nodup_cons.mp hnodup
    have hfirst := hnew ptr (by simp)
    have hstep : step system (.alloc (some ptr)) =
        some { system with live := ptr :: system.live } := by
      rw [step, Xslab.alloc, if_neg hempty]
      simp [List.erase_of_not_mem hfirst.2]
    obtain ⟨hallowed, hrun⟩ := @ih { system with live := ptr :: system.live } hempty hrest (by
      intro other hother
      have hold := hnew other (by simp [hother])
      exact ⟨by simp [hold.1, ne_of_mem_of_not_mem hother hnotMem], hold.2⟩)
    rw [List.map_cons, run_cons, hstep, Option.bind_some, hrun]
    refine ⟨⟨?_, ?_⟩, by simp⟩
    · intro other hother
      obtain rfl : ptr = other := by simpa using hother
      exact hfirst
    · intro next hnext
      rw [hstep] at hnext
      cases hnext
      exact hallowed

private theorem run_free (hshrink : system.slab.shrinkAmount = 0) (hnodup : blocks.Nodup)
    (hlive : ∀ ptr ∈ blocks, ptr ∈ system.live) :
    Along step Allowed system (blocks.map .free) ∧ ∃ final,
      run step system (blocks.map .free) = some final ∧
      final.slab.usableAmount = system.slab.usableAmount + Int32.ofNat blocks.length := by
  induction blocks generalizing system with
  | nil => exact ⟨trivial, system, rfl, by simp⟩
  | cons ptr rest ih =>
    obtain ⟨hnotMem, hrest⟩ := List.nodup_cons.mp hnodup
    obtain ⟨next, hstep, hnextShrink, hnextUsable, hnextLive⟩ : ∃ next,
        step system (.free ptr) = some next ∧ next.slab.shrinkAmount = 0 ∧
          next.slab.usableAmount = system.slab.usableAmount + 1 ∧
          next.live = system.live.erase ptr := by
      rw [step, Xslab.free, if_pos hshrink]
      exact ⟨_, rfl, hshrink, rfl, rfl⟩
    obtain ⟨hallowed, final, hrun, hfinal⟩ := @ih next hnextShrink hrest (by
      intro other hother
      rw [hnextLive]
      exact (List.mem_erase_of_ne (ne_of_mem_of_not_mem hother hnotMem)).mpr
        (hlive other (by simp [hother])))
    refine ⟨⟨hlive ptr (by simp), ?_⟩, final, ?_, ?_⟩
    · intro other hother
      rw [hstep] at hother
      cases hother
      exact hallowed
    · rw [List.map_cons, run_cons, hstep, Option.bind_some, hrun]
    · rw [hfinal, hnextUsable, List.length_cons, Int32.ofNat_add, Int32.add_assoc]
      congr 1
      exact Int32.add_comm _ _

end Overflow

/-- `count` blocks are taken from the system, and then all are freed. -/
def fill (count : Nat) : List (XslabCall Nat) :=
  (List.range count).map (fun ptr => .alloc (some ptr)) ++ (List.range count).map .free

private theorem run_fill (count : Nat) (link : Nat → Option Nat) :
    Along step Allowed (start 24 link) (fill count) ∧ ∃ final,
      run step (start 24 link) (fill count) = some final ∧
      final.slab.usableAmount = Int32.ofNat count := by
  have hnodup := @List.nodup_range count
  have hstart : ¬ (start 24 link).slab.usableAmount > 0 := by
    rw [Lib.pos_iff]
    exact Int.lt_irrefl 0
  obtain ⟨halloc, hallocRun⟩ := run_alloc hstart hnodup (by simp [start])
  obtain ⟨hfree, final, hfreeRun, hfinal⟩ := @run_free Nat _
    { start 24 link with live := (List.range count).reverse ++ (start 24 link).live }
    (List.range count) rfl hnodup (by simp +contextual)
  refine ⟨along_append halloc ?_, final, ?_, ?_⟩
  · intro next hnext
    rw [hallocRun] at hnext
    cases hnext
    exact hfree
  · rw [fill, run_append, hallocRun, Option.bind_some, hfreeRun]
  · rw [hfinal, List.length_range]
    exact Int32.zero_add _

private theorem fill_negative {count : Nat} (hnegative : (Int32.ofNat count).toInt < 0)
    (link : Nat → Option Nat) : Along step Allowed (start 24 link) (fill count) ∧
      ∃ final, run step (start 24 link) (fill count) = some final ∧ ¬ Sound final := by
  obtain ⟨hallowed, final, hrun, husable⟩ := run_fill count link
  refine ⟨hallowed, final, hrun, fun hsound => ?_⟩
  have hlength := hsound.usable
  rw [husable] at hlength
  omega

/-- The 2^31st block on the list takes the amount below zero. -/
theorem fill_uncounted :
    Along step Allowed (start 24 fun _ => none) (fill 2147483648) ∧ ∃ final,
      run step (start 24 fun _ => none) (fill 2147483648) = some final ∧ ¬ Sound final := by
  have hnegative : (Int32.ofNat 2147483648).toInt < 0 := by
    rw [Int32.toInt_ofNat']
    decide
  exact fill_negative hnegative _

end XslabSystem

end Libsax.Memory
