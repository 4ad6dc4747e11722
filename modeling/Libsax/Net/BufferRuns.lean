import Libsax.Net.BufferRefines

/-! Sequences of calls on a `buffer`, next to the same calls on a flat array. -/
namespace Libsax.Net.Contiguous

open Libsax.Lib Buffer

variable {heap : Heap} {buf : Buffer} {flat : FlatBuffer}

theorem exec_related (hheap : ∀ block, (heap block).isSome) (hrefines : buf.Refines flat)
    {call : Call} {replies : List (Reply × FlatReply)}
    (hbounded : Bounded ⟨buf, flat, replies⟩ call) (hsane : Sane ⟨buf, flat, replies⟩ call) :
    ∃ next reply, execBuffer heap buf call = some (next, reply) ∧
      next.Refines (execFlat flat call).1 ∧ reply.Agrees (execFlat flat call).2 := by
  have hfits : ∀ length, demand buf call = some length → buf.Fits length :=
    fun length hdemand => ⟨hbounded.demand length hdemand, hsane.growth length hdemand⟩
  unfold execBuffer execFlat
  cases call with
  | put data =>
    obtain ⟨next, hput, hnext⟩ := hrefines.put hheap fun hlimit => hfits data.length (if_pos hlimit)
    simp only [hput]
    exact ⟨_, _, rfl, hnext, agrees_plain _⟩
  | putInt size number bigendian =>
    have hlength : (FlatBuffer.wire size number bigendian).length = size := by
      cases bigendian <;> simp [FlatBuffer.wire]
    obtain ⟨next, hput, hnext⟩ := hrefines.put hheap fun hlimit => by
      rw [hlength]
      exact hfits size (if_pos hlimit)
    simp only [putInt_eq, hput]
    exact ⟨_, _, rfl, hnext, agrees_plain _⟩
  | get length =>
    unfold FlatBuffer.get
    rcases hrefines.get length with ⟨hnot, hget⟩ | ⟨bytes, hread, hget, hagree, hnext⟩
    · simp only [hget, if_neg hnot]
      exact ⟨_, _, rfl, hrefines, agrees_plain false⟩
    · simp only [hget, if_pos hread]
      exact ⟨_, _, rfl, hnext, rfl, hagree, fun _ hnumber => Option.some.inj hnumber⟩
  | getInt size bigendian =>
    have hsize : size < 2 ^ 32 := Nat.lt_of_lt_of_le hbounded.size (by decide)
    unfold FlatBuffer.get
    rcases hrefines.getInt hsize bigendian with
      ⟨hnot, hget⟩ | ⟨next, number, hread, hget, hknown, hnext⟩
    · simp only [hget, if_neg hnot]
      exact ⟨_, _, rfl, hrefines, agrees_plain false⟩
    · simp only [hget, if_pos hread]
      exact ⟨_, _, rfl, hnext, rfl, .nil, hknown⟩
  | peekInt size bigendian =>
    have hsize : size < 2 ^ 32 := Nat.lt_of_lt_of_le hbounded.size (by decide)
    unfold FlatBuffer.get
    rcases hrefines.peekInt hsize bigendian with ⟨hnot, hget⟩ | ⟨number, hread, hget, hknown⟩
    · simp only [hget, if_neg hnot]
      exact ⟨_, _, rfl, hrefines, agrees_plain false⟩
    · simp only [hget, if_pos hread]
      exact ⟨_, _, rfl, hrefines, rfl, .nil, hknown⟩
  | skip length =>
    obtain ⟨next, hskip, hnext⟩ := hrefines.skip hheap fun hlimit =>
      hfits length.toNat (if_pos hlimit)
    simp only [hskip]
    exact ⟨_, _, rfl, hnext, agrees_plain _⟩
  | mark => exact ⟨_, _, rfl, hrefines.setMark, agrees_plain true⟩
  | limit newLimit =>
    obtain ⟨next, preLimit, hset, hpre, hnext⟩ := hrefines.setLimit (hbounded.limit newLimit rfl)
    simp only [hset]
    exact ⟨_, _, rfl, hnext, rfl, .nil, fun number hnumber => hpre.trans (Option.some.inj hnumber)⟩
  | reset =>
    obtain ⟨hresult, hnext⟩ := hrefines.reset (hsane.reset rfl)
    exact ⟨_, _, rfl, hnext, hresult ▸ agrees_plain _⟩
  | rewind => exact ⟨_, _, rfl, hrefines.rewind, agrees_plain true⟩
  | flip =>
    obtain ⟨hresult, hnext⟩ := hrefines.flip
    exact ⟨_, _, rfl, hnext, hresult ▸ agrees_plain _⟩
  | compact =>
    obtain ⟨next, hcompact, hnext⟩ := hrefines.compact
    simp only [hcompact]
    exact ⟨_, _, rfl, hnext, agrees_plain _⟩
  | clear => exact ⟨_, _, rfl, hrefines.clear, agrees_plain true⟩

structure Inv (system : System) : Prop where
  refines : system.buffer.Refines system.flat
  replies : ∀ entry ∈ system.replies, entry.1.Agrees entry.2

theorem Inv.sound {system : System} (hinv : Inv system) : Sound system where
  replies := hinv.replies
  position := hinv.refines.position.symm
  limit := by
    rw [hinv.refines.limit]
    exact (optional_getD _).symm
  remaining := hinv.refines.remaining
  dataLength := hinv.refines.dataLength
  content := fun index byte hbyte => by
    rw [hinv.refines.size]
    exact hinv.refines.cells index byte hbyte

theorem Inv.step (hheap : ∀ block, (heap block).isSome) {system : System} {call : Call}
    (hallowed : Bounded system call ∧ Sane system call) (hinv : Inv system) :
    ∃ next, Contiguous.step heap system call = some next ∧ Inv next := by
  obtain ⟨buffer, reply, hexec, hrefines, hagrees⟩ :=
    exec_related hheap hinv.refines hallowed.1 hallowed.2
  refine ⟨⟨buffer, (execFlat system.flat call).1,
    system.replies ++ [(reply, (execFlat system.flat call).2)]⟩, ?_, hrefines, ?_⟩
  · simp only [Contiguous.step, hexec, Option.bind_eq_bind, Option.bind_some]
    rfl
  · intro entry hentry
    rcases List.mem_append.mp hentry with hold | hnew
    · exact hinv.replies entry hold
    · rw [List.mem_singleton.mp hnew]
      exact hagrees

theorem start_inv (hheap : ∀ block, (heap block).isSome) {blockSize : UInt32} {exponent : Nat}
    (hblock : blockSize.toNat = 2 ^ exponent) :
    ∃ system, start heap blockSize = some system ∧ Inv system := by
  have hexponent : exponent < 32 :=
    (Nat.pow_lt_pow_iff_right (by decide)).mp (hblock ▸ blockSize.toNat_lt)
  have hhalf : blockSize.toNat ≤ 2 ^ 31 :=
    hblock ▸ Nat.pow_le_pow_right (by decide) (Nat.le_of_lt_succ hexponent)
  have hpos : 0 < blockSize.toNat := hblock ▸ Nat.two_pow_pos exponent
  have hone : 1 ≤ blockSize := UInt32.le_iff_toNat_le.mpr hpos
  have hassert : blockSize > 0 ∧ blockSize &&& (blockSize - 1) = 0 := by
    refine ⟨UInt32.lt_iff_toNat_lt.mpr hpos, ?_⟩
    rw [← UInt32.toNat_inj, UInt32.toNat_and, UInt32.toNat_sub_of_le _ _ hone, hblock]
    exact (Nat.and_two_pow_sub_one_eq_mod _ _).trans (Nat.mod_self _)
  have hempty : (⟨0, invalidValue, invalidValue, 0, blockSize, fun _ => 0, 0, 0⟩ : Buffer).Refines
      .create :=
    { pages := ⟨exponent, hblock⟩
      position := rfl
      mark := rfl
      limit := rfl
      size := rfl
      below := (by decide : (0 : UInt32).toNat < 2 ^ 32 - 1)
      inside := Nat.le_refl _
      markInside := fun h => absurd rfl h
      limitInside := fun h => absurd rfl h
      cells := fun index byte hbyte => by cases hbyte }
  have hbounded : (0 : UInt32).toNat + blockSize.toNat < 2 ^ 32 - 1 := by
    change 0 + _ < _
    omega
  have hgrowth : (0 : UInt32).toNat + blockSize.toNat + blockSize.toNat ≤ 2 ^ 32 := by
    change 0 + _ + _ ≤ _
    omega
  obtain ⟨bytes, size, capacity, blocks, hreserve, hgrown, -⟩ :=
    hempty.reserve hheap hbounded fun _ => hgrowth
  have hforget : FlatBuffer.create.forget blockSize.toNat = .create := by
    unfold FlatBuffer.forget FlatBuffer.create
    simp only [FlatBuffer.mk.injEq, and_true]
    funext index
    exact ite_self _
  rw [hforget] at hgrown
  rw [UInt32.zero_add] at hreserve
  refine ⟨⟨_, .create, []⟩, ?_, hgrown, fun _ hentry => absurd hentry List.not_mem_nil⟩
  unfold start Buffer.create
  rw [if_pos hassert, hreserve]
  rfl

/-- With pages of any size, a buffer answers every call as a flat array does. -/
theorem buffer_refines (heap : Heap) (hheap : ∀ block, (heap block).isSome) (blockSize : UInt32)
    (exponent : Nat) (hblock : blockSize.toNat = 2 ^ exponent) (calls : List Call) :
    ∃ first, start heap blockSize = some first ∧
      (Along (step heap) (fun system call => Bounded system call ∧ Sane system call) first calls →
        ∃ final, run (step heap) first calls = some final ∧ Sound final) := by
  obtain ⟨first, hstart, hfirst⟩ := start_inv hheap hblock
  refine ⟨first, hstart, fun hcalls => ?_⟩
  obtain ⟨final, hrun, hinv⟩ :=
    run_along (fun _ _ hallowed hinv => Inv.step hheap hallowed hinv) hcalls hfirst
  exact ⟨final, hrun, hinv.sound⟩

def Call.newLimit : Call → Option UInt32
  | .limit newLimit => some newLimit
  | _ => none

theorem Call.newLimit_eq {call : Call} {newLimit : UInt32} :
    call.newLimit = some newLimit ↔ call = .limit newLimit := by
  cases call <;> simp [Call.newLimit]

theorem all_eq_true {α : Type} {value : Option α} {p : α → Prop} [DecidablePred p] :
    (value.all fun x => decide (p x)) = true ↔ ∀ x, value = some x → p x := by
  cases value <;> simp

instance (system : System) (call : Call) : Decidable (Bounded system call) :=
  decidable_of_iff (call.size < 2 ^ 32 - 1 ∧
      ((demand system.buffer call).all fun length =>
        decide (system.buffer.current.toNat + length < 2 ^ 32 - 1)) = true ∧
      (call.newLimit.all fun newLimit => decide (system.buffer.limit ≠ invalidValue →
        system.buffer.current ≤ newLimit ∧ newLimit ≤ system.buffer.capacity)) = true)
    ⟨fun ⟨hsize, hdemand, hlimit⟩ => ⟨hsize, all_eq_true.mp hdemand, fun newLimit hcall =>
        all_eq_true.mp hlimit newLimit (Call.newLimit_eq.mpr hcall)⟩,
      fun hbounded => ⟨hbounded.size, all_eq_true.mpr hbounded.demand,
        all_eq_true.mpr fun newLimit hcall =>
          hbounded.limit newLimit (Call.newLimit_eq.mp hcall)⟩⟩

instance (system : System) (call : Call) : Decidable (Sane system call) :=
  decidable_of_iff ((call = .reset → system.buffer.limit ≠ invalidValue →
        system.buffer.mark ≠ invalidValue → system.buffer.mark ≤ system.buffer.limit) ∧
      ((demand system.buffer call).all fun length =>
        decide (system.buffer.capacity.toNat < system.buffer.current.toNat + length →
          system.buffer.current.toNat + length + system.buffer.blockSize.toNat ≤ 2 ^ 32)) = true)
    ⟨fun ⟨hreset, hgrowth⟩ => ⟨hreset, all_eq_true.mp hgrowth⟩,
      fun hsane => ⟨hsane.reset, all_eq_true.mpr hsane.growth⟩⟩

def zeroHeap : Heap := fun _ => some fun _ => 0

/-- Five bytes in pages of four; the first one is written again before the
storage grows. -/
theorem buffer_refines_five : ∃ first final, start zeroHeap 4 = some first ∧
    run (step zeroHeap) first
        [.put [1, 2, 3], .rewind, .put [9], .reset, .put [4, 5], .flip, .get 5] = some final ∧
      (final.replies.map fun entry => entry.1.bytes).getLast? = some [9, 2, 3, 4, 5] ∧
      Sound final := by
  obtain ⟨first, hstart, hrefines⟩ := buffer_refines zeroHeap (fun _ => rfl) 4 2 (by decide)
    [.put [1, 2, 3], .rewind, .put [9], .reset, .put [4, 5], .flip, .get 5]
  obtain rfl : _ = first := Option.some.inj hstart
  obtain ⟨final, hrun, hsound⟩ := hrefines (by decide +kernel)
  refine ⟨_, final, hstart, hrun, ?_, hsound⟩
  obtain rfl : _ = final := Option.some.inj hrun
  rfl

/-- A mark that was set before the limit went down takes the cursor past it: then
4294967293 bytes remain, and reading goes on behind the limit. -/
theorem limit_below_mark :
    ¬ ∀ (heap : Heap) (blockSize : UInt32) (exponent : Nat) (calls : List Call),
      (∀ block, (heap block).isSome) → blockSize.toNat = 2 ^ exponent →
      ∃ first, start heap blockSize = some first ∧
        (Along (step heap) Bounded first calls →
          ∃ final, run (step heap) first calls = some final ∧ Sound final) := by
  intro hall
  obtain ⟨first, hstart, hrefines⟩ := hall zeroHeap 4096 12
    [.put [0, 1, 2, 3, 4, 5, 6, 7, 8, 9], .flip, .skip 8, .mark, .rewind, .limit 5, .reset]
    (fun _ => rfl) (by decide)
  obtain rfl : _ = first := Option.some.inj hstart
  obtain ⟨final, hrun, hsound⟩ := hrefines (by decide +kernel)
  obtain rfl : _ = final := Option.some.inj hrun
  exact absurd hsound.remaining (by decide)

private theorem storage_wraps : ∃ first, start zeroHeap 4096 = some first ∧
    Along (step zeroHeap) Bounded first [.put [1], .skip 0xFFFFFFFD] ∧
      run (step zeroHeap) first [.put [1], .skip 0xFFFFFFFD] = none :=
  ⟨_, rfl, by decide +kernel, rfl⟩

end Libsax.Net.Contiguous
