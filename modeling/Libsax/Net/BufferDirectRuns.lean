import Libsax.Net.BufferDirect

/-! Sequences of calls on a `buffer` with direct access in between: what keeps the
reader below the limit, and the bytes that were written in place. -/
namespace Libsax.Net.Direct

open Libsax.Lib Buffer Contiguous

variable {heap : Heap} {buf : Buffer} {flat : FlatBuffer}

private theorem start_refines {blockSize : UInt32} {exponent : Nat}
    (hblock : blockSize.toNat = 2 ^ exponent) {first : System}
    (hstart : start heap blockSize = some first) :
    first.buffer.Refines first.flat ∧ first.buffer.limit = invalidValue ∧ first.trace = [] := by
  obtain ⟨buffer, hcreate, rfl⟩ := Option.map_eq_some_iff.mp hstart
  have hgranted : Buffer.create (fun _ => some ((heap 0).getD fun _ => 0)) blockSize =
      some buffer := by
    unfold Buffer.create at hcreate ⊢
    split_ifs at hcreate ⊢
    rcases reserve_granting heap
        ⟨0, invalidValue, invalidValue, 0, blockSize, fun _ => 0, 0, 0⟩ blockSize with
      hsame | hrefused
    · rw [hsame] at hcreate
      exact hcreate
    · rw [hrefused] at hcreate
      cases hcreate
  obtain ⟨system, hsystem, hinv⟩ :=
    @Contiguous.start_inv (fun _ => some ((heap 0).getD fun _ => 0)) (fun _ => rfl) _ _ hblock
  unfold Contiguous.start at hsystem
  rw [hgranted] at hsystem
  obtain rfl := Option.some.inj hsystem
  exact ⟨hinv.refines, (hinv.refines.writing_iff).mpr rfl, rfl⟩

private theorem step_eq {system : System} {deed : Deed} {next : Buffer} {result : Bool}
    (hexec : exec heap system.buffer deed = some (next, result)) :
    step heap system deed = some ⟨next, track system.flat result deed,
      system.trace ++ [⟨system.buffer, deed, next, result⟩]⟩ := by
  unfold step
  rw [hexec]
  rfl

theorem forall_mem_snoc {α : Type} {p : α → Prop} {trace : List α} {entry : α}
    (htrace : ∀ other ∈ trace, p other) (hentry : p entry) :
    ∀ other ∈ trace ++ [entry], p other := by
  intro other hother
  rcases List.mem_append.mp hother with hold | hnew
  · exact htrace other hold
  · rw [List.mem_singleton.mp hnew]
    exact hentry

/-- The types of the integers are small, `limit` is called with what its assertion
accepts, and nothing wraps while the buffer is written. -/
structure Orderly (system : System) (deed : Deed) : Prop where
  size : deed.size < 2 ^ 32 - 1
  written : system.buffer.limit = invalidValue → Bounded system.buffer deed
  accepted : Accepted system.buffer deed

/-- The cursor stays below the limit, and no call has read or skipped bytes at or
behind the limit of its time. -/
structure Protected (system : System) : Prop where
  inside : Inside system.buffer
  read : ∀ entry ∈ system.trace, ∀ call length, entry.deed = .call call →
    entry.deed.span = some length → entry.result = true → entry.before.limit ≠ invalidValue →
      entry.before.current.toNat + length ≤ entry.before.limit.toNat

theorem Protected.step {system : System} {deed : Deed}
    (hallowed : Orderly system deed ∧ InOrder system.buffer deed)
    (hinv : (∃ flat, system.buffer.Refines flat) ∧ Protected system) :
    ∃ next, Direct.step heap system deed = some next ∧
      (∃ flat, next.buffer.Refines flat) ∧ Protected next := by
  obtain ⟨⟨hsize, hwritten, haccepted⟩, horder⟩ := hallowed
  obtain ⟨⟨flat, hrefines⟩, hprotected⟩ := hinv
  obtain ⟨next, result, flat', hexec, hnext, hchecked, -⟩ :=
    exec_spec heap hrefines hsize hwritten haccepted horder
  refine ⟨_, step_eq hexec, ⟨flat', hnext⟩, Inside.of_refines hnext,
    forall_mem_snoc hprotected.read ?_⟩
  intro call length hcall hspan hresult hreading
  have hhonest : Honest system.buffer deed := by
    rintro direct count rfl
    cases hcall
  exact (hchecked hhonest).read length hspan hresult hreading

/-- As long as the limit and the cursor are not set past each other, reading stays
inside the limit. -/
theorem reading_protected (heap : Heap) (blockSize : UInt32) (exponent : Nat)
    (hblock : blockSize.toNat = 2 ^ exponent) (first : System)
    (hstart : start heap blockSize = some first) (deeds : List Deed)
    (hdeeds : Along (step heap) (fun system deed =>
      Orderly system deed ∧ InOrder system.buffer deed) first deeds) :
    ∃ final, run (step heap) first deeds = some final ∧ Protected final := by
  obtain ⟨hrefines, -, htrace⟩ := start_refines hblock hstart
  have hprotected : Protected first :=
    ⟨Inside.of_refines hrefines, fun entry hentry => by
      rw [htrace] at hentry
      cases hentry⟩
  obtain ⟨final, hrun, -, hfinal⟩ := run_along
    (fun _ _ hallowed hinv => Protected.step hallowed hinv) hdeeds ⟨⟨_, hrefines⟩, hprotected⟩
  exact ⟨final, hrun, hfinal⟩

theorem Sound.step {system : System} {deed : Deed}
    (hallowed : Bounded system.buffer deed ∧ Accepted system.buffer deed ∧
      InOrder system.buffer deed)
    (hinv : (∃ flat, system.buffer.Refines flat) ∧ Sound system) :
    ∃ next, Direct.step heap system deed = some next ∧
      (∃ flat, next.buffer.Refines flat) ∧ Sound next := by
  obtain ⟨hbounded, haccepted, horder⟩ := hallowed
  obtain ⟨⟨flat, hrefines⟩, hsound⟩ := hinv
  obtain ⟨next, result, flat', hexec, hnext, hchecked, -⟩ :=
    exec_spec heap hrefines hbounded.size (fun _ => hbounded) haccepted horder
  exact ⟨_, step_eq hexec, ⟨flat', hnext⟩, Inside.of_refines hnext,
    forall_mem_snoc hsound.checked (hchecked hbounded.honest)⟩

/-- Sums that do not wrap are checked properly, whatever the allocator answers. -/
theorem lengths_checked {blockSize : UInt32} {exponent : Nat}
    (hblock : blockSize.toNat = 2 ^ exponent) {first : System}
    (hstart : start heap blockSize = some first) {deeds : List Deed}
    (hdeeds : Along (step heap) (fun system deed => Bounded system.buffer deed ∧
      Accepted system.buffer deed ∧ InOrder system.buffer deed) first deeds) :
    ∃ final, run (step heap) first deeds = some final ∧ Sound final := by
  obtain ⟨hrefines, -, htrace⟩ := start_refines hblock hstart
  have hsound : Sound first :=
    ⟨Inside.of_refines hrefines, fun entry hentry => by
      rw [htrace] at hentry
      cases hentry⟩
  obtain ⟨final, hrun, -, hfinal⟩ := run_along
    (fun _ _ hallowed hinv => Sound.step hallowed hinv) hdeeds ⟨⟨_, hrefines⟩, hsound⟩
  exact ⟨final, hrun, hfinal⟩

/-- The deeds on a buffer that is written, up to `flip`. -/
def Deed.writing : Deed → Bool
  | .call (.put _) => true
  | .call (.putInt _ _ _) => true
  | .call .rewind => true
  | .call .mark => true
  | .call .reset => true
  | .directPut _ => true
  | .commitPut _ _ => true
  | _ => false

private theorem accepted_of_writing (hlimit : buf.limit = invalidValue) (deed : Deed) :
    Accepted buf deed := fun _ _ hreading => absurd hlimit hreading

private theorem inOrder_of_writing (hlimit : buf.limit = invalidValue) (deed : Deed) :
    InOrder buf deed :=
  ⟨fun _ _ hreading => absurd hlimit hreading, fun _ hreading => absurd hlimit hreading⟩

private theorem track_limit {deed : Deed} (hwriting : deed.writing = true) (result : Bool) :
    (track flat result deed).limit = flat.limit := by
  cases result with
  | false => cases deed <;> rfl
  | true =>
    have hput : ∀ data, (flat.put data).1.limit = flat.limit := by
      intro data
      unfold FlatBuffer.put
      split_ifs <;> rfl
    cases deed with
    | call call =>
      cases call with
      | put data => exact hput data
      | putInt size number bigendian => exact hput _
      | reset =>
        change flat.reset.1.limit = flat.limit
        unfold FlatBuffer.reset
        split <;> rfl
      | mark => rfl
      | rewind => rfl
      | get => cases hwriting
      | getInt => cases hwriting
      | peekInt => cases hwriting
      | skip => cases hwriting
      | limit => cases hwriting
      | flip => cases hwriting
      | compact => cases hwriting
      | clear => cases hwriting
    | directPut => rfl
    | commitPut => rfl
    | directGet => cases hwriting
    | commitGet => cases hwriting

theorem Kept.of_refines {system : System} (hrefines : system.buffer.Refines system.flat) :
    Kept system := by
  intro index byte hbyte
  rw [hrefines.size]
  exact hrefines.cells index byte hbyte

private theorem writing_step {system : System} {deed : Deed}
    (hallowed : deed.writing = true ∧ Bounded system.buffer deed ∧ Forward system deed)
    (hinv : system.buffer.Refines system.flat ∧ system.buffer.limit = invalidValue) :
    ∃ next, Direct.step heap system deed = some next ∧
      next.buffer.Refines next.flat ∧ next.buffer.limit = invalidValue := by
  obtain ⟨hwriting, hbounded, hforward⟩ := hallowed
  obtain ⟨hrefines, hlimit⟩ := hinv
  obtain ⟨next, result, flat', hexec, hnext, -, hsame⟩ :=
    exec_spec heap hrefines hbounded.size (fun _ => hbounded)
      (accepted_of_writing hlimit deed) (inOrder_of_writing hlimit deed)
  have htracked := hsame hbounded.honest fun prepareLength hdeed hopen hgrows index hindex =>
    hforward prepareLength hdeed hopen hgrows index (hrefines.position ▸ hindex)
  rw [htracked] at hnext
  refine ⟨_, step_eq hexec, hnext, hnext.writing_iff.mpr ?_⟩
  rw [track_limit hwriting, hrefines.writing_iff.mp hlimit]

/-- Whatever is put, committed and rewound, no byte is lost as long as `direct_put`
gets new storage only with the cursor behind all bytes. -/
theorem direct_writes_kept (heap : Heap) (blockSize : UInt32) (exponent : Nat)
    (hblock : blockSize.toNat = 2 ^ exponent) (first : System)
    (hstart : start heap blockSize = some first) (deeds : List Deed)
    (hdeeds : Along (step heap) (fun system deed => deed.writing = true ∧
      Bounded system.buffer deed ∧ Forward system deed) first deeds) :
    ∃ final, run (step heap) first deeds = some final ∧ Kept final := by
  obtain ⟨hrefines, hlimit, -⟩ := start_refines hblock hstart
  obtain ⟨final, hrun, hfinal, -⟩ := run_along
    (fun _ _ hallowed hinv => writing_step hallowed hinv) hdeeds ⟨hrefines, hlimit⟩
  exact ⟨final, hrun, Kept.of_refines hfinal⟩

instance (length : Nat) : Decidable (buf.Fits length) :=
  decidable_of_iff (buf.current.toNat + length < 2 ^ 32 - 1 ∧
      (buf.capacity.toNat < buf.current.toNat + length →
        buf.current.toNat + length + buf.blockSize.toNat ≤ 2 ^ 32))
    ⟨fun h => ⟨h.1, h.2⟩, fun h => ⟨h.bounded, h.growth⟩⟩

instance (deed : Deed) : Decidable (Bounded buf deed) :=
  decidable_of_iff (deed.size < 2 ^ 32 - 1 ∧
      ((deed.demand buf).all fun length => decide (buf.Fits length)) = true ∧
      ((deed.commits buf).all fun length =>
        decide (buf.current.toNat + length < 2 ^ 32)) = true)
    ⟨fun ⟨hsize, hdemand, hcommits⟩ =>
        ⟨hsize, all_eq_true.mp hdemand, all_eq_true.mp hcommits⟩,
      fun h => ⟨h.size, all_eq_true.mpr h.demand, all_eq_true.mpr h.commits⟩⟩

def Deed.newLimit : Deed → Option UInt32
  | .call asked => asked.newLimit
  | _ => none

theorem Deed.newLimit_eq {deed : Deed} {newLimit : UInt32} :
    deed.newLimit = some newLimit ↔ deed = .call (.limit newLimit) := by
  cases deed <;> simp [Deed.newLimit, Call.newLimit_eq]

instance (deed : Deed) : Decidable (Accepted buf deed) :=
  decidable_of_iff ((deed.newLimit.all fun newLimit =>
      decide (buf.limit ≠ invalidValue → newLimit ≤ buf.capacity)) = true)
    ⟨fun h newLimit hdeed => all_eq_true.mp h newLimit (Deed.newLimit_eq.mpr hdeed),
      fun h => all_eq_true.mpr fun newLimit hdeed => h newLimit (Deed.newLimit_eq.mp hdeed)⟩

instance (deed : Deed) : Decidable (InOrder buf deed) :=
  decidable_of_iff ((deed.newLimit.all fun newLimit =>
        decide (buf.limit ≠ invalidValue → buf.current ≤ newLimit)) = true ∧
      (deed = .call .reset → buf.limit ≠ invalidValue → buf.mark ≠ invalidValue →
        buf.mark ≤ buf.limit))
    ⟨fun ⟨hlimit, hreset⟩ =>
        ⟨fun newLimit hdeed => all_eq_true.mp hlimit newLimit (Deed.newLimit_eq.mpr hdeed), hreset⟩,
      fun h => ⟨all_eq_true.mpr fun newLimit hdeed => h.limit newLimit (Deed.newLimit_eq.mp hdeed),
        h.reset⟩⟩

instance (system : System) (deed : Deed) : Decidable (Orderly system deed) :=
  decidable_of_iff (deed.size < 2 ^ 32 - 1 ∧
      (system.buffer.limit = invalidValue → Bounded system.buffer deed) ∧
      Accepted system.buffer deed)
    ⟨fun ⟨hsize, hwritten, haccepted⟩ => ⟨hsize, hwritten, haccepted⟩,
      fun h => ⟨h.size, h.written, h.accepted⟩⟩

/-- Ten bytes, a frame of five in front, and one that is read after it. -/
theorem reading_protected_ten : ∃ first final, start zeroHeap 4096 = some first ∧
    run (step zeroHeap) first [.call (.put [0, 1, 2, 3, 4, 5, 6, 7, 8, 9]), .call .flip,
        .call (.limit 5), .call (.get 6), .call (.get 4), .call (.limit 10), .commitGet 4 2]
      = some final ∧
      final.buffer.current = 6 ∧ Protected final := by
  obtain ⟨first, hstart⟩ : ∃ first, start zeroHeap 4096 = some first := ⟨_, rfl⟩
  have hdeeds : Along (step zeroHeap) (fun system deed =>
      Orderly system deed ∧ InOrder system.buffer deed) first
      [.call (.put [0, 1, 2, 3, 4, 5, 6, 7, 8, 9]), .call .flip,
        .call (.limit 5), .call (.get 6), .call (.get 4), .call (.limit 10), .commitGet 4 2] := by
    obtain rfl : _ = first := Option.some.inj hstart
    decide +kernel
  obtain ⟨final, hrun, hprotected⟩ :=
    reading_protected zeroHeap 4096 12 (by decide) first hstart _ hdeeds
  refine ⟨first, final, hstart, hrun, ?_, hprotected⟩
  obtain rfl : _ = first := Option.some.inj hstart
  obtain rfl : _ = final := Option.some.inj hrun
  rfl

/-- The limit of a frame that the cursor has passed already: 4294967293 bytes remain,
and reading goes on behind the limit. -/
theorem limit_below_cursor :
    ¬ ∀ (heap : Heap) (blockSize : UInt32) (exponent : Nat) (first : System) (deeds : List Deed),
      blockSize.toNat = 2 ^ exponent → start heap blockSize = some first →
      Along (step heap) Orderly first deeds →
      ∃ final, run (step heap) first deeds = some final ∧ Protected final := by
  intro hall
  obtain ⟨first, hstart⟩ : ∃ first, start zeroHeap 4096 = some first := ⟨_, rfl⟩
  obtain ⟨final, hrun, hprotected⟩ := hall zeroHeap 4096 12 first
    [.call (.put [0, 1, 2, 3, 4, 5, 6, 7, 8, 9]), .call .flip, .call (.get 8), .call (.limit 5),
      .call (.get 2)] (by decide) hstart (by
        obtain rfl : _ = first := Option.some.inj hstart
        decide +kernel)
  obtain rfl : _ = first := Option.some.inj hstart
  obtain rfl : _ = final := Option.some.inj hrun
  exact absurd (hprotected.inside.limit (by decide)).1 (by decide)

/-- Three bytes, room prepared for a page and one byte committed behind them. -/
theorem direct_writes_kept_four : ∃ first final, start zeroHeap 4096 = some first ∧
    run (step zeroHeap) first [.call (.put [1, 2, 3]), .call .rewind, .call .reset,
        .directPut 4096, .commitPut 3 [4]] = some final ∧
      final.buffer.capacity = 8192 ∧ Kept final := by
  obtain ⟨first, hstart⟩ : ∃ first, start zeroHeap 4096 = some first := ⟨_, rfl⟩
  have hdeeds : Along (step zeroHeap) (fun system deed => deed.writing = true ∧
      Bounded system.buffer deed ∧ Forward system deed) first
      [.call (.put [1, 2, 3]), .call .rewind, .call .reset, .directPut 4096, .commitPut 3 [4]] := by
    obtain rfl : _ = first := Option.some.inj hstart
    refine ⟨⟨rfl, by decide, fun _ h => nomatch h⟩, fun next hnext => ?_⟩
    obtain rfl : _ = next := Option.some.inj hnext
    refine ⟨⟨rfl, by decide, fun _ h => nomatch h⟩, fun next hnext => ?_⟩
    obtain rfl : _ = next := Option.some.inj hnext
    refine ⟨⟨rfl, by decide, fun _ h => nomatch h⟩, fun next hnext => ?_⟩
    obtain rfl : _ = next := Option.some.inj hnext
    refine ⟨⟨rfl, by decide, fun _ _ _ _ index hindex => ?_⟩, fun next hnext => ?_⟩
    · have hbehind : ¬(0 ≤ index ∧ index < 0 + 3) := fun h => absurd hindex (by
        change ¬ 3 ≤ index
        omega)
      exact if_neg hbehind
    · obtain rfl : _ = next := Option.some.inj hnext
      exact ⟨⟨rfl, by decide, fun _ h => nomatch h⟩, fun _ _ => trivial⟩
  obtain ⟨final, hrun, hkept⟩ :=
    direct_writes_kept zeroHeap 4096 12 (by decide) first hstart _ hdeeds
  refine ⟨first, final, hstart, hrun, ?_, hkept⟩
  obtain rfl : _ = first := Option.some.inj hstart
  obtain rfl : _ = final := Option.some.inj hrun
  rfl

/-- The first of three bytes is to be replaced in place, with more room prepared than
the page has: the other two are not copied. -/
theorem prepared_bytes_lost :
    ¬ ∀ (heap : Heap) (blockSize : UInt32) (exponent : Nat) (first : System) (deeds : List Deed),
      blockSize.toNat = 2 ^ exponent → start heap blockSize = some first →
      Along (step heap) (fun system deed => deed.writing = true ∧ Bounded system.buffer deed)
        first deeds →
      ∃ final, run (step heap) first deeds = some final ∧ Kept final := by
  intro hall
  obtain ⟨first, hstart⟩ : ∃ first, start zeroHeap 4096 = some first := ⟨_, rfl⟩
  obtain ⟨final, hrun, hkept⟩ := hall zeroHeap 4096 12 first
    [.call (.put [1, 2, 3]), .call .rewind, .directPut 4097, .commitPut 0 [9]] (by decide) hstart
    (by
      obtain rfl : _ = first := Option.some.inj hstart
      decide +kernel)
  obtain rfl : _ = first := Option.some.inj hstart
  obtain rfl : _ = final := Option.some.inj hrun
  exact absurd (hkept 1 2 rfl).2 (by decide)

end Libsax.Net.Direct
