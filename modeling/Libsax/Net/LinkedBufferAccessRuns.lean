import Libsax.Net.BufferDirectRuns
import Libsax.Net.LinkedBufferAccess

/-! Sequences of calls on linked buffers with commits of bytes that were read in
place, and the length checks of both kinds of buffer. -/
namespace Libsax.Net.Access

open Libsax.Lib Libsax.Lib.Chunks LinkedBuffer

variable {buf : LinkedBuffer} {base : Nat} {flat : FlatBuffer} {bufs : Nat → LinkedBuffer}

/-- The counters are exact, and in reading mode the cursor is not behind the limit. -/
structure Inside (buf : LinkedBuffer) : Prop where
  accounted : Space.Accounted buf
  order : buf.limit.invalid = false → buf.current.position ≤ buf.limit.position

/-- A deed that succeeds moved the cursor over just the bytes it was asked for, and
these are in the chain or, in reading mode, below the limit. -/
structure Checked (entry : Entry) : Prop where
  written : ∀ action call target length, entry.deed = .ask action → action.request = .call call →
    Space.writes entry.before action.index call = some (target, length) → entry.result = true →
      (entry.after target).current.position.toNat =
          (entry.before target).current.position.toNat + length ∧
        (entry.after target).zero.currBuf +
          (entry.before target).current.position.toNat + length < (entry.after target).room
  skipped : ∀ action length, entry.deed = .ask action → action.request = .call (.skip length) →
    entry.result = true → (entry.before action.index).limit.invalid = false →
      (entry.after action.index).current.position.toNat =
          (entry.before action.index).current.position.toNat + length.toNat ∧
        length ≤ (entry.before action.index).remaining
  committed : ∀ index ptr length, entry.deed = .commitGet index ptr length →
    entry.result = true →
      (entry.after index).current.position.toNat =
          (entry.before index).current.position.toNat + length.toNat ∧
        length ≤ (entry.before index).remaining

structure Sound (system : System) : Prop where
  inside : ∀ index, Inside (system.bufs index)
  checked : ∀ entry ∈ system.trace, Checked entry

private theorem put_position {granted : Nat} {data : List UInt8} {other : LinkedBuffer}
    (hput : buf.put granted data = some (other, true)) :
    other.current.position = buf.current.position + UInt32.ofNat data.length := by
  unfold LinkedBuffer.put at hput
  dsimp only at hput
  split_ifs at hput
  · cases hput
  · split at hput
    · cases hput
    · rename_i grown hensure
      obtain ⟨⟨pos, chunks⟩, hadvance, hput⟩ := Option.bind_eq_some_iff.mp hput
      obtain ⟨rfl, -⟩ := Prod.mk.inj (Option.some.inj hput)
      exact (advance_position hadvance).trans (by rw [(ensure_grows hensure).current_eq])

private theorem skip_position {granted : Nat} {length : UInt32} {other : LinkedBuffer}
    (hskip : buf.skip granted length = some (other, true)) :
    other.current.position = buf.current.position + length := by
  unfold LinkedBuffer.skip at hskip
  split_ifs at hskip with hshort hwriting
  · cases hskip
  · split at hskip
    · cases hskip
    · rename_i grown hensure
      obtain ⟨⟨pos, chunks⟩, hadvance, hskip⟩ := Option.bind_eq_some_iff.mp hskip
      obtain ⟨rfl, -⟩ := Prod.mk.inj (Option.some.inj hskip)
      exact (advance_position hadvance).trans (by rw [(ensure_grows hensure).current_eq])
  · obtain ⟨⟨pos, chunks⟩, hadvance, hskip⟩ := Option.bind_eq_some_iff.mp hskip
    obtain ⟨rfl, -⟩ := Prod.mk.inj (Option.some.inj hskip)
    exact advance_position hadvance

private theorem getBuffer_position {target other into : LinkedBuffer} (hsource : Space.Standing buf)
    (htarget : Space.Standing target) {granted : Nat} {length : UInt32}
    (hready : Space.Ready target granted length.toNat)
    (hget : buf.getBuffer target granted length = some (other, into, true)) :
    into.current.position.toNat = target.current.position.toNat + length.toNat := by
  obtain ⟨⟨base, flat, hrefines⟩, hroom⟩ := hsource
  obtain ⟨⟨start, flatTarget, htargetRefines⟩, htargetRoom⟩ := htarget
  by_cases hmoves : flat.Readable length.toNat ∧ flatTarget.limit = none
  · obtain ⟨hread, hlimit⟩ := hmoves
    have hcheck := (hrefines.readable_iff length).mpr hread
    have hopen := (Space.invalid_eq htargetRefines).mpr hlimit
    obtain ⟨grown, ok, hensure, hgrown, hgrownRefines, husable, -⟩ :=
      Space.ensure_accounts htargetRefines granted length
    cases ok with
    | false =>
      simp [LinkedBuffer.getBuffer, hcheck, hopen, hensure] at hget
    | true =>
      obtain ⟨pos, current, bytes, hmoved, -, hfinal⟩ := hrefines.getBufferUsable htargetRefines
        hread hlimit hready.bounded hensure hgrown hgrownRefines (husable rfl)
      rw [hget] at hmoved
      obtain ⟨-, hinto⟩ := Prod.mk.inj (Option.some.inj hmoved)
      obtain ⟨rfl, -⟩ := Prod.mk.inj hinto
      have hwritten := hfinal.position
      have hposition := htargetRefines.position
      have hlength : (flat.read length.toNat).length = length.toNat := by
        simp [FlatBuffer.read]
      simp only [FlatBuffer.write, hlength] at hwritten
      rw [← hposition]
      exact hwritten.symm
  · rw [hrefines.getBufferRefused htargetRefines hmoves granted] at hget
    cases hget

private theorem transfer_position (hall : ∀ index, Space.Standing (bufs index))
    {source target number granted count : Nat} {length : UInt32} {after : Nat → LinkedBuffer}
    (hmoves : Space.writes.moves bufs source target length = some (number, count))
    (hready : Space.Ready (bufs number) granted count) {other into : LinkedBuffer}
    (hget : (bufs source).getBuffer (bufs target) granted length = some (other, into, true))
    (hafter : after = Function.update (Function.update bufs source other) target into) :
    (after number).current.position.toNat = (bufs number).current.position.toNat + count := by
  unfold Space.writes.moves at hmoves
  split_ifs at hmoves with hshort hopen
  obtain ⟨rfl, rfl⟩ := Prod.mk.inj (Option.some.inj hmoves)
  rw [hafter, Function.update_self]
  exact getBuffer_position (hall source) (hall target) hready hget

private theorem exec_written (hall : ∀ index, Space.Standing (bufs index)) {granted index : Nat}
    {call : Call} {after : Nat → LinkedBuffer} {reply : Reply} {target length : Nat}
    (hexec : LinkedBuffer.exec granted bufs index call = some (after, reply))
    (hwrites : Space.writes bufs index call = some (target, length))
    (hready : Space.Ready (bufs target) granted length) (hresult : reply.result = true) :
    (after target).current.position.toNat = (bufs target).current.position.toNat + length := by
  have hbounded := hready.bounded
  have hput : ∀ data : List UInt8, data.length = length → target = index →
      ∀ other result, (bufs index).put granted data = some (other, result) →
      after = Function.update bufs index other → result = true →
      (after target).current.position.toNat = (bufs target).current.position.toNat + length := by
    rintro data rfl rfl other result hput hafter rfl
    rw [hafter, Function.update_self, put_position hput, UInt32.toNat_add, UInt32.toNat_ofNat',
      Nat.mod_eq_of_lt (a := data.length) (by omega), Nat.mod_eq_of_lt (by omega)]
  unfold LinkedBuffer.exec at hexec
  unfold Space.writes at hwrites
  cases call with
  | put data =>
    simp only at hwrites
    split_ifs at hwrites
    obtain ⟨rfl, rfl⟩ := Prod.mk.inj (Option.some.inj hwrites)
    obtain ⟨⟨other, result⟩, hcall, hexec⟩ := Option.bind_eq_some_iff.mp hexec
    obtain ⟨rfl, rfl⟩ := Prod.mk.inj (Option.some.inj hexec)
    exact hput data rfl rfl other result hcall rfl hresult
  | putInt size number bigendian =>
    simp only at hwrites
    split_ifs at hwrites
    obtain ⟨rfl, rfl⟩ := Prod.mk.inj (Option.some.inj hwrites)
    obtain ⟨⟨other, result⟩, hcall, hexec⟩ := Option.bind_eq_some_iff.mp hexec
    obtain ⟨rfl, rfl⟩ := Prod.mk.inj (Option.some.inj hexec)
    rw [LinkedBuffer.putInt_eq] at hcall
    exact hput _ (by cases bigendian <;> simp [FlatBuffer.wire]) rfl other result hcall rfl hresult
  | skip count =>
    simp only at hwrites
    split_ifs at hwrites
    obtain ⟨rfl, rfl⟩ := Prod.mk.inj (Option.some.inj hwrites)
    obtain ⟨⟨other, result⟩, hcall, hexec⟩ := Option.bind_eq_some_iff.mp hexec
    obtain ⟨rfl, rfl⟩ := Prod.mk.inj (Option.some.inj hexec)
    obtain rfl : result = true := hresult
    rw [Function.update_self, skip_position hcall, UInt32.toNat_add, Nat.mod_eq_of_lt (by omega)]
  | getBuffer other count =>
    obtain ⟨⟨source, into, result⟩, hcall, hexec⟩ := Option.bind_eq_some_iff.mp hexec
    obtain ⟨rfl, rfl⟩ := Prod.mk.inj (Option.some.inj hexec)
    obtain rfl : result = true := hresult
    exact transfer_position hall hwrites hready hcall rfl
  | getAll other =>
    obtain ⟨⟨source, into, result⟩, hcall, hexec⟩ := Option.bind_eq_some_iff.mp hexec
    obtain ⟨rfl, rfl⟩ := Prod.mk.inj (Option.some.inj hexec)
    obtain rfl : result = true := hresult
    exact transfer_position hall hwrites hready hcall rfl
  | putBuffer other count =>
    obtain ⟨⟨source, into, result⟩, hcall, hexec⟩ := Option.bind_eq_some_iff.mp hexec
    obtain ⟨rfl, rfl⟩ := Prod.mk.inj (Option.some.inj hexec)
    obtain rfl : result = true := hresult
    exact transfer_position hall hwrites hready hcall rfl
  | putAll other =>
    obtain ⟨⟨source, into, result⟩, hcall, hexec⟩ := Option.bind_eq_some_iff.mp hexec
    obtain ⟨rfl, rfl⟩ := Prod.mk.inj (Option.some.inj hexec)
    obtain rfl : result = true := hresult
    exact transfer_position hall hwrites hready hcall rfl
  | get => cases hwrites
  | getInt => cases hwrites
  | peekInt => cases hwrites
  | mark => cases hwrites
  | reset => cases hwrites
  | rewind => cases hwrites
  | flip => cases hwrites
  | compact => cases hwrites
  | clear => cases hwrites

private theorem skip_reading (hstanding : Space.Standing buf) (hlimit : buf.limit.invalid = false)
    {granted : Nat} {length : UInt32} {other : LinkedBuffer}
    (hskip : buf.skip granted length = some (other, true)) :
    other.current.position.toNat = buf.current.position.toNat + length.toNat ∧
      length ≤ buf.remaining := by
  obtain ⟨⟨base, flat, hrefines⟩, -⟩ := hstanding
  have hshort : length ≤ buf.limit.position - buf.current.position := by
    refine UInt32.not_lt.mp fun hshort => ?_
    unfold LinkedBuffer.skip at hskip
    rw [hlimit, decide_eq_true hshort] at hskip
    cases hskip
  have hread : flat.Readable length.toNat := by
    refine (hrefines.readable_iff length).mp ?_
    rw [hlimit, Bool.false_or, decide_eq_false_iff_not, UInt32.not_lt]
    exact hshort
  obtain ⟨-, hfits⟩ := hrefines.room_of_readable hread
  refine ⟨?_, ?_⟩
  · rw [skip_position hskip, UInt32.toNat_add, Nat.mod_eq_of_lt hfits]
  · unfold LinkedBuffer.remaining
    rw [hlimit]
    exact hshort

theorem Inside.of_standing (hstanding : Space.Standing buf) : Inside buf := by
  refine ⟨hstanding.accounted, fun hvalid => ?_⟩
  obtain ⟨⟨base, flat, hrefines⟩, -⟩ := hstanding
  rcases hrefines.limit with ⟨hinvalid, -⟩ | ⟨-, hlimit⟩
  · rw [hinvalid] at hvalid
    cases hvalid
  · rw [UInt32.le_iff_toNat_le, ← hrefines.position]
    exact (hrefines.order _ hlimit).1

private theorem position_lt_room (hstanding : Space.Standing buf) :
    buf.zero.currBuf + buf.current.position.toNat < buf.room := by
  obtain ⟨⟨base, flat, hrefines⟩, -⟩ := hstanding
  have hinside := hrefines.current.inside
  rw [hrefines.chain.zero]
  exact hinside

private theorem perform_ask (hall : ∀ index, Space.Standing (bufs index)) {action : Space.Action}
    (hbounded : Bounded bufs (.ask action)) :
    ∃ after result, perform bufs (.ask action) = some (after, result) ∧
      (∀ index, Space.Standing (after index)) ∧ Checked ⟨bufs, .ask action, after, result⟩ := by
  obtain ⟨hfits, hnowrap⟩ := hbounded
  unfold Space.Bounded at hfits
  unfold Space.NoWrap at hnowrap
  cases hrequest : action.request with
  | call call =>
    rw [hrequest] at hfits hnowrap
    have hready : ∀ target length, Space.writes bufs action.index call = some (target, length) →
        Space.Ready (bufs target) action.granted length := fun target length hwrites =>
      ⟨hfits.2 target length hwrites, hnowrap target length hwrites⟩
    obtain ⟨after, reply, hexec, hfair⟩ := Space.fair_exec hall hfits.1 hready
    refine ⟨after, reply.result, ?_, fun index => (hfair index).standing, ?_, ?_, ?_⟩
    · simp only [perform, Space.answer, hrequest, hexec]
      rfl
    · rintro other call' target length ⟨⟩ hcall hwrites hresult
      obtain rfl : call = call' := Space.Request.call.inj (hrequest.symm.trans hcall)
      have hmoved := exec_written hall hexec hwrites (hready target length hwrites) hresult
      have hroom := position_lt_room (hfair target).standing
      refine ⟨hmoved, ?_⟩
      dsimp only at hmoved ⊢
      omega
    · rintro other length ⟨⟩ hcall hresult hvalid
      obtain rfl : call = .skip length := Space.Request.call.inj (hrequest.symm.trans hcall)
      obtain ⟨⟨next, result⟩, hskip, hafter⟩ := Option.bind_eq_some_iff.mp hexec
      obtain ⟨rfl, rfl⟩ := Prod.mk.inj (Option.some.inj hafter)
      obtain rfl : result = true := hresult
      have hskipped := skip_reading (hall action.index) hvalid hskip
      simp only [Function.update_self]
      exact hskipped
    · rintro index ptr length ⟨⟩
  | reserve size =>
    rw [hrequest] at hnowrap
    have hfair := Space.fair_reserve (hall action.index) hnowrap
    refine ⟨_, ((bufs action.index).reserve action.granted size).2, ?_,
      fun index => (Space.fair_update hall hfair index).standing, ?_, ?_, ?_⟩
    · simp only [perform, Space.answer, hrequest]
    · rintro other call' target length ⟨⟩ hcall
      rw [hrequest] at hcall
      cases hcall
    · rintro other length ⟨⟩ hcall
      rw [hrequest] at hcall
      cases hcall
    · rintro index ptr length ⟨⟩

private theorem perform_commitGet (hall : ∀ index, Space.Standing (bufs index)) {index : Nat}
    {ptr : Option Nat × Nat} {length : UInt32} (hsane : Sane bufs (.commitGet index ptr length)) :
    ∃ after result, perform bufs (.commitGet index ptr length) = some (after, result) ∧
      (∀ number, Space.Standing (after number)) ∧
      Checked ⟨bufs, .commitGet index ptr length, after, result⟩ := by
  have hrefused : (bufs index).commitGet ptr length = some (bufs index, false) →
      ∃ after result, perform bufs (.commitGet index ptr length) = some (after, result) ∧
        (∀ number, Space.Standing (after number)) ∧
        Checked ⟨bufs, .commitGet index ptr length, after, result⟩ := by
    intro hcommit
    refine ⟨_, false, ?_, hall, ?_, ?_, ?_⟩
    · simp only [perform, hcommit, Option.bind_eq_bind, Option.bind_some, Function.update_eq_self]
      rfl
    · rintro action call target count ⟨⟩
    · rintro action count ⟨⟩
    · rintro other otherPtr count ⟨⟩ hresult
      cases hresult
  cases hvalid : (bufs index).limit.invalid with
  | true => exact hrefused (by simp [LinkedBuffer.commitGet, hvalid])
  | false =>
    by_cases hptr : ((bufs index).current.block, (bufs index).current.currBuf) = ptr
    · obtain ⟨hlevel, hstraight⟩ := hsane hvalid hptr
      obtain ⟨⟨base, flat, hrefines⟩, hroom⟩ := hall index
      obtain ⟨limit, hlimit⟩ : ∃ limit, flat.limit = some limit := by
        have hinvalid := hrefines.limit.invalid
        rw [hvalid] at hinvalid
        exact Option.isSome_iff_exists.mp (by simpa using hinvalid.symm)
      rcases commitGet_spec hrefines hlimit hlevel hstraight with
        hcommit | ⟨pos, hcommit, hat, hmoved, hdata⟩
      · exact hrefused (hptr ▸ hcommit)
      · rw [hptr] at hcommit
        obtain ⟨hle, -, -, -, -, hposition⟩ := committed_of_length hrefines hlimit
          { bufs index with current := pos } hmoved hdata
        have horder : ∀ other, flat.limit = some other → pos.position.toNat ≤ other := by
          intro other hother
          rw [hlimit] at hother
          cases hother
          have hfrom := (hrefines.order limit hlimit).1
          have hat := hrefines.position
          dsimp only at hposition
          omega
        refine ⟨Function.update bufs index { bufs index with current := pos }, true, ?_,
          fun number => ?_, ?_, ?_, ?_⟩
        · simp only [perform, hcommit]
          rfl
        · by_cases heq : number = index
          · subst heq
            rw [Function.update_self]
            exact ⟨⟨base, _, hrefines.move hat horder⟩, hroom⟩
          · rw [Function.update_of_ne heq]
            exact hall number
        · rintro action call target count ⟨⟩
        · rintro action count ⟨⟩
        · rintro other otherPtr count ⟨⟩ -
          simp only [Function.update_self]
          exact ⟨hposition, hle⟩
    · exact hrefused (by simp [LinkedBuffer.commitGet, hvalid, hptr])

private theorem perform_sound (hall : ∀ index, Space.Standing (bufs index)) {deed : Deed}
    (hallowed : Bounded bufs deed ∧ Sane bufs deed) :
    ∃ after result, perform bufs deed = some (after, result) ∧
      (∀ index, Space.Standing (after index)) ∧ Checked ⟨bufs, deed, after, result⟩ := by
  cases deed with
  | ask action => exact perform_ask hall hallowed.1
  | commitGet index ptr length => exact perform_commitGet hall hallowed.2

/-- Every buffer stands for a flat array, and all deeds so far were checked properly. -/
def Inv (system : System) : Prop :=
  (∀ index, Space.Standing (system.bufs index)) ∧ ∀ entry ∈ system.trace, Checked entry

theorem Inv.sound {system : System} (hinv : Inv system) : Sound system :=
  ⟨fun index => .of_standing (hinv.1 index), hinv.2⟩

theorem Inv.step {system : System} {deed : Deed}
    (hallowed : Bounded system.bufs deed ∧ Sane system.bufs deed) (hinv : Inv system) :
    ∃ next, Access.step system deed = some next ∧ Inv next := by
  obtain ⟨after, result, hperform, hstanding, hchecked⟩ := perform_sound hinv.1 hallowed
  refine ⟨⟨after, system.trace ++ [⟨system.bufs, deed, after, result⟩]⟩, ?_, hstanding,
    Direct.forall_mem_snoc hinv.2 hchecked⟩
  unfold Access.step
  rw [hperform]
  rfl

theorem start_inv (blockSize : UInt32) (hsize : 1 ≤ blockSize)
    (bytes : Nat → Nat → Nat → UInt8) : Inv (start blockSize bytes) := by
  refine ⟨(Space.start_inv blockSize hsize bytes).standing, fun entry hentry => ?_⟩
  cases hentry

theorem run_inv {blockSize : UInt32} (hsize : 1 ≤ blockSize)
    {bytes : Nat → Nat → Nat → UInt8} {deeds : List Deed}
    (hdeeds : Along step (fun system deed => Bounded system.bufs deed ∧ Sane system.bufs deed)
      (start blockSize bytes) deeds) :
    ∃ final, run step (start blockSize bytes) deeds = some final ∧ Inv final :=
  run_along (fun _ _ hallowed hinv => Inv.step hallowed hinv) hdeeds
    (start_inv blockSize hsize bytes)

/-- In every reading state that such a run reaches, `direct_get` and `commit_get` serve
the next bytes in just the states and for just the lengths where cursor and limit are
level and the sum does not wrap. -/
theorem direct_reads_served (blockSize : UInt32) (hsize : 1 ≤ blockSize)
    (bytes : Nat → Nat → Nat → UInt8) (deeds : List Deed)
    (hdeeds : Along step (fun system deed => Bounded system.bufs deed ∧ Sane system.bufs deed)
      (start blockSize bytes) deeds) :
    ∃ final, run step (start blockSize bytes) deeds = some final ∧
      ∀ index, (final.bufs index).limit.invalid = false → ∀ length,
        Serves (final.bufs index) length ↔
          Level (final.bufs index) ∧ Straight (final.bufs index) length := by
  obtain ⟨final, hrun, hinv⟩ := run_inv hsize hdeeds
  refine ⟨final, hrun, fun index hvalid length => ?_⟩
  obtain ⟨⟨base, flat, hrefines⟩, -⟩ := hinv.1 index
  have hinvalid := hrefines.limit.invalid
  rw [hvalid] at hinvalid
  obtain ⟨limit, hlimit⟩ := Option.isSome_iff_exists.mp
    (show flat.limit.isSome = true by simpa using hinvalid.symm)
  exact serves_iff hrefines hlimit

/-- A commit after one in the same block, with blocks of four bytes. -/
theorem direct_reads_served_five : ∃ final,
    run step (start 4 fun _ _ _ => 0) [.ask ⟨0, 1, .call (.put [1, 2, 3, 4, 5])⟩,
        .ask ⟨0, 0, .call .flip⟩, .commitGet 0 (some 0, 0) 3] = some final ∧
      Serves (final.bufs 0) 1 := by
  have hdeeds : Along step (fun system deed => Bounded system.bufs deed ∧ Sane system.bufs deed)
      (start 4 fun _ _ _ => 0) [.ask ⟨0, 1, .call (.put [1, 2, 3, 4, 5])⟩,
        .ask ⟨0, 0, .call .flip⟩, .commitGet 0 (some 0, 0) 3] := by
    refine ⟨⟨⟨⟨by decide, ?_⟩, ?_⟩, trivial⟩, fun next hnext => ?_⟩
    · rintro target length hwrites
      cases hwrites
      decide
    · rintro target length hwrites
      cases hwrites
      exact ⟨1, by decide, by decide, .inl rfl⟩
    · obtain rfl : _ = next := Option.some.inj hnext
      refine ⟨⟨⟨⟨by decide, ?_⟩, ?_⟩, trivial⟩, fun next hnext => ?_⟩
      · rintro target length hwrites
        cases hwrites
      · rintro target length hwrites
        cases hwrites
      · obtain rfl : _ = next := Option.some.inj hnext
        exact ⟨⟨trivial, fun _ _ => ⟨by decide, by decide⟩⟩, fun _ _ => trivial⟩
  obtain ⟨final, hrun, hserves⟩ :=
    direct_reads_served 4 (by decide) (fun _ _ _ => 0) _ hdeeds
  refine ⟨final, hrun, ?_⟩
  obtain rfl : _ = final := Option.some.inj hrun
  exact (hserves 0 rfl 1).mpr ⟨by decide, by decide⟩

/-- Of 8177 bytes in blocks of 4088, 8176 are skipped over at once: the cursor is at the
end of the second block, and `direct_get` reports no bytes though there is one. -/
theorem border_not_served :
    ¬ ∀ (blockSize : UInt32) (bytes : Nat → Nat → Nat → UInt8) (deeds : List Deed)
      (final : System) (index : Nat) (length : UInt32), 1 ≤ blockSize →
      Along step (fun system deed => Bounded system.bufs deed) (start blockSize bytes) deeds →
      run step (start blockSize bytes) deeds = some final →
      (final.bufs index).limit.invalid = false → Serves (final.bufs index) length := by
  intro hall
  have hdeeds : Along step (fun system deed => Bounded system.bufs deed)
      (start 4088 fun _ _ _ => 0) [.ask ⟨0, 2, .call (.skip 8177)⟩, .ask ⟨0, 0, .call .flip⟩,
        .ask ⟨0, 0, .call (.skip 8176)⟩] := by
    refine ⟨⟨⟨by decide, ?_⟩, ?_⟩, fun next hnext => ?_⟩
    · rintro target length hwrites
      cases hwrites
      decide
    · rintro target length hwrites
      cases hwrites
      exact ⟨2, by decide, by decide, .inl rfl⟩
    · obtain rfl : _ = next := Option.some.inj hnext
      refine ⟨⟨⟨by decide, ?_⟩, ?_⟩, fun next hnext => ?_⟩
      · rintro target length hwrites
        cases hwrites
      · rintro target length hwrites
        cases hwrites
      · obtain rfl : _ = next := Option.some.inj hnext
        refine ⟨⟨⟨by decide, ?_⟩, ?_⟩, fun _ _ => trivial⟩
        · rintro target length hwrites
          cases hwrites
        · rintro target length hwrites
          cases hwrites
  obtain ⟨final, hrun⟩ : ∃ final, run step (start 4088 fun _ _ _ => 0)
      [.ask ⟨0, 2, .call (.skip 8177)⟩, .ask ⟨0, 0, .call .flip⟩,
        .ask ⟨0, 0, .call (.skip 8176)⟩] = some final := ⟨_, rfl⟩
  have hserves := hall 4088 (fun _ _ _ => 0) _ final 0 0 (by decide) hdeeds hrun
  obtain rfl : _ = final := Option.some.inj hrun
  obtain ⟨block, limitLength, hdirect, -, hsome, -⟩ := (hserves rfl).offered
  have hlength : limitLength = 0 := ((Prod.mk.inj (Option.some.inj hdirect)).2).symm
  rw [hlength] at hsome
  exact absurd (hsome (by decide)) (by decide)

/-- As long as the sums in them do not wrap, the length checks of a `buffer` and of any
number of linked buffers let through what there is space or data for, and no more. -/
theorem length_checks_sound (heap : Heap) (blockSize : UInt32)
    (bytes : Nat → Nat → Nat → UInt8) (hsize : 1 ≤ blockSize) :
    (∀ (exponent : Nat) (first : Direct.System) (deeds : List Direct.Deed),
      blockSize.toNat = 2 ^ exponent → Direct.start heap blockSize = some first →
      Along (Direct.step heap) (fun system deed => Direct.Bounded system.buffer deed ∧
        Direct.Accepted system.buffer deed ∧ Direct.InOrder system.buffer deed) first deeds →
      ∃ final, run (Direct.step heap) first deeds = some final ∧ Direct.Sound final) ∧
    ∀ deeds : List Deed,
      Along step (fun system deed => Bounded system.bufs deed ∧ Sane system.bufs deed)
        (start blockSize bytes) deeds →
      ∃ final, run step (start blockSize bytes) deeds = some final ∧ Sound final := by
  refine ⟨fun exponent first deeds hblock hstart hdeeds =>
    Direct.lengths_checked hblock hstart hdeeds, fun deeds hdeeds => ?_⟩
  obtain ⟨final, hrun, hinv⟩ := run_inv hsize hdeeds
  exact ⟨final, hrun, hinv.sound⟩

/-- Blocks of four bytes. One byte put and room for four prepared; one byte skipped. -/
theorem length_checks_sound_one :
    (∃ first final, Direct.start Contiguous.zeroHeap 4 = some first ∧
      run (Direct.step Contiguous.zeroHeap) first
        [.call (.put [1]), .directPut 4, .commitPut 1 [2, 3]] = some final ∧
      final.buffer.current = 3 ∧ Direct.Sound final) ∧
    ∃ final, run step (start 4 fun _ _ _ => 0) [.ask ⟨0, 1, .call (.skip 4)⟩] = some final ∧
      (final.bufs 0).current.position = 4 ∧ Sound final := by
  refine ⟨?_, ?_⟩
  · obtain ⟨first, hstart⟩ : ∃ first, Direct.start Contiguous.zeroHeap 4 = some first :=
      ⟨_, rfl⟩
    obtain ⟨final, hrun, hsound⟩ := (length_checks_sound Contiguous.zeroHeap 4
      (fun _ _ _ => 0) (by decide)).1 2 first
      [.call (.put [1]), .directPut 4, .commitPut 1 [2, 3]] (by decide) hstart (by
        obtain rfl : _ = first := Option.some.inj hstart
        decide +kernel)
    refine ⟨first, final, hstart, hrun, ?_, hsound⟩
    obtain rfl : _ = first := Option.some.inj hstart
    obtain rfl : _ = final := Option.some.inj hrun
    rfl
  · obtain ⟨final, hrun, hsound⟩ := (length_checks_sound Contiguous.zeroHeap 4
      (fun _ _ _ => 0) (by decide)).2
      [.ask ⟨0, 1, .call (.skip 4)⟩] ⟨⟨⟨⟨by decide, by
        rintro target length hwrites
        cases hwrites
        decide⟩, by
        rintro target length hwrites
        cases hwrites
        exact ⟨1, by decide, by decide, .inl rfl⟩⟩, trivial⟩, fun _ _ => trivial⟩
    refine ⟨final, hrun, ?_, hsound⟩
    obtain rfl : _ = final := Option.some.inj hrun
    rfl

/-- A length of 2^32 - 1 from the wire moves the cursor of a `buffer` one byte back. A
`linked_buffer` that has read three of five bytes accepts 2^32 - 3 more and stands at
the start again. -/
theorem length_checks_wrap :
    (¬ ∀ (heap : Heap) (blockSize : UInt32) (exponent : Nat) (first : Direct.System)
        (deeds : List Direct.Deed), blockSize.toNat = 2 ^ exponent →
      Direct.start heap blockSize = some first →
      Along (Direct.step heap) (fun system deed => Direct.Accepted system.buffer deed ∧
        Direct.InOrder system.buffer deed) first deeds →
      ∀ final, run (Direct.step heap) first deeds = some final → Direct.Sound final) ∧
    ¬ ∀ (blockSize : UInt32) (bytes : Nat → Nat → Nat → UInt8) (deeds : List Deed),
      1 ≤ blockSize →
      ∀ final, run step (start blockSize bytes) deeds = some final → Sound final := by
  refine ⟨fun hall => ?_, fun hall => ?_⟩
  · obtain ⟨first, hstart⟩ : ∃ first, Direct.start Contiguous.zeroHeap 4096 = some first :=
      ⟨_, rfl⟩
    obtain ⟨final, hrun⟩ : ∃ final, run (Direct.step Contiguous.zeroHeap) first
        [.call (.put [1, 2, 3, 4, 5]), .call (.skip 0xFFFFFFFF)] = some final := by
      obtain rfl : _ = first := Option.some.inj hstart
      exact ⟨_, rfl⟩
    have hsound := hall Contiguous.zeroHeap 4096 12 first _ (by decide) hstart (by
      obtain rfl : _ = first := Option.some.inj hstart
      decide +kernel) final hrun
    obtain rfl : _ = first := Option.some.inj hstart
    obtain rfl : _ = final := Option.some.inj hrun
    have hmoved := (hsound.checked _ (List.mem_cons_of_mem _ List.mem_cons_self)).moved
      0xFFFFFFFF rfl rfl
    exact absurd hmoved (by decide)
  · obtain ⟨final, hrun⟩ : ∃ final, run step (start 4088 fun _ _ _ => 0)
        [.ask ⟨0, 0, .call (.put [1, 2, 3, 4, 5])⟩, .ask ⟨0, 0, .call .flip⟩,
          .commitGet 0 (some 0, 0) 3, .commitGet 0 (some 0, 3) 0xFFFFFFFD] = some final := ⟨_, rfl⟩
    have hsound := hall 4088 (fun _ _ _ => 0) _ (by decide) final hrun
    obtain rfl : _ = final := Option.some.inj hrun
    have hmoved := (hsound.checked _ (List.mem_cons_of_mem _ (List.mem_cons_of_mem _
      (List.mem_cons_of_mem _ List.mem_cons_self)))).committed 0 (some 0, 3) 0xFFFFFFFD rfl rfl
    exact absurd hmoved.1 (by decide)

end Libsax.Net.Access
