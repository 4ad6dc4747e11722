import Libsax.Net.LinkedBufferSpace
import Libsax.Net.TransportStream

/-! What `transport::send` says of a send: whether its result tells that all bytes
were taken, when the socket answers anything and the write buffer may not grow. -/
namespace Libsax.Net

open Libsax.Lib

namespace LinkedBuffer

variable {buf other : LinkedBuffer} {base : Nat} {flat : FlatBuffer} {data more : List UInt8}

private theorem walkLoop_leaves (hnodup : buf.bufList.Nodup) {fuel : Nat} (pos : Pos)
    {number block : Nat} (remaining : UInt32) (hpos : pos.block = some block)
    (hblock : buf.bufList[number]? = some block)
    (hroom : buf.room < (number + 1) * buf.blockSize.toNat + remaining.toNat) :
    buf.walkLoop fuel pos remaining = none := by
  induction fuel generalizing pos number block remaining with
  | zero => rfl
  | succ fuel ih =>
    have hnext := next_eq hnodup hblock
    by_cases hlast : number + 1 < buf.bufList.length
    · obtain ⟨following, hfollowing⟩ : ∃ following, buf.bufList[number + 1]? = some following :=
        ⟨_, List.getElem?_eq_getElem hlast⟩
      have hinside := Nat.mul_le_mul_right buf.blockSize.toNat hlast
      have hsucc : (number + 1 + 1) * buf.blockSize.toNat =
          (number + 1) * buf.blockSize.toNat + buf.blockSize.toNat := Nat.succ_mul _ _
      change (number + 1 + 1) * _ ≤ buf.room at hinside
      have hlong : buf.blockSize.toNat < remaining.toNat := by omega
      have hrest : (remaining - buf.blockSize).toNat = remaining.toNat - buf.blockSize.toNat :=
        UInt32.toNat_sub_of_le _ _ (UInt32.le_iff_toNat_le.mpr (Nat.le_of_lt hlong))
      have hloop := ih { pos with
          block := some following
          currBuf := buf.blockSize.toNat
          remaining := buf.blockSize - buf.blockSize }
        (remaining - buf.blockSize) rfl hfollowing (by omega)
      simp only [walkLoop, hpos, hnext, hfollowing, Option.bind_eq_bind, Option.bind_some,
        gt_iff_lt, UInt32.lt_iff_toNat_lt]
      rw [if_pos hlong, if_pos (by rw [hrest]; change 0 < _; omega), hloop]
      rfl
    · simp only [walkLoop, hpos, hnext, List.getElem?_eq_none (Nat.le_of_not_lt hlast),
        Option.bind_eq_bind, Option.bind_some, Option.bind_none]

theorem At.advance_leaves (hnodup : buf.bufList.Nodup) (hcurrent : buf.At base buf.current)
    (length : UInt32)
    (hroom : buf.room < base + buf.current.position.toNat + length.toNat) :
    buf.advance length = none := by
  obtain ⟨number, block, hcursor⟩ := hcurrent
  have hsplit := hcursor.split
  have hindex := hcursor.index
  have hinside := Nat.mul_le_mul_right buf.blockSize.toNat
    (List.getElem?_eq_some_iff.mp hcursor.inChain).1
  have hsucc : (number + 1) * buf.blockSize.toNat =
      number * buf.blockSize.toNat + buf.blockSize.toNat := Nat.succ_mul _ _
  change (number + 1) * _ ≤ buf.room at hinside
  have hlong : ¬ length < buf.current.remaining := by
    rw [UInt32.lt_iff_toNat_lt]
    omega
  have hrest : (length - buf.current.remaining).toNat =
      length.toNat - buf.current.remaining.toNat :=
    UInt32.toNat_sub_of_le _ _ (UInt32.not_lt.mp hlong)
  have hwalk : buf.walkLoop ((length - buf.current.remaining).toNat + 1) buf.current
      (length - buf.current.remaining) = none :=
    walkLoop_leaves hnodup buf.current _ hcursor.block hcursor.inChain (by omega)
  simp only [LinkedBuffer.advance, hcursor.block, Option.bind_eq_bind, Option.bind_some]
  rw [if_neg hlong, hwalk]
  rfl

theorem Holds.put_cases (hholds : buf.Holds data) (hroom : buf.room < 2 ^ 32 - 1)
    (hmore : more.length < 2 ^ 31) (memory : Nat) :
    2 ^ 32 - 1 ≤ data.length + more.length ∧ buf.put memory more = none ∨
    data.length + more.length < 2 ^ 32 - 1 ∧ ∃ other,
      buf.put memory more =
        some (other, (buf.ensure memory (UInt32.ofNat more.length)).2) ∧
      other.Holds (if (buf.ensure memory (UInt32.ofNat more.length)).2 then data ++ more
        else data) := by
  have hheld := hholds.position
  have hsize := hholds.start
  obtain ⟨base, flat, hrefines, hlimit, hposition, hcells⟩ := hholds.refines
  have hinvalid : buf.limit.invalid = true := by
    rw [hrefines.limit.invalid, hlimit]
    rfl
  have hlength : (UInt32.ofNat more.length).toNat = more.length := by
    rw [UInt32.toNat_ofNat', Nat.mod_eq_of_lt (by omega)]
  rw [hrefines.zero_currBuf] at hsize
  rcases Nat.lt_or_ge (data.length + more.length) (2 ^ 32 - 1) with hfits | hwraps
  · right
    refine ⟨hfits, ?_⟩
    obtain ⟨grown, ok, hensure, hgrown, hgrownRefines, husable, -⟩ :=
      Space.ensure_accounts hrefines memory (UInt32.ofNat more.length)
    have hsame : grown.current = buf.current ∧ grown.blockSize = buf.blockSize :=
      ⟨hgrown.current_eq, hgrown.blockSize_eq⟩
    rw [hensure]
    cases ok with
    | false =>
      refine ⟨grown, ?_, ?_, base, flat, hgrownRefines, hlimit, hposition, hcells⟩
      · simp [LinkedBuffer.put, hinvalid, hensure]
      · rw [hgrownRefines.zero_currBuf, hsame.2]
        exact hsize
    | true =>
      obtain ⟨pos, bytes, hput, -, hfinal⟩ := hgrownRefines.putUsable hlimit (agree_some more)
        (by rw [hsame.1]; omega) (husable rfl)
      refine ⟨_, ?_, holds_written ?_ hfinal hlimit hposition hcells⟩
      · rw [put_of_ensure hinvalid hgrown hensure (husable rfl)]
        exact hput memory
      · change base < grown.blockSize.toNat
        rw [hsame.2]
        exact hsize
  · left
    refine ⟨hwraps, ?_⟩
    obtain ⟨number, block, hcursor⟩ := id hrefines.current
    have hinside : base + buf.current.position.toNat < buf.room := hcursor.inside
    have husable : buf.usable.toNat = buf.room - base := by
      rw [hrefines.chain.usable, UInt32.toNat_ofNat', Nat.mod_eq_of_lt (by omega)]
    have hsum : (buf.current.position + UInt32.ofNat more.length + 1).toNat =
        data.length + more.length + 1 - 2 ^ 32 := by
      rw [UInt32.toNat_add, UInt32.toNat_add, hlength, hheld]
      change ((data.length + more.length) % 2 ^ 32 + 1) % 2 ^ 32 = _
      omega
    have hensure : buf.ensure memory (UInt32.ofNat more.length) = (buf, true) :=
      ensure_of_usable (UInt32.le_iff_toNat_le.mpr (by omega)) memory
    have hadvance := hrefines.current.advance_leaves hrefines.chain.nodup
      (UInt32.ofNat more.length) (by omega)
    simp [LinkedBuffer.put, hinvalid, hensure, hadvance]

theorem Holds.ensure_zero (hholds : buf.Holds data) (hroom : buf.room < 2 ^ 32 - 1)
    (memory : Nat) : (buf.ensure memory (UInt32.ofNat 0)).2 = true := by
  obtain ⟨base, flat, hrefines, -, -, -⟩ := hholds.refines
  obtain ⟨number, block, hcursor⟩ := id hrefines.current
  have hinside : base + buf.current.position.toNat < buf.room := hcursor.inside
  have husable : buf.usable.toNat = buf.room - base := by
    rw [hrefines.chain.usable, UInt32.toNat_ofNat', Nat.mod_eq_of_lt (by omega)]
  have hsum := toNat_sum buf.current.position (UInt32.ofNat 0) (by
    change buf.current.position.toNat + 0 < _
    omega)
  change _ = buf.current.position.toNat + 0 + 1 at hsum
  rw [ensure_of_usable (UInt32.le_iff_toNat_le.mpr (by omega)) memory]

end LinkedBuffer

namespace Transport

def waiting (t : Transport) (fd : Nat) : List UInt8 :=
  match (t.ctx fd).writeBuf with
  | none => []
  | some buf => buf.content

/-- The bytes taken and queued are the first ones of the buffer, and there is a result,
which tells whether they are all. -/
def Sent.Truthful (t : Transport) (fd : Nat) (data : List UInt8) (sent : Sent) : Prop :=
  ∃ queued, sent.transport.waiting fd = t.waiting fd ++ queued ∧
    sent.written ++ queued <+: data ∧
    ∃ result, sent.result = some result ∧ (result = true ↔ sent.written ++ queued = data)

/-- That holds whatever byte is in front of the buffer. -/
def Truthful (t : Transport) (tid : Id) (data : List UInt8) (memory : Nat)
    (calls : List SysCall) : Prop :=
  ∀ stray, ∃ sent, t.send tid data data.length stray memory calls = some sent ∧
    sent.Truthful t tid.fd data

/-- A write buffer that holds `data`, or none. Its blocks have less than 2^32 - 1
bytes together. -/
structure Waits (t : Transport) (fd : Nat) (data : List UInt8) : Prop where
  size : 1 ≤ t.blockSize
  carries : Carries t fd data
  room : ((t.ctx fd).writeBuf.getD t.newBuffer).room < 2 ^ 32 - 1

/-- The socket fails for good before it has taken `left` bytes. -/
def fails : Nat → List SysCall → Bool
  | _, [] => false
  | left, call :: rest =>
    if 0 ≤ call.taken left then
      decide ((call.taken left).toNat < left) && fails (left - (call.taken left).toNat) rest
    else !retry call.errno || fails left rest

/-- The socket takes `left` bytes or fails for good. -/
def finishes : Nat → List SysCall → Bool
  | _, [] => false
  | left, call :: rest =>
    if 0 ≤ call.taken left then
      !decide ((call.taken left).toNat < left) || finishes (left - (call.taken left).toNat) rest
    else !retry call.errno || finishes left rest

/-- The write buffer, or the one block of a new one, has no space for `length` bytes and
the blocks that are left make none. -/
def refused (t : Transport) (fd memory length : Nat) : Bool :=
  (t.writeBuffer fd memory).any fun (buf, memory) => !(buf.ensure memory (UInt32.ofNat length)).2

/-- When `send` keeps its word. A write buffer that is needed must be there or find a
block. Where it would have to grow and cannot, the socket must break off the blocking
send: before all of the rest is out, or before anything is if the direct write was not
taken at all. -/
def Favourable (t : Transport) (tid : Id) (data : List UInt8) (memory : Nat) (first : SysCall)
    (calls : List SysCall) : Prop :=
  if t.sendable tid data.length = false then data ≠ []
  else if t.waiting tid.fd ≠ [] then
    (t.waiting tid.fd).length + data.length < 2 ^ 32 - 1 ∧
      t.refused tid.fd memory data.length = false
  else if 0 ≤ first.ret then
    first.ret < data.length → (t.writeBuffer tid.fd memory).isSome = true ∧
      (t.refused tid.fd memory (data.length - first.ret.toNat) = true →
        fails (data.length - first.ret.toNat) calls = true)
  else if retry first.errno then (t.writeBuffer tid.fd memory).isSome = true ∧
    (t.refused tid.fd memory data.length = true → fails 1 calls = true)
  else data ≠ []

section Answers

variable {call : SysCall} {left : Nat}

theorem taken_full (hfull : (left : Int) ≤ call.ret) : call.taken left = left := by
  unfold SysCall.taken
  omega

private theorem taken_part (hpart : call.ret < (left : Int)) : call.taken left = call.ret := by
  unfold SysCall.taken
  omega

private theorem fails_full (hfull : (left : Int) ≤ call.ret) (rest : List SysCall) :
    fails left (call :: rest) = false := by
  simp [fails, taken_full hfull]

private theorem fails_part (hret : 0 ≤ call.ret) (hpart : call.ret < (left : Int))
    (rest : List SysCall) : fails left (call :: rest) = fails (left - call.ret.toNat) rest := by
  have hless : call.ret.toNat < left := by omega
  simp [fails, taken_part hpart, hret, hless]

private theorem fails_error (hret : call.ret < 0) (rest : List SysCall) :
    fails left (call :: rest) = (!retry call.errno || fails left rest) := by
  simp [fails, taken_part (show call.ret < (left : Int) by omega), Int.not_le.mpr hret]

private theorem finishes_full (hfull : (left : Int) ≤ call.ret) (rest : List SysCall) :
    finishes left (call :: rest) = true := by
  simp [finishes, taken_full hfull]

private theorem finishes_part (hret : 0 ≤ call.ret) (hpart : call.ret < (left : Int))
    (rest : List SysCall) :
    finishes left (call :: rest) = finishes (left - call.ret.toNat) rest := by
  have hless : call.ret.toNat < left := by omega
  simp [finishes, taken_part hpart, hret, hless]

private theorem finishes_error (hret : call.ret < 0) (rest : List SysCall) :
    finishes left (call :: rest) = (!retry call.errno || finishes left rest) := by
  simp [finishes, taken_part (show call.ret < (left : Int) by omega), Int.not_le.mpr hret]

end Answers

private theorem finishes_mono {left less : Nat} (hle : less ≤ left) {calls : List SysCall}
    (hfinishes : finishes left calls = true) : finishes less calls = true := by
  induction calls generalizing left less with
  | nil => cases hfinishes
  | cons call rest ih =>
    by_cases hret : 0 ≤ call.ret
    · by_cases hless : (less : Int) ≤ call.ret
      · exact finishes_full hless rest
      · rw [finishes_part hret (by omega)] at hfinishes ⊢
        exact ih (by omega) hfinishes
    · rw [finishes_error (by omega)] at hfinishes ⊢
      simp only [Bool.or_eq_true] at hfinishes ⊢
      exact hfinishes.imp_right (ih hle)

/-- The loop ends when the socket lets it. What is out by then is a prefix: all of
the bytes unless the socket fails before, and none if it fails before the first. -/
private theorem blockingSend_spec {calls : List SysCall} {data : List UInt8} (hdata : data ≠ [])
    (hfinishes : finishes data.length calls = true) :
    ∃ written, blockingSend data calls = some written ∧ written <+: data ∧
      (written = data ↔ fails data.length calls = false) ∧
      (written = [] ↔ fails 1 calls = true) := by
  induction calls generalizing data with
  | nil => cases hfinishes
  | cons call rest ih =>
    have hlength := List.length_pos_of_ne_nil hdata
    rcases Int.lt_or_le call.ret 0 with herror | hret
    · -- nothing is taken, and the loop goes round again if the error is a passing one
      rw [finishes_error herror] at hfinishes
      rw [blockingSend, fails_error herror, fails_error herror, taken_part (by omega),
        if_neg (Int.not_le.mpr herror)]
      cases hretry : retry call.errno with
      | false => exact ⟨[], rfl, List.nil_prefix, by simpa using hdata.symm, by simp⟩
      | true =>
        rw [hretry] at hfinishes
        simpa using ih hdata (by simpa using hfinishes)
    · rcases Int.lt_or_le call.ret data.length with hpart | hfull
      · have hless : call.ret.toNat < data.length := by omega
        have hrest : data.drop call.ret.toNat ≠ [] := by
          simpa [List.drop_eq_nil_iff] using hless
        have hleft : (data.drop call.ret.toNat).length = data.length - call.ret.toNat :=
          List.length_drop
        rw [finishes_part hret hpart, ← hleft] at hfinishes
        obtain ⟨written, hwritten, hprefix, hall, hnone⟩ := ih hrest hfinishes
        rw [blockingSend, fails_part hret hpart, taken_part hpart, if_pos hret, if_pos hpart,
          hwritten]
        refine ⟨data.take call.ret.toNat ++ written, rfl, ?_, ?_, ?_⟩
        · nth_rewrite 2 [← List.take_append_drop call.ret.toNat data]
          exact (List.prefix_append_right_inj _).mpr hprefix
        · rw [← hleft, ← hall]
          nth_rewrite 2 [← List.take_append_drop call.ret.toNat data]
          exact List.append_right_inj _
        · rcases Int.lt_or_eq_of_le hret with hpos | hzero
          · rw [fails_full (by omega)]
            simp [hdata]
            omega
          · rw [fails_part hret (by omega), ← hzero]
            simpa using hnone
      · rw [blockingSend, fails_full hfull, fails_full (by omega), taken_full hfull,
          if_pos (by omega), if_neg (by omega)]
        exact ⟨data, rfl, List.prefix_rfl, by simp, by simpa using hdata⟩

theorem Carries.waiting {t : Transport} {fd : Nat} {data : List UInt8}
    (hcarries : Carries t fd data) : t.waiting fd = data :=
  Carries.outstanding (s := ⟨t, [], []⟩) hcarries

section Sends

variable {t : Transport} {fd : Nat} {held data rest : List UInt8} {memory : Nat}

theorem Waits.holds (hwaits : Waits t fd held) :
    ((t.ctx fd).writeBuf.getD t.newBuffer).Holds held :=
  hwaits.carries.getD (UInt32.le_iff_toNat_le.mp hwaits.size)

private theorem writeBuffer_cases (t : Transport) (fd memory : Nat) :
    t.writeBuffer fd memory = none ∨ ∃ left,
      t.writeBuffer fd memory = some ((t.ctx fd).writeBuf.getD t.newBuffer, left) := by
  unfold Transport.writeBuffer
  split
  · exact .inr ⟨_, by rw [‹(t.ctx fd).writeBuf = _›]; rfl⟩
  · exact .inl rfl
  · exact .inr ⟨_, by rw [‹(t.ctx fd).writeBuf = _›]; rfl⟩

private theorem refused_eq {buf : LinkedBuffer} {left : Nat}
    (hbuffer : t.writeBuffer fd memory = some (buf, left)) (length : Nat) :
    t.refused fd memory length = !(buf.ensure left (UInt32.ofNat length)).2 := by
  unfold refused
  rw [hbuffer]
  rfl

theorem Waits.refused_nonempty (hwaits : Waits t fd held)
    (hrefused : t.refused fd memory data.length = true) : data ≠ [] := by
  rintro rfl
  rcases writeBuffer_cases t fd memory with hnone | ⟨left, hbuffer⟩
  · unfold refused at hrefused
    rw [hnone] at hrefused
    cases hrefused
  · have hzero := hwaits.holds.ensure_zero hwaits.room left
    rw [refused_eq hbuffer, List.length_nil, hzero] at hrefused
    cases hrefused

private theorem truthful_iff (hwaits : Waits t fd held) {sent : Sent} {queued : List UInt8}
    (hafter : Carries sent.transport fd (held ++ queued)) :
    sent.Truthful t fd data ↔ sent.written ++ queued <+: data ∧
      ∃ result, sent.result = some result ∧ (result = true ↔ sent.written ++ queued = data) := by
  unfold Sent.Truthful
  rw [hafter.waiting, hwaits.carries.waiting]
  constructor
  · rintro ⟨other, hsame, htruth⟩
    obtain rfl : queued = other := List.append_cancel_left hsame
    exact htruth
  · intro htruth
    exact ⟨queued, rfl, htruth⟩

theorem Waits.queue (hwaits : Waits t fd held) (hrest : rest.length < 2 ^ 31)
    (hfits : held.length + rest.length < 2 ^ 32 - 1)
    (hbuffer : (t.writeBuffer fd memory).isSome = true)
    (hroom : t.refused fd memory rest.length = false) (offset : List UInt8)
    (calls : List SysCall) (written : List UInt8) (callback : Option Nat) :
    ∃ u, t.queue fd rest offset memory calls written callback =
        some ⟨u, some true, written, callback⟩ ∧ Carries u fd (held ++ rest) := by
  rcases writeBuffer_cases t fd memory with hnone | ⟨left, hsome⟩
  · rw [hnone] at hbuffer
    cases hbuffer
  rcases hwaits.holds.put_cases hwaits.room hrest left with ⟨hwraps, -⟩ | ⟨-, buf, hput, hholds⟩
  · omega
  · rw [refused_eq hsome, Bool.not_eq_false'] at hroom
    rw [hroom] at hput hholds
    unfold Transport.queue
    simp only [hsome, hput, Option.bind_eq_bind, Option.bind_some]
    exact ⟨_, rfl, .inr ⟨buf, by simp, hholds⟩⟩

theorem Waits.queueRefused (hwaits : Waits t fd held) (hrest : rest.length < 2 ^ 31)
    (hfits : held.length + rest.length < 2 ^ 32 - 1)
    (hrefused : t.refused fd memory rest.length = true) {offset blocking : List UInt8}
    {calls : List SysCall} (hblocking : blockingSend offset calls = some blocking)
    (written : List UInt8) (callback : Option Nat) :
    ∃ u, t.queue fd rest offset memory calls written callback =
        some ⟨u, some false, written ++ blocking, none⟩ ∧ Carries u fd held := by
  rcases writeBuffer_cases t fd memory with hnone | ⟨left, hsome⟩
  · unfold refused at hrefused
    rw [hnone] at hrefused
    cases hrefused
  rcases hwaits.holds.put_cases hwaits.room hrest left with ⟨hwraps, -⟩ | ⟨-, buf, hput, hholds⟩
  · omega
  · rw [refused_eq hsome, Bool.not_eq_true'] at hrefused
    rw [hrefused] at hput hholds
    unfold Transport.queue
    simp only [hsome, hput, hblocking, Option.bind_eq_bind, Option.bind_some]
    exact ⟨_, rfl, .inr ⟨buf, by simp, hholds⟩⟩

private theorem queue_throws (hnone : (t.writeBuffer fd memory).isSome = false)
    (offset : List UInt8)
    (calls : List SysCall) (written : List UInt8) (callback : Option Nat) :
    t.queue fd rest offset memory calls written callback = some ⟨t, none, written, none⟩ := by
  unfold Transport.queue
  rw [Option.isSome_eq_false_iff.mp hnone |> Option.isNone_iff_eq_none.mp]

/-- Truth of the direct write, whatever byte is in front of the buffer. -/
def DirectTruthful (t : Transport) (fd : Nat) (data : List UInt8) (memory : Nat)
    (first : SysCall) (calls : List SysCall) : Prop :=
  ∀ stray, ∃ sent, t.sendDirect fd data stray memory first calls = some sent ∧
    sent.Truthful t fd data

variable {first : SysCall} {calls : List SysCall}

private theorem direct_iff (hwaits : Waits t fd []) {sent : UInt8 → Sent} {queued : List UInt8}
    (hdirect : ∀ stray, t.sendDirect fd data stray memory first calls = some (sent stray))
    (hafter : ∀ stray, Carries (sent stray).transport fd queued) :
    DirectTruthful t fd data memory first calls ↔ ∀ stray,
      (sent stray).written ++ queued <+: data ∧ ∃ result,
        (sent stray).result = some result ∧
          (result = true ↔ (sent stray).written ++ queued = data) := by
  refine forall_congr' fun stray => ?_
  rw [hdirect stray]
  constructor
  · rintro ⟨other, hsame, htruth⟩
    obtain rfl : _ = other := Option.some.inj hsame
    exact (truthful_iff hwaits (hafter stray)).mp htruth
  · exact fun htruth => ⟨_, rfl, (truthful_iff hwaits (hafter stray)).mpr htruth⟩

theorem Waits.direct_whole (hwaits : Waits t fd []) (hfull : (data.length : Int) ≤ first.ret) :
    DirectTruthful t fd data memory first calls := by
  have hdirect : ∀ stray, t.sendDirect fd data stray memory first calls =
      some ⟨t, some true, data, some data.length⟩ := by
    intro stray
    unfold Transport.sendDirect
    rw [taken_full hfull, if_pos (by omega)]
    dsimp only
    rw [if_neg (by omega)]
    rfl
  rw [direct_iff hwaits hdirect fun _ => hwaits.carries]
  simp

theorem Waits.direct_broken (hwaits : Waits t fd []) (hret : first.ret < 0)
    (hretry : retry first.errno = false) :
    DirectTruthful t fd data memory first calls ↔ data ≠ [] := by
  have hdirect : ∀ stray, t.sendDirect fd data stray memory first calls =
      some ⟨t, some false, [], none⟩ := by
    intro stray
    unfold Transport.sendDirect
    rw [taken_part (by omega), if_neg (Int.not_le.mpr hret), hretry]
    rfl
  rw [direct_iff hwaits hdirect fun _ => hwaits.carries]
  simp [eq_comm]

theorem Waits.direct_part (hwaits : Waits t fd []) (hlength : data.length < 2 ^ 31)
    (hret : 0 ≤ first.ret) (hpart : first.ret < data.length)
    (hfinishes : finishes data.length calls = true) :
    DirectTruthful t fd data memory first calls ↔ (t.writeBuffer fd memory).isSome = true ∧
      (t.refused fd memory (data.length - first.ret.toNat) = true →
        fails (data.length - first.ret.toNat) calls = true) := by
  have hless : first.ret.toNat < data.length := by omega
  have hleft : (data.drop first.ret.toNat).length = data.length - first.ret.toNat :=
    List.length_drop
  have hrest : data.drop first.ret.toNat ≠ [] := by
    simpa [List.drop_eq_nil_iff] using hless
  have hdirect : ∀ stray, t.sendDirect fd data stray memory first calls =
      t.queue fd (data.drop first.ret.toNat) (data.drop first.ret.toNat) memory calls
        (data.take first.ret.toNat) (some first.ret.toNat) := by
    intro stray
    unfold Transport.sendDirect
    rw [taken_part hpart, if_pos hret, if_pos hless]
  rw [← hleft]
  rcases (Bool.eq_false_or_eq_true (t.writeBuffer fd memory).isSome).symm with hthrows | hbuffer
  · rw [direct_iff hwaits (fun stray => (hdirect stray).trans (queue_throws hthrows
      (data.drop first.ret.toNat) calls (data.take first.ret.toNat) (some first.ret.toNat)))
      fun _ => hwaits.carries]
    simp [hthrows]
  rw [hbuffer, eq_self_iff_true, true_and]
  cases hrefused : t.refused fd memory (data.drop first.ret.toNat).length with
  | false =>
    obtain ⟨u, hqueue, hcarries⟩ := hwaits.queue (by omega) (by simp; omega) hbuffer hrefused
      (data.drop first.ret.toNat) calls (data.take first.ret.toNat) (some first.ret.toNat)
    rw [direct_iff hwaits (fun stray => (hdirect stray).trans hqueue) fun _ => hcarries]
    simp
  | true =>
    obtain ⟨blocking, hblocking, hprefix, hall, -⟩ := blockingSend_spec hrest
      (finishes_mono (by omega) hfinishes)
    obtain ⟨u, hqueue, hcarries⟩ := hwaits.queueRefused (by omega) (by simp; omega) hrefused
      hblocking (data.take first.ret.toNat) (some first.ret.toNat)
    have hout : data.take first.ret.toNat ++ blocking <+: data := by
      nth_rewrite 2 [← List.take_append_drop first.ret.toNat data]
      exact (List.prefix_append_right_inj _).mpr hprefix
    have hwhole : data.take first.ret.toNat ++ blocking = data ↔
        fails (data.drop first.ret.toNat).length calls = false := by
      rw [← hall]
      nth_rewrite 2 [← List.take_append_drop first.ret.toNat data]
      exact List.append_right_inj _
    rw [direct_iff hwaits (fun stray => (hdirect stray).trans hqueue) fun _ => hcarries]
    simp [hout, hwhole]

theorem Waits.direct_blocked (hwaits : Waits t fd []) (hlength : data.length < 2 ^ 31)
    (hret : first.ret < 0) (hretry : retry first.errno = true)
    (hfinishes : finishes (data.length + 1) calls = true) :
    DirectTruthful t fd data memory first calls ↔ (t.writeBuffer fd memory).isSome = true ∧
      (t.refused fd memory data.length = true → fails 1 calls = true) := by
  have hdirect : ∀ stray, t.sendDirect fd data stray memory first calls =
      t.queue fd data (stray :: data) memory calls [] none := by
    intro stray
    unfold Transport.sendDirect
    rw [taken_part (by omega), if_neg (Int.not_le.mpr hret), hretry]
    rfl
  rcases (Bool.eq_false_or_eq_true (t.writeBuffer fd memory).isSome).symm with hthrows | hbuffer
  · rw [direct_iff hwaits (fun stray => (hdirect stray).trans (queue_throws hthrows
      (stray :: data) calls [] none)) fun _ => hwaits.carries]
    simp [hthrows]
  rw [hbuffer, eq_self_iff_true, true_and]
  cases hrefused : t.refused fd memory data.length with
  | false =>
    have hqueue : ∀ offset, ∃ u, t.queue fd data offset memory calls [] none =
        some ⟨u, some true, [], none⟩ ∧ Carries u fd data := fun offset =>
      hwaits.queue hlength (by simp; omega) hbuffer hrefused offset calls [] none
    choose next hqueue hcarries using hqueue
    rw [direct_iff hwaits (fun stray => (hdirect stray).trans (hqueue (stray :: data)))
      fun stray => hcarries (stray :: data)]
    simp
  | true =>
    have hdata := hwaits.refused_nonempty hrefused
    have hblocking : ∀ stray, ∃ written, blockingSend (stray :: data) calls = some written ∧
        written <+: stray :: data ∧ (written = [] ↔ fails 1 calls = true) := by
      intro stray
      obtain ⟨written, hwritten, hprefix, -, hnone⟩ :=
        blockingSend_spec (List.cons_ne_nil stray data) hfinishes
      exact ⟨written, hwritten, hprefix, hnone⟩
    choose written hwritten hprefix hnone using hblocking
    have hqueue : ∀ stray, ∃ u, t.queue fd data (stray :: data) memory calls [] none =
        some ⟨u, some false, written stray, none⟩ ∧ Carries u fd [] := fun stray =>
      hwaits.queueRefused hlength (by simp; omega) hrefused (hwritten stray) [] none
    choose next hqueue hcarries using hqueue
    rw [direct_iff hwaits (fun stray => (hdirect stray).trans (hqueue stray)) hcarries]
    simp only [List.append_nil, forall_const]
    constructor
    · intro htruth
      obtain ⟨head, tail, rfl⟩ := List.exists_cons_of_ne_nil hdata
      rw [← hnone (head + 1)]
      by_contra hsome
      -- what is out starts with the byte in front, which need not be the buffer's first
      obtain ⟨byte, more, hcons⟩ := List.exists_cons_of_ne_nil hsome
      have hstray := hprefix (head + 1)
      have hfirst := (htruth (head + 1)).1
      rw [hcons, List.cons_prefix_cons] at hstray hfirst
      have hnext : head + 1 = head := hstray.1.symm.trans hfirst.1
      simp at hnext
    · intro hfails stray
      rw [(hnone stray).mpr hfails]
      exact ⟨List.nil_prefix, false, rfl, by simpa using hdata.symm⟩

end Sends

theorem Waits.send_queued {t : Transport} {tid : Id} {held data : List UInt8}
    (hwaits : Waits t tid.fd held) (hheld : held ≠ []) (hlength : data.length < 2 ^ 31)
    (hsendable : t.sendable tid data.length = true) (memory : Nat) (calls : List SysCall) :
    Truthful t tid data memory calls ↔
      held.length + data.length < 2 ^ 32 - 1 ∧ t.refused tid.fd memory data.length = false := by
  rcases hwaits.carries with ⟨-, hnone⟩ | ⟨buf, hbuf, hholds⟩
  · exact absurd hnone hheld
  · have hwaiting : (some buf).filter (fun buf => buf.current.position ≠ 0) = some buf := by
      simp [hholds.position_eq_zero, hheld]
    have hroom := hwaits.room
    have hsend : ∀ stray, t.send tid data data.length stray memory calls =
        (buf.put memory data).bind fun put =>
          some ⟨t.setWriteBuf tid.fd put.1, some true, [], none⟩ := by
      intro stray
      unfold Transport.send
      rw [hsendable]
      simp only [hbuf, hwaiting, Int.toNat_natCast, List.take_length]
      rfl
    have hrefused : t.refused tid.fd memory data.length =
        !(buf.ensure memory (UInt32.ofNat data.length)).2 := by
      refine refused_eq ?_ data.length
      unfold Transport.writeBuffer
      rw [hbuf]
    rw [hbuf, Option.getD_some] at hroom
    rw [hrefused]
    rcases hholds.put_cases hroom hlength memory with ⟨hwraps, hput⟩ | ⟨hfits, other, hput, hother⟩
    · constructor
      · intro htruth
        obtain ⟨sent, hsent, -⟩ := htruth 0
        rw [hsend, hput] at hsent
        cases hsent
      · rintro ⟨hfits, -⟩
        omega
    · have hafter : ∀ stray, t.send tid data data.length stray memory calls =
          some ⟨t.setWriteBuf tid.fd other, some true, [], none⟩ := by
        intro stray
        rw [hsend, hput]
        rfl
      cases hok : (buf.ensure memory (UInt32.ofNat data.length)).2 with
      | false =>
        rw [hok] at hother
        have hdata : data ≠ [] := hwaits.refused_nonempty (hrefused.trans (by rw [hok]; rfl))
        have hcarries : Carries (t.setWriteBuf tid.fd other) tid.fd (held ++ []) :=
          .inr ⟨other, by simp, by simpa using hother⟩
        refine ⟨fun htruth => ?_, fun h => absurd h.2 (by simp)⟩
        obtain ⟨sent, hsent, htruthful⟩ := htruth 0
        obtain rfl : _ = sent := Option.some.inj ((hafter 0).symm.trans hsent)
        obtain ⟨-, result, hresult, htold⟩ := (truthful_iff hwaits hcarries).mp htruthful
        cases hresult
        exact absurd (htold.mp rfl).symm hdata
      | true =>
        rw [hok] at hother
        have hcarries : Carries (t.setWriteBuf tid.fd other) tid.fd (held ++ data) :=
          .inr ⟨other, by simp, hother⟩
        refine ⟨fun _ => ⟨hfits, rfl⟩, fun _ stray => ⟨_, hafter stray, ?_⟩⟩
        rw [truthful_iff hwaits hcarries]
        simp

/-- The first bytes of the buffer and none besides are taken or queued, and the
result says whether they are all, exactly in the cases that are `Favourable`. -/
theorem send_truthful (t : Transport) (tid : Id) {held : List UInt8}
    (hwaits : Waits t tid.fd held) (data : List UInt8) (hlength : data.length < 2 ^ 31)
    (memory : Nat) (first : SysCall) (calls : List SysCall)
    (hfinishes : finishes (data.length + 1) calls = true) :
    Truthful t tid data memory (first :: calls) ↔ Favourable t tid data memory first calls := by
  unfold Favourable
  rw [hwaits.carries.waiting]
  cases hsendable : t.sendable tid data.length with
  | false =>
    have hsend : ∀ stray, t.send tid data data.length stray memory (first :: calls) =
        some ⟨t, some false, [], none⟩ := by
      intro stray
      unfold Transport.send
      rw [hsendable]
      rfl
    have hcarries : Carries t tid.fd (held ++ []) := by simpa using hwaits.carries
    rw [if_pos rfl]
    constructor
    · intro htruth
      obtain ⟨sent, hsent, htruthful⟩ := htruth 0
      obtain rfl : _ = sent := Option.some.inj ((hsend 0).symm.trans hsent)
      obtain ⟨-, result, hresult, htold⟩ := (truthful_iff hwaits hcarries).mp htruthful
      cases hresult
      simpa [eq_comm] using htold
    · intro hdata stray
      refine ⟨_, hsend stray, (truthful_iff hwaits hcarries).mpr ?_⟩
      simpa [eq_comm] using hdata
  | true =>
    rw [if_neg (by simp)]
    by_cases hheld : held = []
    · subst hheld
      have hempty : (t.ctx tid.fd).writeBuf.filter (fun buf => buf.current.position ≠ 0) =
          none := by
        rcases hwaits.carries with ⟨hnone, -⟩ | ⟨buf, hbuf, hholds⟩
        · rw [hnone]
          rfl
        · rw [hbuf]
          simp [hholds.position_eq_zero]
      have hdirect : Truthful t tid data memory (first :: calls) ↔
          DirectTruthful t tid.fd data memory first calls := by
        refine forall_congr' fun stray => ?_
        unfold Transport.send
        rw [hsendable]
        simp only [hempty, Int.toNat_natCast, List.take_length]
        rfl
      rw [hdirect, if_neg (by simp)]
      split_ifs with hret hretry
      · by_cases hpart : first.ret < data.length
        · rw [hwaits.direct_part hlength hret hpart (finishes_mono (by omega) hfinishes)]
          simp [hpart]
        · exact iff_of_true (hwaits.direct_whole (by omega)) fun h => absurd h hpart
      · exact hwaits.direct_blocked hlength (by omega) hretry hfinishes
      · exact hwaits.direct_broken (by omega) (by simpa using hretry)
    · rw [if_pos hheld]
      exact hwaits.send_queued hheld hlength hsendable memory _

/-- A connection on descriptor 5, with buffer blocks of 16 bytes. -/
def sample : Transport := (Stream.connect Stream.sample 5 0 80).transport

private theorem sample_waits : Waits sample 5 [] := ⟨by decide, .inl ⟨rfl, rfl⟩, by decide⟩

/-- Of 20 bytes the socket takes 4, then 3, and is reset: the send fails and says so. -/
theorem send_truthful_reset : Truthful sample ⟨0, 5, some 1⟩ (List.replicate 20 7) 1
    [⟨4, 0⟩, ⟨3, 0⟩, ⟨-1, 104⟩] :=
  (send_truthful sample ⟨0, 5, some 1⟩ sample_waits (List.replicate 20 7) (by decide) 1 ⟨4, 0⟩
    [⟨3, 0⟩, ⟨-1, 104⟩] (by decide)).mpr (by unfold Favourable; decide)

/-- Of 20 bytes the socket takes 4 and then the other 16, and the send is said to have
failed. When it blocks first, the byte in front of the buffer goes out before the 20. With
one byte waiting, 20 that have no room are dropped and the send is said to have succeeded.
Without a block for a write buffer, 4 bytes are out and the send throws. -/
theorem send_lies :
    (¬ ∀ (t : Transport) (tid : Id) (held data : List UInt8) (memory : Nat) (first : SysCall)
      (calls : List SysCall), Waits t tid.fd held → data.length < 2 ^ 31 →
      finishes (data.length + 1) calls = true → Truthful t tid data memory (first :: calls)) ∧
    (∃ sent, sample.send ⟨0, 5, some 1⟩ (List.replicate 20 7) 20 9 1 [⟨4, 0⟩, ⟨16, 0⟩] =
      some sent ∧ sent.result = some false ∧ sent.written = List.replicate 20 7) ∧
    (∃ sent, sample.send ⟨0, 5, some 1⟩ (List.replicate 20 7) 20 9 1 [⟨-1, eagain⟩, ⟨21, 0⟩] =
      some sent ∧ sent.result = some false ∧ sent.written = 9 :: List.replicate 20 7) ∧
    (∃ queued sent, sample.send ⟨0, 5, some 1⟩ [7] 1 9 1 [⟨-1, eagain⟩] = some queued ∧
      queued.transport.send ⟨0, 5, some 1⟩ (List.replicate 20 7) 20 9 0 [] = some sent ∧
      sent.result = some true ∧ sent.written = [] ∧ sent.transport.waiting 5 = [7]) ∧
    ∃ sent, sample.send ⟨0, 5, some 1⟩ (List.replicate 20 7) 20 9 0 [⟨4, 0⟩] = some sent ∧
      sent.result = none ∧ sent.written = List.replicate 4 7 := by
  refine ⟨fun hall => ?_, ⟨_, rfl, rfl, by decide⟩, ⟨_, rfl, rfl, by decide⟩,
    ⟨_, _, rfl, rfl, rfl, rfl, by decide⟩, ⟨_, rfl, rfl, by decide⟩⟩
  have htruthful := hall sample ⟨0, 5, some 1⟩ [] (List.replicate 20 7) 1 ⟨4, 0⟩
    [⟨16, 0⟩, ⟨5, 0⟩] sample_waits (by decide) (by decide)
  obtain ⟨sent, hsend, queued, hwaiting, -, result, hresult, htold⟩ := htruthful 9
  obtain rfl : _ = sent := Option.some.inj hsend
  obtain rfl : [] = queued := hwaiting
  obtain rfl : false = result := Option.some.inj hresult
  exact Bool.false_ne_true (htold.mpr (by decide))

end Transport

end Libsax.Net
