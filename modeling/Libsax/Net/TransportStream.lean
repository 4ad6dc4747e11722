import Libsax.Net.EventLoopSteps
import Libsax.Net.LinkedBufferDirect

/-! The output of one TCP connection: what the socket took, and what waits in
the write buffer, are the bytes that were sent. -/
namespace Libsax.Net.Transport

open Libsax.Lib

/-- A transport, and a record of one connection's output: the bytes its socket
took and those of the sends that returned true. -/
structure Stream where
  transport : Transport
  accepted : List UInt8
  sent : List UInt8

namespace Stream

inductive Action where
  | send (buf : List UInt8) (length : Int) (stray : UInt8) (calls : List SysCall)
  | writeReady (calls : List SysCall)

/-- The connection right after `add_fd`. -/
def connect (t : Transport) (fd : Nat) (ipN : UInt32) (portH : UInt16) : Stream :=
  ⟨(t.addFd fd ipN portH .tcpConnection true 1).1, [], []⟩

/-- `send` on the connection, or its write event, which is there only while
write interest is registered. -/
def step (memory : Nat) (tid : Id) (s : Stream) : Action → Option Stream
  | .send buf length stray calls => do
    let sent ← s.transport.send tid buf length stray memory calls
    return ⟨sent.transport, s.accepted ++ sent.written,
      if sent.result = some true then s.sent ++ buf.take length.toNat else s.sent⟩
  | .writeReady calls =>
    if s.transport.eda tid.fd = some true then do
      match ← s.transport.handleTcpWrite tid.fd calls with
      | (t, written, none) => return ⟨t, s.accepted ++ written, s.sent⟩
      | (t, written, some _) =>
        return ⟨t.close (t.ctx tid.fd).tid, s.accepted ++ written, s.sent⟩
    else none

def outstanding (s : Stream) (fd : Nat) : List UInt8 :=
  match (s.transport.ctx fd).writeBuf with
  | none => []
  | some buf => buf.content

structure Faithful (tid : Id) (s : Stream) : Prop where
  stream : s.accepted ++ s.outstanding tid.fd = s.sent
  interest : s.transport.eda tid.fd = some true ↔ s.outstanding tid.fd ≠ []

/-- What the caller and the kernel keep to: a buffer has the length it is given
with, each write is answered, and a failed one would block or was interrupted. -/
def Assumed (tid : Id) (s : Stream) : Action → Prop
  | .send buf length _ calls => length ≤ buf.length ∧ calls ≠ [] ∧
    ∀ call ∈ calls, call.ret < 0 → retry call.errno = true
  | .writeReady calls => s.transport.eda tid.fd = some true ∧
    (s.outstanding tid.fd).length ≤ calls.length ∧
    ∀ call ∈ calls, call.ret < 0 → retry call.errno = true

/-- No send of nothing finds the socket blocked, the buffer has room in its
32-bit counters, and a write event's write that takes nothing leaves `errno`
at a value to retry on. -/
def Careful (tid : Id) (s : Stream) : Action → Prop
  | .send _ length _ calls => 0 ≤ length →
    (length = 0 → s.transport.hasOutdata tid = false →
      ∀ call ∈ calls.head?, 0 ≤ call.ret) ∧
    ((s.transport.ctx tid.fd).writeBuf.getD s.transport.newBuffer).Fits length.toNat
  | .writeReady calls => ∀ call ∈ calls, call.ret = 0 → retry call.errno = true

end Stream

/-- `data` waits in the write buffer; without a buffer nothing does. -/
def Carries (t : Transport) (fd : Nat) (data : List UInt8) : Prop :=
  (t.ctx fd).writeBuf = none ∧ data = [] ∨
    ∃ buf, (t.ctx fd).writeBuf = some buf ∧ buf.Holds data

theorem Carries.outstanding {s : Stream} {fd : Nat} {data : List UInt8}
    (hcarries : Carries s.transport fd data) : s.outstanding fd = data := by
  unfold Stream.outstanding
  rcases hcarries with ⟨hnone, rfl⟩ | ⟨buf, hbuf, hholds⟩
  · rw [hnone]
  · rw [hbuf]
    exact hholds.content

theorem Carries.getD {t : Transport} {fd : Nat} {data : List UInt8}
    (hcarries : Carries t fd data) (hsize : 0 < t.blockSize.toNat) :
    ((t.ctx fd).writeBuf.getD t.newBuffer).Holds data := by
  rcases hcarries with ⟨hnone, rfl⟩ | ⟨buf, hbuf, hholds⟩
  · rw [hnone]
    exact LinkedBuffer.create_holds hsize t.bytes
  · rw [hbuf]
    exact hholds

@[simp] private theorem setWriteBuf_writeBuf (t : Transport) (fd : Nat) (buf : LinkedBuffer) :
    ((t.setWriteBuf fd buf).ctx fd).writeBuf = some buf := by
  simp [setWriteBuf]

@[simp] private theorem toggleWrite_ctx (t : Transport) (fd : Nat) (on : Bool) :
    (t.toggleWrite fd on).ctx = t.ctx := rfl

@[simp] private theorem setWriteBuf_eda (t : Transport) (fd : Nat) (buf : LinkedBuffer) :
    (t.setWriteBuf fd buf).eda = t.eda := rfl

private theorem toggleWrite_eda (t : Transport) {fd : Nat} {on other : Bool}
    (heda : t.eda fd = some other) : (t.toggleWrite fd on).eda fd = some on := by
  simp [toggleWrite, heda]

private theorem taken_le (call : SysCall) (length : Nat) : call.taken length ≤ length := by
  unfold SysCall.taken
  omega

/-- A connection that is open under `tid`, with `data` waiting for its socket
and write interest to match. -/
structure Flows (t : Transport) (tid : Id) (data : List UInt8) : Prop where
  type : (t.ctx tid.fd).type = .tcpConnection
  current : t.current tid = true
  size : 0 < t.blockSize.toNat
  carries : Carries t tid.fd data
  eda : t.eda tid.fd = some (!data.isEmpty)

theorem Flows.similar {t u : Transport} {tid : Id} {data rest : List UInt8}
    (hflows : Flows t tid data) (hsimilar : Similar t u) (hcarries : Carries u tid.fd rest)
    (heda : u.eda tid.fd = some (!rest.isEmpty)) : Flows u tid rest := by
  refine ⟨?_, ?_, ?_, hcarries, heda⟩
  · rw [hsimilar.type]
    exact hflows.type
  · unfold Transport.current
    rw [hsimilar.tid]
    exact hflows.current
  · rw [hsimilar.blockSize]
    exact hflows.size

private theorem writeBuffer_eq (t : Transport) (fd : Nat) {memory : Nat} (hmemory : 0 < memory) :
    ∃ left, memory ≤ left + 1 ∧
      t.writeBuffer fd memory = some ((t.ctx fd).writeBuf.getD t.newBuffer, left) := by
  unfold Transport.writeBuffer
  cases (t.ctx fd).writeBuf with
  | some buf => exact ⟨memory, Nat.le_succ memory, rfl⟩
  | none =>
    obtain ⟨left, rfl⟩ := Nat.exists_eq_succ_of_ne_zero (Nat.pos_iff_ne_zero.mp hmemory)
    exact ⟨left, Nat.le_refl _, rfl⟩

theorem Flows.queue {t : Transport} {tid : Id} {data rest : List UInt8}
    (hflows : Flows t tid data) {memory : Nat} (hmemory : 2 ^ 32 ≤ memory) (hrest : rest ≠ [])
    (hfits : ((t.ctx tid.fd).writeBuf.getD t.newBuffer).Fits rest.length)
    (offset : List UInt8) (calls : List SysCall) (written : List UInt8) (callback : Option Nat) :
    ∃ u, t.queue tid.fd rest offset memory calls written callback =
        some ⟨u, some true, written, callback⟩ ∧ Flows u tid (data ++ rest) := by
  obtain ⟨left, hleft, hbuffer⟩ := writeBuffer_eq t tid.fd (show 0 < memory by omega)
  obtain ⟨buf, hput, hholds⟩ := (hflows.carries.getD hflows.size).put
    (show 2 ^ 32 ≤ left + 1 by omega) hfits
  have hqueue : t.queue tid.fd rest offset memory calls written callback =
      some ⟨(t.setWriteBuf tid.fd buf).toggleWrite tid.fd true, some true, written, callback⟩ := by
    unfold Transport.queue
    simp only [hbuffer, hput, Option.bind_eq_bind, Option.bind_some]
    rfl
  refine ⟨_, hqueue,
    hflows.similar (queue_similar t hflows.type hqueue) (.inr ⟨buf, by simp, hholds⟩) ?_⟩
  have hnonempty : (data ++ rest).isEmpty = false := by simp [hrest]
  rw [hnonempty]
  exact toggleWrite_eda _ hflows.eda

theorem Flows.sendDirect {t : Transport} {tid : Id} (hflows : Flows t tid [])
    {memory : Nat} (hmemory : 2 ^ 32 ≤ memory) {data : List UInt8} {call : SysCall}
    (hretry : call.ret < 0 → retry call.errno = true) (hnothing : data = [] → 0 ≤ call.ret)
    (hfits : ∀ length, length ≤ data.length →
      ((t.ctx tid.fd).writeBuf.getD t.newBuffer).Fits length)
    (stray : UInt8) (calls : List SysCall) :
    ∃ sent rest, t.sendDirect tid.fd data stray memory call calls = some sent ∧
      sent.result = some true ∧ sent.written ++ rest = data ∧
      Flows sent.transport tid rest := by
  have htaken := taken_le call data.length
  unfold Transport.sendDirect
  by_cases hret : 0 ≤ call.taken data.length
  · rw [if_pos hret]
    by_cases hpart : (call.taken data.length).toNat < data.length
    · have hrest : data.drop (call.taken data.length).toNat ≠ [] := by
        simpa [List.drop_eq_nil_iff] using hpart
      obtain ⟨u, hqueue, hu⟩ := hflows.queue hmemory hrest
        (hfits _ (by simp)) (data.drop (call.taken data.length).toNat) calls
        (data.take (call.taken data.length).toNat) (some (call.taken data.length).toNat)
      rw [if_pos hpart]
      exact ⟨_, _, hqueue, rfl, List.take_append_drop _ _, hu⟩
    · rw [if_neg hpart]
      exact ⟨_, [], rfl, rfl, by simp, hflows⟩
  · have hnegative : call.ret < 0 := by
      unfold SysCall.taken at hret
      omega
    have hdata : data ≠ [] := by
      rintro rfl
      have := hnothing rfl
      omega
    obtain ⟨u, hqueue, hu⟩ := hflows.queue hmemory hdata (hfits _ (Nat.le_refl _))
      (stray :: data) calls [] none
    rw [if_neg hret, hretry hnegative]
    exact ⟨_, data, hqueue, rfl, rfl, hu⟩

theorem Flows.send {t : Transport} {tid : Id} {data : List UInt8} (hflows : Flows t tid data)
    {memory : Nat} (hmemory : 2 ^ 32 ≤ memory) {buf : List UInt8} {length : Int}
    {calls : List SysCall} (hlength : length ≤ buf.length) (hcalls : calls ≠ [])
    (hretry : ∀ call ∈ calls, call.ret < 0 → retry call.errno = true)
    (hnothing : length = 0 → t.hasOutdata tid = false → ∀ call ∈ calls.head?, 0 ≤ call.ret)
    (hfits : 0 ≤ length → ((t.ctx tid.fd).writeBuf.getD t.newBuffer).Fits length.toNat)
    (stray : UInt8) :
    ∃ sent rest, t.send tid buf length stray memory calls = some sent ∧
      sent.written ++ rest =
        data ++ (if sent.result = some true then buf.take length.toNat else []) ∧
      Flows sent.transport tid rest := by
  unfold Transport.send
  by_cases hnegative : length < 0
  · rw [if_pos (by simp [sendable, hnegative])]
    exact ⟨_, data, rfl, by simp, hflows⟩
  · have hfits := hfits (by omega)
    have htake : (buf.take length.toNat).length = length.toNat := by
      rw [List.length_take]
      omega
    rw [if_neg (by simp [sendable, hflows.type, hflows.current, hnegative])]
    obtain ⟨call, rest, rfl⟩ := List.exists_cons_of_ne_nil hcalls
    by_cases hdata : data = []
    · -- nothing waits, and there may be no buffer yet
      subst hdata
      have hempty : (t.ctx tid.fd).writeBuf.filter (fun buf => buf.current.position ≠ 0) =
          none := by
        rcases hflows.carries with ⟨hnone, -⟩ | ⟨writeBuf, hbuf, hholds⟩
        · rw [hnone]
          rfl
        · rw [hbuf]
          simp [hholds.position_eq_zero]
      have houtdata : t.hasOutdata tid = false := by
        rcases hflows.carries with ⟨hnone, -⟩ | ⟨writeBuf, hbuf, hholds⟩
        · simp [hasOutdata, hnone]
        · simp [hasOutdata, hbuf, hholds.position_eq_zero]
      obtain ⟨sent, left, hsend, hresult, hwritten, hnext⟩ :=
        hflows.sendDirect hmemory (hretry call List.mem_cons_self)
          (fun h => hnothing (by
            rw [h, List.length_nil] at htake
            omega) houtdata call rfl)
          (fun less hless => hfits.mono (htake ▸ hless)) stray rest
      simp only [hempty]
      exact ⟨sent, left, hsend, by rw [hwritten, hresult]; simp, hnext⟩
    · rcases hflows.carries with ⟨-, hnone⟩ | ⟨writeBuf, hbuf, hholds⟩
      · exact absurd hnone hdata
      · rw [hbuf, Option.getD_some, ← htake] at hfits
        obtain ⟨other, hput, hother⟩ := hholds.put (Nat.le_succ_of_le hmemory) hfits
        have hwaiting : (some writeBuf).filter (fun buf => buf.current.position ≠ 0) =
            some writeBuf := by
          simp [hholds.position_eq_zero, hdata]
        simp only [hbuf, hwaiting, hput, Option.bind_eq_bind, Option.bind_some]
        refine ⟨_, data ++ buf.take length.toNat, rfl, by simp,
          hflows.similar (setWriteBuf_similar t tid.fd other) (.inr ⟨other, by simp, hother⟩) ?_⟩
        rw [setWriteBuf_eda, hflows.eda, List.isEmpty_eq_false_iff.mpr hdata,
          List.isEmpty_eq_false_iff.mpr (by simp [hdata])]

private theorem drain_offers {calls : List SysCall} {buf : LinkedBuffer} {data : List UInt8}
    (hoffers : buf.Offers data) (hcalls : data.length ≤ calls.length)
    (hretry : ∀ call ∈ calls, call.ret ≤ 0 → retry call.errno = true) :
    ∃ last written rest, drain calls buf = some (last, written, none) ∧
      data = written ++ rest ∧ last.Offers rest := by
  induction calls generalizing buf data with
  | nil =>
    have hdata : data = [] := List.length_eq_zero_iff.mp (Nat.le_zero.mp hcalls)
    rw [drain, if_pos (hoffers.remaining_eq_zero.mpr hdata)]
    exact ⟨buf, [], data, rfl, rfl, hoffers⟩
  | cons call calls ih =>
    by_cases hdata : data = []
    · rw [drain, if_pos (hoffers.remaining_eq_zero.mpr hdata)]
      exact ⟨buf, [], data, rfl, rfl, hoffers⟩
    · obtain ⟨block, len, hdirect, hpos, hle, hcommit⟩ := hoffers.directGet hdata
      have htaken := taken_le call len.toNat
      rw [drain, if_neg fun h => hdata (hoffers.remaining_eq_zero.mp h), hdirect]
      simp only [Option.bind_eq_bind, Option.bind_some]
      by_cases hret : 0 < call.taken len.toNat
      · obtain ⟨hload, next, hnext, hoffers'⟩ :=
          hcommit (call.taken len.toNat).toNat (by omega) (by omega)
        rw [if_pos hret, hnext]
        simp only [Option.bind_some, hload]
        by_cases hfull : call.taken len.toNat = len.toNat
        · rw [if_neg (not_not.mpr hfull)]
          rw [List.length_cons] at hcalls
          obtain ⟨last, written, rest, hdrain, hsplit, hlast⟩ := ih hoffers'
            (by rw [List.length_drop]; omega)
            (fun other hmem => hretry other (List.mem_cons_of_mem _ hmem))
          rw [hdrain]
          refine ⟨last, _, rest, rfl, ?_, hlast⟩
          rw [List.append_assoc, ← hsplit, List.take_append_drop]
        · rw [if_pos hfull]
          exact ⟨next, _, _, rfl, (List.take_append_drop _ _).symm, hoffers'⟩
      · have hnone : call.ret ≤ 0 := by
          unfold SysCall.taken at hret
          omega
        rw [if_neg hret, hretry call List.mem_cons_self hnone]
        exact ⟨buf, [], data, rfl, rfl, hoffers⟩

theorem Flows.handleTcpWrite {t : Transport} {tid : Id} {data : List UInt8}
    (hflows : Flows t tid data) (hdata : data ≠ []) {calls : List SysCall}
    (hcalls : data.length ≤ calls.length)
    (hretry : ∀ call ∈ calls, call.ret ≤ 0 → retry call.errno = true) :
    ∃ u written rest, t.handleTcpWrite tid.fd calls = some (u, written, none) ∧
      data = written ++ rest ∧ Flows u tid rest := by
  rcases hflows.carries with ⟨-, hnone⟩ | ⟨buf, hbuf, hholds⟩
  · exact absurd hnone hdata
  · obtain ⟨last, written, rest, hdrain, hsplit, hoffers⟩ :=
      drain_offers hholds.flip hcalls hretry
    obtain ⟨other, hcompact, hother⟩ := hoffers.compact
    have hwrite : t.handleTcpWrite tid.fd calls = some
        ((if last.remaining = 0 then t.toggleWrite tid.fd false else t).setWriteBuf tid.fd other,
          written, none) := by
      unfold Transport.handleTcpWrite
      simp only [hbuf, hdrain, hcompact, Option.bind_eq_bind, Option.bind_some]
      rfl
    refine ⟨_, written, rest, hwrite, hsplit,
      hflows.similar (handleTcpWrite_similar t hwrite) (.inr ⟨other, by simp, hother⟩) ?_⟩
    rw [setWriteBuf_eda]
    by_cases hrest : rest = []
    · rw [if_pos (hoffers.remaining_eq_zero.mpr hrest), hrest]
      exact toggleWrite_eda t hflows.eda
    · rw [if_neg fun h => hrest (hoffers.remaining_eq_zero.mp h), hflows.eda,
        List.isEmpty_eq_false_iff.mpr hdata, List.isEmpty_eq_false_iff.mpr hrest]

namespace Stream

/-- What holds of a connection between its calls. -/
def Inv (tid : Id) (s : Stream) : Prop :=
  ∃ data, Flows s.transport tid data ∧ s.accepted ++ data = s.sent

theorem Inv.faithful {tid : Id} {s : Stream} (hinv : Inv tid s) : Faithful tid s := by
  obtain ⟨data, hflows, hsent⟩ := hinv
  refine ⟨?_, ?_⟩
  · rw [hflows.carries.outstanding]
    exact hsent
  · rw [hflows.carries.outstanding, hflows.eda]
    simp

theorem Inv.step {tid : Id} {s : Stream} (hinv : Inv tid s) {memory : Nat}
    (hmemory : 2 ^ 32 ≤ memory) {action : Action} (hassumed : Assumed tid s action)
    (hcareful : Careful tid s action) :
    ∃ next, step memory tid s action = some next ∧ Inv tid next := by
  obtain ⟨data, hflows, hsent⟩ := hinv
  cases action with
  | send buf length stray calls =>
    obtain ⟨hlength, hcalls, hretry⟩ := hassumed
    obtain ⟨sent, rest, hsend, hwritten, hnext⟩ := hflows.send hmemory hlength hcalls hretry
      (fun hzero => (hcareful (by omega)).1 hzero) (fun h => (hcareful h).2) stray
    simp only [Stream.step, hsend, Option.bind_eq_bind, Option.bind_some]
    refine ⟨_, rfl, rest, hnext, ?_⟩
    dsimp only
    rw [List.append_assoc, hwritten, ← List.append_assoc, hsent]
    split_ifs
    · rfl
    · exact List.append_nil _
  | writeReady calls =>
    obtain ⟨heda, hcalls, hretry⟩ := hassumed
    rw [hflows.carries.outstanding] at hcalls
    have hdata : data ≠ [] := by
      rw [hflows.eda] at heda
      simpa using heda
    obtain ⟨u, written, rest, hwrite, hsplit, hnext⟩ := hflows.handleTcpWrite hdata hcalls
      fun call hmem hret => by
        rcases Int.lt_or_eq_of_le hret with hlt | heq
        · exact hretry call hmem hlt
        · exact hcareful call hmem heq
    simp only [Stream.step, if_pos heda, hwrite, Option.bind_eq_bind, Option.bind_some]
    refine ⟨_, rfl, rest, hnext, ?_⟩
    dsimp only
    rw [List.append_assoc, ← hsplit, hsent]

private theorem connect_inv (t : Transport) {fd : Nat} (hfd : fd < t.maxfds)
    (hsize : 1 ≤ t.blockSize)
    (hfree : (t.ctx fd).writeBuf = none) (ipN : UInt32) (portH : UInt16) :
    Inv ⟨t.seq, fd, some t.this⟩ (connect t fd ipN portH) := by
  have hadd : t.addFd fd ipN portH .tcpConnection true 1 = ({ t with
      eda := Function.update t.eda fd (some false)
      ctx := Function.update t.ctx fd { t.ctx fd with
        ipN := ipN
        portH := portH
        type := .tcpConnection
        readBuf := some t.newBuffer
        tid := ⟨t.seq, fd, some t.this⟩ }
      seq := nextSeq t.seq }, some true) := by
    unfold addFd
    rw [if_neg (by simpa using hfd)]
    rfl
  unfold connect
  rw [hadd]
  refine ⟨[], ⟨by simp, by simp [Transport.current, Id.same], ?_, .inl ⟨by simpa using hfree, rfl⟩,
    by simp⟩, rfl⟩
  exact UInt32.le_iff_toNat_le.mp hsize

/-- A connection's output is neither lost, repeated nor reordered, and its
descriptor has write interest exactly while something waits. -/
theorem output_stream (t : Transport) (fd : Nat) (ipN : UInt32) (portH : UInt16)
    (hfd : fd < t.maxfds) (hsize : 1 ≤ t.blockSize) (hfree : (t.ctx fd).writeBuf = none)
    (memory : Nat) (hmemory : 2 ^ 32 ≤ memory) (actions : List Action)
    (hallowed : Along (step memory ⟨t.seq, fd, some t.this⟩)
      (fun s action => Assumed ⟨t.seq, fd, some t.this⟩ s action ∧
        Careful ⟨t.seq, fd, some t.this⟩ s action) (connect t fd ipN portH) actions) :
    ∃ final, run (step memory ⟨t.seq, fd, some t.this⟩) (connect t fd ipN portH) actions =
        some final ∧ Faithful ⟨t.seq, fd, some t.this⟩ final := by
  obtain ⟨final, hfinal, hinv⟩ :=
    run_along (fun _ _ hallowed hinv => Inv.step hinv hmemory hallowed.1 hallowed.2) hallowed
      (connect_inv t hfd hsize hfree ipN portH)
  exact ⟨final, hfinal, hinv.faithful⟩

/-- A transport of 8 descriptors with buffer blocks of 16 bytes. -/
def sample : Transport :=
  init 1 8 (fun _ => ⟨.tcpListen, 0, 0, ⟨0, 0, none⟩, none, none⟩) 16 fun _ _ => 0

/-- Three bytes, of which the socket takes one at once and two later. -/
theorem output_stream_three : ∃ final,
    run (step (2 ^ 32) ⟨0, 5, some 1⟩) (connect sample 5 0 80)
      [.send [1, 2, 3] 3 0 [⟨1, 0⟩], .writeReady [⟨2, 0⟩, ⟨-1, eagain⟩]] = some final ∧
    Faithful ⟨0, 5, some 1⟩ final := by
  refine output_stream sample 5 0 80 (by decide) (by decide) rfl (2 ^ 32) (Nat.le_refl _)
    [.send [1, 2, 3] 3 0 [⟨1, 0⟩], .writeReady [⟨2, 0⟩, ⟨-1, eagain⟩]] ?_
  refine ⟨⟨⟨by decide, by decide, by decide⟩, fun _ => ⟨by decide, by decide, 0, by decide⟩⟩,
    fun _ h => ?_⟩
  cases h
  exact ⟨⟨⟨rfl, by decide, by decide⟩, by unfold Careful; decide⟩, fun _ _ => trivial⟩

/-- A send of nothing that would block leaves write interest without anything to write. -/
theorem empty_send_blocks : ∃ s,
    run (step 8 ⟨0, 5, some 1⟩) (connect sample 5 0 80) [.send [] 0 0 [⟨-1, eagain⟩]] = some s ∧
    s.transport.eda 5 = some true ∧ s.outstanding 5 = [] ∧ ¬ Faithful ⟨0, 5, some 1⟩ s := by
  refine ⟨_, rfl, rfl, rfl, fun h => ?_⟩
  exact absurd rfl (h.interest.mp rfl)

end Stream

end Libsax.Net.Transport
