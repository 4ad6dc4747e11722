import Mathlib.Data.List.Forall2
import Libsax.Net2.TaskFrames

/-! The tasks that go in at one end of a connection come out at the other, whatever the
socket takes and the reads bring. -/
namespace Libsax.Net2.TaskStreamer

open Libsax.Lib Libsax.Lib.Frames

variable {thrift : ThriftUtility} {heap : Heap} {read write : Buffer} {link : Link}
  {task : Task} {out rest pending : List UInt8} {bodies : List (List UInt8)}

def Reader.Event.bytes : Reader.Event → List UInt8
  | .read reads _ => reads.flatten
  | .meanwhile _ => []

/-- There is memory for what the event brings, no read fills `tmp_buf` or meets the end of the
stream, and what others do to the queue is not done for this connection. -/
def Reader.Fits (reader : Reader) : Reader.Event → Prop
  | .read reads waits => Short reads ∧
      reader.read.contents.length + reads.flatten.length ≤ 2 ^ 63 ∧
      ∀ wait ∈ waits, ∀ step ∈ wait, step.Other reader.connId
  | .meanwhile step => step.Other reader.connId

/-- There is a place in the queue for each frame that the event completes. -/
def Reader.Places (reader : Reader) : Reader.Event → Prop
  | .read reads waits => ∀ bodies rest,
      Splits 4 (reader.read.contents ++ reads.flatten) bodies rest →
      Net2.Places reader.queue.waiting.length waits bodies.length
  | .meanwhile _ => True

private theorem received_sublist {tasks kept : List Task}
    (hreceived : List.Forall₂ Received bodies tasks)
    (hkept : kept.Sublist tasks) :
    ∃ left, left.Sublist bodies ∧ List.Forall₂ Received left kept := by
  induction hkept generalizing bodies with
  | slnil => exact ⟨[], List.nil_sublist bodies, .nil⟩
  | cons task _ ih =>
    cases hreceived with
    | cons _ hothers =>
      obtain ⟨left, hleft, hsame⟩ := ih hothers
      exact ⟨left, hleft.cons _, hsame⟩
  | cons_cons task _ ih =>
    cases hreceived with
    | cons hfirst hothers =>
      obtain ⟨left, hleft, hsame⟩ := ih hothers
      exact ⟨_ :: left, hleft.cons_cons _, .cons hfirst hsame⟩

theorem queued {queue : TaskQueue} {connId : UInt64} {waits : List (List Foreign)}
    {tasks : List Task} (hothers : ∀ wait ∈ waits, ∀ step ∈ wait, step.Other connId)
    (hreceived : List.Forall₂ Received bodies tasks) :
    ∃ kept tasks', kept.Sublist bodies ∧ List.Forall₂ Received kept tasks' ∧
      (queue.pushAll connId waits tasks).tasksOf connId = queue.tasksOf connId ++ tasks' ∧
      (Places queue.waiting.length waits bodies.length → kept = bodies) := by
  obtain ⟨tasks', hsublist, htasks, hall⟩ :=
    @TaskQueue.pushAll_tasksOf queue connId waits hothers tasks
  obtain ⟨kept, hkept, hsame⟩ := received_sublist hreceived hsublist
  refine ⟨kept, tasks', hkept, hsame, htasks, fun hplaces => ?_⟩
  rw [hreceived.length_eq] at hplaces
  refine hkept.eq_of_length ?_
  rw [hsame.length_eq, hall hplaces, hreceived.length_eq]

theorem Reader.step_connId {reader next : Reader} {event : Reader.Event}
    (hstep : Reader.step thrift heap reader event = some next) : next.connId = reader.connId := by
  cases event with
  | meanwhile step =>
    cases hstep
    rfl
  | read reads waits =>
    simp only [Reader.step] at hstep
    split_ifs at hstep
    obtain ⟨out, -, hnext⟩ := Option.bind_eq_some_iff.mp hstep
    cases hnext
    rfl

theorem Reader.step_splits (hthrift : thrift.OnlyReads) (hheap : ∀ block, (heap block).isSome)
    {reader : Reader} {event : Reader.Event} (hholds : reader.read.Holds pending)
    (hopen : pending.length < 4 + declared 4 pending) (hconnected : reader.isConnected = true)
    (hsplits : Splits 4 (pending ++ event.bytes) bodies rest)
    (hlong : ∀ body ∈ bodies, 13 ≤ body.length) (hfits : reader.Fits event) :
    ∃ next kept tasks, Reader.step thrift heap reader event = some next ∧
      next.connId = reader.connId ∧ next.isConnected = true ∧ next.read.Holds rest ∧
      kept.Sublist bodies ∧ List.Forall₂ Received kept tasks ∧
      next.queue.tasksOf reader.connId = reader.queue.tasksOf reader.connId ++ tasks ∧
      (reader.Places event → kept = bodies) := by
  cases event with
  | meanwhile step =>
    have hnothing : Splits 4 pending bodies rest := by simpa [Reader.Event.bytes] using hsplits
    obtain ⟨rfl, rfl⟩ := hnothing.unique (splits_nil hopen)
    refine ⟨{ reader with queue := reader.queue.elapse step }, [], [], rfl, rfl, hconnected, hholds,
      List.Sublist.slnil, .nil, ?_, fun _ => rfl⟩
    rw [List.append_nil]
    exact TaskQueue.elapse_tasksOf hfits
  | read reads waits =>
    obtain ⟨hreads, hsmall, hothers⟩ := hfits
    rw [hholds.contents] at hsmall
    obtain ⟨after, tasks, hevent, hafter, htasks⟩ := handleReadEvent_splits hthrift hheap hholds
      hreads hsmall hsplits hlong reader.connId reader.queue waits
    obtain ⟨kept, tasks', hkept, hsame, hqueue, hall⟩ :=
      @queued _ reader.queue _ _ _ hothers htasks
    refine ⟨{ reader with
      read := after
      queue := reader.queue.pushAll reader.connId waits tasks
      isConnected := true }, kept, tasks', ?_, rfl, rfl, hafter, hkept, hsame, hqueue,
      fun hplaces => hall (hplaces bodies rest ?_)⟩
    · simp only [Reader.step, if_pos hconnected, hevent, Option.bind_eq_bind, Option.bind_some]
      rfl
    · rw [hholds.contents]
      exact hsplits

theorem Reader.run_splits (hthrift : thrift.OnlyReads) (hheap : ∀ block, (heap block).isSome)
    {events : List Reader.Event} {reader : Reader} (hholds : reader.read.Holds pending)
    (hopen : pending.length < 4 + declared 4 pending) (hconnected : reader.isConnected = true)
    (hsplits : Splits 4 (pending ++ (events.map Reader.Event.bytes).flatten) bodies rest)
    (hlong : ∀ body ∈ bodies, 13 ≤ body.length)
    (hfits : Along (Reader.step thrift heap) Reader.Fits reader events) :
    ∃ final kept tasks, run (Reader.step thrift heap) reader events = some final ∧
      final.read.Holds rest ∧ kept.Sublist bodies ∧ List.Forall₂ Received kept tasks ∧
      final.queue.tasksOf reader.connId = reader.queue.tasksOf reader.connId ++ tasks ∧
      (Along (Reader.step thrift heap) Reader.Places reader events → kept = bodies) := by
  induction events generalizing reader pending bodies with
  | nil =>
    have hpending : Splits 4 pending bodies rest := by simpa using hsplits
    obtain ⟨rfl, rfl⟩ := hpending.unique (splits_nil hopen)
    exact ⟨reader, [], [], rfl, hholds, List.Sublist.slnil, .nil, (List.append_nil _).symm,
      fun _ => rfl⟩
  | cons event events ih =>
    rw [List.map_cons, List.flatten_cons, ← List.append_assoc] at hsplits
    obtain ⟨early, late, middle, rfl, hearly, hlate⟩ := hsplits.divide (by decide)
    obtain ⟨hearlyLong, hlateLong⟩ := List.forall_mem_append.mp hlong
    obtain ⟨next, kept, tasks, hstep, hid, hstill, hnext, hkept, hsame, hqueue, hall⟩ :=
      Reader.step_splits hthrift hheap hholds hopen hconnected hearly hearlyLong hfits.1
    obtain ⟨final, keptLate, more, hrun, hfinal, hkeptLate, hmore, hqueueLate, hallLate⟩ :=
      ih hnext hearly.short hstill hlate hlateLong (hfits.2 _ hstep)
    rw [hid, hqueue, List.append_assoc] at hqueueLate
    refine ⟨final, kept ++ keptLate, tasks ++ more, run_cons_eq_some.mpr ⟨_, hstep, hrun⟩, hfinal,
      hkept.append hkeptLate, List.rel_append hsame hmore, hqueueLate, fun hplaces => ?_⟩
    rw [hall hplaces.1, hallLate (hplaces.2 _ hstep)]

/-- What goes out for a task. -/
def bodyOf (task : Task) : List UInt8 := header task (flagOf task) ++ task.data.contents

/-- The data may have been flipped before. -/
def Carries (buf : Buffer) : Prop := buf.Holds buf.contents ∨ buf.Reads buf.contents

@[simp] private theorem bodyOf_length (task : Task) :
    (bodyOf task).length = 13 + task.data.contents.length := by
  simp [bodyOf, header]
  omega

theorem Carries.flip {buf : Buffer} (hcarries : Carries buf) :
    ∃ flipped, buf.flip.1 = flipped ∧ flipped.Reads buf.contents := by
  rcases hcarries with hholds | hreads
  · obtain ⟨flipped, hflip, hflipped⟩ := hholds.flip
    exact ⟨flipped, by rw [hflip], hflipped⟩
  · exact ⟨buf, by rw [hreads.flip], hreads⟩

private theorem onDataWrite_appends (thrift : ThriftUtility) (hheap : ∀ block, (heap block).isSome)
    (connId : UInt64) (table : ConnTaskMap) (hplain : task.isThriftData = false)
    (hcarries : Carries task.data)
    (hshort : task.data.contents.length < 2 ^ 32 - 13) (hholds : write.Holds out)
    (hroom : out.length + 17 + task.data.contents.length ≤ 2 ^ 63) :
    ∃ totlen next sent after,
      onDataWrite thrift heap (some ⟨connId, true⟩) table task write =
        some (totlen, next, sent, after) ∧ after.Holds (out ++ frame 4 (bodyOf task)) := by
  obtain ⟨flipped, hflip, hflipped⟩ := hcarries.flip
  have hremaining : flipped.remaining = UInt64.ofNat task.data.contents.length := by
    apply UInt64.toNat_inj.mp
    rw [hflipped.remaining, UInt64.toNat_ofNat']
    omega
  have htotlen : (flipped.remaining + 13).toUInt32.toNat = (bodyOf task).length := by
    rw [UInt64.toNat_toUInt32, UInt64.toNat_add, hflipped.remaining, bodyOf_length]
    change (_ + 13) % 2 ^ 64 % 2 ^ 32 = _
    omega
  obtain ⟨withLen, hputLen, hholds⟩ := hholds.put hheap
    (Bytes.encode 4 (bodyOf task).length).reverse (by simp; omega)
  obtain ⟨withKey, hputKey, hholds⟩ := hholds.put hheap
    (Bytes.encode 8 task.transKey.toNat).reverse (by simp; omega)
  obtain ⟨withType, hputType, hholds⟩ := hholds.put hheap
    (Bytes.encode 4 task.type.toNat).reverse (by simp; omega)
  obtain ⟨withFlag, hputFlag, hholds⟩ := hholds.put hheap
    [flagOf task] (by simp; omega)
  rw [← List.append_nil task.data.contents] at hflipped
  obtain ⟨after, hputData, hholds⟩ := hholds.putBuffer hflipped hheap (by simp; omega)
  have hstream : out ++ frame 4 (bodyOf task) =
      out ++ (Bytes.encode 4 (bodyOf task).length).reverse ++
        (Bytes.encode 8 task.transKey.toNat).reverse ++ (Bytes.encode 4 task.type.toNat).reverse ++
        [flagOf task] ++ task.data.contents := by
    simp only [frame, bodyOf, header, List.append_assoc]
  have hflag : flagOf { task with data := flipped } = flagOf task := rfl
  have hraw : ¬task.isThriftData = true := by simp [hplain]
  unfold onDataWrite
  simp only [if_neg hraw, Option.map_some, hflip, htotlen, Buffer.putInt, Option.bind_eq_bind]
  split_ifs <;>
  · simp only [Option.bind_some, hputLen, hputKey, hputType, hflag, hputFlag, hremaining, hputData]
    exact ⟨_, _, _, after, rfl, hstream ▸ hholds⟩

private theorem handleWriteEvent_takes (hholds : write.Holds (pending ++ rest)) :
    ∃ after, handleWriteEvent write pending.length = some (after, pending) ∧
      after.Holds rest := by
  obtain ⟨flipped, hflip, hflipped⟩ := hholds.flip
  have hadvanced := hflipped.advance
  have hinside : ¬flipped.position + UInt64.ofNat pending.length > flipped.limit := by
    have hends := (hadvanced 0).ends
    rw [gt_iff_lt, UInt64.lt_iff_toNat_lt]
    dsimp only at hends
    omega
  obtain ⟨after, hcompact, hafter⟩ := (hadvanced (if flipped.mark ≠ Buffer.invalidPos ∧
    flipped.mark > flipped.position + UInt64.ofNat pending.length then Buffer.invalidPos
    else flipped.mark)).compact
  refine ⟨after, ?_, hafter⟩
  unfold handleWriteEvent
  simp only [hflip, hflipped.ahead, Option.bind_eq_bind, Option.bind_some, Buffer.setPosition,
    if_neg hinside, hcompact]
  rfl

/-- What a step relies on: memory, a socket that takes at most what it is offered, tasks of
other data than generated code's, short enough that `totlen` is their length, and places in
the queue. -/
def Link.Fits (link : Link) : Event → Prop
  | .write task => task.isThriftData = false ∧ Carries task.data ∧
      task.data.contents.length < 2 ^ 32 - 13 ∧
      link.write.contents.length + 17 + task.data.contents.length ≤ 2 ^ 63
  | .send hasSend => hasSend ≤ link.write.contents.length
  | .receive sizes closes waits => link.reader.isConnected = true ∧
      link.reader.Fits (.read (cut sizes link.wire).1 waits) ∧
      (closes = false → link.reader.Places (.read (cut sizes link.wire).1 waits))
  | .meanwhile step => link.reader.Fits (.meanwhile step)

/-- The same task at the other end. -/
structure Same (sent received : Task) : Prop where
  transKey : received.transKey = sent.transKey
  type : received.type = sent.type
  isCall : received.isCall = sent.isCall
  isNeedResponse : received.isNeedResponse = sent.isNeedResponse
  isFinish : received.isFinish = sent.isFinish
  isThriftData : received.isThriftData = sent.isThriftData
  data : received.data.Holds sent.data.contents

/-- Tasks arrive in order, and the others are under way, unless the connection was closed. -/
structure Link.Delivers (link : Link) : Prop where
  split : ∃ done todo, link.written = done ++ todo ∧
    List.Forall₂ Same done (link.reader.queue.tasksOf link.reader.connId) ∧
    link.reader.read.contents ++ link.wire ++ link.write.contents =
      ((todo.map bodyOf).map (frame 4)).flatten ∧
    (link.reader.isConnected = true → link.wire = [] → link.write.contents = [] → todo = [])

private theorem flagOf_bits (isCall isNeedResponse isFinish isThriftData : Bool) :
    let flag : UInt8 := (if isCall then 1 else 0) + (if isNeedResponse then 2 else 0) +
      (if isFinish then 4 else 0) + if isThriftData then 8 else 0
    (flag &&& 1 != 0) = isCall ∧ (flag &&& 2 != 0) = isNeedResponse ∧
      (flag &&& 4 != 0) = isFinish ∧ (flag &&& 8 != 0) = isThriftData := by
  cases isCall <;> cases isNeedResponse <;> cases isFinish <;> cases isThriftData <;> decide

private theorem encode_inj {length left right : Nat} (hleft : left < 256 ^ length)
    (hright : right < 256 ^ length)
    (heq : (Bytes.encode length left).reverse = (Bytes.encode length right).reverse) :
    left = right := by
  have hdecode := congrArg Bytes.decode (List.reverse_injective heq)
  rw [Bytes.decode_encode, Bytes.decode_encode, Nat.mod_eq_of_lt hleft,
    Nat.mod_eq_of_lt hright] at hdecode
  exact hdecode

private theorem same_of_received {received : Task} (hplain : task.isThriftData = false)
    (hreceived : Received (bodyOf task) received) : Same task received := by
  obtain ⟨flag, payload, hbytes, hcall, hneed, hfinish, hthrift, hdata⟩ := hreceived.bytes
  unfold bodyOf header at hbytes
  obtain ⟨hheader, rfl⟩ := List.append_inj hbytes (by simp)
  obtain ⟨hkey, hbehind⟩ := List.append_inj hheader (by simp)
  obtain ⟨htype, hflag⟩ := List.append_inj hbehind (by simp)
  obtain rfl : flagOf task = flag := List.head_eq_of_cons_eq hflag
  obtain ⟨hbitCall, hbitNeed, hbitFinish, hbitThrift⟩ :=
    flagOf_bits task.isCall task.isNeedResponse task.isFinish task.isThriftData
  have hsameThrift : received.isThriftData = task.isThriftData := hthrift.trans hbitThrift
  refine ⟨?_, ?_, hcall.trans hbitCall, hneed.trans hbitNeed, hfinish.trans hbitFinish, hsameThrift,
    hdata (hsameThrift.trans hplain)⟩
  · exact UInt64.toNat_inj.mp (encode_inj received.transKey.toNat_lt task.transKey.toNat_lt hkey.symm)
  · exact UInt32.toNat_inj.mp (encode_inj received.type.toNat_lt task.type.toNat_lt htype.symm)

private theorem sames_of_received {sent received : List Task}
    (hplain : ∀ task ∈ sent, task.isThriftData = false)
    (hreceived : List.Forall₂ Received (sent.map bodyOf) received) :
    List.Forall₂ Same sent received := by
  induction sent generalizing received with
  | nil =>
    cases hreceived
    exact .nil
  | cons task sent ih =>
    obtain ⟨hhead, htail⟩ := List.forall_mem_cons.mp hplain
    cases hreceived with
    | cons hfirst hothers => exact .cons (same_of_received hhead hfirst) (ih htail hothers)

@[simp] private theorem cut_flatten (sizes : List Nat) (bytes : List UInt8) :
    (cut sizes bytes).1.flatten ++ (cut sizes bytes).2 = bytes := by
  induction sizes generalizing bytes with
  | nil => rfl
  | cons size sizes ih =>
    rw [cut, List.flatten_cons, List.append_assoc, ih, List.take_append_drop]

/-- The bytes that have not been taken are the frames of the tasks that have not
arrived. -/
structure Link.Stands (link : Link) (rest out : List UInt8) (done todo : List Task) : Prop where
  read : link.reader.read.Holds rest
  short : link.reader.isConnected = true → rest.length < 4 + declared 4 rest
  write : link.write.Holds out
  written : link.written = done ++ todo
  arrived : List.Forall₂ Same done (link.reader.queue.tasksOf link.reader.connId)
  underway : rest ++ link.wire ++ out = ((todo.map bodyOf).map (frame 4)).flatten
  plain : ∀ task ∈ todo, task.isThriftData = false
  sized : ∀ task ∈ todo, task.data.contents.length < 2 ^ 32 - 13

theorem Link.Stands.write_step {done todo : List Task} (hstands : link.Stands rest out done todo)
    (hheap : ∀ block, (heap block).isSome) (connId : UInt64) (hfits : link.Fits (.write task)) :
    ∃ next, link.step thrift heap connId (.write task) = some next ∧
      ∃ after, next.Stands rest after done (todo ++ [task]) := by
  obtain ⟨hplain, hcarries, hshort, hroom⟩ := hfits
  rw [hstands.write.contents] at hroom
  obtain ⟨totlen, table, sent, after, hcall, hafter⟩ := onDataWrite_appends thrift
    hheap connId link.table hplain hcarries hshort hstands.write hroom
  refine ⟨{ link with table := table, write := after, written := link.written ++ [task] }, ?_,
    out ++ frame 4 (bodyOf task), ?_⟩
  · simp only [Link.step, hcall, Option.bind_eq_bind, Option.bind_some]
    rfl
  · exact {
      read := hstands.read
      short := hstands.short
      write := hafter
      written := by rw [hstands.written, List.append_assoc]
      arrived := hstands.arrived
      underway := by
        rw [← List.append_assoc, hstands.underway]
        simp
      plain := List.forall_mem_append.mpr ⟨hstands.plain, by simpa using hplain⟩
      sized := List.forall_mem_append.mpr ⟨hstands.sized, by simpa using hshort⟩ }

theorem Link.Stands.send_step {done todo : List Task} (hstands : link.Stands rest out done todo)
    (connId : UInt64) {hasSend : Nat} (hfits : link.Fits (.send hasSend)) :
    ∃ next, link.step thrift heap connId (.send hasSend) = some next ∧
      ∃ after, next.Stands rest after done todo := by
  have hlength : (out.take hasSend).length = hasSend := by
    rw [Link.Fits, hstands.write.contents] at hfits
    rw [List.length_take, Nat.min_eq_left hfits]
  have hwrite := hstands.write
  rw [← List.take_append_drop hasSend out] at hwrite
  obtain ⟨after, hsend, hafter⟩ := handleWriteEvent_takes hwrite
  rw [hlength] at hsend
  refine ⟨{ link with write := after, wire := link.wire ++ out.take hasSend }, ?_,
    out.drop hasSend, ?_⟩
  · simp only [Link.step, hsend, Option.bind_eq_bind, Option.bind_some]
    rfl
  · exact { hstands with
      write := hafter
      underway := by
        rw [← hstands.underway]
        simp only [List.append_assoc, List.take_append_drop] }

theorem Link.Stands.underway_cut {done todo : List Task}
    (hstands : link.Stands rest out done todo) (sizes : List Nat) :
    rest ++ (cut sizes link.wire).1.flatten ++ ((cut sizes link.wire).2 ++ out) =
      ((todo.map bodyOf).map (frame 4)).flatten := by
  have hwire := cut_flatten sizes link.wire
  rw [← hstands.underway, List.append_assoc, ← List.append_assoc _ _ out, hwire, List.append_assoc]

theorem Link.Stands.receive_step {done todo : List Task}
    (hstands : link.Stands rest out done todo) (hthrift : thrift.OnlyReads)
    (hheap : ∀ block, (heap block).isSome) (connId : UInt64) {sizes : List Nat}
    {waits : List (List Foreign)} (hfits : link.Fits (.receive sizes false waits)) :
    ∃ next, link.step thrift heap connId (.receive sizes false waits) = some next ∧
      ∃ middle early late, todo = early ++ late ∧ next.Stands middle out (done ++ early) late := by
  obtain ⟨hconnected, hfits, hplaces⟩ := hfits
  have hsplits : Splits 4 ((rest ++ (cut sizes link.wire).1.flatten) ++
      ((cut sizes link.wire).2 ++ out)) (todo.map bodyOf) [] := by
    refine ⟨?_, ?_, short_nil (by decide)⟩
    · rw [List.append_nil, hstands.underway_cut]
    · intro body hbody
      obtain ⟨task, htask, rfl⟩ := List.mem_map.mp hbody
      have hsized := hstands.sized task htask
      rw [bodyOf_length]
      omega
  obtain ⟨earlyBodies, lateBodies, middle, hbodies, hearly, hlate⟩ := hsplits.divide (by decide)
  obtain ⟨early, late, rfl, rfl, rfl⟩ := List.map_eq_append_iff.mp hbodies
  obtain ⟨hearlyPlain, hlatePlain⟩ := List.forall_mem_append.mp hstands.plain
  have hlong : ∀ body ∈ early.map bodyOf, 13 ≤ body.length := by
    intro body hbody
    obtain ⟨task, -, rfl⟩ := List.mem_map.mp hbody
    rw [bodyOf_length]
    omega
  obtain ⟨reader, kept, tasks, hevent, hid, hstill, hafter, -, htasks, hqueue, hall⟩ :=
    Reader.step_splits hthrift hheap hstands.read (hstands.short hconnected) hconnected
      (show Splits 4 (rest ++ (Reader.Event.read _ waits).bytes) _ _ from hearly) hlong hfits
  rw [hall (hplaces rfl)] at htasks
  have harrived : List.Forall₂ Same (done ++ early)
      (reader.queue.tasksOf link.reader.connId) := by
    rw [hqueue]
    exact List.rel_append hstands.arrived (sames_of_received hearlyPlain htasks)
  refine ⟨{ link with
    reader := reader
    wire := (cut sizes link.wire).2 }, ?_, middle, early, late, rfl, ?_⟩
  · simp only [Link.step, Bool.false_eq_true, if_false, hevent, Option.bind_eq_bind,
      Option.bind_some]
    rfl
  · exact {
      read := hafter
      short := fun _ => hearly.short
      write := hstands.write
      written := by rw [hstands.written, List.append_assoc]
      arrived := hid ▸ harrived
      underway := by
        have hframed := hlate.framed
        rw [List.append_nil] at hframed
        rw [List.append_assoc]
        exact hframed
      plain := hlatePlain
      sized := (List.forall_mem_append.mp hstands.sized).2 }

theorem Link.Stands.close_step {done todo : List Task}
    (hstands : link.Stands rest out done todo) (hheap : ∀ block, (heap block).isSome)
    (connId : UInt64) {sizes : List Nat} {waits : List (List Foreign)}
    (hfits : link.Fits (.receive sizes true waits)) :
    ∃ next, link.step thrift heap connId (.receive sizes true waits) = some next ∧
      ∃ left, next.Stands left out done todo := by
  obtain ⟨hconnected, ⟨hreads, hsmall, -⟩, -⟩ := hfits
  rw [hstands.read.contents] at hsmall
  obtain ⟨after, hevent, hafter⟩ := handleReadEvent_closes thrift hheap hstands.read hreads hsmall
    link.reader.connId link.reader.queue waits
  refine ⟨{ link with
    reader := { link.reader with
      read := after
      isConnected := false }
    wire := (cut sizes link.wire).2 }, ?_, rest ++ (cut sizes link.wire).1.flatten, ?_⟩
  · simp only [Link.step, if_true, Reader.step, if_pos hconnected, hevent, Option.bind_eq_bind,
      Option.bind_some]
    rfl
  · exact { hstands with
      read := hafter
      short := fun hstill => nomatch hstill
      underway := by
        rw [List.append_assoc]
        exact hstands.underway_cut sizes }

theorem Link.Stands.meanwhile_step {done todo : List Task}
    (hstands : link.Stands rest out done todo) (connId : UInt64) {step : Foreign}
    (hfits : link.Fits (.meanwhile step)) :
    ∃ next, link.step thrift heap connId (.meanwhile step) = some next ∧
      next.Stands rest out done todo := by
  refine ⟨{ link with reader := { link.reader with queue := link.reader.queue.elapse step } }, rfl,
    { hstands with arrived := ?_ }⟩
  rw [TaskQueue.elapse_tasksOf hfits]
  exact hstands.arrived

theorem Link.Stands.delivers {done todo : List Task} (hstands : link.Stands rest out done todo) :
    link.Delivers := by
  have hread := hstands.read.contents
  have hwrite := hstands.write.contents
  refine ⟨done, todo, hstands.written, hstands.arrived, ?_, fun hconnected hwire hempty => ?_⟩
  · rw [hread, hwrite, hstands.underway]
  · have hunderway := hstands.underway
    rw [hwire, hwrite.symm.trans hempty, List.append_nil, List.append_nil] at hunderway
    cases todo with
    | nil => rfl
    | cons task todo =>
      have hsized := hstands.sized task List.mem_cons_self
      have hshort := hstands.short hconnected
      rw [hunderway, List.map_cons, List.map_cons, List.flatten_cons] at hshort
      have hbody : (bodyOf task).length < 256 ^ 4 := by
        rw [bodyOf_length]
        omega
      exact absurd hshort (not_short_frame hbody _)

theorem Link.step_stands (hthrift : thrift.OnlyReads) (hheap : ∀ block, (heap block).isSome)
    (connId : UInt64) (event : Event) (hfits : link.Fits event)
    (hstands : ∃ rest out done todo, link.Stands rest out done todo) :
    ∃ next, link.step thrift heap connId event = some next ∧
      ∃ rest out done todo, next.Stands rest out done todo := by
  obtain ⟨rest, out, done, todo, hstands⟩ := hstands
  cases event with
  | write task =>
    obtain ⟨next, hstep, after, hnext⟩ := hstands.write_step hheap connId hfits
    exact ⟨next, hstep, rest, after, done, _, hnext⟩
  | send hasSend =>
    obtain ⟨next, hstep, after, hnext⟩ := hstands.send_step connId hfits
    exact ⟨next, hstep, rest, after, done, todo, hnext⟩
  | receive sizes closes waits =>
    cases closes with
    | false =>
      obtain ⟨next, hstep, middle, early, late, -, hnext⟩ :=
        hstands.receive_step hthrift hheap connId hfits
      exact ⟨next, hstep, middle, out, done ++ early, late, hnext⟩
    | true =>
      obtain ⟨next, hstep, left, hnext⟩ := hstands.close_step hheap connId hfits
      exact ⟨next, hstep, left, out, done, todo, hnext⟩
  | meanwhile step =>
    obtain ⟨next, hstep, hnext⟩ := hstands.meanwhile_step connId hfits
    exact ⟨next, hstep, rest, out, done, todo, hnext⟩

/-- A reader at the beginning, with whatever the queue holds. -/
def Reader.create (connId : UInt64) (empty : Buffer) (queue : TaskQueue) : Reader :=
  ⟨connId, empty, queue, true⟩

def Link.create (connId : UInt64) (empty : Buffer) (queue : TaskQueue) : Link :=
  ⟨StdMap.empty, empty, [], Reader.create connId empty queue, []⟩

/-- Frames that declare at least thirteen bytes come through however the stream is cut, and
their tasks come into the queue, in their order, each that finds a place there; so do the
tasks of the other end. A frame that declares fewer is wrong as soon as thirteen bytes are
there. -/
theorem tasks_survive_chunking (hthrift : thrift.OnlyReads)
    (hheap : ∀ block, (heap block).isSome) :
    ∃ empty, Buffer.create heap 0 512 = some empty ∧
      (∀ connId queue events bodies rest, queue.tasksOf connId = [] →
        Splits 4 (events.map Reader.Event.bytes).flatten bodies rest →
        (∀ body ∈ bodies, 13 ≤ body.length) →
        Along (Reader.step thrift heap) Reader.Fits (.create connId empty queue) events →
        ∃ final kept, run (Reader.step thrift heap) (.create connId empty queue) events =
            some final ∧
          final.read.Holds rest ∧ kept.Sublist bodies ∧
          List.Forall₂ Received kept (final.queue.tasksOf connId) ∧
          (Along (Reader.step thrift heap) Reader.Places (.create connId empty queue) events →
            kept = bodies)) ∧
      (∀ sender receiver queue events, queue.tasksOf receiver = [] →
        Along (Link.step thrift heap sender) Link.Fits (.create receiver empty queue) events →
        ∃ final, run (Link.step thrift heap sender) (.create receiver empty queue) events =
            some final ∧ final.Delivers) ∧
      ∀ (read : Buffer) body rest, body.length < 13 → 13 ≤ body.length + rest.length →
        read.Reads (frame 4 body ++ rest) →
        ∃ counted after task tail, read.setMark.getInt 4 = some (counted, some body.length) ∧
          takeTask thrift heap counted (UInt32.ofNat body.length) = some (after, task) ∧
          after.Reads tail ∧ tail.length < rest.length := by
  obtain ⟨empty, hcreate, hempty⟩ := Buffer.create_holds hheap 0
  refine ⟨empty, hcreate, ?_, ?_, ?_⟩
  · intro connId queue events bodies rest hnone hsplits hlong hfits
    obtain ⟨final, kept, tasks, hrun, hfinal, hkept, hsame, hqueue, hall⟩ :=
      Reader.run_splits hthrift hheap
        (show (Reader.create connId empty queue).read.Holds [] from hempty)
        (short_nil (by decide)) rfl hsplits hlong hfits
    have htasks : final.queue.tasksOf connId = tasks := by
      rw [← List.nil_append tasks, ← hnone]
      exact hqueue
    exact ⟨final, kept, hrun, hfinal, hkept, htasks ▸ hsame, hall⟩
  · intro sender receiver queue events hnone hfits
    have harrived : List.Forall₂ Same [] (queue.tasksOf receiver) := by
      rw [hnone]
      exact .nil
    have hstart : (Link.create receiver empty queue).Stands [] [] [] [] :=
      ⟨hempty, fun _ => short_nil (by decide), hempty, rfl, harrived, rfl, by simp, by simp⟩
    obtain ⟨final, hrun, rest, out, done, todo, hfinal⟩ := run_along
      (fun link event hfits hstands => Link.step_stands hthrift hheap sender event hfits hstands)
      hfits ⟨[], [], [], [], hstart⟩
    exact ⟨final, hrun, hfinal.delivers⟩
  · intro read body rest hshort hthere hreads
    rw [frame, List.append_assoc] at hreads
    obtain ⟨counted, hget, hcounted⟩ := hreads.setMark.getInt_reads 4 (by simp)
    rw [List.reverse_reverse, Bytes.decode_encode, Nat.mod_eq_of_lt (by omega)] at hget
    obtain ⟨after, task, tail, htake, hafter, hless⟩ :=
      takeTask_overruns hthrift hheap hcounted hshort hthere
    exact ⟨counted, after, task, tail, hget, htake, hafter, hless⟩

/-- Memory full of zeros, and no generated code. -/
def zeroHeap : Heap := fun _ => some fun _ => 0

def unregistered : ThriftUtility := ⟨fun _ buf => buf, fun _ buf => buf⟩

/-- A call of key 5 and type 7 without data. -/
def smallBody : List UInt8 := [0, 0, 0, 0, 0, 0, 0, 5, 0, 0, 0, 7, 1]

/-- An empty frame takes thirteen bytes of the one behind it. -/
theorem empty_frame_desynchronises :
    ¬∀ empty events bodies rest, Buffer.create zeroHeap 0 512 = some empty →
      Splits 4 (events.map Reader.Event.bytes).flatten bodies rest →
      Along (Reader.step unregistered zeroHeap) (fun reader event => reader.Fits event ∧
        reader.Places event) (.create 3 empty .empty) events →
      ∃ final, run (Reader.step unregistered zeroHeap) (.create 3 empty .empty) events =
          some final ∧ final.read.Holds rest := by
  intro hall
  obtain ⟨empty, hcreate, hempty⟩ := @Buffer.create_holds zeroHeap (fun _ => rfl) 0
  have hplaces : (Reader.create 3 empty .empty).Places
      (.read [frame 4 [] ++ frame 4 smallBody] []) := by
    intro bodies rest hsplits
    have hle := hsplits.length_le (by decide)
    rw [Reader.create, hempty.contents] at hle
    exact places_of_free (Nat.le_trans (Nat.add_le_add_left hle 0) (by decide))
  obtain ⟨final, hrun, hfinal⟩ := hall empty [.read [frame 4 [] ++ frame 4 smallBody] []]
    [[], smallBody] [] hcreate ⟨by decide, by decide, by decide⟩ ⟨⟨⟨by decide, by
      rw [Reader.create, hempty.contents]
      decide, by simp⟩, hplaces⟩, fun _ _ => trivial⟩
  have hleft : ((Buffer.create zeroHeap 0 512).bind fun empty =>
      run (Reader.step unregistered zeroHeap) (.create 3 empty .empty)
        [.read [frame 4 [] ++ frame 4 smallBody] []]).map
        (fun final => final.read.contents) = some [0, 0, 7, 1] := by decide +kernel
  rw [hcreate, Option.bind_some, hrun, Option.map_some, hfinal.contents] at hleft
  cases hleft

/-- A task whose data is one byte. -/
def smallTask : Task :=
  { Task.create false ⟨some fun _ => 9, Buffer.invalidPos, 1, 512, 512, false, false, 0⟩ with
    transKey := 5
    type := 7
    isCall := true }

/-- Another connection's task is in front, and is handled while the first one waits. -/
theorem tasks_survive_chunking_small :
    ∃ empty, Buffer.create zeroHeap 0 512 = some empty ∧
      (∃ final, run (Reader.step unregistered zeroHeap) (.create 3 empty .empty)
          [.read [(frame 4 smallBody).take 6] [], .meanwhile (.push ⟨4, smallTask⟩),
            .read [(frame 4 smallBody).drop 6, [1, 2]] [[.handle]]] = some final ∧
        final.read.Holds [1, 2] ∧
        List.Forall₂ Received [smallBody] (final.queue.tasksOf 3)) ∧
      (∃ final, run (Link.step unregistered zeroHeap 3) (.create 3 empty .empty)
          [.write smallTask, .send 18, .receive [5, 13] false []] = some final ∧
        final.Delivers) := by
  obtain ⟨empty, hcreate, hstreams, hlinks, -⟩ := @tasks_survive_chunking
    unregistered zeroHeap (fun _ _ _ hreads => ⟨0, hreads⟩) fun _ => rfl
  have hempty : (Buffer.create zeroHeap 0 512).map Buffer.contents = some [] := by
    decide +kernel
  rw [hcreate, Option.map_some, Option.some.injEq] at hempty
  refine ⟨empty, hcreate, ?_, ?_⟩
  · have hsecond : ((Buffer.create zeroHeap 0 512).bind fun empty =>
        run (Reader.step unregistered zeroHeap) (.create 3 empty .empty)
          [.read [(frame 4 smallBody).take 6] [], .meanwhile (.push ⟨4, smallTask⟩)]).map
            (fun next => (next.connId, next.read.contents, next.queue.waiting.length)) =
        some (3, (frame 4 smallBody).take 6, 1) := by decide +kernel
    rw [hcreate, Option.bind_some] at hsecond
    have hsecond : ∀ next last, Reader.step unregistered zeroHeap (.create 3 empty .empty)
          (.read [(frame 4 smallBody).take 6] []) = some next →
        Reader.step unregistered zeroHeap next (.meanwhile (.push ⟨4, smallTask⟩)) = some last →
        last.connId = 3 ∧ last.read.contents = (frame 4 smallBody).take 6 ∧
          last.queue.waiting.length = 1 := by
      intro next last hnext hlast
      rw [run_cons_eq_some.mpr ⟨next, hnext, run_cons_eq_some.mpr ⟨last, hlast, run_nil _ _⟩⟩]
        at hsecond
      simpa only [Option.map_some, Option.some.injEq, Prod.mk.injEq] using hsecond
    obtain ⟨final, kept, hrun, hfinal, -, hsame, hall⟩ := hstreams 3 .empty
      [.read [(frame 4 smallBody).take 6] [], .meanwhile (.push ⟨4, smallTask⟩),
        .read [(frame 4 smallBody).drop 6, [1, 2]] [[.handle]]] [smallBody] [1, 2] rfl
      ⟨by decide, by decide, by decide⟩ (by decide)
      ⟨⟨by decide, by rw [Reader.create, hempty]; decide, by simp⟩, fun next hnext =>
        ⟨by simp [Reader.Fits, Reader.step_connId hnext, Reader.create, Foreign.Other], fun last hlast =>
          ⟨⟨by decide, by rw [(hsecond next last hnext hlast).2.1]; decide, by
            simp [Foreign.Other]⟩, fun _ _ => trivial⟩⟩⟩
    refine ⟨final, hrun, hfinal, hall ⟨?_, fun next hnext => ⟨trivial, fun last hlast =>
      ⟨?_, fun _ _ => trivial⟩⟩⟩ ▸ hsame⟩
    · intro bodies rest hsplits
      have hle := hsplits.length_le (by decide)
      rw [Reader.create, hempty] at hle
      exact places_of_free (Nat.le_trans (Nat.add_le_add_left hle 0) (by decide))
    · intro bodies rest hsplits
      obtain ⟨-, hcontents, hwaiting⟩ := hsecond next last hnext hlast
      have hone : Splits 4 ((frame 4 smallBody).take 6 ++
          [(frame 4 smallBody).drop 6, [1, 2]].flatten) [smallBody] [1, 2] :=
        ⟨by decide, by decide, by decide⟩
      rw [hcontents] at hsplits
      rw [(hsplits.unique hone).1, hwaiting]
      exact ⟨by decide, trivial⟩
  · have hwritten : ((Buffer.create zeroHeap 0 512).bind fun empty =>
        Link.step unregistered zeroHeap 3 (.create 3 empty .empty) (.write smallTask)).map
          (fun next => next.write.contents.length) = some 18 := by decide +kernel
    have hsent : ((Buffer.create zeroHeap 0 512).bind fun empty =>
        run (Link.step unregistered zeroHeap 3) (.create 3 empty .empty)
          [.write smallTask, .send 18]).map (fun next =>
            (next.reader.isConnected, next.reader.read.contents, next.wire,
              next.reader.queue.waiting.length)) = some (true, [], frame 4 (bodyOf smallTask), 0) := by
      decide +kernel
    rw [hcreate, Option.bind_some] at hwritten hsent
    refine hlinks 3 3 .empty _ rfl ⟨⟨rfl, .inl ⟨⟨_, rfl, rfl⟩, rfl, rfl, rfl, by decide, by decide⟩,
      by decide +kernel, ?_⟩, fun next hnext => ⟨?_, fun last hlast => ⟨?_, fun _ _ => trivial⟩⟩⟩
    · rw [Link.create, hempty]
      decide +kernel
    · rw [hnext] at hwritten
      exact Nat.le_of_eq (Option.some.inj hwritten).symm
    · rw [run_cons_eq_some.mpr ⟨next, hnext, run_cons_eq_some.mpr ⟨last, hlast, run_nil _ _⟩⟩]
        at hsent
      simp only [Option.map_some, Option.some.injEq, Prod.mk.injEq] at hsent
      obtain ⟨hconnected, hcontents, hwire, hwaiting⟩ := hsent
      refine ⟨hconnected, ⟨by rw [hwire]; decide +kernel, by rw [hcontents, hwire]; decide +kernel,
        by simp⟩, fun _ bodies rest hsplits => ?_⟩
      have hle := hsplits.length_le (by decide)
      rw [hcontents, hwire] at hle
      rw [hwaiting]
      exact places_of_free (Nat.le_trans (Nat.add_le_add_left hle 0) (by decide +kernel))

end Libsax.Net2.TaskStreamer
