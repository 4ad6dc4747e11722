import Libsax.Net2.TaskStreamer

/-! Frames of at least thirteen bytes come through however they are cut. A shorter one
takes bytes of those behind it. -/
namespace Libsax.Net2

open Libsax.Lib Libsax.Lib.Frames

namespace Buffer

variable {buf : Buffer} {pending rest : List UInt8}

theorem Holds.withBlocks (hholds : buf.Holds pending) (blocks : Nat) :
    Holds { buf with blocks := blocks } pending := { hholds with }

theorem Reads.withBlocks (hreads : buf.Reads rest) (blocks : Nat) :
    Reads { buf with blocks := blocks } rest := { hreads with }

theorem Reads.setMark (hreads : buf.Reads rest) : buf.setMark.Reads rest := { hreads with }

theorem Reads.position_lt (hreads : buf.Reads rest) : buf.position.toNat < 2 ^ 64 - 1 := by
  have hends := hreads.ends
  have hinside := hreads.inside
  have hsmall := hreads.small
  omega

theorem Reads.getInt_reset {data : List UInt8} {size : Nat} (hreads : buf.Reads (data ++ rest))
    (hsize : data.length = size) :
    ∃ after, buf.setMark.getInt size = some (after, some (Bytes.decode data.reverse)) ∧
      after.Reads rest ∧ after.reset.1.Reads (data ++ rest) := by
  have hposition := hreads.position_lt
  have hvalid : buf.position ≠ invalidPos := by
    rintro heq
    rw [heq] at hposition
    exact absurd hposition (by decide)
  refine ⟨_, hreads.setMark.getInt hsize, ?_, ?_⟩
  · rw [← hsize]
    exact hreads.setMark.advance buf.setMark.mark
  · unfold Buffer.reset
    rw [if_pos (by exact hvalid)]
    exact { hreads with }

theorem Holds.contents (hholds : buf.Holds pending) : buf.contents = pending := by
  obtain ⟨cells, hstorage, hpending⟩ := hholds.stored
  simp [Buffer.contents, hstorage, hholds.writing, hpending]

theorem Reads.contents (hreads : buf.Reads rest) : buf.contents = rest := by
  obtain ⟨cells, hstorage, hrest⟩ := hreads.stored
  simp only [Buffer.contents, hstorage, hreads.reading, hreads.remaining, if_true]
  exact hrest.symm

end Buffer

/-- Nothing but moving the cursor over what can be read. -/
def ThriftUtility.OnlyReads (thrift : ThriftUtility) : Prop :=
  ∀ type buf rest, buf.Reads rest → ∃ count, (thrift.toObject type buf).Reads (rest.drop count)

namespace TaskStreamer

variable {thrift : ThriftUtility} {heap : Heap} {read write : Buffer}
  {stream body rest pending : List UInt8} {bodies : List (List UInt8)}

def header (task : Task) (flag : UInt8) : List UInt8 :=
  (Bytes.encode 8 task.transKey.toNat).reverse ++
    ((Bytes.encode 4 task.type.toNat).reverse ++ [flag])

/-- The task is the one in the bytes. Generated code has had the data of a task of its
own. -/
structure Received (body : List UInt8) (task : Task) : Prop where
  bytes : ∃ flag payload, body = header task flag ++ payload ∧
    task.isCall = (flag &&& 1 != 0) ∧ task.isNeedResponse = (flag &&& 2 != 0) ∧
    task.isFinish = (flag &&& 4 != 0) ∧ task.isThriftData = (flag &&& 8 != 0) ∧
    (task.isThriftData = false → task.data.Holds payload)

theorem exists_header (hlong : 13 ≤ body.length) :
    ∃ key type flag payload, body = key ++ (type ++ ([flag] ++ payload)) ∧
      key.length = 8 ∧ type.length = 4 := by
  obtain ⟨flag, payload, hflag⟩ : ∃ flag payload, body.drop 12 = flag :: payload := by
    cases hdrop : body.drop 12 with
    | nil =>
      have hlength := congrArg List.length hdrop
      rw [List.length_drop, List.length_nil] at hlength
      omega
    | cons flag payload => exact ⟨flag, payload, rfl⟩
  have hdrop : body.drop 12 = (body.drop 8).drop 4 := by rw [List.drop_drop]
  refine ⟨body.take 8, (body.drop 8).take 4, flag, payload, ?_, ?_, ?_⟩
  · rw [List.singleton_append, ← hflag, hdrop, List.take_append_drop, List.take_append_drop]
  · rw [List.length_take]
    omega
  · rw [List.length_take, List.length_drop]
    omega

private theorem decode_reverse {bytes : List UInt8} {length : Nat}
    (hlength : bytes.length = length) :
    (Bytes.encode length (Bytes.decode bytes.reverse)).reverse = bytes := by
  have hdecode := Bytes.encode_decode bytes.reverse
  rw [List.length_reverse, hlength] at hdecode
  rw [hdecode, List.reverse_reverse]

private theorem toNat_decode_key {key : List UInt8} (hkey : key.length = 8) :
    (UInt64.ofNat (Bytes.decode key.reverse)).toNat = Bytes.decode key.reverse := by
  have hlt := Bytes.decode_lt key.reverse
  rw [List.length_reverse, hkey] at hlt
  rw [UInt64.toNat_ofNat']
  exact Nat.mod_eq_of_lt hlt

private theorem toNat_decode_type {type : List UInt8} (htype : type.length = 4) :
    (UInt32.ofNat (Bytes.decode type.reverse)).toNat = Bytes.decode type.reverse := by
  have hlt := Bytes.decode_lt type.reverse
  rw [List.length_reverse, htype] at hlt
  rw [UInt32.toNat_ofNat']
  exact Nat.mod_eq_of_lt hlt

/-- The thirteen bytes in front, whatever the length says, and what `get` then finds. -/
private theorem takeTask_header (hthrift : thrift.OnlyReads) (hheap : ∀ block, (heap block).isSome)
    {key type tail : List UInt8} {flag : UInt8}
    (hreads : read.Reads (key ++ (type ++ ([flag] ++ tail)))) (hkey : key.length = 8)
    (htype : type.length = 4) (taskLen : UInt32) :
    ∃ counted data : Buffer, counted.Reads tail ∧ data.Holds [] ∧
      ∀ behind target result held left,
        counted.getBuffer heap data (taskLen - 13).toUInt64 = some (behind, target, result) →
        behind.Reads left → target.Holds held →
        ∃ after task, takeTask thrift heap read taskLen = some (after, task) ∧
          after.Reads left ∧ Received (key ++ (type ++ ([flag] ++ held))) task := by
  obtain ⟨data, hdata, hempty⟩ := Buffer.create_holds hheap read.blocks
  obtain ⟨afterKey, hgetKey, hreads⟩ := hreads.getInt_reads 8 hkey
  obtain ⟨afterType, hgetType, hreads⟩ := hreads.getInt_reads 4 htype
  obtain ⟨counted, hgetFlag, hreads⟩ := hreads.getInt_reads 1 rfl
  refine ⟨counted, data, hreads, hempty, ?_⟩
  intro behind target result held left hget hbehind htarget
  have hflag : UInt8.ofNat (Bytes.decode [flag].reverse) = flag := by
    simp [Bytes.decode]
  have hreceived : ∀ task : Task, task.transKey = UInt64.ofNat (Bytes.decode key.reverse) →
      task.type = UInt32.ofNat (Bytes.decode type.reverse) →
      key ++ (type ++ ([flag] ++ held)) = header task flag ++ held := by
    intro task hkeyEq htypeEq
    rw [header, hkeyEq, htypeEq, toNat_decode_key hkey, toNat_decode_type htype,
      decode_reverse hkey, decode_reverse htype, List.append_assoc, List.append_assoc]
  unfold takeTask
  simp only [hdata, hgetKey, hgetType, hgetFlag, hget, Option.bind_eq_bind, Option.bind_some,
    Option.getD_some, hflag, Task.create]
  by_cases hgenerated : (flag &&& 8 != 0) = true
  · obtain ⟨flipped, hflip, hflipped⟩ := htarget.flip
    obtain ⟨count, hobject⟩ := hthrift (UInt32.ofNat (Bytes.decode type.reverse)) flipped _ hflipped
    obtain ⟨compacted, hcompact, -⟩ := hobject.compact
    rw [if_pos hgenerated, hflip, hcompact]
    refine ⟨_, _, rfl, hbehind.withBlocks _, flag, held, hreceived _ rfl rfl, rfl, rfl, rfl, rfl,
      fun hplain => ?_⟩
    exact absurd (hgenerated.symm.trans hplain) (by decide)
  · rw [if_neg hgenerated]
    exact ⟨_, _, rfl, hbehind.withBlocks _, flag, held, hreceived _ rfl rfl, rfl, rfl, rfl, rfl,
      fun _ => htarget⟩

private theorem takeTask_reads (hthrift : thrift.OnlyReads) (hheap : ∀ block, (heap block).isSome)
    (hreads : read.Reads (body ++ rest)) (hlong : 13 ≤ body.length)
    (hsized : body.length < 2 ^ 32) :
    ∃ after task, takeTask thrift heap read (UInt32.ofNat body.length) = some (after, task) ∧
      after.Reads rest ∧ Received body task := by
  obtain ⟨key, type, flag, payload, rfl, hkey, htype⟩ := exists_header hlong
  have hlength : (key ++ (type ++ ([flag] ++ payload))).length = 13 + payload.length := by
    simp [hkey, htype]
    omega
  have hpayload : (UInt32.ofNat (key ++ (type ++ ([flag] ++ payload))).length - 13).toUInt64 =
      UInt64.ofNat payload.length := by
    rw [hlength] at hsized ⊢
    apply UInt64.toNat_inj.mp
    rw [UInt32.toNat_toUInt64, UInt32.toNat_sub, UInt32.toNat_ofNat', UInt64.toNat_ofNat',
      Nat.mod_eq_of_lt hsized]
    change (2 ^ 32 - 13 + _) % 2 ^ 32 = _
    omega
  rw [List.append_assoc, List.append_assoc, List.append_assoc] at hreads
  obtain ⟨counted, data, hcounted, hempty, htakes⟩ := takeTask_header hthrift hheap hreads hkey htype
    (UInt32.ofNat (key ++ (type ++ ([flag] ++ payload))).length)
  obtain ⟨behind, target, hget, hbehind, htarget⟩ :=
    hcounted.getBuffer hempty hheap (by rw [List.length_nil]; omega)
  rw [hpayload] at htakes
  exact htakes behind target true payload rest hget hbehind htarget

theorem takeTask_overruns (hthrift : thrift.OnlyReads) (hheap : ∀ block, (heap block).isSome)
    (hreads : read.Reads (body ++ rest)) (hshort : body.length < 13)
    (hthere : 13 ≤ body.length + rest.length) :
    ∃ after task tail, takeTask thrift heap read (UInt32.ofNat body.length) = some (after, task) ∧
      after.Reads tail ∧ tail.length < rest.length := by
  rw [← List.length_append] at hthere
  obtain ⟨key, type, flag, tail, hbytes, hkey, htype⟩ := exists_header hthere
  have hlength : body.length + rest.length = 13 + tail.length := by
    rw [← List.length_append, hbytes]
    simp [hkey, htype]
    omega
  rw [hbytes] at hreads
  obtain ⟨counted, data, hcounted, hempty, htakes⟩ := takeTask_header hthrift hheap hreads hkey
    htype (UInt32.ofNat body.length)
  have hwrapped : (UInt32.ofNat body.length - 13).toUInt64.toNat = 2 ^ 32 - 13 + body.length := by
    rw [UInt32.toNat_toUInt64, UInt32.toNat_sub, UInt32.toNat_ofNat']
    change (2 ^ 32 - 13 + _) % 2 ^ 32 = _
    omega
  by_cases hmore : (UInt32.ofNat body.length - 13).toUInt64.toNat ≤ tail.length
  · have htake : UInt64.ofNat (tail.take (UInt32.ofNat body.length - 13).toUInt64.toNat).length =
        (UInt32.ofNat body.length - 13).toUInt64 := by
      rw [List.length_take, Nat.min_eq_left hmore, UInt64.ofNat_toNat]
    rw [← List.take_append_drop (UInt32.ofNat body.length - 13).toUInt64.toNat tail] at hcounted
    obtain ⟨behind, target, hget, hbehind, htarget⟩ := hcounted.getBuffer hempty hheap (by
      rw [List.length_nil, List.length_take]
      omega)
    rw [htake] at hget
    obtain ⟨after, task, hafter, hleft, -⟩ := htakes _ _ _ _ _ hget hbehind htarget
    refine ⟨after, task, _, hafter, hleft, ?_⟩
    rw [List.length_drop]
    omega
  · have hget := hcounted.getBuffer_refuses heap data (Nat.not_le.mp hmore)
    obtain ⟨after, task, hafter, hleft, -⟩ := htakes _ _ _ _ _ hget hcounted hempty
    exact ⟨after, task, tail, hafter, hleft, by omega⟩

private theorem toNat_declared {length : Nat} (hlength : length < 2 ^ 32) :
    (UInt32.ofNat length).toUInt64.toNat = length := by
  rw [UInt32.toNat_toUInt64, UInt32.toNat_ofNat', Nat.mod_eq_of_lt hlength]

theorem Reads.four_le (hreads : read.Reads stream) : read.remaining ≥ 4 ↔ 4 ≤ stream.length := by
  rw [ge_iff_le, UInt64.le_iff_toNat_le, hreads.remaining]
  exact Iff.rfl

private theorem readTasks_short (hreads : read.Reads rest)
    (hshort : rest.length < 4 + declared 4 rest) (connId : UInt64) (queue : TaskQueue)
    (waits : List (List Foreign)) (fuel : Nat) :
    ∃ after, readTasks thrift heap connId (fuel + 1) read queue waits = some (after, queue) ∧
      after.Reads rest := by
  rw [readTasks]
  by_cases hfour : read.remaining ≥ 4
  · have hfourNat := (Reads.four_le hreads).mp hfour
    have hfirst : (rest.take 4).length = 4 := by
      rw [List.length_take]
      omega
    have hdeclared := Bytes.decode_lt (rest.take 4).reverse
    rw [List.length_reverse, hfirst] at hdeclared
    rw [← List.take_append_drop 4 rest] at hreads
    obtain ⟨counted, hget, hcounted, hreset⟩ := hreads.getInt_reset hfirst
    have hrefused : ¬counted.remaining ≥
        (UInt32.ofNat (Bytes.decode (rest.take 4).reverse)).toUInt64 := by
      rw [ge_iff_le, UInt64.le_iff_toNat_le, toNat_declared hdeclared, hcounted.remaining,
        List.length_drop]
      unfold declared at hshort
      omega
    rw [if_pos hfour]
    simp only [hget, Option.bind_eq_bind, Option.bind_some, Option.getD_some]
    rw [if_neg hrefused]
    rw [List.take_append_drop] at hreset
    exact ⟨_, rfl, hreset⟩
  · rw [if_neg hfour]
    exact ⟨read, rfl, hreads⟩

private theorem readTasks_splits (hthrift : thrift.OnlyReads) (hheap : ∀ block, (heap block).isSome)
    (hsplits : Splits 4 stream bodies rest) (hlong : ∀ body ∈ bodies, 13 ≤ body.length)
    (hreads : read.Reads stream) (connId : UInt64) (queue : TaskQueue)
    (waits : List (List Foreign)) (fuel : Nat) (hfuel : bodies.length < fuel) :
    ∃ after tasks, readTasks thrift heap connId fuel read queue waits =
        some (after, queue.pushAll connId waits tasks) ∧
      after.Reads rest ∧ List.Forall₂ Received bodies tasks := by
  induction bodies generalizing stream read queue waits fuel with
  | nil =>
    obtain ⟨fuel, rfl⟩ := Nat.exists_eq_succ_of_ne_zero (Nat.ne_of_gt hfuel)
    have hstream : stream = rest := hsplits.framed
    obtain ⟨after, hread, hafter⟩ :=
      readTasks_short (hstream ▸ hreads) hsplits.short connId queue waits fuel
    exact ⟨after, [], hread, hafter, .nil⟩
  | cons body bodies ih =>
    obtain ⟨fuel, rfl⟩ := Nat.exists_eq_succ_of_ne_zero (Nat.ne_of_gt (Nat.zero_lt_of_lt hfuel))
    obtain ⟨behind, hstream, hsized, hbehind⟩ := hsplits.tail
    obtain ⟨hbody, hbodies⟩ := List.forall_mem_cons.mp hlong
    have hfour : read.remaining ≥ 4 := by
      apply (Reads.four_le hreads).mpr
      rw [hstream, List.length_append, frame_length]
      omega
    have hmarked := hreads.setMark
    rw [hstream, frame, List.append_assoc] at hmarked
    obtain ⟨counted, hget, hcounted⟩ := hmarked.getInt_reads 4 (by simp)
    rw [List.reverse_reverse, Bytes.decode_encode, Nat.mod_eq_of_lt hsized] at hget
    have henough : counted.remaining ≥ (UInt32.ofNat body.length).toUInt64 := by
      rw [ge_iff_le, UInt64.le_iff_toNat_le, toNat_declared hsized, hcounted.remaining,
        List.length_append]
      omega
    obtain ⟨taken, task, htake, htaken, hreceived⟩ :=
      takeTask_reads hthrift hheap hcounted hbody hsized
    obtain ⟨after, tasks, hread, hafter, htasks⟩ :=
      ih hbehind hbodies htaken (queue.pushBack (waits.headD []) ⟨connId, task⟩).1 waits.tail fuel
        (Nat.lt_of_succ_lt_succ hfuel)
    rw [readTasks, if_pos hfour]
    simp only [hget, Option.bind_eq_bind, Option.bind_some, Option.getD_some]
    rw [if_pos henough]
    simp only [htake, hread, Option.bind_some]
    exact ⟨after, task :: tasks, rfl, hafter, .cons hreceived htasks⟩

private theorem onDataRead_splits (hthrift : thrift.OnlyReads)
    (hheap : ∀ block, (heap block).isSome)
    (hholds : read.Holds stream) (hsplits : Splits 4 stream bodies rest)
    (hlong : ∀ body ∈ bodies, 13 ≤ body.length) (connId : UInt64) (queue : TaskQueue)
    (waits : List (List Foreign)) :
    ∃ after tasks, onDataRead thrift heap connId read queue waits =
        some (after, queue.pushAll connId waits tasks) ∧
      after.Holds rest ∧ List.Forall₂ Received bodies tasks := by
  obtain ⟨flipped, hflip, hflipped⟩ := hholds.flip
  have hfuel : bodies.length < flipped.remaining.toNat + 1 := by
    rw [hflipped.remaining]
    exact Nat.lt_succ_of_le (hsplits.length_le (by decide))
  obtain ⟨behind, tasks, hread, hbehind, htasks⟩ :=
    readTasks_splits hthrift hheap hsplits hlong hflipped connId queue waits _ hfuel
  obtain ⟨after, hcompact, hafter⟩ := hbehind.compact
  refine ⟨after, tasks, ?_, hafter, htasks⟩
  unfold onDataRead
  simp only [hflip, hread, hcompact, Option.bind_eq_bind, Option.bind_some]
  rfl

/-- Each read brings something, and leaves room for the NUL behind it. -/
def Short (reads : List (List UInt8)) : Prop :=
  ∀ bytes ∈ reads, bytes ≠ [] ∧ bytes.length < maxBufferSize

instance (reads : List (List UInt8)) : Decidable (Short reads) := by
  unfold Short
  infer_instance

private theorem readSocket_holds (hheap : ∀ block, (heap block).isSome)
    (hholds : read.Holds pending)
    {reads : List (List UInt8)} (hreads : Short reads)
    (hsmall : pending.length + reads.flatten.length ≤ 2 ^ 63) (closed : Bool) :
    ∃ after, readSocket heap (if closed then reads ++ [[]] else reads) read =
        some (after, closed) ∧ after.Holds (pending ++ reads.flatten) := by
  induction reads generalizing read pending with
  | nil =>
    refine ⟨read, ?_, by simpa using hholds⟩
    cases closed <;> rfl
  | cons bytes reads ih =>
    rw [List.flatten_cons, List.length_append] at hsmall
    obtain ⟨⟨hne, hless⟩, hothers⟩ := List.forall_mem_cons.mp hreads
    obtain ⟨byte, bytes, rfl⟩ := List.exists_cons_of_ne_nil hne
    obtain ⟨next, hput, hnext⟩ := hholds.put hheap (byte :: bytes) (by omega)
    obtain ⟨after, hloop, hafter⟩ := ih hnext hothers (by rw [List.length_append]; omega)
    rw [List.flatten_cons, ← List.append_assoc]
    refine ⟨after, ?_, hafter⟩
    have hcons : (if closed then (byte :: bytes) :: reads ++ [[]] else (byte :: bytes) :: reads) =
        (byte :: bytes) :: (if closed then reads ++ [[]] else reads) := by
      cases closed <;> rfl
    rw [hcons, readSocket, if_pos hless, hput]
    · exact hloop
    · exact hne

theorem handleReadEvent_splits (hthrift : thrift.OnlyReads)
    (hheap : ∀ block, (heap block).isSome) (hholds : read.Holds pending)
    {reads : List (List UInt8)} (hreads : Short reads)
    (hsmall : pending.length + reads.flatten.length ≤ 2 ^ 63)
    (hsplits : Splits 4 (pending ++ reads.flatten) bodies rest)
    (hlong : ∀ body ∈ bodies, 13 ≤ body.length) (connId : UInt64) (queue : TaskQueue)
    (waits : List (List Foreign)) :
    ∃ after tasks, handleReadEvent thrift heap connId reads waits read queue =
        some (after, queue.pushAll connId waits tasks, true) ∧
      after.Holds rest ∧ List.Forall₂ Received bodies tasks := by
  obtain ⟨full, hput, hfull⟩ := readSocket_holds hheap hholds hreads hsmall false
  obtain ⟨after, tasks, hread, hafter⟩ :=
    onDataRead_splits hthrift hheap hfull hsplits hlong connId queue waits
  refine ⟨after, tasks, ?_, hafter⟩
  rw [if_neg Bool.false_ne_true] at hput
  unfold handleReadEvent
  simp only [hput, hread, Option.bind_eq_bind, Option.bind_some, Bool.false_eq_true, if_false]
  rfl

theorem handleReadEvent_closes (thrift : ThriftUtility) (hheap : ∀ block, (heap block).isSome)
    (hholds : read.Holds pending) {reads : List (List UInt8)} (hreads : Short reads)
    (hsmall : pending.length + reads.flatten.length ≤ 2 ^ 63) (connId : UInt64)
    (queue : TaskQueue) (waits : List (List Foreign)) :
    ∃ after, handleReadEvent thrift heap connId (reads ++ [[]]) waits read queue =
        some (after, queue, false) ∧ after.Holds (pending ++ reads.flatten) := by
  obtain ⟨full, hput, hfull⟩ := readSocket_holds hheap hholds hreads hsmall true
  refine ⟨full, ?_, hfull⟩
  rw [if_pos rfl] at hput
  unfold handleReadEvent
  simp only [hput, Option.bind_eq_bind, Option.bind_some, if_true]
  rfl

end TaskStreamer

end Libsax.Net2
