import Libsax.Lib.Frames
import Libsax.Lib.Run
import Libsax.Net2.BufferHolds
import Libsax.Net2.TaskQueue

/-! `task_streamer` at the two ends of a TCP connection. A task goes out as a frame,
and the other end takes the frames apart that its reads have brought. -/
namespace Libsax.Net2

open Libsax.Lib

namespace Buffer

def setPosition (buf : Buffer) (newPos : UInt64) : Buffer × Bool :=
  if newPos > buf.limit then (buf, false)
  else
    ({ buf with
      position := newPos
      mark := if buf.mark ≠ invalidPos ∧ buf.mark > newPos then invalidPos else buf.mark }, true)

/-- What was written and not yet read. -/
def contents (buf : Buffer) : List UInt8 :=
  match buf.storage with
  | none => []
  | some cells =>
    if buf.reading then
      (List.range buf.remaining.toNat).map fun index => cells (buf.position.toNat + index)
    else (List.range buf.position.toNat).map cells

end Buffer

/-- The functions that generated code registers, by their effect on the buffer. -/
structure ThriftUtility where
  toObject : UInt32 → Buffer → Buffer
  toBuffer : UInt32 → Buffer → Buffer

structure Connection where
  connId : UInt64
  tcp : Bool

def maxBufferSize : Nat := 1024

namespace TaskStreamer

section Streamer

variable (thrift : ThriftUtility) (heap : Heap)

/-- A task from the bytes behind its length. What is not there leaves its variable as
it was, and `task_len - 13` is a number of 32 bits. -/
def takeTask (read : Buffer) (taskLen : UInt32) : Option (Buffer × Task) := do
  let data ← Buffer.create heap read.blocks 512
  let (read, transKey) ← read.getInt 8
  let (read, type) ← read.getInt 4
  let (read, flag) ← read.getInt 1
  let flag := UInt8.ofNat (flag.getD 0)
  let (read, data, _) ← read.getBuffer heap data (taskLen - 13).toUInt64
  let task := { Task.create (flag &&& 8 != 0) data with
    transKey := UInt64.ofNat (transKey.getD 0)
    type := UInt32.ofNat (type.getD 0)
    isCall := flag &&& 1 != 0
    isNeedResponse := flag &&& 2 != 0
    isFinish := flag &&& 4 != 0 }
  if task.isThriftData then
    let (data, _) ← (thrift.toObject task.type task.data.flip.1).compact
    return ({ read with blocks := data.blocks }, { task with data := data })
  else return ({ read with blocks := data.blocks }, task)

/-- The loop of `on_data_read`; `waits` is what other threads do with the queue while the
tasks of this connection, one after the other, wait for a place. A task that finds none is
deleted. -/
def readTasks (connId : UInt64) :
    Nat → Buffer → TaskQueue → List (List Foreign) → Option (Buffer × TaskQueue)
  | 0, _, _, _ => none
  | fuel + 1, read, queue, waits =>
    if read.remaining ≥ 4 then do
      let read := read.setMark
      let (read, taskLen) ← read.getInt 4
      let taskLen := UInt32.ofNat (taskLen.getD 0)
      if read.remaining ≥ taskLen.toUInt64 then
        let (read, task) ← takeTask thrift heap read taskLen
        let (queue, _) := queue.pushBack (waits.headD []) ⟨connId, task⟩
        readTasks connId fuel read queue waits.tail
      else return (read.reset.1, queue)
    else return (read, queue)

/-- Every round takes four bytes or is the last. -/
def onDataRead (connId : UInt64) (read : Buffer) (queue : TaskQueue) (waits : List (List Foreign)) :
    Option (Buffer × TaskQueue) := do
  let read := read.flip.1
  let (read, queue) ← readTasks thrift heap connId (read.remaining.toNat + 1) read queue waits
  let (read, _) ← read.compact
  return (read, queue)

def flagOf (task : Task) : UInt8 :=
  (if task.isCall then 1 else 0) + (if task.isNeedResponse then 2 else 0) +
    (if task.isFinish then 4 else 0) + if task.isThriftData then 8 else 0

/-- `none` is also the use of a connection that is not there. -/
def onDataWrite (conn : Option Connection) (table : ConnTaskMap) (task : Task) (write : Buffer) :
    Option (UInt32 × ConnTaskMap × Task × Buffer) := do
  let task := if task.isThriftData then
    { task with data := thrift.toBuffer task.type task.data } else task
  let table ← if task.isCall && task.isNeedResponse then
      conn.map fun conn => addNeedResponseTask table conn.connId task
    else some table
  let task := { task with data := task.data.flip.1 }
  let totlen := (task.data.remaining + 13).toUInt32
  match conn with
  | some ⟨_, true⟩ =>
    let (write, _) ← write.putInt heap 4 totlen.toNat
    let (write, _) ← write.putInt heap 8 task.transKey.toNat
    let (write, _) ← write.putInt heap 4 task.type.toNat
    let (write, _) ← write.put heap [flagOf task]
    let (write, data, _) ← write.putBuffer heap task.data task.data.remaining
    return (totlen, table, { task with data := data }, write)
  | _ => return (totlen, table, task, write)

/-- The loop of `handle_read_event` over what the reads of the socket return, and whether
the peer has closed: then a read returns no byte. Behind a read that fills `tmp_buf` the
terminating NUL is written past its end. -/
def readSocket : List (List UInt8) → Buffer → Option (Buffer × Bool)
  | [], read => some (read, false)
  | [] :: _, read => some (read, true)
  | bytes :: reads, read =>
    if bytes.length < maxBufferSize then do
      let (read, _) ← read.put heap bytes
      readSocket reads read
    else none

/-- `handle_read_event`, with whether the connection still stands. What came in before the
peer closed is not looked at. -/
def handleReadEvent (connId : UInt64) (reads : List (List UInt8)) (waits : List (List Foreign))
    (read : Buffer) (queue : TaskQueue) : Option (Buffer × TaskQueue × Bool) := do
  let (read, isClientClose) ← readSocket heap reads read
  if isClientClose then return (read, queue, false)
  else
    let (read, queue) ← onDataRead thrift heap connId read queue waits
    return (read, queue, true)

/-- `handle_write_event`, when the socket takes `hasSend` bytes -/
def handleWriteEvent (write : Buffer) (hasSend : Nat) : Option (Buffer × List UInt8) := do
  let write := write.flip.1
  let bytes ← write.ahead (UInt64.ofNat hasSend)
  let (write, _) := write.setPosition (write.position + UInt64.ofNat hasSend)
  let (write, _) ← write.compact
  return (write, bytes)

/-- The end that reads, and the queue that it puts its tasks into. -/
structure Reader where
  connId : UInt64
  read : Buffer
  queue : TaskQueue
  isConnected : Bool

inductive Reader.Event where
  | read (reads : List (List UInt8)) (waits : List (List Foreign))
  | meanwhile (step : Foreign)

/-- A connection that was closed gets no more events. -/
def Reader.step (reader : Reader) : Reader.Event → Option Reader
  | .read reads waits =>
    if reader.isConnected then do
      let (read, queue, isConnected) ←
        handleReadEvent thrift heap reader.connId reads waits reader.read reader.queue
      return { reader with read := read, queue := queue, isConnected := isConnected }
    else none
  | .meanwhile step => some { reader with queue := reader.queue.elapse step }

/-- Both ends. `wire` has left the one and not reached the other, and `written` are the
tasks so far. -/
structure Link where
  table : ConnTaskMap
  write : Buffer
  wire : List UInt8
  reader : Reader
  written : List Task

/-- `closes` says that the end of the stream is met behind the reads of the event. -/
inductive Event where
  | write (task : Task)
  | send (hasSend : Nat)
  | receive (sizes : List Nat) (closes : Bool) (waits : List (List Foreign))
  | meanwhile (step : Foreign)

/-- The reads of an event, by their sizes. -/
def cut : List Nat → List UInt8 → List (List UInt8) × List UInt8
  | [], bytes => ([], bytes)
  | size :: sizes, bytes =>
    let (reads, rest) := cut sizes (bytes.drop size)
    (bytes.take size :: reads, rest)

def Link.step (connId : UInt64) (link : Link) : Event → Option Link
  | .write task => do
    let (_, table, _, write) ←
      onDataWrite thrift heap (some ⟨connId, true⟩) link.table task link.write
    return { link with table := table, write := write, written := link.written ++ [task] }
  | .send hasSend => do
    let (write, bytes) ← handleWriteEvent link.write hasSend
    return { link with write := write, wire := link.wire ++ bytes }
  | .receive sizes closes waits => do
    let (reads, wire) := cut sizes link.wire
    let reads := if closes then reads ++ [[]] else reads
    let reader ← link.reader.step thrift heap (.read reads waits)
    return { link with reader := reader, wire := wire }
  | .meanwhile step => do
    let reader ← link.reader.step thrift heap (.meanwhile step)
    return { link with reader := reader }

end Streamer

end TaskStreamer

end Libsax.Net2
