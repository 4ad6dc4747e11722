import Mathlib.Algebra.Ring.Int.Defs
import Mathlib.Logic.Function.Basic
import Libsax.Net.LinkedBuffer

/-! `transport`: contexts that are indexed by descriptor and reused, each under
the id of its present registration. What the sockets and epoll answer is given
to the operations as arguments. -/
namespace Libsax.Net

open Libsax.Lib Libsax.Lib.Chunks

/-- `transport::id`. A transport object is known by a number; `none` is `NULL`. -/
structure Id where
  seq : Int
  fd : Nat
  trans : Option Nat
deriving DecidableEq

def Id.same (tid other : Id) : Bool := tid.seq = other.seq && tid.trans = other.trans

inductive ContextType where
  | tcpListen
  | udpBind
  | tcpConnection
deriving DecidableEq

structure Context where
  type : ContextType
  portH : UInt16
  ipN : UInt32
  tid : Id
  readBuf : Option LinkedBuffer
  writeBuf : Option LinkedBuffer

abbrev Errno := Nat

def eintr : Errno := 4
def eagain : Errno := 11
def ewouldblock : Errno := eagain
def enomem : Errno := 12

def retry (errno : Errno) : Bool := errno = eagain || errno = ewouldblock || errno = eintr

/-- What a socket call returns, and what `errno` holds after it. A call that
succeeds leaves `errno` as it was. -/
structure SysCall where
  ret : Int
  errno : Errno
deriving DecidableEq

/-- `g_tcp_write` of `length` bytes. A socket takes no more than it is offered. -/
def SysCall.taken (call : SysCall) (length : Nat) : Int := min call.ret length

/-- `eda` is the epoll set: the descriptors in it, with write interest or
without. `blockSize` and `bytes` are what a `new linked_buffer()` starts with. -/
structure Transport where
  this : Nat
  ctx : Nat → Context
  eda : Nat → Option Bool
  maxfds : Nat
  seq : Int
  blockSize : UInt32
  bytes : Nat → Nat → UInt8

namespace Transport

/-- `init`, on contexts that hold anything but have run their constructors. -/
def init (this maxfds : Nat) (raw : Nat → Context) (blockSize : UInt32)
    (bytes : Nat → Nat → UInt8) : Transport where
  this := this
  ctx := fun fd => { raw fd with tid := ⟨-1, 0, none⟩, readBuf := none, writeBuf := none }
  eda := fun _ => none
  maxfds := maxfds
  seq := 0
  blockSize := blockSize
  bytes := bytes

/-- `new linked_buffer()`, which takes one block. -/
def newBuffer (t : Transport) : LinkedBuffer := .create t.blockSize t.bytes

def current (t : Transport) (tid : Id) : Bool := (t.ctx tid.fd).tid.same tid

def setReadBuf (t : Transport) (fd : Nat) (buf : LinkedBuffer) : Transport :=
  { t with ctx := Function.update t.ctx fd { t.ctx fd with readBuf := some buf } }

def setWriteBuf (t : Transport) (fd : Nat) (buf : LinkedBuffer) : Transport :=
  { t with ctx := Function.update t.ctx fd { t.ctx fd with writeBuf := some buf } }

/-- `_seq++` and the reset on overflow of the `int32_t` -/
def nextSeq (seq : Int) : Int := if seq + 1 < 2 ^ 31 then seq + 1 else 0

/-- `add_fd`; `added` is whether `g_eda_add` succeeds, and `memory` the number of
blocks there are. The result `none` is `std::bad_alloc`, which leaves the
descriptor in the epoll set. -/
def addFd (t : Transport) (fd : Nat) (ipN : UInt32) (portH : UInt16) (type : ContextType)
    (added : Bool) (memory : Nat) : Transport × Option Bool :=
  if fd ≥ t.maxfds || !added then (t, some false)
  else
    let context := { t.ctx fd with ipN := ipN, portH := portH, type := type }
    let eda := Function.update t.eda fd (some false)
    if memory = 0 then ({ t with eda := eda, ctx := Function.update t.ctx fd context }, none)
    else
      ({ t with
        eda := eda
        ctx := Function.update t.ctx fd { context with
          readBuf := some t.newBuffer
          tid := ⟨t.seq, fd, some t.this⟩ }
        seq := nextSeq t.seq }, some true)

/-- `close`, before `g_close_socket(tid.fd)` -/
def close (t : Transport) (tid : Id) : Transport :=
  if t.current tid then
    { t with
      eda := Function.update t.eda tid.fd none
      ctx := Function.update t.ctx tid.fd { t.ctx tid.fd with
        tid := { (t.ctx tid.fd).tid with seq := -1 }
        readBuf := none
        writeBuf := none } }
  else t

/-- `g_eda_mod` fails on a descriptor that is not in the set. -/
def toggleWrite (t : Transport) (fd : Nat) (on : Bool) : Transport :=
  { t with eda := Function.update t.eda fd ((t.eda fd).map fun _ => on) }

def hasOutdata (t : Transport) (tid : Id) : Bool :=
  if (t.ctx tid.fd).type ≠ .tcpConnection || !t.current tid then false
  else
    match (t.ctx tid.fd).writeBuf with
    | none => false
    | some buf => !decide (buf.current.position = 0)

/-- `blocking_send`: what the socket takes before the loop ends. Its result is
`false` in every case. -/
def blockingSend : List UInt8 → List SysCall → Option (List UInt8)
  | _, [] => none
  | data, call :: rest =>
    let ret := call.taken data.length
    if 0 ≤ ret then
      if ret < data.length then do
        let written ← blockingSend (data.drop ret.toNat) rest
        return data.take ret.toNat ++ written
      else some data
    else if retry call.errno then blockingSend data rest
    else some []

/-- `result` is the returned bool or `none` when `std::bad_alloc` is thrown,
`written` what the socket took, `callback` the argument of `on_tcp_send` when it
is called. -/
structure Sent where
  transport : Transport
  result : Option Bool
  written : List UInt8
  callback : Option Nat

/-- `if (write_buf == NULL) write_buf = new linked_buffer();` and the blocks left
after it, or `none` when that throws. -/
def writeBuffer (t : Transport) (fd memory : Nat) : Option (LinkedBuffer × Nat) :=
  match (t.ctx fd).writeBuf, memory with
  | some buf, memory => some (buf, memory)
  | none, 0 => none
  | none, memory + 1 => some (t.newBuffer, memory)

/-- `write_buf->put`, and what follows when no memory is left. `offset` is
where `blocking_send` starts: `buf + ret`, also when `ret` is -1 and that is
the byte in front of `buf`. -/
def queue (t : Transport) (fd : Nat) (rest offset : List UInt8) (memory : Nat)
    (calls : List SysCall) (written : List UInt8) (callback : Option Nat) : Option Sent :=
  match t.writeBuffer fd memory with
  | none => some ⟨t, none, written, none⟩
  | some (buf, memory) => do
    match ← buf.put memory rest with
    | (buf, true) =>
      return ⟨(t.setWriteBuf fd buf).toggleWrite fd true, some true, written, callback⟩
    | (buf, false) =>
      let blocking ← blockingSend offset calls
      return ⟨t.setWriteBuf fd buf, some false, written ++ blocking, none⟩

def sendable (t : Transport) (tid : Id) (length : Int) : Bool :=
  (t.ctx tid.fd).type = .tcpConnection && t.current tid && !decide (length < 0)

/-- The branch of `send` that writes directly, with `call`. -/
def sendDirect (t : Transport) (fd : Nat) (data : List UInt8) (stray : UInt8) (memory : Nat)
    (call : SysCall) (calls : List SysCall) : Option Sent :=
  if 0 ≤ call.taken data.length then
    let ret := (call.taken data.length).toNat
    if ret < data.length then
      t.queue fd (data.drop ret) (data.drop ret) memory calls (data.take ret) (some ret)
    else some ⟨t, some true, data, some ret⟩
  else if !retry call.errno then some ⟨t, some false, [], none⟩
  else t.queue fd data (stray :: data) memory calls [] none

/-- `send`. `buf` is the memory from the pointer on and `stray` the byte in
front of it. The first of `calls` is the direct write. -/
def send (t : Transport) (tid : Id) (buf : List UInt8) (length : Int) (stray : UInt8)
    (memory : Nat) (calls : List SysCall) : Option Sent :=
  if !t.sendable tid length then some ⟨t, some false, [], none⟩
  else
    let data := buf.take length.toNat
    match (t.ctx tid.fd).writeBuf.filter fun buf => buf.current.position ≠ 0, calls with
    | none, [] => none
    | none, call :: calls => t.sendDirect tid.fd data stray memory call calls
    | some writeBuf, _ => do
      let (writeBuf, _) ← writeBuf.put memory data
      return ⟨t.setWriteBuf tid.fd writeBuf, some true, [], none⟩

/-- The loop of `handle_tcp_write`: the buffer left, what the socket took and
the error that ends the connection. -/
def drain : List SysCall → LinkedBuffer → Option (LinkedBuffer × List UInt8 × Option Errno)
  | [], buf => if buf.remaining = 0 then some (buf, [], none) else none
  | call :: calls, buf =>
    if buf.remaining = 0 then some (buf, [], none)
    else do
      let (ptr, len) ← buf.directGet
      let block ← ptr.1
      let ret := call.taken len.toNat
      if 0 < ret then
        let (next, _) ← buf.commitGet ptr (UInt32.ofNat ret.toNat)
        let written := load buf.bytes ⟨block, ptr.2, ret.toNat⟩
        if ret ≠ len.toNat then return (next, written, none)
        else
          let (last, more, error) ← drain calls next
          return (last, written ++ more, error)
      else if !retry call.errno then return (buf, [], some call.errno)
      else return (buf, [], none)

/-- `handle_tcp_write` up to the callback: `on_tcp_send`, or `close` and
`on_closed` when there is an error. -/
def handleTcpWrite (t : Transport) (fd : Nat) (calls : List SysCall) :
    Option (Transport × List UInt8 × Option Errno) := do
  let buf ← (t.ctx fd).writeBuf
  match ← drain calls buf.flip.1 with
  | (buf, written, some error) => return (t.setWriteBuf fd buf, written, some error)
  | (buf, written, none) =>
    let t := if buf.remaining = 0 then t.toggleWrite fd false else t
    let (buf, _) ← buf.compact
    return (t.setWriteBuf fd buf, written, none)

/-- `handle_tcp_read` up to the first callback: whether `on_tcp_received` is
called, and the error with which the connection is closed after it. -/
def handleTcpRead (t : Transport) (fd : Nat) (call : SysCall) (temp : List UInt8)
    (memory : Nat) : Option (Transport × Bool × Option Errno) := do
  let buf ← (t.ctx fd).readBuf
  let closing (buf : LinkedBuffer) (error : Errno) : Transport × Bool × Option Errno :=
    if buf.dataLength > 0 then (t.setReadBuf fd buf.flip.1, true, some error)
    else (t.setReadBuf fd buf, false, some error)
  if 0 < call.ret then
    match ← buf.put memory (temp.take call.ret.toNat) with
    | (buf, true) => return (t.setReadBuf fd buf.flip.1, true, none)
    | (buf, false) => return closing buf enomem
  else if call.ret = 0 then return closing buf 0
  else if !retry call.errno then return closing buf call.errno
  else return (t.setReadBuf fd buf.flip.1, true, none)

end Transport

end Libsax.Net
