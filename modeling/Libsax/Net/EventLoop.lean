import Libsax.Lib.Run
import Libsax.Net.Transport

/-! A transport under `g_eda_poll`. The handler is not part of the source: while
one of its callbacks runs, it may call `send` and `close` in any order, and the
transport goes on at the frame below when the callback returns. -/
namespace Libsax.Net.Transport

/-- One entry of the batch that `epoll_wait` collected. -/
structure Event where
  fd : Nat
  read : Bool
  write : Bool
  error : Bool
deriving DecidableEq

inductive Callback where
  | onAccepted (newConn source : Id) (ipN : UInt32) (portH : UInt16)
  | onTcpSend (tid : Id) (sendBytes : Nat)
  | onTcpReceived (tid : Id)
  | onUdpReceived (tid : Id) (data : List UInt8) (ipN : UInt32) (portH : UInt16)
  | onClosed (tid : Id) (err : Errno)
deriving DecidableEq

/-- Where the transport goes on. -/
inductive Frame where
  /-- the loop of `g_eda_poll` -/
  | next
  /-- `mask & EDA_READ` in `eda_callback` -/
  | read (fd : Nat)
  /-- the loop of `handle_tcp_accept` -/
  | accept (fd remaining : Nat)
  /-- the loop of `handle_udp_read` -/
  | receive (fd : Nat) (remaining : Int)
  /-- the end of `handle_tcp_read` after the last `on_tcp_received` -/
  | closing (fd : Nat) (err : Errno)
  /-- the check behind `on_tcp_received`, and whether the buffer it looks at was deleted -/
  | received (fd : Nat) (freed : Bool)
deriving DecidableEq

/-- `fallen`: a null or freed pointer was followed, or an assertion failed. -/
inductive Control where
  | idle
  | running (frame : Frame)
  | callback (frame : Frame)
  | destroyed
  | fallen
deriving DecidableEq

/-- The buffers of a context are deleted while a callback runs. -/
def Frame.release (fd : Nat) : Frame → Frame
  | .received other freed => .received other (freed || decide (other = fd))
  | frame => frame

def Control.release (fd : Nat) : Control → Control
  | .callback frame => .callback (frame.release fd)
  | control => control

/-- The program's state, and a record of what happened: the ids given out, the
id that a context held at each `g_close_socket` of `close`, the callbacks made,
and for each handling of a descriptor whether the buffers it uses were there. -/
structure EventLoop where
  transport : Transport
  control : Control
  pending : List Event
  registered : List Id
  closed : List Id
  callbacks : List Callback
  handled : List (Nat × Bool)

/-- What `g_tcp_accept` and the setup of the new descriptor give. `ready` is
whether `g_set_non_block` and `g_set_keepalive` succeed, `added` is `g_eda_add`. -/
inductive Accepted where
  | failed (errno : Errno)
  | connection (fd : Nat) (ipN : UInt32) (portH : UInt16) (ready added : Bool) (memory : Nat)

inductive Action where
  /-- `listen`, `bind` or `connect`, once there is a descriptor -/
  | register (type : ContextType) (fd : Nat) (ipN : UInt32) (portH : UInt16) (ready added : Bool)
      (memory : Nat)
  | send (tid : Id) (buf : List UInt8) (length : Int) (stray : UInt8) (memory : Nat)
      (calls : List SysCall)
  | close (tid : Id)
  /-- `on_tcp_received` works on the read buffer. -/
  | edit (buf : LinkedBuffer)
  | poll (events : List Event)
  | dispatch (calls : List SysCall)
  | read (call : SysCall) (temp : List UInt8) (memory : Nat)
  | accept (accepted : Accepted)
  | receive (call : SysCall) (temp : List UInt8) (ipN : UInt32) (portH : UInt16)
  | finish
  | leave
  | destroy

namespace EventLoop

def create (transport : Transport) : EventLoop := ⟨transport, .idle, [], [], [], [], []⟩

def closeId (s : EventLoop) (tid : Id) : EventLoop :=
  if s.transport.current tid then
    { s with
      transport := s.transport.close tid
      control := s.control.release tid.fd
      closed := (s.transport.ctx tid.fd).tid :: s.closed }
  else s

def handle (s : EventLoop) (fd : Nat) : EventLoop :=
  { s with handled := (fd, (s.transport.ctx fd).readBuf.isSome) :: s.handled }

def handleWrite (s : EventLoop) (fd : Nat) : EventLoop :=
  { s with handled := (fd, (s.transport.ctx fd).readBuf.isSome &&
      (s.transport.ctx fd).writeBuf.isSome) :: s.handled }

def call (s : EventLoop) (callback : Callback) (frame : Frame) : EventLoop :=
  { s with callbacks := callback :: s.callbacks, control := .callback frame }

/-- `id tid = ctx.tid; trans->close(tid); trans->_handler->on_closed(tid, err);` -/
def closeContext (s : EventLoop) (fd : Nat) (err : Errno) (frame : Frame) : EventLoop :=
  (s.closeId (s.transport.ctx fd).tid).call (.onClosed (s.transport.ctx fd).tid err) frame

def outside (s : EventLoop) : Bool :=
  match s.control with
  | .idle => true
  | .callback _ => true
  | _ => false

/-- The kernel hands out descriptors that are not open. -/
def unused (s : EventLoop) (fd : Nat) : Bool := (s.transport.ctx fd).tid.seq = -1

/-- `add_fd` after the setup of the socket, which may fail -/
def addFd (s : EventLoop) (fd : Nat) (ipN : UInt32) (portH : UInt16) (type : ContextType)
    (ready added : Bool) (memory : Nat) : EventLoop × Option Bool :=
  if ready then
    match s.transport.addFd fd ipN portH type added memory with
    | (t, some true) =>
      ({ s with transport := t, registered := (t.ctx fd).tid :: s.registered }, some true)
    | (t, result) => ({ s with transport := t }, result)
  else (s, some false)

def register (s : EventLoop) (type : ContextType) (fd : Nat) (ipN : UInt32) (portH : UInt16)
    (ready added : Bool) (memory : Nat) : Option EventLoop :=
  if s.outside && s.unused fd then some (s.addFd fd ipN portH type ready added memory).1
  else none

def send (s : EventLoop) (tid : Id) (buf : List UInt8) (length : Int) (stray : UInt8)
    (memory : Nat) (calls : List SysCall) : Option EventLoop :=
  if s.outside && decide (tid.fd < s.transport.maxfds) then do
    let sent ← s.transport.send tid buf length stray memory calls
    let s := if s.transport.sendable tid length then s.handle tid.fd else s
    return { s with
      transport := sent.transport
      callbacks := (sent.callback.map (Callback.onTcpSend tid)).toList ++ s.callbacks }
  else none

def close (s : EventLoop) (tid : Id) : Option EventLoop :=
  if s.outside && decide (tid.fd < s.transport.maxfds) then some (s.closeId tid) else none

/-- The connection for which `on_tcp_received` runs. -/
def receiving (s : EventLoop) : Option Nat :=
  match s.control with
  | .callback (.closing fd _) => some fd
  | .callback (.received fd false) => some fd
  | _ => none

/-- The buffer that the callback was given may be changed in any way. -/
def edit (s : EventLoop) (buf : LinkedBuffer) : Option EventLoop := do
  let fd ← s.receiving
  if (s.transport.ctx fd).readBuf.isSome then
    some { s with transport := s.transport.setReadBuf fd buf }
  else none

/-- `~transport`: the loop over the contexts. -/
def destroyFrom (s : EventLoop) : List Nat → EventLoop
  | [] => s
  | fd :: rest =>
    let tid := (s.transport.ctx fd).tid
    if tid.seq ≠ -1 ∧ tid.trans = some s.transport.this then (s.closeId tid).destroyFrom rest
    else s.destroyFrom rest

def destroy (s : EventLoop) : Option EventLoop :=
  if s.control = .idle then
    some { s.destroyFrom (List.range s.transport.maxfds) with control := .destroyed }
  else none

/-- `epoll_wait`: each descriptor in the set at most once, and ready for
writing only where that was asked for. -/
def poll (s : EventLoop) (events : List Event) : Option EventLoop :=
  if s.control = .idle && events.length ≤ 1024 && decide (events.map Event.fd).Nodup &&
      events.all fun event => match s.transport.eda event.fd with
        | some write => !event.write || write
        | none => false then
    some { s with control := .running .next, pending := events }
  else none

def writeReady (s : EventLoop) (fd : Nat) (calls : List SysCall) (following : Frame) :
    Option EventLoop :=
  if (s.transport.ctx fd).writeBuf.isNone then some { s with control := .fallen }
  else do
    match ← s.transport.handleTcpWrite fd calls with
    | (t, _, some err) => return { s with transport := t }.closeContext fd err following
    | (t, written, none) =>
      return { s with transport := t }.call (.onTcpSend (t.ctx fd).tid written.length) following

/-- One round of `g_eda_poll`: `eda_callback` up to its read part. -/
def dispatch (s : EventLoop) (calls : List SysCall) : Option EventLoop :=
  if s.control = .running .next then
    match s.pending with
    | [] => some { s with control := .idle }
    | event :: rest =>
      let s := { s with pending := rest }
      let following := if event.read then Frame.read event.fd else .next
      if event.error then some ((s.handle event.fd).closeContext event.fd 0 .next)
      else if event.write then
        -- `assert(ctx.type == context::TCP_CONNECTION)`
        if (s.transport.ctx event.fd).type = .tcpConnection then
          (s.handleWrite event.fd).writeReady event.fd calls following
        else some { s with control := .fallen }
      else some { s with control := .running following }
  else none

/-- `handle_tcp_read` up to its callback -/
def readReady (s : EventLoop) (fd : Nat) (sysCall : SysCall) (temp : List UInt8)
    (memory : Nat) : Option EventLoop :=
  if (s.transport.ctx fd).readBuf.isNone then some { s with control := .fallen }
  else do
    match ← s.transport.handleTcpRead fd sysCall temp memory with
    | (t, true, none) =>
      return { s with transport := t }.call (.onTcpReceived (t.ctx fd).tid) (.received fd false)
    | (t, true, some err) =>
      return { s with transport := t }.call (.onTcpReceived (t.ctx fd).tid) (.closing fd err)
    | (t, false, some err) => return { s with transport := t }.closeContext fd err .next
    | (t, false, none) => return { s with transport := t, control := .running .next }

/-- The read part of `eda_callback`. -/
def read (s : EventLoop) (sysCall : SysCall) (temp : List UInt8) (memory : Nat) :
    Option EventLoop :=
  match s.control with
  | .running (.read fd) =>
    match (s.transport.ctx fd).type with
    | .tcpListen => some { s with control := .running (.accept fd 64) }
    | .udpBind => some { s with control := .running (.receive fd 16384) }
    | .tcpConnection =>
      if (s.transport.ctx fd).tid.seq = -1 then some { s with control := .running .next }
      else (s.handle fd).readReady fd sysCall temp memory
  | _ => none

/-- One round of `handle_tcp_accept`. `std::bad_alloc` goes out through `g_eda_poll`,
and the rest of the batch is lost. -/
def accept (s : EventLoop) (accepted : Accepted) : Option EventLoop :=
  match s.control with
  | .running (.accept fd remaining) =>
    if remaining = 0 then some { s with control := .running .next }
    else
      let s := s.handle fd
      match accepted with
      | .failed _ => some { s with control := .running .next }
      | .connection newFd ipN portH ready added memory =>
        if s.unused newFd then
          match s.addFd newFd ipN portH .tcpConnection ready added memory with
          | (s, some true) => some (s.call (.onAccepted (s.transport.ctx newFd).tid
              (s.transport.ctx fd).tid ipN portH) (.accept fd (remaining - 1)))
          | (s, some false) => some { s with control := .running .next }
          | (s, none) => some { s with control := .idle, pending := [] }
        else none
  | _ => none

def receive (s : EventLoop) (sysCall : SysCall) (temp : List UInt8) (ipN : UInt32)
    (portH : UInt16) : Option EventLoop :=
  match s.control with
  | .running (.receive fd remaining) =>
    if remaining ≤ 0 then some { s with control := .running .next }
    else
      let s := s.handle fd
      if 0 < sysCall.ret then
        let frame := Frame.receive fd (remaining - sysCall.ret)
        if sysCall.ret > 2048 then some { s with control := .running frame }
        else some (s.call (.onUdpReceived (s.transport.ctx fd).tid
          (temp.take sysCall.ret.toNat) ipN portH) frame)
      else some { s with control := .running .next }
  | _ => none

/-- The rest of `handle_tcp_read`. Its last check looks into the read buffer unless the
context is closed. A buffer that was not compacted, which it asserts, is let pass. -/
def finish (s : EventLoop) : Option EventLoop :=
  match s.control with
  | .running (.closing fd err) => some (s.closeContext fd err .next)
  | .running (.received fd freed) =>
    if (s.transport.ctx fd).tid.seq = -1 then some { s with control := .running .next }
    else if freed then some { s with handled := (fd, false) :: s.handled, control := .fallen }
    else some { s.handle fd with control := .running .next }
  | _ => none

def leave (s : EventLoop) : Option EventLoop :=
  match s.control with
  | .callback frame => some { s with control := .running frame }
  | _ => none

/-- `none` is an action that is not possible in the state, too few answers for its
loop, or a failure inside a buffer's own operation. -/
def step (s : EventLoop) : Action → Option EventLoop
  | .register type fd ipN portH ready added memory =>
    s.register type fd ipN portH ready added memory
  | .send tid buf length stray memory calls => s.send tid buf length stray memory calls
  | .close tid => s.close tid
  | .edit buf => s.edit buf
  | .poll events => s.poll events
  | .dispatch calls => s.dispatch calls
  | .read sysCall temp memory => s.read sysCall temp memory
  | .accept accepted => s.accept accepted
  | .receive sysCall temp ipN portH => s.receive sysCall temp ipN portH
  | .finish => s.finish
  | .leave => s.leave
  | .destroy => s.destroy

end EventLoop

end Libsax.Net.Transport
