import Libsax.Net.EventLoop

/-! What each step of the event loop can do, said once for all invariants. -/
namespace Libsax.Net.Transport

/-- A connection whose write events find what they need. -/
structure Writable (t : Transport) (fd : Nat) : Prop where
  type : (t.ctx fd).type = .tcpConnection
  writeBuf : (t.ctx fd).writeBuf.isSome = true

/-- The same registrations: only the content of buffers and write interest differ.
Write interest is new only where there is a write buffer. -/
structure Similar (t u : Transport) : Prop where
  this : u.this = t.this
  maxfds : u.maxfds = t.maxfds
  seq : u.seq = t.seq
  blockSize : u.blockSize = t.blockSize
  tid : ∀ fd, (u.ctx fd).tid = (t.ctx fd).tid
  type : ∀ fd, (u.ctx fd).type = (t.ctx fd).type
  readBuf : ∀ fd, (u.ctx fd).readBuf.isSome = (t.ctx fd).readBuf.isSome
  writeBuf : ∀ fd, (t.ctx fd).writeBuf.isSome = true → (u.ctx fd).writeBuf.isSome = true
  eda : ∀ fd, (u.eda fd).isSome = (t.eda fd).isSome
  interest : ∀ fd, u.eda fd = some true → t.eda fd = some true ∨ Writable u fd

theorem Similar.refl (t : Transport) : Similar t t :=
  ⟨rfl, rfl, rfl, rfl, fun _ => rfl, fun _ => rfl, fun _ => rfl, fun _ => id, fun _ => rfl,
    fun _ => .inl⟩

theorem Similar.writable {t u : Transport} (hsimilar : Similar t u) {fd : Nat}
    (hwritable : Writable t fd) : Writable u fd where
  type := (hsimilar.type fd).trans hwritable.type
  writeBuf := hsimilar.writeBuf fd hwritable.writeBuf

theorem Similar.trans {t u v : Transport} (hfirst : Similar t u) (hsecond : Similar u v) :
    Similar t v where
  this := hsecond.this.trans hfirst.this
  maxfds := hsecond.maxfds.trans hfirst.maxfds
  seq := hsecond.seq.trans hfirst.seq
  blockSize := hsecond.blockSize.trans hfirst.blockSize
  tid := fun fd => (hsecond.tid fd).trans (hfirst.tid fd)
  type := fun fd => (hsecond.type fd).trans (hfirst.type fd)
  readBuf := fun fd => (hsecond.readBuf fd).trans (hfirst.readBuf fd)
  writeBuf := fun fd h => hsecond.writeBuf fd (hfirst.writeBuf fd h)
  eda := fun fd => (hsecond.eda fd).trans (hfirst.eda fd)
  interest := fun fd h => by
    rcases hsecond.interest fd h with hearlier | hwritable
    · exact (hfirst.interest fd hearlier).imp_right hsecond.writable
    · exact .inr hwritable

/-- A context that keeps its id, its type and its buffers, whatever they hold. -/
private theorem similar_update (t : Transport) (fd : Nat) (context : Context)
    (htid : context.tid = (t.ctx fd).tid) (htype : context.type = (t.ctx fd).type)
    (hread : context.readBuf.isSome = (t.ctx fd).readBuf.isSome)
    (hwrite : (t.ctx fd).writeBuf.isSome = true → context.writeBuf.isSome = true) :
    Similar t { t with ctx := Function.update t.ctx fd context } := by
  refine ⟨rfl, rfl, rfl, rfl, fun other => ?_, fun other => ?_, fun other => ?_, fun other => ?_,
    fun _ => rfl, fun _ => .inl⟩ <;>
  · by_cases heq : other = fd
    · subst heq
      simpa using by assumption
    · simp [Function.update_of_ne heq]

private theorem setReadBuf_similar (t : Transport) {fd : Nat} (buf : LinkedBuffer)
    (hread : (t.ctx fd).readBuf.isSome = true) : Similar t (t.setReadBuf fd buf) :=
  similar_update t fd _ rfl rfl hread.symm id

theorem setWriteBuf_similar (t : Transport) (fd : Nat) (buf : LinkedBuffer) :
    Similar t (t.setWriteBuf fd buf) := similar_update t fd _ rfl rfl rfl fun _ => rfl

private theorem toggleWrite_similar (t : Transport) (fd : Nat) {on : Bool}
    (hwritable : on = true → Writable t fd) : Similar t (t.toggleWrite fd on) := by
  have heda : ∀ other, (t.toggleWrite fd on).eda other =
      if other = fd then (t.eda fd).map fun _ => on else t.eda other :=
    Function.update_apply t.eda fd _
  refine ⟨rfl, rfl, rfl, rfl, fun _ => rfl, fun _ => rfl, fun _ => rfl, fun _ => id,
    fun other => ?_, fun other hinterest => ?_⟩
  · rw [heda]
    split_ifs with heq
    · rw [heq, Option.isSome_map]
    · rfl
  · rw [heda] at hinterest
    split_ifs at hinterest with heq
    · obtain ⟨-, -, hon⟩ := Option.map_eq_some_iff.mp hinterest
      subst heq
      exact .inr ⟨(hwritable hon).type, (hwritable hon).writeBuf⟩
    · exact .inl hinterest

theorem queue_similar (t : Transport) {fd : Nat} {rest offset : List UInt8} {memory : Nat}
    {calls : List SysCall} {written : List UInt8} {callback : Option Nat} {sent : Sent}
    (htype : (t.ctx fd).type = .tcpConnection)
    (hqueue : t.queue fd rest offset memory calls written callback = some sent) :
    Similar t sent.transport := by
  unfold queue at hqueue
  split at hqueue
  · cases hqueue
    exact .refl t
  · obtain ⟨⟨buf, stored⟩, -, hqueue⟩ := Option.bind_eq_some_iff.mp hqueue
    have hset := setWriteBuf_similar t fd buf
    cases stored with
    | true =>
      cases hqueue
      refine hset.trans (toggleWrite_similar _ fd fun _ => ⟨(hset.type fd).trans htype, ?_⟩)
      simp [setWriteBuf]
    | false =>
      obtain ⟨blocking, -, hqueue⟩ := Option.bind_eq_some_iff.mp hqueue
      cases hqueue
      exact hset

private theorem sendDirect_similar (t : Transport) {fd : Nat} {data : List UInt8} {stray : UInt8}
    {memory : Nat} {call : SysCall} {calls : List SysCall} {sent : Sent}
    (htype : (t.ctx fd).type = .tcpConnection)
    (hsend : t.sendDirect fd data stray memory call calls = some sent) :
    Similar t sent.transport := by
  unfold sendDirect at hsend
  dsimp only at hsend
  split_ifs at hsend
  · exact queue_similar t htype hsend
  · cases hsend
    exact .refl t
  · cases hsend
    exact .refl t
  · exact queue_similar t htype hsend

private theorem send_similar (t : Transport) {tid : Id} {buf : List UInt8} {length : Int}
    {stray : UInt8}
    {memory : Nat} {calls : List SysCall} {sent : Sent}
    (hsend : t.send tid buf length stray memory calls = some sent) :
    Similar t sent.transport := by
  unfold send at hsend
  split_ifs at hsend with hsendable
  · cases hsend
    exact .refl t
  · have htype : (t.ctx tid.fd).type = .tcpConnection := by
      simp [sendable] at hsendable
      exact hsendable.1.1
    split at hsend
    · cases hsend
    · exact sendDirect_similar t htype hsend
    · obtain ⟨⟨buf, _⟩, -, hsend⟩ := Option.bind_eq_some_iff.mp hsend
      cases hsend
      exact setWriteBuf_similar t tid.fd buf

theorem handleTcpWrite_similar (t : Transport) {fd : Nat} {calls : List SysCall} {u : Transport}
    {written : List UInt8} {error : Option Errno}
    (hwrite : t.handleTcpWrite fd calls = some (u, written, error)) : Similar t u := by
  unfold handleTcpWrite at hwrite
  obtain ⟨buf, -, hwrite⟩ := Option.bind_eq_some_iff.mp hwrite
  obtain ⟨⟨drained, bytes, failure⟩, -, hwrite⟩ := Option.bind_eq_some_iff.mp hwrite
  cases failure with
  | some err =>
    cases hwrite
    exact setWriteBuf_similar t fd drained
  | none =>
    obtain ⟨⟨packed, _⟩, -, hwrite⟩ := Option.bind_eq_some_iff.mp hwrite
    cases hwrite
    refine Similar.trans ?_ (setWriteBuf_similar _ fd packed)
    split_ifs
    · exact toggleWrite_similar t fd (by simp)
    · exact .refl t

private theorem handleTcpRead_similar (t : Transport) {fd : Nat} {call : SysCall}
    {temp : List UInt8}
    {memory : Nat} {u : Transport} {received : Bool} {error : Option Errno}
    (hread : t.handleTcpRead fd call temp memory = some (u, received, error)) : Similar t u := by
  unfold handleTcpRead at hread
  obtain ⟨buf, hbuf, hread⟩ := Option.bind_eq_some_iff.mp hread
  have hset : ∀ next, Similar t (t.setReadBuf fd next) := fun next =>
    setReadBuf_similar t next (by rw [hbuf]; rfl)
  split_ifs at hread with hpos hzero hretry
  · obtain ⟨⟨next, stored⟩, -, hread⟩ := Option.bind_eq_some_iff.mp hread
    cases stored with
    | true =>
      cases hread
      exact hset _
    | false =>
      simp only at hread
      split_ifs at hread <;> cases hread <;> exact hset _
  all_goals
    first
    | (simp only at hread; split_ifs at hread <;> cases hread <;> exact hset _)
    | (cases hread; exact hset _)

/-- `add_fd` fails and changes nothing, throws and leaves a descriptor in the epoll set
under a closed context, or opens the context. -/
theorem addFd_cases (t : Transport) (fd : Nat) (ipN : UInt32) (portH : UInt16)
    (type : ContextType) (added : Bool) (memory : Nat) :
    t.addFd fd ipN portH type added memory = (t, some false) ∨
    (fd < t.maxfds ∧ added = true ∧ memory = 0 ∧
      t.addFd fd ipN portH type added memory = ({ t with
        eda := Function.update t.eda fd (some false)
        ctx := Function.update t.ctx fd
          { t.ctx fd with ipN := ipN, portH := portH, type := type } }, none)) ∨
    fd < t.maxfds ∧ t.addFd fd ipN portH type added memory = ({ t with
      eda := Function.update t.eda fd (some false)
      ctx := Function.update t.ctx fd { t.ctx fd with
        ipN := ipN
        portH := portH
        type := type
        readBuf := some t.newBuffer
        tid := ⟨t.seq, fd, some t.this⟩ }
      seq := nextSeq t.seq }, some true) := by
  unfold addFd
  by_cases hcheck : (fd ≥ t.maxfds || !added) = true
  · exact .inl (if_pos hcheck)
  · have hlt : fd < t.maxfds ∧ added = true := by simpa using hcheck
    rw [if_neg hcheck]
    by_cases hmemory : memory = 0
    · exact .inr (.inl ⟨hlt.1, hlt.2, hmemory, if_pos hmemory⟩)
    · exact .inr (.inr ⟨hlt.1, if_neg hmemory⟩)

namespace EventLoop

variable {s next : EventLoop}

/-- A registration that gets as far as its buffer finds a block for it. -/
def Granted (s : EventLoop) (fd : Nat) (ready added : Bool) (memory : Nat) : Prop :=
  fd < s.transport.maxfds → ready = true → added = true → 0 < memory

theorem addFd_cases (s : EventLoop) (fd : Nat) (ipN : UInt32) (portH : UInt16)
    (type : ContextType) (ready added : Bool) (memory : Nat) :
    s.addFd fd ipN portH type ready added memory = (s, some false) ∨
    (¬ s.Granted fd ready added memory ∧ ∃ t,
      s.transport.addFd fd ipN portH type added memory = (t, none) ∧
      s.addFd fd ipN portH type ready added memory = ({ s with transport := t }, none)) ∨
    ∃ t, s.transport.addFd fd ipN portH type added memory = (t, some true) ∧
      s.addFd fd ipN portH type ready added memory =
        ({ s with transport := t, registered := (t.ctx fd).tid :: s.registered }, some true) := by
  unfold addFd
  cases ready with
  | false => exact .inl rfl
  | true =>
    rcases Transport.addFd_cases s.transport fd ipN portH type added memory with
      hfail | ⟨hfd, hadded, hmemory, hthrow⟩ | ⟨-, hdone⟩
    · exact .inl (by rw [if_pos rfl, hfail])
    · refine .inr (.inl ⟨fun hgranted => ?_, _, hthrow, by rw [if_pos rfl, hthrow]⟩)
      exact absurd hmemory (Nat.pos_iff_ne_zero.mp (hgranted hfd rfl hadded))
    · exact .inr (.inr ⟨_, hdone, by rw [if_pos rfl, hdone]⟩)

theorem register_cases {type : ContextType} {fd : Nat} {ipN : UInt32} {portH : UInt16}
    {ready added : Bool} {memory : Nat}
    (hstep : s.register type fd ipN portH ready added memory = some next) :
    s.outside = true ∧ s.unused fd = true ∧
      next = (s.addFd fd ipN portH type ready added memory).1 := by
  unfold register at hstep
  split_ifs at hstep with hcheck
  rw [Bool.and_eq_true] at hcheck
  exact ⟨hcheck.1, hcheck.2, (Option.some.inj hstep).symm⟩

theorem outside_cases (houtside : s.outside = true) :
    s.control = .idle ∨ ∃ frame, s.control = .callback frame := by
  unfold outside at houtside
  split at houtside
  · exact .inl ‹_›
  · exact .inr ⟨_, ‹_›⟩
  · cases houtside

theorem send_cases {tid : Id} {buf : List UInt8} {length : Int} {stray : UInt8} {memory : Nat}
    {calls : List SysCall} (hstep : s.send tid buf length stray memory calls = some next) :
    s.outside = true ∧ ∃ t callback, Similar s.transport t ∧
      next = { s with
        transport := t
        callbacks := ((callback : Option Nat).map (Callback.onTcpSend tid)).toList ++ s.callbacks
        handled := if s.transport.sendable tid length then
            (tid.fd, (s.transport.ctx tid.fd).readBuf.isSome) :: s.handled
          else s.handled } := by
  unfold send at hstep
  split_ifs at hstep with hcheck hsendable
  all_goals
    obtain ⟨sent, hsend, hstep⟩ := Option.bind_eq_some_iff.mp hstep
    cases hstep
    refine ⟨(Bool.and_eq_true _ _ ▸ hcheck).1, _, sent.callback, send_similar _ hsend, ?_⟩
    simp [hsendable, handle]

theorem close_cases {tid : Id} (hstep : s.close tid = some next) :
    s.outside = true ∧ next = s.closeId tid := by
  unfold close at hstep
  split_ifs at hstep with hcheck
  cases hstep
  exact ⟨(Bool.and_eq_true _ _ ▸ hcheck).1, rfl⟩

theorem edit_cases {buf : LinkedBuffer} (hstep : s.edit buf = some next) :
    ∃ t, Similar s.transport t ∧ next = { s with transport := t } := by
  unfold edit at hstep
  obtain ⟨fd, -, hstep⟩ := Option.bind_eq_some_iff.mp hstep
  split_ifs at hstep with hread
  cases hstep
  exact ⟨_, setReadBuf_similar _ buf hread, rfl⟩

theorem writeReady_cases {fd : Nat} {calls : List SysCall} {following : Frame}
    (hstep : s.writeReady fd calls following = some next) :
    ((s.transport.ctx fd).writeBuf.isNone = true ∧ next = { s with control := .fallen }) ∨
    ∃ t, Similar s.transport t ∧
      ((∃ err, next = { s with transport := t }.closeContext fd err following) ∨
        ∃ tid bytes, next = { s with transport := t }.call (.onTcpSend tid bytes) following) := by
  unfold writeReady at hstep
  split_ifs at hstep with hnone
  · exact .inl ⟨hnone, (Option.some.inj hstep).symm⟩
  · obtain ⟨⟨t, written, error⟩, hwrite, hstep⟩ := Option.bind_eq_some_iff.mp hstep
    refine .inr ⟨t, handleTcpWrite_similar _ hwrite, ?_⟩
    cases error with
    | some err => exact .inl ⟨err, (Option.some.inj hstep).symm⟩
    | none => exact .inr ⟨_, _, (Option.some.inj hstep).symm⟩

theorem dispatch_cases {calls : List SysCall} (hstep : s.dispatch calls = some next) :
    s.control = .running .next ∧
    ((s.pending = [] ∧ next = { s with control := .idle }) ∨
    ∃ event rest following, s.pending = event :: rest ∧
      following = (if event.read then Frame.read event.fd else .next) ∧
      ((event.error = true ∧ next =
          ({ s with pending := rest }.handle event.fd).closeContext event.fd 0 .next) ∨
        (event.write = true ∧ (s.transport.ctx event.fd).type ≠ .tcpConnection ∧
          next = { s with pending := rest, control := .fallen }) ∨
        (event.write = true ∧
          ({ s with pending := rest }.handleWrite event.fd).writeReady event.fd calls following =
            some next) ∨
        (event.error = false ∧ event.write = false ∧
          next = { s with pending := rest, control := .running following }))) := by
  unfold dispatch at hstep
  split_ifs at hstep with hcontrol
  refine ⟨hcontrol, ?_⟩
  cases hpending : s.pending with
  | nil =>
    simp only [hpending] at hstep
    exact .inl ⟨rfl, (Option.some.inj hstep).symm⟩
  | cons event rest =>
    simp only [hpending] at hstep
    refine .inr ⟨event, rest, _, rfl, rfl, ?_⟩
    cases herror : event.error with
    | true =>
      rw [herror, if_pos rfl] at hstep
      exact .inl ⟨rfl, (Option.some.inj hstep).symm⟩
    | false =>
      rw [herror, if_neg (by simp)] at hstep
      cases hwrite : event.write with
      | true =>
        rw [hwrite, if_pos rfl] at hstep
        by_cases htype : (s.transport.ctx event.fd).type = .tcpConnection
        · rw [if_pos htype] at hstep
          exact .inr (.inr (.inl ⟨rfl, hstep⟩))
        · rw [if_neg htype] at hstep
          exact .inr (.inl ⟨rfl, htype, (Option.some.inj hstep).symm⟩)
      | false =>
        rw [hwrite, if_neg (by simp)] at hstep
        exact .inr (.inr (.inr ⟨rfl, rfl, (Option.some.inj hstep).symm⟩))

theorem readReady_cases {fd : Nat} {sysCall : SysCall} {temp : List UInt8} {memory : Nat}
    (hstep : s.readReady fd sysCall temp memory = some next) :
    ((s.transport.ctx fd).readBuf.isNone = true ∧ next = { s with control := .fallen }) ∨
    ∃ t, Similar s.transport t ∧
      ((∃ tid frame, (frame = .received fd false ∨ ∃ err, frame = .closing fd err) ∧
          next = { s with transport := t }.call (.onTcpReceived tid) frame) ∨
        (∃ err, next = { s with transport := t }.closeContext fd err .next) ∨
        next = { s with transport := t, control := .running .next }) := by
  unfold readReady at hstep
  split_ifs at hstep with hnone
  · exact .inl ⟨hnone, (Option.some.inj hstep).symm⟩
  · obtain ⟨⟨t, received, error⟩, hread, hstep⟩ := Option.bind_eq_some_iff.mp hstep
    refine .inr ⟨t, handleTcpRead_similar _ hread, ?_⟩
    cases received with
    | true =>
      cases error with
      | none => exact .inl ⟨_, _, .inl rfl, (Option.some.inj hstep).symm⟩
      | some err => exact .inl ⟨_, _, .inr ⟨err, rfl⟩, (Option.some.inj hstep).symm⟩
    | false =>
      cases error with
      | none => exact .inr (.inr (Option.some.inj hstep).symm)
      | some err => exact .inr (.inl ⟨err, (Option.some.inj hstep).symm⟩)

theorem read_cases {sysCall : SysCall} {temp : List UInt8} {memory : Nat}
    (hstep : s.read sysCall temp memory = some next) :
    ∃ fd, s.control = .running (.read fd) ∧
      (((s.transport.ctx fd).type = .tcpListen ∧
          next = { s with control := .running (.accept fd 64) }) ∨
        ((s.transport.ctx fd).type = .udpBind ∧
          next = { s with control := .running (.receive fd 16384) }) ∨
        ((s.transport.ctx fd).tid.seq = -1 ∧ next = { s with control := .running .next }) ∨
        ((s.transport.ctx fd).tid.seq ≠ -1 ∧
          (s.handle fd).readReady fd sysCall temp memory = some next)) := by
  unfold read at hstep
  split at hstep
  · rename_i fd hcontrol
    refine ⟨fd, hcontrol, ?_⟩
    cases htype : (s.transport.ctx fd).type with
    | tcpListen =>
      simp only [htype] at hstep
      exact .inl ⟨rfl, (Option.some.inj hstep).symm⟩
    | udpBind =>
      simp only [htype] at hstep
      exact .inr (.inl ⟨rfl, (Option.some.inj hstep).symm⟩)
    | tcpConnection =>
      simp only [htype] at hstep
      split_ifs at hstep with hseq
      · exact .inr (.inr (.inl ⟨hseq, (Option.some.inj hstep).symm⟩))
      · exact .inr (.inr (.inr ⟨hseq, hstep⟩))
  · cases hstep

theorem accept_cases {accepted : Accepted} (hstep : s.accept accepted = some next) :
    ∃ fd remaining, s.control = .running (.accept fd remaining) ∧
      (next = { s with control := .running .next } ∨
        (0 < remaining ∧ (next = { s.handle fd with control := .running .next } ∨
          (∃ newFd ipN portH ready added memory t,
            accepted = .connection newFd ipN portH ready added memory ∧
            s.unused newFd = true ∧ ¬ s.Granted newFd ready added memory ∧
            s.transport.addFd newFd ipN portH .tcpConnection added memory = (t, none) ∧
            next = { s.handle fd with transport := t, control := .idle, pending := [] }) ∨
          ∃ newFd ipN portH ready added memory t,
            accepted = .connection newFd ipN portH ready added memory ∧
            s.unused newFd = true ∧
            s.transport.addFd newFd ipN portH .tcpConnection added memory = (t, some true) ∧
            next = { s.handle fd with
                transport := t
                registered := (t.ctx newFd).tid :: s.registered }.call
              (.onAccepted (t.ctx newFd).tid (t.ctx fd).tid ipN portH)
              (.accept fd (remaining - 1))))) := by
  unfold accept at hstep
  split at hstep
  · rename_i fd remaining hcontrol
    refine ⟨fd, remaining, hcontrol, ?_⟩
    split_ifs at hstep with hzero
    · exact .inl (Option.some.inj hstep).symm
    · refine .inr ⟨Nat.pos_of_ne_zero hzero, ?_⟩
      cases accepted with
      | failed errno => exact .inl (Option.some.inj hstep).symm
      | connection newFd ipN portH ready added memory =>
        dsimp only at hstep
        split_ifs at hstep with hunused
        rcases addFd_cases (s.handle fd) newFd ipN portH .tcpConnection ready added memory with
          hfail | ⟨hgranted, t, hadd, hthrow⟩ | ⟨t, hadd, hdone⟩
        · rw [hfail] at hstep
          exact .inl (Option.some.inj hstep).symm
        · rw [hthrow] at hstep
          exact .inr (.inl ⟨newFd, ipN, portH, ready, added, memory, t, rfl, hunused, hgranted,
            hadd, (Option.some.inj hstep).symm⟩)
        · rw [hdone] at hstep
          exact .inr (.inr ⟨newFd, ipN, portH, ready, added, memory, t, rfl, hunused, hadd,
            (Option.some.inj hstep).symm⟩)
  · cases hstep

theorem receive_cases {sysCall : SysCall} {temp : List UInt8} {ipN : UInt32} {portH : UInt16}
    (hstep : s.receive sysCall temp ipN portH = some next) :
    ∃ fd remaining, s.control = .running (.receive fd remaining) ∧
      (next = { s with control := .running .next } ∨
        (0 < remaining ∧ (next = { s.handle fd with control := .running .next } ∨
          (∃ frame, frame = Frame.receive fd (remaining - sysCall.ret) ∧
            (next = { s.handle fd with control := .running frame } ∨
              ∃ tid data, next =
                (s.handle fd).call (.onUdpReceived tid data ipN portH) frame))))) := by
  unfold receive at hstep
  split at hstep
  · rename_i fd remaining hcontrol
    refine ⟨fd, remaining, hcontrol, ?_⟩
    split_ifs at hstep with hzero hpos hlarge
    · exact .inl (Option.some.inj hstep).symm
    · exact .inr ⟨by omega, .inr ⟨_, rfl, .inl (Option.some.inj hstep).symm⟩⟩
    · exact .inr ⟨by omega, .inr ⟨_, rfl, .inr ⟨_, _, (Option.some.inj hstep).symm⟩⟩⟩
    · exact .inr ⟨by omega, .inl (Option.some.inj hstep).symm⟩
  · cases hstep

theorem finish_cases (hstep : s.finish = some next) :
    (∃ fd err, s.control = .running (.closing fd err) ∧ next = s.closeContext fd err .next) ∨
    ∃ fd freed, s.control = .running (.received fd freed) ∧
      (((s.transport.ctx fd).tid.seq = -1 ∧ next = { s with control := .running .next }) ∨
        ((s.transport.ctx fd).tid.seq ≠ -1 ∧ freed = true ∧
          next = { s with handled := (fd, false) :: s.handled, control := .fallen }) ∨
        ((s.transport.ctx fd).tid.seq ≠ -1 ∧ freed = false ∧
          next = { s.handle fd with control := .running .next })) := by
  unfold finish at hstep
  split at hstep
  · exact .inl ⟨_, _, ‹_›, (Option.some.inj hstep).symm⟩
  · refine .inr ⟨_, _, ‹_›, ?_⟩
    split_ifs at hstep with hseq hfreed
    · exact .inl ⟨hseq, (Option.some.inj hstep).symm⟩
    · exact .inr (.inl ⟨hseq, hfreed, (Option.some.inj hstep).symm⟩)
    · exact .inr (.inr ⟨hseq, by simpa using hfreed, (Option.some.inj hstep).symm⟩)
  · cases hstep

theorem leave_cases (hstep : s.leave = some next) :
    ∃ frame, s.control = .callback frame ∧ next = { s with control := .running frame } := by
  unfold leave at hstep
  split at hstep
  · exact ⟨_, ‹_›, (Option.some.inj hstep).symm⟩
  · cases hstep

theorem poll_cases {events : List Event} (hstep : s.poll events = some next) :
    s.control = .idle ∧ (events.map Event.fd).Nodup ∧
      (∀ event ∈ events, (s.transport.eda event.fd).isSome = true ∧
        (event.write = true → s.transport.eda event.fd = some true)) ∧
      next = { s with control := .running .next, pending := events } := by
  unfold poll at hstep
  split_ifs at hstep with hcheck
  simp only [Bool.and_eq_true, decide_eq_true_eq, List.all_eq_true] at hcheck
  obtain ⟨⟨⟨hidle, -⟩, hnodup⟩, hset⟩ := hcheck
  refine ⟨hidle, hnodup, fun event hmem => ?_, (Option.some.inj hstep).symm⟩
  have hevent := hset event hmem
  cases heda : s.transport.eda event.fd with
  | none => simp [heda] at hevent
  | some write =>
    refine ⟨rfl, fun hwrite => ?_⟩
    simpa [heda, hwrite] using hevent

theorem destroy_cases (hstep : s.destroy = some next) :
    s.control = .idle ∧ next =
      { s.destroyFrom (List.range s.transport.maxfds) with control := .destroyed } := by
  unfold destroy at hstep
  split_ifs at hstep with hidle
  exact ⟨hidle, (Option.some.inj hstep).symm⟩

end EventLoop

end Libsax.Net.Transport
