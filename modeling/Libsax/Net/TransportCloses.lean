import Libsax.Net.TransportIds

/-! Closing while the event loop runs: what callbacks may close without the loop
handling a closed context. -/
namespace Libsax.Net.Transport

open Libsax.Lib

/-- The handling of an event looks at the sequence number only when it is a
plain read event of a TCP connection. -/
def Event.needs (t : Transport) (event : Event) : Bool :=
  event.error || event.write ||
    (event.read && !decide ((t.ctx event.fd).type = .tcpConnection))

def Frame.fd : Frame → Option Nat
  | .next => none
  | .read fd => some fd
  | .accept fd _ => some fd
  | .receive fd _ => some fd
  | .closing fd _ => some fd
  | .received fd _ => some fd

/-- The descriptor that a frame goes on with, without a look at the sequence number. -/
def Frame.needs (t : Transport) : Frame → Option Nat
  | .read fd => if (t.ctx fd).type = .tcpConnection then none else some fd
  | .accept fd remaining => if 0 < remaining then some fd else none
  | .receive fd remaining => if 0 < remaining then some fd else none
  | .closing fd _ => some fd
  | .next => none
  | .received _ _ => none

/-- The descriptor whose read buffer was deleted below `on_tcp_received`. -/
def Frame.freed : Frame → Option Nat
  | .received fd true => some fd
  | _ => none

def Control.needs (t : Transport) : Control → Option Nat
  | .callback frame => frame.needs t
  | _ => none

def Open (t : Transport) (fd : Nat) : Prop := (t.ctx fd).tid.seq ≠ -1

/-- What is still to be handled is open, and the frame that is active is not
about a descriptor of the batch. -/
structure Ready (t : Transport) (pending : List Event) (frame : Frame) : Prop where
  batch : (pending.map Event.fd).Nodup
  waiting : ∀ event ∈ pending, event.needs t = true → Open t event.fd
  writes : ∀ event ∈ pending, event.write = true → Writable t event.fd
  apart : ∀ fd, frame.fd = some fd → fd ∉ pending.map Event.fd
  freed : ∀ fd, frame.freed = some fd → ¬ Open t fd
  frame : ∀ fd, frame.needs t = some fd → Open t fd

/-- The epoll set holds open descriptors, with write interest where there is a buffer. -/
structure Watched (t : Transport) : Prop where
  opened : ∀ fd, (t.eda fd).isSome = true → Open t fd
  writes : ∀ fd, t.eda fd = some true → Writable t fd

private theorem close_ctx_of_ne (t : Transport) {tid : Id} {fd : Nat} (hne : fd ≠ tid.fd) :
    (t.close tid).ctx fd = t.ctx fd := by
  cases hcurrent : t.current tid with
  | false => rw [close_of_not_current t hcurrent]
  | true =>
    rw [close_eq t hcurrent]
    exact Function.update_of_ne hne _ _

private theorem close_closed (t : Transport) (tid : Id) {fd : Nat} (hclosed : ¬ Open t fd) :
    ¬ Open (t.close tid) fd := by
  cases hcurrent : t.current tid with
  | false => rwa [close_of_not_current t hcurrent]
  | true =>
    by_cases heq : fd = tid.fd
    · rw [close_eq t hcurrent, heq]
      simp [Open]
    · unfold Open
      rwa [close_ctx_of_ne t heq]

@[simp] private theorem close_type (t : Transport) (tid : Id) (fd : Nat) :
    ((t.close tid).ctx fd).type = (t.ctx fd).type := by
  by_cases heq : fd = tid.fd
  · cases hcurrent : t.current tid with
    | false => rw [close_of_not_current t hcurrent]
    | true =>
      rw [close_eq t hcurrent, heq]
      simp
  · rw [close_ctx_of_ne t heq]

theorem Event.needs_congr {t u : Transport} {event : Event}
    (htype : (u.ctx event.fd).type = (t.ctx event.fd).type) :
    event.needs u = event.needs t := by
  unfold Event.needs
  rw [htype]

theorem Frame.needs_fd {t : Transport} {frame : Frame} {fd : Nat}
    (hneeds : frame.needs t = some fd) : frame.fd = some fd := by
  cases frame with
  | read other =>
    simp only [Frame.needs] at hneeds
    split_ifs at hneeds
    exact hneeds
  | accept other remaining =>
    simp only [Frame.needs] at hneeds
    split_ifs at hneeds
    exact hneeds
  | receive other remaining =>
    simp only [Frame.needs] at hneeds
    split_ifs at hneeds
    exact hneeds
  | closing other err => exact hneeds
  | next => cases hneeds
  | received other freed => cases hneeds

theorem Frame.needs_congr {t u : Transport} {frame : Frame} {fd : Nat}
    (htype : ∀ fd, frame.fd = some fd → (u.ctx fd).type = (t.ctx fd).type)
    (hneeds : frame.needs u = some fd) : frame.needs t = some fd := by
  cases frame with
  | read other =>
    simp only [Frame.needs] at hneeds ⊢
    rwa [htype other rfl] at hneeds
  | _ => exact hneeds

theorem Ready.of_open {t u : Transport} {pending : List Event} {frame : Frame}
    (hready : Ready t pending frame)
    (hevents : ∀ event ∈ pending, Open u event.fd ∨
      ((u.ctx event.fd).type = (t.ctx event.fd).type ∧
        (event.needs t = true → Open t event.fd → Open u event.fd)))
    (hwrites : ∀ event ∈ pending, event.write = true → Writable t event.fd →
      Writable u event.fd)
    (hframe : ∀ fd, frame.fd = some fd → Open u fd ∨
      ((u.ctx fd).type = (t.ctx fd).type ∧
        (frame.needs t = some fd → Open t fd → Open u fd)))
    (hfreed : ∀ fd, frame.freed = some fd → ¬ Open t fd → ¬ Open u fd) :
    Ready u pending frame := by
  refine ⟨hready.batch, fun event hmem hneeds => ?_,
    fun event hmem hwrite => hwrites event hmem hwrite (hready.writes event hmem hwrite),
    hready.apart, fun fd hfd => hfreed fd hfd (hready.freed fd hfd), fun fd hneeds => ?_⟩
  · rcases hevents event hmem with hopen | ⟨htype, hkept⟩
    · exact hopen
    · rw [Event.needs_congr htype] at hneeds
      exact hkept hneeds (hready.waiting event hmem hneeds)
  · rcases hframe fd (Frame.needs_fd hneeds) with hopen | ⟨htype, hkept⟩
    · exact hopen
    · have hsame : frame.needs t = some fd := by
        refine Frame.needs_congr (fun other hother => ?_) hneeds
        rw [Frame.needs_fd hneeds] at hother
        cases hother
        exact htype
      exact hkept hsame (hready.frame fd hsame)

theorem Similar.open_iff {t u : Transport} (hsimilar : Similar t u) (fd : Nat) :
    Open u fd ↔ Open t fd := by
  unfold Open
  rw [hsimilar.tid]

theorem Ready.similar {t u : Transport} {pending : List Event} {frame : Frame}
    (hready : Ready t pending frame) (hsimilar : Similar t u) : Ready u pending frame :=
  hready.of_open (fun _ _ => .inr ⟨hsimilar.type _, fun _ => (hsimilar.open_iff _).mpr⟩)
    (fun _ _ _ => hsimilar.writable)
    (fun _ _ => .inr ⟨hsimilar.type _, fun _ => (hsimilar.open_iff _).mpr⟩)
    fun _ _ => mt (hsimilar.open_iff _).mp

theorem Ready.to {t : Transport} {pending : List Event} {frame following : Frame}
    (hready : Ready t pending frame)
    (hfd : ∀ fd, following.fd = some fd → frame.fd = some fd)
    (hneeds : ∀ fd, following.needs t = some fd → Open t fd)
    (hfreed : following.freed = none) : Ready t pending following :=
  ⟨hready.batch, hready.waiting, hready.writes, fun fd h => hready.apart fd (hfd fd h),
    fun fd h => by simp [hfreed] at h, hneeds⟩

theorem Ready.next {t : Transport} {pending : List Event} {frame : Frame}
    (hready : Ready t pending frame) : Ready t pending .next :=
  hready.to (fun _ h => by cases h) (fun _ h => by cases h) rfl

theorem Ready.take {t : Transport} {event : Event} {rest : List Event} {frame : Frame}
    (hready : Ready t (event :: rest) frame) :
    Ready t rest (if event.read then .read event.fd else .next) := by
  obtain ⟨hhead, htail⟩ := List.nodup_cons.mp hready.batch
  have hrest : Ready t rest .next :=
    ⟨htail, fun other hmem => hready.waiting other (List.mem_cons_of_mem _ hmem),
      fun other hmem => hready.writes other (List.mem_cons_of_mem _ hmem),
      fun _ h => (by cases h), fun _ h => (by cases h), fun _ h => (by cases h)⟩
  cases hread : event.read with
  | false => exact hrest
  | true =>
    refine ⟨htail, hrest.waiting, hrest.writes, fun fd hfd => ?_, fun _ h => (by cases h),
      fun fd hneeds => ?_⟩
    · cases hfd
      exact hhead
    · have hfd := Frame.needs_fd hneeds
      cases hfd
      refine hready.waiting event List.mem_cons_self ?_
      simp only [if_true, Frame.needs] at hneeds
      split_ifs at hneeds with htype
      simp [Event.needs, hread, htype]

theorem Ready.close {t : Transport} {pending : List Event} {frame : Frame}
    (hready : Ready t pending frame) {tid : Id}
    (hevents : t.current tid = true → ∀ event ∈ pending, event.fd = tid.fd →
      event.needs t = false)
    (hframe : t.current tid = true → frame.needs t ≠ some tid.fd) :
    Ready (t.close tid) pending frame := by
  cases hcurrent : t.current tid with
  | false =>
    rw [close_of_not_current t hcurrent]
    exact hready
  | true =>
    have hopen : ∀ fd, fd ≠ tid.fd → Open t fd → Open (t.close tid) fd := by
      intro fd hne h
      unfold Open
      rwa [close_ctx_of_ne t hne]
    have hother : ∀ event ∈ pending, event.needs t = true → event.fd ≠ tid.fd := by
      intro event hmem hneeds heq
      rw [hevents hcurrent event hmem heq] at hneeds
      cases hneeds
    refine hready.of_open
      (fun event hmem => .inr ⟨close_type t tid _, fun hneeds => hopen _ (hother event hmem hneeds)⟩)
      (fun event hmem hwrite hwritable => ?_)
      (fun fd _ => .inr ⟨close_type t tid _, fun hneeds => hopen _ ?_⟩) (fun fd _ => close_closed t tid)
    · have hctx := close_ctx_of_ne t (hother event hmem (by simp [Event.needs, hwrite]))
      exact ⟨hctx ▸ hwritable.type, hctx ▸ hwritable.writeBuf⟩
    · rintro rfl
      exact hframe hcurrent hneeds

theorem Ready.release {t : Transport} {pending : List Event} {frame : Frame}
    (hready : Ready t pending frame) {fd : Nat} (hclosed : ¬ Open t fd) :
    Ready t pending (frame.release fd) := by
  cases frame with
  | received other freed =>
    refine ⟨hready.batch, hready.waiting, hready.writes, hready.apart, fun found hfound => ?_,
      fun _ h => (by cases h)⟩
    cases freed with
    | true => exact hready.freed found hfound
    | false =>
      by_cases heq : other = fd
      · subst heq
        simp only [Frame.release, Bool.false_or, decide_true, Frame.freed, Option.some.injEq]
          at hfound
        rwa [← hfound]
      · simp [Frame.release, heq, Frame.freed] at hfound
  | _ => exact hready

theorem Ready.addFd {t u : Transport} {pending : List Event} {frame : Frame}
    (hready : Ready t pending frame) {fd : Nat} {ipN : UInt32} {portH : UInt16}
    {type : ContextType} {added : Bool} {memory : Nat} (hseq : t.seq ≠ -1)
    (hunused : ¬ Open t fd) (hfreed : frame.freed ≠ some fd)
    (hadd : t.addFd fd ipN portH type added memory = (u, some true)) :
    Ready u pending frame := by
  rcases Transport.addFd_cases t fd ipN portH type added memory with
    hfail | ⟨-, -, -, hthrow⟩ | ⟨-, hdone⟩
  · rw [hfail] at hadd
    simp at hadd
  · rw [hthrow] at hadd
    simp at hadd
  · rw [hdone] at hadd
    obtain ⟨hu, -⟩ := Prod.mk.inj hadd
    have hnew : Open u fd := by
      rw [← hu]
      simpa [Open] using hseq
    have hother : ∀ other, other ≠ fd → u.ctx other = t.ctx other := by
      intro other hne
      rw [← hu]
      exact Function.update_of_ne hne _ _
    have hkept : ∀ other, Open u other ∨ ((u.ctx other).type = (t.ctx other).type ∧
        (Open t other → Open u other)) := by
      intro other
      by_cases heq : other = fd
      · exact .inl (heq ▸ hnew)
      · unfold Open
        rw [hother other heq]
        exact .inr ⟨rfl, id⟩
    refine hready.of_open (fun event _ => (hkept event.fd).imp_right fun h => ⟨h.1, fun _ => h.2⟩)
      (fun event hmem hwrite hwritable => ?_)
      (fun other _ => (hkept other).imp_right fun h => ⟨h.1, fun _ => h.2⟩)
      fun other hfd hclosed => ?_
    · have hctx := hother event.fd fun heq =>
        hunused (heq ▸ hready.waiting event hmem (by simp [Event.needs, hwrite]))
      exact ⟨hctx ▸ hwritable.type, hctx ▸ hwritable.writeBuf⟩
    · unfold Open
      rwa [hother other fun heq => hfreed (heq ▸ hfd)]

theorem Watched.similar {t u : Transport} (hwatched : Watched t) (hsimilar : Similar t u) :
    Watched u where
  opened := fun fd h => (hsimilar.open_iff fd).mpr (hwatched.opened fd (hsimilar.eda fd ▸ h))
  writes := fun fd h => (hsimilar.interest fd h).elim
    (fun hearlier => hsimilar.writable (hwatched.writes fd hearlier)) id

theorem Watched.close {t : Transport} (hwatched : Watched t) (tid : Id) :
    Watched (t.close tid) := by
  cases hcurrent : t.current tid with
  | false =>
    rw [close_of_not_current t hcurrent]
    exact hwatched
  | true =>
    have heda : ∀ fd, (t.close tid).eda fd = if fd = tid.fd then none else t.eda fd := by
      intro fd
      rw [close_eq t hcurrent]
      exact Function.update_apply t.eda tid.fd none fd
    refine ⟨fun fd h => ?_, fun fd h => ?_⟩
    · rw [heda] at h
      split_ifs at h with heq
      · cases h
      · unfold Open
        rw [close_ctx_of_ne t heq]
        exact hwatched.opened fd h
    · rw [heda] at h
      split_ifs at h with heq
      have hctx := close_ctx_of_ne t heq
      exact ⟨hctx ▸ (hwatched.writes fd h).type, hctx ▸ (hwatched.writes fd h).writeBuf⟩

theorem Watched.addFd {t u : Transport} (hwatched : Watched t) {fd : Nat} {ipN : UInt32}
    {portH : UInt16} {type : ContextType} {added : Bool} {memory : Nat} (hseq : t.seq ≠ -1)
    (hadd : t.addFd fd ipN portH type added memory = (u, some true)) : Watched u := by
  rcases Transport.addFd_cases t fd ipN portH type added memory with
    hfail | ⟨-, -, -, hthrow⟩ | ⟨-, hdone⟩
  · rw [hfail] at hadd
    simp at hadd
  · rw [hthrow] at hadd
    simp at hadd
  · rw [hdone] at hadd
    obtain ⟨hu, -⟩ := Prod.mk.inj hadd
    have heda : ∀ other, u.eda other = if other = fd then some false else t.eda other := by
      intro other
      rw [← hu]
      exact Function.update_apply t.eda fd _ other
    have hctx : ∀ other, other ≠ fd → u.ctx other = t.ctx other := by
      intro other hne
      rw [← hu]
      exact Function.update_of_ne hne _ _
    refine ⟨fun other h => ?_, fun other h => ?_⟩
    · by_cases heq : other = fd
      · rw [← hu, heq]
        simpa [Open] using hseq
      · rw [heda, if_neg heq] at h
        unfold Open
        rw [hctx other heq]
        exact hwatched.opened other h
    · rw [heda] at h
      split_ifs at h with heq
      · cases h
      · exact ⟨hctx other heq ▸ (hwatched.writes other h).type,
          hctx other heq ▸ (hwatched.writes other h).writeBuf⟩

namespace EventLoop

variable {s next : EventLoop}

def closedIds (s : EventLoop) : List Id :=
  s.callbacks.filterMap fun
    | .onClosed tid _ => some tid
    | _ => none

structure ClosedOnce (s : EventLoop) : Prop where
  registered : s.registered.Nodup
  closed : (s.closed ++ s.transport.openIds).Perm s.registered
  destroyed : s.control = .destroyed → s.closed.Perm s.registered
  onClosed : s.closedIds.Nodup ∧ s.closedIds ⊆ s.closed
  handled : ∀ entry ∈ s.handled, entry.2 = true
  standing : s.control ≠ .fallen

/-- The id that the next registration of a descriptor is given is a new one. -/
def Fresh (s : EventLoop) (fd : Nat) : Prop :=
  ⟨s.transport.seq, fd, some s.transport.this⟩ ∉ s.registered

/-- What the program and its callbacks may do: they close no descriptor that the
batch or the frame below goes on with, and use no id of sequence number -1. They
register under ids not given out before and find memory for the buffer, and an
`on_tcp_received` that closed its connection does not register its descriptor again. -/
def Careful (s : EventLoop) : Action → Prop
  | .close tid => tid.seq ≠ -1 ∧ (s.transport.current tid = true →
      (∀ event ∈ s.pending, event.fd = tid.fd → event.needs s.transport = false) ∧
      s.control.needs s.transport ≠ some tid.fd)
  | .send tid _ _ _ _ _ => tid.seq ≠ -1
  | .register _ fd _ _ ready added memory => s.Fresh fd ∧ s.Granted fd ready added memory ∧
      s.control ≠ .callback (.received fd true)
  | .accept (.connection fd _ _ ready added memory) =>
    s.Fresh fd ∧ s.Granted fd ready added memory
  | _ => True

instance (s : EventLoop) (fd : Nat) : Decidable (s.Fresh fd) :=
  inferInstanceAs (Decidable (_ ∉ _))

instance (s : EventLoop) (fd : Nat) (ready added : Bool) (memory : Nat) :
    Decidable (s.Granted fd ready added memory) :=
  inferInstanceAs (Decidable (_ → _ → _ → _))

instance (s : EventLoop) : ∀ action, Decidable (s.Careful action)
  | .close _ => inferInstanceAs (Decidable (_ ≠ _ ∧ (_ → (∀ event ∈ s.pending, _ → _) ∧ _ ≠ _)))
  | .send _ _ _ _ _ _ => inferInstanceAs (Decidable (_ ≠ _))
  | .register _ _ _ _ _ _ _ => inferInstanceAs (Decidable (_ ∧ _ ∧ _ ≠ _))
  | .accept (.connection _ _ _ _ _ _) => inferInstanceAs (Decidable (_ ∧ _))
  | .accept (.failed _) => .isTrue trivial
  | .edit _ => .isTrue trivial
  | .poll _ => .isTrue trivial
  | .dispatch _ => .isTrue trivial
  | .read _ _ _ => .isTrue trivial
  | .receive _ _ _ _ => .isTrue trivial
  | .finish => .isTrue trivial
  | .leave => .isTrue trivial
  | .destroy => .isTrue trivial

structure Record (s : EventLoop) : Prop where
  balanced : s.Balanced
  watched : Watched s.transport
  registered : s.registered.Nodup
  closed : ∀ tid ∈ s.closed, tid.seq ≠ -1
  delivered : s.closedIds.Sublist s.closed
  handled : ∀ entry ∈ s.handled, entry.2 = true

structure Safe (s : EventLoop) : Prop where
  record : s.Record
  ready : ∀ frame, s.control = .running frame ∨ s.control = .callback frame →
    Ready s.transport s.pending frame
  destroyed : s.control = .destroyed → s.transport.openIds = []
  standing : s.control ≠ .fallen

theorem Record.closedOnce (hrecord : s.Record) (hstanding : s.control ≠ .fallen)
    (hdestroyed : s.control = .destroyed → s.transport.openIds = []) : s.ClosedOnce := by
  have hall : s.closed.filter (fun tid => tid.seq ≠ -1) = s.closed :=
    List.filter_eq_self.mpr fun tid hmem => by simpa using hrecord.closed tid hmem
  have hperm : (s.closed ++ s.transport.openIds).Perm s.registered := by
    have hbalance := hrecord.balanced.balance
    rwa [hall] at hbalance
  have hnodup : s.closed.Nodup :=
    (List.nodup_append.mp (hperm.nodup_iff.mpr hrecord.registered)).1
  refine ⟨hrecord.registered, hperm, fun h => ?_,
    ⟨hnodup.sublist hrecord.delivered, hrecord.delivered.subset⟩, hrecord.handled, hstanding⟩
  rwa [hdestroyed h, List.append_nil] at hperm

theorem Record.similar (hrecord : s.Record) {t : Transport} (hsimilar : Similar s.transport t) :
    Record { s with transport := t } :=
  ⟨hrecord.balanced.similar hsimilar, hrecord.watched.similar hsimilar, hrecord.registered,
    hrecord.closed, hrecord.delivered, hrecord.handled⟩

theorem Record.handle (hrecord : s.Record) {fd : Nat} (hopen : Open s.transport fd) :
    (s.handle fd).Record := by
  refine { hrecord with handled := fun entry hmem => ?_ }
  rcases List.mem_cons.mp hmem with rfl | hmem
  · exact (hrecord.balanced.buffers fd).mpr hopen
  · exact hrecord.handled entry hmem

theorem Record.handleWrite (hrecord : s.Record) {fd : Nat} (hopen : Open s.transport fd)
    (hwritable : Writable s.transport fd) : (s.handleWrite fd).Record := by
  refine { hrecord with handled := fun entry hmem => ?_ }
  rcases List.mem_cons.mp hmem with rfl | hmem
  · simp [(hrecord.balanced.buffers fd).mpr hopen, hwritable.writeBuf]
  · exact hrecord.handled entry hmem

theorem Record.closeId (hrecord : s.Record) {tid : Id} (hseq : tid.seq ≠ -1) :
    (s.closeId tid).Record := by
  have hbalanced := hrecord.balanced.closeId tid
  unfold EventLoop.closeId at hbalanced ⊢
  split_ifs at hbalanced ⊢ with hcurrent
  · refine ⟨hbalanced, hrecord.watched.close tid, hrecord.registered, fun other hmem => ?_,
      hrecord.delivered.cons _, hrecord.handled⟩
    rcases List.mem_cons.mp hmem with rfl | hmem
    · have hsame : (s.transport.ctx tid.fd).tid.seq = tid.seq := by
        simp [current, Id.same] at hcurrent
        exact hcurrent.1
      rwa [hsame]
    · exact hrecord.closed other hmem
  · exact hrecord

theorem Record.closeContext (hrecord : s.Record) {fd : Nat} (hopen : Open s.transport fd)
    (err : Errno) (frame : Frame) : (s.closeContext fd err frame).Record := by
  have hids := hrecord.balanced.ids fd hopen
  have hcurrent : s.transport.current (s.transport.ctx fd).tid = true := by
    simp [current, Id.same, hids.1]
  have hclose := hrecord.closeId hopen
  refine ⟨hclose.balanced, hclose.watched, hclose.registered, hclose.closed, ?_, hclose.handled⟩
  have hlog : (s.closeId (s.transport.ctx fd).tid).closed =
      (s.transport.ctx fd).tid :: s.closed := by
    unfold EventLoop.closeId
    rw [if_pos hcurrent, hids.1]
  have hcallbacks : (s.closeId (s.transport.ctx fd).tid).callbacks = s.callbacks := by
    unfold EventLoop.closeId
    rw [if_pos hcurrent]
  unfold EventLoop.closeContext call closedIds
  dsimp only
  rw [hlog, hcallbacks]
  exact hrecord.delivered.cons_cons _

theorem Record.seq_ne (hrecord : s.Record) : s.transport.seq ≠ -1 := by
  have := hrecord.balanced.counter
  omega

theorem Record.addFd (hrecord : s.Record) {fd : Nat} {ipN : UInt32} {portH : UInt16}
    {type : ContextType} {added : Bool} {memory : Nat} {t : Transport}
    (hunused : s.unused fd = true) (hfresh : s.Fresh fd)
    (hadd : s.transport.addFd fd ipN portH type added memory = (t, some true)) :
    Record { s with transport := t, registered := (t.ctx fd).tid :: s.registered } := by
  obtain ⟨htid, hbalanced⟩ := hrecord.balanced.addFd hunused hadd
  refine ⟨hbalanced, hrecord.watched.addFd hrecord.seq_ne hadd, ?_, hrecord.closed,
    hrecord.delivered, hrecord.handled⟩
  dsimp only
  rw [htid]
  exact List.nodup_cons.mpr ⟨hfresh, hrecord.registered⟩

@[simp] private theorem closeId_transport (s : EventLoop) (tid : Id) :
    (s.closeId tid).transport = s.transport.close tid := by
  unfold closeId
  split_ifs with hcurrent
  · rfl
  · rw [close_of_not_current _ (by simpa using hcurrent)]

/-- `close(ctx.tid)` where the frame is about another descriptor or is done with this one. -/
theorem Ready.closeContext (hbalanced : s.Balanced) {fd : Nat} {frame : Frame}
    (hready : Ready s.transport s.pending frame) (hopen : Open s.transport fd)
    (hapart : fd ∉ s.pending.map Event.fd) (hframe : frame.needs s.transport ≠ some fd)
    (err : Errno) :
    Ready (s.closeContext fd err frame).transport (s.closeContext fd err frame).pending frame := by
  have hfd := (hbalanced.ids fd hopen).1
  have hpending : (s.closeContext fd err frame).pending = s.pending := by
    unfold EventLoop.closeContext EventLoop.closeId
    split_ifs <;> rfl
  have htransport : (s.closeContext fd err frame).transport =
      s.transport.close (s.transport.ctx fd).tid := closeId_transport s _
  rw [hpending, htransport]
  refine hready.close (fun _ event hmem heq => ?_) (fun _ => by rwa [hfd])
  rw [hfd] at heq
  exact absurd (heq ▸ List.mem_map_of_mem hmem) hapart

theorem Safe.of_ready {frame : Frame} (hrecord : s.Record)
    (hcontrol : s.control = .running frame ∨ s.control = .callback frame)
    (hready : Ready s.transport s.pending frame) : s.Safe := by
  refine ⟨hrecord, fun other hother => ?_, fun hdestroyed => ?_, fun hfallen => ?_⟩
  · have hsame : other = frame := by
      rcases hcontrol with hc | hc <;> rcases hother with ho | ho <;> rw [hc] at ho <;> cases ho <;>
        rfl
    rwa [hsame]
  · rcases hcontrol with hc | hc <;> rw [hc] at hdestroyed <;> cases hdestroyed
  · rcases hcontrol with hc | hc <;> rw [hc] at hfallen <;> cases hfallen

theorem Safe.of_idle (hrecord : s.Record) (hcontrol : s.control = .idle) : s.Safe := by
  refine ⟨hrecord, fun frame hframe => ?_, fun hdestroyed => ?_, fun hfallen => ?_⟩
  · rcases hframe with h | h <;> rw [hcontrol] at h <;> cases h
  · rw [hcontrol] at hdestroyed
    cases hdestroyed
  · rw [hcontrol] at hfallen
    cases hfallen

theorem Safe.closeContext {fd : Nat} {frame : Frame} (hrecord : s.Record)
    (hready : Ready s.transport s.pending frame) (hopen : Open s.transport fd)
    (hapart : fd ∉ s.pending.map Event.fd) (hframe : frame.needs s.transport ≠ some fd)
    (err : Errno) : (s.closeContext fd err frame).Safe :=
  .of_ready (hrecord.closeContext hopen err frame) (.inr rfl)
    (Ready.closeContext hrecord.balanced hready hopen hapart hframe err)

theorem Safe.writeReady {fd : Nat} {calls : List SysCall} {following : Frame}
    (hrecord : s.Record) (hready : Ready s.transport s.pending following)
    (hopen : Open s.transport fd) (hwritable : Writable s.transport fd)
    (hapart : fd ∉ s.pending.map Event.fd) (hframe : following.needs s.transport ≠ some fd)
    (hstep : s.writeReady fd calls following = some next) : next.Safe := by
  obtain ⟨hnone, -⟩ | ⟨t, hsimilar, hnext⟩ := writeReady_cases hstep
  · have hbuf := hwritable.writeBuf
    rw [Option.isNone_iff_eq_none.mp hnone] at hbuf
    cases hbuf
  have hready' := hready.similar hsimilar
  have hrecord' := hrecord.similar hsimilar
  rcases hnext with ⟨err, rfl⟩ | ⟨tid, bytes, rfl⟩
  · have hopen' : Open t fd := by
      unfold Open
      rwa [hsimilar.tid]
    refine Safe.closeContext hrecord' hready' hopen' hapart (fun h => hframe ?_) err
    exact Frame.needs_congr (fun other _ => hsimilar.type other) h
  · exact .of_ready { hrecord' with } (.inr rfl) hready'

theorem Safe.dispatch (hsafe : s.Safe) {calls : List SysCall}
    (hstep : s.dispatch calls = some next) : next.Safe := by
  obtain ⟨hcontrol, ⟨-, rfl⟩ | ⟨event, rest, following, hpending, rfl, hevent⟩⟩ :=
    dispatch_cases hstep
  · exact .of_idle { hsafe.record with } rfl
  · have hready := hsafe.ready .next (.inl hcontrol)
    rw [hpending] at hready
    have htake := hready.take
    have hapart := (List.nodup_cons.mp hready.batch).1
    have hrecord : Record { s with pending := rest } := { hsafe.record with }
    rcases hevent with ⟨herror, rfl⟩ | ⟨hwrite, htype, -⟩ | ⟨hwrite, hstep⟩ | ⟨-, -, rfl⟩
    · have hopen := hready.waiting event List.mem_cons_self (by simp [Event.needs, herror])
      exact .closeContext (hrecord.handle hopen) htake.next hopen hapart (by simp [Frame.needs]) 0
    · exact absurd (hready.writes event List.mem_cons_self hwrite).type htype
    · have hopen := hready.waiting event List.mem_cons_self (by simp [Event.needs, hwrite])
      have hwritable := hready.writes event List.mem_cons_self hwrite
      refine .writeReady (hrecord.handleWrite hopen hwritable) htake hopen hwritable hapart ?_ hstep
      split_ifs
      · simp [Frame.needs, handleWrite, hwritable.type]
      · simp [Frame.needs]
    · exact .of_ready { hrecord with } (.inl rfl) htake

theorem Safe.read (hsafe : s.Safe) {sysCall : SysCall} {temp : List UInt8} {memory : Nat}
    (hstep : s.read sysCall temp memory = some next) : next.Safe := by
  obtain ⟨fd, hcontrol, hread⟩ := read_cases hstep
  have hrecord := hsafe.record
  have hready := hsafe.ready _ (.inl hcontrol)
  have hapart := hready.apart fd rfl
  have hguard : (s.transport.ctx fd).type ≠ .tcpConnection → Open s.transport fd := by
    intro htype
    refine hready.frame fd ?_
    simp only [Frame.needs]
    rw [if_neg htype]
  rcases hread with ⟨htype, rfl⟩ | ⟨htype, rfl⟩ | ⟨-, rfl⟩ | ⟨hopen, hstep⟩
  · refine .of_ready { hrecord with } (.inl rfl)
      (hready.to (fun _ h => h) (fun other hneeds => ?_) rfl)
    cases Frame.needs_fd hneeds
    exact hguard (by simp [htype])
  · refine .of_ready { hrecord with } (.inl rfl)
      (hready.to (fun _ h => h) (fun other hneeds => ?_) rfl)
    cases Frame.needs_fd hneeds
    exact hguard (by simp [htype])
  · exact .of_ready { hrecord with } (.inl rfl) hready.next
  · obtain ⟨hnone, -⟩ | ⟨t, hsimilar, hnext⟩ := readReady_cases hstep
    · have hbuf : (s.transport.ctx fd).readBuf.isSome = true :=
        (hrecord.balanced.buffers fd).mpr hopen
      change (s.transport.ctx fd).readBuf.isNone = true at hnone
      rw [Option.isNone_iff_eq_none.mp hnone] at hbuf
      cases hbuf
    have hready' : Ready t s.pending _ := hready.similar hsimilar
    have hrecord' := (hrecord.handle hopen).similar hsimilar
    have hopen' : Open t fd := (hsimilar.open_iff fd).mpr hopen
    rcases hnext with ⟨tid, frame, hframe, rfl⟩ | ⟨err, rfl⟩ | rfl
    · refine .of_ready { hrecord' with } (.inr rfl) ?_
      rcases hframe with rfl | ⟨err, rfl⟩
      · exact hready'.to (fun _ h => h) (fun _ h => (by cases h)) rfl
      · refine hready'.to (fun _ h => h) (fun other hneeds => ?_) rfl
        cases hneeds
        exact hopen'
    · exact .closeContext hrecord' hready'.next hopen' hapart (by simp [Frame.needs]) err
    · exact .of_ready { hrecord' with } (.inl rfl) hready'.next

private theorem unused_closed {fd : Nat} (hunused : s.unused fd = true) :
    ¬ Open s.transport fd := by
  simpa [unused, Open] using hunused

theorem Safe.accept (hsafe : s.Safe) {accepted : Accepted}
    (hcareful : s.Careful (.accept accepted)) (hstep : s.accept accepted = some next) :
    next.Safe := by
  obtain ⟨fd, remaining, hcontrol, hnext⟩ := accept_cases hstep
  have hrecord := hsafe.record
  have hready := hsafe.ready _ (.inl hcontrol)
  rcases hnext with rfl | ⟨hpos, hnext⟩
  · exact .of_ready { hrecord with } (.inl rfl) hready.next
  · have hopen := hready.frame fd (by simp [Frame.needs, hpos])
    have hrecord' := hrecord.handle hopen
    rcases hnext with rfl |
      ⟨newFd, ipN, portH, ready, added, memory, t, rfl, -, hgranted, -, -⟩ |
      ⟨newFd, ipN, portH, ready, added, memory, t, rfl, hunused, hadd, rfl⟩
    · exact .of_ready { hrecord' with } (.inl rfl) hready.next
    · exact absurd hcareful.2 hgranted
    · have hadded := Record.addFd hrecord' hunused hcareful.1 hadd
      have hready' : Ready t s.pending _ :=
        hready.addFd hrecord.seq_ne (unused_closed hunused) (by simp [Frame.freed]) hadd
      refine .of_ready { hadded with } (.inr rfl)
        (hready'.to (fun _ h => h) (fun other h => ?_) rfl)
      cases Frame.needs_fd h
      exact hready'.frame fd (by simp [Frame.needs, hpos])

theorem Safe.receive (hsafe : s.Safe) {sysCall : SysCall} {temp : List UInt8} {ipN : UInt32}
    {portH : UInt16} (hstep : s.receive sysCall temp ipN portH = some next) : next.Safe := by
  obtain ⟨fd, remaining, hcontrol, hnext⟩ := receive_cases hstep
  have hrecord := hsafe.record
  have hready := hsafe.ready _ (.inl hcontrol)
  rcases hnext with rfl | ⟨hpos, hnext⟩
  · exact .of_ready { hrecord with } (.inl rfl) hready.next
  · have hopen := hready.frame fd (by simp [Frame.needs, hpos])
    have hrecord' := hrecord.handle hopen
    have hround : Ready s.transport s.pending (.receive fd (remaining - sysCall.ret)) := by
      refine hready.to (fun _ h => h) (fun other h => ?_) rfl
      cases Frame.needs_fd h
      exact hopen
    rcases hnext with rfl | ⟨frame, rfl, rfl | ⟨tid, data, rfl⟩⟩
    · exact .of_ready { hrecord' with } (.inl rfl) hready.next
    · exact .of_ready { hrecord' with } (.inl rfl) hround
    · exact .of_ready { hrecord' with } (.inr rfl) hround

theorem Safe.finish (hsafe : s.Safe) (hstep : s.finish = some next) : next.Safe := by
  obtain ⟨fd, err, hcontrol, rfl⟩ | ⟨fd, freed, hcontrol, hnext⟩ := finish_cases hstep
  · have hready := hsafe.ready _ (.inl hcontrol)
    exact .closeContext hsafe.record hready.next (hready.frame fd rfl) (hready.apart fd rfl)
      (by simp [Frame.needs]) err
  · have hready := hsafe.ready _ (.inl hcontrol)
    rcases hnext with ⟨-, rfl⟩ | ⟨hopen, rfl, -⟩ | ⟨hopen, -, rfl⟩
    · exact .of_ready { hsafe.record with } (.inl rfl) hready.next
    · exact absurd hopen (hready.freed fd rfl)
    · have hrecord := hsafe.record.handle hopen
      exact .of_ready { hrecord with } (.inl rfl) hready.next

theorem Safe.poll (hsafe : s.Safe) {events : List Event} (hstep : s.poll events = some next) :
    next.Safe := by
  obtain ⟨-, hnodup, hset, rfl⟩ := poll_cases hstep
  exact .of_ready { hsafe.record with } (.inl rfl) ⟨hnodup,
    fun event hmem _ => hsafe.record.watched.opened _ (hset event hmem).1,
    fun event hmem hwrite => hsafe.record.watched.writes _ ((hset event hmem).2 hwrite),
    fun _ h => (by cases h), fun _ h => (by cases h), fun _ h => (by cases h)⟩

theorem Safe.close (hsafe : s.Safe) {tid : Id} (hcareful : s.Careful (.close tid))
    (hstep : s.close tid = some next) : next.Safe := by
  obtain ⟨houtside, rfl⟩ := close_cases hstep
  have hrecord := hsafe.record.closeId hcareful.1
  by_cases hcurrent : s.transport.current tid = true
  · unfold EventLoop.closeId at hrecord ⊢
    rw [if_pos hcurrent] at hrecord ⊢
    rcases outside_cases houtside with hidle | ⟨frame, hcontrol⟩
    · exact .of_idle hrecord (congrArg (Control.release tid.fd) hidle)
    · have hclosed : ¬ Open (s.transport.close tid) tid.fd := by
        rw [close_eq _ hcurrent]
        simp [Open]
      refine .of_ready hrecord (.inr (congrArg (Control.release tid.fd) hcontrol))
        (((hsafe.ready frame (.inr hcontrol)).close ?_ ?_).release hclosed)
      · exact fun _ => (hcareful.2 hcurrent).1
      · have hneeds := (hcareful.2 hcurrent).2
        rw [hcontrol] at hneeds
        exact fun _ => hneeds
  · unfold EventLoop.closeId
    rwa [if_neg hcurrent]

theorem Safe.similar (hsafe : s.Safe) (hcontrol : next.control = s.control)
    (hpending : next.pending = s.pending) (hsimilar : Similar s.transport next.transport)
    (hrecord : next.Record) : next.Safe := by
  refine ⟨hrecord, fun frame hframe => ?_, fun hdestroyed => ?_, hcontrol ▸ hsafe.standing⟩
  · rw [hpending]
    rw [hcontrol] at hframe
    exact (hsafe.ready frame hframe).similar hsimilar
  · rw [hsimilar.openIds]
    exact hsafe.destroyed (hcontrol ▸ hdestroyed)

theorem Safe.send (hsafe : s.Safe) {tid : Id} {buf : List UInt8} {length : Int} {stray : UInt8}
    {memory : Nat} {calls : List SysCall} (hseq : tid.seq ≠ -1)
    (hstep : s.send tid buf length stray memory calls = some next) : next.Safe := by
  obtain ⟨-, t, callback, hsimilar, rfl⟩ := send_cases hstep
  have hrecord := hsafe.record.similar hsimilar
  refine hsafe.similar rfl rfl hsimilar ⟨hrecord.balanced, hrecord.watched, hrecord.registered,
    hrecord.closed, ?_, fun entry hmem => ?_⟩
  · cases callback with
    | none => exact hrecord.delivered
    | some bytes => exact hrecord.delivered
  · dsimp only at hmem
    split_ifs at hmem with hsendable
    · rcases List.mem_cons.mp hmem with rfl | hmem
      · refine (hsafe.record.balanced.buffers tid.fd).mpr ?_
        simp [sendable, current, Id.same] at hsendable
        rwa [hsendable.1.2.1]
      · exact hsafe.record.handled entry hmem
    · exact hsafe.record.handled entry hmem

theorem Safe.register (hsafe : s.Safe) {type : ContextType} {fd : Nat} {ipN : UInt32}
    {portH : UInt16} {ready added : Bool} {memory : Nat}
    (hcareful : s.Careful (.register type fd ipN portH ready added memory))
    (hstep : s.register type fd ipN portH ready added memory = some next) : next.Safe := by
  obtain ⟨houtside, hunused, rfl⟩ := register_cases hstep
  obtain ⟨hfresh, hgranted, hapart⟩ := hcareful
  rcases addFd_cases s fd ipN portH type ready added memory with
    hfail | ⟨hthrows, -⟩ | ⟨t, hadd, hdone⟩
  · rw [hfail]
    exact hsafe
  · exact absurd hgranted hthrows
  · rw [hdone]
    have hrecord := hsafe.record.addFd hunused hfresh hadd
    rcases outside_cases houtside with hidle | ⟨frame, hcontrol⟩
    · exact .of_idle hrecord hidle
    · refine .of_ready hrecord (.inr hcontrol) ((hsafe.ready frame (.inr hcontrol)).addFd
        hsafe.record.seq_ne (unused_closed hunused) (fun hfreed => ?_) hadd)
      rw [hcontrol] at hapart
      cases frame with
      | received other freed =>
        cases freed with
        | true =>
          cases hfreed
          exact hapart rfl
        | false => cases hfreed
      | _ => cases hfreed

private theorem closeId_closed (s : EventLoop) (tid : Id) {fd : Nat}
    (hclosed : ¬ Open s.transport fd) : ¬ Open (s.closeId tid).transport fd := by
  rw [closeId_transport]
  exact close_closed _ tid hclosed

theorem Record.destroyFrom (hrecord : s.Record) (fds : List Nat) :
    (s.destroyFrom fds).Record ∧
      (s.destroyFrom fds).transport.maxfds = s.transport.maxfds ∧
      ∀ fd, fd ∈ fds ∨ ¬ Open s.transport fd → ¬ Open (s.destroyFrom fds).transport fd := by
  induction fds generalizing s with
  | nil => exact ⟨hrecord, rfl, fun fd h => h.resolve_left (by simp)⟩
  | cons fd rest ih =>
    unfold EventLoop.destroyFrom
    dsimp only
    by_cases hopen : Open s.transport fd
    · obtain ⟨hfd, htrans, -⟩ := hrecord.balanced.ids fd hopen
      have hcurrent : s.transport.current (s.transport.ctx fd).tid = true := by
        simp [current, Id.same, hfd]
      have hmaxfds : (s.closeId (s.transport.ctx fd).tid).transport.maxfds =
          s.transport.maxfds := by
        rw [closeId_transport, close_eq _ hcurrent]
      have hgone : ¬ Open (s.closeId (s.transport.ctx fd).tid).transport fd := by
        rw [closeId_transport, close_eq _ hcurrent]
        simp [Open, hfd]
      rw [if_pos ⟨hopen, htrans⟩]
      obtain ⟨hlast, hsame, hclosed⟩ := ih (hrecord.closeId hopen)
      refine ⟨hlast, hsame.trans hmaxfds, fun other hother => hclosed other ?_⟩
      rcases hother with hmem | hother
      · rcases List.mem_cons.mp hmem with rfl | hmem
        · exact .inr hgone
        · exact .inl hmem
      · exact .inr (closeId_closed s _ hother)
    · rw [if_neg fun h => hopen h.1]
      obtain ⟨hlast, hsame, hclosed⟩ := ih hrecord
      refine ⟨hlast, hsame, fun other hother => hclosed other ?_⟩
      rcases hother with hmem | hother
      · rcases List.mem_cons.mp hmem with rfl | hmem
        · exact .inr hopen
        · exact .inl hmem
      · exact .inr hother

theorem Safe.destroy (hsafe : s.Safe) (hstep : s.destroy = some next) : next.Safe := by
  obtain ⟨-, rfl⟩ := destroy_cases hstep
  obtain ⟨hrecord, hmaxfds, hclosed⟩ :=
    hsafe.record.destroyFrom (List.range s.transport.maxfds)
  refine ⟨{ hrecord with }, fun frame hframe => ?_, fun _ => ?_, fun h => (by cases h)⟩
  · rcases hframe with h | h <;> cases h
  · refine List.flatMap_eq_nil_iff.mpr fun fd hmem => ?_
    dsimp only at hmem
    rw [hmaxfds] at hmem
    unfold held
    rw [if_pos (not_not.mp (hclosed fd (.inl hmem)))]

theorem Safe.step (hsafe : s.Safe) {action : Action} (hcareful : s.Careful action)
    (hstep : s.step action = some next) : next.Safe := by
  cases action with
  | register type fd ipN portH ready added memory => exact hsafe.register hcareful hstep
  | send tid buf length stray memory calls => exact hsafe.send hcareful hstep
  | close tid => exact hsafe.close hcareful hstep
  | edit buf =>
    obtain ⟨t, hsimilar, rfl⟩ := edit_cases hstep
    exact hsafe.similar rfl rfl hsimilar (hsafe.record.similar hsimilar)
  | poll events => exact hsafe.poll hstep
  | dispatch calls => exact hsafe.dispatch hstep
  | read sysCall temp memory => exact hsafe.read hstep
  | accept accepted => exact hsafe.accept hcareful hstep
  | receive sysCall temp ipN portH => exact hsafe.receive hstep
  | finish => exact hsafe.finish hstep
  | leave =>
    obtain ⟨frame, hcontrol, rfl⟩ := leave_cases hstep
    exact .of_ready { hsafe.record with } (.inl rfl) (hsafe.ready frame (.inr hcontrol))
  | destroy => exact hsafe.destroy hstep

/-- As long as callbacks are careful, each registration is closed once, each
connection is reported closed at most once, and nothing closed is handled. -/
theorem closed_once (this maxfds : Nat) (raw : Nat → Context) (blockSize : UInt32)
    (bytes : Nat → Nat → UInt8) (actions : List Action) (s : EventLoop)
    (hcareful : Along step Careful (create (init this maxfds raw blockSize bytes)) actions)
    (hrun : run step (create (init this maxfds raw blockSize bytes)) actions = some s) :
    s.ClosedOnce := by
  have hinit : (create (init this maxfds raw blockSize bytes)).Safe :=
    .of_idle ⟨init_accounted this maxfds raw blockSize bytes,
      ⟨fun _ h => by simp [create, init] at h, fun _ h => by simp [create, init] at h⟩,
      List.nodup_nil, by simp [create], List.Sublist.refl _, by simp [create]⟩ rfl
  have hsafe : s.Safe :=
    run_along_preserves (fun _ _ _ hallowed hinv hstep => Safe.step hinv hallowed hstep) hcareful
      hinit hrun
  exact hsafe.record.closedOnce hsafe.standing hsafe.destroyed

/-- A transport of 8 descriptors whose memory is zero. -/
def sample : EventLoop :=
  create (init 1 8 (fun _ => ⟨.tcpListen, 0, 0, ⟨0, 0, none⟩, none, none⟩) 16 fun _ _ => 0)

/-- The callback of descriptor 5 closes 6, whose read event is in the same batch, connects
anew under 7 and closes its own connection. -/
theorem closed_once_callback : ∃ s,
    run step sample
      [.register .tcpConnection 5 0 80 true true 1, .register .tcpConnection 6 0 80 true true 1,
        .poll [⟨5, true, false, false⟩, ⟨6, true, false, false⟩], .dispatch [],
        .read ⟨1, 0⟩ [7] 8, .close ⟨1, 6, some 1⟩, .register .tcpConnection 7 0 80 true true 1,
        .close ⟨0, 5, some 1⟩, .leave, .finish, .dispatch [], .read ⟨1, 0⟩ [7] 8, .dispatch [],
        .destroy] = some s ∧
    s.closed = [⟨2, 7, some 1⟩, ⟨0, 5, some 1⟩, ⟨1, 6, some 1⟩] ∧ s.handled = [(5, true)] ∧
    s.ClosedOnce := by
  refine ⟨_, rfl, rfl, rfl, closed_once 1 8 _ 16 _
    [.register .tcpConnection 5 0 80 true true 1, .register .tcpConnection 6 0 80 true true 1,
      .poll [⟨5, true, false, false⟩, ⟨6, true, false, false⟩], .dispatch [],
      .read ⟨1, 0⟩ [7] 8, .close ⟨1, 6, some 1⟩, .register .tcpConnection 7 0 80 true true 1,
      .close ⟨0, 5, some 1⟩, .leave, .finish, .dispatch [], .read ⟨1, 0⟩ [7] 8, .dispatch [],
      .destroy] _ (by decide) rfl⟩

/-- The callback of descriptor 5 closes descriptor 6, whose error event is in the
same batch: 6 is closed again, and reported under the sequence number -1. -/
theorem batch_closes_again : ∃ s,
    run step sample
      [.register .tcpConnection 5 0 80 true true 1, .register .tcpConnection 6 0 80 true true 1,
        .poll [⟨5, true, false, false⟩, ⟨6, false, false, true⟩], .dispatch [],
        .read ⟨1, 0⟩ [7] 8, .close ⟨1, 6, some 1⟩, .leave, .finish, .dispatch []] = some s ∧
    s.closed = [⟨-1, 6, some 1⟩, ⟨1, 6, some 1⟩] ∧ s.closedIds = [⟨-1, 6, some 1⟩] ∧
    ¬ s.ClosedOnce := by
  refine ⟨_, rfl, rfl, rfl, fun h => ?_⟩
  have hreleased := h.handled (6, false) (by decide)
  cases hreleased

end EventLoop

end Libsax.Net.Transport
