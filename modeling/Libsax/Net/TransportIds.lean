import Mathlib.Algebra.Ring.Int.Defs
import Libsax.Lib.Groups
import Libsax.Net.EventLoopSteps

/-! Registrations and closes are balanced in every run, and the ids of closed
registrations match nothing. -/
namespace Libsax.Net.Transport

open Libsax.Lib

/-- The id of the registration that a context is open under. -/
def held (t : Transport) (fd : Nat) : List Id :=
  if (t.ctx fd).tid.seq = -1 then [] else [(t.ctx fd).tid]

def openIds (t : Transport) : List Id := (List.range t.maxfds).flatMap t.held

/-- A context is open under its own descriptor or has no read buffer, and each
registration is closed or open, once. A close under the sequence number -1 is
not the close of a registration. -/
structure Accounted (t : Transport) (registered closed : List Id) : Prop where
  ids : ∀ fd, (t.ctx fd).tid.seq ≠ -1 →
    (t.ctx fd).tid.fd = fd ∧ (t.ctx fd).tid.trans = some t.this ∧ fd < t.maxfds
  buffers : ∀ fd, (t.ctx fd).readBuf.isSome = true ↔ (t.ctx fd).tid.seq ≠ -1
  counter : 0 ≤ t.seq
  positive : ∀ tid ∈ registered, 0 ≤ tid.seq
  few : registered.length < 2 ^ 31 → t.seq = registered.length ∧
    (registered.map Id.seq).Nodup ∧ ∀ tid ∈ registered, tid.seq < registered.length
  balance : (closed.filter (fun tid => tid.seq ≠ -1) ++ t.openIds).Perm registered

theorem init_accounted (this maxfds : Nat) (raw : Nat → Context) (blockSize : UInt32)
    (bytes : Nat → Nat → UInt8) : Accounted (init this maxfds raw blockSize bytes) [] [] where
  ids := fun fd h => absurd rfl h
  buffers := fun fd => by simp [init]
  counter := Int.le_refl 0
  positive := by simp
  few := by simp [init]
  balance := by simp [openIds, held, init]

theorem Similar.openIds {t u : Transport} (hsimilar : Similar t u) : u.openIds = t.openIds := by
  unfold Transport.openIds
  rw [hsimilar.maxfds]
  refine List.flatMap_congr fun fd _ => ?_
  unfold held
  rw [hsimilar.tid]

theorem Accounted.similar {t u : Transport} {registered closed : List Id}
    (haccounted : Accounted t registered closed) (hsimilar : Similar t u) :
    Accounted u registered closed where
  ids := fun fd => by
    rw [hsimilar.tid, hsimilar.this, hsimilar.maxfds]
    exact haccounted.ids fd
  buffers := fun fd => by
    rw [hsimilar.tid, hsimilar.readBuf]
    exact haccounted.buffers fd
  counter := hsimilar.seq ▸ haccounted.counter
  positive := haccounted.positive
  few := by
    rw [hsimilar.seq]
    exact haccounted.few
  balance := by
    rw [hsimilar.openIds]
    exact haccounted.balance

private theorem openIds_update (t u : Transport) {fd : Nat} (hfd : fd < t.maxfds)
    (hmaxfds : u.maxfds = t.maxfds) (hother : ∀ other, other ≠ fd → u.ctx other = t.ctx other) :
    (u.openIds ++ t.held fd).Perm (t.openIds ++ u.held fd) := by
  have hheld : u.held = Function.update t.held fd (u.held fd) := by
    funext other
    by_cases heq : other = fd
    · rw [heq, Function.update_self]
    · rw [Function.update_of_ne heq]
      unfold held
      rw [hother other heq]
  have hswap := flatMap_update_perm (List.mem_range.mpr hfd) List.nodup_range t.held (u.held fd)
  unfold openIds
  rw [hmaxfds, hheld, Function.update_self]
  exact hswap

theorem close_eq (t : Transport) {tid : Id} (hcurrent : t.current tid = true) :
    t.close tid = { t with
      eda := Function.update t.eda tid.fd none
      ctx := Function.update t.ctx tid.fd { t.ctx tid.fd with
        tid := { (t.ctx tid.fd).tid with seq := -1 }
        readBuf := none
        writeBuf := none } } := by
  unfold close
  rw [if_pos hcurrent]

theorem close_of_not_current (t : Transport) {tid : Id} (hcurrent : t.current tid = false) :
    t.close tid = t := by
  unfold close
  rw [if_neg (by simp [hcurrent])]

theorem Accounted.close {t : Transport} {registered closed : List Id}
    (haccounted : Accounted t registered closed) (tid : Id) :
    Accounted (t.close tid) registered
      (if t.current tid then (t.ctx tid.fd).tid :: closed else closed) := by
  cases hcurrent : t.current tid with
  | false =>
    rw [close_of_not_current t hcurrent]
    exact haccounted
  | true =>
    have hclose := close_eq t hcurrent
    have hctx : ∀ fd, (t.close tid).ctx fd = if fd = tid.fd then
        { t.ctx tid.fd with
          tid := { (t.ctx tid.fd).tid with seq := -1 }, readBuf := none, writeBuf := none }
        else t.ctx fd := by
      intro fd
      rw [hclose]
      exact Function.update_apply t.ctx tid.fd _ fd
    refine ⟨fun fd => ?_, fun fd => ?_, ?_, haccounted.positive, ?_, ?_⟩
    · have hthis : (t.close tid).this = t.this := by rw [hclose]
      have hmaxfds : (t.close tid).maxfds = t.maxfds := by rw [hclose]
      rw [hctx, hthis, hmaxfds]
      split_ifs
      · exact fun h => absurd rfl h
      · exact haccounted.ids fd
    · rw [hctx]
      split_ifs
      · simp
      · exact haccounted.buffers fd
    · rw [hclose]
      exact haccounted.counter
    · rw [hclose]
      exact haccounted.few
    · have hgone : (t.close tid).held tid.fd = [] := by
        unfold held
        rw [hctx, if_pos rfl]
        simp
      by_cases hseq : (t.ctx tid.fd).tid.seq = -1
      · have hsame : (t.close tid).openIds = t.openIds := by
          unfold openIds
          rw [show (t.close tid).maxfds = t.maxfds by rw [hclose]]
          refine List.flatMap_congr fun fd _ => ?_
          by_cases heq : fd = tid.fd
          · rw [heq, hgone]
            simp [held, hseq]
          · unfold held
            rw [hctx, if_neg heq]
        rw [hsame, if_pos rfl, List.filter_cons_of_neg (by simp [hseq])]
        exact haccounted.balance
      · have hmoved := openIds_update t (t.close tid) (haccounted.ids tid.fd hseq).2.2
          (by rw [hclose]) (fun other hother => by rw [hctx, if_neg hother])
        have hheld : t.held tid.fd = [(t.ctx tid.fd).tid] := by
          unfold held
          rw [if_neg hseq]
        rw [hgone, hheld, List.append_nil] at hmoved
        rw [if_pos rfl, List.filter_cons_of_pos (by simp [hseq]), List.cons_append]
        refine List.Perm.trans ?_ haccounted.balance
        calc List.Perm ((t.ctx tid.fd).tid ::
                (closed.filter (fun tid => tid.seq ≠ -1) ++ (t.close tid).openIds))
              (closed.filter (fun tid => tid.seq ≠ -1) ++
                ((t.ctx tid.fd).tid :: (t.close tid).openIds)) := List.perm_middle.symm
          List.Perm _ (closed.filter (fun tid => tid.seq ≠ -1) ++ t.openIds) :=
            ((List.perm_append_singleton _ _).symm.trans hmoved).append_left _

theorem Accounted.throw {t u : Transport} {registered closed : List Id}
    (haccounted : Accounted t registered closed) {fd : Nat} {ipN : UInt32} {portH : UInt16}
    {type : ContextType} {added : Bool} {memory : Nat}
    (hadd : t.addFd fd ipN portH type added memory = (u, none)) :
    Accounted u registered closed := by
  rcases addFd_cases t fd ipN portH type added memory with hfail | ⟨-, -, -, hthrow⟩ | ⟨-, hdone⟩
  · rw [hfail] at hadd
    simp at hadd
  · rw [hthrow] at hadd
    obtain ⟨hu, -⟩ := Prod.mk.inj hadd
    have hsame : ∀ other, (u.ctx other).tid = (t.ctx other).tid ∧
        (u.ctx other).readBuf = (t.ctx other).readBuf := by
      intro other
      by_cases heq : other = fd
      · subst heq hu
        simp
      · rw [← hu]
        simp [Function.update_of_ne heq]
    have hopenIds : u.openIds = t.openIds := by
      unfold openIds
      rw [show u.maxfds = t.maxfds by rw [← hu]]
      refine List.flatMap_congr fun other _ => ?_
      unfold held
      rw [(hsame other).1]
    refine ⟨fun other => ?_, fun other => ?_, ?_, haccounted.positive, ?_, ?_⟩
    · rw [(hsame other).1, show u.this = t.this by rw [← hu],
        show u.maxfds = t.maxfds by rw [← hu]]
      exact haccounted.ids other
    · rw [(hsame other).1, (hsame other).2]
      exact haccounted.buffers other
    · rw [← hu]
      exact haccounted.counter
    · rw [← hu]
      exact haccounted.few
    · rw [hopenIds]
      exact haccounted.balance
  · rw [hdone] at hadd
    simp at hadd

theorem Accounted.addFd {t u : Transport} {registered closed : List Id}
    (haccounted : Accounted t registered closed) {fd : Nat} {ipN : UInt32} {portH : UInt16}
    {type : ContextType} {added : Bool} {memory : Nat} (hunused : (t.ctx fd).tid.seq = -1)
    (hadd : t.addFd fd ipN portH type added memory = (u, some true)) :
    (u.ctx fd).tid = ⟨t.seq, fd, some t.this⟩ ∧
      Accounted u (⟨t.seq, fd, some t.this⟩ :: registered) closed := by
  rcases addFd_cases t fd ipN portH type added memory with hfail | ⟨-, -, -, hthrow⟩ | ⟨hfd, hdone⟩
  · rw [hfail] at hadd
    simp at hadd
  · rw [hthrow] at hadd
    simp at hadd
  · rw [hdone] at hadd
    obtain ⟨hu, -⟩ := Prod.mk.inj hadd
    have hcounter := haccounted.counter
    have hopen : t.seq ≠ -1 := by omega
    have hmoved : (u.openIds ++ t.held fd).Perm (t.openIds ++ u.held fd) := by
      refine openIds_update t u hfd (by rw [← hu]) fun other hother => ?_
      rw [← hu]
      exact Function.update_of_ne hother _ _
    have hbefore : t.held fd = [] := by
      unfold held
      rw [if_pos hunused]
    have hafter : u.held fd = [⟨t.seq, fd, some t.this⟩] := by
      unfold held
      rw [← hu]
      simp [hopen]
    rw [hbefore, hafter, List.append_nil] at hmoved
    subst hu
    refine ⟨by simp, fun other => ?_, fun other => ?_, ?_, ?_, ?_, ?_⟩
    · by_cases heq : other = fd
      · subst heq
        simpa using fun _ => hfd
      · simpa [Function.update_of_ne heq] using haccounted.ids other
    · by_cases heq : other = fd
      · subst heq
        simpa using hopen
      · simpa [Function.update_of_ne heq] using haccounted.buffers other
    · dsimp only
      unfold nextSeq
      split_ifs <;> omega
    · intro tid hmem
      rcases List.mem_cons.mp hmem with rfl | hmem
      · exact hcounter
      · exact haccounted.positive tid hmem
    · intro hfew
      rw [List.length_cons] at hfew
      obtain ⟨hseq, hnodup, hbound⟩ := haccounted.few (by omega)
      refine ⟨?_, ?_, ?_⟩
      · dsimp only
        unfold nextSeq
        rw [List.length_cons, if_pos (by omega)]
        omega
      · rw [List.map_cons, List.nodup_cons]
        refine ⟨fun hmem => ?_, hnodup⟩
        obtain ⟨tid, htid, hsame⟩ := List.mem_map.mp hmem
        have hlt := hbound tid htid
        dsimp only at hsame
        omega
      · intro tid hmem
        rw [List.length_cons]
        rcases List.mem_cons.mp hmem with rfl | hmem
        · dsimp only
          omega
        · have := hbound tid hmem
          omega
    · calc List.Perm _ (closed.filter (fun tid => tid.seq ≠ -1) ++
              (t.openIds ++ [⟨t.seq, fd, some t.this⟩])) := hmoved.append_left _
        _ = (closed.filter (fun tid => tid.seq ≠ -1) ++ t.openIds) ++
              [⟨t.seq, fd, some t.this⟩] := (List.append_assoc _ _ _).symm
        List.Perm _ (registered ++ [⟨t.seq, fd, some t.this⟩]) :=
          haccounted.balance.append_right _
        List.Perm _ (⟨t.seq, fd, some t.this⟩ :: registered) := List.perm_append_singleton _ _

namespace EventLoop

variable {s next : EventLoop}

def Balanced (s : EventLoop) : Prop := Accounted s.transport s.registered s.closed

theorem Balanced.closeId (hbalanced : s.Balanced) (tid : Id) : (s.closeId tid).Balanced := by
  have hclose := Accounted.close hbalanced tid
  unfold EventLoop.closeId
  split_ifs at hclose ⊢
  · exact hclose
  · exact hbalanced

theorem Balanced.closeContext (hbalanced : s.Balanced) {fd : Nat} {err : Errno} {frame : Frame} :
    (s.closeContext fd err frame).Balanced :=
  hbalanced.closeId (s.transport.ctx fd).tid

theorem Balanced.addFd (hbalanced : s.Balanced) {fd : Nat} (hunused : s.unused fd = true)
    {ipN : UInt32} {portH : UInt16} {type : ContextType} {added : Bool} {memory : Nat}
    {t : Transport} (hadd : s.transport.addFd fd ipN portH type added memory = (t, some true)) :
    (t.ctx fd).tid = ⟨s.transport.seq, fd, some s.transport.this⟩ ∧
      Accounted t ((t.ctx fd).tid :: s.registered) s.closed := by
  have hclosed : (s.transport.ctx fd).tid.seq = -1 := by simpa [unused] using hunused
  obtain ⟨htid, hnext⟩ := Accounted.addFd hbalanced hclosed hadd
  exact ⟨htid, htid ▸ hnext⟩

theorem Balanced.destroyFrom (hbalanced : s.Balanced) (fds : List Nat) :
    (s.destroyFrom fds).Balanced := by
  induction fds generalizing s with
  | nil => exact hbalanced
  | cons fd rest ih =>
    unfold EventLoop.destroyFrom
    dsimp only
    split_ifs
    · exact ih (hbalanced.closeId _)
    · exact ih hbalanced

theorem Balanced.writeReady (hbalanced : s.Balanced) {fd : Nat} {calls : List SysCall}
    {following : Frame} (hstep : s.writeReady fd calls following = some next) :
    next.Balanced := by
  obtain ⟨-, rfl⟩ | ⟨t, hsimilar, hnext⟩ := writeReady_cases hstep
  · exact hbalanced
  · have hwritten : Balanced { s with transport := t } := Accounted.similar hbalanced hsimilar
    obtain ⟨err, rfl⟩ | ⟨tid, bytes, rfl⟩ := hnext
    · exact hwritten.closeContext
    · exact hwritten

theorem Balanced.readReady (hbalanced : s.Balanced) {fd : Nat} {sysCall : SysCall}
    {temp : List UInt8} {memory : Nat} (hstep : s.readReady fd sysCall temp memory = some next) :
    next.Balanced := by
  obtain ⟨-, rfl⟩ | ⟨t, hsimilar, hnext⟩ := readReady_cases hstep
  · exact hbalanced
  · have hread : Balanced { s with transport := t } := Accounted.similar hbalanced hsimilar
    obtain ⟨tid, frame, -, rfl⟩ | ⟨err, rfl⟩ | rfl := hnext
    · exact hread
    · exact hread.closeContext
    · exact hread

theorem Balanced.dispatch (hbalanced : s.Balanced) {calls : List SysCall}
    (hstep : s.dispatch calls = some next) : next.Balanced := by
  obtain ⟨-, ⟨-, rfl⟩ | ⟨event, rest, following, -, -, hevent⟩⟩ := dispatch_cases hstep
  · exact hbalanced
  · rcases hevent with ⟨-, rfl⟩ | ⟨-, -, rfl⟩ | ⟨-, hwrite⟩ | ⟨-, -, rfl⟩
    · refine Balanced.closeContext ?_
      exact hbalanced
    · exact hbalanced
    · refine Balanced.writeReady ?_ hwrite
      exact hbalanced
    · exact hbalanced

theorem Balanced.read (hbalanced : s.Balanced) {sysCall : SysCall} {temp : List UInt8}
    {memory : Nat} (hstep : s.read sysCall temp memory = some next) : next.Balanced := by
  obtain ⟨fd, -, ⟨-, rfl⟩ | ⟨-, rfl⟩ | ⟨-, rfl⟩ | ⟨-, hread⟩⟩ := read_cases hstep
  · exact hbalanced
  · exact hbalanced
  · exact hbalanced
  · refine Balanced.readReady ?_ hread
    exact hbalanced

theorem Balanced.step (hbalanced : s.Balanced) {action : Action}
    (hstep : s.step action = some next) : next.Balanced := by
  cases action with
  | register type fd ipN portH ready added memory =>
    obtain ⟨-, hunused, rfl⟩ := register_cases hstep
    rcases addFd_cases s fd ipN portH type ready added memory with
      hfail | ⟨-, t, hadd, hthrow⟩ | ⟨t, hadd, hdone⟩
    · rw [hfail]
      exact hbalanced
    · rw [hthrow]
      exact Accounted.throw hbalanced hadd
    · rw [hdone]
      exact (hbalanced.addFd hunused hadd).2
  | send tid buf length stray memory calls =>
    obtain ⟨-, t, callback, hsimilar, rfl⟩ := send_cases hstep
    exact Accounted.similar hbalanced hsimilar
  | close tid =>
    obtain ⟨-, rfl⟩ := close_cases hstep
    exact hbalanced.closeId tid
  | edit buf =>
    obtain ⟨t, hsimilar, rfl⟩ := edit_cases hstep
    exact Accounted.similar hbalanced hsimilar
  | poll events =>
    obtain ⟨-, -, -, rfl⟩ := poll_cases hstep
    exact hbalanced
  | dispatch calls => exact hbalanced.dispatch hstep
  | read sysCall temp memory => exact hbalanced.read hstep
  | accept accepted =>
    obtain ⟨fd, remaining, -, rfl | ⟨-, rfl | hthrow | haccept⟩⟩ := accept_cases hstep
    · exact hbalanced
    · exact hbalanced
    · obtain ⟨newFd, ipN, portH, ready, added, memory, t, -, -, -, hadd, rfl⟩ := hthrow
      exact Accounted.throw hbalanced hadd
    · obtain ⟨newFd, ipN, portH, ready, added, memory, t, -, hunused, hadd, rfl⟩ := haccept
      exact (hbalanced.addFd hunused hadd).2
  | receive sysCall temp ipN portH =>
    obtain ⟨fd, remaining, -, rfl | ⟨-, rfl | ⟨frame, -, rfl | ⟨tid, data, rfl⟩⟩⟩⟩ :=
      receive_cases hstep
    all_goals exact hbalanced
  | finish =>
    obtain ⟨fd, err, -, rfl⟩ | ⟨fd, freed, -, ⟨-, rfl⟩ | ⟨-, -, rfl⟩ | ⟨-, -, rfl⟩⟩ :=
      finish_cases hstep
    · exact hbalanced.closeContext
    all_goals exact hbalanced
  | leave =>
    obtain ⟨frame, -, rfl⟩ := leave_cases hstep
    exact hbalanced
  | destroy =>
    obtain ⟨-, rfl⟩ := destroy_cases hstep
    exact hbalanced.destroyFrom _

theorem Balanced.not_current (hbalanced : s.Balanced) (hfew : s.registered.length < 2 ^ 31)
    {tid : Id} (hregistered : tid ∈ s.registered) (hclosed : tid ∈ s.closed) :
    s.transport.current tid = false := by
  by_contra hcurrent
  obtain ⟨hseq, -⟩ : (s.transport.ctx tid.fd).tid.seq = tid.seq ∧
      (s.transport.ctx tid.fd).tid.trans = tid.trans := by
    simpa [current, Id.same] using hcurrent
  have hpositive := hbalanced.positive tid hregistered
  have hopen : (s.transport.ctx tid.fd).tid.seq ≠ -1 := by omega
  have hmem : (s.transport.ctx tid.fd).tid ∈ s.transport.openIds :=
    List.mem_flatMap.mpr ⟨tid.fd, List.mem_range.mpr (hbalanced.ids tid.fd hopen).2.2, by
      simp [held, hopen]⟩
  obtain ⟨-, hnodup, -⟩ := hbalanced.few hfew
  have hlisted : tid ∈ s.closed.filter fun tid => tid.seq ≠ -1 :=
    List.mem_filter.mpr ⟨hclosed, by simp; omega⟩
  have happend := (hbalanced.balance.map Id.seq).nodup_iff.mpr hnodup
  rw [List.map_append, List.nodup_append] at happend
  exact happend.2.2 _ (List.mem_map_of_mem hlisted) _ (List.mem_map_of_mem hmem) hseq.symm

/-- An id that a connection had while it was open does nothing once the
connection is closed, whatever has become of its descriptor. -/
theorem stale_id_harmless (this maxfds : Nat) (raw : Nat → Context) (blockSize : UInt32)
    (bytes : Nat → Nat → UInt8) (actions : List Action) (s : EventLoop)
    (hrun : run step (create (init this maxfds raw blockSize bytes)) actions = some s)
    (hfew : s.registered.length < 2 ^ 31) (tid : Id) (hregistered : tid ∈ s.registered)
    (hclosed : tid ∈ s.closed) :
    s.closeId tid = s ∧ (∀ next, s.close tid = some next → next = s) ∧
      (∀ buf length stray memory calls,
        s.transport.send tid buf length stray memory calls =
            some ⟨s.transport, some false, [], none⟩ ∧
          ∀ next, s.send tid buf length stray memory calls = some next → next = s) ∧
      s.transport.hasOutdata tid = false := by
  have hinit : (create (init this maxfds raw blockSize bytes)).Balanced :=
    init_accounted this maxfds raw blockSize bytes
  have hbalanced : s.Balanced :=
    run_invariant (fun _ _ _ hinv hstep => Balanced.step hinv hstep) hinit hrun
  have hcurrent := hbalanced.not_current hfew hregistered hclosed
  have hcloseId : s.closeId tid = s := by
    unfold closeId
    rw [if_neg (by simp [hcurrent])]
  have hsendable : ∀ length, s.transport.sendable tid length = false := by
    intro length
    simp [sendable, hcurrent]
  have hsend : ∀ buf length stray memory calls,
      s.transport.send tid buf length stray memory calls =
        some ⟨s.transport, some false, [], none⟩ := by
    intro buf length stray memory calls
    simp [Transport.send, hsendable]
  refine ⟨hcloseId, fun next hstep => ?_, fun buf length stray memory calls =>
    ⟨hsend buf length stray memory calls, fun next hstep => ?_⟩, ?_⟩
  · obtain ⟨-, rfl⟩ := close_cases hstep
    exact hcloseId
  · unfold EventLoop.send at hstep
    simp only [hsend, hsendable, Bool.false_eq_true, if_false] at hstep
    split_ifs at hstep
    exact (Option.some.inj hstep).symm
  · simp [hasOutdata, hcurrent]

/-- Descriptor 5 has an error and is closed; its `on_closed` connects anew and is given
descriptor 5 again, under the next sequence number. -/
theorem stale_id_harmless_reused : ∃ s,
    run step (create (init 1 8 (fun _ => ⟨.tcpListen, 0, 0, ⟨0, 0, none⟩, none, none⟩) 16
      fun _ _ => 0))
      [.register .tcpConnection 5 0 80 true true 1, .poll [⟨5, false, false, true⟩],
        .dispatch [], .register .tcpConnection 5 0 81 true true 1] = some s ∧
    s.control = .callback .next ∧ (s.transport.ctx 5).tid = ⟨1, 5, some 1⟩ ∧
    s.closeId ⟨0, 5, some 1⟩ = s ∧ s.transport.hasOutdata ⟨0, 5, some 1⟩ = false := by
  refine ⟨_, rfl, rfl, rfl, ?_⟩
  obtain ⟨hclose, -, -, houtdata⟩ := stale_id_harmless 1 8
    (fun _ => ⟨.tcpListen, 0, 0, ⟨0, 0, none⟩, none, none⟩) 16 (fun _ _ => 0)
    [.register .tcpConnection 5 0 80 true true 1, .poll [⟨5, false, false, true⟩],
      .dispatch [], .register .tcpConnection 5 0 81 true true 1] _ rfl (by decide)
    ⟨0, 5, some 1⟩ (by decide) (by decide)
  exact ⟨hclose, houtdata⟩

end EventLoop

end Libsax.Net.Transport
