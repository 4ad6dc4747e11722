import Mathlib.Data.List.Induction
import Mathlib.Logic.Function.Basic
import Libsax.Net2.Buffer

/-! Which responses a `task_streamer` waits for: a map from connections to a map
from transaction keys, with one way in for the first key and another for the rest. -/
namespace Libsax.Net2

/-- `conn` and `obj` are only handed on. -/
structure Task where
  transKey : UInt64
  type : UInt32
  isCall : Bool
  isNeedResponse : Bool
  isFinish : Bool
  isThriftData : Bool
  isTimeout : Bool
  isSended : Bool
  isReceived : Bool
  data : Buffer

/-- The constructor, which leaves `is_thrift_data` as the memory has it. -/
def Task.create (isThriftData : Bool) (data : Buffer) : Task where
  transKey := 0
  type := 0
  isCall := false
  isNeedResponse := false
  isFinish := false
  isThriftData := isThriftData
  isTimeout := false
  isSended := false
  isReceived := false
  data := data

structure TaskState where
  type : UInt32
  startTime : UInt64
deriving DecidableEq, Repr

/-- `std::map` as the finite function that it is. -/
abbrev StdMap (V : Type) := UInt64 → Option V

namespace StdMap

variable {V : Type}

def empty : StdMap V := fun _ => none

/-- `insert` leaves an entry that is there. -/
def insert (map : StdMap V) (key : UInt64) (val : V) : StdMap V :=
  match map key with
  | none => Function.update map key (some val)
  | some _ => map

def erase (map : StdMap V) (key : UInt64) : StdMap V := Function.update map key none

private theorem insert_of_none {map : StdMap V} {key : UInt64} (hnone : map key = none) (val : V) :
    map.insert key val = Function.update map key (some val) := by
  simp [insert, hnone]

private theorem insert_of_some {map : StdMap V} {key : UInt64} {old : V}
    (hsome : map key = some old)
    (val : V) : map.insert key val = map := by
  simp [insert, hsome]

end StdMap

abbrev TaskStateMap := StdMap TaskState
abbrev ConnTaskMap := StdMap TaskStateMap

def addNeedResponseTask (map : ConnTaskMap) (connId : UInt64) (task : Task) : ConnTaskMap :=
  let state : TaskState := ⟨task.type, 0⟩
  match map connId with
  | none =>
    let ts := StdMap.empty.insert task.transKey state
    map.insert connId ts
  | some ts =>
    -- the test is the wrong way round: only a key that is there is inserted
    if ts task.transKey ≠ none then
      Function.update map connId (some (ts.insert task.transKey state))
    else map

def onResponseTaskBack (map : ConnTaskMap) (connId : UInt64) (task : Task) : ConnTaskMap × Task :=
  match map connId with
  | none => (map, { task with isSended := false })
  | some ts =>
    match ts task.transKey with
    | none => (map, { task with isSended := false })
    | some state =>
      (Function.update map connId (some (ts.erase task.transKey)),
        { task with isSended := true, isReceived := true, isTimeout := state.startTime = 0 })

inductive Call where
  | add (connId : UInt64) (task : Task)
  | back (connId : UInt64) (task : Task)

def Call.exec (map : ConnTaskMap) : Call → ConnTaskMap
  | .add connId task => addNeedResponseTask map connId task
  | .back connId task => (onResponseTaskBack map connId task).1

/-- The table after a history of calls, from the empty one on. -/
def tableAfter (history : List Call) : ConnTaskMap := history.foldl Call.exec StdMap.empty

def Call.Answers (connId transKey : UInt64) : Call → Prop
  | .add _ _ => False
  | .back other task => other = connId ∧ task.transKey = transKey

/-- The pair was added and has not been answered since. -/
def Awaited (history : List Call) (connId transKey : UInt64) : Prop :=
  ∃ before task after, history = before ++ .add connId task :: after ∧
    task.transKey = transKey ∧ ∀ call ∈ after, ¬ call.Answers connId transKey

def Unused (history : List Call) (connId : UInt64) : Prop :=
  ∀ task, .add connId task ∉ history

/-- A response that comes now would be marked as the one to a task that was sent. -/
def Marked (history : List Call) (connId : UInt64) (task : Task) : Prop :=
  (onResponseTaskBack (tableAfter history) connId task).2.isSended = true

/-- Responses are told apart at every point of the history. -/
def Exact (calls : List Call) : Prop :=
  ∀ history rest, calls = history ++ rest → ∀ connId task,
    Marked history connId task ↔ Awaited history connId task.transKey

/-- Every key is added as the first one of its connection, or again while it is
waited for. -/
def Single (calls : List Call) : Prop :=
  ∀ history connId task rest, calls = history ++ .add connId task :: rest →
    Unused history connId ∨ Awaited history connId task.transKey

def Listed (map : ConnTaskMap) (connId transKey : UInt64) : Prop :=
  ∃ ts state, map connId = some ts ∧ ts transKey = some state

private theorem marked_iff {history : List Call} {connId : UInt64} {task : Task} :
    Marked history connId task ↔ Listed (tableAfter history) connId task.transKey := by
  unfold Marked Listed onResponseTaskBack
  cases hconn : tableAfter history connId with
  | none => simp
  | some ts => cases hkey : ts task.transKey <;> simp [hkey]

section Calls

variable {map : ConnTaskMap} {connId other transKey : UInt64} {task : Task}

private theorem listed_add : Listed (addNeedResponseTask map connId task) other transKey ↔
    Listed map other transKey ∨ map connId = none ∧ connId = other ∧ task.transKey = transKey := by
  unfold Listed addNeedResponseTask
  cases hconn : map connId with
  | none =>
    simp only [StdMap.insert_of_none hconn]
    by_cases hother : other = connId
    · subst hother
      by_cases hkey : transKey = task.transKey
      · simp [hconn, hkey, StdMap.insert, StdMap.empty]
      · simp [hconn, hkey, StdMap.insert, StdMap.empty, Ne.symm hkey]
    · simp [hother, Ne.symm hother]
  | some ts =>
    dsimp only
    cases hkey : ts task.transKey with
    | none => simp
    | some state =>
      have hsame : Function.update map connId (some ts) = map := by
        rw [← hconn, Function.update_eq_self]
      simp [StdMap.insert_of_some hkey, hsame]

private theorem listed_back : Listed (onResponseTaskBack map connId task).1 other transKey ↔
    Listed map other transKey ∧ ¬(connId = other ∧ task.transKey = transKey) := by
  unfold Listed onResponseTaskBack
  cases hconn : map connId with
  | none =>
    by_cases hother : connId = other
    · subst hother
      simp [hconn]
    · simp [hother]
  | some ts =>
    dsimp only
    cases hkey : ts task.transKey with
    | none =>
      by_cases hpair : connId = other ∧ task.transKey = transKey
      · obtain ⟨rfl, rfl⟩ := hpair
        simp [hconn, hkey]
      · simp [hpair]
    | some state =>
      by_cases hother : other = connId
      · subst hother
        by_cases hsame : transKey = task.transKey
        · simp [hsame, StdMap.erase]
        · simp [hconn, hsame, StdMap.erase, Ne.symm hsame]
      · simp [hother, Ne.symm hother]

private theorem exec_eq_none_iff {call : Call} : call.exec map other = none ↔
    map other = none ∧ ∀ task, call ≠ .add other task := by
  cases call with
  | add connId task =>
    simp only [Call.exec, addNeedResponseTask]
    cases hconn : map connId with
    | none =>
      rw [StdMap.insert_of_none hconn]
      by_cases hother : other = connId
      · simp [hother]
      · simp [hother, Ne.symm hother]
    | some ts =>
      dsimp only
      by_cases hother : other = connId
      · subst hother
        split_ifs <;> simp [hconn]
      · split_ifs <;> simp [hother, Ne.symm hother]
  | back connId task =>
    simp only [Call.exec, onResponseTaskBack]
    cases hconn : map connId with
    | none => simp
    | some ts =>
      dsimp only
      cases hkey : ts task.transKey with
      | none => simp
      | some state =>
        dsimp only
        by_cases hother : other = connId
        · simp [hother, hconn]
        · simp [hother]

end Calls

section Histories

variable {history : List Call} {connId transKey : UInt64}

private theorem tableAfter_concat (history : List Call) (call : Call) :
    tableAfter (history ++ [call]) = call.exec (tableAfter history) := by
  simp [tableAfter]

private theorem tableAfter_eq_none_iff :
    tableAfter history connId = none ↔ Unused history connId := by
  induction history using List.reverseRecOn with
  | nil => simp [tableAfter, StdMap.empty, Unused]
  | append_singleton history call ih =>
    rw [tableAfter_concat, exec_eq_none_iff, ih]
    simp only [Unused, List.mem_append, List.mem_singleton, not_or]
    constructor
    · intro h task
      exact ⟨h.1 task, Ne.symm (h.2 task)⟩
    · intro h
      exact ⟨fun task => (h task).1, fun task => Ne.symm (h task).2⟩

private theorem awaited_concat {call : Call} : Awaited (history ++ [call]) connId transKey ↔
    (∃ task, call = .add connId task ∧ task.transKey = transKey) ∨
      Awaited history connId transKey ∧ ¬ call.Answers connId transKey := by
  constructor
  · rintro ⟨before, task, after, hhistory, hkey, hafter⟩
    induction after using List.reverseRecOn with
    | nil =>
      have hcall := (List.append_inj' hhistory rfl).2
      exact .inl ⟨task, List.head_eq_of_cons_eq hcall, hkey⟩
    | append_singleton after last _ =>
      rw [← List.cons_append, ← List.append_assoc] at hhistory
      have hsame := List.append_inj' hhistory rfl
      have hlast : call = last := List.head_eq_of_cons_eq hsame.2
      refine .inr ⟨⟨before, task, after, hsame.1, hkey, ?_⟩, ?_⟩
      · intro other hother
        exact hafter other (by simp [hother])
      · rw [hlast]
        exact hafter last (by simp)
  · rintro (⟨task, rfl, hkey⟩ | ⟨⟨before, task, after, rfl, hkey, hafter⟩, hcall⟩)
    · exact ⟨history, task, [], rfl, hkey, by simp⟩
    · refine ⟨before, task, after ++ [call], by simp, hkey, ?_⟩
      intro other hother
      rcases List.mem_append.mp hother with hmem | hmem
      · exact hafter other hmem
      · rw [List.mem_singleton.mp hmem]
        exact hcall

private theorem not_awaited_nil : ¬ Awaited [] connId transKey := by
  rintro ⟨before, task, after, hnil, -⟩
  simp at hnil

end Histories

private theorem listed_iff_awaited {calls : List Call} (hsingle : Single calls)
    {history rest : List Call}
    (hcalls : calls = history ++ rest) (connId transKey : UInt64) :
    Listed (tableAfter history) connId transKey ↔ Awaited history connId transKey := by
  induction history using List.reverseRecOn generalizing rest connId transKey with
  | nil => simp [tableAfter, StdMap.empty, Listed, not_awaited_nil]
  | append_singleton history call ih =>
    rw [List.append_assoc] at hcalls
    have hbefore := ih hcalls
    rw [tableAfter_concat, awaited_concat]
    cases call with
    | add other task =>
      have hadd := hsingle history other task rest (by simpa using hcalls)
      simp only [Call.exec, listed_add, hbefore, tableAfter_eq_none_iff, Call.Answers,
        Call.add.injEq, not_false_eq_true, and_true]
      constructor
      · rintro (hawaited | ⟨-, hother, hkey⟩)
        · exact .inr hawaited
        · exact .inl ⟨task, ⟨hother, rfl⟩, hkey⟩
      · rintro (⟨task', ⟨rfl, rfl⟩, rfl⟩ | hawaited)
        · rcases hadd with hunused | hawaited
          · exact .inr ⟨hunused, rfl, rfl⟩
          · exact .inl hawaited
        · exact .inl hawaited
    | back other task =>
      simp [Call.exec, listed_back, hbefore, Call.Answers]

/-- A second key that is added for a connection is never waited for. -/
theorem exact_iff_single (calls : List Call) : Exact calls ↔ Single calls := by
  constructor
  · intro hexact history connId task rest hcalls
    by_cases hunused : Unused history connId
    · exact .inl hunused
    · apply Or.inr
      have hadded : Awaited (history ++ [.add connId task]) connId task.transKey :=
        awaited_concat.mpr (.inl ⟨task, rfl, rfl⟩)
      have hmarked := (hexact _ rest (by simpa using hcalls) connId task).mpr hadded
      rw [marked_iff, tableAfter_concat, Call.exec, listed_add, tableAfter_eq_none_iff] at hmarked
      have hlisted : Listed (tableAfter history) connId task.transKey :=
        hmarked.resolve_right fun hfirst => hunused hfirst.1
      exact (hexact history _ hcalls connId task).mp (marked_iff.mpr hlisted)
  · intro hsingle history rest hcalls connId task
    rw [marked_iff]
    exact listed_iff_awaited hsingle hcalls connId task.transKey

/-- The response to the second of two requests is not known. -/
theorem second_request_unknown :
    let data : Buffer := ⟨none, 0, 0, 0, 0, false, false, 0⟩
    let first := { Task.create false data with transKey := 1 }
    let second := { Task.create false data with transKey := 2 }
    let calls : List Call := [.add 7 first, .add 7 second]
    ¬ Exact calls ∧ Awaited calls 7 2 ∧
      (onResponseTaskBack (tableAfter calls) 7 second).2.isSended = false := by
  intro data first second calls
  have hunmarked : (onResponseTaskBack (tableAfter calls) 7 second).2.isSended = false := rfl
  have hawaited : Awaited calls 7 2 :=
    ⟨[.add 7 first], second, [], rfl, rfl, by simp⟩
  refine ⟨fun hexact => ?_, hawaited, hunmarked⟩
  have hmarked := (hexact calls [] (by simp) 7 second).mpr hawaited
  rw [Marked, hunmarked] at hmarked
  exact Bool.false_ne_true hmarked

end Libsax.Net2
