import Libsax.Net2.ResponseTable

/-! `_task_queue`, the bounded queue between the connections, which put tasks into it, and the
thread that handles them. Each call on it takes effect at one moment. -/
namespace Libsax.Net2

/-- A task with the connection that brought it. -/
structure Queued where
  conn : UInt64
  task : Task

def queueCapacity : Nat := 10240

/-- `handled` is what the handling thread has taken out so far. -/
structure TaskQueue where
  waiting : List Queued
  handled : List Queued
  bounded : waiting.length ≤ queueCapacity

/-- What another thread does to the queue: `handler_do` takes a task out, or another
connection puts one in. -/
inductive Foreign where
  | handle
  | push (one : Queued)

namespace TaskQueue

def empty : TaskQueue := ⟨[], [], Nat.zero_le _⟩

def popFront (queue : TaskQueue) : TaskQueue :=
  match queue with
  | ⟨[], _, _⟩ => queue
  | ⟨one :: rest, handled, bounded⟩ => ⟨rest, handled ++ [one], Nat.le_of_succ_le bounded⟩

/-- A place is taken if there is one when the wait for it ends. -/
def putBack (queue : TaskQueue) (one : Queued) : TaskQueue × Bool :=
  if hplace : queue.waiting.length < queueCapacity then
    (⟨queue.waiting ++ [one], queue.handled, by rw [List.length_append]; exact hplace⟩, true)
  else (queue, false)

def elapse (queue : TaskQueue) : Foreign → TaskQueue
  | .handle => queue.popFront
  | .push one => (queue.putBack one).1

/-- `push_back(one, 500)`, with what the others do until the wait for a place ends -/
def pushBack (queue : TaskQueue) (wait : List Foreign) (one : Queued) : TaskQueue × Bool :=
  (wait.foldl elapse queue).putBack one

/-- The tasks of a connection that came into the queue, in their order. -/
def tasksOf (queue : TaskQueue) (conn : UInt64) : List Task :=
  ((queue.handled ++ queue.waiting).filter (·.conn = conn)).map Queued.task

end TaskQueue

/-- The step is not one of this connection. -/
def Foreign.Other (conn : UInt64) : Foreign → Prop
  | .handle => True
  | .push one => one.conn ≠ conn

def Foreign.waits (size : Nat) : Foreign → Nat
  | .handle => size - 1
  | .push _ => if size < queueCapacity then size + 1 else size

/-- At each of so many calls of `push_back` there is a place for the task when the wait for it
ends, `size` tasks waiting before the first. -/
def Places : Nat → List (List Foreign) → Nat → Prop
  | _, _, 0 => True
  | size, waits, count + 1 => (waits.headD []).foldl Foreign.waits size < queueCapacity ∧
      Places ((waits.headD []).foldl Foreign.waits size + 1) waits.tail count

theorem places_of_free {size count : Nat} (hfree : size + count ≤ queueCapacity) :
    Places size [] count := by
  induction count generalizing size with
  | zero => trivial
  | succ count ih =>
    have hplace : size < queueCapacity := by omega
    exact ⟨hplace, ih (by change size + 1 + count ≤ _; omega)⟩

namespace TaskQueue

variable {queue : TaskQueue} {conn : UInt64} {wait : List Foreign} {waits : List (List Foreign)}

@[simp] private theorem empty_tasksOf (conn : UInt64) : empty.tasksOf conn = [] := rfl

@[simp] private theorem popFront_tasksOf (queue : TaskQueue) (conn : UInt64) :
    queue.popFront.tasksOf conn = queue.tasksOf conn := by
  obtain ⟨_ | ⟨one, rest⟩, handled, bounded⟩ := queue
  · rfl
  · simp [popFront, tasksOf]

private theorem putBack_tasksOf (queue : TaskQueue) (conn : UInt64) (one : Queued) :
    (queue.putBack one).1.tasksOf conn = queue.tasksOf conn ++
      if queue.waiting.length < queueCapacity ∧ one.conn = conn then [one.task] else [] := by
  unfold putBack
  split_ifs with hplace hone hone
  · simp [tasksOf, hone.2]
  · have hother : ¬ one.conn = conn := fun heq => hone ⟨hplace, heq⟩
    simp [tasksOf, hother]
  · exact absurd hone.1 hplace
  · exact (List.append_nil _).symm

theorem elapse_tasksOf {step : Foreign} (hother : step.Other conn) :
    (queue.elapse step).tasksOf conn = queue.tasksOf conn := by
  cases step with
  | handle => exact popFront_tasksOf queue conn
  | push one =>
    rw [elapse, putBack_tasksOf, if_neg fun hone => hother hone.2, List.append_nil]

@[simp] private theorem elapse_waiting (queue : TaskQueue) (step : Foreign) :
    (queue.elapse step).waiting.length = step.waits queue.waiting.length := by
  cases step with
  | handle => obtain ⟨_ | ⟨one, rest⟩, handled, bounded⟩ := queue <;> rfl
  | push one =>
    unfold elapse putBack Foreign.waits
    split_ifs
    · simp
    · rfl

private theorem meanwhile_tasksOf (hothers : ∀ step ∈ wait, step.Other conn) :
    (wait.foldl elapse queue).tasksOf conn = queue.tasksOf conn := by
  induction wait generalizing queue with
  | nil => rfl
  | cons step wait ih =>
    obtain ⟨hstep, hwait⟩ := List.forall_mem_cons.mp hothers
    rw [List.foldl_cons, ih hwait, elapse_tasksOf hstep]

@[simp] private theorem meanwhile_waiting (queue : TaskQueue) (wait : List Foreign) :
    (wait.foldl elapse queue).waiting.length = wait.foldl Foreign.waits queue.waiting.length := by
  induction wait generalizing queue with
  | nil => rfl
  | cons step wait ih => rw [List.foldl_cons, List.foldl_cons, ih, elapse_waiting]

private theorem pushBack_tasksOf (hothers : ∀ step ∈ wait, step.Other conn) (task : Task) :
    (queue.pushBack wait ⟨conn, task⟩).1.tasksOf conn = queue.tasksOf conn ++
      if wait.foldl Foreign.waits queue.waiting.length < queueCapacity then [task] else [] := by
  rw [pushBack, putBack_tasksOf, meanwhile_tasksOf hothers, meanwhile_waiting]
  simp only [and_true]

private theorem pushBack_waiting
    (hplace : wait.foldl Foreign.waits queue.waiting.length < queueCapacity) (one : Queued) :
    (queue.pushBack wait one).1.waiting.length =
      wait.foldl Foreign.waits queue.waiting.length + 1 := by
  rw [← meanwhile_waiting] at hplace ⊢
  rw [pushBack, putBack, dif_pos hplace]
  simp

/-- The calls of `push_back` for one task after the other. -/
def pushAll (conn : UInt64) : TaskQueue → List (List Foreign) → List Task → TaskQueue
  | queue, _, [] => queue
  | queue, waits, task :: tasks =>
    pushAll conn (queue.pushBack (waits.headD []) ⟨conn, task⟩).1 waits.tail tasks

private theorem mem_headD (hothers : ∀ wait ∈ waits, ∀ step ∈ wait, step.Other conn) :
    ∀ step ∈ waits.headD [], step.Other conn := by
  cases waits with
  | nil => simp
  | cons wait waits => exact hothers wait List.mem_cons_self

theorem pushAll_tasksOf (hothers : ∀ wait ∈ waits, ∀ step ∈ wait, step.Other conn)
    (tasks : List Task) :
    ∃ kept, kept.Sublist tasks ∧
      (pushAll conn queue waits tasks).tasksOf conn = queue.tasksOf conn ++ kept ∧
      (Places queue.waiting.length waits tasks.length → kept = tasks) := by
  induction tasks generalizing queue waits with
  | nil => exact ⟨[], List.Sublist.slnil, (List.append_nil _).symm, fun _ => rfl⟩
  | cons task tasks ih =>
    have hpush := @pushBack_tasksOf queue conn _ (mem_headD hothers) task
    obtain ⟨kept, hsublist, htasks, hall⟩ :=
      @ih (queue.pushBack (waits.headD []) ⟨conn, task⟩).1 waits.tail
        fun wait hwait => hothers wait (List.mem_of_mem_tail hwait)
    rw [hpush] at htasks
    by_cases hplace : (waits.headD []).foldl Foreign.waits queue.waiting.length < queueCapacity
    · rw [if_pos hplace, List.append_assoc] at htasks
      refine ⟨task :: kept, hsublist.cons_cons task, htasks, fun hplaces => ?_⟩
      rw [hall (by rw [pushBack_waiting hplace]; exact hplaces.2)]
    · rw [if_neg hplace, List.append_nil] at htasks
      exact ⟨kept, hsublist.cons task, htasks, fun hplaces => absurd hplaces.1 hplace⟩

end TaskQueue

end Libsax.Net2
