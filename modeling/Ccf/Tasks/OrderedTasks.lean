import Ccf.Lib.Runs

/-! # Ordered tasks (`src/tasks/ordered_tasks.cpp`, `sub_task_queue.h`, `job_board.cpp`)

An `OrderedTasks` keeps a queue of actions and puts itself on the job board when there is work to do; workers take tasks
off the board and run them. The steps of a thread are the critical sections and the atomic operations of the source; an
action that is run has a step in which it starts and one in which it returns. An action that calls an operation of its
own queue is a thread of its own here, which does nothing after that. `added` and `started` are history variables. -/

namespace Ccf.Tasks

/-! ### The job board -/

/-- A task on the job board: the ordered tasks in question, or any other one. -/
inductive Task where
  | ordered
  | other (id : ℕ)
deriving DecidableEq

structure JobBoard where
  pendingTasks : List Task
  /-- The idle workers, each with the task it has been assigned, if any. -/
  waitingWorkerThreads : List (ℕ × Option Task)

namespace JobBoard

/-- Assign the task to the first waiting worker that has none; `none` if there is no such worker. -/
def assign (task : Task) : List (ℕ × Option Task) → Option (List (ℕ × Option Task))
  | [] => none
  | (i, none) :: workers => some ((i, some task) :: workers)
  | (i, some t) :: workers => (assign task workers).map ((i, some t) :: ·)

def addTask (b : JobBoard) (task : Task) : JobBoard :=
  match assign task b.waitingWorkerThreads with
  | some workers => { b with waitingWorkerThreads := workers }
  | none => { b with pendingTasks := b.pendingTasks ++ [task] }

/-- The end of a wait: worker `i` removes itself and takes what it has been assigned. -/
def wakeUp (i : ℕ) : List (ℕ × Option Task) → Option Task × List (ℕ × Option Task)
  | [] => (none, [])
  | w :: workers => if w.1 = i then (w.2, workers) else ((wakeUp i workers).1, w :: (wakeUp i workers).2)

/-- How often the ordered tasks are on the board. -/
def count (b : JobBoard) : ℕ :=
  b.pendingTasks.count .ordered + (b.waitingWorkerThreads.map Prod.snd).count (some .ordered)

end JobBoard

/-! ### Threads -/

variable {α : Type}

/-- Where a thread is, named after what it does next, with its local variables. -/
inductive Thread (α : Type) where
  | idle
  | push (action : α)
  | pause
  | unpause
  /-- `enqueue_on_board`: exchange the flag. -/
  | enqueue
  | addTask
  | waitForTask
  | takePending
  | loadPaused (rest : List α)
  | visit (action : α) (rest : List α)
  | doAction (action : α) (rest : List α)
  | splice (rest : List α)
  | clearEnqueued
  | getQueueSummary

/-- The queue, the flag and the board, and the threads that use them. -/
structure State (α : Type) where
  pending : List α
  active : Bool
  paused : Bool
  boardEnqueued : Bool
  board : JobBoard
  threads : ℕ → Thread α
  added : List α
  started : List α

def init : State α where
  pending := []
  active := false
  paused := false
  boardEnqueued := false
  board := ⟨[], []⟩
  threads _ := .idle
  added := []
  started := []

namespace State

variable (s : State α)

def setThread (i : ℕ) (t : Thread α) : State α := { s with threads := Function.update s.threads i t }

/-- What a worker does with what `wait_for_task` returns. -/
def runTask (i : ℕ) : Option Task → State α
  | some .ordered => s.setThread i .takePending
  | _ => s.setThread i .idle

/-- The next step of thread `i`. -/
def stepThread (i : ℕ) : State α :=
  match s.threads i with
  | .idle => s
  | .push action =>
    let ret := s.pending.isEmpty && !s.active
    { s.setThread i (if ret then .enqueue else .idle) with
      pending := s.pending ++ [action]
      added := s.added ++ [action] }
  | .pause => { s.setThread i .idle with paused := true }
  | .unpause =>
    let ret := !s.pending.isEmpty && !s.active
    { s.setThread i (if ret then .enqueue else .idle) with paused := false }
  | .enqueue => { s.setThread i (if s.boardEnqueued then .idle else .addTask) with boardEnqueued := true }
  | .addTask => { s.setThread i .idle with board := s.board.addTask .ordered }
  | .waitForTask =>
    let (task, workers) := JobBoard.wakeUp i s.board.waitingWorkerThreads
    { s with board := { s.board with waitingWorkerThreads := workers } }.runTask i task
  | .takePending => { s.setThread i (.loadPaused s.pending) with active := true, pending := [] }
  | .loadPaused rest =>
    match rest with
    | [] => s.setThread i (.splice [])
    | action :: rest => s.setThread i (if s.paused then .splice (action :: rest) else .visit action rest)
  | .visit action rest => { s.setThread i (.doAction action rest) with started := s.started ++ [action] }
  | .doAction _ rest => s.setThread i (.loadPaused rest)
  | .splice rest =>
    let pending := rest ++ s.pending
    let ret := !pending.isEmpty && !s.paused
    { s.setThread i (if ret then .addTask else .clearEnqueued) with pending := pending, active := false }
  | .clearEnqueued => { s.setThread i .getQueueSummary with boardEnqueued := false }
  | .getQueueSummary => s.setThread i (if !s.pending.isEmpty && !s.active && !s.paused then .enqueue else .idle)

end State

/-- What happens in the system: an idle thread calls an operation, another task is put on the board, or a
thread takes its next step. -/
inductive Event (α : Type) where
  | addAction (i : ℕ) (action : α)
  | pause (i : ℕ)
  | resume (i : ℕ)
  | getTask (i : ℕ)
  | addOther (id : ℕ)
  | thread (i : ℕ)
deriving DecidableEq

namespace State

variable (s : State α)

def isIdle (i : ℕ) : Bool :=
  match s.threads i with
  | .idle => true
  | _ => false

/-- The critical section at the start of `wait_for_task`. -/
def getTask (i : ℕ) : State α :=
  match s.board.pendingTasks with
  | [] =>
    { s.setThread i .waitForTask with
      board := { s.board with waitingWorkerThreads := s.board.waitingWorkerThreads ++ [(i, none)] } }
  | task :: tasks => { s with board := { s.board with pendingTasks := tasks } }.runTask i (some task)

end State

def step (s : State α) : Event α → State α
  | .addAction i action => if s.isIdle i then s.setThread i (.push action) else s
  | .pause i => if s.isIdle i then s.setThread i .pause else s
  | .resume i => if s.isIdle i then s.setThread i .unpause else s
  | .getTask i => if s.isIdle i then s.getTask i else s
  | .addOther id => { s with board := s.board.addTask (.other id) }
  | .thread i => s.stepThread i

abbrev run (events : List (Event α)) : State α := Runs.exec step init events

end Ccf.Tasks
