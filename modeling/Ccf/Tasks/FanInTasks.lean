import Ccf.Lib.Contiguous
import Ccf.Tasks.OrderedTasksInvariant

/-! # Fan-in tasks (`src/tasks/fan_in_tasks.cpp`)

Tasks are added to a `FanInTasks` under their indices, in any order and by any thread, and are run in the order of the
indices. The steps of the workers are the critical sections of the source; a section that puts the object on the job
board does so at its end, before it lets go of `pending_tasks_mutex`. A task that is run has a step in which it starts
and one in which it returns. `added` and `started` are history variables.

The right to run the object is a token: a worker has it (`o` in `Inv s o`), or it is on the board if and only if the
next task is pending. -/

namespace Ccf.Tasks.FanIn

open List Function Std

variable {α : Type} {o : Option ℕ}

/-- Where a worker is, named after what it does next, with what is left of its batch. -/
inductive Thread (α : Type) where
  | idle
  | waitForTask
  | takeBatch
  | runBatch (batch : List α)
  | doTask (batch : List α)

structure State (α : Type) where
  pendingTasks : ExtTreeMap ℕ α := ∅
  nextExpectedTaskIndex : ℕ := 0
  active : Bool := false
  board : JobBoard := ⟨[], []⟩
  threads : ℕ → Thread α := fun _ => .idle
  added : ℕ → Option α := fun _ => none
  started : List α := []

namespace State

variable (s : State α)

def setThread (i : ℕ) (t : Thread α) : State α := { s with threads := update s.threads i t }

/-- The task with the next expected index is pending. -/
def Ready : Prop := s.nextExpectedTaskIndex ∈ s.pendingTasks

instance : Decidable s.Ready := inferInstanceAs (Decidable (_ ∈ _))

/-- `add_task`, which throws if the index is a past one or is pending. -/
def addTask (index : ℕ) (task : α) : State α :=
  if index < s.nextExpectedTaskIndex then s
  else if index ∈ s.pendingTasks then s
  else { s with
    pendingTasks := s.pendingTasks.insert index task
    board := if s.active = false ∧ index = s.nextExpectedTaskIndex then s.board.addTask .ordered else s.board }

/-- A task has been handed to `add_task`; only the first one under its index counts. -/
def record (index : ℕ) (task : α) : State α := { s with added := update s.added index ((s.added index).or (some task)) }

/-- What a worker does with what `wait_for_task` returns. -/
def runTask (i : ℕ) : Option Task → State α
  | some .ordered => s.setThread i .takeBatch
  | _ => s.setThread i .idle

def stepThread (i : ℕ) : State α :=
  match s.threads i with
  | .idle => s
  | .waitForTask =>
    let (task, workers) := JobBoard.wakeUp i s.board.waitingWorkerThreads
    { s with board := { s.board with waitingWorkerThreads := workers } }.runTask i task
  | .takeBatch =>
    let (batch, pending) := drain s.nextExpectedTaskIndex s.pendingTasks
    { s.setThread i (.runBatch batch) with
      active := true
      pendingTasks := pending
      nextExpectedTaskIndex := s.nextExpectedTaskIndex + batch.length }
  | .runBatch (task :: batch) => { s.setThread i (.doTask batch) with started := s.started ++ [task] }
  | .doTask batch => s.setThread i (.runBatch batch)
  | .runBatch [] => { s.setThread i .idle with
      active := false
      board := if s.Ready then s.board.addTask .ordered else s.board }

/-- The critical section at the start of `wait_for_task`, which an idle worker calls. -/
def getTask (i : ℕ) : State α :=
  match s.threads i, s.board.pendingTasks with
  | .idle, [] =>
    { s.setThread i .waitForTask with
      board := { s.board with waitingWorkerThreads := s.board.waitingWorkerThreads ++ [(i, none)] } }
  | .idle, task :: tasks => { s with board := { s.board with pendingTasks := tasks } }.runTask i (some task)
  | _, _ => s

end State

inductive Event (α : Type) where
  | addTask (index : ℕ) (task : α)
  | getTask (i : ℕ)
  | addOther (id : ℕ)
  | thread (i : ℕ)

def step (s : State α) : Event α → State α
  | .addTask index task => (s.addTask index task).record index task
  | .getTask i => s.getTask i
  | .addOther id => { s with board := s.board.addTask (.other id) }
  | .thread i => s.stepThread i

/-! ### The invariant -/

/-- The worker executes the object. -/
def Thread.Holds : Thread α → Prop
  | .takeBatch | .runBatch _ | .doTask _ => True
  | _ => False

def Thread.batch : Thread α → Option (List α)
  | .runBatch batch | .doTask batch => some batch
  | _ => none

/-- The tasks have started in the order of their indices, one at a time, none is lost, and the object is on the board
when the next task is pending and no worker executes it. -/
structure InOrder (s : State α) : Prop where
  started : ∃ k, s.started.map some = (range k).map s.added
  kept : ∀ k task, s.added k = some task → s.pendingTasks[k]? = some task ∨ s.started[k]? = some task ∨
    ∃ i batch, (s.threads i).batch = some batch ∧ (s.started ++ batch)[k]? = some task
  alone : ∀ i j, (s.threads i).Holds → (s.threads j).Holds → i = j
  awake : s.Ready → (∀ i, ¬(s.threads i).Holds) → s.board.count = 1

/-- What is left of the batch of the worker that executes the object. -/
def State.batch (s : State α) (o : Option ℕ) : Option (List α) := o.bind fun i => (s.threads i).batch

structure Inv (s : State α) (o : Option ℕ) : Prop where
  holds : ∀ i, (s.threads i).Holds ↔ o = some i
  board : s.board.count = 1 ∧ o = none ∧ s.Ready ∨ s.board.count = 0 ∧ ¬(o = none ∧ s.Ready)
  taking : o ≠ none → s.active = false → s.Ready
  active : s.active = (s.batch o).isSome
  pending : ∀ k, s.pendingTasks[k]? = if k < s.nextExpectedTaskIndex then none else s.added k
  order : (s.started ++ (s.batch o).getD []).map some = (range s.nextExpectedTaskIndex).map s.added

theorem inv_init : Inv ({} : State α) none where
  holds i := ⟨False.elim, nofun⟩
  board := .inr (by simp [State.Ready, JobBoard.count])
  taking h := absurd rfl h
  active := rfl
  pending k := by simp
  order := rfl

/-- The tasks before the next expected one have been added, and have been started or are in the batch. -/
theorem Inv.added_of_lt {s : State α} (h : Inv s o) {k : ℕ} (hk : k < s.nextExpectedTaskIndex) :
    (s.started ++ (s.batch o).getD [])[k]?.map some = some (s.added k) := by
  rw [← getElem?_map, h.order, getElem?_map, getElem?_range hk]
  rfl

theorem Inv.inOrder {s : State α} (h : Inv s o) : InOrder s where
  started := by
    refine ⟨min s.started.length s.nextExpectedTaskIndex, ?_⟩
    have htake := congrArg (take s.started.length) h.order
    rwa [← map_take, ← map_take, take_left, take_range] at htake
  kept k task hadded := by
    rcases Nat.lt_or_ge k s.nextExpectedTaskIndex with hlt | hge
    · have hk := h.added_of_lt hlt
      rw [hadded, Option.map_eq_some_iff] at hk
      obtain ⟨_, hk, ⟨⟩⟩ := hk
      cases hbatch : s.batch o with
      | none => exact .inr (.inl (by simpa [hbatch] using hk))
      | some batch =>
        obtain ⟨i, -, hi⟩ := Option.bind_eq_some_iff.1 hbatch
        exact .inr (.inr ⟨i, batch, hi, by simpa [hbatch] using hk⟩)
    · exact .inl (by rw [h.pending, if_neg (Nat.not_lt.2 hge), hadded])
  alone i j hi hj := Option.some.inj (((h.holds i).1 hi).symm.trans ((h.holds j).1 hj))
  awake hready hnone := by
    have ho : o = none := Option.eq_none_iff_forall_ne_some.2 fun i hi => hnone i ((h.holds i).2 hi)
    exact (h.board.resolve_right fun hboard => hboard.2 ⟨ho, hready⟩).1

/-! ### Steps -/

section
variable {s : State α} {i : ℕ} {t : Thread α} {b : JobBoard}

/-- A worker that does not execute the object moves. -/
theorem Inv.quiet (h : Inv s o) (hi : ¬(s.threads i).Holds) (ht : ¬t.Holds)
    (hb : b.count = s.board.count) : Inv { s.setThread i t with board := b } o := by
  have hbatch : (o.bind fun j => (update s.threads i t j).batch) = s.batch o := by
    cases o with
    | none => rfl
    | some j =>
      have hj : j ≠ i := by
        rintro rfl
        exact hi ((h.holds j).2 rfl)
      exact congrArg Thread.batch (update_of_ne hj _ _)
  exact { h with
    holds := holds_update h.holds (iff_of_false ht hi)
    board := by rw [hb]; exact h.board
    active := h.active.trans (congrArg Option.isSome hbatch.symm)
    order := by
      show (s.started ++ (o.bind fun j => (update s.threads i t j).batch).getD []).map some = _
      rw [hbatch]
      exact h.order }

theorem Inv.record_of_some (h : Inv s o) {index : ℕ} {task task' : α} (hadded : s.added index = some task') :
    Inv (s.record index task) o := by
  have hsame : update s.added index ((s.added index).or (some task)) = s.added := by simp [hadded]
  rwa [State.record, hsame]

/-- `add_task` throws only if a task has been added under the index before. -/
theorem Inv.addTask (h : Inv s o) (index : ℕ) (task : α) : Inv ((s.addTask index task).record index task) o := by
  unfold State.addTask
  have hpending := h.pending index
  by_cases hpast : index < s.nextExpectedTaskIndex
  · obtain ⟨task', -, hadded⟩ := Option.map_eq_some_iff.1 (h.added_of_lt hpast)
    rw [if_pos hpast]
    exact h.record_of_some hadded.symm
  rw [if_neg hpast] at hpending
  by_cases hmem : index ∈ s.pendingTasks
  · rw [ExtTreeMap.getElem?_eq_some_getElem hmem] at hpending
    rw [if_neg hpast, if_pos hmem]
    exact h.record_of_some hpending.symm
  rw [ExtTreeMap.getElem?_eq_none hmem] at hpending
  simp only [if_neg hpast, if_neg hmem, State.record, ← hpending, Option.none_or]
  have hready : s.nextExpectedTaskIndex ∈ s.pendingTasks.insert index task ↔
      index = s.nextExpectedTaskIndex ∨ s.Ready :=
    ExtTreeMap.mem_insert.trans (or_congr_left Std.compare_eq_iff_eq)
  refine ⟨h.holds, ?_, fun ho hactive => hready.2 (.inr (h.taking ho hactive)), h.active, fun k => ?_, ?_⟩
  · show JobBoard.count (if _ then _ else _) = 1 ∧ o = none ∧
      s.nextExpectedTaskIndex ∈ s.pendingTasks.insert index task ∨
      _ ∧ ¬(o = none ∧ s.nextExpectedTaskIndex ∈ s.pendingTasks.insert index task)
    rw [hready]
    split_ifs with hnext
    · -- the task has not been there, so that the token is neither on the board nor with a worker
      have hnot : ¬s.Ready := fun hr => hmem (hnext.2 ▸ hr)
      have hcount := (h.board.resolve_left fun hboard => hnot hboard.2.2).1
      refine .inl ⟨?_, not_not.1 fun ho => hnot (h.taking ho hnext.1), .inl hnext.2⟩
      rw [JobBoard.count_addTask, hcount]
      rfl
    · have hsame : o = none ∧ (index = s.nextExpectedTaskIndex ∨ s.Ready) ↔ o = none ∧ s.Ready := by
        refine and_congr_right ?_
        rintro rfl
        exact or_iff_right fun heq => hnext ⟨h.active, heq⟩
      rw [hsame]
      exact h.board
  · simp only [ExtTreeMap.getElem?_insert, Std.compare_eq_iff_eq, update_apply, h.pending]
    split_ifs <;> first | rfl | omega
  · refine h.order.trans (map_congr_left fun k hk => (update_of_ne ?_ _ _).symm)
    rintro rfl
    exact hpast (mem_range.1 hk)

theorem Inv.runTask (h : Inv s o) (hi : ¬(s.threads i).Holds) {task : Option Task}
    (hb : s.board.count = b.count + if task = some .ordered then 1 else 0) :
    ∃ o', Inv ({ s with board := b }.runTask i task) o' := by
  rcases task with _ | _ | _
  · exact ⟨o, h.quiet hi id hb.symm⟩
  · rw [if_pos rfl] at hb
    obtain ⟨hcount, rfl, hready⟩ := h.board.resolve_right fun hboard => by omega
    have hbatch : (update s.threads i .takeBatch i).batch = none := by rw [update_self]; rfl
    refine ⟨some i, { h with
      holds := holds_take h.holds trivial
      board := .inr ⟨by show b.count = 0; omega, nofun⟩
      taking := fun _ _ => hready
      active := h.active.trans (congrArg Option.isSome hbatch.symm)
      order := ?_ }⟩
    show (s.started ++ (update s.threads i .takeBatch i).batch.getD []).map some = _
    rw [hbatch]
    exact h.order
  · exact ⟨o, h.quiet hi id hb.symm⟩

section
variable (h : Inv s (some i)) {started : List α}
include h

theorem Inv.keep {batch : List α} (ht : t.Holds) (hbatch : t.batch = some batch) {pending : ExtTreeMap ℕ α}
    {next : ℕ} {active : Bool} (hactive : active = true)
    (hpending : ∀ k, pending[k]? = if k < next then none else s.added k)
    (horder : (started ++ batch).map some = (range next).map s.added) :
    Inv { s.setThread i t with
      pendingTasks := pending, nextExpectedTaskIndex := next, active := active, started := started } (some i) where
  holds := holds_update h.holds (iff_of_true ht ((h.holds i).2 rfl))
  board := .inr ⟨(h.board.resolve_left nofun).1, nofun⟩
  taking _ hfalse := absurd (hactive.symm.trans hfalse) nofun
  active := by simp [State.batch, State.setThread, hbatch, hactive]
  pending := hpending
  order := by simpa [State.batch, State.setThread, hbatch] using horder

theorem Inv.takeBatch (hi : s.threads i = .takeBatch) : Inv (s.stepThread i) (some i) := by
  have horder : (s.started ++ (s.threads i).batch.getD []).map some = _ := h.order
  rw [hi] at horder
  simp only [State.stepThread, hi]
  refine h.keep (t := .runBatch _) trivial rfl rfl (fun k => ?_) ?_
  · rw [getElem?_drain_snd, h.pending]
    split_ifs <;> first | rfl | omega
  · show (s.started ++ (drain _ _).1).map some = _
    rw [map_append, range_add, map_append, map_map]
    refine congrArg₂ _ (by simpa [Thread.batch] using horder) (ext_getElem (by simp) fun k hk _ => ?_)
    rw [length_map] at hk
    have hk' := getElem?_drain_fst (getElem?_eq_getElem hk)
    rw [h.pending, if_neg (by omega)] at hk'
    simp [hk']

variable {batch : List α} (hi : (s.threads i).batch = some batch)
include hi

theorem Inv.batch_eq :
    s.active = true ∧ (s.started ++ batch).map some = (range s.nextExpectedTaskIndex).map s.added := by
  have hbatch : s.batch (some i) = some batch := hi
  have hactive := h.active
  have horder := h.order
  rw [hbatch] at hactive horder
  exact ⟨hactive, horder⟩

theorem Inv.goOn {batch' : List α} (ht : t.Holds) (hbatch : t.batch = some batch')
    (hstarted : started ++ batch' = s.started ++ batch) : Inv { s.setThread i t with started := started } (some i) :=
  h.keep ht hbatch (h.batch_eq hi).1 h.pending (hstarted ▸ (h.batch_eq hi).2)

end

/-- The last critical section of `do_task_implementation`. -/
theorem Inv.finish (h : Inv s (some i)) (hi : s.threads i = .runBatch []) : Inv (s.stepThread i) none := by
  have hbatch : (s.threads i).batch = some [] := by rw [hi]; rfl
  obtain ⟨-, horder⟩ := h.batch_eq hbatch
  have hcount := (h.board.resolve_left nofun).1
  simp only [State.stepThread, hi]
  refine ⟨holds_drop h.holds id, ?_, nofun, rfl, h.pending, horder⟩
  show JobBoard.count (if s.Ready then _ else _) = 1 ∧ _ ∧ s.Ready ∨ _ ∧ ¬(_ ∧ s.Ready)
  split_ifs with hready
  · refine .inl ⟨?_, rfl, hready⟩
    rw [JobBoard.count_addTask, hcount]
    rfl
  · exact .inr ⟨hcount, fun hr => hready hr.2⟩

theorem Inv.stepThread (h : Inv s o) (i : ℕ) : ∃ o', Inv (s.stepThread i) o' := by
  have howner {t : Thread α} (hi : s.threads i = t) (ht : t.Holds) : Inv s (some i) :=
    (h.holds i).1 (hi ▸ ht) ▸ h
  cases hi : s.threads i with
  | idle => exact ⟨o, by simpa only [State.stepThread, hi] using h⟩
  | waitForTask =>
    simp only [State.stepThread, hi]
    refine h.runTask (by rw [hi]; exact id) ?_
    have hcount := JobBoard.count_wakeUp i s.board.waitingWorkerThreads
    simp only [JobBoard.count]
    omega
  | takeBatch => exact ⟨some i, (howner hi trivial).takeBatch hi⟩
  | runBatch batch =>
    cases batch with
    | nil => exact ⟨none, (howner hi trivial).finish hi⟩
    | cons task batch =>
      simp only [State.stepThread, hi]
      exact ⟨some i, (howner hi trivial).goOn (by rw [hi]; rfl) trivial rfl (append_assoc ..)⟩
  | doTask batch =>
    simp only [State.stepThread, hi]
    exact ⟨some i, (howner hi trivial).goOn (by rw [hi]; rfl) trivial rfl rfl⟩

theorem Inv.getTask (h : Inv s o) (i : ℕ) : ∃ o', Inv (s.getTask i) o' := by
  unfold State.getTask
  split
  · next hi htasks =>
    refine ⟨o, h.quiet (by rw [hi]; exact id) id ?_⟩
    simp [JobBoard.count]
  · next task tasks hi htasks =>
    refine h.runTask (by rw [hi]; exact id) ?_
    simp only [JobBoard.count, htasks, count_cons, Option.some.injEq, beq_iff_eq]
    omega
  · exact ⟨o, h⟩

theorem Inv.step (h : Inv s o) (x : Event α) : ∃ o', Inv (step s x) o' := by
  cases x with
  | addTask index task => exact ⟨o, h.addTask index task⟩
  | getTask i => exact h.getTask i
  | addOther id => exact ⟨o, { h with board := by rw [FanIn.step, JobBoard.count_addTask]; exact h.board }⟩
  | thread i => exact h.stepThread i

end

/-- **Fan-in tasks run in the order of their indices**, whatever the order in which they are added: those that have
started are the first ones, none is lost, no two workers execute the object, and it is on the board when there is a
task to run. -/
theorem inOrder_run (events : List (Event α)) : InOrder (Runs.exec step ({} : State α) events) := by
  have hinv : ∃ o, Inv (Runs.exec step ({} : State α) events) o :=
    Runs.exec_induction (I := fun s => ∃ o, Inv s o) (fun s x ⟨_, h⟩ _ => h.step x) ⟨none, inv_init⟩
      (Runs.along_true _ _)
  obtain ⟨o, h⟩ := hinv
  exact h.inOrder

/-- Tasks that are added in the reverse order, and a worker that runs both. -/
def reversed : List (Event ℕ) :=
  [.addTask 1 11, .addTask 0 10, .getTask 7, .thread 7, .thread 7, .thread 7, .thread 7]

theorem inOrder_run_reversed : (Runs.exec step ({} : State ℕ) reversed).started = [10, 11] ∧
    InOrder (Runs.exec step ({} : State ℕ) reversed) :=
  ⟨by decide +kernel, inOrder_run reversed⟩

end Ccf.Tasks.FanIn
