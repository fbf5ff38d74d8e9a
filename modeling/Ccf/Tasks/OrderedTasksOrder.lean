import Ccf.Tasks.OrderedTasksInvariant
import Ccf.Lib.ActionQueue
import Mathlib.Data.List.Induction

/-! # Ordered tasks run in order

In every state of every run at most one worker is inside `pop_and_visit`, actions start in the order in which they
have been added, and the task is on the job board when there is work to do and nobody is busy with the queue
(`Orderly`). No action starts while the queue is paused, if no pause is set between a worker's look at the flag and
the start (`PausesUnchecked`). Then every step is one of a queue of actions, or invisible there (`Shows`). -/

namespace Ccf.Tasks

open Function Tasks.State

variable {α : Type} {s s' : State α} {t : Thread α} {o : Option ℕ} {x : Event α}

structure Orderly (s : State α) : Prop where
  alone : ∀ i j, (s.threads i).Inside → (s.threads j).Inside → i = j
  inOrder : s.started <+: s.added
  complete : s.pending = [] → (∀ i, ¬(s.threads i).Inside) → s.started = s.added
  awake : s.pending ≠ [] → s.paused = false → (∀ i, (s.threads i).Outside) → s.board.count = 1

/-- An action starts in this step only if the queue is not paused. -/
def StartsUnpaused (s : State α) (x : Event α) : Prop := (step s x).started ≠ s.started → s.paused = false

/-- No pause is set while a worker that has read the flag is about to start an action. -/
def PausesUnchecked (s : State α) (x : Event α) : Prop :=
  ∀ i, x = .thread i → s.threads i = .pause → ∀ j action rest, s.threads j ≠ .visit action rest

theorem Inv.orderly (h : Inv s o) : Orderly s where
  alone i j hi hj := Option.some.inj ((h.owner hi.holds).symm.trans (h.owner hj.holds))
  inOrder := ⟨_, h.order.symm⟩
  complete hpending hinside := by
    have hrest : s.rest o = none := by
      cases o with
      | none => rfl
      | some i =>
        show (s.threads i).rest = none
        have hi := hinside i
        cases ht : s.threads i <;> first | rfl | (rw [ht] at hi; exact absurd trivial hi)
    rw [h.order, hrest, hpending]
    simp
  awake hpending hpaused houtside := by
    have hnone : o = none := by
      cases o with
      | none => rfl
      | some i =>
        have hi := (h.holds i).2 rfl
        have hout := houtside i
        cases ht : s.threads i <;> rw [ht] at hi hout <;> first | exact absurd hi id | exact absurd hout id
    subst hnone
    have hwake := h.wake hpending h.active hpaused
    rcases hwake with hflag | ⟨i, hi⟩
    · exact (h.flag.1 hflag).resolve_left (fun hne => hne rfl)
    · have hout := houtside i
      cases ht : s.threads i <;> rw [ht] at hi hout <;> first | exact absurd hi id | exact absurd hout id

/-! ### What a step can do -/

/-- Nothing is added, started or paused: a thread moves outside the actions, and goes to start one only where the
queue is not paused. -/
inductive Quiet (s : State α) : State α → Prop
  | board (b : JobBoard) : Quiet s { s with board := b }
  | move {i : ℕ} {t : Thread α} {pending : List α} {active flag : Bool} {b : JobBoard}
      (hi : ∀ action rest, s.threads i ≠ .doAction action rest) (ht : ∀ action rest, t ≠ .doAction action rest)
      (hvisit : ∀ action rest, t = .visit action rest → s.paused = false) :
      Quiet s { s.setThread i t with pending := pending, active := active, boardEnqueued := flag, board := b }

section
variable {i : ℕ} {b : JobBoard}

theorem Quiet.runTask (hi : ∀ action rest, s.threads i ≠ .doAction action rest) {task : Option Task} :
    Quiet s ({ s with board := b }.runTask i task) := by
  rcases task with _ | _ | _
  · exact .move hi (t := .idle) (by simp) (by simp)
  · exact .move hi (t := .takePending) (by simp) (by simp)
  · exact .move hi (t := .idle) (by simp) (by simp)

theorem Quiet.call (hi : s.isIdle i = true) (ht : ∀ action rest, t ≠ .doAction action rest)
    (hvisit : ∀ action rest, t ≠ .visit action rest) : Quiet s (s.setThread i t) :=
  .move (by simp [isIdle_iff.1 hi]) ht fun action rest h => absurd h (hvisit action rest)

/-- Every step is quiet but five of those of a thread. -/
theorem step_cases (s : State α) (x : Event α) : Quiet s (step s x) ∨ ∃ i, x = .thread i ∧
    ((∃ action, s.threads i = .push action) ∨ s.threads i = .pause ∨ s.threads i = .unpause ∨
      (∃ action rest, s.threads i = .visit action rest) ∨ ∃ action rest, s.threads i = .doAction action rest) := by
  cases x with
  | addOther id => exact .inl (.board _)
  | addAction i action | pause i | resume i =>
    simp only [step]
    split_ifs with hi
    · exact .inl (.call hi (by simp) (by simp))
    · exact .inl (.board s.board)
  | getTask i =>
    simp only [step, getTask]
    split_ifs with hi
    · have hidle := isIdle_iff.1 hi
      cases s.board.pendingTasks with
      | nil => exact .inl (.move (by simp [hidle]) (by simp) (by simp))
      | cons task tasks => exact .inl (.runTask (by simp [hidle]))
    · exact .inl (.board s.board)
  | thread i =>
    simp only [step, stepThread]
    cases hi : s.threads i with
    | push action => exact .inr ⟨i, rfl, .inl ⟨action, hi⟩⟩
    | pause => exact .inr ⟨i, rfl, .inr (.inl hi)⟩
    | unpause => exact .inr ⟨i, rfl, .inr (.inr (.inl hi))⟩
    | visit action rest => exact .inr ⟨i, rfl, .inr (.inr (.inr (.inl ⟨action, rest, hi⟩)))⟩
    | doAction action rest => exact .inr ⟨i, rfl, .inr (.inr (.inr (.inr ⟨action, rest, hi⟩)))⟩
    | idle => exact .inl (.board s.board)
    | waitForTask => exact .inl (.runTask (by simp [hi]))
    | loadPaused rest =>
      cases rest with
      | nil => exact .inl (.move (by simp [hi]) (by simp) (by simp))
      | cons action rest => exact .inl (.move (by simp [hi]) (by split_ifs <;> simp) (by split_ifs <;> simp_all))
    | addTask | takePending | clearEnqueued => exact .inl (.move (by simp [hi]) (by simp) (by simp))
    | enqueue | splice | getQueueSummary =>
      exact .inl (.move (by simp [hi]) (by split_ifs <;> simp) (by split_ifs <;> simp))

end

/-! ### Pauses -/

/-- A worker that is about to start an action has read the flag as it still is. -/
def ChecksHold (s : State α) : Prop := ∀ j action rest, s.threads j = .visit action rest → s.paused = false

theorem checksHold_init : ChecksHold (init : State α) := by
  rintro j action rest ⟨⟩

theorem ChecksHold.setThread {i : ℕ} (h : ChecksHold s)
    (ht : ∀ action rest, t = .visit action rest → s.paused = false) : ChecksHold (s.setThread i t) := by
  intro j action rest hj
  change update s.threads i t j = _ at hj
  by_cases hji : j = i
  · rw [hji, update_self] at hj
    exact ht action rest hj
  · rw [update_of_ne hji] at hj
    exact h j action rest hj

theorem ChecksHold.quiet (h : ChecksHold s) (hquiet : Quiet s s') : ChecksHold s' := by
  cases hquiet with
  | board b => exact h
  | move hi ht hvisit => exact h.setThread hvisit

theorem ChecksHold.next (h : ChecksHold s) (x : Event α) (hp : PausesUnchecked s x) : ChecksHold (step s x) := by
  rcases step_cases s x with hquiet | ⟨i, rfl, ⟨action, hi⟩ | hi | hi | ⟨action, rest, hi⟩ | ⟨action, rest, hi⟩⟩
  · exact h.quiet hquiet
  · simp only [step, stepThread, hi]
    exact h.setThread (by split_ifs <;> simp)
  · simp only [step, stepThread, hi]
    intro j action rest hj
    by_cases hji : j = i
    · rw [hji] at hj
      exact absurd ((update_self ..).symm.trans hj) (by simp)
    · exact absurd ((update_of_ne hji ..).symm.trans hj) (hp i rfl hi j action rest)
  · simp only [step, stepThread, hi]
    exact fun _ _ _ _ => rfl
  · simp only [step, stepThread, hi]
    exact h.setThread (by simp)
  · simp only [step, stepThread, hi]
    exact h.setThread (by simp)

theorem Quiet.started_eq (h : Quiet s s') : s'.started = s.started := by cases h <;> rfl

/-- An action starts only where a worker is about to start one. -/
theorem started_step_ne (h : (step s x).started ≠ s.started) :
    ∃ i action rest, s.threads i = .visit action rest := by
  rcases step_cases s x with hquiet | ⟨i, rfl, ⟨action, hi⟩ | hi | hi | ⟨action, rest, hi⟩ | ⟨action, rest, hi⟩⟩
  · exact absurd hquiet.started_eq h
  case inr.inr.inr.inr.inl => exact ⟨i, action, rest, hi⟩
  all_goals
    simp only [step, stepThread, hi] at h
    exact absurd rfl h

/-- **Ordered tasks run in order, one at a time, and do not get stuck.** -/
theorem orderly_of_pausesUnchecked (events : List (Event α))
    (h : Runs.Along step PausesUnchecked (init : State α) events) :
    Orderly (run events) ∧ ∀ x, StartsUnpaused (run events) x := by
  refine ⟨(exists_inv events).choose_spec.orderly, fun x hx => ?_⟩
  have hchecks : ChecksHold (run events) :=
    Runs.exec_induction (I := fun s : State α => ChecksHold s) (fun s x hs hp => hs.next x hp)
      checksHold_init h
  obtain ⟨i, action, rest, hi⟩ := started_step_ne hx
  exact hchecks i action rest hi

/-- One action is added and run, and pauses the queue while it runs. -/
def pausedFromInside : List (Event ℕ) :=
  [.addAction 0 7, .thread 0, .thread 0, .thread 0, .getTask 1, .thread 1, .thread 1, .thread 1, .pause 2, .thread 2]

theorem pausesUnchecked_inside : Runs.Along step PausesUnchecked init pausedFromInside := by
  refine ⟨by rintro i ⟨⟩, by rintro i ⟨⟩ ⟨⟩, by rintro i ⟨⟩ ⟨⟩, by rintro i ⟨⟩ ⟨⟩, by rintro i ⟨⟩, by rintro i ⟨⟩ ⟨⟩,
    by rintro i ⟨⟩ ⟨⟩, by rintro i ⟨⟩ ⟨⟩, by rintro i ⟨⟩, ?_, trivial⟩
  -- at the last step the worker is inside the action
  rintro i ⟨⟩ - j action rest hj
  by_cases h₁ : j = 1
  · subst h₁
    cases hj
  · by_cases h₂ : j = 2
    · subst h₂
      cases hj
    · have hidle : (run (pausedFromInside.take 9)).threads j = .idle := by
        simp [run, pausedFromInside, Runs.exec, step, init, isIdle, setThread, stepThread,
          getTask, runTask, JobBoard.addTask, JobBoard.assign, h₁, h₂]
      exact absurd (hidle.symm.trans hj) (by simp)

theorem orderly_of_pausesUnchecked_inside :
    (run pausedFromInside).started = [7] ∧ (run pausedFromInside).paused = true ∧
      Orderly (run pausedFromInside) ∧ ∀ x, StartsUnpaused (run pausedFromInside) x :=
  ⟨rfl, rfl, orderly_of_pausesUnchecked pausedFromInside pausesUnchecked_inside⟩

/-- The queue is paused by another thread when a worker has read the flag; the worker then starts the action. -/
def pausedAfterCheck : List (Event ℕ) :=
  [.addAction 0 7, .thread 0, .thread 0, .thread 0, .getTask 1, .thread 1, .thread 1, .pause 2, .thread 2]

theorem not_startsUnpaused_pausedAfterCheck :
    ¬(Orderly (run pausedAfterCheck) ∧ ∀ x, StartsUnpaused (run pausedAfterCheck) x) := by
  rintro ⟨-, h⟩
  have hstarts : (step (run pausedAfterCheck) (.thread 1)).started ≠ (run pausedAfterCheck).started := by
    show [7] ≠ []
    exact List.cons_ne_nil _ _
  have hpaused : (run pausedAfterCheck).paused = true := rfl
  exact Bool.false_ne_true ((h (.thread 1) hstarts).symm.trans hpaused)

/-! ### A queue of actions -/

/-- What the queue of actions is in a state. -/
structure Shows (s : State α) (q : ActionQueue α) : Prop where
  pending : s.added = s.started ++ q.pending
  paused : q.paused = s.paused
  running : ∀ action, q.running = some action ↔ ∃ i rest, s.threads i = .doAction action rest

theorem shows_init : Shows (init : State α) .empty where
  pending := rfl
  paused := rfl
  running _ := ⟨(by rintro ⟨⟩), (by rintro ⟨_, _, ⟨⟩⟩)⟩

section
variable {q : ActionQueue α} {i : ℕ}

theorem running_update (h : ∀ action, q.running = some action ↔ ∃ i rest, s.threads i = .doAction action rest)
    (hi : ∀ action rest, s.threads i ≠ .doAction action rest) (ht : ∀ action rest, t ≠ .doAction action rest)
    (action : α) : q.running = some action ↔ ∃ j rest, update s.threads i t j = .doAction action rest := by
  rw [h]
  constructor
  · rintro ⟨j, rest, hj⟩
    have hne : j ≠ i := by
      rintro rfl
      exact hi _ _ hj
    exact ⟨j, rest, by rwa [update_of_ne hne]⟩
  · rintro ⟨j, rest, hj⟩
    by_cases hji : j = i
    · rw [hji, update_self] at hj
      exact absurd hj (ht _ _)
    · rw [update_of_ne hji] at hj
      exact ⟨j, rest, hj⟩

variable (h : Shows s q) {action : α} {rest : List α}
include h

theorem Shows.quiet (hquiet : Quiet s s') : Shows s' q := by
  cases hquiet with
  | board b => exact ⟨h.pending, h.paused, h.running⟩
  | move hi ht hvisit => exact ⟨h.pending, h.paused, running_update h.running hi ht⟩

theorem Shows.push (hi : s.threads i = .push action) : Shows (s.stepThread i) (q.step (.add action)) := by
  simp only [State.stepThread, hi]
  refine ⟨?_, h.paused, running_update h.running (by simp [hi]) (by split_ifs <;> simp)⟩
  show s.added ++ [action] = s.started ++ (q.pending ++ [action])
  rw [h.pending, List.append_assoc]

/-- A worker starts an action; nobody else is inside one. -/
theorem Shows.visit (hinv : Inv s o) (hchecks : ChecksHold s)
    (hi : s.threads i = .visit action rest) : Shows (s.stepThread i) (q.step .start) := by
  have hold : (s.threads i).Holds := by rw [hi]; exact trivial
  have halone : ∀ j action rest, s.threads j ≠ .doAction action rest := by
    intro j action' rest' hj
    have hj' : (s.threads j).Holds := by rw [hj]; exact trivial
    have hij : i = j := Option.some.inj ((hinv.owner hold).symm.trans (hinv.owner hj'))
    rw [← hij, hi] at hj
    cases hj
  have hrun : q.running = none := by
    cases hq : q.running with
    | none => rfl
    | some action' =>
      obtain ⟨j, rest', hj⟩ := (h.running action').1 hq
      exact absurd hj (halone j action' rest')
  have hpaused : q.paused = false := h.paused.trans (hchecks i action rest hi)
  have hpending : q.pending = action :: (rest ++ s.pending) := by
    have horder := hinv.order_of_rest hold
    rw [hi, h.pending] at horder
    exact List.append_cancel_left horder
  have hstart : q.step .start = { q with pending := rest ++ s.pending, running := some action } := by
    rw [ActionQueue.step_start (ActionQueue.next_eq_some_iff.2 ⟨hrun, hpaused, by rw [hpending]; rfl⟩), hpending]
    rfl
  rw [hstart]
  simp only [State.stepThread, hi]
  refine ⟨?_, h.paused, fun action' => ?_⟩
  · show s.added = s.started ++ [action] ++ (rest ++ s.pending)
    rw [h.pending, hpending, List.append_assoc]
    rfl
  · constructor
    · intro heq
      cases heq
      exact ⟨i, rest, update_self ..⟩
    · rintro ⟨j, rest', hj⟩
      change update s.threads i _ j = _ at hj
      by_cases hji : j = i
      · rw [hji, update_self] at hj
        cases hj
        rfl
      · rw [update_of_ne hji] at hj
        exact absurd hj (halone j action' rest')

theorem Shows.doAction (hinv : Inv s o)
    (hi : s.threads i = .doAction action rest) : Shows (s.stepThread i) (q.step .finish) := by
  have hold : (s.threads i).Holds := by rw [hi]; exact trivial
  simp only [State.stepThread, hi]
  refine ⟨h.pending, h.paused, fun action' => ⟨(by rintro ⟨⟩), ?_⟩⟩
  rintro ⟨j, rest', hj⟩
  change update s.threads i _ j = _ at hj
  by_cases hji : j = i
  · rw [hji, update_self] at hj
    cases hj
  · rw [update_of_ne hji] at hj
    have hj' : (s.threads j).Holds := by rw [hj]; exact trivial
    exact absurd (Option.some.inj ((hinv.owner hj').symm.trans (hinv.owner hold))) hji

theorem Shows.next (hinv : Inv s o) (hchecks : ChecksHold s) (x : Event α) :
    ∃ op : Option (ActionQueue.Op α), Shows (step s x) (op.elim q q.step) := by
  rcases step_cases s x with hquiet | ⟨i, rfl, ⟨action, hi⟩ | hi | hi | ⟨action, rest, hi⟩ | ⟨action, rest, hi⟩⟩
  · exact ⟨none, h.quiet hquiet⟩
  · exact ⟨some (.add action), h.push hi⟩
  · refine ⟨some .pause, ?_⟩
    simp only [step, State.stepThread, hi]
    exact ⟨h.pending, rfl, running_update h.running (by simp [hi]) (by simp)⟩
  · refine ⟨some .resume, ?_⟩
    simp only [step, State.stepThread, hi]
    exact ⟨h.pending, rfl, running_update h.running (by simp [hi]) (by split_ifs <;> simp)⟩
  · exact ⟨some .start, h.visit hinv hchecks hi⟩
  · exact ⟨some .finish, h.doAction hinv hi⟩

omit h

end

/-- **Ordered tasks are a queue of actions**, in every run in which no pause is set between a worker's look at the
flag and the start of an action: each event is one operation of the queue or none. -/
theorem shows_along_run (events : List (Event α)) (h : Runs.Along step PausesUnchecked (init : State α) events) :
    ∃ ops : List (Option (ActionQueue.Op α)), ops.length = events.length ∧
      ∀ k, Shows (run (events.take k)) (Runs.exec (fun q op => op.elim q q.step) .empty (ops.take k)) := by
  induction events using List.reverseRecOn with
  | nil => exact ⟨[], rfl, fun k => by rw [List.take_nil, List.take_nil]; exact shows_init⟩
  | append_singleton events x ih =>
    obtain ⟨hevents, hx⟩ := Runs.along_concat.1 h
    obtain ⟨ops, hlen, hops⟩ := ih hevents
    obtain ⟨o, hinv⟩ := exists_inv events
    have hchecks : ChecksHold (run events) :=
      Runs.exec_induction (fun s x hs hp => hs.next x hp) checksHold_init hevents
    have hlast := hops events.length
    rw [List.take_length, ← hlen, List.take_length] at hlast
    obtain ⟨op, hop⟩ := hlast.next hinv hchecks x
    refine ⟨ops ++ [op], by simp [hlen], fun k => ?_⟩
    rcases Nat.lt_or_ge events.length k with hk | hk
    · rw [List.take_of_length_le (by simp; omega), List.take_of_length_le (by simp; omega), run, Runs.exec_concat,
        Runs.exec_concat]
      exact hop
    · rw [List.take_append_of_le_length hk, List.take_append_of_le_length (hlen.symm ▸ hk)]
      exact hops k

theorem shows_along_run_inside :
    (run pausedFromInside).started = [7] ∧ (run pausedFromInside).paused = true ∧
      ∃ ops : List (Option (ActionQueue.Op ℕ)), ops.length = pausedFromInside.length ∧
        ∀ k, Shows (run (pausedFromInside.take k)) (Runs.exec (fun q op => op.elim q q.step) .empty (ops.take k)) :=
  ⟨rfl, rfl, shows_along_run pausedFromInside pausesUnchecked_inside⟩

end Ccf.Tasks
