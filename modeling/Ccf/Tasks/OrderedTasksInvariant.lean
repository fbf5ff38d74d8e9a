import Ccf.Tasks.OrderedTasks

/-! # What ordered tasks keep

The right to run the queue is a token: it is on the job board, or one thread has it, from the exchange of
the flag until it clears the flag again (`Thread.Holds`). The flag says whether the token is out.
`Inv s o` says this with `o` for the thread that has the token, together with where every action is that
has been added (`order`) and with who puts the token on the board next when there is work to do (`wake`). -/

namespace Ccf.Tasks

open List Tasks.State Function

variable {α : Type} {t : Thread α} {b : JobBoard} {s : State α} {o : Option ℕ} {i : ℕ}

/-! ### The job board -/

namespace JobBoard

theorem count_assign {task : Task} {ws ws' : List (ℕ × Option Task)} (h : assign task ws = some ws') :
    (ws'.map Prod.snd).count (some .ordered) =
      (ws.map Prod.snd).count (some .ordered) + if task = .ordered then 1 else 0 := by
  induction ws generalizing ws' with
  | nil => cases h
  | cons w ws ih =>
    obtain ⟨i, t⟩ := w
    cases t with
    | none =>
      cases h
      split_ifs <;> simp_all
    | some t =>
      obtain ⟨ws₁, h₁, rfl⟩ := Option.map_eq_some_iff.1 h
      simp only [map_cons, count_cons, ih h₁]
      omega

theorem count_addTask (b : JobBoard) (task : Task) :
    (b.addTask task).count = b.count + if task = .ordered then 1 else 0 := by
  unfold addTask count
  cases h : assign task b.waitingWorkerThreads with
  | none =>
    simp only [count_append, count_singleton, beq_iff_eq]
    omega
  | some ws =>
    simp only [count_assign h]
    omega

theorem count_wakeUp (i : ℕ) (ws : List (ℕ × Option Task)) : (ws.map Prod.snd).count (some .ordered) =
      ((wakeUp i ws).2.map Prod.snd).count (some .ordered) + if (wakeUp i ws).1 = some .ordered then 1 else 0 := by
  induction ws with
  | nil => rfl
  | cons w ws ih =>
    by_cases hi : w.1 = i
    · simp only [wakeUp, if_pos hi, map_cons, count_cons, beq_iff_eq]
    · simp only [wakeUp, if_neg hi, map_cons, count_cons, ih]
      omega

end JobBoard

/-! ### Phases of a thread -/

namespace Thread

/-- The thread has the token. -/
def Holds : Thread α → Prop
  | .addTask | .takePending | .loadPaused _ | .visit _ _ | .doAction _ _ | .splice _ | .clearEnqueued => True
  | _ => False

/-- The actions that a thread inside `pop_and_visit` has still to run. -/
def rest : Thread α → Option (List α)
  | .loadPaused rest | .doAction _ rest | .splice rest => some rest
  | .visit action rest => some (action :: rest)
  | _ => none

/-- The thread will look at the flag before it leaves. -/
def Rechecks : Thread α → Prop
  | .enqueue | .getQueueSummary => True
  | _ => False

/-- The thread is inside `pop_and_visit`. -/
def Inside : Thread α → Prop
  | .takePending | .loadPaused _ | .visit _ _ | .doAction _ _ | .splice _ => True
  | _ => False

/-- The thread is inside none of the operations of the queue. -/
def Outside : Thread α → Prop
  | .idle | .waitForTask => True
  | _ => False

theorem Inside.holds (h : t.Inside) : t.Holds := by
  cases t <;> first | exact h | exact trivial

theorem rest_eq_none (h : ¬t.Holds) : t.rest = none := by
  cases t <;> first | rfl | exact absurd trivial h

end Thread

/-! ### One thread has the token -/

section
variable {τ : Type} {P : τ → Prop} {f : ℕ → τ} {t : τ}

theorem holds_update (h : ∀ j, P (f j) ↔ o = some j) (ht : P t ↔ P (f i)) (j : ℕ) :
    P (update f i t j) ↔ o = some j := by
  by_cases hj : j = i
  · rw [hj, update_self, ht, h]
  · rw [update_of_ne hj, h]

/-- A thread takes the token. -/
theorem holds_take (h : ∀ j, P (f j) ↔ none = some j) (ht : P t) (j : ℕ) : P (update f i t j) ↔ some i = some j := by
  by_cases hj : j = i
  · rw [hj, update_self]
    exact ⟨fun _ => rfl, fun _ => ht⟩
  · rw [update_of_ne hj, h]
    simp [Ne.symm hj]

/-- A thread gives the token away. -/
theorem holds_drop (h : ∀ j, P (f j) ↔ some i = some j) (ht : ¬P t) (j : ℕ) : P (update f i t j) ↔ none = some j := by
  by_cases hj : j = i
  · rw [hj, update_self]
    simp [ht]
  · rw [update_of_ne hj, h]
    simp [Ne.symm hj]

end

/-! ### The invariant -/

namespace State

variable (s : State α) (i : ℕ) (t : Thread α)

@[simp] theorem pending_setThread : (s.setThread i t).pending = s.pending := rfl

@[simp] theorem active_setThread : (s.setThread i t).active = s.active := rfl

@[simp] theorem paused_setThread : (s.setThread i t).paused = s.paused := rfl

@[simp] theorem added_setThread : (s.setThread i t).added = s.added := rfl

@[simp] theorem started_setThread : (s.setThread i t).started = s.started := rfl

end State

/-- The actions that the thread with the token has still to run, if it is inside `pop_and_visit`. -/
def State.rest (s : State α) (o : Option ℕ) : Option (List α) := o.bind fun i => (s.threads i).rest

structure Inv (s : State α) (o : Option ℕ) : Prop where
  holds : ∀ i, (s.threads i).Holds ↔ o = some i
  board : s.board.count = 0 ∨ (s.board.count = 1 ∧ o = none)
  flag : s.boardEnqueued = true ↔ o ≠ none ∨ s.board.count = 1
  active : s.active = (s.rest o).isSome
  order : s.added = s.started ++ ((s.rest o).getD [] ++ s.pending)
  wake : s.pending ≠ [] → s.active = false → s.paused = false →
    s.boardEnqueued = true ∨ ∃ i, (s.threads i).Rechecks

theorem inv_init : Inv (init : State α) none where
  holds i := ⟨False.elim, nofun⟩
  board := .inl rfl
  flag := by simp [init, JobBoard.count]
  active := rfl
  order := rfl
  wake h := absurd rfl h

theorem isIdle_iff : s.isIdle i = true ↔ s.threads i = .idle := by
  unfold isIdle
  cases s.threads i <;> simp

variable (h : Inv s o) (ht : (s.threads i).Holds) {pending added : List α}
include h ht

theorem Inv.owner : o = some i := (h.holds i).1 ht

theorem Inv.count_eq_zero : s.board.count = 0 := by
  rcases h.board with hb | ⟨-, hb⟩
  · exact hb
  · rw [h.owner ht] at hb
    cases hb

theorem Inv.flag_of_holds : s.boardEnqueued = true :=
  h.flag.2 (.inl (by rw [h.owner ht]; exact Option.some_ne_none i))

omit ht h

/-- Nobody but the owner is inside `pop_and_visit`. -/
theorem rest_update (h : (s.threads i).rest = none) (ht : t.rest = none) (o : Option ℕ) :
    (o.bind fun j => (update s.threads i t j).rest) = s.rest o := by
  unfold rest
  congr 1
  funext j
  by_cases hj : j = i
  · rw [hj, update_self, h, ht]
  · rw [update_of_ne hj]

/-- The threads that recheck, but for the one that moves. -/
theorem rechecks_update (h : ¬(s.threads i).Rechecks) (hs : ∃ j, (s.threads j).Rechecks) :
    ∃ j, (update s.threads i t j).Rechecks := by
  obtain ⟨j, hj⟩ := hs
  have hne : j ≠ i := by
    rintro rfl
    exact h hj
  exact ⟨j, by rwa [update_of_ne hne]⟩

theorem rechecks_self (ht : t.Rechecks) : ∃ j, (update s.threads i t j).Rechecks :=
  ⟨i, by rwa [update_self]⟩

include h

/-- A thread outside `pop_and_visit` changes the queue or the pause, and rechecks if that leaves work to do. -/
theorem Inv.change (hi : ¬(s.threads i).Holds) (ht : ¬t.Holds) {paused : Bool}
    (hb : b.count = s.board.count) (horder : added = s.started ++ ((s.rest o).getD [] ++ pending))
    (hwake : pending ≠ [] → s.active = false → paused = false →
      t.Rechecks ∨ s.boardEnqueued = true ∨ ∃ j, (update s.threads i t j).Rechecks) :
    Inv { s.setThread i t with board := b, pending := pending, added := added, paused := paused } o where
  holds := holds_update h.holds (iff_of_false ht hi)
  board := by rw [hb]; exact h.board
  flag := by rw [hb]; exact h.flag
  active := h.active.trans (congrArg Option.isSome
    (rest_update (Thread.rest_eq_none hi) (Thread.rest_eq_none ht) o).symm)
  order := by
    show added = s.started ++ ((o.bind fun j => (update s.threads i t j).rest).getD [] ++ pending)
    rw [rest_update (Thread.rest_eq_none hi) (Thread.rest_eq_none ht)]
    exact horder
  wake h₁ h₂ h₃ := by
    rcases hwake h₁ h₂ h₃ with hr | hflag | hs
    · exact .inr (rechecks_self hr)
    · exact .inl hflag
    · exact .inr hs

/-- A thread without the token moves, and nothing else changes but the number of waiting workers. -/
theorem Inv.quiet (hi : ¬(s.threads i).Holds) (ht : ¬t.Holds) (hr : ¬(s.threads i).Rechecks)
    (hb : b.count = s.board.count) : Inv { s.setThread i t with board := b } o :=
  h.change hi ht hb h.order fun h₁ h₂ h₃ => .inr ((h.wake h₁ h₂ h₃).imp id fun hs => rechecks_update hr hs)

theorem Inv.take (hb : s.board.count = b.count + 1) :
    Inv { s.setThread i .takePending with board := b } (some i) := by
  have hnone : s.board.count = 1 ∧ o = none := h.board.resolve_left (by omega)
  obtain ⟨hcount, rfl⟩ := hnone
  have hflag : s.boardEnqueued = true := h.flag.2 (.inr hcount)
  exact
    { holds := holds_take h.holds trivial
      board := .inl (by show b.count = 0; omega)
      flag := ⟨fun _ => .inl (Option.some_ne_none i), fun _ => hflag⟩
      active := by
        have hactive : s.active = false := h.active
        simp [rest, setThread, Thread.rest, hactive]
      order := by
        have horder := h.order
        simpa [rest, setThread, Thread.rest] using horder
      wake := fun _ _ _ => .inl hflag }

theorem Inv.runTask (hi : s.threads i = .idle ∨ s.threads i = .waitForTask) {task : Option Task}
    (hb : s.board.count = b.count + if task = some .ordered then 1 else 0) :
    ∃ o', Inv ({ s with board := b }.runTask i task) o' := by
  have hr : ¬(s.threads i).Rechecks := by rcases hi with hi | hi <;> rw [hi] <;> exact id
  have hh : ¬(s.threads i).Holds := by rcases hi with hi | hi <;> rw [hi] <;> exact id
  have hidle : ∀ t, t ≠ some Task.ordered → s.board.count = b.count + (if t = some .ordered then 1 else 0) →
      Inv ({ s with board := b }.setThread i .idle) o := by
    intro t ht hb
    rw [if_neg ht] at hb
    exact h.quiet hh id hr hb.symm
  cases task with
  | none => exact ⟨o, hidle none (by simp) hb⟩
  | some task =>
    cases task with
    | ordered => exact ⟨some i, h.take (by simpa using hb)⟩
    | other id => exact ⟨o, hidle (some (.other id)) (by simp) hb⟩

/-- The thread with the token moves and keeps it; what it has still to run is in its new phase. -/
theorem Inv.keep (hi : (s.threads i).Holds) (t : Thread α) (ht : t.Holds)
    {started : List α} {active : Bool} (hactive : active = t.rest.isSome)
    (horder : added = started ++ (t.rest.getD [] ++ pending)) :
    Inv { s.setThread i t with pending := pending, added := added, started := started, active := active } o := by
  have hflag := h.flag_of_holds hi
  have hcount := h.count_eq_zero hi
  have howner := h.owner hi
  subst howner
  exact
    { holds := holds_update h.holds (iff_of_true ht hi)
      board := .inl hcount
      flag := h.flag
      active := by simpa [rest, setThread] using hactive
      order := by simpa [rest, setThread] using horder
      wake := fun _ _ _ => .inl hflag }

/-! ### Steps -/

variable {rest : List α} {action : α}

theorem Inv.push (hi : s.threads i = .push action) : Inv (s.stepThread i) o := by
  have hr : ¬(s.threads i).Rechecks := by rw [hi]; exact id
  have hold : ¬(s.threads i).Holds := by rw [hi]; exact id
  simp only [stepThread, hi]
  refine h.change hold (by split_ifs <;> exact id) rfl ?_ fun _ hactive hpaused => ?_
  · rw [h.order]
    simp only [append_assoc]
  · cases hpending : s.pending with
    | nil => exact .inl (by simp [hactive, Thread.Rechecks])
    | cons a rest =>
      exact .inr ((h.wake (by simp [hpending]) hactive hpaused).imp id fun hs => rechecks_update hr hs)

theorem Inv.pause (hi : s.threads i = .pause) : Inv (s.stepThread i) o := by
  have hold : ¬(s.threads i).Holds := by rw [hi]; exact id
  simp only [stepThread, hi]
  exact h.change hold id rfl h.order fun _ _ hpaused => absurd hpaused (by simp)

theorem Inv.unpause (hi : s.threads i = .unpause) : Inv (s.stepThread i) o := by
  have hold : ¬(s.threads i).Holds := by rw [hi]; exact id
  simp only [stepThread, hi]
  refine h.change hold (by split_ifs <;> exact id) rfl h.order fun hpending hactive _ => .inl ?_
  have hne : s.pending.isEmpty = false := by simpa using hpending
  simp [hne, hactive, Thread.Rechecks]

theorem Inv.summary (hi : s.threads i = .getQueueSummary) : Inv (s.stepThread i) o := by
  have hold : ¬(s.threads i).Holds := by rw [hi]; exact id
  simp only [stepThread, hi]
  refine h.change hold (by split_ifs <;> exact id) rfl h.order fun hpending hactive hpaused => .inl ?_
  have hne : s.pending.isEmpty = false := by simpa using hpending
  have hpaused' : s.paused = false := hpaused
  simp [hne, hactive, hpaused', Thread.Rechecks]

theorem Inv.enqueue (hi : s.threads i = .enqueue) : ∃ o', Inv (s.stepThread i) o' := by
  have hold : ¬(s.threads i).Holds := by rw [hi]; exact id
  simp only [stepThread, hi]
  cases hflag : s.boardEnqueued with
  | true =>
    refine ⟨o, ?_⟩
    have hsame : Inv { s.setThread i (.idle : Thread α) with paused := s.paused } o :=
      h.change hold id rfl h.order fun _ _ _ => .inr (.inl hflag)
    rw [if_pos rfl, ← hflag]
    exact hsame
  | false =>
    have hnone : o = none ∧ s.board.count ≠ 1 := by
      have := mt h.flag.2 (by rw [hflag]; exact Bool.false_ne_true)
      simpa using this
    obtain ⟨rfl, hcount⟩ := hnone
    refine ⟨some i, ?_⟩
    exact
      { holds := holds_take h.holds trivial
        board := .inl (h.board.resolve_right fun hb => hcount hb.1)
        flag := by simp
        active := by
          have hactive : s.active = false := h.active
          simp [rest, setThread, Thread.rest, hactive]
        order := by simpa [rest, setThread, Thread.rest] using h.order
        wake := fun _ _ _ => .inl rfl }

/-- Where the actions of the thread with the token are. -/
theorem Inv.order_of_rest (hi : (s.threads i).Holds) :
    s.added = s.started ++ ((s.threads i).rest.getD [] ++ s.pending) := by
  have horder := h.order
  rw [h.owner hi] at horder
  exact horder

theorem Inv.active_of_rest (hi : (s.threads i).Holds) : s.active = (s.threads i).rest.isSome := by
  have hactive := h.active
  rw [h.owner hi] at hactive
  exact hactive

/-- The thread with the token gives it away and is not inside `pop_and_visit`. -/
theorem Inv.drop (hi : (s.threads i).Holds) (hrest : (s.threads i).rest = none)
    (ht : ¬t.Holds) {flag : Bool} (hb : b.count = 0 ∨ b.count = 1)
    (hflag : flag = true ↔ b.count = 1) (hwake : flag = true ∨ t.Rechecks) :
    Inv { s.setThread i t with board := b, boardEnqueued := flag } none := by
  obtain rfl := h.owner hi
  exact
    { holds := holds_drop h.holds ht
      board := hb.imp_right fun hb => ⟨hb, rfl⟩
      flag := by simpa using hflag
      active := by
        show s.active = false
        rw [h.active_of_rest hi, hrest]
        rfl
      order := by
        have horder := h.order_of_rest hi
        rwa [hrest] at horder
      wake := fun _ _ _ => hwake.imp_right rechecks_self }

theorem Inv.addTask (hi : s.threads i = .addTask) : Inv (s.stepThread i) none := by
  have hold : (s.threads i).Holds := by rw [hi]; exact trivial
  have hflag := h.flag_of_holds hold
  have hcount : (s.board.addTask .ordered).count = 1 := by
    rw [JobBoard.count_addTask, h.count_eq_zero hold]
    rfl
  simp only [stepThread, hi]
  exact h.drop hold (by rw [hi]; rfl) id (.inr hcount) (iff_of_true hflag hcount) (.inl hflag)

theorem Inv.clearEnqueued (hi : s.threads i = .clearEnqueued) : Inv (s.stepThread i) none := by
  have hold : (s.threads i).Holds := by rw [hi]; exact trivial
  have hcount := h.count_eq_zero hold
  have hne : s.board.count ≠ 1 := by omega
  simp only [stepThread, hi]
  exact h.drop hold (by rw [hi]; rfl) id (.inl hcount) (iff_of_false Bool.false_ne_true hne) (.inr trivial)

theorem Inv.takePending (hi : s.threads i = .takePending) : Inv (s.stepThread i) o := by
  have hold : (s.threads i).Holds := by rw [hi]; exact trivial
  have horder := h.order_of_rest hold
  rw [hi] at horder
  simp only [stepThread, hi]
  exact h.keep hold (.loadPaused s.pending) trivial rfl (by simpa [Thread.rest] using horder)

/-- The thread with the token goes on, with the same actions still to run. -/
theorem Inv.goOn (hi : (s.threads i).Holds) (ht : t.Holds)
    (hrest : t.rest = (s.threads i).rest) : Inv (s.setThread i t) o :=
  h.keep hi t ht (hrest ▸ h.active_of_rest hi) (hrest ▸ h.order_of_rest hi)

theorem Inv.loadPaused (hi : s.threads i = .loadPaused rest) : Inv (s.stepThread i) o := by
  have hold : (s.threads i).Holds := by rw [hi]; exact trivial
  simp only [stepThread, hi]
  cases rest with
  | nil => exact h.goOn hold trivial (by rw [hi]; rfl)
  | cons action rest =>
    split_ifs
    · exact h.goOn hold trivial (by rw [hi]; rfl)
    · exact h.goOn hold trivial (by rw [hi]; rfl)

theorem Inv.visit (hi : s.threads i = .visit action rest) : Inv (s.stepThread i) o := by
  have hold : (s.threads i).Holds := by rw [hi]; exact trivial
  have horder := h.order_of_rest hold
  have hactive := h.active_of_rest hold
  rw [hi] at horder hactive
  simp only [stepThread, hi]
  exact h.keep hold (.doAction action rest) trivial hactive (by simpa [Thread.rest] using horder)

theorem Inv.splice (hi : s.threads i = .splice rest) : Inv (s.stepThread i) o := by
  have hold : (s.threads i).Holds := by rw [hi]; exact trivial
  have horder := h.order_of_rest hold
  rw [hi] at horder
  simp only [stepThread, hi]
  refine h.keep hold _ (by split_ifs <;> exact trivial) (by split_ifs <;> rfl) ?_
  split_ifs <;> simpa [Thread.rest] using horder

theorem Inv.stepThread (i : ℕ) : ∃ o', Inv (s.stepThread i) o' := by
  cases hi : s.threads i with
  | idle => exact ⟨o, by simpa only [State.stepThread, hi] using h⟩
  | push action => exact ⟨o, h.push hi⟩
  | pause => exact ⟨o, h.pause hi⟩
  | unpause => exact ⟨o, h.unpause hi⟩
  | enqueue => exact h.enqueue hi
  | addTask => exact ⟨none, h.addTask hi⟩
  | waitForTask =>
    simp only [State.stepThread, hi]
    refine h.runTask (.inr hi) ?_
    have hcount := JobBoard.count_wakeUp i s.board.waitingWorkerThreads
    simp only [JobBoard.count]
    omega
  | takePending => exact ⟨o, h.takePending hi⟩
  | loadPaused rest => exact ⟨o, h.loadPaused hi⟩
  | visit action rest => exact ⟨o, h.visit hi⟩
  | doAction action rest =>
    simp only [State.stepThread, hi]
    exact ⟨o, h.goOn (by rw [hi]; exact trivial) trivial (by rw [hi]; rfl)⟩
  | splice rest => exact ⟨o, h.splice hi⟩
  | clearEnqueued => exact ⟨none, h.clearEnqueued hi⟩
  | getQueueSummary => exact ⟨o, h.summary hi⟩

theorem Inv.call (hi : s.isIdle i = true) (ht : ¬t.Holds) : Inv (s.setThread i t) o := by
  rw [isIdle_iff] at hi
  exact h.quiet (by rw [hi]; exact id) ht (by rw [hi]; exact id) rfl

theorem Inv.getTask (hi : s.isIdle i = true) : ∃ o', Inv (s.getTask i) o' := by
  have hidle := isIdle_iff.1 hi
  unfold State.getTask
  cases htasks : s.board.pendingTasks with
  | nil =>
    refine ⟨o, h.quiet (by rw [hidle]; exact id) id (by rw [hidle]; exact id) ?_⟩
    simp [JobBoard.count, htasks]
  | cons task tasks =>
    refine h.runTask (.inl hidle) ?_
    simp only [JobBoard.count, htasks, count_cons, beq_iff_eq, Option.some.injEq]
    omega

theorem Inv.next (x : Event α) : ∃ o', Inv (step s x) o' := by
  cases x with
  | addAction i action | pause i | resume i =>
    simp only [step]
    split_ifs with hi
    · exact ⟨o, h.call hi id⟩
    · exact ⟨o, h⟩
  | getTask i =>
    simp only [step]
    split_ifs with hi
    · exact h.getTask hi
    · exact ⟨o, h⟩
  | addOther id =>
    have hcount : (s.board.addTask (.other id)).count = s.board.count := by
      rw [JobBoard.count_addTask, if_neg (by simp)]
      rfl
    exact ⟨o, h.holds, hcount.symm ▸ h.board, hcount.symm ▸ h.flag, h.active, h.order, h.wake⟩
  | thread i => exact h.stepThread i

omit h

theorem exists_inv (events : List (Event α)) : ∃ o, Inv (run events) o :=
  Runs.exec_induction (P := fun _ _ => True) (I := fun s : State α => ∃ o, Inv s o)
    (fun _ x ⟨_, h⟩ _ => h.next x) ⟨none, inv_init⟩ (Runs.along_true _ _)

end Ccf.Tasks
