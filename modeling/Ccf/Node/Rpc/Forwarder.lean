import Ccf.Lib.Runs

/-! # Forwarded requests (`src/node/rpc/forwarder.h`)

A backup forwards a request to the primary and arms a timeout task that answers the client if no response comes.
Whether an answer is still due is read off `timeout_tasks`. The frontend answers at once if the command cannot be
sent.

A frontend thread files the task and then sends, a worker checks that a task has not been cancelled and then runs it,
and a response is received. The host may deliver any response header; `contents` is what `recv_encrypted` makes of
the rest.

A request is answered once if its command is sent, no undecryptable response has the id of a filed command, and no
response comes for a command whose timeout has begun to run (`Prompt`). A timeout task does not erase its own entry,
so a late response is sent to the client as a second answer. -/

namespace Ccf.Node.Forwarder

open List Function

/-! ### The model -/

/-- What a client is sent. -/
inductive Reply where
  | response (body : List UInt8) (terminateAfterReply : Bool)
  | text (status : ℕ) (body : String)
  | error (status : ℕ) (code msg : String)
deriving DecidableEq

/-- The response of `send_timeout_error_response`. -/
def timeoutErrorResponse (node : String) (timeout : ℕ) : Reply :=
  .text 504 s!"Request was forwarded to node n[{node}], but no response was received after {timeout}ms"

/-- The error of `RpcFrontend::forward` where `forward_command` returns false. -/
def sendErrorResponse : Reply :=
  .error 503 "InternalError" "Unable to establish channel to forward to primary."

inductive TaskPhase where
  | waiting
  | running
  | done
deriving DecidableEq

/-- A timeout task with the values its function has captured. -/
structure TimeoutTask where
  node : String
  clientSessionId : ℕ
  timeout : ℕ
  cancelled : Bool
  phase : TaskPhase
deriving DecidableEq

/-- An answer on a client session; `command` is the id the answer is known to belong to. -/
structure Answer where
  command : Option ℕ
  clientSessionId : ℕ
  reply : Reply
deriving DecidableEq

/-- `sending` are the commands that frontend threads have filed and not sent yet, `answers` is a history
variable. -/
structure State where
  nextCommandId : ℕ
  timeoutTasks : List ℕ
  tasks : ℕ → TimeoutTask
  sending : List ℕ
  answers : List Answer

def init : State where
  nextCommandId := 0
  timeoutTasks := []
  tasks := fun _ => ⟨"", 0, 0, false, .waiting⟩
  sending := []
  answers := []

inductive ResponseVersion where
  | v1
  | v2
  | v3
deriving DecidableEq

structure ForwardedResponseResult where
  clientSessionId : ℕ
  responseBody : List UInt8
  shouldTerminateSession : Bool
deriving DecidableEq

/-- A forwarded response: its header, of which version 1 has no id, and what decrypting it gives. -/
structure ResponseMsg where
  version : ResponseVersion
  id : ℕ
  contents : Option ForwardedResponseResult
deriving DecidableEq

variable (s : State)

def State.setTask (id : ℕ) (task : TimeoutTask) : State :=
  { s with tasks := update s.tasks id task }

def State.answer (command : Option ℕ) (clientSessionId : ℕ) (reply : Reply) : State :=
  { s with answers := s.answers ++ [⟨command, clientSessionId, reply⟩] }

/-- `forward_command` up to the send. -/
def forwardCommand (node : String) (clientSessionId timeout : ℕ) : State :=
  { s with
    nextCommandId := s.nextCommandId + 1
    timeoutTasks := s.timeoutTasks ++ [s.nextCommandId]
    tasks := update s.tasks s.nextCommandId ⟨node, clientSessionId, timeout, false, .waiting⟩
    sending := s.sending ++ [s.nextCommandId] }

/-- The send, and the answer of the frontend where it fails. -/
def send (id : ℕ) (ok : Bool) : State :=
  if id ∈ s.sending then
    let s := { s with sending := s.sending.erase id }
    if ok then s else s.answer (some id) (s.tasks id).clientSessionId sendErrorResponse
  else s

/-- A worker takes up a task and checks whether it has been cancelled. -/
def checkTask (id : ℕ) : State :=
  let task := s.tasks id
  if id < s.nextCommandId ∧ task.phase = .waiting then
    s.setTask id { task with phase := if task.cancelled then .done else .running }
  else s

/-- `send_timeout_error_response`, the function of the task. -/
def runTask (id : ℕ) : State :=
  let task := s.tasks id
  if id < s.nextCommandId ∧ task.phase = .running then
    (s.setTask id { task with phase := .done }).answer (some id) task.clientSessionId
      (timeoutErrorResponse task.node task.timeout)
  else s

/-- The part of `recv_message` that all versions of a response share. -/
def recvResponse (command : Option ℕ) : Option ForwardedResponseResult → State
  | none => s
  | some rep => s.answer command rep.clientSessionId (.response rep.responseBody rep.shouldTerminateSession)

/-- `recv_message` for a response. -/
def recvMessage (msg : ResponseMsg) : State :=
  match msg.version with
  | .v1 => recvResponse s none msg.contents
  | .v2 | .v3 =>
    if msg.id ∈ s.timeoutTasks then
      let s := s.setTask msg.id { s.tasks msg.id with cancelled := true }
      recvResponse { s with timeoutTasks := s.timeoutTasks.filter (· ≠ msg.id) } (some msg.id) msg.contents
    else s

inductive Event where
  | forwardCommand (node : String) (clientSessionId timeout : ℕ)
  | send (id : ℕ) (ok : Bool)
  | checkTask (id : ℕ)
  | runTask (id : ℕ)
  | recvMessage (msg : ResponseMsg)
deriving DecidableEq

def step : Event → State
  | .forwardCommand node clientSessionId timeout => forwardCommand s node clientSessionId timeout
  | .send id ok => send s id ok
  | .checkTask id => checkTask s id
  | .runTask id => runTask s id
  | .recvMessage msg => recvMessage s msg

abbrev run (events : List Event) : State := Runs.exec step init events

/-! ### The contract -/

/-- The answers to a command. -/
def State.answersTo (id : ℕ) : List Answer := s.answers.filter (·.command = some id)

/-- The timeout of a command is still to answer it. -/
def State.Due (id : ℕ) : Prop :=
  (s.tasks id).phase = .running ∨ (s.tasks id).phase = .waiting ∧ (s.tasks id).cancelled = false

instance (s : State) (id : ℕ) : Decidable (s.Due id) := by unfold State.Due; infer_instance

/-- A command has one answer, on its own session, or its timeout is still to give it one. -/
structure State.Answered (s : State) (id : ℕ) : Prop where
  once : (s.answersTo id).length + (if s.Due id then 1 else 0) = 1
  session : ∀ a ∈ s.answersTo id, a.clientSessionId = (s.tasks id).clientSessionId

def AnsweredOnce : Prop := ∀ id < s.nextCommandId, s.Answered id

/-- Only commands that are not answered are filed. -/
def FilesUnanswered : Prop := ∀ id ∈ s.timeoutTasks, s.answersTo id = []

/-- A response that decrypts comes from a node that executed the command its header names, and is for the session
of that command. The commands this node sends are answered by versions that carry an id. -/
def Genuine : Event → Prop
  | .recvMessage msg => ∀ rep ∈ msg.contents, msg.version ≠ .v1 ∧ msg.id < s.nextCommandId ∧
      rep.clientSessionId = (s.tasks msg.id).clientSessionId
  | _ => True

/-- Sends succeed, undecryptable responses do not carry the id of a command that is filed, and responses come
before the timeout begins to run. -/
def Prompt : Event → Prop
  | .send _ ok => ok = true
  | .recvMessage msg => msg.version ≠ .v1 → msg.id ∈ s.timeoutTasks →
      msg.contents.isSome ∧ (s.tasks msg.id).phase = .waiting
  | _ => True

/-- No timeout runs. -/
def NoTimeout : Event → Prop
  | .runTask id => (s.tasks id).phase ≠ .running
  | _ => True

instance (s : State) (x : Event) : Decidable (Genuine s x) := by cases x <;> unfold Genuine <;> infer_instance

instance (s : State) (x : Event) : Decidable (Prompt s x) := by cases x <;> unfold Prompt <;> infer_instance

instance (s : State) (x : Event) : Decidable (NoTimeout s x) := by cases x <;> unfold NoTimeout <;> infer_instance

/-! ### One step -/

section
variable (s : State) {s' : State} {id : ℕ} {msg : ResponseMsg} {j : ℕ}

@[simp] theorem tasks_setTask_self (id : ℕ) (task : TimeoutTask) : (s.setTask id task).tasks id = task :=
  update_self _ _ _

@[simp] theorem tasks_answer (command : Option ℕ) (clientSessionId : ℕ) (reply : Reply) :
    (s.answer command clientSessionId reply).tasks = s.tasks := rfl

theorem answersTo_answer_self (id clientSessionId : ℕ) (reply : Reply) :
    (s.answer (some id) clientSessionId reply).answersTo id =
      s.answersTo id ++ [⟨some id, clientSessionId, reply⟩] := by
  simp [State.answersTo, State.answer]

theorem answersTo_answer_of_ne (hj : j ≠ id) (clientSessionId : ℕ) (reply : Reply) :
    (s.answer (some id) clientSessionId reply).answersTo j = s.answersTo j := by
  simp [State.answersTo, State.answer, hj.symm]

variable {s}

theorem State.Answered.congr (h : s.Answered id) (hanswers : s'.answersTo id = s.answersTo id)
    (hdue : s'.Due id ↔ s.Due id) (hsession : (s'.tasks id).clientSessionId = (s.tasks id).clientSessionId) :
    s'.Answered id := by
  refine ⟨?_, ?_⟩
  · simpa only [hanswers, hdue] using h.once
  · simpa only [hanswers, hsession] using h.session

theorem State.Answered.congr_task (h : s.Answered id) (hanswers : s'.answersTo id = s.answersTo id)
    (htask : s'.tasks id = s.tasks id) : s'.Answered id :=
  h.congr hanswers (by simp only [State.Due, htask]) (by rw [htask])

theorem State.Answered.nil (h : s.Answered id) (hdue : s.Due id) : s.answersTo id = [] := by
  have honce := h.once
  rw [if_pos hdue] at honce
  exact eq_nil_of_length_eq_zero (by omega)

/-- The answer that was due has been given. -/
theorem State.Answered.give {a : Answer} (h : s.Answered id) (hdue : s.Due id) (hdue' : ¬s'.Due id)
    (hanswers : s'.answersTo id = s.answersTo id ++ [a]) (ha : a.clientSessionId = (s'.tasks id).clientSessionId) :
    s'.Answered id := by
  rw [h.nil hdue, nil_append] at hanswers
  refine ⟨?_, fun b hb => ?_⟩
  · rw [hanswers, if_neg hdue', length_singleton]
  · rw [hanswers] at hb
    rw [mem_singleton.1 hb, ha]

theorem recvMessage_of_ne (s : State) (hversion : msg.version ≠ .v1) :
    recvMessage s msg = if msg.id ∈ s.timeoutTasks then
      recvResponse { s.setTask msg.id { s.tasks msg.id with cancelled := true } with
        timeoutTasks := s.timeoutTasks.filter (· ≠ msg.id) } (some msg.id) msg.contents
      else s := by
  obtain ⟨version, id, contents⟩ := msg
  cases version with
  | v1 => exact absurd rfl hversion
  | v2 => rfl
  | v3 => rfl

/-- As long as no timeout has run, a task that is done was cancelled. -/
def Quiet (s : State) : Prop := ∀ id < s.nextCommandId, (s.tasks id).phase = .done → (s.tasks id).cancelled = true

theorem Quiet.update (h : Quiet s) {task : TimeoutTask} (htask : task.phase = .done → task.cancelled = true)
    (hnext : s'.nextCommandId ≤ s.nextCommandId ∨ s'.nextCommandId = s.nextCommandId + 1 ∧ id = s.nextCommandId)
    (htasks : s'.tasks = update s.tasks id task) : Quiet s' := by
  intro j hj
  rw [htasks]
  by_cases hne : j = id
  · subst hne
    rwa [update_self]
  · rw [update_of_ne hne]
    exact h j (by omega)

theorem Quiet.next (h : Quiet s) (x : Event) (hx : NoTimeout s x) : Quiet (step s x) := by
  cases x with
  | forwardCommand node clientSessionId timeout => exact h.update (by rintro ⟨⟩) (.inr ⟨rfl, rfl⟩) rfl
  | send id ok =>
    simp only [step, send]
    split_ifs <;> exact h
  | checkTask id =>
    simp only [step, checkTask]
    by_cases hwaiting : id < s.nextCommandId ∧ (s.tasks id).phase = .waiting
    · rw [if_pos hwaiting]
      refine h.update ?_ (.inl (Nat.le_refl _)) rfl
      cases (s.tasks id).cancelled <;> simp
    · rw [if_neg hwaiting]
      exact h
  | runTask id =>
    have hrunning : ¬(id < s.nextCommandId ∧ (s.tasks id).phase = .running) := fun hr => hx hr.2
    simp only [step, runTask, if_neg hrunning]
    exact h
  | recvMessage msg =>
    have hrecv : ∀ (s' : State) (command : Option ℕ), Quiet s' → Quiet (recvResponse s' command msg.contents) := by
      intro s' command hs'
      cases msg.contents with
      | none => exact hs'
      | some rep => exact hs'
    simp only [step]
    by_cases hversion : msg.version = .v1
    · simp only [recvMessage, hversion]
      exact hrecv _ _ h
    · rw [recvMessage_of_ne s hversion]
      split_ifs
      · exact hrecv _ _ (h.update (fun _ => rfl) (.inl (Nat.le_refl _)) rfl)
      · exact h

/-- Commands are filed until they are cancelled, and answers belong to commands. -/
structure Inv (s : State) : Prop where
  answered : AnsweredOnce s
  filed : ∀ id, id ∈ s.timeoutTasks ↔ id < s.nextCommandId ∧ (s.tasks id).cancelled = false
  known : ∀ a ∈ s.answers, ∀ id ∈ a.command, id < s.nextCommandId

theorem inv_init : Inv init where
  answered := by rintro id ⟨⟩
  filed := by simp [init]
  known := by rintro a ⟨⟩

variable (h : Inv s)
include h

theorem Inv.forwardCommand (node : String) (clientSessionId timeout : ℕ) :
    Inv (forwardCommand s node clientSessionId timeout) := by
  have hother : ∀ id ≠ s.nextCommandId,
      (Forwarder.forwardCommand s node clientSessionId timeout).tasks id = s.tasks id :=
    fun id hid => update_of_ne hid _ _
  have hself : (Forwarder.forwardCommand s node clientSessionId timeout).tasks s.nextCommandId =
      ⟨node, clientSessionId, timeout, false, .waiting⟩ := update_self _ _ _
  refine ⟨fun id hid => ?_, fun id => ?_, fun a ha id hid => Nat.lt_succ_of_lt (h.known a ha id hid)⟩
  · rcases Nat.lt_succ_iff_lt_or_eq.1 hid with hlt | rfl
    · exact (h.answered id hlt).congr_task rfl (hother id (Nat.ne_of_lt hlt))
    · -- no answer has its id yet
      have hnone : (Forwarder.forwardCommand s node clientSessionId timeout).answersTo s.nextCommandId = [] :=
        filter_eq_nil_iff.2 fun a ha hcommand =>
          absurd (h.known a ha _ (of_decide_eq_true hcommand)) (Nat.lt_irrefl _)
      refine ⟨?_, by simp [hnone]⟩
      rw [hnone, if_pos (.inr (by rw [hself]; exact ⟨rfl, rfl⟩)), length_nil]
  · show id ∈ s.timeoutTasks ++ [s.nextCommandId] ↔ id < s.nextCommandId + 1 ∧ _
    rw [mem_append, mem_singleton, h.filed]
    by_cases hid : id = s.nextCommandId
    · subst hid
      simp [hself]
    · rw [hother id hid]
      have : id < s.nextCommandId + 1 ↔ id < s.nextCommandId := by omega
      simp [hid, this]

/-- A step on behalf of one command. -/
theorem Inv.change (hnext : s'.nextCommandId = s.nextCommandId) (hid : id < s.nextCommandId)
    (hother : ∀ j ≠ id, s'.tasks j = s.tasks j ∧ s'.answersTo j = s.answersTo j ∧
      (j ∈ s'.timeoutTasks ↔ j ∈ s.timeoutTasks))
    (hself : s'.Answered id) (hfiled : id ∈ s'.timeoutTasks ↔ (s'.tasks id).cancelled = false)
    (hknown : ∀ a ∈ s'.answers, a ∈ s.answers ∨ a.command = some id) : Inv s' := by
  refine ⟨fun j hj => ?_, fun j => ?_, fun a ha j hj => ?_⟩
  · by_cases hne : j = id
    · exact hne ▸ hself
    · exact (h.answered j (hnext ▸ hj)).congr_task (hother j hne).2.1 (hother j hne).1
  · by_cases hne : j = id
    · subst hne
      rw [hfiled, hnext]
      exact (and_iff_right hid).symm
    · rw [(hother j hne).2.2, (hother j hne).1, hnext]
      exact h.filed j
  · rw [hnext]
    rcases hknown a ha with ha | ha
    · exact h.known a ha j hj
    · rw [Option.mem_def, ha] at hj
      cases hj
      exact hid

theorem Inv.checkTask (id : ℕ) : Inv (checkTask s id) := by
  by_cases hwaiting : id < s.nextCommandId ∧ (s.tasks id).phase = .waiting
  · have hanswered := h.answered id hwaiting.1
    simp only [Forwarder.checkTask, if_pos hwaiting]
    refine h.change rfl hwaiting.1 (fun j hj => ⟨update_of_ne hj _ _, rfl, .rfl⟩) ?_ ?_ fun _ => .inl
    · -- a cancelled task ends here, another one still answers
      refine hanswered.congr rfl ?_ (by rw [tasks_setTask_self])
      simp only [State.Due, tasks_setTask_self, hwaiting.2]
      cases (s.tasks id).cancelled <;> simp
    · rw [tasks_setTask_self]
      exact (h.filed id).trans (and_iff_right hwaiting.1)
  · simp only [Forwarder.checkTask, if_neg hwaiting]
    exact h

theorem Inv.runTask (id : ℕ) : Inv (runTask s id) := by
  by_cases hrunning : id < s.nextCommandId ∧ (s.tasks id).phase = .running
  · simp only [Forwarder.runTask, if_pos hrunning]
    refine h.change rfl hrunning.1 (fun j hj => ⟨update_of_ne hj _ _, answersTo_answer_of_ne _ hj _ _, .rfl⟩)
      ?_ ?_ fun a ha => ?_
    · exact (h.answered id hrunning.1).give (.inl hrunning.2) (by simp [State.Due]) (answersTo_answer_self _ _ _ _)
        (by simp)
    · rw [tasks_answer, tasks_setTask_self]
      exact (h.filed id).trans (and_iff_right hrunning.1)
    · rcases mem_append.1 ha with ha | ha
      · exact .inl ha
      · exact .inr (by rw [mem_singleton.1 ha])
  · simp only [Forwarder.runTask, if_neg hrunning]
    exact h

theorem Inv.recvMessage (hgenuine : Genuine s (.recvMessage msg))
    (hprompt : Prompt s (.recvMessage msg)) : Inv (recvMessage s msg) := by
  obtain ⟨version, id, contents⟩ := msg
  by_cases hv1 : version = .v1
  · -- a response of version 1 does not decrypt
    cases contents with
    | none => simpa [Forwarder.recvMessage, hv1, recvResponse] using h
    | some rep => exact absurd hv1 (hgenuine rep rfl).1
  · by_cases hmem : id ∈ s.timeoutTasks
    · obtain ⟨hsome, hwaiting⟩ := hprompt hv1 hmem
      obtain ⟨rep, rfl⟩ := Option.isSome_iff_exists.1 hsome
      obtain ⟨-, hid, hsession⟩ := hgenuine rep rfl
      have hcancelled := ((h.filed id).1 hmem).2
      rw [recvMessage_of_ne s hv1, if_pos hmem]
      simp only [recvResponse] at hid hsession hwaiting ⊢
      refine h.change rfl hid (fun j hj => ⟨update_of_ne hj _ _, answersTo_answer_of_ne _ hj _ _, ?_⟩) ?_ ?_
        fun a ha => ?_
      · simp [State.answer, hj]
      · exact (h.answered id hid).give (.inr ⟨hwaiting, hcancelled⟩) (by simp [State.Due, State.setTask, hwaiting])
          (answersTo_answer_self _ _ _ _) (by simpa [State.setTask] using hsession)
      · simp [State.setTask, State.answer]
      · rcases mem_append.1 ha with ha | ha
        · exact .inl ha
        · exact .inr (by rw [mem_singleton.1 ha])
    · rw [recvMessage_of_ne s hv1, if_neg hmem]
      exact h

theorem Inv.next (x : Event) (hx : Genuine s x ∧ Prompt s x) : Inv (step s x) := by
  cases x with
  | forwardCommand node clientSessionId timeout => exact h.forwardCommand node clientSessionId timeout
  | send id ok =>
    obtain rfl : ok = true := hx.2
    simp only [step, send]
    split_ifs
    · exact ⟨fun j hj => (h.answered j hj).congr_task rfl rfl, h.filed, h.known⟩
    · exact h
  | checkTask id => exact h.checkTask id
  | runTask id => exact h.runTask id
  | recvMessage msg => exact h.recvMessage hx.1 hx.2

theorem Inv.filesUnanswered (hquiet : Quiet s) : FilesUnanswered s := by
  intro id hid
  obtain ⟨hlt, hcancelled⟩ := (h.filed id).1 hid
  refine (h.answered id hlt).nil ?_
  cases hphase : (s.tasks id).phase with
  | waiting => exact .inr ⟨hphase, hcancelled⟩
  | running => exact .inl hphase
  | done =>
    rw [hquiet id hlt hphase] at hcancelled
    cases hcancelled

end

/-- **A forwarded request is answered once** in every prompt run; if moreover no timeout runs, only unanswered
commands are filed. -/
theorem answeredOnce_of_prompt (events : List Event) (hgenuine : Runs.Along step Genuine init events)
    (hprompt : Runs.Along step Prompt init events) :
    AnsweredOnce (run events) ∧ (Runs.Along step NoTimeout init events → FilesUnanswered (run events)) := by
  have hinv : Inv (run events) :=
    Runs.exec_induction (I := Inv) (fun s x hs hx => hs.next x hx) inv_init (Runs.along_and.2 ⟨hgenuine, hprompt⟩)
  refine ⟨hinv.answered, fun hquiet => hinv.filesUnanswered ?_⟩
  exact Runs.exec_induction (I := Quiet) (fun s x hs hx => hs.next x hx) (by rintro id ⟨⟩) hquiet

/-- One command is answered by its response, the other one by its timeout. -/
def answered : List Event :=
  [.forwardCommand "n0" 7 3000, .send 0 true, .forwardCommand "n0" 8 3000, .recvMessage ⟨.v3, 0, some ⟨7, [1], false⟩⟩,
    .send 1 true, .recvMessage ⟨.v3, 0, none⟩, .checkTask 1, .runTask 1, .checkTask 0]

theorem answeredOnce_of_prompt_answered :
    ((run answered).answers.map (·.clientSessionId)) = [7, 8] ∧ AnsweredOnce (run answered) ∧
      FilesUnanswered (run (answered.take 6)) := by
  refine ⟨by decide, (answeredOnce_of_prompt answered (by decide) (by decide)).1, ?_⟩
  exact (answeredOnce_of_prompt (answered.take 6) (by decide) (by decide)).2 (by decide)

/-- The response comes after the timeout error. -/
def late : List Event :=
  [.forwardCommand "n0" 7 3000, .send 0 true, .checkTask 0, .runTask 0, .recvMessage ⟨.v3, 0, some ⟨7, [1], false⟩⟩]

/-- A message that the host made up cancels the timeout. -/
def forged : List Event :=
  [.forwardCommand "n0" 7 3000, .send 0 true, .recvMessage ⟨.v3, 0, none⟩, .checkTask 0]

/-- The timeout runs after the send has failed. -/
def unsent : List Event :=
  [.forwardCommand "n0" 7 3000, .send 0 false, .checkTask 0, .runTask 0]

/-- The client gets two answers, none and two; in the first run the command stays filed when it is answered. -/
theorem not_answeredOnce_late :
    Runs.Along step Genuine init late ∧ ¬AnsweredOnce (run late) ∧ ¬FilesUnanswered (run (late.take 4)) ∧
      Runs.Along step Genuine init forged ∧ ¬AnsweredOnce (run forged) ∧
      Runs.Along step Genuine init unsent ∧ ¬AnsweredOnce (run unsent) := by
  refine ⟨by decide, fun h => ?_, fun h => ?_, by decide, fun h => ?_, by decide, fun h => ?_⟩
  · exact absurd (h 0 (by decide)).once (by decide)
  · exact absurd (h 0 (by decide)) (by decide)
  · exact absurd (h 0 (by decide)).once (by decide)
  · exact absurd (h 0 (by decide)).once (by decide)

end Ccf.Node.Forwarder
