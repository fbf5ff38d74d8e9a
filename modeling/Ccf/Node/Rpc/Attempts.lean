import Ccf.Kv.Store

/-! # The attempts of a request (`src/node/rpc/frontend.h`, `src/http/http_rpc_context.h`)

A request is executed up to thirty times: if its transaction conflicts with another one or with a compaction, the
response is reset and the handler runs again on a new state. The context is the same for all attempts, and
`reset_response` resets the headers, the body, the status, the choice to apply writes and the callback for the commit,
but neither the claims digest nor the trailers (`process_eq_fresh`). -/

namespace Ccf.Node.Attempts

open Kv (TxID)

/-! ### The context -/

abbrev HeaderMap := String → Option String

inductive Body where
  | bytes (data : List UInt8)
  | error (code msg : String)
deriving DecidableEq

/-- `RespondOnCommitInfo`, with the write set in place of its digest. -/
structure RespondOnCommitInfo (δ ω φ : Type*) where
  txId : TxID
  committedFunc : φ
  writeSet : ω
  commitEvidence : String
  claimsDigest : Option δ

/-- The response side of `HttpRpcContext`; `head` says that the request is a `HEAD` request. -/
structure Context (δ ω φ : Type*) where
  head : Bool
  responseHeaders : HeaderMap
  responseTrailers : HeaderMap
  responseBody : Body
  responseStatus : ℕ
  explicitApplyWrites : Option Bool
  claims : Option δ
  consensusCommittedFunc : Option φ
  respondOnCommit : Option (RespondOnCommitInfo δ ω φ)

/-- What a handler can do to the context. -/
inductive Op (δ φ : Type*) where
  | setResponseStatus (status : ℕ)
  | setResponseHeader (name value : String)
  | clearResponseHeaders
  | setResponseTrailer (name value : String)
  | setResponseBody (body : Body)
  | setError (status : ℕ) (code msg : String)
  | setApplyWrites (apply : Bool)
  | setClaimsDigest (digest : δ)
  | setConsensusCommittedFunction (func : φ)

variable {σ δ ω φ : Type*}

namespace Context

def fresh (head : Bool) : Context δ ω φ where
  head := head
  responseHeaders := fun _ => none
  responseTrailers := fun _ => none
  responseBody := .bytes []
  responseStatus := 200
  explicitApplyWrites := none
  claims := none
  consensusCommittedFunc := none
  respondOnCommit := none

variable (ctx : Context δ ω φ)

def setResponseHeader (name value : String) : Context δ ω φ :=
  { ctx with responseHeaders := Function.update ctx.responseHeaders name (some value) }

/-- Responses to `HEAD` requests have no body. -/
def setResponseBody (body : Body) : Context δ ω φ :=
  { ctx with responseBody := if ctx.head then ctx.responseBody else body }

def setError (status : ℕ) (code msg : String) : Context δ ω φ :=
  ({ ctx with responseStatus := status }.setResponseBody (.error code msg)).setResponseHeader
    "content-type" "application/json"

def clearResponseHeaders : Context δ ω φ := { ctx with responseHeaders := fun _ => none }

def resetResponse : Context δ ω φ :=
  { ctx with
    responseHeaders := fun _ => none
    responseBody := .bytes []
    responseStatus := 200
    explicitApplyWrites := none
    consensusCommittedFunc := none }

def shouldApplyWrites : Bool :=
  match ctx.explicitApplyWrites with
  | some apply => apply
  | none => 200 ≤ ctx.responseStatus ∧ ctx.responseStatus < 300

def apply (ctx : Context δ ω φ) : Op δ φ → Context δ ω φ
  | .setResponseStatus status => { ctx with responseStatus := status }
  | .setResponseHeader name value => ctx.setResponseHeader name value
  | .clearResponseHeaders => ctx.clearResponseHeaders
  | .setResponseTrailer name value =>
    { ctx with responseTrailers := Function.update ctx.responseTrailers name (some value) }
  | .setResponseBody body => ctx.setResponseBody body
  | .setError status code msg => ctx.setError status code msg
  | .setApplyWrites apply => { ctx with explicitApplyWrites := some apply }
  | .setClaimsDigest digest => { ctx with claims := some digest }
  | .setConsensusCommittedFunction func => { ctx with consensusCommittedFunc := some func }

def applyAll (ops : List (Op δ φ)) : Context δ ω φ := ops.foldl apply ctx

end Context

/-! ### The loop -/

/-- What a handler does on a state; an exception other than a conflict is its status, code and text. -/
structure Execution (δ ω φ : Type*) where
  ops : List (Op δ φ)
  writes : ω
  exception : Option (ℕ × String × String)

/-- An endpoint: its handler, and its function for the local commit, which may throw. -/
structure Endpoint (σ δ ω φ : Type*) where
  handler : σ → Execution δ ω φ
  locallyCommittedFunc : TxID → List (Op δ φ) × Option String

inductive CommitResult where
  | success (txId : Option TxID) (commitEvidence : String)
  | failConflict
  | failNoReplicate
deriving DecidableEq

/-- What one attempt meets. `rejected` is what the context is given where the request is rejected, redirected or
forwarded before it is executed, `compacted` the number of operations after which the handler meets a compaction,
and `viewChange` the message of a session that has seen another view. -/
structure Attempt (σ δ φ : Type*) where
  atMaxCapacity : Bool
  isOpen : Bool
  rejected : Option (List (Op δ φ))
  state : σ
  compacted : Option ℕ
  viewChange : Option String
  result : CommitResult

structure Commit (δ ω : Type*) where
  writes : ω
  claims : Option δ

structure Result (δ ω φ : Type*) where
  ctx : Context δ ω φ
  committed : List (Commit δ ω)

/-- The end of an attempt: another one, or the result. -/
inductive Attempted (δ ω φ : Type*) where
  | retry (ctx : Context δ ω φ)
  | done (result : Result δ ω φ)

/-- `tx_id.to_str()`. -/
def txIdStr (txId : TxID) : String := s!"{txId.view}.{txId.seqno}"

def defaultLocallyCommittedFunc (ctx : Context δ ω φ) (txId : TxID) : Context δ ω φ :=
  ctx.setResponseHeader "x-ms-ccf-transaction-id" (txIdStr txId)

variable (endpoint : Endpoint σ δ ω φ) (ctx : Context δ ω φ)

def executeEndpointLocallyCommitted (txId : TxID) : Context δ ω φ :=
  match endpoint.locallyCommittedFunc txId with
  | (ops, none) => ctx.applyAll ops
  | (ops, some what) => (defaultLocallyCommittedFunc (ctx.applyAll ops).clearResponseHeaders txId).setError 500
      "InternalError" s!"Failed to execute local commit handler func: {what}"

/-- The branch of a commit that succeeds. -/
def succeed (writes : ω) (txId : Option TxID) (commitEvidence : String) : Result δ ω φ :=
  let committedFunc := ctx.consensusCommittedFunc
  let committed := [⟨writes, ctx.claims⟩]
  match txId with
  | none => ⟨ctx, committed⟩
  | some txId =>
    let ctx := executeEndpointLocallyCommitted endpoint ctx txId
    match committedFunc with
    | none => ⟨ctx, committed⟩
    | some func =>
      ⟨{ ctx with respondOnCommit := some ⟨txId, func, writes, commitEvidence, ctx.claims⟩ }, committed⟩

/-- The part of an attempt that follows the execution of the endpoint. -/
def finish (a : Attempt σ δ φ) : Attempted δ ω φ :=
  let execution := endpoint.handler a.state
  match execution.exception, a.viewChange with
  | some (status, code, msg), _ => .done ⟨ctx.clearResponseHeaders.setError status code msg, []⟩
  | none, some msg => .done ⟨ctx.setError 500 "SessionConsistencyLost" msg, []⟩
  | none, none =>
    if !ctx.shouldApplyWrites then .done ⟨ctx, []⟩
    else
      match a.result with
      | .success txId commitEvidence => .done (succeed endpoint ctx execution.writes txId commitEvidence)
      | .failConflict => .retry ctx
      | .failNoReplicate => .done ⟨ctx.clearResponseHeaders.setError 503 "TransactionReplicationFailed"
          "Transaction failed to replicate.", []⟩

/-- The operations that the endpoint carries out in an attempt. -/
def Attempt.executed (a : Attempt σ δ φ) (endpoint : Endpoint σ δ ω φ) : List (Op δ φ) :=
  match a.compacted with
  | some k => (endpoint.handler a.state).ops.take k
  | none => (endpoint.handler a.state).ops

def execute (a : Attempt σ δ φ) : Attempted δ ω φ :=
  let ctx := ctx.applyAll (a.executed endpoint)
  match a.compacted with
  | some _ => .retry ctx
  | none => finish endpoint ctx a

/-- The effects of earlier attempts are dropped. -/
def started (attempts : ℕ) : Context δ ω φ := if attempts > 0 then ctx.resetResponse else ctx

/-- The body of the loop, after `attempts` attempts. -/
def attempt (attempts : ℕ) (a : Attempt σ δ φ) : Attempted δ ω φ :=
  if a.atMaxCapacity then
    .done ⟨ctx.setError 503 "TooManyPendingTransactions" "Too many transactions pending commit on the service.", []⟩
  else
    let ctx := started ctx attempts
    if !a.isOpen then .done ⟨ctx.setError 404 "FrontendNotOpen" "Frontend is not open.", []⟩
    else
      match a.rejected with
      | some ops => .done ⟨ctx.applyAll ops, []⟩
      | none => execute endpoint ctx a

def maxAttempts : ℕ := 30

def exceedLimit : Context δ ω φ :=
  (ctx.clearResponseHeaders.setError 503 "TransactionCommitAttemptsExceedLimit"
    s!"Transaction continued to conflict after {maxAttempts} attempts. Retry later.").setResponseHeader
    "retry-after" "3"

/-- `process_command_inner`; `none` where the description of the attempts ends before the loop does. -/
def processCommandInner (endpoint : Endpoint σ δ ω φ) (ctx : Context δ ω φ) (attempts : ℕ) :
    List (Attempt σ δ φ) → Option (Result δ ω φ)
  | [] => if attempts < maxAttempts then none else some ⟨exceedLimit ctx, []⟩
  | a :: rest =>
    if attempts < maxAttempts then
      match attempt endpoint ctx attempts a with
      | .retry ctx => processCommandInner endpoint ctx (attempts + 1) rest
      | .done result => some result
    else some ⟨exceedLimit ctx, []⟩

/-! ### What a reset leaves -/

/-- The claims digest that an operation sets. -/
def Op.claims : Op δ φ → Option δ
  | .setClaimsDigest digest => some digest
  | _ => none

/-- The value that an operation sets a trailer to. -/
def Op.trailer (name : String) : Op δ φ → Option String
  | .setResponseTrailer name' value => if name' = name then some value else none
  | _ => none

/-- The last value that operations set something to. -/
def lastSet {β : Type*} (value : Op δ φ → Option β) : List (Op δ φ) → Option β
  | [] => none
  | op :: ops => (lastSet value ops).or (value op)

def Context.withResidue (claims : Option δ) (trailers : HeaderMap) : Context δ ω φ :=
  { ctx with claims := claims, responseTrailers := trailers }

/-- What operations leave of the claims and the trailers, whatever the rest of the context is. -/
theorem applyAll_withResidue (claims : Option δ) (trailers : HeaderMap) (ops : List (Op δ φ)) :
    (ctx.withResidue claims trailers).applyAll ops =
      (ctx.applyAll ops).withResidue ((lastSet Op.claims ops).or claims)
        fun name => (lastSet (Op.trailer name) ops).or (trailers name) := by
  induction ops generalizing ctx claims trailers with
  | nil => rfl
  | cons op ops ih =>
    have hop : (ctx.withResidue claims trailers).apply op =
        (ctx.apply op).withResidue (op.claims.or claims) fun name => (op.trailer name).or (trailers name) := by
      cases op with
      | setResponseTrailer name value =>
        have htrailers : Function.update trailers name (some value) =
            fun name' => (Op.trailer (δ := δ) (φ := φ) name' (.setResponseTrailer name value)).or (trailers name') := by
          funext name'
          by_cases hname : name' = name
          · simp [hname, Op.trailer]
          · simp [Function.update_of_ne hname, Op.trailer, Ne.symm hname]
        simp only [Context.apply, Context.withResidue, htrailers]
        rfl
      | _ => rfl
    show ((ctx.withResidue claims trailers).apply op).applyAll ops = _
    rw [hop, ih]
    simp only [lastSet, Option.or_assoc]
    rfl

variable {ops : List (Op δ φ)} {head : Bool}

theorem claims_applyAll : (ctx.applyAll ops).claims = (lastSet Op.claims ops).or ctx.claims := by
  have h : ctx.applyAll ops = _ := applyAll_withResidue ctx ctx.claims ctx.responseTrailers ops
  rw [h]
  rfl

theorem trailers_applyAll (name : String) :
    (ctx.applyAll ops).responseTrailers name = (lastSet (Op.trailer name) ops).or (ctx.responseTrailers name) := by
  have h : ctx.applyAll ops = _ := applyAll_withResidue ctx ctx.claims ctx.responseTrailers ops
  rw [h]
  rfl

/-- Operations change nothing that a reset leaves but the claims and the trailers. -/
theorem resetResponse_applyAll : (ctx.applyAll ops).resetResponse =
    ctx.resetResponse.withResidue (ctx.applyAll ops).claims (ctx.applyAll ops).responseTrailers := by
  induction ops generalizing ctx with
  | nil => rfl
  | cons op ops ih =>
    have hop : (ctx.apply op).resetResponse =
        ctx.resetResponse.withResidue (ctx.apply op).claims (ctx.apply op).responseTrailers := by
      cases op <;> rfl
    show ((ctx.apply op).applyAll ops).resetResponse = _
    rw [ih, hop]
    rfl

/-! ### The local commit -/

/-- The operations of the function for the local commit. -/
def locallyCommittedOps : Option TxID → List (Op δ φ)
  | some txId => (endpoint.locallyCommittedFunc txId).1
  | none => []

def locallyCommit : Option TxID → Context δ ω φ
  | some txId => executeEndpointLocallyCommitted endpoint ctx txId
  | none => ctx

section
variable {endpoint ctx} {ctx' : Context δ ω φ} {writes : ω} {txId : Option TxID}
  {commitEvidence : String} {claims claims' : Option δ} {trailers trailers' : HeaderMap}

theorem locallyCommit_withResidue : locallyCommit endpoint (ctx.withResidue claims trailers) txId =
    (locallyCommit endpoint ctx txId).withResidue ((lastSet Op.claims (locallyCommittedOps endpoint txId)).or claims)
      fun name => (lastSet (Op.trailer name) (locallyCommittedOps endpoint txId)).or (trailers name) := by
  cases txId with
  | none => rfl
  | some txId =>
    simp only [locallyCommit, locallyCommittedOps, executeEndpointLocallyCommitted]
    obtain ⟨ops, _ | what⟩ := endpoint.locallyCommittedFunc txId
    · exact applyAll_withResidue ctx claims trailers ops
    · simp only [applyAll_withResidue]
      rfl

theorem succeed_committed : (succeed endpoint ctx writes txId commitEvidence).committed = [⟨writes, ctx.claims⟩] := by
  unfold succeed
  cases txId with
  | none => rfl
  | some txId => cases ctx.consensusCommittedFunc <;> rfl

theorem succeed_trailers : (succeed endpoint ctx writes txId commitEvidence).ctx.responseTrailers =
    (locallyCommit endpoint ctx txId).responseTrailers := by
  unfold succeed
  cases txId with
  | none => rfl
  | some txId => cases ctx.consensusCommittedFunc <;> rfl

theorem succeed_congr (hfunc : ctx.consensusCommittedFunc = ctx'.consensusCommittedFunc)
    (hclaims : ctx.claims = ctx'.claims) (hlocal : locallyCommit endpoint ctx txId = locallyCommit endpoint ctx' txId) :
    succeed endpoint ctx writes txId commitEvidence = succeed endpoint ctx' writes txId commitEvidence := by
  cases txId with
  | none => rw [show ctx = ctx' from hlocal]
  | some txId =>
    simp only [locallyCommit] at hlocal
    simp only [succeed, hfunc, hclaims, hlocal]

/-- What has been left shows in the result: the claims in what is committed, the trailers unless the function for the
local commit sets them. -/
theorem succeed_withResidue_iff :
    succeed endpoint (ctx.withResidue claims trailers) writes txId commitEvidence =
        succeed endpoint (ctx.withResidue claims' trailers') writes txId commitEvidence ↔
      claims = claims' ∧ ∀ name, (lastSet (Op.trailer name) (locallyCommittedOps endpoint txId)).or (trailers name) =
        (lastSet (Op.trailer name) (locallyCommittedOps endpoint txId)).or (trailers' name) := by
  constructor
  · intro h
    have hcommitted := congrArg Result.committed h
    have htrailers := congrArg (·.ctx.responseTrailers) h
    simp only [succeed_committed, succeed_trailers, locallyCommit_withResidue] at hcommitted htrailers
    exact ⟨(Commit.mk.inj (List.cons.inj hcommitted).1).2, congrFun htrailers⟩
  · rintro ⟨rfl, htrailers⟩
    refine succeed_congr rfl rfl ?_
    rw [locallyCommit_withResidue, locallyCommit_withResidue, funext htrailers]

end

/-! ### The attempts of a request -/

/-- The attempt ends in a conflict. -/
def Attempt.Conflicts (a : Attempt σ δ φ) : Prop := a.compacted.isSome ∨ a.result = .failConflict

/-- The operations of the function for the local commit in an attempt. -/
def Attempt.local (a : Attempt σ δ φ) (endpoint : Endpoint σ δ ω φ) : List (Op δ φ) :=
  match a.result with
  | .success txId _ => locallyCommittedOps endpoint txId
  | _ => []

/-- Whatever is left of claims and trailers, the attempt overwrites it: the claims before the commit, the trailers
before the response. -/
def Overwrites (a : Attempt σ δ φ) (claims : Option δ) (trailers : HeaderMap) : Prop :=
  (claims.isSome → (lastSet Op.claims (a.executed endpoint)).isSome) ∧
    ∀ name, (trailers name).isSome →
      ((lastSet (Op.trailer name) (a.local endpoint)).or (lastSet (Op.trailer name) (a.executed endpoint))).isSome

/-- The attempt sets the claims and the trailers that an earlier one sets. -/
def Covers (e a : Attempt σ δ φ) : Prop :=
  Overwrites endpoint a (lastSet Op.claims (e.executed endpoint))
    fun name => lastSet (Op.trailer name) (e.executed endpoint)

theorem or_eq_or_none_iff {β : Type*} {x y : Option β} : x.or y = x.or none ↔ (y.isSome → x.isSome) := by
  cases x <;> cases y <;> simp

section
variable {endpoint ctx} {ctx' : Context δ ω φ} {attempts : ℕ} {a : Attempt σ δ φ}
  {r : Result δ ω φ}

theorem overwrites_or {claims claims' : Option δ} {trailers trailers' : HeaderMap} :
    Overwrites endpoint a (claims.or claims') (fun name => (trailers name).or (trailers' name)) ↔
      Overwrites endpoint a claims trailers ∧ Overwrites endpoint a claims' trailers' := by
  simp only [Overwrites, Option.isSome_or, Bool.or_eq_true, or_imp, forall_and]
  exact and_and_and_comm

theorem finish_retry (h : finish endpoint ctx a = .retry ctx') : a.result = .failConflict ∧ ctx' = ctx := by
  unfold finish at h
  cases hexception : (endpoint.handler a.state).exception with
  | some exception => simp [hexception] at h
  | none =>
    cases hview : a.viewChange with
    | some msg => simp [hexception, hview] at h
    | none =>
      simp only [hexception, hview] at h
      split_ifs at h
      cases hresult : a.result with
      | success txId commitEvidence | failNoReplicate => simp [hresult] at h
      | failConflict =>
        simp only [hresult, Attempted.retry.injEq] at h
        exact ⟨rfl, h.symm⟩

/-- What is committed is the result of `succeed`, also from any other context that applies the writes. -/
theorem finish_done (h : finish endpoint ctx a = .done r) (hcommit : r.committed ≠ []) :
    ∃ txId commitEvidence, a.result = .success txId commitEvidence ∧
      r = succeed endpoint ctx (endpoint.handler a.state).writes txId commitEvidence ∧
      ∀ ctx' : Context δ ω φ, ctx'.shouldApplyWrites = ctx.shouldApplyWrites → finish endpoint ctx' a =
        .done (succeed endpoint ctx' (endpoint.handler a.state).writes txId commitEvidence) := by
  unfold finish at h
  cases hexception : (endpoint.handler a.state).exception with
  | some exception =>
    simp only [hexception, Attempted.done.injEq] at h
    exact absurd (h ▸ rfl) hcommit
  | none =>
    cases hview : a.viewChange with
    | some msg =>
      simp only [hexception, hview, Attempted.done.injEq] at h
      exact absurd (h ▸ rfl) hcommit
    | none =>
      simp only [hexception, hview] at h
      split_ifs at h with happly
      · cases h
        exact absurd rfl hcommit
      · cases hresult : a.result with
        | success txId commitEvidence =>
          simp only [hresult, Attempted.done.injEq] at h
          refine ⟨txId, commitEvidence, rfl, h.symm, fun ctx' heq => ?_⟩
          simp only [finish, hexception, hview, heq, if_neg happly, hresult]
        | failNoReplicate =>
          simp only [hresult, Attempted.done.injEq] at h
          exact absurd (h ▸ rfl) hcommit
        | failConflict => simp [hresult] at h

theorem attempt_retry (h : attempt endpoint ctx attempts a = .retry ctx') :
    a.Conflicts ∧ ctx' = (started ctx attempts).applyAll (a.executed endpoint) := by
  unfold attempt at h
  split_ifs at h with hfull hopen
  cases hrejected : a.rejected with
  | some ops => simp [hrejected] at h
  | none =>
    simp only [hrejected, execute] at h
    cases hcompacted : a.compacted with
    | some k =>
      simp only [hcompacted, Attempted.retry.injEq] at h
      exact ⟨.inl (by rw [hcompacted]; rfl), h.symm⟩
    | none =>
      simp only [hcompacted] at h
      obtain ⟨hconflict, rfl⟩ := finish_retry h
      exact ⟨.inr hconflict, rfl⟩

/-- An attempt that commits commits from every context in which it starts from the same response. -/
theorem attempt_done (h : attempt endpoint ctx attempts a = .done r) (hcommit : r.committed ≠ []) :
    ∃ txId commitEvidence, a.result = .success txId commitEvidence ∧
      r = succeed endpoint ((started ctx attempts).applyAll (a.executed endpoint))
        (endpoint.handler a.state).writes txId commitEvidence ∧
      ∀ ctx' attempts', ((started ctx' attempts').applyAll (a.executed endpoint)).shouldApplyWrites =
          ((started ctx attempts).applyAll (a.executed endpoint)).shouldApplyWrites →
        attempt endpoint ctx' attempts' a = .done (succeed endpoint
          ((started ctx' attempts').applyAll (a.executed endpoint))
          (endpoint.handler a.state).writes txId commitEvidence) := by
  unfold attempt at h
  split_ifs at h with hfull hopen
  · cases h
    exact absurd rfl hcommit
  · cases h
    exact absurd rfl hcommit
  · cases hrejected : a.rejected with
    | some ops =>
      simp only [hrejected, Attempted.done.injEq] at h
      exact absurd (h ▸ rfl) hcommit
    | none =>
      simp only [hrejected, execute] at h
      cases hcompacted : a.compacted with
      | some k => simp [hcompacted] at h
      | none =>
        simp only [hcompacted] at h
        obtain ⟨txId, commitEvidence, hresult, hr, hcongr⟩ := finish_done h hcommit
        refine ⟨txId, commitEvidence, hresult, hr, fun ctx' attempts' heq => ?_⟩
        unfold attempt
        rw [if_neg hfull, if_neg hopen]
        simp only [hrejected, execute, hcompacted]
        exact hcongr _ heq

/-- The attempt that commits ends as with a fresh context if and only if it overwrites what has been left. -/
theorem fresh_iff_overwrites
    (hstart : started ctx attempts = (Context.fresh head).withResidue ctx.claims ctx.responseTrailers)
    (ha : attempt endpoint ctx attempts a = .done r) (hcommit : r.committed ≠ []) :
    r.committed.length = 1 ∧ (processCommandInner endpoint (Context.fresh head) 0 [a] = some r ↔
      Overwrites endpoint a ctx.claims ctx.responseTrailers) := by
  obtain ⟨txId, commitEvidence, hresult, rfl, hcongr⟩ := attempt_done ha hcommit
  have hleft : (started ctx attempts).applyAll (a.executed endpoint) = _ :=
    hstart ▸ applyAll_withResidue (Context.fresh head) ctx.claims ctx.responseTrailers (a.executed endpoint)
  have hfresh : (started (Context.fresh head) 0).applyAll (a.executed endpoint) = _ :=
    applyAll_withResidue (Context.fresh head : Context δ ω φ) none (fun _ => none) (a.executed endpoint)
  have hsame := hcongr (Context.fresh head) 0 (by rw [hleft, hfresh]; rfl)
  have hlocal : a.local endpoint = locallyCommittedOps endpoint txId := by simp only [Attempt.local, hresult]
  refine ⟨by rw [succeed_committed]; rfl, ?_⟩
  simp only [processCommandInner, hsame]
  rw [if_pos (by decide), Option.some.injEq, hfresh, hleft, eq_comm, succeed_withResidue_iff, or_eq_or_none_iff]
  simp only [← Option.or_assoc, or_eq_or_none_iff, Overwrites, hlocal]

/-- The loop from any attempt on. -/
theorem processCommandInner_iff (l : List (Attempt σ δ φ)) (attempts : ℕ) (ctx : Context δ ω φ)
    (hstart : started ctx attempts = (Context.fresh head).withResidue ctx.claims ctx.responseTrailers)
    (hr : processCommandInner endpoint ctx attempts l = some r) (hcommit : r.committed ≠ []) :
    r.committed.length = 1 ∧ ∃ earlier a rest, l = earlier ++ a :: rest ∧ (∀ e ∈ earlier, e.Conflicts) ∧
      (processCommandInner endpoint (Context.fresh head) 0 [a] = some r ↔
        Overwrites endpoint a ctx.claims ctx.responseTrailers ∧ ∀ e ∈ earlier, Covers endpoint e a) := by
  induction l generalizing attempts ctx with
  | nil =>
    unfold processCommandInner at hr
    split_ifs at hr
    cases hr
    exact absurd rfl hcommit
  | cons a rest ih =>
    unfold processCommandInner at hr
    split_ifs at hr with hlimit
    · cases ha : attempt endpoint ctx attempts a with
      | done result =>
        simp only [ha, Option.some.injEq] at hr
        subst hr
        obtain ⟨hlength, hiff⟩ := fresh_iff_overwrites hstart ha hcommit
        exact ⟨hlength, [], a, rest, rfl, by rintro e ⟨⟩, by rw [hiff]; simp⟩
      | retry ctx' =>
        simp only [ha] at hr
        obtain ⟨hconflicts, hctx'⟩ := attempt_retry ha
        -- the claims and trailers that are left now
        have hclaims : ctx'.claims = (lastSet Op.claims (a.executed endpoint)).or ctx.claims := by
          rw [hctx', claims_applyAll, hstart]
          rfl
        have htrailers : ctx'.responseTrailers =
            fun name => (lastSet (Op.trailer name) (a.executed endpoint)).or (ctx.responseTrailers name) := by
          funext name
          rw [hctx', trailers_applyAll, hstart]
          rfl
        have hstart' : started ctx' (attempts + 1) =
            (Context.fresh head).withResidue ctx'.claims ctx'.responseTrailers := by
          rw [hctx', started, if_pos (Nat.succ_pos _), resetResponse_applyAll, hstart]
          rfl
        obtain ⟨hlength, earlier, b, rest', rfl, hearlier, hiff⟩ := ih (attempts + 1) ctx' hstart' hr
        refine ⟨hlength, a :: earlier, b, rest', rfl, List.forall_mem_cons.2 ⟨hconflicts, hearlier⟩, ?_⟩
        rw [hiff, hclaims, htrailers, overwrites_or, List.forall_mem_cons, and_comm (a := Overwrites _ _ _ _),
          and_assoc]
        rfl
    · cases hr
      exact absurd rfl hcommit

end

/-- An endpoint that sets the claims digest in one of two states and a header in both. -/
def sometimes : Endpoint Bool ℕ ℕ ℕ where
  handler state :=
    ⟨(if state then [.setClaimsDigest 5, .setResponseTrailer "t" "1"] else []) ++ [.setResponseHeader "h" "v"], 1, none⟩
  locallyCommittedFunc _ := ([], none)

def tried (state : Bool) (result : CommitResult) : Attempt Bool ℕ ℕ := ⟨false, true, none, state, none, none, result⟩

end Ccf.Node.Attempts
