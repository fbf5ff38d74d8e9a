import Ccf.Node.HistoricalQueries

/-! # Cutting bytes of the host into entries (`consensus/ledger_enclave.h`)

A follower cuts the payload of an AppendEntries message into entries, and a recovering node the batches of its ledger.
`get_entry` copies as many bytes as a header announces and only then compares the size with what is left, and its
`InsufficientSpaceException` is none of those that are answered by a NACK or that end the recovery. Nor is what
`apply` raises on a follower, or what the end of the recovery itself raises. -/

namespace Ccf.Node.EntryCutting

open HistoricalQueries (serialisedEntryHeaderSize wholeSize wholeSize_append)

inductive Ending where
  /-- All entries have been read and executed. -/
  | complete
  /-- The message conflicts with a log that is kept. -/
  | ignored
  | nack
  /-- `recover_public_ledger_end_unsafe`, `recover_private_ledger_end_unsafe`. -/
  | recoveryEnd
  /-- An exception leaves the function: `recv_message` drops the message, the handler of `ledger_entry_range` raises
  it. -/
  | raised
  /-- Bytes behind the input have been copied; what follows is undefined. -/
  | outOfBounds
deriving DecidableEq

/-- What executing an entry comes to. -/
inductive Outcome where
  | pass
  | fail
  /-- `apply` or a hook raises. -/
  | raises
  /-- What follows a signature raises: `compact`, `resolve_latest_sig_view`. -/
  | raisesLater
deriving DecidableEq

/-- `get_entry`: the entry, and what is left behind it. -/
def getEntry (data : List UInt8) : Except Ending (List UInt8 × List UInt8) :=
  if data.length < serialisedEntryHeaderSize then .error .raised
  else if data.length < wholeSize data then .error .outOfBounds
  else .ok (data.take (wholeSize data), data.drop (wholeSize data))

/-- `skip_entry`. -/
def skipEntry (data : List UInt8) : Except Ending (List UInt8) :=
  if data.length < serialisedEntryHeaderSize ∨ data.length < wholeSize data then .error .raised
  else .ok (data.drop (wholeSize data))

/-! ### Following -/

/-- What the loop of `recv_append_entries` reads of the receiver. -/
structure Receiver where
  lastIdx : ℕ
  viewAt : ℕ → ℕ
  isNewFollower : Bool

/-- The loop of `recv_append_entries`: `n` entries from `i` on are still to be read. `deserialize` only wraps an entry
for its execution. -/
def entryLoop (termOfIdx : ℕ) : ℕ → ℕ → Receiver → List UInt8 → Except Ending (List (List UInt8 × ℕ))
  | 0, _, _, _ => .ok []
  | n + 1, i, r, data =>
    let extract (r : Receiver) : Except Ending (List (List UInt8 × ℕ)) := do
      let (entry, rest) ← getEntry data
      let entries ← entryLoop termOfIdx n (i + 1) r rest
      return (entry, i) :: entries
    if i ≤ r.lastIdx then
      if termOfIdx = r.viewAt i then do
        let rest ← skipEntry data
        entryLoop termOfIdx n (i + 1) r rest
      else if r.isNewFollower then extract { r with lastIdx := i - 1, isNewFollower := false }
      else .error .ignored
    else extract r

/-- `execute_append_entries_sync`, in which nothing is caught. -/
def executeAppendEntriesSync (apply : ℕ → List UInt8 → Outcome) : List (List UInt8 × ℕ) → Ending
  | [] => .complete
  | (entry, i) :: entries =>
    match apply i entry with
    | .pass => executeAppendEntriesSync apply entries
    | .fail => .nack
    | .raises | .raisesLater => .raised

variable (apply : ℕ → List UInt8 → Outcome)

/-- What the message comes to after the loop. -/
def execute : Except Ending (List (List UInt8 × ℕ)) → Ending
  | .error e => e
  | .ok entries => executeAppendEntriesSync apply entries

/-- `recv_append_entries` from its loop on. -/
def recvAppendEntries (termOfIdx prevIdx idx : ℕ) (r : Receiver)
    (data : List UInt8) : Ending :=
  execute apply (entryLoop termOfIdx (idx - prevIdx) (prevIdx + 1) r data)

/-- No byte behind the input is read, and no exception leaves the function. -/
structure Safe (e : Ending) : Prop where
  inside : e ≠ .outOfBounds
  caught : e ≠ .raised

/-- One entry with its header. -/
def Whole (e : List UInt8) : Prop := serialisedEntryHeaderSize ≤ e.length ∧ wholeSize e = e.length

instance : DecidablePred Whole := fun _ => inferInstanceAs (Decidable (_ ∧ _))

def Outcome.Returns (o : Outcome) : Prop := o = .pass ∨ o = .fail

/-- The payload begins with `n` whole entries, numbered from `i` on, and the execution of none of them raises. -/
inductive Follows (apply : ℕ → List UInt8 → Outcome) : ℕ → ℕ → List UInt8 → Prop
  | nil {i rest} : Follows apply 0 i rest
  | cons {n i entry rest} (hwhole : Whole entry) (hreturns : (apply i entry).Returns)
      (h : Follows apply n (i + 1) rest) : Follows apply (n + 1) i (entry ++ rest)

variable {n i : ℕ} {entry rest data : List UInt8} {apply : ℕ → List UInt8 → Outcome}

theorem getEntry_append (h : Whole entry) (rest : List UInt8) : getEntry (entry ++ rest) = .ok (entry, rest) := by
  have hsize := (wholeSize_append h.1 rest).trans h.2
  have hlong := h.1
  rw [getEntry, hsize, List.length_append, if_neg (by omega), if_neg (by omega), List.take_left, List.drop_left]

theorem skipEntry_append (h : Whole entry) (rest : List UInt8) : skipEntry (entry ++ rest) = .ok rest := by
  have hsize := (wholeSize_append h.1 rest).trans h.2
  have hlong := h.1
  rw [skipEntry, hsize, List.length_append, if_neg (by omega), List.drop_left]

theorem whole_of_getEntry (h : getEntry data = .ok (entry, rest)) : Whole entry ∧ data = entry ++ rest := by
  unfold getEntry at h
  split_ifs at h with hshort hover
  cases h
  have hlen : (data.take (wholeSize data)).length = wholeSize data := by
    rw [List.length_take]
    omega
  have hlong : serialisedEntryHeaderSize ≤ (data.take (wholeSize data)).length := by
    rw [hlen, wholeSize]
    omega
  refine ⟨⟨hlong, ?_⟩, (List.take_append_drop _ _).symm⟩
  rw [hlen, ← wholeSize_append hlong (data.drop (wholeSize data)), List.take_append_drop]

theorem not_safe_of_getEntry {e : Ending} (h : getEntry data = .error e) : ¬Safe e := by
  intro hsafe
  unfold getEntry at h
  split_ifs at h <;> cases h
  · exact hsafe.caught rfl
  · exact hsafe.inside rfl

/-- Some of the entries are executed, unless the message conflicts with the log. -/
theorem Follows.entryLoop_eq (h : Follows apply n i data) (termOfIdx : ℕ) (r : Receiver) :
    entryLoop termOfIdx n i r data = .error .ignored ∧ (∃ j, termOfIdx ≠ r.viewAt j) ∨
    ∃ l, entryLoop termOfIdx n i r data = .ok l ∧ ∀ p ∈ l, (apply p.2 p.1).Returns := by
  induction h generalizing r with
  | nil => exact .inr ⟨[], rfl, by simp⟩
  | @cons n i entry rest hwhole hreturns _ ih =>
    have hextract : ∀ r', r'.viewAt = r.viewAt → (do
          let entries ← entryLoop termOfIdx n (i + 1) r' rest
          return (entry, i) :: entries) = .error .ignored ∧ (∃ j, termOfIdx ≠ r.viewAt j) ∨
        ∃ l, (do
          let entries ← entryLoop termOfIdx n (i + 1) r' rest
          return (entry, i) :: entries) = .ok l ∧ ∀ p ∈ l, (apply p.2 p.1).Returns := by
      intro r' hview
      obtain ⟨heq, hj⟩ | ⟨l, heq, hl⟩ := ih r'
      · exact .inl ⟨by rw [heq]; rfl, hview ▸ hj⟩
      · exact .inr ⟨(entry, i) :: l, by rw [heq]; rfl, List.forall_mem_cons.2 ⟨hreturns, hl⟩⟩
    simp only [entryLoop, getEntry_append hwhole, skipEntry_append hwhole]
    split_ifs with hi hview hnew
    · exact ih r
    · exact hextract { r with lastIdx := i - 1, isNewFollower := false } rfl
    · exact .inl ⟨rfl, i, hview⟩
    · exact hextract r rfl

theorem safe_execute {l : List (List UInt8 × ℕ)} (h : ∀ p ∈ l, (apply p.2 p.1).Returns) :
    Safe (executeAppendEntriesSync apply l) := by
  induction l with
  | nil => constructor <;> exact nofun
  | cons p l ih =>
    obtain ⟨hp, hl⟩ := List.forall_mem_cons.1 h
    unfold executeAppendEntriesSync
    obtain happly | happly := hp <;> rw [happly]
    · exact ih hl
    · constructor <;> exact nofun

/-- The logs that have the first entries of the message, in its view, let each of them be the first one executed. -/
theorem follows_of_safe
    (h : ∀ k, i ≤ k → Safe (execute apply (entryLoop 0 n (i + 1) ⟨k, fun _ => 0, false⟩ data))) :
    Follows apply n (i + 1) data := by
  induction n generalizing i data with
  | zero => exact .nil
  | succ n ih =>
    have hfresh := h i le_rfl
    simp only [entryLoop, if_neg (by omega : ¬i + 1 ≤ i)] at hfresh
    cases hentry : getEntry data with
    | error e =>
      rw [hentry] at hfresh
      exact absurd hfresh (not_safe_of_getEntry hentry)
    | ok p =>
      obtain ⟨entry, rest⟩ := p
      rw [hentry] at hfresh
      obtain ⟨hwhole, rfl⟩ := whole_of_getEntry hentry
      have hrest : Follows apply n (i + 1 + 1) rest := ih fun k hk => by
        have hsafe := h k (by omega)
        rw [entryLoop, if_pos hk, if_pos rfl, skipEntry_append hwhole] at hsafe
        exact hsafe
      refine .cons hwhole ?_ hrest
      obtain ⟨-, j, hj⟩ | ⟨l, heq, -⟩ := hrest.entryLoop_eq 0 ⟨i, fun _ => 0, false⟩
      · exact absurd rfl hj
      · simp only [bind, Except.bind, heq, pure, Except.pure, execute, executeAppendEntriesSync] at hfresh
        cases happly : apply (i + 1) entry with
        | pass => exact .inl rfl
        | fail => exact .inr rfl
        | raises | raisesLater =>
          rw [happly] at hfresh
          exact absurd rfl hfresh.caught

/-! ### Recovering -/

/-- What `recover_public_ledger_entries` and `recover_private_ledger_entries` call, by the number of entries of the
batch that have been applied. -/
structure Recovery where
  apply : ℕ → List UInt8 → Outcome
  /-- Whether the private recovery is at its last version; the public one only ends with the ledger. -/
  reached : ℕ → Bool
  /-- Whether the function that ends the recovery returns, called first, and called again after it has raised. -/
  ends : ℕ → Bool → Bool

namespace Recovery

variable (c : Recovery)

def finish (i : ℕ) : Ending := if c.ends i false then .recoveryEnd else .raised

def atEnd (i : ℕ) : Ending := if c.reached i then c.finish i else .complete

/-- One round of the loop, `k` being what the rest of it comes to. An entry that fails ends the recovery inside of the
`try` block, whose handler ends it again. -/
def next (i : ℕ) (entry : List UInt8) (k : Ending) : Ending :=
  match c.apply i entry with
  | .pass => k
  | .fail => if c.ends i false || c.ends i true then .recoveryEnd else .raised
  | .raises => c.finish i
  | .raisesLater => .raised

/-- The loop, `i` entries into the batch. -/
def loop (i : ℕ) (data : List UInt8) : Ending :=
  if data = [] then c.atEnd i
  else match h : getEntry data with
    | .error e => e
    | .ok (entry, rest) => c.next i entry (loop (i + 1) rest)
termination_by data.length
decreasing_by
  obtain ⟨hwhole, rfl⟩ := whole_of_getEntry h
  have hlong := hwhole.1
  rw [List.length_append, serialisedEntryHeaderSize] at *
  omega

/-- `recover_public_ledger_entries`, `recover_private_ledger_entries`. -/
def recoverLedgerEntries (data : List UInt8) : Ending := if data = [] then c.finish 0 else c.loop 0 data

/-- The recovery ends at the entry. -/
def Stops (i : ℕ) (entry : List UInt8) : Prop :=
  c.apply i entry = .fail ∧ (c.ends i false = true ∨ c.ends i true = true) ∨
    c.apply i entry = .raises ∧ c.ends i false = true

variable {c}

theorem safe_finish : Safe (c.finish i) ↔ c.ends i false = true := by
  unfold finish
  split_ifs with h
  · exact iff_of_true (by constructor <;> exact nofun) h
  · exact iff_of_false (fun hsafe => hsafe.caught rfl) h

theorem safe_next {k : Ending} (h : Safe (c.next i entry k)) :
    c.apply i entry = .pass ∧ Safe k ∨ c.Stops i entry := by
  unfold next at h
  unfold Stops
  cases happly : c.apply i entry <;> simp only [happly] at h
  · exact .inl ⟨rfl, h⟩
  · split_ifs at h with hends
    · exact .inr (.inl ⟨rfl, by simpa using hends⟩)
    · exact absurd rfl h.caught
  · exact .inr (.inr ⟨rfl, safe_finish.1 h⟩)
  · exact absurd rfl h.caught

theorem Stops.safe_next (h : c.Stops i entry) (k : Ending) : Safe (c.next i entry k) := by
  obtain ⟨hfail, hends⟩ | ⟨hraises, hends⟩ := h
  · rw [next, hfail]
    simp only [Bool.or_eq_true, if_pos hends]
    constructor <;> exact nofun
  · rw [next, hraises]
    exact safe_finish.2 hends

theorem loop_append (h : Whole entry) : c.loop i (entry ++ rest) = c.next i entry (c.loop (i + 1) rest) := by
  rw [loop, if_neg]
  · split
    · next hentry => cases (getEntry_append h rest).symm.trans hentry
    · next hentry =>
      cases (getEntry_append h rest).symm.trans hentry
      rfl
  · intro hnil
    have hlong := h.1
    rw [(List.append_eq_nil_iff.1 hnil).1] at hlong
    exact absurd hlong (by decide)

/-- The batch is whole entries that pass, up to its end or to a whole entry at which the recovery ends. -/
inductive Ends (c : Recovery) : ℕ → List UInt8 → Prop
  | nil (i : ℕ) (h : c.reached i = true → c.ends i false = true) : Ends c i []
  | stops (i : ℕ) (entry rest : List UInt8) (hwhole : Whole entry) (hstops : c.Stops i entry) : Ends c i (entry ++ rest)
  | passes (i : ℕ) (entry rest : List UInt8) (hwhole : Whole entry) (hpass : c.apply i entry = .pass)
      (h : Ends c (i + 1) rest) : Ends c i (entry ++ rest)

theorem safe_loop : Safe (c.loop i data) ↔ c.Ends i data := by
  constructor
  · intro h
    fun_induction loop c i data with
    | case1 i =>
      refine .nil i fun hreached => ?_
      rw [atEnd, if_pos hreached] at h
      exact safe_finish.1 h
    | case2 _ _ _ _ hentry => exact absurd h (not_safe_of_getEntry hentry)
    | case3 i data _ entry rest hentry ih =>
      obtain ⟨hwhole, rfl⟩ := whole_of_getEntry hentry
      obtain ⟨hpass, hsafe⟩ | hstops := safe_next h
      · exact .passes i entry rest hwhole hpass (ih hsafe)
      · exact .stops i entry rest hwhole hstops
  · intro h
    induction h with
    | nil i hfinish =>
      rw [loop, if_pos rfl, atEnd]
      split_ifs with hreached
      · exact safe_finish.2 (hfinish hreached)
      · constructor <;> exact nofun
    | stops i entry rest hwhole hstops =>
      rw [loop_append hwhole]
      exact hstops.safe_next _
    | passes i entry rest hwhole hpass _ ih =>
      rw [loop_append hwhole, next, hpass]
      exact ih

end Recovery

/-- Entries pass, and nothing raises. -/
def Recovery.passing : Recovery := ⟨fun _ _ => .pass, fun _ => false, fun _ _ => true⟩

/-- **Recovery reads entries back**: on entries written one behind the other, the loop over the bytes is the loop over
the entries, each at its position. -/
theorem recoverLedgerEntries_flatten (c : Recovery) (entries : List (List UInt8)) (h : ∀ e ∈ entries, Whole e)
    (hne : entries ≠ []) : c.recoverLedgerEntries entries.flatten =
      entries.zipIdx.foldr (fun p k => c.next p.2 p.1 k) (c.atEnd entries.length) := by
  have hloop : ∀ i, c.loop i entries.flatten =
      (entries.zipIdx i).foldr (fun p k => c.next p.2 p.1 k) (c.atEnd (i + entries.length)) := by
    clear hne
    induction entries with
    | nil =>
      intro i
      rw [List.flatten_nil, Recovery.loop, if_pos rfl]
      rfl
    | cons e entries ih =>
      intro i
      obtain ⟨he, hrest⟩ := List.forall_mem_cons.1 h
      rw [List.flatten_cons, Recovery.loop_append he, ih hrest, List.zipIdx_cons, List.foldr_cons, List.length_cons,
        add_right_comm, add_assoc]
  rw [Recovery.recoverLedgerEntries, if_neg, hloop, zero_add]
  intro hnil
  obtain ⟨e, he⟩ := List.exists_mem_of_ne_nil _ hne
  have hlong := (h e he).1
  rw [List.flatten_eq_nil_iff.1 hnil e he] at hlong
  exact absurd hlong (by decide)

theorem recoverLedgerEntries_flatten_two :
    { Recovery.passing with apply := fun i _ => if i = 0 then .pass else .fail }.recoverLedgerEntries
      [1 :: 0 :: leBytes 6 0, 1 :: 0 :: leBytes 6 0].flatten = .recoveryEnd :=
  recoverLedgerEntries_flatten _ _ (by decide) (by decide)

end Ccf.Node.EntryCutting
