import Ccf.Lib.Decimal
import Ccf.Lib.Median
import Ccf.Lib.Runs

/-! # Replay protection of signed requests

`validate_proposal_submission_time` (`gov/handlers/proposals.h`) with the check of `created_at` in `create_proposal`,
and `check_action_not_replayed_v1` (`js/registry.cpp`). Both keep the most recent requests in a table, under the decimal
time and the digest, and refuse a request that is there or is earlier than the median of the table. They differ in
the window, which is configured for proposals, in what is stored beside the key, and in that only proposals have their
time checked to fit in the ten digits it is padded to.

`RecentRequests` is the system of one such table; `accepted` records the requests it has accepted. -/

namespace Ccf.Node.Gov

open List Runs

/-! ### Keys -/

def hexDigits (b : UInt8) : List Char := [Nat.digitChar (b.toNat / 16), Nat.digitChar (b.toNat % 16)]

def toHex (data : List UInt8) : List Char := data.flatMap hexDigits

/-- `fmt::format("{:0>10}", created_at)`. -/
def createdAtStr (createdAt : UInt64) : List Char := padded 10 createdAt.toNat

def requestKey (createdAt : List Char) (digest : List UInt8) : List Char := createdAt ++ ':' :: toHex digest

/-- The first part of `split_1(key, ":")`. -/
def keyTime (key : List Char) : List Char := key.takeWhile (· ≠ ':')

/-! ### The check -/

/-- The rows of a table, with different keys. -/
abbrev RecentTable (ν : Type) := List (List Char × ν)

inductive SubmissionResult (ν : Type) where
  | acceptable
  /-- With what is stored for the request. -/
  | duplicateInWindow (value : ν)
  /-- With the least time that would have been accepted. -/
  | tooOld (minCreatedAt : List Char)
deriving DecidableEq

/-- `replay_keys`, sorted. -/
def replayKeys {ν : Type} (recent : RecentTable ν) : List (List Char) :=
  (recent.map Prod.fst).insertionSort (· ≤ ·)

/-- How many keys are removed, the first ones; `window_size - 1` is on 64 bits. -/
def excess (keys windowSize : ℕ) : ℕ :=
  let keep := if windowSize = 0 then 2 ^ 64 - 1 else windowSize - 1
  if keep ≤ keys then keys - keep else 0

/-- The time of the median of the keys, which a request must not be before. -/
def minCreatedAt {ν : Type} (recent : RecentTable ν) : Option (List Char) :=
  (replayKeys recent)[(replayKeys recent).length / 2]?.map keyTime

def validateSubmission {ν : Type} (recent : RecentTable ν) (key : List Char) (value : ν) (windowSize : ℕ) :
    SubmissionResult ν × RecentTable ν :=
  match recent.lookup key with
  | some old => (.duplicateInWindow old, recent)
  | none =>
    let keys := replayKeys recent
    match (minCreatedAt recent).filter (keyTime key < ·) with
    | some least => (.tooOld least, recent)
    | none =>
      let removed := keys.take (excess keys.length windowSize)
      (.acceptable, ((key, value) :: recent).filter fun row => row.1 ∉ removed)

def defaultRecentCoseProposalsWindowSize : ℕ := 100

def validateProposalSubmissionTime {ν : Type} (recent : RecentTable ν) (windowSize : Option ℕ) (createdAt : List Char)
    (requestDigest : List UInt8) (proposalId : ν) : SubmissionResult ν × RecentTable ν :=
  validateSubmission recent (requestKey createdAt requestDigest) proposalId
    (windowSize.getD defaultRecentCoseProposalsWindowSize)

/-- The part of `create_proposal` on the time; `none` is the error `InvalidCreatedAt`. -/
def checkProposal {ν : Type} (recent : RecentTable ν) (windowSize : Option ℕ) (createdAt : UInt64)
    (requestDigest : List UInt8) (proposalId : ν) : Option (SubmissionResult ν) × RecentTable ν :=
  if 9999999999 < createdAt.toNat then (none, recent)
  else
    let (result, recent) :=
      validateProposalSubmissionTime recent windowSize (createdAtStr createdAt) requestDigest proposalId
    (some result, recent)

def checkActionNotReplayed {ν : Type} (recent : RecentTable ν) (createdAt : UInt64) (actionDigest : List UInt8)
    (value : ν) : SubmissionResult ν × RecentTable ν :=
  validateSubmission recent (requestKey (createdAtStr createdAt) actionDigest) value 100

/-! ### The system -/

/-- The two kinds of signed requests. -/
inductive Requests where
  | proposals
  | actions
deriving DecidableEq

namespace Requests

/-- The size of the window under a configured size, which is used for proposals only. -/
def windowSize : Requests → Option ℕ → ℕ
  | proposals, configured => configured.getD defaultRecentCoseProposalsWindowSize
  | actions, _ => 100

def check {ν : Type} (kind : Requests) (recent : RecentTable ν) (configured : Option ℕ) (createdAt : UInt64)
    (digest : List UInt8) (value : ν) : Option (SubmissionResult ν) × RecentTable ν :=
  match kind with
  | proposals => checkProposal recent configured createdAt digest value
  | actions =>
    let (result, recent) := checkActionNotReplayed recent createdAt digest value
    (some result, recent)

end Requests

structure RecentRequests (ν : Type) where
  recent : RecentTable ν := []
  configured : Option ℕ := none
  accepted : List (UInt64 × List UInt8) := []

namespace RecentRequests

variable {ν : Type}

inductive Action (ν : Type) where
  | submit (createdAt : UInt64) (digest : List UInt8) (value : ν)
  /-- The configured size of the window is set or unset. -/
  | configure (windowSize : Option ℕ)
deriving DecidableEq

variable (kind : Requests) (s : RecentRequests ν)

/-- Whether a submission is accepted. -/
def accepts (createdAt : UInt64) (digest : List UInt8) (value : ν) : Bool :=
  match (kind.check s.recent s.configured createdAt digest value).1 with
  | some .acceptable => true
  | _ => false

def step : Action ν → RecentRequests ν
  | .configure windowSize => { s with configured := windowSize }
  | .submit createdAt digest value =>
    { s with
      recent := (kind.check s.recent s.configured createdAt digest value).2
      accepted :=
        if s.accepts kind createdAt digest value then (createdAt, digest) :: s.accepted else s.accepted }

/-! ### The property -/

/-- The time in a key as a number. -/
def timeOf (key : List Char) : ℕ := Nat.ofDigitChars 10 (keyTime key) 0

/-- The times of the requests that are retained. -/
def times : List ℕ := s.recent.map fun row => timeOf row.1

/-- What must happen to a submission: it is accepted if it is neither a repetition nor older than the median, and if it
is accepted, no more requests than the window has are retained. -/
def Handles (createdAt : UInt64) (digest : List UInt8) (value : ν) : Prop :=
  ((createdAt, digest) ∉ s.accepted → (∀ t ∈ median s.times, t ≤ createdAt.toNat) →
    s.accepts kind createdAt digest value = true) ∧
  (s.accepts kind createdAt digest value = true →
    (s.step kind (.submit createdAt digest value)).recent.length ≤ kind.windowSize s.configured)

/-- The largest time of ten digits. -/
def maxTime : ℕ := 9999999999

/-- The number of keys that a submission removes if it is accepted. -/
def removed : ℕ := excess (replayKeys s.recent).length (kind.windowSize s.configured)

/-- An accepted request has a time of ten digits, the window is not empty, and the keys that are removed have an earlier
time than those that stay, or than the request if none stays. -/
def Spaced : Action ν → Prop
  | .configure _ => True
  | .submit createdAt digest value => s.accepts kind createdAt digest value = true →
      createdAt.toNat ≤ maxTime ∧ kind.windowSize s.configured ≠ 0 ∧
        ∀ old ∈ (replayKeys s.recent).take (s.removed kind),
          (∀ kept ∈ (replayKeys s.recent).drop (s.removed kind), timeOf old < timeOf kept) ∧
            ((replayKeys s.recent).drop (s.removed kind) = [] → timeOf old < createdAt.toNat)

instance (s : RecentRequests ν) (a : Action ν) : Decidable (s.Spaced kind a) := by
  cases a <;> unfold Spaced <;> infer_instance

end RecentRequests

/-! ### Keys and times -/

variable {c : UInt64}

section Keys

open RecentRequests

/-- The key of a request. -/
def keyOf (createdAt : UInt64) (digest : List UInt8) : List Char := requestKey (createdAtStr createdAt) digest

theorem keyTime_keyOf (createdAt : UInt64) (digest : List UInt8) :
    keyTime (keyOf createdAt digest) = createdAtStr createdAt := by
  have hdigits : ∀ c ∈ createdAtStr createdAt, decide (c ≠ ':') = true := by
    intro c hc
    have hc := isDigit_iff.1 (digits_padded _ _ c hc)
    simp only [ne_eq, decide_not, Bool.not_eq_eq_eq_not, Bool.not_true, decide_eq_false_iff_not]
    rintro rfl
    exact absurd hc.2 (by decide)
  rw [keyTime, keyOf, requestKey, takeWhile_append_of_pos hdigits]
  simp

theorem timeOf_keyOf (createdAt : UInt64) (digest : List UInt8) :
    timeOf (keyOf createdAt digest) = createdAt.toNat := by
  rw [timeOf, keyTime_keyOf, createdAtStr, ofDigitChars_padded]

theorem hexDigits_injective : Function.Injective hexDigits := by
  have hdigit : ∀ m < 16, ∀ n < 16, Nat.digitChar m = Nat.digitChar n → m = n := by decide
  intro a b hab
  have ha := a.toNat_lt
  have hb := b.toNat_lt
  simp only [hexDigits, List.cons.injEq, and_true] at hab
  have hhigh := hdigit _ (by omega) _ (by omega) hab.1
  have hlow := hdigit _ (by omega) _ (by omega) hab.2
  apply UInt8.toNat_inj.1
  omega

theorem toHex_injective : Function.Injective toHex := by
  intro a
  induction a with
  | nil =>
    intro b h
    cases b with
    | nil => rfl
    | cons y b => cases h
  | cons x a ih =>
    intro b h
    cases b with
    | nil => cases h
    | cons y b =>
      obtain ⟨hxy, hab⟩ := append_inj (show hexDigits x ++ toHex a = hexDigits y ++ toHex b from h) rfl
      rw [hexDigits_injective hxy, ih hab]

variable {c' : UInt64} {d' : List UInt8}

theorem keyOf_injective {d : List UInt8} (h : keyOf c d = keyOf c' d') : c = c' ∧ d = d' := by
  have hc : c = c' := UInt64.toNat_inj.1 (by rw [← timeOf_keyOf c d, h, timeOf_keyOf])
  subst hc
  have hrest := append_cancel_left (show createdAtStr c ++ ':' :: toHex d = createdAtStr c ++ ':' :: toHex d' from h)
  exact ⟨rfl, toHex_injective (List.cons.inj hrest).2⟩

theorem createdAtStr_lt_iff (hc : c.toNat ≤ maxTime) (hc' : c'.toNat ≤ maxTime) :
    createdAtStr c < createdAtStr c' ↔ c.toNat < c'.toNat := by
  have hmax : maxTime < 10 ^ 10 := by decide
  exact padded_lt_iff (by decide) (by omega) (by omega)

theorem append_lt_append_of_lt {a b x y : List Char} (hlen : a.length = b.length) (h : a < b) : a ++ x < b ++ y := by
  induction a generalizing b with
  | nil =>
    obtain rfl : b = [] := length_eq_zero_iff.1 hlen.symm
    exact absurd h (lt_irrefl _)
  | cons c a ih =>
    cases b with
    | nil => cases hlen
    | cons d b =>
      rw [cons_append, cons_append, cons_lt_cons_iff]
      rcases cons_lt_cons_iff.1 h with hcd | ⟨rfl, hab⟩
      · exact .inl hcd
      · exact .inr ⟨rfl, ih (Nat.succ.inj hlen) hab⟩

/-- Keys with times of ten digits are in the order of their times. -/
theorem time_le_of_keyOf_le {d : List UInt8} (hc : c.toNat ≤ maxTime) (hc' : c'.toNat ≤ maxTime)
    (h : keyOf c d ≤ keyOf c' d') : c.toNat ≤ c'.toNat := by
  by_contra hlt
  have hmax : maxTime < 10 ^ 10 := by decide
  have hlen : (createdAtStr c').length = (createdAtStr c).length :=
    (length_padded (by decide) (by omega)).trans (length_padded (by decide) (by omega)).symm
  have hstr := (createdAtStr_lt_iff hc' hc).2 (not_le.1 hlt)
  exact absurd h (not_le.2 (append_lt_append_of_lt hlen hstr))

end Keys

/-! ### The invariant -/

namespace RecentRequests

variable {ν : Type} {kind : Requests}

/-- The rows are those of accepted requests, and an accepted request without a row is older than the median. -/
structure Inv (s : RecentRequests ν) : Prop where
  rows : ∀ key ∈ s.recent.map Prod.fst, ∃ c d, c.toNat ≤ maxTime ∧ (c, d) ∈ s.accepted ∧ key = keyOf c d
  nodup : (s.recent.map Prod.fst).Nodup
  forgotten : ∀ c d, (c, d) ∈ s.accepted → keyOf c d ∉ s.recent.map Prod.fst →
    ∃ t, median s.times = some t ∧ c.toNat < t
  once : s.accepted.Nodup

theorem inv_empty : ({} : RecentRequests ν).Inv where
  rows key hkey := by cases hkey
  nodup := nodup_nil
  forgotten c d h := by cases h
  once := nodup_nil

theorem perm_replayKeys (recent : RecentTable ν) : (replayKeys recent).Perm (recent.map Prod.fst) :=
  perm_insertionSort _ _

namespace Inv

variable {s : RecentRequests ν}

theorem mem_replayKeys {key : List Char} (k : s.Inv) (h : key ∈ replayKeys s.recent) :
    ∃ c d, c.toNat ≤ maxTime ∧ key = keyOf c d := by
  obtain ⟨c, d, hc, -, hkey⟩ := k.rows key ((perm_replayKeys s.recent).mem_iff.1 h)
  exact ⟨c, d, hc, hkey⟩

/-- The sorted keys are sorted by their times. -/
theorem pairwise_times (k : s.Inv) : ((replayKeys s.recent).map timeOf).Pairwise (· ≤ ·) := by
  rw [pairwise_map]
  refine List.Pairwise.imp_of_mem (fun {a b} ha hb hab => ?_) (pairwise_insertionSort _ _)
  obtain ⟨c, d, hc, rfl⟩ := k.mem_replayKeys ha
  obtain ⟨c', d', hc', rfl⟩ := k.mem_replayKeys hb
  rw [timeOf_keyOf, timeOf_keyOf]
  exact time_le_of_keyOf_le hc hc' hab

theorem perm_times (s : RecentRequests ν) : ((replayKeys s.recent).map timeOf).Perm s.times := by
  have h := (perm_replayKeys s.recent).map timeOf
  rwa [map_map] at h

/-- The median of the times is the time of the median of the keys. -/
theorem median_times (k : s.Inv) :
    median s.times = (replayKeys s.recent)[(replayKeys s.recent).length / 2]?.map timeOf := by
  have hsort : s.times.insertionSort (· ≤ ·) = (replayKeys s.recent).map timeOf :=
    List.Perm.eq_of_pairwise (fun _ _ _ _ hab hba => le_antisymm hab hba) (pairwise_insertionSort _ _) k.pairwise_times
      ((perm_insertionSort _ _).trans (perm_times s).symm)
  have hlen : s.times.length = (replayKeys s.recent).length := by
    rw [← (perm_times s).length_eq, length_map]
  rw [median, hsort, hlen, getElem?_map]

/-- A request is before the least accepted time if it is older than the median. -/
theorem tooOld_iff (k : s.Inv) (hc : c.toNat ≤ maxTime) (d : List UInt8) :
    (minCreatedAt s.recent).filter (keyTime (keyOf c d) < ·) = none ↔ ∀ t ∈ median s.times, t ≤ c.toNat := by
  rw [minCreatedAt, k.median_times]
  cases hkey : (replayKeys s.recent)[(replayKeys s.recent).length / 2]? with
  | none => simp
  | some key =>
    obtain ⟨c', d', hc', rfl⟩ := k.mem_replayKeys (mem_of_getElem? hkey)
    simp only [Option.map_some, Option.mem_def, Option.some.injEq, forall_eq', timeOf_keyOf]
    rw [Option.filter_some, keyTime_keyOf, keyTime_keyOf]
    simp [createdAtStr_lt_iff hc hc']

end Inv

/-! ### Submissions -/

theorem check_eq (kind : Requests) (recent : RecentTable ν) (configured : Option ℕ) (hc : c.toNat ≤ maxTime)
    (d : List UInt8) (v : ν) :
    kind.check recent configured c d v =
      (some (validateSubmission recent (keyOf c d) v (kind.windowSize configured)).1,
        (validateSubmission recent (keyOf c d) v (kind.windowSize configured)).2) := by
  cases kind with
  | actions => rfl
  | proposals => exact if_neg (not_lt.2 hc)

theorem validateSubmission_cases (recent : RecentTable ν) (key : List Char) (v : ν) (windowSize : ℕ) :
    (key ∉ recent.map Prod.fst ∧ (minCreatedAt recent).filter (keyTime key < ·) = none ∧
      validateSubmission recent key v windowSize = (.acceptable, ((key, v) :: recent).filter fun row =>
        row.1 ∉ (replayKeys recent).take (excess (replayKeys recent).length windowSize))) ∨
    ((key ∈ recent.map Prod.fst ∨ (minCreatedAt recent).filter (keyTime key < ·) ≠ none) ∧
      (validateSubmission recent key v windowSize).1 ≠ .acceptable ∧
        (validateSubmission recent key v windowSize).2 = recent) := by
  unfold validateSubmission
  cases hold : recent.lookup key with
  | some old =>
    obtain ⟨l₁, l₂, rfl, -⟩ := lookup_eq_some_iff.1 hold
    exact .inr ⟨.inl (by simp), by simp, rfl⟩
  | none =>
    have hmem : key ∉ recent.map Prod.fst := by
      intro h
      obtain ⟨row, hrow, rfl⟩ := mem_map.1 h
      simpa using lookup_eq_none_iff.1 hold row hrow
    cases hmin : (minCreatedAt recent).filter (keyTime key < ·) with
    | some least => exact .inr ⟨.inr (by simp), by simp, rfl⟩
    | none => exact .inl ⟨hmem, rfl, rfl⟩

theorem step_of_not_accepts {s : RecentRequests ν} {d : List UInt8} {v : ν}
    (h : s.accepts kind c d v = false) : s.step kind (.submit c d v) = s := by
  have hrecent : (kind.check s.recent s.configured c d v).2 = s.recent := by
    by_cases hc : c.toNat ≤ maxTime
    · rw [accepts, check_eq _ _ _ hc] at h
      rw [check_eq _ _ _ hc]
      rcases validateSubmission_cases s.recent (keyOf c d) v (kind.windowSize s.configured) with
        ⟨-, -, heq⟩ | ⟨-, -, heq⟩
      · simp [heq] at h
      · exact heq
    · cases kind with
      | proposals =>
        simp only [Requests.check, checkProposal]
        rw [if_pos (show 9999999999 < c.toNat from not_le.1 hc)]
      | actions =>
        simp only [accepts, Requests.check, checkActionNotReplayed] at h ⊢
        rcases validateSubmission_cases s.recent (keyOf c d) v 100 with ⟨-, -, heq⟩ | ⟨-, -, heq⟩
        · rw [show validateSubmission s.recent (requestKey (createdAtStr c) d) v 100 = _ from heq] at h
          simp at h
        · exact heq
  simp [step, h, hrecent]

namespace Inv

variable {s : RecentRequests ν} {d : List UInt8} {v : ν} {a : Action ν}

/-- A submission with a time of ten digits is accepted if it is not retained and not older than the median. -/
theorem accepts_iff (k : s.Inv) (hc : c.toNat ≤ maxTime) :
    s.accepts kind c d v = true ↔ keyOf c d ∉ s.recent.map Prod.fst ∧ ∀ t ∈ median s.times, t ≤ c.toNat := by
  rw [← k.tooOld_iff hc d, accepts, check_eq _ _ _ hc]
  rcases validateSubmission_cases s.recent (keyOf c d) v (kind.windowSize s.configured) with
    ⟨hmem, hmin, heq⟩ | ⟨hor, hne, -⟩
  · simp [heq, hmem, hmin]
  · have hnot : ¬(keyOf c d ∉ s.recent.map Prod.fst ∧
        (minCreatedAt s.recent).filter (keyTime (keyOf c d) < ·) = none) :=
      fun h => hor.elim h.1 fun h' => h' h.2
    simp only [hnot, iff_false]
    split
    · rename_i heq
      exact absurd (Option.some.inj heq) hne
    · exact Bool.false_ne_true

theorem filter_notMem_take {α : Type} [DecidableEq α] {l : List α} (h : l.Nodup) (m : ℕ) :
    l.filter (fun x => x ∉ l.take m) = l.drop m := by
  have hdisjoint : ∀ x ∈ l.drop m, x ∉ l.take m := fun x hx hx' =>
    disjoint_take_drop h le_rfl hx' hx
  conv_lhs => rw [← take_append_drop m l]
  rw [filter_append, filter_eq_nil_iff.2, filter_eq_self.2, nil_append]
  · intro x hx
    simpa using hdisjoint x (by simpa using hx)
  · intro x hx
    simpa using hx

theorem keys_of_accepts (k : s.Inv) (hc : c.toNat ≤ maxTime) (h : s.accepts kind c d v = true) :
    ((s.step kind (.submit c d v)).recent.map Prod.fst).Perm
      (keyOf c d :: (replayKeys s.recent).drop (s.removed kind)) := by
  have hnew := (k.accepts_iff hc).1 h
  have hrecent : (s.step kind (.submit c d v)).recent = ((keyOf c d, v) :: s.recent).filter fun row =>
      row.1 ∉ (replayKeys s.recent).take (s.removed kind) := by
    have hcheck : (s.step kind (.submit c d v)).recent = (kind.check s.recent s.configured c d v).2 := rfl
    rw [hcheck, check_eq _ _ _ hc]
    rcases validateSubmission_cases s.recent (keyOf c d) v (kind.windowSize s.configured) with
      ⟨-, -, heq⟩ | ⟨-, hne, -⟩
    · exact congrArg Prod.snd heq
    · rw [accepts, check_eq _ _ _ hc] at h
      split at h
      · rename_i heq
        exact absurd (Option.some.inj heq) hne
      · cases h
  have hperm := perm_replayKeys s.recent
  have hkey : keyOf c d ∉ (replayKeys s.recent).take (s.removed kind) := fun hmem =>
    hnew.1 (hperm.mem_iff.1 (mem_of_mem_take hmem))
  have hmap : (((keyOf c d, v) :: s.recent).filter fun row =>
      row.1 ∉ (replayKeys s.recent).take (s.removed kind)).map Prod.fst =
      (keyOf c d :: s.recent.map Prod.fst).filter fun key => key ∉ (replayKeys s.recent).take (s.removed kind) := by
    rw [← map_cons (f := Prod.fst) (a := (keyOf c d, v)), filter_map]
    rfl
  rw [hrecent, hmap, filter_cons_of_pos (by simpa using hkey),
    ← filter_notMem_take (hperm.nodup_iff.2 k.nodup) (s.removed kind)]
  convert (List.Perm.filter _ hperm.symm).cons _

theorem submit (k : s.Inv) (hspaced : s.Spaced kind (.submit c d v)) : (s.step kind (.submit c d v)).Inv := by
  cases h : s.accepts kind c d v with
  | false => rwa [step_of_not_accepts h]
  | true =>
    obtain ⟨hc, -, hold⟩ := hspaced h
    obtain ⟨hnew, hmedian⟩ := (k.accepts_iff hc).1 h
    have hkeys := k.keys_of_accepts hc h
    have hperm := perm_replayKeys s.recent
    have haccepted : (s.step kind (.submit c d v)).accepted = (c, d) :: s.accepted := by simp [step, h]
    have htimes : (s.step kind (.submit c d v)).times.Perm
        (c.toNat :: ((replayKeys s.recent).map timeOf).drop (s.removed kind)) := by
      have hmap := hkeys.map timeOf
      rwa [map_map, map_cons, timeOf_keyOf, map_drop] at hmap
    obtain ⟨t', ht'⟩ : ∃ t', median (s.step kind (.submit c d v)).times = some t' :=
      exists_median fun hnil => by simp [hnil] at htimes
    refine ⟨?_, ?_, ?_, ?_⟩
    · intro key hkey
      rw [haccepted]
      rcases mem_cons.1 (hkeys.mem_iff.1 hkey) with rfl | hkey
      · exact ⟨c, d, hc, mem_cons_self, rfl⟩
      · obtain ⟨c', d', hc', hmem, hkey⟩ := k.rows key (hperm.mem_iff.1 (mem_of_mem_drop hkey))
        exact ⟨c', d', hc', mem_cons_of_mem _ hmem, hkey⟩
    · rw [hkeys.nodup_iff, nodup_cons]
      refine ⟨fun hmem => hnew (hperm.mem_iff.1 (mem_of_mem_drop hmem)), ?_⟩
      exact ((hperm.nodup_iff.2 k.nodup)).sublist (drop_sublist _ _)
    · intro c' d' hmem hnot
      rw [haccepted] at hmem
      rw [hkeys.mem_iff, mem_cons, not_or] at hnot
      rcases mem_cons.1 hmem with heq | hmem
      · cases heq
        exact absurd rfl hnot.1
      · refine ⟨t', ht', ?_⟩
        by_cases hrow : keyOf c' d' ∈ s.recent.map Prod.fst
        · -- its row has been removed now
          have htake : keyOf c' d' ∈ (replayKeys s.recent).take (s.removed kind) := by
            have hmem := hperm.mem_iff.2 hrow
            rw [← take_append_drop (s.removed kind) (replayKeys s.recent)] at hmem
            exact (mem_append.1 hmem).resolve_right hnot.2
          obtain ⟨hkept, hlast⟩ := hold _ htake
          rw [timeOf_keyOf] at hkept hlast
          refine lt_median_of_dropped htimes ?_ ?_ ht'
          · rw [← map_drop]
            intro x hx
            obtain ⟨key, hkey, rfl⟩ := mem_map.1 hx
            exact hkept key hkey
          · rw [← map_drop, map_eq_nil_iff]
            exact hlast
        · -- it was older than the median before
          obtain ⟨t, ht, hlt⟩ := k.forgotten c' d' hmem hrow
          have hsame : median ((replayKeys s.recent).map timeOf) = some t := by
            rw [← ht, median, median, List.Perm.length_eq (perm_times s)]
            congr 1
            exact List.Perm.eq_of_pairwise (fun _ _ _ _ hab hba => le_antisymm hab hba) (pairwise_insertionSort _ _)
              (pairwise_insertionSort _ _) (((perm_insertionSort _ _).trans (perm_times s)).trans
                (perm_insertionSort _ _).symm)
          exact hlt.trans_le (median_mono k.pairwise_times htimes hsame (hmedian t ht) ht')
    · rw [haccepted, nodup_cons]
      refine ⟨fun hmem => ?_, k.once⟩
      obtain ⟨t, ht, hlt⟩ := k.forgotten c d hmem hnew
      exact absurd (hmedian t ht) (not_le.2 hlt)

theorem step (k : s.Inv) (hspaced : s.Spaced kind a) : (s.step kind a).Inv := by
  cases a with
  | configure windowSize => exact ⟨k.rows, k.nodup, k.forgotten, k.once⟩
  | submit c d v => exact k.submit hspaced

theorem handles (k : s.Inv) (hc : c.toNat ≤ maxTime) (hspaced : s.Spaced kind (.submit c d v)) :
    s.Handles kind c d v := by
  constructor
  · intro hnot hmedian
    refine (k.accepts_iff hc).2 ⟨fun hmem => ?_, hmedian⟩
    obtain ⟨c', d', -, hmem, hkey⟩ := k.rows _ hmem
    obtain ⟨rfl, rfl⟩ := keyOf_injective hkey
    exact hnot hmem
  · intro h
    obtain ⟨-, hwindow, -⟩ := hspaced h
    have hlen := (k.keys_of_accepts hc h).length_eq
    rw [length_map, length_cons, length_drop, removed, excess, if_neg hwindow] at hlen
    split_ifs at hlen <;> omega

end Inv

/-- **Requests are not replayed**, over every run of submissions and changes of the window: none is accepted twice, a
new one not older than the median is accepted, and what an acceptance forgets is strictly older than what it keeps. -/
theorem protects_of_spaced (kind : Requests) {actions : List (Action ν)}
    (h : Along (step kind) (Spaced kind) {} actions) :
    let s := exec (step kind) ({} : RecentRequests ν) actions
    s.accepted.Nodup ∧ ∀ (c : UInt64) (d : List UInt8) (v : ν), c.toNat ≤ maxTime → s.Spaced kind (.submit c d v) →
      s.Handles kind c d v := by
  have k := exec_induction (I := Inv) (fun s a k hspaced => k.step hspaced) inv_empty h
  exact ⟨k.once, fun c d v hc hspaced => k.handles hc hspaced⟩

/-- Three requests in a window of two, a repetition of the first, and one more. -/
def spacedRun : List (Action ℕ) :=
  [.configure (some 2), .submit 5 [1] 0, .submit 7 [2] 1, .submit 8 [3] 2, .submit 5 [1] 3, .submit 9 [4] 4]

theorem protects_of_spaced_run :
    (exec (step .proposals) {} spacedRun).accepted = [(9, [4]), (8, [3]), (7, [2]), (5, [1])] ∧
      (exec (step .proposals) {} spacedRun).accepted.Nodup :=
  ⟨by decide +kernel, (protects_of_spaced .proposals (by decide +kernel)).1⟩

/-- Two requests of one second and a window of one: the first is accepted again. -/
theorem not_protects_ties :
    ¬∀ (kind : Requests) (actions : List (Action ℕ)), (exec (step kind) {} actions).accepted.Nodup ∧
      ∀ (c : UInt64) (d : List UInt8) (v : ℕ), (exec (step kind) {} actions).Handles kind c d v := by
  intro h
  have hnodup := (h .proposals [.configure (some 1), .submit 5 [1] 0, .submit 5 [2] 1, .submit 5 [1] 2]).1
  exact absurd hnodup (by decide +kernel)

end RecentRequests

end Ccf.Node.Gov
