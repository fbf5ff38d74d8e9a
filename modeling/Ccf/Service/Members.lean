import Mathlib.Algebra.Group.Nat.Defs
import Ccf.Lib.Assoc
import Ccf.Lib.Runs

/-! # Members and recovery of a service

The functions of `internal_tables_access.h` that decide whether an open service can be recovered: adding, activating and
removing members, the recovery threshold and opening the service. Recovery needs the shares of as many active
participants as the threshold says, or, where there are only owners, of one of them (`Recoverable`).

A member is known by the digest of its certificate. Of the certificates, the member data, the acknowledgements and the
governance history these functions read only the keys. -/

namespace Ccf.Service

open Assoc List Runs

inductive MemberStatus where
  | accepted
  | active
deriving DecidableEq

inductive MemberRecoveryRole where
  | nonParticipant
  | participant
  | owner
deriving DecidableEq

structure MemberDetails where
  status : MemberStatus := .accepted
  recoveryRole : Option MemberRecoveryRole := none
deriving DecidableEq

/-- `opened` is `OPEN`. -/
inductive ServiceStatus where
  | opening
  | opened
  | waitingForRecoveryShares
  | recovering
deriving DecidableEq

structure NewMember (ι κ : Type) where
  id : ι
  encryptionPubKey : Option κ := none
  recoveryRole : Option MemberRecoveryRole := none
deriving DecidableEq

/-- The tables: `ι` is the type of the member ids and `κ` that of their encryption keys. -/
structure Members (ι κ : Type) where
  certs : List ι := []
  info : List (ι × MemberDetails) := []
  encryptionKeys : List (ι × κ) := []
  acks : List ι := []
  govHistory : List ι := []
  service : Option ServiceStatus
  /-- The recovery threshold of the configuration. -/
  config : Option ℕ
deriving DecidableEq

namespace Members

variable {ι κ : Type} [DecidableEq ι] (s : Members ι κ)

/-! ### Reading the tables -/

variable (id : ι)

def isRecoveryParticipantOrOwner : Bool := (s.encryptionKeys.lookup id).isSome

def isRecoveryOwner : Bool := (s.info.lookup id).any fun m => m.recoveryRole = some .owner

def isRecoveryParticipant : Bool := s.isRecoveryParticipantOrOwner id && !s.isRecoveryOwner id

/-- The member is active in the role; one that has a key and no role is a participant. -/
def isActiveAs (role : MemberRecoveryRole) (id : ι) : Bool :=
  (s.info.lookup id).any fun m => m.status = .active && m.recoveryRole.getD .participant = role

/-- The active members in a role that have an encryption key; throws if one with a key has no details. -/
def getActiveRecovery (role : MemberRecoveryRole) : Option (List (ι × κ)) :=
  if s.encryptionKeys.all fun p => (s.info.lookup p.1).isSome then
    some (s.encryptionKeys.filter fun p => s.isActiveAs role p.1)
  else none

def getActiveRecoveryParticipants : Option (List (ι × κ)) := s.getActiveRecovery .participant

def getActiveRecoveryOwners : Option (List (ι × κ)) := s.getActiveRecovery .owner

/-- Throws if there is no configuration. -/
def getRecoveryThreshold : Option ℕ := s.config

/-! ### The calls

The result is `none` if the call throws, and otherwise what it returns with the tables it leaves. -/

/-- Whether the role and the key of a new member go together. -/
def validRole (m : NewMember ι κ) : Bool :=
  match m.recoveryRole, m.encryptionPubKey with
  | none, _ => true
  | some role, none => role = .nonParticipant
  | some role, some _ => role = .participant || role = .owner

/-- The writes of `add_member`. -/
def enrol (m : NewMember ι κ) : Members ι κ :=
  { s with
    certs := m.id :: s.certs
    info := put m.id { recoveryRole := m.recoveryRole } s.info
    encryptionKeys := m.encryptionPubKey.elim s.encryptionKeys fun key => put m.id key s.encryptionKeys
    acks := m.id :: s.acks.filter (· ≠ m.id) }

/-- The id of the member is not returned. -/
def addMember (m : NewMember ι κ) : Option (Bool × Members ι κ) :=
  if m.id ∈ s.certs then some (true, s)
  else if !validRole m then none
  else some (true, s.enrol m)

def activateMember : Option (Bool × Members ι κ) :=
  (s.info.lookup id).map fun member =>
    (member.status ≠ .active, { s with info := put id { member with status := .active } s.info })

/-- `n - 1` on 64 bits. -/
def decrement (n : ℕ) : ℕ := if n = 0 then 2 ^ 64 - 1 else n - 1

/-- Check what the tables say on the active participants, the active owners and the threshold. -/
def checkRecovery (check : ℕ → ℕ → ℕ → Bool) : Option Bool :=
  match s.getActiveRecoveryParticipants, s.getActiveRecoveryOwners, s.getRecoveryThreshold with
  | some participants, some owners, some threshold => some (check participants.length owners.length threshold)
  | _, _, _ => none

/-- The check of `remove_member`. The last participant may go if there are owners and the threshold is 1, and the last
owner if there are participants. -/
def removable (member : MemberDetails) : Option Bool :=
  if member.status ≠ .active then some true
  else if s.isRecoveryParticipant id then
    s.checkRecovery fun participants owners threshold =>
      decrement participants = 0 ∧ 0 < owners ∧ threshold = 1 ∨ threshold ≤ decrement participants
  else if s.isRecoveryOwner id then
    s.checkRecovery fun participants owners _ => decrement owners = 0 → 0 < participants
  else some true

/-- The writes of `remove_member`. -/
def strike : Members ι κ :=
  { s with
    certs := s.certs.filter (· ≠ id)
    info := erase id s.info
    encryptionKeys := erase id s.encryptionKeys
    acks := s.acks.filter (· ≠ id)
    govHistory := s.govHistory.filter (· ≠ id) }

def removeMember : Option (Bool × Members ι κ) :=
  match s.info.lookup id with
  | none => some (true, s)
  | some member => (s.removable id member).map fun allowed => if allowed then (true, s.strike id) else (false, s)

/-- The check of `open_service` on the members. That a service with owners only needs a threshold of 1 is logged, and
not enforced. -/
def openable : Option Bool :=
  s.checkRecovery fun participants owners threshold => participants = 0 ∧ owners ≠ 0 ∨ threshold ≤ participants

def openService : Option (Bool × Members ι κ) :=
  s.openable.map fun allowed =>
    if !allowed then (false, s)
    else
      match s.service with
      | some .opened => (true, s)
      | some .opening | some .waitingForRecoveryShares => (true, { s with service := some .opened })
      | some .recovering | none => (false, s)

/-- The check of `set_recovery_threshold` on the members, for an open service; the current threshold is read only when
it is replaced. -/
def allowsThreshold (threshold : ℕ) : Option Bool :=
  if s.service = some .opened then
    match s.getActiveRecoveryParticipants, s.getActiveRecoveryOwners with
    | some participants, some owners =>
      some (if owners ≠ [] ∧ participants = [] then threshold ≤ 1 else threshold ≤ participants.length)
    | _, _ => none
  else some true

def setRecoveryThreshold (threshold : ℕ) : Option (Bool × Members ι κ) :=
  if threshold = 0 ∨ s.service = none ∨ s.service = some .waitingForRecoveryShares then some (false, s)
  else
    match s.allowsThreshold threshold with
    | none => none
    | some false => some (false, s)
    | some true => s.config.map fun _ => (true, { s with config := some threshold })

inductive Call (ι κ : Type) where
  | addMember (m : NewMember ι κ)
  | activateMember (id : ι)
  | removeMember (id : ι)
  | setRecoveryThreshold (threshold : ℕ)
  | openService
deriving DecidableEq

def call : Call ι κ → Option (Bool × Members ι κ)
  | .addMember m => s.addMember m
  | .activateMember id => s.activateMember id
  | .removeMember id => s.removeMember id
  | .setRecoveryThreshold threshold => s.setRecoveryThreshold threshold
  | .openService => s.openService

/-- The tables after a call; those of one that throws are not committed. -/
def step (s : Members ι κ) (c : Call ι κ) : Members ι κ := (s.call c).elim s Prod.snd

/-! ### The property -/

/-- How many active members with a key have the role. -/
def count (role : MemberRecoveryRole) : ℕ := s.encryptionKeys.countP fun p => s.isActiveAs role p.1

def Recoverable (participants owners threshold : ℕ) : Prop :=
  threshold ≤ participants ∨ participants = 0 ∧ 1 ≤ owners ∧ threshold = 1

/-- The service is not opened with owners only and a threshold above 1. -/
def Guarded (s : Members ι κ) : Call ι κ → Prop
  | .openService => s.count .participant = 0 → s.count .owner ≠ 0 → ∀ threshold ∈ s.config, threshold ≤ 1
  | _ => True

instance (s : Members ι κ) (c : Call ι κ) : Decidable (s.Guarded c) := by cases c <;> unfold Guarded <;> infer_instance

/-! ### Counting members -/

variable {threshold : ℕ}

omit [DecidableEq ι] in
theorem Recoverable.mono {participants owners participants' owners' : ℕ}
    (h : Recoverable participants owners threshold) (hp : participants ≤ participants') (ho : owners ≤ owners') :
    Recoverable participants' owners' threshold := by
  unfold Recoverable at h ⊢
  omega

variable {s} {role : MemberRecoveryRole} {id : ι} {l : List (ι × κ)}

theorem length_getActiveRecovery (h : s.getActiveRecovery role = some l) : l.length = s.count role := by
  unfold getActiveRecovery at h
  split_ifs at h
  rw [← Option.some.inj h, count, countP_eq_length_filter]

/-- What a passed check says on the numbers of members. -/
theorem check_of_checkRecovery {check : ℕ → ℕ → ℕ → Bool} (h : s.checkRecovery check = some true)
    (hconfig : s.config = some threshold) : check (s.count .participant) (s.count .owner) threshold = true := by
  unfold checkRecovery getRecoveryThreshold at h
  rw [hconfig] at h
  split at h
  · rename_i participants owners t hp ho ht
    cases ht
    rw [← length_getActiveRecovery hp, ← length_getActiveRecovery ho]
    exact Option.some.inj h
  · cases h

variable {t : Members ι κ} {member : MemberDetails} {m : NewMember ι κ}

theorem count_congr (hkeys : t.encryptionKeys = s.encryptionKeys)
    (hactive : ∀ p ∈ s.encryptionKeys, t.isActiveAs role p.1 = s.isActiveAs role p.1) :
    t.count role = s.count role := by
  rw [count, hkeys]
  exact countP_congr fun p hp => by rw [hactive p hp]

/-! ### The tables -/

/-- A member of any table has a certificate, and at most one entry. -/
structure Consistent (s : Members ι κ) : Prop where
  info_certs : ∀ id ∈ keys s.info, id ∈ s.certs
  keys_certs : ∀ id ∈ keys s.encryptionKeys, id ∈ s.certs
  nodup_info : (keys s.info).Nodup
  nodup_keys : (keys s.encryptionKeys).Nodup

theorem isActiveAs_enrol (hne : id ≠ m.id) : (s.enrol m).isActiveAs role id = s.isActiveAs role id := by
  unfold isActiveAs enrol
  rw [lookup_put, if_neg hne]

theorem isActiveAs_strike {id' : ι} (hne : id' ≠ id) : (s.strike id).isActiveAs role id' = s.isActiveAs role id' := by
  unfold isActiveAs strike
  rw [lookup_erase, if_neg hne]

theorem count_enrol (h : s.Consistent) (hm : m.id ∉ s.certs) : (s.enrol m).count role = s.count role := by
  have hold : ∀ p ∈ s.encryptionKeys, (s.enrol m).isActiveAs role p.1 = s.isActiveAs role p.1 := by
    intro p hp
    exact isActiveAs_enrol fun heq => hm (heq ▸ h.keys_certs _ (mem_map_of_mem hp))
  have hnew : (s.enrol m).isActiveAs role m.id = false := by
    unfold isActiveAs enrol
    rw [lookup_put, if_pos rfl]
    rfl
  cases hkey : m.encryptionPubKey with
  | none => exact count_congr (by rw [enrol, hkey]; rfl) hold
  | some key =>
    have hkeys : (s.enrol m).encryptionKeys = s.encryptionKeys ++ [(m.id, key)] := by
      rw [enrol, hkey]
      exact if_neg fun hmem => hm (h.keys_certs _ hmem)
    rw [count, hkeys, countP_append, countP_singleton, if_neg (by rw [hnew]; decide), Nat.add_zero]
    exact countP_congr fun p hp => by rw [hold p hp]

theorem count_strike :
    (s.strike id).count role = (erase id s.encryptionKeys).countP fun p => s.isActiveAs role p.1 := by
  refine countP_congr fun p hp => ?_
  have hne := (mem_keys_erase.1 (mem_map_of_mem hp : p.1 ∈ Assoc.keys _)).2
  rw [isActiveAs_strike hne]

/-- The removal of a member lowers a count by at most one. -/
theorem count_le_strike (h : s.Consistent) (role : MemberRecoveryRole) (id : ι) :
    s.count role ≤ (s.strike id).count role + 1 := by
  rw [count_strike]
  exact countP_le_erase_add_one h.nodup_keys (s.isActiveAs role)

theorem count_strike_of_not (h : id ∈ keys s.encryptionKeys → s.isActiveAs role id = false) :
    (s.strike id).count role = s.count role := by
  rw [count_strike]
  exact countP_erase h

theorem count_le_activate (hm : s.info.lookup id = some member) :
    s.count role ≤ count { s with info := put id { member with status := .active } s.info } role := by
  refine countP_mono_left fun p _ hp => ?_
  unfold isActiveAs at hp ⊢
  rw [lookup_put]
  split_ifs with heq
  · rw [heq, hm] at hp
    simp only [Option.any_some, Bool.and_eq_true, decide_eq_true_eq] at hp ⊢
    exact ⟨trivial, hp.2⟩
  · exact hp

/-! ### What the calls do -/

/-- What a call does to the tables, if anything. -/
inductive Effect (s : Members ι κ) : Call ι κ → Members ι κ → Prop
  | enrol {m : NewMember ι κ} (h : m.id ∉ s.certs) : Effect s (.addMember m) (s.enrol m)
  | activate {id : ι} {member : MemberDetails} (h : s.info.lookup id = some member) :
      Effect s (.activateMember id) { s with info := put id { member with status := .active } s.info }
  | strike {id : ι} {member : MemberDetails} (h : s.info.lookup id = some member)
      (hcheck : s.removable id member = some true) : Effect s (.removeMember id) (s.strike id)
  | threshold {t : ℕ} (hpos : t ≠ 0) (hcheck : s.allowsThreshold t = some true) :
      Effect s (.setRecoveryThreshold t) { s with config := some t }
  | opened (hcheck : s.openable = some true) : Effect s .openService { s with service := some .opened }

variable {c : Call ι κ} {b : Bool}

/-- A call that returns false changes no table. -/
theorem Consistent.call_cases (hs : s.Consistent)
    (h : s.call c = some (b, t)) : t = s ∨ b = true ∧ Effect s c t := by
  cases c with
  | addMember m =>
    simp only [call, addMember] at h
    split_ifs at h with hm
    · exact .inl (by cases h; rfl)
    · cases h
      exact .inr ⟨rfl, .enrol hm⟩
  | activateMember id =>
    obtain ⟨member, hm, heq⟩ := Option.map_eq_some_iff.1 h
    cases heq
    by_cases hactive : member.status = .active
    · rw [← hactive, put_of_lookup hs.nodup_info hm]
      exact .inl rfl
    · exact .inr ⟨decide_eq_true hactive, .activate hm⟩
  | removeMember id =>
    simp only [call, removeMember] at h
    split at h
    · exact .inl (by cases h; rfl)
    · rename_i member hm
      obtain ⟨allowed, hcheck, heq⟩ := Option.map_eq_some_iff.1 h
      cases allowed with
      | false => exact .inl (by cases heq; rfl)
      | true =>
        cases heq
        exact .inr ⟨rfl, .strike hm hcheck⟩
  | setRecoveryThreshold n =>
    simp only [call, setRecoveryThreshold] at h
    split_ifs at h with hcond
    · exact .inl (by cases h; rfl)
    · split at h
      · cases h
      · exact .inl (by cases h; rfl)
      · rename_i hcheck
        obtain ⟨_, -, heq⟩ := Option.map_eq_some_iff.1 h
        cases heq
        exact .inr ⟨rfl, .threshold (fun hn => hcond (.inl hn)) hcheck⟩
  | openService =>
    obtain ⟨allowed, hcheck, heq⟩ := Option.map_eq_some_iff.1 h
    cases allowed with
    | false => exact .inl (by cases heq; rfl)
    | true =>
      rw [Bool.not_true, if_neg (by decide)] at heq
      split at heq
      case h_2 | h_3 =>
        cases heq
        exact .inr ⟨rfl, .opened hcheck⟩
      all_goals exact .inl (by cases heq; rfl)

theorem Consistent.step_cases (hs : s.Consistent) (c : Call ι κ) : s.step c = s ∨ Effect s c (s.step c) := by
  unfold step
  cases h : s.call c with
  | none => exact .inl rfl
  | some r => exact (hs.call_cases h).imp_right And.right

theorem Consistent.effect (h : s.Consistent) (he : Effect s c t) : t.Consistent := by
  cases he with
  | @enrol m hm =>
    refine ⟨fun id hid => ?_, ?_, nodup_put h.nodup_info, ?_⟩
    · rcases mem_keys_put.1 hid with rfl | hid
      · exact mem_cons_self
      · exact mem_cons_of_mem _ (h.info_certs id hid)
    · intro id hid
      unfold enrol at hid
      cases hkey : m.encryptionPubKey with
      | none =>
        rw [hkey] at hid
        exact mem_cons_of_mem _ (h.keys_certs id hid)
      | some key =>
        rw [hkey] at hid
        rcases mem_keys_put.1 hid with rfl | hid
        · exact mem_cons_self
        · exact mem_cons_of_mem _ (h.keys_certs id hid)
    · unfold enrol
      cases m.encryptionPubKey with
      | none => exact h.nodup_keys
      | some key => exact nodup_put h.nodup_keys
  | @activate id member hm =>
    refine ⟨fun id' hid => ?_, h.keys_certs, nodup_put h.nodup_info, h.nodup_keys⟩
    rcases mem_keys_put.1 hid with rfl | hid
    · exact h.info_certs _ (lookup_isSome_iff.1 (by rw [hm]; rfl))
    · exact h.info_certs _ hid
  | @strike id member hm hcheck =>
    refine ⟨fun id' hid => ?_, fun id' hid => ?_, nodup_erase h.nodup_info, nodup_erase h.nodup_keys⟩
    · obtain ⟨hid, hne⟩ := mem_keys_erase.1 hid
      exact mem_filter.2 ⟨h.info_certs _ hid, by simpa using hne⟩
    · obtain ⟨hid, hne⟩ := mem_keys_erase.1 hid
      exact mem_filter.2 ⟨h.keys_certs _ hid, by simpa using hne⟩
  | threshold | opened => exact ⟨h.info_certs, h.keys_certs, h.nodup_info, h.nodup_keys⟩

/-- There is a threshold, and an open service can be recovered. -/
def Secure (s : Members ι κ) : Prop :=
  ∃ threshold, s.config = some threshold ∧ 1 ≤ threshold ∧
    (s.service = some .opened → Recoverable (s.count .participant) (s.count .owner) threshold)

/-- A member whose removal is allowed is not needed. -/
theorem recoverable_strike (h : s.Consistent) (hm : s.info.lookup id = some member)
    (hcheck : s.removable id member = some true) (hconfig : s.config = some threshold)
    (hrec : Recoverable (s.count .participant) (s.count .owner) threshold) :
    Recoverable ((s.strike id).count .participant) ((s.strike id).count .owner) threshold := by
  have hp := count_le_strike h .participant id
  have ho := count_le_strike h .owner id
  have hactive : ∀ role, s.isActiveAs role id = (decide (member.status = .active) &&
      decide (member.recoveryRole.getD .participant = role)) := by
    intro role
    rw [isActiveAs, hm]
    rfl
  have howner : s.isRecoveryOwner id = decide (member.recoveryRole = some .owner) := by
    rw [isRecoveryOwner, hm]
    rfl
  have hkey : s.isRecoveryParticipantOrOwner id = true ↔ id ∈ keys s.encryptionKeys := lookup_isSome_iff
  have hsame : ∀ role, (id ∈ keys s.encryptionKeys → s.isActiveAs role id = false) →
      (s.strike id).count role = s.count role := fun role => count_strike_of_not
  unfold removable at hcheck
  split_ifs at hcheck with hstatus hpart hown
  · refine hrec.mono (Nat.le_of_eq (hsame _ fun _ => ?_).symm) (Nat.le_of_eq (hsame _ fun _ => ?_).symm) <;>
      simp [hactive, hstatus]
  · have hcheck' := of_decide_eq_true (check_of_checkRecovery hcheck hconfig)
    have hnot : s.isActiveAs .owner id = false := by
      simp only [isRecoveryParticipant, howner, Bool.and_eq_true, Bool.not_eq_true', decide_eq_false_iff_not] at hpart
      rw [hactive, Bool.and_eq_false_iff]
      refine .inr (decide_eq_false fun heq => hpart.2 ?_)
      cases hrole : member.recoveryRole with
      | none => rw [hrole] at heq; cases heq
      | some role => rw [hrole] at heq; exact congrArg some heq
    rw [hsame .owner fun _ => hnot]
    unfold decrement at hcheck'
    unfold Recoverable at hrec ⊢
    split_ifs at hcheck' <;> omega
  · have hcheck' := of_decide_eq_true (check_of_checkRecovery hcheck hconfig)
    have hnot : s.isActiveAs .participant id = false := by
      rw [howner, decide_eq_true_eq] at hown
      rw [hactive, hown]
      simp
    rw [hsame .participant fun _ => hnot]
    unfold decrement at hcheck'
    unfold Recoverable at hrec ⊢
    split_ifs at hcheck' <;> omega
  · have hnone : id ∉ keys s.encryptionKeys := by
      intro hmem
      exact hpart (by rw [isRecoveryParticipant, hkey.2 hmem, Bool.not_eq_true] at *; simp [hown])
    rw [hsame .participant fun hmem => absurd hmem hnone, hsame .owner fun hmem => absurd hmem hnone]
    exact hrec

theorem Secure.effect (h : s.Consistent) (hs : s.Secure) (he : Effect s c t) (hguard : s.Guarded c) : t.Secure := by
  obtain ⟨threshold, hconfig, hpos, hrec⟩ := hs
  cases he with
  | enrol hm =>
    refine ⟨threshold, hconfig, hpos, fun hopen => ?_⟩
    rw [count_enrol h hm, count_enrol h hm]
    exact hrec hopen
  | activate hm =>
    exact ⟨threshold, hconfig, hpos, fun hopen => (hrec hopen).mono (count_le_activate hm) (count_le_activate hm)⟩
  | strike hm hcheck =>
    exact ⟨threshold, hconfig, hpos, fun hopen => recoverable_strike h hm hcheck hconfig (hrec hopen)⟩
  | @threshold t ht hcheck =>
    refine ⟨t, rfl, Nat.one_le_iff_ne_zero.2 ht, fun hopen => ?_⟩
    show Recoverable (s.count .participant) (s.count .owner) t
    unfold allowsThreshold at hcheck
    rw [if_pos hopen] at hcheck
    split at hcheck
    · rename_i participants owners hp ho
      have hcheck' := Option.some.inj hcheck
      rw [← length_getActiveRecovery hp, ← length_getActiveRecovery ho]
      split_ifs at hcheck' with hcond
      · have howners := length_pos_iff.2 hcond.1
        rw [hcond.2, length_nil]
        exact .inr ⟨rfl, howners, by have := of_decide_eq_true hcheck'; omega⟩
      · exact .inl (of_decide_eq_true hcheck')
    · cases hcheck
  | opened hcheck =>
    refine ⟨threshold, hconfig, hpos, fun _ => ?_⟩
    show Recoverable (s.count .participant) (s.count .owner) threshold
    have hcheck' := of_decide_eq_true (check_of_checkRecovery hcheck hconfig)
    have hone := fun hp ho => hguard hp ho threshold hconfig
    unfold Recoverable
    omega

/-! ### Runs -/

/-- A service without members. -/
def initial (service : Option ServiceStatus) (threshold : ℕ) : Members ι κ := { service, config := some threshold }

omit [DecidableEq ι] in
theorem consistent_initial (service : Option ServiceStatus) (threshold : ℕ) :
    (initial service threshold : Members ι κ).Consistent :=
  ⟨nofun, nofun, nodup_nil, nodup_nil⟩

theorem Consistent.step (h : s.Consistent) (c : Call ι κ) : (s.step c).Consistent := by
  rcases h.step_cases c with heq | he
  · rwa [heq]
  · exact h.effect he

theorem Secure.step (h : s.Consistent) (hs : s.Secure) (hguard : s.Guarded c) : (s.step c).Secure := by
  rcases h.step_cases c with heq | he
  · rwa [heq]
  · exact hs.effect h he hguard

/-- **An open service can be recovered**, unless it was opened with owners only and a threshold above 1; and a call that
returns false changes no table. -/
theorem recoverable_along_run (service : Option ServiceStatus) (threshold : ℕ) (calls : List (Call ι κ))
    (hservice : service ≠ some .opened) (hthreshold : 1 ≤ threshold) :
    let s : Members ι κ := exec step (initial service threshold) calls
    (Along step Guarded (initial service threshold : Members ι κ) calls → s.service = some .opened →
      ∃ n, s.config = some n ∧ Recoverable (s.count .participant) (s.count .owner) n) ∧
      ∀ c t, s.call c = some (false, t) → t = s := by
  intro s
  have hcons : s.Consistent :=
    exec_induction (P := fun _ _ => True) (fun t c h _ => h.step c) (consistent_initial service threshold)
      (along_true _ _)
  refine ⟨fun hguard hopen => ?_, fun c t h => (hcons.call_cases h).resolve_right fun h => Bool.noConfusion h.1⟩
  obtain ⟨-, n, hn, -, hrec⟩ := exec_induction (I := fun t : Members ι κ => t.Consistent ∧ t.Secure)
    (fun t c h hg => ⟨h.1.step c, h.2.step h.1 hg⟩)
    ⟨consistent_initial service threshold, threshold, rfl, hthreshold, fun h => absurd h hservice⟩ hguard
  exact ⟨n, hn, hrec hopen⟩

/-- Two participants and an owner; one participant is removed after the service was opened. -/
def recoverableRun : List (Call ℕ ℕ) :=
  [.addMember ⟨1, some 10, none⟩, .addMember ⟨2, some 20, some .owner⟩, .activateMember 1, .activateMember 2,
    .openService, .removeMember 1]

theorem recoverable_along_recoverableRun :
    let s := exec step (initial (some .opening) 1) recoverableRun
    s.service = some .opened ∧ ∃ n, s.config = some n ∧ Recoverable (s.count .participant) (s.count .owner) n :=
  ⟨by decide, (recoverable_along_run (some .opening) 1 recoverableRun (by decide) (by decide)).1 (by decide)
    (by decide)⟩

/-- The only member is an owner, and the threshold is 2 when the service is opened. -/
def ownerRun : List (Call ℕ ℕ) :=
  [.addMember ⟨1, some 10, some .owner⟩, .activateMember 1, .setRecoveryThreshold 2, .openService]

/-- A service with owners only can be opened whatever the threshold is. -/
theorem not_recoverable_along_run :
    ¬∀ (service : Option ServiceStatus) (threshold : ℕ) (calls : List (Call ℕ ℕ)),
      service ≠ some .opened → 1 ≤ threshold →
      let s : Members ℕ ℕ := exec step (initial service threshold) calls
      s.service = some .opened → ∃ n, s.config = some n ∧ Recoverable (s.count .participant) (s.count .owner) n := by
  intro h
  obtain ⟨n, hn, hrec⟩ := h (some .opening) 1 ownerRun (by decide) (by decide) (by decide)
  have htwo : (exec step (initial (some .opening) 1) ownerRun).config = some 2 := by decide
  cases hn.symm.trans htwo
  revert hrec
  unfold Recoverable
  decide

end Members
end Ccf.Service
