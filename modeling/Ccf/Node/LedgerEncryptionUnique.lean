import Ccf.Node.LedgerEncryptionOrigin

/-! # No initialisation vector is used for two plain texts

In a lawful run the leader of a view writes each index once, and nodes agree on what is committed at an index. If every
transaction is replicated in the view it began in (`Service.InView`), the vector of an entry is that of the view and
index it is written at. If moreover snapshots are taken when no map has been created after their version, and no two
keys of a map have the same hash (`Service.Settled`), a snapshot is a function of the committed log.

A node that is elected rolls its store back to the new view before it is seen to be primary. In between, a
transaction that began in the old view is let through, and takes an index that the old view has used
(`not_uniform_reelected`). -/

namespace Ccf.Node.LedgerEncryption

open Service List Function Kv SignedRaft ViewHistory

section
variable {T : Tables} {g : Genesis} {sys sys' : Sys NodeId Entry} {s s' : Service}

/-! ### The invariant -/

/-- What is serialised has the vector of its transaction, and what is emitted has an origin. -/
structure Accounted (T : Tables) (sys : Sys NodeId Entry) (s : Service) : Prop where
  keyed : ∀ i, Keyed (s.stores i)
  serialised : ∀ i k z, s.serialised i k = some z → ∃ txid, ((s.stores i).txs k).txid? = some txid ∧
    txid.seqno < 2 ^ 64 ∧ setIv txid .writeSetWithCommitEvidenceAndClaims = some z.record.iv
  origin : ∀ r ∈ s.emitted, Origin T sys r
  agrees : ∀ r ∈ s.emitted, ∀ r' ∈ s.emitted, r.Agrees r'

variable (h : Accounted T sys s)
include h

namespace Accounted

theorem later (hl : Later sys sys') (hstores : s'.stores = s.stores)
    (hserialised : s'.serialised = s.serialised) (hemitted : s'.emitted = s.emitted) : Accounted T sys' s' where
  keyed := hstores ▸ h.keyed
  serialised := by
    rw [hstores, hserialised]
    exact h.serialised
  origin := by
    rw [hemitted]
    exact fun r hr => (h.origin r hr).later hl
  agrees := hemitted ▸ h.agrees

/-- A store does a step in which transactions keep their views and versions. -/
theorem setStore (i : NodeId) {store : Replication} (hkeyed : Keyed store)
    (htxid : ∀ k txid, ((s.stores i).txs k).txid? = some txid → (store.txs k).txid? = some txid)
    (hstores : s'.stores = update s.stores i store) (hserialised : s'.serialised = s.serialised)
    (hemitted : s'.emitted = s.emitted) : Accounted T sys s' where
  keyed j := by
    rw [hstores]
    by_cases hj : j = i
    · subst hj
      rw [update_self]
      exact hkeyed
    · rw [update_of_ne hj]
      exact h.keyed j
  serialised j k z hz := by
    rw [hserialised] at hz
    obtain ⟨txid, hk, hrest⟩ := h.serialised j k z hz
    refine ⟨txid, ?_, hrest⟩
    rw [hstores]
    by_cases hj : j = i
    · subst hj
      rw [update_self]
      exact htxid k txid hk
    · rw [update_of_ne hj]
      exact hk
  origin := hemitted ▸ h.origin
  agrees := hemitted ▸ h.agrees

theorem emit (hl : Later sys sys') (hstores : s'.stores = s.stores)
    (hserialised : s'.serialised = s.serialised) {new : List Encrypted} (hemitted : s'.emitted = s.emitted ++ new)
    (horigin : ∀ r ∈ new, Origin T sys' r) (hold : ∀ r ∈ new, ∀ r' ∈ s.emitted, r.Agrees r')
    (hnew : ∀ r ∈ new, ∀ r' ∈ new, r.Agrees r') : Accounted T sys' s' where
  keyed := hstores ▸ h.keyed
  serialised := by
    rw [hstores, hserialised]
    exact h.serialised
  origin := by
    rw [hemitted]
    exact forall_mem_append.2 ⟨fun r hr => (h.origin r hr).later hl, horigin⟩
  agrees := by
    rw [hemitted]
    intro r hr r' hr'
    rcases mem_append.1 hr with hr | hr <;> rcases mem_append.1 hr' with hr' | hr'
    · exact h.agrees r hr r' hr'
    · exact (hold r' hr' r hr).symm
    · exact hold r hr r' hr'
    · exact hnew r hr r' hr'

end Accounted

/-! ### Steps of a store -/

theorem Accounted.onStore (i : NodeId) (x : Replication.Action) :
    Accounted T sys (s.onStore i x) := by
  have hkeyed : Keyed { s.stores i with isPrimary := (s.world.nodes i).isLeader } :=
    (h.keyed i).same rfl rfl fun _ _ _ hk => hk
  have hstep := fun x => hkeyed.step x
  have htxid : ∀ (x : Replication.Action) k txid, ((s.stores i).txs k).txid? = some txid →
      (({ s.stores i with isPrimary := (s.world.nodes i).isLeader } : Replication).step x |>.txs k).txid? = some txid :=
    fun x k txid hk => txid?_step (s := { s.stores i with isPrimary := (s.world.nodes i).isLeader }) hk x
  unfold Service.onStore
  cases x with
  | replicate | setPrimary => exact h
  | _ => exact h.setStore i (hstep _) (htxid _) rfl rfl rfl

variable {i : NodeId}

theorem Accounted.serialise {k : ℕ} {tx : Tx} {plain additionalData : List UInt8}
    (hfits : ∀ txid ∈ ((s.stores i).txs k).txid?, txid.seqno < 2 ^ 64) :
    Accounted T sys (s.serialise i k tx plain additionalData) := by
  unfold Service.serialise
  split
  · rename_i txid htxid hnone
    split
    · exact h
    · rename_i r secrets hencrypt
      refine ⟨h.keyed, fun j k' z hz => ?_, h.origin, h.agrees⟩
      dsimp only at hz
      by_cases hj : j = i
      · subst hj
        rw [update_self] at hz
        by_cases hk : k' = k
        · subst hk
          rw [update_self] at hz
          cases hz
          exact ⟨txid, htxid, hfits txid htxid, (LedgerSecrets.encrypt_eq_some hencrypt).1⟩
        · rw [update_of_ne hk] at hz
          exact h.serialised j k' z hz
      · rw [update_of_ne hj] at hz
        exact h.serialised j k' z hz
  · exact h

omit h

/-! ### Batches -/

variable {batch : List (ℕ × Serialised)} {p : ℕ × Serialised} {f : ℕ → Option Serialised} {v : ℕ}
  {l : List (BatchEntry ℕ)}

theorem mem_serialisedBatch
    (h : serialisedBatch f l = some batch) (hp : p ∈ batch) : ∃ e ∈ l, p.1 = e.version ∧ f e.tx = some p.2 := by
  induction l generalizing batch with
  | nil =>
    cases h
    cases hp
  | cons e l ih =>
    obtain ⟨z, hz, h⟩ := Option.bind_eq_some_iff.1 h
    obtain ⟨rest, hrest, h⟩ := Option.bind_eq_some_iff.1 h
    cases h
    rcases mem_cons.1 hp with rfl | hp
    · exact ⟨e, mem_cons_self, rfl, hz⟩
    · obtain ⟨e', he', hp⟩ := ih hrest hp
      exact ⟨e', mem_cons_of_mem _ he', hp⟩

theorem numbered_entries {l : List (ℕ × Bool)}
    (h : serialisedBatch f (batchFrom v l) = some batch) : NumberedFrom v (entries batch) := by
  induction l generalizing v batch with
  | nil =>
    cases h
    intro k p hp
    cases hp
  | cons e l ih =>
    obtain ⟨z, hz, h⟩ := Option.bind_eq_some_iff.1 h
    obtain ⟨rest, hrest, h⟩ := Option.bind_eq_some_iff.1 h
    cases h
    exact (ih hrest).cons

variable {c : CommitCall ℕ} {n : ℕ}

theorem batchOf_eq_some (h : s.batchOf i = some (c, batch)) :
    (s.stores i).call = some (c, false) ∧ serialisedBatch (s.serialised i) c.batch = some batch := by
  unfold batchOf at h
  split at h
  · rename_i c' hc
    obtain ⟨batch', hbatch, h⟩ := Option.map_eq_some_iff.1 h
    cases h
    exact ⟨hc, hbatch⟩
  · cases h

/-- What is given to consensus has the vectors of the replication view and its versions. -/
theorem Accounted.iv_of_mem (h : Accounted T sys s)
    (hb : s.batchOf i = some (c, batch)) (hview : s.InView (.replicate i)) (hp : p ∈ batch) :
    p.1 < 2 ^ 64 ∧ setIv ⟨c.replicationView, p.1⟩ .writeSetWithCommitEvidenceAndClaims = some p.2.record.iv := by
  obtain ⟨hcall, hbatch⟩ := batchOf_eq_some hb
  obtain ⟨e, he, hversion, hz⟩ := mem_serialisedBatch hbatch hp
  obtain ⟨txid, htxid, hfits, hiv⟩ := h.serialised i e.tx p.2 hz
  obtain ⟨view, committable, hstage⟩ := (h.keyed i).call c false hcall e he
  rw [hstage] at htxid
  cases htxid
  have hreplication : view = c.replicationView := hview (c, batch) hb e he ⟨view, e.version⟩ (by rw [hstage]; rfl)
  rw [hversion, ← hreplication]
  exact ⟨hfits, hiv⟩

/-- The vectors of entries of a view after the end of its log are new. -/
theorem Origin.agrees_of_beyond {r r' : Encrypted} {view : ℕ} (h : Origin T sys r')
    (hiv : setIv ⟨view, n⟩ .writeSetWithCommitEvidenceAndClaims = some r.iv) (hn : n < 2 ^ 64)
    (hbeyond : (sys.tl view).length < n) : r.Agrees r' := by
  intro _ heq
  cases h with
  | entry txid hiv' hseqno hle =>
    have := (setIv_injective hiv (heq ▸ hiv') hn hseqno).1
    subst this
    exact absurd hbeyond (not_lt.2 hle)
  | snapshot log term hcommitted hsnapshot => exact (not_entry_snapshot hiv hn hsnapshot heq).elim

theorem getElem?_entries {k : ℕ}
    (h : (batch.take n)[k]? = some p) : ((entries batch).take n)[k]? = some (p.1, p.2.tx) := by
  unfold entries
  rw [← map_take, getElem?_map, h]
  rfl

variable (hf : Follows g faithfulMode sys s.world) {iteration : Name → EntryOrder} {a : Aft} {x : Action}
include hf h

/-- **Passing a batch to consensus** emits entries with vectors that are new. -/
theorem Accounted.pass (hb : s.batchOf i = some (c, batch))
    (hfits : s.world.Fits (.replicate i (entries batch) c.replicationView)) (hview : s.InView (.replicate i)) :
    ∃ sys', Follows g faithfulMode sys' (s.pass i c batch).world ∧ Accounted T sys' (s.pass i c batch) := by
  obtain ⟨sys', hl, hf'⟩ := hf.step (World.permitted_replicate hfits)
  obtain ⟨n, hn, hledger, hcount, hlead, hnumbered, -⟩ := hf.ledger_replicate hfits
  refine ⟨sys', hf', ?_⟩
  have hpassed : Accounted T sys' { s with
      world := s.world.step (.replicate i (entries batch) c.replicationView)
      emitted := s.emitted ++ (batch.take n).map (·.2.record) } := by
    have hfresh : ∀ r ∈ (batch.take n).map (·.2.record), ∃ (k : ℕ) (p : ℕ × Serialised), (batch.take n)[k]? = some p ∧
        r = p.2.record ∧ k < n ∧ p.1 = (s.world.nodes i).ledger.length + 1 + k ∧ p.1 < 2 ^ 64 ∧
        setIv ⟨c.replicationView, p.1⟩ .writeSetWithCommitEvidenceAndClaims = some r.iv := by
      intro r hr
      obtain ⟨p, hp, rfl⟩ := mem_map.1 hr
      obtain ⟨k, hk⟩ := mem_iff_getElem?.1 hp
      have hkn : k < n := by
        have := (List.getElem?_eq_some_iff.1 hk).1
        rw [length_take] at this
        omega
      exact ⟨k, p, hk, rfl, hkn, hnumbered k _ (getElem?_entries hk), h.iv_of_mem hb hview (mem_of_mem_take hp)⟩
    refine h.emit hl rfl rfl rfl (fun r hr => ?_) (fun r hr r' hr' => ?_) fun r hr r' hr' _ hiv => ?_
    · obtain ⟨k, p, -, -, hkn, hindex, hp, hiv⟩ := hfresh r hr
      obtain ⟨-, hterm⟩ := hlead (by omega)
      rw [← hterm] at hledger
      have := hf'.length_le_tl hn (by omega) hledger
      exact .entry _ hiv hp (by dsimp only; omega)
    · obtain ⟨k, p, -, -, hkn, hindex, hp, hiv⟩ := hfresh r hr
      obtain ⟨hleads, hterm⟩ := hlead (by omega)
      refine (h.origin r' hr').agrees_of_beyond hiv hp ?_
      rw [hterm, ((hf.nodes i).tells.speaks hleads).tl_eq]
      omega
    · obtain ⟨k, p, hk, rfl, -, hindex, hp, hiv₁⟩ := hfresh r hr
      obtain ⟨k', p', hk', rfl, -, hindex', hp', hiv₂⟩ := hfresh r' hr'
      have hseqno := congrArg TxID.seqno (setIv_injective hiv₁ (hiv ▸ hiv₂) hp hp').1
      dsimp only at hseqno
      obtain rfl : k = k' := by omega
      rw [hk] at hk'
      cases hk'
      exact ⟨rfl, rfl⟩
  have hstore : Keyed ((s.stores i).replicate none
      ((s.world.nodes i).replicate (entries batch) c.replicationView).2) := (h.keyed i).step (.replicate _ _)
  refine hpassed.setStore i hstore (fun k txid hk => txid?_step hk (.replicate none _)) rfl rfl ?_
  unfold Service.pass
  dsimp only
  rw [hcount]

theorem Accounted.replicate (hlaw : s.Lawful (.replicate i)) (hview : s.InView (.replicate i)) :
    ∃ sys', Follows g faithfulMode sys' (s.replicate i).world ∧ Accounted T sys' (s.replicate i) := by
  unfold Service.replicate
  cases hb : s.batchOf i with
  | none => exact ⟨sys, hf, h⟩
  | some b => exact h.pass hf hb (hlaw b hb) hview

omit hf h

/-! ### Snapshots -/

/-- A snapshot of what a node has committed is that of a committed log. -/
theorem domains_snapshotAt (hv : v ≤ a.ledger.length)
    (hhash : ∀ p ∈ T.maps (a.ledger.take v), p.2.2.toList.Pairwise fun x y => T.hash x.1 ≠ T.hash y.1) :
    domains (snapshotAt T a v []) (fun name => hashOrder T.hash (iteration name)) =
      domains ⟨(a.ledger.take v).length, T.maps (a.ledger.take v), some (T.rawLeaf (a.ledger.take v)),
        some (a.state.viewHistory.getHistoryUntil (a.ledger.take v).length)⟩ fun _ => hashOrder T.hash .ofKeys := by
  rw [length_take, min_eq_left hv]
  unfold domains snapshotAt
  dsimp only [foldr_nil]
  have hcongr : ∀ domain,
      StoreSnapshot.domainBytes (fun name => hashOrder T.hash (iteration name)) domain (T.maps (a.ledger.take v)) =
        StoreSnapshot.domainBytes (fun _ => hashOrder T.hash .ofKeys) domain (T.maps (a.ledger.take v)) :=
    domainBytes_congr fun p hp => hashOrder_eq (hhash p hp) (iteration p.1) .ofKeys
  rw [hcongr, hcongr]

include hf

theorem committed_take (hv : v ≤ (s.world.nodes i).state.commitIdx) :
    sys.Committed ((s.world.nodes i).ledger.take v) (s.world.nodes i).state.currentView := by
  have hprefix : (s.world.nodes i).ledger.take v <+:
      (s.world.nodes i).ledger.take (s.world.nodes i).state.commitIdx := take_prefix_take_left hv
  rcases hf.committed trivial i with hnil | ⟨e, he, hT, hp⟩
  · rw [hnil] at hprefix
    exact .inl (prefix_nil.1 hprefix)
  · exact .inr ⟨e, he, hT, hprefix.trans hp⟩

omit hf

/-- Committed logs of one length are equal, and so are their snapshots. -/
theorem Origin.agrees_snapshot {r r' : Encrypted} (hinv : Inv g.proto faithfulMode sys) {log : List Entry} {term : ℕ}
    (h : Origin T sys r') (hcommitted : sys.Committed log term) (hsnapshot : SnapshotOf T log r) : r.Agrees r' := by
  intro _ heq
  cases h with
  | entry txid hiv' hseqno hle => exact (not_entry_snapshot hiv' hseqno hsnapshot heq.symm).elim
  | snapshot log' term' hcommitted' hsnapshot' =>
    have hlength : log.length = log'.length := congrArg TxID.seqno
      (setIv_injective hsnapshot.iv (heq ▸ hsnapshot'.iv) hsnapshot.fits hsnapshot'.fits).1
    have heq : log = log' := by
      rcases comparable_of_committed hinv trivial hcommitted hcommitted' with hp | hp
      · exact hp.eq_of_length hlength
      · exact (hp.eq_of_length hlength.symm).symm
    subst heq
    exact hsnapshot.eq hsnapshot'

include hf

theorem Accounted.snapshot (h : Accounted T sys s) {later : List Name} (hlaw : v < 2 ^ 64)
    (hsettled : s.Settled T (.snapshot i v later iteration)) : Accounted T sys (s.snapshot T i v later iteration) := by
  obtain ⟨rfl, hhash⟩ := hsettled
  unfold Service.snapshot
  dsimp only
  split_ifs with hv
  · have hle : v ≤ (s.world.nodes i).ledger.length := hv.trans (hf.nodes i).tracks.commit_le
    have hlength : ((s.world.nodes i).ledger.take v).length = v := by rw [length_take, min_eq_left hle]
    split
    · exact h
    · rename_i publicPart privatePart hdomains
      split
      · exact h
      · rename_i r secrets hencrypt
        obtain ⟨hiv, hplain, hadditional⟩ := LedgerSecrets.encrypt_eq_some hencrypt
        have hsnapshot : SnapshotOf T ((s.world.nodes i).ledger.take v) r := by
          refine ⟨?_, ?_, (s.world.nodes i).state.viewHistory, (s.world.nodes i).ledger.map Entry.view,
            (hf.nodes i).recorded, ?_, ?_, ?_⟩
          · rw [hlength]
            exact hiv
          · rw [hlength]
            exact hlaw
          · rw [hlength, length_map]
            exact hle
          · rw [hlength, map_take]
          · rw [← domains_snapshotAt hle hhash, hdomains, hplain, hadditional]
        have hcommitted := committed_take hf hv
        refine h.emit (Later.refl sys) rfl rfl rfl ?_ ?_ ?_
        · simpa using Origin.snapshot _ _ hcommitted hsnapshot
        · simpa using fun r' hr' => (h.origin r' hr').agrees_snapshot hf.inv hcommitted hsnapshot
        · intro r₁ hr₁ r₂ hr₂ _ _
          rw [mem_singleton.1 hr₁, mem_singleton.1 hr₂]
          exact ⟨rfl, rfl⟩
  · exact h

/-! ### Runs -/

/-- A batch that is passed in turn is accepted as a whole. -/
theorem refused_step (hlaw : s.Lawful x) (hturn : s.InTurn x)
    (h : s.refused = []) : (s.step T x).refused = [] := by
  cases x with
  | replicate i =>
    show (s.replicate i).refused = []
    unfold Service.replicate
    cases hb : s.batchOf i with
    | none => exact h
    | some b =>
      obtain ⟨c, batch⟩ := b
      obtain ⟨hlead, hview, hlast⟩ := hturn (c, batch) hb
      obtain ⟨n, hn, -, hcount, -, -, hall⟩ := hf.ledger_replicate (hlaw (c, batch) hb)
      have hnumbered := numbered_entries (batchOf_eq_some hb).2
      rw [hlast, (hf.nodes i).tracks.last_eq] at hnumbered
      have hlength : n = batch.length := (hall hlead hview hnumbered).trans (length_map _)
      dsimp only [Service.pass]
      rw [h, hcount, hlength, drop_length]
      rfl
  | consensus x | store i x =>
    cases x <;> exact h
  | serialise i k tx plain additionalData =>
    show (s.serialise i k tx plain additionalData).refused = []
    unfold serialise
    split
    · split <;> exact h
    · exact h
  | rekey => exact h
  | snapshot i v later iteration =>
    show (s.snapshot T i v later iteration).refused = []
    unfold snapshot
    dsimp only
    split_ifs
    · split
      · exact h
      · split <;> exact h
    · exact h

theorem accounted_step (h : Accounted T sys s)
    (hlaw : s.Lawful x) (hview : s.InView x) (hsettled : s.Settled T x) :
    ∃ sys', Follows g faithfulMode sys' (s.step T x).world ∧ Accounted T sys' (s.step T x) := by
  have hother : ∀ x : Ccf.Action, s.world.Regular x → ∃ sys', Follows g faithfulMode sys' (s.world.step x) ∧
      Accounted T sys' { s with world := s.world.step x } := by
    intro x hx
    obtain ⟨sys', hl, hf'⟩ := hf.step hx.permitted
    exact ⟨sys', hf', h.later hl rfl rfl rfl⟩
  cases x with
  | consensus x =>
    cases x with
    | replicate => exact ⟨sys, hf, h⟩
    | _ => exact hother _ hlaw
  | store i x =>
    refine ⟨sys, ?_, h.onStore i x⟩
    have hworld : (s.onStore i x).world = s.world := by cases x <;> rfl
    exact hworld ▸ hf
  | serialise i k tx plain additionalData =>
    refine ⟨sys, ?_, h.serialise hlaw⟩
    have hworld : (s.serialise i k tx plain additionalData).world = s.world := by
      unfold serialise
      split
      · split <;> rfl
      · rfl
    show Follows g faithfulMode sys (s.serialise i k tx plain additionalData).world
    exact hworld ▸ hf
  | replicate i => exact h.replicate hf hlaw hview
  | rekey i version secret => exact ⟨sys, hf, h.later (Later.refl sys) rfl rfl rfl⟩
  | snapshot i v later iteration =>
    refine ⟨sys, ?_, h.snapshot hf hlaw hsettled⟩
    have hworld : (s.snapshot T i v later iteration).world = s.world := by
      unfold snapshot
      dsimp only
      split_ifs
      · split
        · rfl
        · split <;> rfl
      · rfl
    show Follows g faithfulMode sys (s.snapshot T i v later iteration).world
    exact hworld ▸ hf

omit hf

end

section
variable {T : Tables} {g : Genesis} {c : Setup} {secret : ℕ} {create signature : List UInt8 × List UInt8}

theorem tl_initial (g : Genesis) : (g.proto.initial g.primary).tl startingViewChange = g.log := by
  simp [Proto.initial, Genesis.proto]

theorem mem_genesisRecords {r : Encrypted} (h : r ∈ genesisRecords secret create signature) :
    ∃ n, (n = 1 ∧ r.plain = create.1 ∧ r.additionalData = create.2 ∨
        n = 2 ∧ r.plain = signature.1 ∧ r.additionalData = signature.2) ∧
      setIv ⟨startingViewChange, n⟩ .writeSetWithCommitEvidenceAndClaims = some r.iv := by
  unfold genesisRecords at h
  simp only [mem_append, mem_map, Option.mem_toList] at h
  rcases h with ⟨⟨r', ls⟩, henc, rfl⟩ | ⟨⟨r', ls⟩, henc, rfl⟩
  · obtain ⟨hiv, hplain, hadditional⟩ := LedgerSecrets.encrypt_eq_some henc
    exact ⟨1, .inl ⟨rfl, hplain, hadditional⟩, hiv⟩
  · obtain ⟨hiv, hplain, hadditional⟩ := LedgerSecrets.encrypt_eq_some henc
    exact ⟨2, .inr ⟨rfl, hplain, hadditional⟩, hiv⟩

theorem accounted_init : Accounted T (g.proto.initial g.primary) (.init g c secret create signature) where
  keyed i := by
    by_cases hi : i = g.primary
    · subst hi
      simp only [init, update_self]
      exact keyed_init _ _
    · simp only [init, update_of_ne hi]
      exact keyed_init _ _
  serialised _ _ _ hz := by cases hz
  origin r hr := by
    obtain ⟨n, hn, hiv⟩ := mem_genesisRecords hr
    have hlength : g.log.length = 2 := rfl
    refine .entry _ hiv (by dsimp only; omega) ?_
    dsimp only
    rw [tl_initial]
    omega
  agrees r hr r' hr' _ hiv := by
    obtain ⟨n, hn, hn'⟩ := mem_genesisRecords hr
    obtain ⟨k, hk, hk'⟩ := mem_genesisRecords hr'
    have hseqno := congrArg TxID.seqno (setIv_injective hn' (hiv ▸ hk') (by dsimp only; omega) (by dsimp only; omega)).1
    rcases hn with ⟨rfl, hp, ha⟩ | ⟨rfl, hp, ha⟩ <;> rcases hk with ⟨rfl, hp', ha'⟩ | ⟨rfl, hp', ha'⟩
    · exact ⟨hp.trans hp'.symm, ha.trans ha'.symm⟩
    · cases hseqno
    · cases hseqno
    · exact ⟨hp.trans hp'.symm, ha.trans ha'.symm⟩

/-- **No vector is used twice**: in every lawful run in which transactions are replicated in their view and turn, and
snapshots are of settled maps, what was encrypted under one secret with one vector is the same. -/
theorem uniform_of_inView (T : Tables) (g : Genesis) (c : Setup) (secret : ℕ)
    (create signature : List UInt8 × List UInt8) (xs : List Action)
    (hlaw : Runs.Along (step T) Service.Lawful (.init g c secret create signature) xs)
    (hview : Runs.Along (step T) Service.InView (.init g c secret create signature) xs)
    (hturn : Runs.Along (step T) Service.InTurn (.init g c secret create signature) xs)
    (hsettled : Runs.Along (step T) (Service.Settled T) (.init g c secret create signature) xs) :
    (Runs.exec (step T) (.init g c secret create signature) xs).Uniform := by
  obtain ⟨⟨sys, -, h⟩, hrefused⟩ := Runs.exec_induction
    (I := fun s => (∃ sys, Follows g faithfulMode sys s.world ∧ Accounted T sys s) ∧ s.refused = [])
    (fun s x ⟨⟨sys, hf, h⟩, hrefused⟩ hx =>
      ⟨accounted_step hf h hx.1 hx.2.1 hx.2.2.2, refused_step hf hx.1 hx.2.2.1 hrefused⟩)
    ⟨⟨_, .start trivial, accounted_init⟩, rfl⟩
    (Runs.along_and.2 ⟨hlaw, Runs.along_and.2 ⟨hview, Runs.along_and.2 ⟨hturn, hsettled⟩⟩⟩)
  unfold Service.Uniform
  rw [hrefused, append_nil]
  exact h.agrees

end

/-! ### Two nodes -/

section

open Move

/-- A store without maps. -/
def noTables : Tables := ⟨fun _ => [], fun log => [log.length.toUInt8], fun _ => 0⟩

/-- Node 0 commits transaction `k`. -/
def writes (k : ℕ) (tx : Tx) (plain : List UInt8) (globallyCommittable : Bool) : List Action :=
  [.store 0 (.begin k), .store 0 (.assign k), .serialise 0 k tx plain [], .store 0 (.commit k globallyCommittable),
    .replicate 0, .store 0 .finish]

def moves (l : List Move) : List Action := l.map fun m => .consensus m.action

/-- Node 1 joins; node 0 takes a snapshot and writes an entry in view 2. -/
def joined : List Action :=
  writes 0 (nodesTx .trusted [1] nodup_one) [3] false ++ writes 1 signTx [4] true ++
    moves ([deliver 0 1, deliver 1 0, tick 0 10] ++ .replicate 4 (deliver 0 1) ++ .replicate 4 (deliver 1 0)) ++
    [.snapshot 0 4 [] fun _ => .ofKeys] ++ writes 2 (dataTx 10 1) [5] false

theorem uniform_of_inView_joined :
    let s := Runs.exec (step noTables) (.init service (timeouts []) 7 ([1], []) ([2], [])) joined
    s.emitted.length = 6 ∧ s.Uniform :=
  ⟨by decide +kernel, uniform_of_inView noTables service (timeouts []) 7 ([1], []) ([2], []) joined (by decide +kernel)
    (by decide +kernel) (by decide +kernel) (by decide +kernel)⟩

/-- A transaction begins in view 2; node 0 stops being leader and is a candidate in view 3, with the vote of node 1
under way. When it becomes leader it first rolls back its store; the transaction takes version 5 and is queued before
node 0 is seen to be primary. -/
def reelected : List Action :=
  joined ++ [.store 0 (.begin 3)] ++ moves [tick 0 100, tick 0 100, drop 0 1, deliver 0 1] ++
    [.store 0 (.rollback ⟨2, 4⟩ 3), .store 0 (.assign 3), .serialise 0 3 (dataTx 10 2) [6] [],
      .store 0 (.commit 3 false)] ++
    moves [deliver 1 0] ++ [.replicate 0]

/-- An entry of view 2 that was rolled back, and one accepted in view 3, are encrypted with the same vector. -/
theorem not_uniform_reelected :
    ¬∀ (T : Tables) (g : Genesis) (c : Setup) (secret : ℕ) (create signature : List UInt8 × List UInt8)
      (xs : List Action), Runs.Along (step T) Service.Lawful (.init g c secret create signature) xs →
      Runs.Along (step T) Service.InTurn (.init g c secret create signature) xs →
      Runs.Along (step T) (Service.Settled T) (.init g c secret create signature) xs →
      (Runs.exec (step T) (.init g c secret create signature) xs).Uniform := by
  intro h
  have hend := h noTables service (timeouts []) 7 ([1], []) ([2], []) reelected (by decide +kernel) (by decide +kernel)
    (by decide +kernel)
  revert hend
  decide +kernel

end

end Ccf.Node.LedgerEncryption
