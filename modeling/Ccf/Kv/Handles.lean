import Ccf.Kv.Map

/-! # What a handle observes

A change set runs the operations of its handles one after the other (`runAll`). The state it reads from
does not change; the reads and the read version it records are exactly what its results depend on.
`runAll_fst_eq` says so: on another state that agrees on the keys read, and is the same if the whole map was
looked at, the same operations return the same results. -/

namespace Ccf.Kv

open Versioned
open Std (ExtTreeMap)

/-- An operation that looks at the whole map. -/
def Op.readsAll : Op → Bool
  | foreach | size | clear => true
  | range lower upper => !lower.any (fun l => upper.any fun u => !(compare l u).isLT)
  | _ => false

namespace ChangeSet

/-- The operations one after the other: their results and the change set after them. -/
def runAll : ChangeSet → List Op → List Result × ChangeSet
  | cs, [] => ([], cs)
  | cs, op :: ops => ((cs.run op).1 :: (runAll (cs.run op).2 ops).1, (runAll (cs.run op).2 ops).2)

/-- The change set before any operation. -/
def start (cs : ChangeSet) : ChangeSet := { cs with readVersion := noVersion, reads := ∅, writes := ∅ }

theorem runAll_concat (cs : ChangeSet) (ops : List Op) (op : Op) : cs.runAll (ops ++ [op]) =
      ((cs.runAll ops).1 ++ [((cs.runAll ops).2.run op).1], ((cs.runAll ops).2.run op).2) := by
  induction ops generalizing cs with
  | nil => rfl
  | cons o ops ih => simp only [List.cons_append, runAll, ih]

/-! ### What an operation leaves alone -/

/-- The fields that are fixed when the change set is created. -/
structure SameBase (cs cs' : ChangeSet) : Prop where
  rollbackCounter : cs'.rollbackCounter = cs.rollbackCounter
  state : cs'.state = cs.state
  committed : cs'.committed = cs.committed
  startVersion : cs'.startVersion = cs.startVersion

theorem foldl_remove (l : List (SerialisedEntry × SerialisedEntry)) (cs : ChangeSet) :
    l.foldl (fun c p => c.remove p.1) cs =
      { cs with writes := l.foldl (fun (w : Write) p => w.insert p.1 none) cs.writes } := by
  induction l generalizing cs with
  | nil => rfl
  | cons p l ih => rw [List.foldl_cons, ih]; rfl

variable (cs : ChangeSet)

theorem sameBase_readKey (key : SerialisedEntry) : SameBase cs (cs.readKey key).2 := by
  unfold readKey
  split <;> exact ⟨rfl, rfl, rfl, rfl⟩

theorem sameBase_run (op : Op) : SameBase cs (cs.run op).2 := by
  cases op with
  | get key | has key => exact sameBase_readKey cs key
  | range lower upper =>
    simp only [run, range]
    split_ifs <;> exact ⟨rfl, rfl, rfl, rfl⟩
  | clear => rw [run, foldl_remove]; exact ⟨rfl, rfl, rfl, rfl⟩
  | _ => exact ⟨rfl, rfl, rfl, rfl⟩

variable {cs}

/-! ### What an operation records -/

/-- Every read is recorded with the version the state has. -/
def ReadsState (cs : ChangeSet) : Prop :=
  ∀ (k : SerialisedEntry) (ver : ℕ), cs.reads[k]? = some ver → ver = cs.state[k]?.elim noVersion Tagged.version

theorem mem_recordRead (cs : ChangeSet) (key : SerialisedEntry) : key ∈ (cs.recordRead key).reads := by
  simp [recordRead]

variable {cs : ChangeSet} {key : SerialisedEntry}

theorem mem_recordRead_of_mem {k : SerialisedEntry} (h : k ∈ cs.reads) : k ∈ (cs.recordRead key).reads := by
  simp [recordRead, h]

theorem readsState_recordRead (h : cs.ReadsState) (key : SerialisedEntry) : (cs.recordRead key).ReadsState := by
  intro k ver hk
  simp only [recordRead, ExtTreeMap.getElem?_insertIfNew, Std.compare_eq_iff_eq] at hk ⊢
  split_ifs at hk with hnew
  · rw [← hnew.1, ← Option.some.inj hk]
  · exact h k ver hk

/-- The records of reads grow, and name the version of the state. -/
structure Records (cs cs' : ChangeSet) : Prop where
  mem : ∀ k, k ∈ cs.reads → k ∈ cs'.reads
  state : cs.ReadsState → cs'.ReadsState
  version : cs'.readVersion = cs.readVersion ∨ cs'.readVersion = cs.startVersion

variable (cs) {ops : List Op} {op : Op}

theorem records_readKey (key : SerialisedEntry) : Records cs (cs.readKey key).2 := by
  unfold readKey
  split
  · exact ⟨fun _ h => h, id, .inl rfl⟩
  · exact ⟨fun _ h => mem_recordRead_of_mem h, fun h => readsState_recordRead h key, .inl rfl⟩

theorem records_run (op : Op) : Records cs (cs.run op).2 := by
  cases op with
  | get key | has key => exact records_readKey cs key
  | getVersionOfPreviousWrite key =>
    exact ⟨fun _ h => mem_recordRead_of_mem h, fun h => readsState_recordRead h key, .inl rfl⟩
  | range lower upper =>
    simp only [run, range]
    split_ifs
    · exact ⟨fun _ h => h, id, .inl rfl⟩
    · exact ⟨fun _ h => h, id, .inr rfl⟩
  | clear => rw [run, foldl_remove]; exact ⟨fun _ h => h, id, .inr rfl⟩
  | foreach | size => exact ⟨fun _ h => h, id, .inr rfl⟩
  | _ => exact ⟨fun _ h => h, id, .inl rfl⟩

theorem records_runAll (ops : List Op) : Records cs (cs.runAll ops).2 := by
  induction ops generalizing cs with
  | nil => exact ⟨fun _ h => h, id, .inl rfl⟩
  | cons op ops ih =>
    have h₁ := records_run cs op
    have h₂ := ih (cs.run op).2
    refine ⟨fun k hk => h₂.mem k (h₁.mem k hk), fun hs => h₂.state (h₁.state hs), ?_⟩
    rcases h₂.version with h | h
    · rcases h₁.version with h' | h'
      · exact .inl (h.trans h')
      · exact .inr (h.trans h')
    · exact .inr (h.trans (sameBase_run cs op).startVersion)

theorem readVersion_run_of_readsAll (h : op.readsAll = true) :
    (cs.run op).2.readVersion = cs.startVersion := by
  cases op with
  | foreach => rfl
  | size => rfl
  | clear => rw [run, foldl_remove]; rfl
  | range lower upper =>
    simp only [Op.readsAll, Bool.not_eq_true'] at h
    simp only [run, range, h]
    rfl
  | _ => cases h

/-- Looking at the whole map is recorded by the version of the state. -/
theorem readVersion_runAll_of_readsAll (h : ops.any Op.readsAll = true) :
    (cs.runAll ops).2.readVersion = cs.startVersion := by
  induction ops generalizing cs with
  | nil => cases h
  | cons op ops ih =>
    have hbase := (sameBase_run cs op).startVersion
    rcases Bool.or_eq_true_iff.1 h with hop | hops
    · have hrun := readVersion_run_of_readsAll cs hop
      rcases (records_runAll (cs.run op).2 ops).version with hv | hv
      · exact hv.trans hrun
      · exact hv.trans hbase
    · exact (ih _ hops).trans hbase

variable {cs}

/-! ### The results depend on what is recorded -/

variable {cs' : ChangeSet}

theorem elements_congr (hw : cs.writes = cs'.writes) (hs : cs.state = cs'.state) : cs.elements = cs'.elements := by
  simp only [elements, hw, hs]

/-- `readKey` on a state that agrees on the keys it has recorded. -/
theorem readKey_congr (hw : cs.writes = cs'.writes)
    (hread : ∀ k ∈ (cs.readKey key).2.reads, cs.state[k]? = cs'.state[k]?) :
    (cs.readKey key).1 = (cs'.readKey key).1 ∧ (cs.readKey key).2.writes = (cs'.readKey key).2.writes := by
  unfold readKey at hread ⊢
  rw [← hw]
  cases hk : cs.writes[key]? with
  | some w => exact ⟨rfl, hw⟩
  | none =>
    simp only [hk] at hread
    simp only [hread key (mem_recordRead cs key)]
    exact ⟨trivial, hw⟩

theorem run_congr (hw : cs.writes = cs'.writes)
    (hc : cs.committed = cs'.committed) (hread : ∀ k ∈ (cs.run op).2.reads, cs.state[k]? = cs'.state[k]?)
    (hall : op.readsAll = true → cs.state = cs'.state) :
    (cs.run op).1 = (cs'.run op).1 ∧ (cs.run op).2.writes = (cs'.run op).2.writes := by
  cases op with
  | get key =>
    obtain ⟨hfst, hsnd⟩ := readKey_congr hw hread
    exact ⟨congrArg Result.value hfst, hsnd⟩
  | has key =>
    obtain ⟨hfst, hsnd⟩ := readKey_congr hw hread
    exact ⟨congrArg (Result.found ∘ Option.isSome) hfst, hsnd⟩
  | getVersionOfPreviousWrite key =>
    refine ⟨?_, hw⟩
    simp only [run, getVersionOfPreviousWrite, hread key (mem_recordRead cs key)]
  | getGloballyCommitted key =>
    refine ⟨?_, hw⟩
    simp only [run, getGloballyCommitted, hc]
  | foreach => exact ⟨congrArg Result.elements (elements_congr hw (hall rfl)), hw⟩
  | size => exact ⟨congrArg (Result.count ∘ List.length) (elements_congr hw (hall rfl)), hw⟩
  | range lower upper =>
    simp only [run, range]
    split_ifs with hempty
    · exact ⟨rfl, hw⟩
    · rw [elements_congr hw (hall (by simpa [Op.readsAll] using hempty))]
      exact ⟨rfl, hw⟩
  | put key value => exact ⟨rfl, by simp only [run, put, hw]⟩
  | remove key => exact ⟨rfl, by simp only [run, remove, hw]⟩
  | clear =>
    rw [run, run, foldl_remove, foldl_remove, elements_congr hw (hall rfl)]
    exact ⟨rfl, by simp only [recordAll, hw]⟩

/-- The results of a change set are those on any state that agrees with its own on what it has recorded. -/
theorem runAll_fst_eq (hw : cs.writes = cs'.writes)
    (hc : cs.committed = cs'.committed) (hread : ∀ k ∈ (cs.runAll ops).2.reads, cs.state[k]? = cs'.state[k]?)
    (hall : ops.any Op.readsAll = true → cs.state = cs'.state) : (cs.runAll ops).1 = (cs'.runAll ops).1 := by
  induction ops generalizing cs cs' with
  | nil => rfl
  | cons op ops ih =>
    obtain ⟨hres, hwrites⟩ := run_congr hw hc
      (fun k hk => hread k ((records_runAll (cs.run op).2 ops).mem k hk))
      (fun h => hall (by simp [h]))
    have hb := sameBase_run cs op
    have hb' := sameBase_run cs' op
    have hrest := ih hwrites (hb.committed.trans (hc.trans hb'.committed.symm))
      (fun k hk => by rw [hb.state, hb'.state]; exact hread k hk)
      (fun h => by rw [hb.state, hb'.state]; exact hall (by simp [h]))
    simp only [runAll, hres, hrest]

end ChangeSet
end Ccf.Kv
