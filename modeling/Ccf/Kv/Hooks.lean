import Ccf.Kv.Serialisability

/-! # Global hooks

The calls to the global hook of a map against the local commits of the map. `localCommits` lists the versions of the
history that changed a table, with their write sets. Where every compaction goes to a higher version, the two agree
(`fired_along_run`). A second compaction to the same version calls the hook again, with an empty write set
(`recompactingRun`). -/

namespace Ccf.Kv

open List Versioned Runs History
open Std (ExtTreeMap)

/-! ### The local commits of a history -/

/-- The versions that change the table `name`, with their write sets; the first write set is that of version
`v + 1`, on the table `t`. -/
def localCommitsFrom (name : Name) : ℕ → List (Name → Write) → State → List (ℕ × Write)
  | _, [], _ => []
  | v, d :: ds, t =>
    (if Roll.Effective t (d name) then [(v + 1, d name)] else []) ++
      localCommitsFrom name (v + 1) ds ((d name).apply (v + 1) t)

def localCommits (h : WriteHistory) (name : Name) : List (ℕ × Write) :=
  localCommitsFrom name h.base h.sets (h.start name)

theorem localCommitsFrom_append (name : Name) (v : ℕ) (ds es : List (Name → Write)) (t : State) :
    localCommitsFrom name v (ds ++ es) t =
      localCommitsFrom name v ds t ++ localCommitsFrom name (v + ds.length) es (replay name v ds t) := by
  induction ds generalizing v t with
  | nil => rfl
  | cons d ds ih =>
    rw [cons_append, localCommitsFrom, ih, localCommitsFrom, append_assoc, replay,
      length_cons, add_assoc, add_comm 1]

theorem localCommits_push (h : WriteHistory) (d : Name → Write) (name : Name) :
    localCommits (h.push d) name = localCommits h name ++
      if Roll.Effective (h.tableAt h.version name) (d name) then [(h.version + 1, d name)] else [] := by
  have htop : h.tableAt h.version name = replay name h.base h.sets (h.start name) := by
    simp only [tableAt]
    rw [take_of_length_le]
    unfold version
    omega
  simp only [localCommits, push, localCommitsFrom_append, htop, localCommitsFrom, append_nil]
  rfl

variable {name : Name} {v w term : ℕ} {ds : List (Name → Write)} {t : State} {p : ℕ × Write} {s' : Store}
  {h' : WriteHistory}

theorem lt_of_mem_localCommitsFrom (hp : p ∈ localCommitsFrom name v ds t) : v < p.1 ∧ p.1 ≤ v + ds.length := by
  induction ds generalizing v t with
  | nil => cases hp
  | cons d ds ih =>
    rw [localCommitsFrom, mem_append] at hp
    rcases hp with hp | hp
    · split_ifs at hp
      · rw [mem_singleton.1 hp, length_cons]
        omega
      · cases hp
    · have := ih hp
      rw [length_cons]
      omega

theorem localCommitsFrom_take (name : Name) (v n : ℕ) (ds : List (Name → Write)) (t : State) :
    localCommitsFrom name v (ds.take n) t = (localCommitsFrom name v ds t).filter (·.1 ≤ v + n) := by
  have hrest : (localCommitsFrom name (v + (ds.take n).length) (ds.drop n)
      (replay name v (ds.take n) t)).filter (·.1 ≤ v + n) = [] := by
    refine filter_eq_nil_iff.2 fun p hp => ?_
    have hgt := (lt_of_mem_localCommitsFrom hp).1
    simp only [decide_eq_true_eq, length_take] at hgt ⊢
    rcases le_total n ds.length with hle | hle
    · omega
    · rw [drop_of_length_le hle] at hp
      cases hp
  have hkept : (localCommitsFrom name v (ds.take n) t).filter (·.1 ≤ v + n) =
      localCommitsFrom name v (ds.take n) t := by
    refine filter_eq_self.2 fun p hp => ?_
    have hle := (lt_of_mem_localCommitsFrom hp).2
    simp only [decide_eq_true_eq, length_take] at hle ⊢
    omega
  conv_rhs => rw [← take_append_drop n ds, localCommitsFrom_append, filter_append, hrest, hkept,
    append_nil]

theorem localCommits_truncate (h : WriteHistory) (hw : h.base ≤ w) (name : Name) :
    localCommits (h.truncate w) name = (localCommits h name).filter (·.1 ≤ w) := by
  simp only [localCommits, truncate, localCommitsFrom_take, Nat.add_sub_cancel' hw]

theorem sorted_localCommitsFrom (name : Name) (v : ℕ) (ds : List (Name → Write)) (t : State) :
    (localCommitsFrom name v ds t).Pairwise (·.1 < ·.1) := by
  induction ds generalizing v t with
  | nil => exact List.Pairwise.nil
  | cons d ds ih =>
    refine pairwise_append.2 ⟨?_, ih _ _, fun p hp q hq => ?_⟩
    · split_ifs
      · exact pairwise_singleton _ _
      · exact List.Pairwise.nil
    · split_ifs at hp
      · rw [mem_singleton.1 hp]
        exact (lt_of_mem_localCommitsFrom hq).1
      · cases hp

theorem localCommitsFrom_of_empty {t : Table SerialisedEntry SerialisedEntry}
    (hempty : ∀ n ≤ ds.length, replay name v (ds.take n) t = ∅) : localCommitsFrom name v ds t = [] := by
  induction ds generalizing v t with
  | nil => rfl
  | cons d ds ih =>
    have ht : t = ∅ := hempty 0 (Nat.zero_le _)
    have happly : (d name).apply (v + 1) t = ∅ := hempty 1 (by simp)
    have hnot : ¬Roll.Effective t (d name) := fun he =>
      (he.state_ne_empty (v + 1)).elim (fun h => h ht) (fun h => h happly)
    rw [localCommitsFrom, if_neg hnot, nil_append]
    exact ih fun n hn => hempty (n + 1) (Nat.succ_le_succ hn)

theorem localCommits_of_empty {h : WriteHistory}
    (hempty : ∀ w, h.base ≤ w → w ≤ h.version → h.tableAt w name = ∅) : localCommits h name = [] := by
  refine localCommitsFrom_of_empty fun n hn => ?_
  have hw := hempty (h.base + n) (Nat.le_add_right _ _) (Nat.add_le_add_left hn _)
  rwa [tableAt, Nat.add_sub_cancel_left] at hw

/-! ### What compaction hands to the hook -/

/-- The versions and write sets of local commits. -/
def deltas (commits : List LocalCommit) : List (ℕ × Write) := commits.map fun e => (e.version, e.writes)

/-- A compaction past the head takes the write sets up to `v`, in order. -/
theorem compactLoop_deltas {r : LocalCommit} {later : List LocalCommit} (ds : List (ℕ × Write))
    (hs : (r :: later).Pairwise (·.version < ·.version)) (hr : r.version < v ∨ r.version = v ∧ r.writes ≠ ∅)
    (hw : ∀ e ∈ later, e.writes ≠ ∅) :
    (Map.compactLoop true v r later ds).1.writes = ∅ ∧
      (Map.compactLoop true v r later ds).2.1 = later.filter (v < ·.version) ∧
      (Map.compactLoop true v r later ds).2.2 =
        ds ++ (if r.writes = ∅ then [] else [(r.version, r.writes)]) ++ deltas (later.filter (·.version ≤ v)) := by
  have htake : ∀ (c : LocalCommit) (l : List (ℕ × Write)), (Map.takeDelta true (!c.writes.isEmpty) c l).1.writes = ∅ ∧
      (Map.takeDelta true (!c.writes.isEmpty) c l).2 = l ++ if c.writes = ∅ then [] else [(c.version, c.writes)] := by
    intro c l
    unfold Map.takeDelta
    by_cases hc : c.writes = ∅ <;> simp [hc]
  induction later generalizing r ds with
  | nil =>
    obtain ⟨hfst, hsnd⟩ := htake r ds
    refine ⟨hfst, rfl, ?_⟩
    simp only [Map.compactLoop, hsnd, filter_nil, deltas, map_nil, append_nil]
  | cons next later ih =>
    obtain ⟨hhead, htail⟩ := pairwise_cons.1 hs
    have hnext := hhead next mem_cons_self
    -- when the next commit is later than `v`, so is everything after it
    have hstop : v < next.version → (next :: later).filter (v < ·.version) = next :: later ∧
        (next :: later).filter (·.version ≤ v) = [] := by
      intro hlt
      have hall : ∀ e ∈ next :: later, v < e.version := by
        intro e he
        rcases mem_cons.1 he with rfl | he
        · exact hlt
        · exact hlt.trans ((pairwise_cons.1 htail).1 e he)
      exact ⟨filter_eq_self.2 fun e he => by simpa using hall e he,
        filter_eq_nil_iff.2 fun e he => by simpa using hall e he⟩
    unfold Map.compactLoop
    by_cases hv : r.version = v
    · have hne : r.writes ≠ ∅ := hr.elim (fun h => absurd hv h.ne) And.right
      obtain ⟨hgt, hle⟩ := hstop (hv ▸ hnext)
      rw [if_pos hv]
      simp only [Map.takeDelta, Bool.and_self, if_true, hgt, hle, if_neg hne, deltas, map_nil, append_nil,
        and_self]
    · rw [if_neg hv]
      obtain ⟨hfst, hsnd⟩ := htake r ds
      by_cases hlt : v < next.version
      · obtain ⟨hgt, hle⟩ := hstop hlt
        simp only [if_pos hlt, hfst, hsnd, hgt, hle, deltas, map_nil, append_nil, and_self]
      · have hle : next.version ≤ v := not_lt.1 hlt
        have hnextw : next.writes ≠ ∅ := hw next mem_cons_self
        simp only [if_neg hlt]
        obtain ⟨h₁, h₂, h₃⟩ := ih (r := next) (Map.takeDelta true (!r.writes.isEmpty) r ds).2 htail
          (hle.lt_or_eq.imp id fun h => ⟨h, hnextw⟩) fun e he => hw e (mem_cons_of_mem _ he)
        refine ⟨h₁, ?_, ?_⟩
        · rw [h₂, filter_cons_of_neg (by simpa using hle)]
        · rw [h₃, hsnd, if_neg hnextw, filter_cons_of_pos (by simpa using hle)]
          simp [deltas, append_assoc]

/-! ### Hooked maps -/

/-- The hook of the map `name` has been called for the local commits up to the compacted version; the others
are on the roll of the map. -/
structure Store.Hooked (s : Store) (h : WriteHistory) (name : Name) : Prop where
  hook : s.globalHooks name = true
  fired : s.fired name = (localCommits h name).filter (·.1 ≤ s.compacted)
  absent : s.maps[name]? = none → localCommits h name = []
  present : ∀ {c r}, s.maps[name]? = some (c, r) → (s.objs r).globalHook = true ∧ (s.objs r).commitDeltas = [] ∧
    (s.objs r).roll.head.writes = ∅ ∧
    deltas (s.objs r).roll.later = (localCommits h name).filter (s.compacted < ·.1)
  nonempty : ∀ {c r}, s.maps[name]? = some (c, r) → ∀ e ∈ (s.objs r).roll.later, e.writes ≠ ∅

namespace Store.Hooked

variable {s : Store} {h : WriteHistory} {d : Name → Write}

theorem filter_push (hw : w ≤ h.version) (d : Name → Write) (name : Name) :
    (localCommits (h.push d) name).filter (·.1 ≤ w) = (localCommits h name).filter (·.1 ≤ w) := by
  rw [localCommits_push, filter_append]
  split_ifs
  · rw [filter_cons_of_neg (by simp only [decide_eq_true_eq]; omega), filter_nil, append_nil]
  · rw [filter_nil, append_nil]

/-- The roll after the commit of the next version has its local commit. -/
theorem deltas_commit {r : Roll} (hw : w ≤ h.version) (htail : r.tail.state = h.tableAt h.version name)
    (hr : deltas r.later = (localCommits h name).filter (w < ·.1)) (hne : ∀ e ∈ r.later, e.writes ≠ ∅) :
    deltas (r.commit (d name) (h.version + 1) false).later = (localCommits (h.push d) name).filter (w < ·.1) ∧
      ∀ e ∈ (r.commit (d name) (h.version + 1) false).later, e.writes ≠ ∅ := by
  rw [localCommits_push, filter_append, ← hr, ← htail]
  rcases r.commit_cases (d name) (h.version + 1) with ⟨heq, he⟩ | ⟨heq, -, he⟩
  · rw [heq, if_pos he]
    refine ⟨?_, fun e hmem => ?_⟩
    · rw [filter_cons_of_pos (by simp only [decide_eq_true_eq]; omega)]
      simp [deltas]
    · rcases mem_append.1 hmem with hmem | hmem
      · exact hne e hmem
      · rw [mem_singleton.1 hmem]
        exact he.ne_empty
  · rw [heq, if_neg he]
    exact ⟨by simp, hne⟩

variable (kh : s.Hooked h name)
include kh

theorem push (k : s.Refines h) (c : Committed s s' (h.version + 1) d)
    (hc : s'.compacted = s.compacted) : s'.Hooked (h.push d) name := by
  have hle : s.compacted ≤ h.version := k.version ▸ k.compacted_le
  have hnew : s.maps[name]? = none →
      deltas (({} : Roll).commit (d name) (h.version + 1) false).later =
        (localCommits (h.push d) name).filter (s.compacted < ·.1) ∧
      ∀ e ∈ (({} : Roll).commit (d name) (h.version + 1) false).later, e.writes ≠ ∅ := by
    intro hnone
    refine deltas_commit hle ?_ ?_ (by simp)
    · exact (k.absent hnone _ h.base_le_version le_rfl).symm
    · rw [kh.absent hnone]
      rfl
  refine ⟨by rw [c.hooks]; exact kh.hook, ?_, fun hnone => ?_, fun {created r} hname => ?_, fun {created r} hname => ?_⟩
  · rw [c.fired, hc, kh.fired, filter_push hle]
  · obtain ⟨hold, hempty⟩ := c.maps_none hnone
    rw [localCommits_push, kh.absent hold, hempty, if_neg fun h => h.ne_empty rfl]
    rfl
  · rcases c.maps_cases hname with ⟨hold, hobj⟩ | ⟨hnone, -, -, -, hobj⟩
    · obtain ⟨hhook, hdeltas, hhead, hlater⟩ := kh.present hold
      rw [hc, hobj]
      refine ⟨hhook, hdeltas, ?_, (deltas_commit hle (k.keeps hold).tail_state hlater (kh.nonempty hold)).1⟩
      obtain ⟨_, _, hroll, _⟩ := (s.objs r).roll.commits_commit (d name) (h.version + 1)
      exact (congrArg LocalCommit.writes hroll).trans hhead
    · rw [hc, hobj]
      refine ⟨kh.hook, rfl, ?_, (hnew hnone).1⟩
      obtain ⟨_, _, hroll, _⟩ := ({} : Roll).commits_commit (d name) (h.version + 1)
      exact congrArg LocalCommit.writes hroll
  · rcases c.maps_cases hname with ⟨hold, hobj⟩ | ⟨hnone, -, -, -, hobj⟩
    · rw [hobj]
      exact (deltas_commit hle (k.keeps hold).tail_state (kh.present hold).2.2.2 (kh.nonempty hold)).2
    · rw [hobj]
      exact (hnew hnone).2

theorem rollback (k : s.Refines h) {txid : TxID}
    (hok : s.rollback txid term = .ok s') (hbase : h.base ≤ txid.seqno) :
    s'.Hooked (h.truncate txid.seqno) name := by
  have hk := k.rollback hok hbase
  obtain ⟨hcompacted, -, hc, ⟨hle, rfl⟩ | ⟨hlt, hv, heq⟩⟩ := rollback_cases hok
  · rw [h.truncate_of_le (k.version.trans_le hle)]
    exact ⟨kh.hook, kh.fired, kh.absent, kh.present, kh.nonempty⟩
  · have hlc := localCommits_truncate h hbase name
    refine ⟨by rw [heq]; exact kh.hook, ?_, fun hnone => localCommits_of_empty (hk.absent hnone),
      fun {c r} hname => ?_, fun {c r} hname => ?_⟩
    · have hfired : s'.fired = s.fired := by rw [heq]; rfl
      rw [hfired, hc, hlc, kh.fired, filter_filter]
      refine filter_congr fun p _ => ?_
      simp only [← Bool.decide_and]
      congr 1
      exact propext (by omega)
    · rw [heq] at hname
      obtain ⟨hold, -⟩ := maps_rolledBack.1 hname
      obtain ⟨hhook, hdeltas, hhead, hlater⟩ := kh.present hold
      rw [hc, hlc, heq, objs_rolledBack hold]
      refine ⟨hhook, hdeltas, hhead, ?_⟩
      rw [Map.rollback, Roll.later_rollback (k.keeps hold).sorted, filter_comm, ← hlater]
      simp only [deltas, filter_map]
      rfl
    · rw [heq] at hname ⊢
      obtain ⟨hold, -⟩ := maps_rolledBack.1 hname
      rw [objs_rolledBack hold]
      intro e he
      rw [Map.rollback, Roll.later_rollback (k.keeps hold).sorted] at he
      exact kh.nonempty hold e (mem_of_mem_filter he)

theorem compact (k : s.Refines h) (hbase : h.base ≤ s.compacted)
    (hv : s.compacted < v) : (s.compact v).Hooked h name := by
  rcases lt_or_ge s.version v with hlt | hle
  · rwa [compact_of_lt hlt]
  obtain ⟨-, hcompacted, hmaps, -⟩ := compact_fields hle
  have hsplit := filter_le_append (f := Prod.fst) (sorted_localCommitsFrom name h.base h.sets (h.start name)) hv.le
  -- the map of the name, after compaction
  have hmap : ∀ {c r}, s.maps[name]? = some (c, r) → ((s.objs r).compact v).globalHook = true ∧
      ((s.objs r).compact v).commitDeltas = ((localCommits h name).filter (s.compacted < ·.1)).filter (·.1 ≤ v) ∧
      ((s.objs r).compact v).roll.head.writes = ∅ ∧
      ((s.objs r).compact v).roll.later = (s.objs r).roll.later.filter (v < ·.version) := by
    intro c r hname
    obtain ⟨hhook, hdeltas, hhead, hlater⟩ := kh.present hname
    have hkeeps := k.keeps hname
    have hheadv : (s.objs r).roll.head.version < v := by
      have := hkeeps.head_le
      omega
    obtain ⟨h₁, h₂, h₃⟩ := compactLoop_deltas (s.objs r).commitDeltas hkeeps.sorted_commits (.inl hheadv)
      (kh.nonempty hname)
    unfold Map.compact
    rw [hhook]
    refine ⟨rfl, ?_, h₁, h₂⟩
    rw [hdeltas, if_pos hhead, append_nil, nil_append] at h₃
    rw [← hlater, hdeltas]
    refine h₃.trans ?_
    simp only [deltas, filter_map]
    rfl
  refine ⟨?_, ?_, fun hnone => kh.absent (hmaps ▸ hnone), fun {c r} hname => ?_, fun {c r} hname => ?_⟩
  · simp only [Store.compact, if_neg (not_lt.2 hle)]
    exact kh.hook
  · rw [hcompacted]
    simp only [Store.compact, if_neg (not_lt.2 hle)]
    cases hs : s.maps[name]? with
    | none => simp only [kh.fired, kh.absent hs, filter_nil]
    | some p =>
      obtain ⟨hhook, hdeltas, -, -⟩ := hmap (c := p.1) (r := p.2) hs
      have hobj : s.onMaps (·.compact v) p.2 = (s.objs p.2).compact v := by
        simp only [onMaps, if_pos (holds_iff.2 ⟨name, p.1, hs⟩)]
      simp only [hobj, Map.hookCalls, hhook, if_true, hdeltas, kh.fired]
      exact hsplit.symm
  · rw [hmaps] at hname
    obtain ⟨hhook, -, hhead, hlater⟩ := hmap hname
    rw [objs_compact hle hname, hcompacted]
    refine ⟨hhook, rfl, hhead, ?_⟩
    show deltas ((s.objs r).compact v).roll.later = _
    have hall : (localCommits h name).filter (v < ·.1) =
        ((localCommits h name).filter (s.compacted < ·.1)).filter (v < ·.1) := by
      rw [filter_filter]
      refine filter_congr fun p _ => ?_
      simp only [← Bool.decide_and]
      congr 1
      exact propext (by omega)
    rw [hlater, hall, ← (kh.present hname).2.2.2]
    simp only [deltas, filter_map]
    rfl
  · rw [hmaps] at hname
    rw [objs_compact hle hname]
    intro e he
    have he' : e ∈ ((s.objs r).compact v).roll.later := he
    rw [(hmap hname).2.2.2] at he'
    exact kh.nonempty hname e (mem_of_mem_filter he')

omit kh

end Store.Hooked

/-- Along moves whose compactions go up, hooked maps stay hooked. -/
theorem Store.Moves.hooked {h : WriteHistory} {s : Store} (m : Moves (· < ·) s h s' h')
    (k : s.Good h) (kh : s.Hooked h name) : s'.Hooked h' name := by
  induction m with
  | refl => exact kh
  | rollback m hok ih =>
    have g := (m.good (fun _ _ => le_of_lt) k).1
    exact ih.rollback g.refines hok (g.base ▸ Nat.zero_le _)
  | compact m hv ih =>
    have g := (m.good (fun _ _ => le_of_lt) k).1
    exact ih.compact g.refines (g.base ▸ Nat.zero_le _) hv
  | push m hc hv hcomp hput ih => exact ih.push (m.good (fun _ _ => le_of_lt) k).1.refines hc hcomp

/-! ### Runs -/

namespace System

/-- Commits put something into the maps they create, and every compaction goes to a higher version. -/
abbrev Rising : System → Action → Prop := PermittedBy (· < ·)

variable {hooks : Name → Bool}

theorem hooked_init (term : ℕ) (hname : hooks name = true) :
    (init term hooks).store.Hooked (init term hooks).history name where
  hook := hname
  fired := rfl
  absent _ := rfl
  present h := by simp [init] at h
  nonempty h := by simp [init] at h

/-- **Global hooks fire once for each committed write**: the calls to a hook that was set from the start are the
surviving local commits of the map up to the compacted version, in order. -/
theorem fired_along_run {actions : List Action}
    (h : Along step Rising (init term hooks) actions) {name : Name} (hname : hooks name = true) :
    (exec step (init term hooks) actions).store.fired name =
        (localCommits (exec step (init term hooks) actions).history name).filter
          (·.1 ≤ (exec step (init term hooks) actions).store.compacted) ∧
      ((exec step (init term hooks) actions).store.fired name).Pairwise (·.1 < ·.1) := by
  have hlt : ∀ a v : ℕ, a < v → a ≤ v := fun _ _ => le_of_lt
  have k : (exec step (init term hooks) actions).Inv ∧
      (exec step (init term hooks) actions).store.Hooked (exec step (init term hooks) actions).history name :=
    exec_induction (I := fun s => s.Inv ∧ s.store.Hooked s.history name)
      (fun s a k hp => ⟨k.1.step hlt hp, (k.1.moves hlt hp).hooked k.1.toGood k.2⟩)
      ⟨inv_init term hooks, hooked_init term hname⟩ h
  refine ⟨k.2.fired, ?_⟩
  rw [k.2.fired]
  exact (sorted_localCommitsFrom _ _ _ _).filter _

/-- Commits to one map with a rollback of one of them, and compactions. -/
def compactingRun : List Action :=
  [.openMap 1 [1], .op 1 [1] (.put [7] [70]), .commit 1, .compact 1,
    .openMap 2 [1], .op 2 [1] (.put [7] [71]), .commit 2, .rollback ⟨2, 1⟩ 3,
    .openMap 3 [1], .op 3 [1] (.remove [7]), .commit 3, .openMap 4 [1], .op 4 [1] (.put [7] [72]), .commit 4,
    .compact 2]

theorem fired_along_compactingRun :
    Along step Rising (init 2 fun _ => true) compactingRun ∧
      (exec step (init 2 fun _ => true) compactingRun).store.fired [1] =
        (localCommits (exec step (init 2 fun _ => true) compactingRun).history [1]).filter
          (·.1 ≤ (exec step (init 2 fun _ => true) compactingRun).store.compacted) :=
  ⟨by decide +kernel, (fired_along_run (by decide +kernel) rfl).1⟩

/-- Two commits to a map, and two compactions to the version of the first. -/
def recompactingRun : List Action :=
  [.openMap 1 [1], .op 1 [1] (.put [7] [70]), .commit 1, .openMap 2 [1], .op 2 [1] (.put [7] [71]), .commit 2,
    .compact 1, .compact 1]

/-- When compactions only do not go back, the hook can be called twice for one version. -/
theorem not_fired_along_run :
    ¬∀ (term : ℕ) (hooks : Name → Bool) (actions : List Action),
      Along step Permitted (init term hooks) actions → ∀ name, hooks name = true →
        (exec step (init term hooks) actions).store.fired name =
            (localCommits (exec step (init term hooks) actions).history name).filter
              (·.1 ≤ (exec step (init term hooks) actions).store.compacted) ∧
          ((exec step (init term hooks) actions).store.fired name).Pairwise (·.1 < ·.1) := by
  intro h
  obtain ⟨-, hsorted⟩ := h 2 (fun _ => true) recompactingRun (by decide +kernel) [1] rfl
  have htwice : ¬((exec step (init 2 fun _ => true) recompactingRun).store.fired [1]).Pairwise (·.1 < ·.1) := by
    decide +kernel
  exact htwice hsorted

end System
end Ccf.Kv
