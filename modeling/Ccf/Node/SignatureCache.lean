import Mathlib.Data.List.DropRight
import Mathlib.Data.List.Nodup
import Ccf.Lib.Assoc
import Ccf.Lib.Runs

/-! # The signature cache (`node/signature_cache_subsystem.h`)

Signature transactions are committed in the order of their versions, and three hooks bring what they have written
to the cache. A query is answered with the first entry after a seqno, provided that it has a tree and a signature.
This is the signature transaction that covers the seqno, with all it has written, where steps are `Orderly` and nothing
after the seqno has been evicted. The cache does not know what it has evicted: a query below is answered with a later
signature (`not_exact_evicting`). -/

namespace Ccf.Node.SignatureCache

open List

open Assoc (keys)

/-- What a signature transaction has written, or what of it has arrived. -/
structure PendingEntry (σ : Type) where
  sig : Option σ := none
  coseSignature : Option (List UInt8) := none
  serialisedTree : Option (List UInt8) := none
deriving DecidableEq

structure CachedSignature (σ : Type) where
  sig : Option σ
  coseSignature : Option (List UInt8)
  serialisedTree : List UInt8
  version : ℕ
deriving DecidableEq

/-- The tables with a hook. -/
inductive Table where
  | signatures
  | coseSignatures
  | serialisedMerkleTree
deriving DecidableEq

variable {σ : Type}

namespace PendingEntry

variable (c : PendingEntry σ)

/-- The transaction has written to the table. -/
def Writes : Table → Prop
  | .signatures => c.sig.isSome
  | .coseSignatures => c.coseSignature.isSome
  | .serialisedMerkleTree => c.serialisedTree.isSome

instance (c : PendingEntry σ) (t : Table) : Decidable (c.Writes t) := by
  cases t <;> exact inferInstanceAs (Decidable (_ = true))

/-- The hook of the table brings what the transaction `c` has written. -/
def receive (t : Table) (e : PendingEntry σ) : PendingEntry σ :=
  match t with
  | .signatures => { e with sig := c.sig }
  | .coseSignatures => { e with coseSignature := c.coseSignature }
  | .serialisedMerkleTree => { e with serialisedTree := c.serialisedTree }

/-- An entry with a tree and a signature has all that the transaction has written. -/
def Whole (e : PendingEntry σ) : Prop :=
  e.serialisedTree.isSome → e.sig.isSome ∨ e.coseSignature.isSome → e = c

end PendingEntry

open PendingEntry

/-- The subsystem, with the signature transactions that are committed, the version of the last one and the versions
that have been evicted. -/
structure State (σ : Type) where
  cache : List (ℕ × PendingEntry σ) := []
  maxCacheSize : ℕ := 5
  committed : List (ℕ × PendingEntry σ) := []
  version : ℕ := 0
  evicted : List ℕ := []

/-- An entry that is complete. -/
def cached (p : ℕ × PendingEntry σ) : Option (CachedSignature σ) :=
  if p.2.sig.isSome ∨ p.2.coseSignature.isSome then
    p.2.serialisedTree.map (⟨p.2.sig, p.2.coseSignature, ·, p.1⟩)
  else none

namespace State

variable (s : State σ)

def evictOldest : State σ :=
  let n := s.cache.length - s.maxCacheSize
  { s with cache := s.cache.drop n, evicted := s.evicted ++ keys (s.cache.take n) }

/-- `cache.try_emplace(version)`. -/
def tryEmplace (version : ℕ) : State σ :=
  if version ∈ keys s.cache then s
  else { s with cache := s.cache.takeWhile (·.1 < version) ++ (version, {}) :: s.cache.dropWhile (·.1 < version) }

/-- The entry is created once more if it is evicted at once. -/
def getOrCreateEntry (version : ℕ) : State σ := (s.tryEmplace version).evictOldest.tryEmplace version

/-- An empty entry at the end of the cache. -/
def append (version : ℕ) : State σ := { s with cache := s.cache ++ [(version, {})] }

/-- `on_signature_committed`, `on_cose_signature_committed` and `on_tree_committed`. -/
def onCommitted (version : ℕ) (c : PendingEntry σ) (t : Table) : State σ :=
  let s := s.getOrCreateEntry version
  { s with cache := Assoc.modify version (c.receive t) s.cache }

def setMaxCacheSize (n : ℕ) : State σ := evictOldest { s with maxCacheSize := max 1 n }

def getSignatureFor (seqno : ℕ) : Option (CachedSignature σ) :=
  (s.cache.find? (seqno < ·.1)).bind cached

/-- The contents of the first signature transaction after `seqno`. -/
def covering (seqno : ℕ) : Option (CachedSignature σ) :=
  (s.committed.find? (seqno < ·.1)).bind cached

/-- A query is answered with the covering signature or not at all, and the cache keeps its size. -/
structure Exact (s : State σ) (seqno : ℕ) : Prop where
  covers : ∀ x ∈ s.getSignatureFor seqno, s.covering seqno = some x
  size : s.cache.length ≤ s.maxCacheSize

end State

open SignatureCache.State

inductive Event (σ : Type) where
  /-- The next signature transaction is committed, some versions after the last one. -/
  | commit (gap : ℕ) (c : PendingEntry σ)
  /-- A hook is called for a committed transaction. -/
  | hook (version : ℕ) (t : Table)
  | setMaxCacheSize (n : ℕ)

def step (s : State σ) : Event σ → State σ
  | .commit gap c =>
    { s with committed := s.committed ++ [(s.version + gap + 1, c)], version := s.version + gap + 1 }
  | .hook version t =>
    match s.committed.lookup version with
    | none => s
    | some c => if c.Writes t then s.onCommitted version c t else s
  | .setMaxCacheSize n => s.setMaxCacheSize n

/-- Entries are created once, in the order of versions, and no hook makes an entry one that is answered before all of
the transaction has arrived. -/
def Orderly (s : State σ) : Event σ → Prop
  | .hook version t =>
    (version ∈ keys s.cache ∨ version ∉ s.evicted ∧
      ∀ v ∈ keys s.committed, v < version → v ∈ s.evicted ++ keys s.cache) ∧
    ∀ c ∈ s.committed.lookup version, ∀ x ∈ s.cache, x.1 = version → c.Whole (c.receive t x.2)
  | _ => True

instance [DecidableEq σ] (s : State σ) (x : Event σ) : Decidable (Orderly s x) := by
  cases x <;> unfold Orderly PendingEntry.Whole <;> infer_instance

/-- The cache has entries for the first transactions that have not been evicted, and those answered are complete. -/
structure Inv (s : State σ) : Prop where
  ordered : s.evicted ++ keys s.cache <+: keys s.committed
  whole : ∀ x ∈ s.cache, ∀ y ∈ s.committed, x.1 = y.1 → y.2.Whole x.2
  pos : 0 < s.maxCacheSize
  sorted : (keys s.committed).Pairwise (· < ·)
  version : ∀ v ∈ keys s.committed, v ≤ s.version

section
variable {s : State σ} {v : ℕ} {c : PendingEntry σ} {t : Table}

theorem evictOldest_eq (h : s.cache.length ≤ s.maxCacheSize) : s.evictOldest = s := by
  simp [evictOldest, Nat.sub_eq_zero_of_le h]

theorem whole_receive : c.Whole (c.receive t {}) := by
  intro htree hsig
  cases t with
  | serialisedMerkleTree => simp [PendingEntry.receive] at hsig
  | _ => cases htree

theorem tryEmplace_of_mem (h : v ∈ keys s.cache) : s.tryEmplace v = s := if_pos h

variable (h : Inv s)
include h

theorem Inv.covers {seqno : ℕ} (hseqno : ∀ u ∈ s.evicted, u ≤ seqno) {x : CachedSignature σ}
    (hx : x ∈ s.getSignatureFor seqno) : s.covering seqno = some x := by
  obtain ⟨p, hp, hx⟩ := Option.bind_eq_some_iff.1 hx
  -- the first transaction after the seqno is that of the entry
  obtain ⟨rest, hkeys⟩ := h.ordered
  have hevicted : s.evicted.find? (seqno < ·) = none := by simpa using hseqno
  have hfirst : (keys s.committed).find? (seqno < ·) = some p.1 := by
    rw [← hkeys, find?_append, find?_append, hevicted, Assoc.keys, find?_map, Function.comp_def, hp]
    rfl
  rw [Assoc.keys, find?_map, Option.map_eq_some_iff] at hfirst
  obtain ⟨y, hy, hversion⟩ := hfirst
  have hwhole := h.whole p (mem_of_find?_eq_some hp) y (mem_of_find?_eq_some hy) hversion.symm
  have heq : y = p := by
    unfold cached at hx
    split_ifs at hx with hsig
    obtain ⟨tree, htree, -⟩ := Option.map_eq_some_iff.1 hx
    exact Prod.ext hversion (hwhole (by rw [htree]; rfl) hsig).symm
  exact Option.bind_eq_some_iff.2 ⟨y, hy, heq ▸ hx⟩

theorem Inv.evictOldest : Inv s.evictOldest ∧ s.evictOldest.cache.length ≤ s.evictOldest.maxCacheSize := by
  refine ⟨{ h with ordered := ?_, whole := fun x hx => h.whole x (mem_of_mem_drop hx) }, ?_⟩
  · have hkeys := h.ordered
    rw [← take_append_drop (s.cache.length - s.maxCacheSize) s.cache, Assoc.keys_append, ← append_assoc] at hkeys
    exact hkeys
  · show (s.cache.drop _).length ≤ s.maxCacheSize
    rw [length_drop]
    omega

theorem Inv.commit (gap : ℕ) (c : PendingEntry σ) : Inv (step s (.commit gap c)) := by
  have hlt : ∀ v ∈ keys s.committed, v < s.version + gap + 1 := fun v hv => by
    have := h.version v hv
    omega
  refine ⟨?_, fun x hx y hy heq => ?_, h.pos, ?_, fun v hv => ?_⟩
  · exact h.ordered.trans (by rw [step, Assoc.keys_append]; exact prefix_append _ _)
  · rcases mem_append.1 hy with hy | hy
    · exact h.whole x hx y hy heq
    · have := hlt x.1 (h.ordered.subset (mem_append_right _ (mem_map_of_mem hx)))
      rw [heq, mem_singleton.1 hy] at this
      exact absurd this (lt_irrefl _)
  · rw [step, Assoc.keys_append, pairwise_append]
    exact ⟨h.sorted, pairwise_singleton _ _, fun u hu v hv => mem_singleton.1 hv ▸ hlt u hu⟩
  · rw [step, Assoc.keys_append, mem_append] at hv
    rcases hv with hv | hv
    · exact le_of_lt (hlt v hv)
    · exact le_of_eq (mem_singleton.1 hv)

/-- The entry of the next transaction becomes the last one. -/
theorem Inv.create (hv : v ∈ keys s.committed) (hnew : v ∉ s.evicted ++ keys s.cache)
    (hbelow : ∀ u ∈ keys s.committed, u < v → u ∈ s.evicted ++ keys s.cache) :
    s.tryEmplace v = s.append v ∧ Inv (s.append v) := by
  obtain ⟨rest, hkeys⟩ := h.ordered
  have hsorted := h.sorted
  rw [← hkeys, pairwise_append] at hsorted
  obtain ⟨-, hrest, hcross⟩ := hsorted
  rw [← hkeys] at hv hbelow
  have hv := (mem_append.1 hv).resolve_left hnew
  have hlt : ∀ x ∈ s.cache, decide (x.1 < v) = true := fun x hx =>
    decide_eq_true (hcross x.1 (mem_append_right _ (mem_map_of_mem hx)) v hv)
  refine ⟨?_, { h with ordered := ?_, whole := fun x hx => ?_ }⟩
  · rw [tryEmplace, if_neg fun hmem => hnew (mem_append_right _ hmem), takeWhile_eq_self_iff.2 hlt,
      dropWhile_eq_nil_iff.2 hlt]
    rfl
  · cases rest with
    | nil => cases hv
    | cons u rest =>
      -- a transaction before that of the version would be in the cache
      have hu : u = v := by
        by_contra hne
        have hlt := (pairwise_cons.1 hrest).1 v ((mem_cons.1 hv).resolve_left (Ne.symm hne))
        have hu := hbelow u (mem_append_right _ mem_cons_self) hlt
        exact lt_irrefl _ (hcross u hu u mem_cons_self)
      rw [State.append, Assoc.keys_append]
      exact ⟨rest, by rw [← hkeys, ← append_assoc, append_assoc, ← hu]; rfl⟩
  · rcases mem_append.1 hx with hx | hx
    · exact h.whole x hx
    · rw [mem_singleton.1 hx]
      rintro _ _ _ ⟨⟩

theorem Inv.receive (hc : s.committed.lookup v = some c)
    (hwhole : ∀ x ∈ s.cache, x.1 = v → c.Whole (c.receive t x.2)) :
    Inv { s with cache := Assoc.modify v (c.receive t) s.cache } := by
  refine { h with ordered := ?_, whole := fun x hx y hy heq => ?_ }
  · rw [Assoc.keys_modify]
    exact h.ordered
  · obtain ⟨x₀, hx₀, hversion, ⟨-, rfl⟩ | ⟨hv, hx⟩⟩ := Assoc.mem_modify hx
    · exact h.whole x hx₀ y hy heq
    · obtain rfl : y = (v, c) :=
        inj_on_of_nodup_map (h.sorted.imp Nat.ne_of_lt) hy (Assoc.mem_of_lookup hc) (heq ▸ hv)
      rw [hx]
      exact hwhole x₀ hx₀ (hversion ▸ hv)

/-- The new entry is not the one that makes room for it. -/
theorem Inv.onCommitted (hc : s.committed.lookup v = some c) (hx : Orderly s (.hook v t))
    (hsize : s.cache.length ≤ s.maxCacheSize) :
    Inv (s.onCommitted v c t) ∧ (s.onCommitted v c t).cache.length ≤ (s.onCommitted v c t).maxCacheSize := by
  unfold State.onCommitted State.getOrCreateEntry
  by_cases hmem : v ∈ keys s.cache
  · rw [tryEmplace_of_mem hmem, evictOldest_eq hsize, tryEmplace_of_mem hmem]
    exact ⟨h.receive hc (hx.2 c hc), by simpa [Assoc.modify] using hsize⟩
  · obtain ⟨hevicted, hbelow⟩ := hx.1.resolve_left hmem
    have hnew : v ∉ s.evicted ++ keys s.cache := fun hv => (mem_append.1 hv).elim hevicted hmem
    have hv : v ∈ keys s.committed := mem_map_of_mem (Assoc.mem_of_lookup hc)
    obtain ⟨hcreate, hinv⟩ := h.create hv hnew hbelow
    obtain ⟨hinv, hsize⟩ := hinv.evictOldest
    have hdrop : (s.append v).cache.length - s.maxCacheSize ≤ s.cache.length := by
      have hpos := h.pos
      rw [State.append, length_append, length_singleton]
      omega
    have hcache : (s.append v).evictOldest.cache = s.cache.drop _ ++ [(v, ({} : PendingEntry σ))] :=
      drop_append_of_le_length hdrop
    rw [hcreate, tryEmplace_of_mem (by rw [hcache]; simp [Assoc.keys])]
    refine ⟨hinv.receive hc fun x hx hv => ?_, by simpa [Assoc.modify] using hsize⟩
    rw [hcache, mem_append, mem_singleton] at hx
    obtain hx | rfl := hx
    · exact absurd (hv ▸ mem_map_of_mem (mem_of_mem_drop hx)) hmem
    · exact whole_receive

theorem Inv.step (hsize : s.cache.length ≤ s.maxCacheSize) (x : Event σ) (hx : Orderly s x) :
    Inv (step s x) ∧ (step s x).cache.length ≤ (step s x).maxCacheSize := by
  cases x with
  | commit gap c => exact ⟨h.commit gap c, hsize⟩
  | setMaxCacheSize n => exact Inv.evictOldest { h with pos := Nat.le_max_left 1 n }
  | hook v t =>
    rw [SignatureCache.step]
    split
    · exact ⟨h, hsize⟩
    · next c hc =>
      split_ifs
      · exact h.onCommitted hc hx hsize
      · exact ⟨h, hsize⟩

end

/-- **The signature cache** keeps its size and answers with the signature that covers a seqno, in every orderly run and
for every seqno that nothing after has been evicted. -/
theorem exact_of_orderly (events : List (Event σ)) (h : Runs.Along step Orderly {} events) (seqno : ℕ)
    (hseqno : ∀ u ∈ (Runs.exec step {} events).evicted, u ≤ seqno) : Exact (Runs.exec step {} events) seqno := by
  have hinit : Inv ({} : State σ) := ⟨prefix_rfl, nofun, Nat.succ_pos 4, .nil, nofun⟩
  obtain ⟨hinv, hsize⟩ := Runs.exec_induction (I := fun s : State σ => Inv s ∧ s.cache.length ≤ s.maxCacheSize)
    (fun s x hs hx => hs.1.step hs.2 x hx) ⟨hinit, Nat.zero_le _⟩ h
  exact ⟨fun x => hinv.covers hseqno, hsize⟩

/-- A signature transaction and the hooks for it. -/
def delivered (version : ℕ) (sig : ℕ) : List (Event ℕ) :=
  [.commit 0 ⟨some sig, none, some []⟩, .hook version .signatures, .hook version .serialisedMerkleTree]

/-- With room for one entry the first signature is evicted. -/
def evicting : List (Event ℕ) := .setMaxCacheSize 1 :: (delivered 1 7 ++ delivered 2 8)

theorem exact_of_orderly_two :
    (Runs.exec step {} evicting).getSignatureFor 1 = some ⟨some 8, none, [], 2⟩ ∧
      Exact (Runs.exec step {} evicting) 1 :=
  ⟨by decide, exact_of_orderly _ (by decide) 1 (by decide)⟩

/-- The second signature is taken to cover what the first one covers. -/
theorem not_exact_evicting : ¬Exact (Runs.exec step {} evicting) 0 := by
  intro h
  have hcovers := h.covers ⟨some 8, none, [], 2⟩ (by decide)
  revert hcovers
  decide

end Ccf.Node.SignatureCache
