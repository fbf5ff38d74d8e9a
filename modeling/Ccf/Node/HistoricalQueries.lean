import Ccf.Lib.Bytes
import Ccf.Lib.Assoc

/-! # Historical queries (`node/historical_queries.h`)

The host answers a request for the entries `from..to` with bytes, which `handle_ledger_entries` cuts into entries by
the sizes in their headers. It compares the size of an entry neither with what is left of the bytes nor the number of
entries with the range, so it need not stay inside them (`bounded_iff`).

When the host does not have an entry, the requests that `get_store_details` finds it for are dropped. That looks at
the stores of all requests, so every request goes that comes before one which holds the entry. -/

namespace Ccf.Node.HistoricalQueries

open List

def serialisedEntryHeaderSize : ℕ := 8

/-- The size of the entry that the bytes begin with: that of its header, and the 48 bits of the header behind the
version and the flags. -/
def wholeSize (data : List UInt8) : ℕ :=
  ofLeBytes ((data.take serialisedEntryHeaderSize).drop 2) + serialisedEntryHeaderSize

/-- What `handle_ledger_entry` is called with; the slice begins at `offset` of the input. -/
structure Slice where
  seqno : ℕ
  offset : ℕ
  size : ℕ
deriving DecidableEq

inductive Ending where
  | finished
  /-- `InsufficientSpaceException`. -/
  | insufficientSpace
  /-- The remaining size has wrapped below zero, and the pointer is behind the input. -/
  | wrapped
deriving DecidableEq

/-- The loop of `handle_ledger_entries`, at `seqno` and with `data` left from `offset` on. What `handle_ledger_entry`
answers does not matter to it. The seqno leaves the range before it would wrap at 64 bits. -/
def handleLedgerEntries (seqno offset : ℕ) (data : List UInt8) : List Slice × Ending :=
  if data = [] then ([], .finished)
  else if data.length < serialisedEntryHeaderSize then ([], .insufficientSpace)
  else
    let slice := ⟨seqno, offset, wholeSize data⟩
    if data.length < wholeSize data then ([slice], .wrapped)
    else
      let r := handleLedgerEntries (seqno + 1) (offset + wholeSize data) (data.drop (wholeSize data))
      (slice :: r.1, r.2)
termination_by data.length
decreasing_by
  rw [length_drop, wholeSize, serialisedEntryHeaderSize] at *
  omega

/-- Slices are inside the input and of seqnos of the range, and the remaining size does not wrap. -/
structure Bounded (fromSeqno toSeqno : ℕ) (data : List UInt8) : Prop where
  inside : ∀ s ∈ (handleLedgerEntries fromSeqno 0 data).1, s.offset + s.size ≤ data.length
  inRange : ∀ s ∈ (handleLedgerEntries fromSeqno 0 data).1, fromSeqno ≤ s.seqno ∧ s.seqno ≤ toSeqno
  noWrap : (handleLedgerEntries fromSeqno 0 data).2 ≠ .wrapped

/-- The bytes are whole entries and less than a header. -/
structure Whole (entries : List (List UInt8)) (rest data : List UInt8) : Prop where
  data_eq : data = entries.flatten ++ rest
  whole : ∀ e ∈ entries, serialisedEntryHeaderSize ≤ e.length ∧ wholeSize e = e.length
  rest_lt : rest.length < serialisedEntryHeaderSize

variable {entries : List (List UInt8)} {rest data : List UInt8}

theorem wholeSize_append {e : List UInt8} (h : serialisedEntryHeaderSize ≤ e.length) (data : List UInt8) :
    wholeSize (e ++ data) = wholeSize e := by
  rw [wholeSize, wholeSize, take_append_of_le_length h]

/-- Whole entries are handled one after the other. -/
theorem Whole.handled (h : Whole entries rest data) (seqno offset : ℕ) :
    (handleLedgerEntries seqno offset data).2 ≠ .wrapped ∧
      (handleLedgerEntries seqno offset data).1.map Slice.seqno = List.range' seqno entries.length ∧
      ∀ s ∈ (handleLedgerEntries seqno offset data).1, s.offset + s.size ≤ offset + data.length := by
  induction entries generalizing data seqno offset with
  | nil =>
    obtain rfl : data = rest := h.data_eq
    rw [handleLedgerEntries, if_pos h.rest_lt]
    split <;> exact ⟨nofun, rfl, nofun⟩
  | cons e entries ih =>
    obtain ⟨hlong, hwhole⟩ := h.whole e mem_cons_self
    have hdata : data = e ++ (entries.flatten ++ rest) := by
      rw [h.data_eq, flatten_cons, append_assoc]
    have hsize : wholeSize data = e.length := by rw [hdata, wholeSize_append hlong, hwhole]
    have hlength : data.length = e.length + (entries.flatten ++ rest).length := by rw [hdata, length_append]
    obtain ⟨hend, hseqnos, hinside⟩ := @ih (entries.flatten ++ rest)
      ⟨rfl, (forall_mem_cons.1 h.whole).2, h.rest_lt⟩ (seqno + 1) (offset + e.length)
    have hne : data ≠ [] := by
      rintro rfl
      rw [length_nil, serialisedEntryHeaderSize] at *
      omega
    rw [handleLedgerEntries, if_neg hne, if_neg (by omega), hsize, if_neg (by omega), hlength, hdata, drop_left]
    refine ⟨hend, ?_, forall_mem_cons.2 ⟨by dsimp only; omega, fun s hs => ?_⟩⟩
    · rw [map_cons, hseqnos, length_cons, List.range'_succ]
    · have := hinside s hs
      omega

/-- If the remaining size does not wrap the bytes are whole entries. -/
theorem exists_whole {seqno offset : ℕ} (h : (handleLedgerEntries seqno offset data).2 ≠ .wrapped) :
    ∃ entries rest, Whole entries rest data := by
  induction hn : data.length using Nat.strong_induction_on generalizing data seqno offset with
  | _ n ih =>
    rw [handleLedgerEntries] at h
    split_ifs at h with hnil hshort hover
    · exact ⟨[], data, rfl, nofun, by rw [hnil]; decide⟩
    · exact ⟨[], data, rfl, nofun, hshort⟩
    · exact absurd rfl h
    · obtain ⟨entries, rest, hwhole⟩ := ih _ (by
        rw [length_drop, wholeSize, serialisedEntryHeaderSize] at *
        omega) h rfl
      have hlength : (data.take (wholeSize data)).length = wholeSize data := length_take_of_le (not_lt.1 hover)
      have hlong : serialisedEntryHeaderSize ≤ (data.take (wholeSize data)).length := by
        rw [hlength]
        exact Nat.le_add_left _ _
      refine ⟨data.take (wholeSize data) :: entries, rest, ?_, forall_mem_cons.2 ⟨⟨hlong, ?_⟩, hwhole.whole⟩,
        hwhole.rest_lt⟩
      · rw [flatten_cons, append_assoc, ← hwhole.data_eq, take_append_drop]
      · rw [hlength, ← wholeSize_append hlong (data.drop (wholeSize data)), take_append_drop]

/-- **Ranges of ledger entries**: reading stays inside the input and the range just when the input is whole entries,
at most as many as the range has seqnos, followed by less than a header. -/
theorem bounded_iff (fromSeqno toSeqno : ℕ) (data : List UInt8) :
    Bounded fromSeqno toSeqno data ↔
      ∃ entries rest, Whole entries rest data ∧ entries.length ≤ toSeqno + 1 - fromSeqno := by
  have hmem : ∀ {entries rest}, Whole entries rest data → ∀ seqno,
      (∃ s ∈ (handleLedgerEntries fromSeqno 0 data).1, s.seqno = seqno) ↔
        fromSeqno ≤ seqno ∧ seqno < fromSeqno + entries.length := by
    intro entries rest hwhole seqno
    rw [← mem_range'_1, ← (hwhole.handled fromSeqno 0).2.1, mem_map]
  constructor
  · intro h
    obtain ⟨entries, rest, hwhole⟩ := exists_whole h.noWrap
    refine ⟨entries, rest, hwhole, not_lt.1 fun hlt => ?_⟩
    -- the first seqno behind the range is handled, or the first one of all if the range is empty
    obtain ⟨s, hs, heq⟩ := (hmem hwhole (fromSeqno + (toSeqno + 1 - fromSeqno))).2 (by omega)
    have := h.inRange s hs
    omega
  · rintro ⟨entries, rest, hwhole, hcount⟩
    obtain ⟨hend, -, hinside⟩ := hwhole.handled fromSeqno 0
    refine ⟨fun s hs => (hinside s hs).trans_eq (zero_add _), fun s hs => ?_, hend⟩
    have := (hmem hwhole s.seqno).1 ⟨s, hs, rfl⟩
    omega

/-- A header announces a byte that is not there. -/
theorem not_bounded_header : ¬Bounded 1 1 (1 :: 0 :: leBytes 6 1) := by
  intro h
  refine h.noWrap ?_
  rw [handleLedgerEntries]
  rfl

/-! ### Missing entries -/

/-- The `StoreDetails` of a seqno are given by their address, and `none` is the null pointer. -/
structure Request where
  myStores : List (ℕ × Option ℕ)
  timeToExpiry : ℕ := 0
  includeReceipts : Bool := false
  supportingSignatures : List (ℕ × ℕ) := []
  awaitingLedgerSecrets : Option ℕ := none

/-- The pointers of `allStores` are weak. -/
structure StateCache where
  requests : List (ℕ × Request)
  sorted : requests.Pairwise fun p q => p.1 < q.1
  allStores : List (ℕ × ℕ)
  nextSecretFetchHandle : Option ℕ := none

def Request.Owns (r : Request) (details : ℕ) : Prop :=
  some details ∈ r.myStores.map Prod.snd ∨ details ∈ r.supportingSignatures.map Prod.snd

instance (r : Request) (details : ℕ) : Decidable (r.Owns details) := inferInstanceAs (Decidable (_ ∨ _))

namespace StateCache

variable (c : StateCache) (seqno : ℕ)

/-- `get_store_details`, which is the same for every request, while `requests` are left. -/
def getStoreDetails (requests : List (ℕ × Request)) : Option ℕ :=
  (c.allStores.lookup seqno).filter fun details =>
    c.nextSecretFetchHandle = some details ∨ ∃ p ∈ requests, p.2.Owns details

/-- The loop of `delete_all_interested_requests`, with what it has kept so far. -/
def deleteLoop (kept : List (ℕ × Request)) : List (ℕ × Request) → List (ℕ × Request)
  | [] => kept
  | p :: rest =>
    if (c.getStoreDetails seqno (kept ++ p :: rest)).isSome then deleteLoop kept rest else deleteLoop (kept ++ [p]) rest

theorem deleteLoop_sublist (kept rest : List (ℕ × Request)) : c.deleteLoop seqno kept rest <+ kept ++ rest := by
  induction rest generalizing kept with
  | nil => simp [deleteLoop]
  | cons p rest ih =>
    unfold deleteLoop
    split_ifs
    · exact (ih kept).trans ((sublist_cons_self p rest).append_left kept)
    · simpa using ih (kept ++ [p])

def deleteAllInterestedRequests : StateCache :=
  { c with
    requests := c.deleteLoop seqno [] c.requests
    sorted := c.sorted.sublist (c.deleteLoop_sublist seqno [] c.requests) }

/-- One seqno of `handle_no_entry_range`. -/
def handleNoEntry : StateCache :=
  if seqno ∈ Assoc.keys c.allStores then
    { c.deleteAllInterestedRequests seqno with allStores := Assoc.erase seqno c.allStores }
  else c

def handleNoEntryRange (fromSeqno toSeqno : ℕ) : StateCache :=
  (range' fromSeqno (toSeqno + 1 - fromSeqno)).foldl handleNoEntry c

/-- The next secret, or one of the requests from `handle` on, has these details. -/
def Reaches (requests : List (ℕ × Request)) (handle details : ℕ) : Prop :=
  c.nextSecretFetchHandle = some details ∨ ∃ q ∈ requests, handle ≤ q.1 ∧ q.2.Owns details

variable {c seqno} {p : ℕ × Request} {rest : List (ℕ × Request)}

theorem deleteLoop_eq {kept : List (ℕ × Request)} (h : c.getStoreDetails seqno (kept ++ rest) = none) :
    c.deleteLoop seqno kept rest = kept ++ rest := by
  induction rest generalizing kept with
  | nil => simp [deleteLoop]
  | cons p rest ih =>
    rw [deleteLoop, h, if_neg (by simp), ih (by simpa using h)]
    simp

/-- What is kept is after the last request that has the details. -/
theorem mem_deleteLoop (hsorted : rest.Pairwise fun p q => p.1 < q.1) :
    p ∈ c.deleteLoop seqno [] rest ↔
      p ∈ rest ∧ ∀ details ∈ c.allStores.lookup seqno, ¬c.Reaches rest p.1 details := by
  induction rest with
  | nil => simp [deleteLoop]
  | cons r rest ih =>
    obtain ⟨hfirst, hrest⟩ := pairwise_cons.1 hsorted
    rw [deleteLoop]
    split_ifs with hfound
    · obtain ⟨details, hdetails⟩ := Option.isSome_iff_exists.1 hfound
      obtain ⟨hlookup, halive⟩ := Option.filter_eq_some_iff.1 hdetails
      rw [ih hrest]
      constructor
      · rintro ⟨hp, hnot⟩
        refine ⟨mem_cons_of_mem _ hp, fun d hd hreaches => hnot d hd (hreaches.imp_right ?_)⟩
        rintro ⟨q, hq, hle, howns⟩
        refine ⟨q, (mem_cons.1 hq).resolve_left ?_, hle, howns⟩
        rintro rfl
        exact absurd (hfirst p hp) (not_lt.2 hle)
      · rintro ⟨hp, hnot⟩
        refine ⟨(mem_cons.1 hp).resolve_left ?_, fun d hd hreaches => hnot d hd (hreaches.imp_right ?_)⟩
        · rintro rfl
          refine hnot details hlookup ((of_decide_eq_true halive).imp_right ?_)
          rintro ⟨q, hq, howns⟩
          have hle : p.1 ≤ q.1 := by
            rcases mem_cons.1 hq with rfl | hq
            · exact le_rfl
            · exact le_of_lt (hfirst q hq)
          exact ⟨q, hq, hle, howns⟩
        · rintro ⟨q, hq, h⟩
          exact ⟨q, mem_cons_of_mem _ hq, h⟩
    · have hnone := Option.not_isSome_iff_eq_none.1 hfound
      rw [nil_append] at hnone
      rw [nil_append, deleteLoop_eq hnone, singleton_append]
      refine (and_iff_left fun details hdetails hreaches => ?_).symm
      refine Option.filter_eq_none_iff.1 hnone details hdetails (decide_eq_true (hreaches.imp_right ?_))
      rintro ⟨q, hq, -, howns⟩
      exact ⟨q, hq, howns⟩

theorem mem_handleNoEntry : p ∈ (c.handleNoEntry seqno).requests ↔
    p ∈ c.requests ∧ ∀ details ∈ c.allStores.lookup seqno, ¬c.Reaches c.requests p.1 details := by
  unfold handleNoEntry
  split_ifs with hkey
  · exact mem_deleteLoop c.sorted
  · rw [Assoc.lookup_eq_none_iff.2 hkey]
    simp

theorem mem_foldl_handleNoEntry {seqnos : List ℕ} (hnodup : seqnos.Nodup) :
    p ∈ (seqnos.foldl handleNoEntry c).requests ↔
      p ∈ c.requests ∧ ∀ s ∈ seqnos, ∀ details ∈ c.allStores.lookup s, ¬c.Reaches c.requests p.1 details := by
  induction seqnos generalizing c with
  | nil => simp
  | cons s seqnos ih =>
    obtain ⟨hs, hseqnos⟩ := nodup_cons.1 hnodup
    have hlookup : ∀ t ∈ seqnos, (c.handleNoEntry s).allStores.lookup t = c.allStores.lookup t := by
      intro t ht
      unfold handleNoEntry
      split_ifs
      · exact (Assoc.lookup_erase s t _).trans (if_neg (ne_of_mem_of_not_mem ht hs))
      · rfl
    have hnext : (c.handleNoEntry s).nextSecretFetchHandle = c.nextSecretFetchHandle := by
      unfold handleNoEntry
      split_ifs <;> rfl
    rw [foldl_cons, ih hseqnos, forall_mem_cons, mem_handleNoEntry, and_assoc]
    refine and_congr_right fun _ => and_congr_right fun hkept => forall₂_congr fun t ht => ?_
    rw [hlookup t ht]
    refine forall₂_congr fun details _ => not_congr ?_
    rw [Reaches, hnext]
    refine or_congr_right ⟨?_, ?_⟩
    · rintro ⟨q, hq, h⟩
      exact ⟨q, (mem_handleNoEntry.1 hq).1, h⟩
    · -- the requests after one that is kept are kept as well
      rintro ⟨q, hq, hle, howns⟩
      refine ⟨q, mem_handleNoEntry.2 ⟨hq, fun d hd hreaches => hkept d hd (hreaches.imp_right ?_)⟩, hle, howns⟩
      rintro ⟨q', hq', hle', howns'⟩
      exact ⟨q', hq', le_trans hle hle', howns'⟩

end StateCache

/-- A store of the request is in the range. -/
def Request.Touches (r : Request) (fromSeqno toSeqno : ℕ) : Prop :=
  ∃ seqno, fromSeqno ≤ seqno ∧ seqno ≤ toSeqno ∧ (seqno ∈ Assoc.keys r.myStores ∨
    seqno ∈ Assoc.keys r.supportingSignatures)

/-- **Which requests a missing range drops**: they are those with a store in the range just when these are the ones up
to the last request that has the shared details of a missing seqno, or all if the next secret has them. -/
theorem drops_iff (c : StateCache) (fromSeqno toSeqno : ℕ) :
    (∀ p, p ∈ (c.handleNoEntryRange fromSeqno toSeqno).requests ↔ p ∈ c.requests ∧ ¬p.2.Touches fromSeqno toSeqno) ↔
      ∀ p ∈ c.requests, (p.2.Touches fromSeqno toSeqno ↔ ∃ seqno, fromSeqno ≤ seqno ∧ seqno ≤ toSeqno ∧
        ∃ details ∈ c.allStores.lookup seqno, c.Reaches c.requests p.1 details) := by
  refine forall_congr' fun p => ?_
  have hrange : ∀ s, s ∈ range' fromSeqno (toSeqno + 1 - fromSeqno) ↔ fromSeqno ≤ s ∧ s ≤ toSeqno := by
    intro s
    rw [mem_range'_1]
    omega
  rw [StateCache.handleNoEntryRange, StateCache.mem_foldl_handleNoEntry nodup_range', and_congr_right_iff]
  refine imp_congr_right fun _ => ?_
  grind

/-- One request is for seqno 5, the other one for 7. -/
def twoRequests : StateCache where
  requests := [(1, { myStores := [(5, some 50)] }), (2, { myStores := [(7, some 70)] })]
  sorted := by decide
  allStores := [(5, 50), (7, 70)]

/-- Both are dropped when 7 is missing. -/
theorem not_drops_twoRequests : (twoRequests.handleNoEntryRange 7 7).requests.map Prod.fst = [] ∧
    ¬Request.Touches { myStores := [(5, some 50)] } 7 7 := by
  refine ⟨by decide, ?_⟩
  rintro ⟨seqno, hfrom, -, h | h⟩
  · simp [Assoc.keys] at h
    omega
  · cases h

end Ccf.Node.HistoricalQueries
