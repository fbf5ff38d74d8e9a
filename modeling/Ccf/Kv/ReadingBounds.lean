import Ccf.Kv.MapSnapshot

/-! # The bounds of reading

Which bytes the readers of entries and of map snapshots look at. Most reads compare with the size that is left. A
digest is copied without a look at it, the size of a size-prefixed entry is compared with what was left before the
size was read, and the length of the public domain is taken as the entry gives it (`reading_within`). Keys and values
of a map snapshot are copied before their sizes are looked at. -/

namespace Ccf.Kv

open Cursor RawReader Deserialiser

variable {c : Cursor} {α : Type}

/-! ### Reads of `RawReader` -/

section
variable {n : ℕ} (h : c.offset ≤ c.size)
include h

theorem skip_eq (n : ℕ) : Deserialiser.skip n c = if c.offset + n ≤ c.size then
      if n ≤ c.rest.length then .ok (c.rest.take n, c.skip n) else .error .overrun
    else .error .insufficientSpace := by
  rw [Deserialiser.skip, remaining_bind, show c.remainder = c.size - c.offset from if_pos h]
  split_ifs with hn hrest
  · exact (bind_of_ok (ensure_ok (by omega) _ _)).trans (if_neg (not_lt.2 hrest))
  · exact (bind_of_ok (ensure_ok (by omega) _ _)).trans (if_pos (not_le.1 hrest))
  · exact bind_of_error (ensure_error (by omega) _ _)

theorem readEntry_eq (w : ℕ) : readEntry w c = if c.offset + w ≤ c.size then
      if w ≤ c.rest.length then .ok (ofLeBytes (c.rest.take w), c.skip w) else .error .overrun
    else .error .insufficientSpace := by
  have heq : readEntry w = ofLeBytes <$> Deserialiser.skip w := by
    simp only [readEntry, Deserialiser.skip, map_bind]
  rw [heq]
  show ((fun r : List UInt8 × Cursor => (ofLeBytes r.1, r.2)) <$> Deserialiser.skip w c) = _
  rw [skip_eq h]
  split_ifs <;> rfl

end

section
variable (h : c.Valid) {n : ℕ}
include h

theorem le_rest_of_valid (hn : c.offset + n ≤ c.size) : n ≤ c.rest.length :=
  (h.length_take hn).symm.trans_le (List.length_take_le' _ _)

theorem skip_of_valid (hn : c.offset + n ≤ c.size) : Deserialiser.skip n c = .ok (c.rest.take n, c.skip n) := by
  rw [skip_eq h.offset, if_pos hn, if_pos (le_rest_of_valid h hn)]

theorem readEntry_of_valid (hn : c.offset + n ≤ c.size) :
    readEntry n c = .ok (ofLeBytes (c.rest.take n), c.skip n) := by
  rw [readEntry_eq h.offset, if_pos hn, if_pos (le_rest_of_valid h hn)]

theorem ensures_skip (n : ℕ) : Ensures .overrun
    (fun r => c.offset + n ≤ c.size ∧ r = (c.rest.take n, c.skip n)) (Deserialiser.skip n c) := by
  by_cases hn : c.offset + n ≤ c.size
  · rw [skip_of_valid h hn]
    exact ensures_ok.2 ⟨hn, rfl⟩
  · rw [skip_eq h.offset, if_neg hn]
    exact ensures_error.2 (by decide)

theorem ensures_readEntry (w : ℕ) : Ensures .overrun
    (fun r => c.offset + w ≤ c.size ∧ r = (ofLeBytes (c.rest.take w), c.skip w)) (readEntry w c) := by
  by_cases hw : c.offset + w ≤ c.size
  · rw [readEntry_of_valid h hw]
    exact ensures_ok.2 ⟨hw, rfl⟩
  · rw [readEntry_eq h.offset, if_neg hw]
    exact ensures_error.2 (by decide)

end

/-- A read of `RawReader`. A vector of versions is read as its bytes. -/
inductive RawRead where
  | entry (w : ℕ)
  | entryType
  | sizePrefixed
  | array (size : ℕ)

namespace RawRead

/-- The cursor after the read. -/
def run (c : Cursor) : RawRead → Except CodecFault Cursor
  | entry w => Prod.snd <$> readEntry w c
  | entryType => Prod.snd <$> readEntryType c
  | sizePrefixed => Prod.snd <$> RawReader.sizePrefixed c
  | array n => Prod.snd <$> RawReader.array n c

/-- The next `n` bytes lie inside the size and inside the memory. -/
def Inside (c : Cursor) (n : ℕ) : Prop := c.offset + n ≤ c.size ∧ n ≤ c.rest.length

/-- What is read lies inside, where the check before it passes. -/
def Fits (c : Cursor) : RawRead → Prop
  | entry w => c.offset + w ≤ c.size → Inside c w
  | entryType => c.offset + 1 ≤ c.size → Inside c 1
  | sizePrefixed => c.offset + 8 ≤ c.size → Inside c 8 ∧
      (c.offset + ofLeBytes (c.rest.take 8) ≤ c.size → Inside (c.skip 8) (ofLeBytes (c.rest.take 8)))
  | array n => Inside c n

/-- Nothing outside the memory is read, and the offset keeps inside the size. -/
def Within (r : Except CodecFault Cursor) : Prop := Ensures .overrun (fun c => c.offset ≤ c.size) r

theorem within_copy_iff {n : ℕ} : Within (Prod.snd <$> copy .overrun n c) ↔ Inside c n := by
  unfold copy
  split_ifs with hn
  · exact iff_of_false (fun h => h.1 rfl) fun h => absurd h.2 (not_le.2 hn)
  · exact ensures_ok.trans (and_iff_left (not_lt.1 hn)).symm

variable (h : c.offset ≤ c.size)
include h

theorem within_readEntry_iff (f : ℕ → Reader α) {w : ℕ} {Q : Prop} (hf : Inside c w → (Within (Prod.snd <$>
    f (ofLeBytes (c.rest.take w)) (c.skip w)) ↔ Q)) : Within (Prod.snd <$> (readEntry w >>= f) c) ↔
      (c.offset + w ≤ c.size → Inside c w ∧ Q) := by
  have heq := readEntry_eq h w
  split_ifs at heq with hw hrest
  · rw [bind_of_ok heq, hf ⟨hw, hrest⟩]
    exact ⟨fun hq _ => ⟨⟨hw, hrest⟩, hq⟩, fun hq => (hq hw).2⟩
  · rw [bind_of_error heq]
    exact iff_of_false (fun hc => hc.1 rfl) fun hc => hrest (hc hw).1.2
  · rw [bind_of_error heq]
    exact iff_of_true (ensures_error.2 (by decide)) fun hc => absurd hc hw

/-- A read keeps inside its input just if what it reads fits. -/
theorem within_run_iff (r : RawRead) : Within (r.run c) ↔ r.Fits c := by
  cases r with
  | entry w =>
    rw [run, ← bind_pure (readEntry w), within_readEntry_iff h pure (Q := True)
      fun hin => iff_of_true (ensures_ok.2 hin.1) trivial]
    exact imp_congr_right fun _ => iff_of_eq (and_true _)
  | entryType =>
    refine (within_readEntry_iff h _ (Q := True) fun hin => iff_of_true ?_ trivial).trans
      (imp_congr_right fun _ => iff_of_eq (and_true _))
    cases EntryType.ofCode (ofLeBytes (c.rest.take 1)) with
    | none => exact ensures_error.2 (by decide)
    | some type => exact ensures_ok.2 hin.1
  | sizePrefixed =>
    have hremainder : c.remainder = c.size - c.offset := if_pos h
    show Within (Prod.snd <$> (readEntry 8 >>= fun size => ensure (size ≤ c.remainder) .entryTooShort >>= fun _ =>
      copy .overrun size) c) ↔ _
    refine within_readEntry_iff h _ fun _ => ?_
    by_cases hsize : c.offset + ofLeBytes (c.rest.take 8) ≤ c.size
    · rw [bind_of_ok (ensure_ok (by omega) _ _), within_copy_iff]
      exact (imp_iff_right hsize).symm
    · rw [bind_of_error (ensure_error (by omega) _ _)]
      exact iff_of_true (ensures_error.2 (by decide)) fun hle => absurd hle hsize
  | array n => exact within_copy_iff

omit h

/-- Every read of the sequence keeps inside the input. -/
def AllWithin : List RawRead → Cursor → Prop
  | [], c => c.offset ≤ c.size
  | r :: rs, c => Within (r.run c) ∧ ∀ c', r.run c = .ok c' → AllWithin rs c'

/-- What every read of the sequence reads fits. -/
def AllFit : List RawRead → Cursor → Prop
  | [], _ => True
  | r :: rs, c => r.Fits c ∧ ∀ c', r.run c = .ok c' → AllFit rs c'

theorem allWithin_iff (h : c.offset ≤ c.size) (rs : List RawRead) : AllWithin rs c ↔ AllFit rs c := by
  induction rs generalizing c with
  | nil => exact iff_of_true h trivial
  | cons r rs ih =>
    rw [AllWithin, AllFit, within_run_iff h]
    exact and_congr_right fun hfits => forall_congr' fun c' => imp_congr_right fun hc' =>
      ih (((within_run_iff h r).2 hfits).2 c' hc')

def runAll (rs : List RawRead) (c : Cursor) : Except CodecFault Cursor := rs.foldlM run c

theorem AllWithin.runAll {rs : List RawRead} (h : AllWithin rs c) : Within (runAll rs c) := by
  induction rs generalizing c with
  | nil => exact ensures_ok.2 h
  | cons r rs ih =>
    rw [RawRead.runAll, List.foldlM_cons]
    exact Ensures.bind ⟨h.1.1, h.2⟩ fun c' hc' => ih hc'

end RawRead

/-! ### Entries -/

namespace Deserialiser

/-- The public domain that `init` comes to, if the checks before it pass. -/
def Reaches (encryptor : Option Encryptor) (data : List UInt8) (domain : Cursor) : Prop :=
  ∃ flags c, readSerialisedEntryHeader { memory := data, size := data.length } = .ok (flags, c) ∧
    match encryptor with
    | none => domain = { memory := c.rest, size := c.remainder }
    | some e => ∃ gcmHeader n c', readEncryptionHeader e c = .ok ((gcmHeader, n), c') ∧
        domain = { memory := c'.rest, size := n }

variable {encryptor : Option Encryptor} {data : List UInt8}

theorem Reaches.offset_le {domain : Cursor}
    (h : Reaches encryptor data domain) : domain.offset ≤ domain.size := by
  obtain ⟨flags, c, -, h⟩ := h
  cases encryptor with
  | none =>
    rw [h]
    exact Nat.zero_le _
  | some e =>
    obtain ⟨_, _, _, -, rfl⟩ := h
    exact Nat.zero_le _

def digestSize (present : Bool) : ℕ := if present then 32 else 0

/-- The reads of `read_public_header`. -/
def headReads (c : Cursor) : List RawRead :=
  .entryType :: match EntryType.ofCode (ofLeBytes (c.rest.take 1)) with
    | none => []
    | some type => [.entry 8, .array (digestSize type.hasClaims), .array (digestSize type.hasCommitEvidence), .entry 8]

theorem readDigest_snd (present : Bool) :
    Prod.snd <$> readDigest present c = Prod.snd <$> RawReader.array (digestSize present) c := by
  cases present with
  | false => rfl
  | true =>
    simp only [readDigest, RawReader.array, digestSize, if_true]
    show Prod.snd <$> ((fun r : List UInt8 × Cursor => (some r.1, r.2)) <$> copy CodecFault.overrun 32 c) = _
    cases copy CodecFault.overrun 32 c <;> rfl

theorem map_snd_bind {β : Type} {p : Reader α} {f : α → Reader β} {g : Cursor → Except CodecFault Cursor}
    (h : ∀ x c', p c = .ok (x, c') → Prod.snd <$> f x c' = g c') :
    Prod.snd <$> (p >>= f) c = (Prod.snd <$> p c) >>= g := by
  cases hp : p c with
  | error e =>
    rw [bind_of_error hp]
    rfl
  | ok r =>
    rw [bind_of_ok hp]
    exact h r.1 r.2 hp

/-- What `read_public_header` reads. -/
theorem readPublicHeader_snd (h : c.offset ≤ c.size) :
    Prod.snd <$> readPublicHeader c = RawRead.runAll (headReads c) c := by
  refine map_snd_bind fun type c₁ htype => ?_
  have hcode : EntryType.ofCode (ofLeBytes (c.rest.take 1)) = some type := by
    have hread := readEntry_eq h 1
    split_ifs at hread
    · rw [readEntryType, bind_of_ok hread] at htype
      cases hcode : EntryType.ofCode (ofLeBytes (c.rest.take 1)) with
      | none =>
        rw [hcode] at htype
        cases htype
      | some type' =>
        rw [hcode] at htype
        cases htype
        rfl
    all_goals
      rw [readEntryType, bind_of_error hread] at htype
      cases htype
  rw [hcode]
  refine map_snd_bind fun version c₂ _ => ?_
  refine (map_snd_bind fun claims c₃ _ => ?_).trans (congrArg (· >>= _) (readDigest_snd _))
  refine (map_snd_bind fun evidence c₄ _ => ?_).trans (congrArg (· >>= _) (readDigest_snd _))
  exact map_snd_bind fun _ _ _ => rfl

theorem ensures_ensure (b : Prop) [Decidable b] {e : CodecFault} (he : e ≠ .overrun) (c : Cursor) :
    Ensures .overrun (fun r => r.2 = c) (ensure b e c) := by
  unfold ensure
  split_ifs
  · exact ensures_ok.2 rfl
  · exact ensures_error.2 he

theorem ensures_readSerialisedEntryHeader (data : List UInt8) :
    Ensures .overrun (·.2.Valid) (readSerialisedEntryHeader { memory := data, size := data.length }) := by
  have heq : readSerialisedEntryHeader = Deserialiser.skip 8 >>= fun header => remaining >>= fun n =>
      ensure (ofLeBytes (header.drop 2) = n) .sizeMismatch >>= fun _ =>
      ensure (header.headD 0 = 1) .unknownFormat >>= fun _ => pure ((header.drop 1).headD 0) := by
    simp only [readSerialisedEntryHeader, Deserialiser.skip, bind_assoc]
  rw [heq]
  have hvalid : Cursor.Valid { memory := data, size := data.length } := ⟨Nat.zero_le _, le_rfl⟩
  refine (ensures_skip hvalid 8).bind ?_
  rintro _ ⟨h8, rfl⟩
  refine (ensures_ensure _ (by decide) _).bind ?_
  rintro ⟨_, _⟩ rfl
  refine (ensures_ensure _ (by decide) _).bind ?_
  rintro ⟨_, _⟩ rfl
  exact ensures_ok.2 (hvalid.skip h8)

theorem ensures_readEncryptionHeader (h : c.Valid) (e : Encryptor) :
    Ensures .overrun (·.2.Valid) (readEncryptionHeader e c) := by
  refine (ensures_skip h _).bind ?_
  rintro _ ⟨hhdr, rfl⟩
  refine (ensures_readEntry (h.skip hhdr) 8).bind ?_
  rintro _ ⟨h8, rfl⟩
  exact ensures_ok.2 ((h.skip hhdr).skip h8)

/-- If the reads of the public header keep inside, then `init` does, and the offsets of the readers that it leaves keep
inside their sizes. -/
theorem ensures_init (h : ∀ domain, Reaches encryptor data domain → RawRead.AllWithin (headReads domain) domain)
    (publicOnly historicalHint : Bool) : Ensures .overrun (fun r => ∀ head d, r = some (head, d) →
      d.publicReader.offset ≤ d.publicReader.size ∧ d.privateReader.offset ≤ d.privateReader.size)
      (init encryptor publicOnly historicalHint data) := by
  have hpublic domain (hreaches : Reaches encryptor data domain) :
      Ensures .overrun (fun r => r.2.offset ≤ r.2.size) (readPublicHeader domain) := by
    exact ensures_map.1 (readPublicHeader_snd hreaches.offset_le ▸ (h domain hreaches).runAll)
  refine Ensures.bind ⟨(ensures_readSerialisedEntryHeader data).1, fun r hr => hr⟩ fun ⟨flags, c⟩ hheader => ?_
  have hvalid : c.Valid := (ensures_readSerialisedEntryHeader data).2 _ hheader
  cases encryptor with
  | none =>
    refine (hpublic _ ⟨flags, c, hheader, rfl⟩).bind fun r hr => ensures_ok.2 ?_
    rintro _ _ ⟨⟩
    exact ⟨hr, le_rfl⟩
  | some e =>
    refine Ensures.bind ⟨(ensures_readEncryptionHeader hvalid e).1, fun r hr => hr⟩ fun ⟨⟨gcmHeader, n⟩, c'⟩ hhdr => ?_
    refine (hpublic _ ⟨flags, c, hheader, gcmHeader, n, c', hhdr, rfl⟩).bind fun r hr => ?_
    cases publicOnly with
    | true =>
      refine ensures_ok.2 ?_
      rintro _ _ ⟨⟩
      exact ⟨hr, le_rfl⟩
    | false =>
      refine (ensures_skip ((ensures_readEncryptionHeader hvalid e).2 _ hhdr) _).bind fun r' hr' => ?_
      simp only
      split
      · exact ensures_ok.2 (by rintro _ _ ⟨⟩)
      · refine ensures_ok.2 ?_
        rintro _ _ ⟨⟩
        exact ⟨hr, Nat.zero_le _⟩

/-- `init` looks at bytes of the entry only, and the reads of the public header keep the offset inside the size. -/
def InitWithin (encryptor : Option Encryptor) (publicOnly historicalHint : Bool) (data : List UInt8) : Prop :=
  init encryptor publicOnly historicalHint data ≠ .error .overrun ∧
    ∀ domain, Reaches encryptor data domain → RawRead.AllWithin (headReads domain) domain

/-- **Reading an entry keeps inside it just if what is read fits**: the public header, where the checks before it pass,
and then every read of a sequence, from either of the readers. -/
theorem reading_within (encryptor : Option Encryptor) (publicOnly historicalHint : Bool) (data : List UInt8) :
    (InitWithin encryptor publicOnly historicalHint data ↔
      ∀ domain, Reaches encryptor data domain → RawRead.AllFit (headReads domain) domain) ∧
    (InitWithin encryptor publicOnly historicalHint data → ∀ head d,
      init encryptor publicOnly historicalHint data = .ok (some (head, d)) → ∀ reads,
        (RawRead.AllWithin reads d.publicReader ↔ RawRead.AllFit reads d.publicReader) ∧
        (RawRead.AllWithin reads d.privateReader ↔ RawRead.AllFit reads d.privateReader)) := by
  have hall : (∀ domain, Reaches encryptor data domain → RawRead.AllWithin (headReads domain) domain) ↔
      ∀ domain, Reaches encryptor data domain → RawRead.AllFit (headReads domain) domain :=
    forall_congr' fun domain => imp_congr_right fun hreaches => RawRead.allWithin_iff hreaches.offset_le _
  refine ⟨⟨fun h => hall.1 h.2, fun h => ⟨(ensures_init (hall.2 h) publicOnly historicalHint).1, hall.2 h⟩⟩, ?_⟩
  intro h head d hinit reads
  obtain ⟨hpublic, hprivate⟩ := (ensures_init h.2 publicOnly historicalHint).2 _ hinit head d rfl
  exact ⟨RawRead.allWithin_iff hpublic reads, RawRead.allWithin_iff hprivate reads⟩

/-- The header of an entry with a body of `n` bytes, and the body, which starts with the type of the entry. -/
def headOnly (n type : ℕ) : List UInt8 := serialisedEntryHeader 0 n ++ leBytes n type

/-- A claims digest is read although the entry ends before it. -/
theorem init_overrun : init none true false (headOnly 17 2) = .error .overrun := by
  decide +kernel

end Deserialiser

/-! ### Map snapshots -/

namespace MapSnapshot

/-- The size of a value without that of its version, on 64 bits. -/
def valueLength (size : ℕ) : ℕ := if 8 ≤ size then size - 8 else 2 ^ 64 + size - 8

/-- The key of the entry at the cursor lies inside what is left, and so does its value if there is room for the size
and the version. -/
def EntryFits (c : Cursor) : Prop :=
  c.offset + 8 ≤ c.size →
    let key := ofLeBytes (c.rest.take 8)
    let c' := c.skip (8 + key + getPadding (8 + key))
    c.offset + 8 + key ≤ c.size ∧ (c'.offset + 16 ≤ c.size →
      c'.offset + 16 + valueLength (ofLeBytes (c'.rest.take 8)) ≤ c.size)

theorem readVersionV_eq : readVersionV = RawReader.readEntry 8 >>= fun size => RawReader.readEntry 8 >>= fun version =>
    copy .overrun (valueLength size) >>= fun value => pure ⟨version, value⟩ := rfl

variable (h : c.Valid)
include h

theorem ensures_readVersionV
    (hfits : c.offset + 16 ≤ c.size → c.offset + 16 + valueLength (ofLeBytes (c.rest.take 8)) ≤ c.size) :
    Ensures .overrun (fun r => ∃ n, c.offset + n ≤ c.size ∧ r.2 = c.skip n) (readVersionV c) := by
  refine (ensures_readEntry h 8).bind ?_
  rintro _ ⟨h8, rfl⟩
  have h8 := h.skip h8
  refine (ensures_readEntry h8 8).bind ?_
  rintro _ ⟨h16, rfl⟩
  refine ((h8.skip h16).ensures_copy (hfits h16)).bind ?_
  rintro _ rfl
  exact ensures_ok.2 ⟨16 + valueLength (ofLeBytes (c.rest.take 8)), by have := hfits h16; omega,
    by rw [skip_skip, skip_skip]⟩

theorem readVersionV_error (hfull : c.size = c.memory.length) (h16 : c.offset + 16 ≤ c.size)
    (hfits : ¬c.offset + 16 + valueLength (ofLeBytes (c.rest.take 8)) ≤ c.size) :
    readVersionV c = .error .overrun := by
  have h8 : (c.skip 8).Valid := h.skip (by omega)
  rw [readVersionV_eq, bind_of_ok (readEntry_of_valid h h8.offset), bind_of_ok (readEntry_of_valid h8 h16)]
  exact bind_of_error (copy_error hfull hfits h16)

theorem ensures_readEntry_of_fits (hfits : EntryFits c) : Ensures .overrun
    (fun r => ∃ n, 8 ≤ n ∧ c.offset + n ≤ c.size ∧ r.2 = c.skip n) (readEntry c) := by
  rw [readEntry, readKey, bind_assoc]
  refine (ensures_readEntry h 8).bind ?_
  rintro _ ⟨h8, rfl⟩
  obtain ⟨hkey, hvalue⟩ := hfits h8
  have h8 := h.skip h8
  refine (h8.ensures_copy hkey).bind ?_
  rintro _ rfl
  simp only [keySize, h8.length_take hkey]
  refine (ensures_skip (h8.skip hkey) _).bind ?_
  rintro _ ⟨hpad, rfl⟩
  have hpad := (h8.skip hkey).skip hpad
  simp only [skip_skip] at hpad ⊢
  refine (ensures_readVersionV hpad hvalue).bind ?_
  rintro ⟨x, _⟩ ⟨n, hn, rfl⟩
  refine (ensures_skip (hpad.skip hn) _).bind ?_
  rintro _ ⟨hlast, rfl⟩
  have hlast := (hpad.skip hn).skip hlast
  simp only [skip_skip] at hlast ⊢
  exact ensures_ok.2 ⟨_, by omega, hlast.offset, rfl⟩

theorem readEntry_of_not_fits (hfull : c.size = c.memory.length) (hfits : ¬EntryFits c) :
    readEntry c = .error .overrun := by
  simp only [EntryFits, Classical.not_imp, not_and_or] at hfits
  obtain ⟨h8, hfits⟩ := hfits
  rw [readEntry, readKey, bind_assoc, bind_of_ok (readEntry_of_valid h h8)]
  have h8 := h.skip h8
  by_cases hkey : c.offset + 8 + ofLeBytes (c.rest.take 8) ≤ c.size
  · obtain ⟨h16, hvalue⟩ := hfits.resolve_left (not_not.2 hkey)
    have hpad : (c.skip (8 + ofLeBytes (c.rest.take 8) + getPadding (8 + ofLeBytes (c.rest.take 8)))).Valid :=
      ⟨(Nat.le_add_right _ 16).trans h16, h.size⟩
    have hskip := skip_of_valid (h8.skip hkey) (n := getPadding (8 + ofLeBytes (c.rest.take 8)))
      (by simpa only [Cursor.skip, add_assoc] using hpad.offset)
    rw [Cursor.skip_skip, Cursor.skip_skip] at hskip
    rw [bind_of_ok (h8.copy hkey), keySize, h8.length_take hkey, skip_skip, bind_of_ok hskip]
    exact bind_of_error (readVersionV_error hpad hfull h16 hvalue)
  · exact bind_of_error (copy_error hfull hkey h8.offset)

omit h

/-- One round of the loop. -/
def Reads (c c' : Cursor) : Prop := ∃ p, readEntry c = .ok (p, c')

/-- The loop reads all of the snapshot and nothing else just if every entry that it comes to fits. -/
theorem ensures_readEntries_iff {fuel : ℕ} (h : c.Valid) (hfull : c.size = c.memory.length)
    (hfuel : c.size - c.offset < fuel) (state : State) :
    Ensures .overrun (fun r => r.2.offset = c.size) (readEntries fuel state c) ↔
      ∀ c', Relation.ReflTransGen Reads c c' → EntryFits c' := by
  induction fuel generalizing c state with
  | zero => omega
  | succ fuel ih =>
    have hoffset := h.offset
    rw [readEntries, remaining_bind, h.remainder]
    by_cases hfits : EntryFits c
    · obtain ⟨hne, hnext⟩ := ensures_readEntry_of_fits h hfits
      by_cases hzero : c.size - c.offset = 0
      · rw [if_pos hzero]
        refine iff_of_true (ensures_ok.2 (show c.offset = c.size by omega)) fun c' hc' => ?_
        rcases hc'.cases_head with rfl | ⟨c₁, ⟨p, hp⟩, -⟩
        · exact hfits
        · obtain ⟨n, hn, hle, -⟩ := hnext _ hp
          omega
      · rw [if_neg hzero]
        cases hread : readEntry c with
        | error e =>
          rw [bind_of_error hread]
          refine iff_of_true (ensures_error.2 fun he => hne (he ▸ hread)) fun c' hc' => ?_
          rcases hc'.cases_head with rfl | ⟨c₁, ⟨p, hp⟩, -⟩
          · exact hfits
          · cases hread.symm.trans hp
        | ok r =>
          obtain ⟨n, hn, hle, hr⟩ := hnext _ hread
          rw [bind_of_ok hread, hr, ← show (c.skip n).size = c.size from rfl,
            ih (h.skip hle) hfull (by simp only [Cursor.skip]; omega)]
          refine ⟨fun hall c' hc' => ?_, fun hall c' hc' => hall c' (.head ⟨r.1, hr ▸ hread⟩ hc')⟩
          rcases hc'.cases_head with rfl | ⟨c₁, ⟨p, hp⟩, hc'⟩
          · exact hfits
          · cases hread.symm.trans hp
            exact hall c' (hr ▸ hc')
    · have h8 : c.offset + 8 ≤ c.size := by
        by_contra hlt
        exact hfits fun h8 => absurd h8 hlt
      rw [if_neg (by omega)]
      refine iff_of_false (fun hread => hread.1 ?_) fun hall => hfits (hall c .refl)
      exact bind_of_error (readEntry_of_not_fits h hfull hfits)

/-- **A map snapshot is read inside its bytes, and to their end, just if every entry that the loop comes to fits.**
Fuel that runs out would be `overrun`, so the loop also ends. -/
theorem deserializeMapSnapshot_within_iff (bytes : List UInt8) :
    (deserializeMapSnapshot bytes ≠ .error .overrun ∧
      ∀ state c, readEntries (bytes.length + 1) ∅ { memory := bytes, size := bytes.length } = .ok (state, c) →
        c.offset = bytes.length) ↔
      ∀ c, Relation.ReflTransGen Reads { memory := bytes, size := bytes.length } c → EntryFits c := by
  have hvalid : Cursor.Valid { memory := bytes, size := bytes.length } := ⟨Nat.zero_le _, le_rfl⟩
  rw [← ensures_readEntries_iff hvalid rfl (Nat.lt_succ_self _) ∅, deserializeMapSnapshot]
  refine and_congr (not_congr ?_) ⟨fun h r hr => h r.1 r.2 hr, fun h state c hc => h (state, c) hc⟩
  cases readEntries (bytes.length + 1) ∅ { memory := bytes, size := bytes.length } <;> simp [Except.map]

/-- The size of a key alone. -/
theorem deserializeMapSnapshot_overrun : deserializeMapSnapshot (leBytes 8 1) = .error .overrun := by
  decide +kernel

end MapSnapshot
end Ccf.Kv
