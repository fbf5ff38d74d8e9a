import Ccf.Kv.Store
import Ccf.Lib.Bytes

/-! # Ledger entries

`RawWriter` and `RawReader` (`raw_serialise.h`) with the checks of `serialized.h`. The writer is given by the bytes
it appends. Most reads compare with the size that is left, but not all do; what a read behind the memory would find
is not defined (`overrun`).

The format of an entry (`serialised_entry_format.h`, `generic_serialise_wrapper.h`): a header with the size of the rest,
the header of the encryption, the public domain behind its length, and the encrypted private domain. Both domains are
sequences of map blocks; the public one starts with the entry type, the version and the digests. -/

namespace Ccf.Kv

open List

/-- What serialising and deserialising entries throws. -/
inductive CodecFault where
  /-- `InsufficientSpaceException`. -/
  | insufficientSpace
  /-- A read or write outside the buffer, which the source does not check. -/
  | overrun
  /-- Expected a size-prefixed entry of that size. -/
  | entryTooShort
  /-- Invalid `EntryType`. -/
  | invalidEntryType
  /-- Reported size in entry header does not match size of entry. -/
  | sizeMismatch
  /-- Cannot deserialise entry format. -/
  | unknownFormat
  /-- A `CCF_ASSERT` does not hold. -/
  | assertion
  /-- `KvSerialiserException`: no encryptor, or it fails. -/
  | serialiser
  /-- Can't create change set. -/
  | changeSet
  /-- Transaction not yet committed. -/
  | notCommitted
  /-- Missing claims. -/
  | missingClaims
  /-- What the store throws. -/
  | store (e : Fault)
deriving DecidableEq

abbrev Reader := Parser CodecFault

/-! ### Writing -/

namespace RawWriter

/-- A 64-bit integer. -/
def integral (n : ℕ) : List UInt8 := leBytes 8 n

/-- A vector of bytes or a string, behind its size. -/
def sizePrefixed (bytes : List UInt8) : List UInt8 := leBytes 8 bytes.length ++ bytes

/-- A vector of versions, behind its size in bytes. -/
def versions (vs : List ℕ) : List UInt8 := leBytes 8 (8 * vs.length) ++ vs.flatMap (leBytes 8)

end RawWriter

/-! ### Reading -/

namespace RawReader

/-- `serialized::read` of an integer of `w` bytes. -/
def readEntry (w : ℕ) : Reader ℕ := do
  ensure (w ≤ (← remaining)) .insufficientSpace
  ofLeBytes <$> Cursor.copy .overrun w

def integral : Reader ℕ := readEntry 8

/-- A size-prefixed entry. Its size is compared with what was left before the size was read. -/
def sizePrefixed : Reader (List UInt8) := do
  let remainder ← remaining
  let size ← readEntry 8
  ensure (size ≤ remainder) .entryTooShort
  Cursor.copy .overrun size

/-- An array of fixed size; the size that is left is not looked at. -/
def array (size : ℕ) : Reader (List UInt8) := Cursor.copy .overrun size

/-- Read the integers in a block of bytes. -/
def splitVersions : ℕ → List UInt8 → List ℕ
  | 0, _ => []
  | n + 1, bytes => ofLeBytes (bytes.take 8) :: splitVersions n (bytes.drop 8)

/-- A vector of versions. Bytes that do not fill a version are written behind the vector. -/
def versions : Reader (List ℕ) := do
  let bytes ← sizePrefixed
  ensure (bytes.length % 8 = 0) .overrun
  return splitVersions (bytes.length / 8) bytes

end RawReader

/-! ### Round trips -/

section
variable {w n : ℕ} {bytes : List UInt8} {vs : List ℕ}

theorem parses_readEntry (h : n < 256 ^ w) : Parses (RawReader.readEntry w) (leBytes w n) n := by
  refine Parses.remaining fun m hm => Parses.andThen ?_ (parses_ensure ?_ _)
  · have hmap := (parses_copy CodecFault.overrun (length_leBytes w n)).map ofLeBytes
    rwa [ofLeBytes_leBytes h] at hmap
  · rwa [length_leBytes] at hm

theorem parses_integral (h : n < 2 ^ 64) : Parses RawReader.integral (RawWriter.integral n) n := parses_readEntry h

theorem length_sizePrefixed (bytes : List UInt8) : (RawWriter.sizePrefixed bytes).length = 8 + bytes.length := by
  rw [RawWriter.sizePrefixed, length_append, length_leBytes]

theorem parses_sizePrefixed (h : bytes.length < 2 ^ 64) :
    Parses RawReader.sizePrefixed (RawWriter.sizePrefixed bytes) bytes := by
  refine Parses.remaining fun m hm => (parses_readEntry h).bind (Parses.andThen ?_ (parses_ensure ?_ _))
  · exact parses_copy _ rfl
  · rw [RawWriter.sizePrefixed, length_append] at hm
    omega

theorem splitVersions_flatMap (h : ∀ v ∈ vs, v < 2 ^ 64) :
    RawReader.splitVersions vs.length (vs.flatMap (leBytes 8)) = vs := by
  induction vs with
  | nil => rfl
  | cons v vs ih =>
    rw [flatMap_cons, length_cons, RawReader.splitVersions, take_left' (length_leBytes 8 v),
      drop_left' (length_leBytes 8 v), ih fun u hu => h u (mem_cons_of_mem _ hu),
      ofLeBytes_leBytes (h v mem_cons_self)]

theorem length_flatMap_leBytes (vs : List ℕ) : (vs.flatMap (leBytes 8)).length = 8 * vs.length := by
  induction vs with
  | nil => rfl
  | cons v vs ih =>
    rw [flatMap_cons, length_append, length_leBytes, ih, length_cons]
    omega

theorem parses_versions (h : ∀ v ∈ vs, v < 2 ^ 64) (hlen : 8 * vs.length < 2 ^ 64) :
    Parses RawReader.versions (RawWriter.versions vs) vs := by
  have hbytes := length_flatMap_leBytes vs
  have hread : Parses RawReader.sizePrefixed (RawWriter.versions vs) (vs.flatMap (leBytes 8)) := by
    have hsized : Parses RawReader.sizePrefixed (RawWriter.sizePrefixed (vs.flatMap (leBytes 8))) _ :=
      parses_sizePrefixed (by rwa [hbytes])
    rwa [RawWriter.sizePrefixed, hbytes] at hsized
  rw [← append_nil (RawWriter.versions vs)]
  refine hread.bind (Parses.andThen ?_ (parses_ensure (by rw [hbytes]; omega) _))
  rw [hbytes, Nat.mul_div_cancel_left _ (by omega), splitVersions_flatMap h]
  exact parses_pure vs

end

/-! ### Entries -/

inductive SecurityDomain where
  | publicDomain
  | privateDomain
deriving DecidableEq

/-- The bytes of an ASCII string. -/
def asciiBytes (s : String) : List UInt8 := s.toList.map fun c => UInt8.ofNat c.toNat

def publicDomainPrefix : List UInt8 := asciiBytes "public:"

def getSecurityDomain (name : Name) : SecurityDomain :=
  if publicDomainPrefix.isPrefixOf name then .publicDomain else .privateDomain

inductive EntryType where
  | writeSet
  | snapshot
  | writeSetWithClaims
  | writeSetWithCommitEvidence
  | writeSetWithCommitEvidenceAndClaims
deriving DecidableEq

namespace EntryType

def code : EntryType → ℕ
  | writeSet => 0
  | snapshot => 1
  | writeSetWithClaims => 2
  | writeSetWithCommitEvidence => 3
  | writeSetWithCommitEvidenceAndClaims => 4

def ofCode : ℕ → Option EntryType
  | 0 => some writeSet
  | 1 => some snapshot
  | 2 => some writeSetWithClaims
  | 3 => some writeSetWithCommitEvidence
  | 4 => some writeSetWithCommitEvidenceAndClaims
  | _ => none

def hasClaims : EntryType → Bool
  | writeSetWithClaims | writeSetWithCommitEvidenceAndClaims => true
  | _ => false

def hasCommitEvidence : EntryType → Bool
  | writeSetWithCommitEvidence | writeSetWithCommitEvidenceAndClaims => true
  | _ => false

@[simp] theorem ofCode_code (t : EntryType) : ofCode t.code = some t := by
  cases t <;> rfl

theorem code_lt (t : EntryType) : t.code < 256 ^ 1 := by
  cases t <;> decide

end EntryType

/-- `AbstractTxEncryptor`. `decrypt` reports the term that `getTerm` finds in the header. -/
structure Encryptor where
  headerLength : ℕ
  /-- Of the plain text, the additional data, the transaction, the type of the entry and the historical hint:
  the header and the cipher text. -/
  encrypt : List UInt8 → List UInt8 → TxID → EntryType → Bool → Option (List UInt8 × List UInt8)
  /-- Of the cipher text, the additional data, the header, the version and the historical hint. -/
  decrypt : List UInt8 → List UInt8 → List UInt8 → ℕ → Bool → Option (List UInt8)
  getTerm : List UInt8 → ℕ

/-- Decryption is the inverse of encryption. -/
structure Encryptor.Inverse (e : Encryptor) : Prop where
  lengths : ∀ {plain aad txid type hint hdr cipher}, e.encrypt plain aad txid type hint = some (hdr, cipher) →
    hdr.length = e.headerLength ∧ cipher.length = plain.length
  decrypt : ∀ {plain aad txid type hint hdr cipher}, e.encrypt plain aad txid type hint = some (hdr, cipher) →
    ∀ hint, e.decrypt cipher aad hdr txid.seqno hint = some plain
  term : ∀ {plain aad txid type hint hdr cipher}, e.encrypt plain aad txid type hint = some (hdr, cipher) →
    type ≠ .snapshot → e.getTerm hdr = txid.view

/-- An encryptor that only records the view, which must fit the 31 bits it has in the header. -/
def Encryptor.plain : Encryptor where
  headerLength := 4
  encrypt plain _ txid _ _ := if txid.view < 2 ^ 31 then some (leBytes 4 txid.view, plain) else none
  decrypt cipher _ _ _ _ := some cipher
  getTerm := ofLeBytes

theorem Encryptor.inverse_plain : Encryptor.plain.Inverse := by
  have hview : ∀ {plain aad txid type hint hdr cipher},
      Encryptor.plain.encrypt plain aad txid type hint = some (hdr, cipher) →
        txid.view < 2 ^ 31 ∧ hdr = leBytes 4 txid.view ∧ cipher = plain := by
    intro plain aad txid type hint hdr cipher h
    simp only [Encryptor.plain] at h
    split_ifs at h with hlt
    cases h
    exact ⟨hlt, rfl, rfl⟩
  constructor
  · intro plain aad txid type hint hdr cipher h
    obtain ⟨-, rfl, rfl⟩ := hview h
    exact ⟨length_leBytes 4 _, rfl⟩
  · intro plain aad txid type hint hdr cipher h _
    rw [(hview h).2.2]
    rfl
  · intro plain aad txid type hint hdr cipher h _
    obtain ⟨hlt, rfl, -⟩ := hview h
    exact ofLeBytes_leBytes (hlt.trans_le (by decide))

/-! ### Writing entries -/

/-- The version of the format, the flags and the size of the entry on 48 bits. -/
def serialisedEntryHeader (flags : UInt8) (size : ℕ) : List UInt8 := 1 :: flags :: leBytes 6 size

/-- The start of the public domain. The last integer is a placeholder. -/
def publicHeader (type : EntryType) (seqno : ℕ) (claimsDigest commitEvidenceDigest : List UInt8) : List UInt8 :=
  leBytes 1 type.code ++ (RawWriter.integral seqno ++ ((if type.hasClaims then claimsDigest else []) ++
    ((if type.hasCommitEvidence then commitEvidenceDigest else []) ++ RawWriter.integral 0)))

/-- Fill a buffer of `size` bytes. -/
def fillBuffer (size : ℕ) (written : List UInt8) : Except CodecFault (List UInt8) :=
  if size < written.length then .error .insufficientSpace
  else .ok (written ++ List.replicate (size - written.length) 0)

/-- `serialise_domains`. -/
def serialiseDomains (encryptor : Option Encryptor) (txid : TxID) (type : EntryType) (flags : UInt8)
    (historicalHint : Bool) (publicDomain privateDomain : List UInt8) : Except CodecFault (List UInt8) :=
  match encryptor with
  | none =>
    -- only the header and the public domain are serialised
    if 2 ^ 48 ≤ publicDomain.length then .error .assertion
    else if privateDomain ≠ [] then .error .assertion
    else .ok (serialisedEntryHeader flags publicDomain.length ++ publicDomain)
  | some e =>
    let size := publicDomain.length + (e.headerLength + 8 + privateDomain.length)
    if 2 ^ 48 ≤ size then .error .assertion
    else
      match e.encrypt privateDomain publicDomain txid type historicalHint with
      | none => .error .serialiser
      | some (hdr, cipher) =>
        (fillBuffer size (hdr ++ (leBytes 8 publicDomain.length ++ (publicDomain ++ cipher)))).map
          (serialisedEntryHeader flags size ++ ·)

/-! ### Reading entries -/

/-- What is known of an entry before its map blocks are read. -/
structure EntryHead where
  version : ℕ
  term : ℕ := 0
  flags : UInt8 := 0
  claimsDigest : Option (List UInt8) := none
  commitEvidenceDigest : Option (List UInt8) := none
deriving DecidableEq

/-- `GenericDeserialiseWrapper`, once initialised: the readers of the two domains, and which one is read. -/
structure Deserialiser where
  publicReader : Cursor := {}
  privateReader : Cursor := {}
  onPrivate : Bool := false
deriving DecidableEq

namespace Deserialiser

def readEntryType : Reader EntryType := do
  match EntryType.ofCode (← RawReader.readEntry 1) with
  | none => throw .invalidEntryType
  | some type => return type

/-- A digest that is there or not. -/
def readDigest (present : Bool) : Reader (Option (List UInt8)) :=
  if present then some <$> RawReader.array 32 else pure none

/-- `read_public_header`. -/
def readPublicHeader : Reader EntryHead := do
  let type ← readEntryType
  let version ← RawReader.integral
  let claimsDigest ← readDigest type.hasClaims
  let commitEvidenceDigest ← readDigest type.hasCommitEvidence
  let _ ← RawReader.integral
  return { version, claimsDigest, commitEvidenceDigest }

/-- `serialized::skip`, with the bytes that are skipped. -/
def skip (n : ℕ) : Reader (List UInt8) := do
  ensure (n ≤ (← remaining)) .insufficientSpace
  Cursor.copy .overrun n

/-- The part of `init` up to the public domain, with an encryptor: the header of the encryption and the
length of the public domain. -/
def readEncryptionHeader (e : Encryptor) : Reader (List UInt8 × ℕ) := do
  let gcmHeader ← skip e.headerLength
  let publicDomainLength ← RawReader.integral
  return (gcmHeader, publicDomainLength)

/-- Read and check the entry header: the flags. -/
def readSerialisedEntryHeader : Reader UInt8 := do
  ensure (8 ≤ (← remaining)) .insufficientSpace
  let header ← Cursor.copy .overrun 8
  ensure (ofLeBytes (header.drop 2) = (← remaining)) .sizeMismatch
  ensure (header.headD 0 = 1) .unknownFormat
  return (header.drop 1).headD 0

/-- `init`; `none` when the entry does not decrypt. -/
def init (encryptor : Option Encryptor) (publicOnly historicalHint : Bool) (data : List UInt8) :
    Except CodecFault (Option (EntryHead × Deserialiser)) := do
  let (flags, c) ← readSerialisedEntryHeader { memory := data, size := data.length }
  match encryptor with
  | none =>
    let (head, reader) ← readPublicHeader { memory := c.rest, size := c.remainder }
    return some ({ head with flags }, { publicReader := reader })
  | some e =>
    let ((gcmHeader, publicDomainLength), c) ← readEncryptionHeader e c
    let (head, reader) ← readPublicHeader { memory := c.rest, size := publicDomainLength }
    if publicOnly then
      return some ({ head with flags, term := e.getTerm gcmHeader }, { publicReader := reader })
    else
      let (publicDomain, c) ← skip publicDomainLength c
      match e.decrypt c.rest publicDomain gcmHeader head.version historicalHint with
      | none => return none
      | some plain =>
        return some ({ head with flags, term := e.getTerm gcmHeader },
          { publicReader := reader, privateReader := { memory := plain, size := plain.length } })

variable (d : Deserialiser)

/-- The reader of the current domain. -/
def current : Cursor := if d.onPrivate then d.privateReader else d.publicReader

/-- Read from the current domain. -/
def read {α : Type} (d : Deserialiser) (p : Reader α) : Except CodecFault (α × Deserialiser) := do
  let (x, c) ← p d.current
  return (x, if d.onPrivate then { d with privateReader := c } else { d with publicReader := c })

/-- Move on to the private domain at the end of the public one; `none` at the end of the entry. -/
def advance : Option Deserialiser :=
  if d.current.isEos then
    if d.onPrivate = false ∧ d.privateReader.isEos = false then some { d with onPrivate := true } else none
  else some d

/-- `start_map`: the name of the next map. -/
def startMap : Except CodecFault (Option (Name × Deserialiser)) :=
  match d.advance with
  | none => return none
  | some d => some <$> d.read RawReader.sizePrefixed

/-- `end`. -/
def atEnd : Bool := d.current.isEos && d.publicReader.isEos

end Deserialiser

/-! ### Round trips -/

namespace Deserialiser

theorem parses_readEntryType (type : EntryType) : Parses readEntryType (leBytes 1 type.code) type := by
  refine (parses_readEntry type.code_lt).bind ?_
  rw [type.ofCode_code]
  exact parses_pure type

theorem parses_readDigest (present : Bool) {digest : List UInt8} (h : digest.length = 32) :
    Parses (readDigest present) (if present then digest else []) (if present then some digest else none) := by
  cases present with
  | false => exact parses_pure none
  | true => exact (parses_copy _ h).map some

variable {claims evidence : List UInt8}

theorem parses_readPublicHeader (type : EntryType) {seqno : ℕ} (hseqno : seqno < 2 ^ 64)
    (hclaims : claims.length = 32) (hevidence : evidence.length = 32) :
    Parses readPublicHeader (publicHeader type seqno claims evidence)
      { version := seqno
        claimsDigest := if type.hasClaims then some claims else none
        commitEvidenceDigest := if type.hasCommitEvidence then some evidence else none } := by
  refine (parses_readEntryType type).bind ((parses_integral hseqno).bind
    ((parses_readDigest _ hclaims).bind ((parses_readDigest _ hevidence).bind ?_)))
  exact (parses_integral (by decide)).bind (parses_pure _)

variable {n : ℕ}

theorem parses_skip {bytes : List UInt8} (h : bytes.length = n) : Parses (skip n) bytes bytes := by
  refine Parses.remaining fun m hm => Parses.andThen ?_ (parses_ensure (h ▸ hm) _)
  exact parses_copy _ h

variable {e : Encryptor} {flags : UInt8} {type : EntryType} {txid : TxID} {hint : Bool}
  {pub priv data : List UInt8}

theorem parses_readEncryptionHeader {hdr : List UInt8} (hhdr : hdr.length = e.headerLength)
    (hn : n < 2 ^ 64) : Parses (readEncryptionHeader e) (hdr ++ leBytes 8 n) (hdr, n) := by
  refine (parses_skip hhdr).bind ?_
  exact (parses_integral hn).bind (parses_pure _)

/-- The blocks of the two domains that are left to be read. -/
structure Left (d : Deserialiser) (publicBlocks privateBlocks : List UInt8) : Prop where
  publicReader : d.publicReader.Ends publicBlocks
  privateReader : d.privateReader.Ends privateBlocks
  onPrivate : d.onPrivate = true → publicBlocks = []

theorem readSerialisedEntryHeader_eq {body : List UInt8} (hsize : body.length < 2 ^ 48) : readSerialisedEntryHeader
        { memory := serialisedEntryHeader flags body.length ++ body
          size := (serialisedEntryHeader flags body.length ++ body).length } =
      .ok (flags,
        { memory := serialisedEntryHeader flags body.length ++ body
          size := (serialisedEntryHeader flags body.length ++ body).length
          offset := 8 }) := by
  have hlength : (serialisedEntryHeader flags body.length).length = 8 := by
    simp [serialisedEntryHeader, length_leBytes]
  have hfields : ofLeBytes ((serialisedEntryHeader flags body.length).drop 2) = body.length ∧
      (serialisedEntryHeader flags body.length).headD 0 = 1 ∧
      ((serialisedEntryHeader flags body.length).drop 1).headD 0 = flags :=
    ⟨ofLeBytes_leBytes hsize, rfl, rfl⟩
  generalize serialisedEntryHeader flags body.length = header at *
  obtain ⟨hof, hversion, hflags⟩ := hfields
  have hat : Cursor.At { memory := header ++ body, size := (header ++ body).length } header body :=
    ⟨rfl, by simp⟩
  have hcopy := hat.copy CodecFault.overrun
  rw [hlength] at hcopy
  have hleft : ({ memory := header ++ body, size := (header ++ body).length, offset := 8 } : Cursor).remainder =
      body.length := by
    simp [Cursor.remainder, hlength]
  unfold readSerialisedEntryHeader
  rw [remaining_bind, bind_of_ok (ensure_ok (hlength ▸ hat.remainder.2) _ _), bind_of_ok hcopy, remaining_bind]
  refine (bind_of_ok (ensure_ok (hof.trans hleft.symm) _ _)).trans ?_
  refine (bind_of_ok (ensure_ok hversion _ _)).trans ?_
  rw [hflags]
  rfl

theorem serialiseDomains_eq (he : e.Inverse)
    (h : serialiseDomains (some e) txid type flags hint pub priv = .ok data) :
    ∃ hdr cipher body, e.encrypt priv pub txid type hint = some (hdr, cipher) ∧
      body = (hdr ++ leBytes 8 pub.length) ++ (pub ++ cipher) ∧ body.length < 2 ^ 48 ∧
      data = serialisedEntryHeader flags body.length ++ body := by
  unfold serialiseDomains at h
  simp only at h
  split_ifs at h with hsize
  cases henc : e.encrypt priv pub txid type hint with
  | none => simp [henc] at h
  | some p =>
    obtain ⟨hdr, cipher⟩ := p
    obtain ⟨hhdr, hcipher⟩ := he.lengths henc
    have hlength : ((hdr ++ leBytes 8 pub.length) ++ (pub ++ cipher)).length =
        pub.length + (e.headerLength + 8 + priv.length) := by
      simp only [length_append, length_leBytes, hhdr, hcipher]
      omega
    simp only [henc, fillBuffer] at h
    rw [← append_assoc hdr, hlength, if_neg (lt_irrefl _), Nat.sub_self, replicate_zero, append_nil] at h
    refine ⟨hdr, cipher, _, rfl, rfl, ?_, ?_⟩
    · omega
    · rw [hlength]
      exact (Except.ok.inj h).symm

/-- **Round trip of entries**: `init` reads the head of what `serialise_domains` wrote, and leaves the map
blocks of the two domains to be read. -/
theorem init_serialiseDomains (he : e.Inverse)
    (hseqno : txid.seqno < 2 ^ 64)
    (hclaims : claims.length = 32) (hevidence : evidence.length = 32)
    (h : serialiseDomains (some e) txid type flags hint (publicHeader type txid.seqno claims evidence ++ pub) priv =
      .ok data) (hint' : Bool) :
    ∃ d hdr cipher, e.encrypt priv (publicHeader type txid.seqno claims evidence ++ pub) txid type hint =
      some (hdr, cipher) ∧ init (some e) false hint' data = .ok (some
        ({ version := txid.seqno
           term := e.getTerm hdr
           flags := flags
           claimsDigest := if type.hasClaims then some claims else none
           commitEvidenceDigest := if type.hasCommitEvidence then some evidence else none }, d)) ∧
      d.onPrivate = false ∧ d.Left pub priv := by
  obtain ⟨hdr, cipher, body, henc, hbody, hsize, rfl⟩ := serialiseDomains_eq he h
  obtain ⟨hhdr, -⟩ := he.lengths henc
  have hheader := parses_readPublicHeader type hseqno hclaims hevidence
  generalize publicHeader type txid.seqno claims evidence = header at *
  have hpub : (header ++ pub).length < 2 ^ 64 := by
    have : (header ++ pub).length ≤ body.length := by
      rw [hbody]
      simp only [length_append]
      omega
    omega
  -- the cursor behind the entry header, behind the header of the encryption, and that of the public domain
  generalize hc₁ : ({ memory := serialisedEntryHeader flags body.length ++ body
                      size := (serialisedEntryHeader flags body.length ++ body).length
                      offset := 8 } : Cursor) = c₁
  have hat₁ : c₁.At ((hdr ++ leBytes 8 (header ++ pub).length) ++ ((header ++ pub) ++ cipher)) [] := by
    rw [← hbody, ← hc₁]
    exact ⟨by simp [Cursor.rest, serialisedEntryHeader], by simp [serialisedEntryHeader]; omega⟩
  have hread₁ := parses_readEncryptionHeader hhdr hpub c₁ _ hat₁.left
  have hat₂ := hat₁.right
  generalize c₁.skip (hdr ++ leBytes 8 (header ++ pub).length).length = c₂ at *
  have hat₃ : Cursor.At { memory := c₂.rest, size := (header ++ pub).length } (header ++ pub) (cipher ++ []) := by
    refine ⟨?_, by simp⟩
    show c₂.rest.drop 0 = _
    rw [drop_zero, hat₂.left.memory]
  have hread₂ := hheader _ _ hat₃.left
  have hread₃ := parses_skip rfl c₂ _ hat₂.left
  have hcipher : (c₂.skip (header ++ pub).length).rest = cipher := by
    rw [hat₂.right.memory, append_nil]
  refine ⟨{ publicReader := Cursor.skip header.length { memory := c₂.rest, size := (header ++ pub).length }
            privateReader := { memory := priv, size := priv.length } }, hdr, cipher, henc, ?_, rfl, ?_, ?_, ?_⟩
  · unfold init
    rw [readSerialisedEntryHeader_eq hsize, hc₁]
    simp only [bind, Except.bind, hread₁, hread₂, hread₃, hcipher, he.decrypt henc]
    rfl
  · exact ⟨⟨_, hat₃.right.memory⟩, by simp [Cursor.skip]⟩
  · exact ⟨⟨[], by simp [Cursor.rest]⟩, by simp⟩
  · intro hcontra
    cases hcontra

end Deserialiser

end Ccf.Kv
