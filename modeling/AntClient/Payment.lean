/-
  The payment types (`payment.rs`): quotes, their signatures and hashes, and the
  tagged single-node payment proof.

  Each type has its MessagePack encoding `put` and the parser `get`.  The trailing
  fields of a quote and of a proof have defaults, so older and shorter records
  are read as well.

  * `Quote.reads`, `PaymentProof.reads`: the parsers read the encodings.
  * `payment_codecs`: what is sent is what was built.
  * `Quote.length_put`, `length_encodeProof`: sizes on the wire.
-/
import AntClient.Lib.MsgPack
import AntClient.Crates

namespace AntClient

open Bytes MsgPack

/-! ## Types -/

/-- A `SystemTime`: seconds and nanoseconds since the UNIX epoch. -/
structure Timestamp where
  secs : UInt64
  nanos : UInt32

/-- A node's signed price for storing one piece of content. -/
structure Quote where
  /-- the content paid for -/
  content : XorName
  timestamp : Timestamp
  /-- big-endian -/
  price : Arr 32
  /-- the node's EVM wallet address -/
  rewardsAddress : Arr 20
  /-- the node's ML-DSA-65 public key -/
  pubKey : Bytes
  /-- ML-DSA-65 signature over `bytesForSig` -/
  signature : Bytes
  /-- `0` for a baseline quote -/
  committedKeyCount : UInt32
  /-- the pin of the storage commitment -/
  commitmentPin : Option (Arr 32)

/-- One `(peer id, quote)` pair per node that quoted. -/
structure ProofOfPayment where
  peerQuotes : List (XorName × Quote)

/-- The quotes plus the on-chain transaction hashes. -/
structure PaymentProof where
  proofOfPayment : ProofOfPayment
  txHashes : List (Arr 32)
  /-- opaque serialized commitment blobs -/
  commitmentSidecars : List Bytes

/-- Anything that can go wrong decoding or encoding payment wire bytes. -/
inductive PaymentError
  | decode (e : String)
  | encode (e : String)
  | badProofTag (tag : Option UInt8)

def PaymentError.display : PaymentError → String
  | .decode e => s!"payment decode failed: {e}"
  | .encode e => s!"payment encode failed: {e}"
  | .badProofTag (some tag) => s!"unexpected proof tag byte 0x{String.ofList (toHexChars [tag])}"
  | .badProofTag none => "empty proof bytes"

/-- Version tag prefixed to a serialized single-node payment proof. -/
def proofTagSingleNode : UInt8 := 0x01

/-! ## Encoding -/

def Timestamp.put (t : Timestamp) : Bytes :=
  arrayHeader 2 ++ (uint t.secs.toNat ++ uint t.nanos.toNat)

def Quote.put (q : Quote) : Bytes :=
  arrayHeader 8 ++ (seqBytes q.content.1 ++ (q.timestamp.put ++ (bin q.price.1 ++
    (bin q.rewardsAddress.1 ++ (seqBytes q.pubKey ++ (seqBytes q.signature ++
      (uint q.committedKeyCount.toNat ++ option (fun pin => seqBytes pin.1) q.commitmentPin)))))))

/-- A `(PeerId, Quote)` pair. -/
def putPeerQuote (x : XorName × Quote) : Bytes := arrayHeader 2 ++ (seqBytes x.1.1 ++ x.2.put)

def ProofOfPayment.put (p : ProofOfPayment) : Bytes :=
  arrayHeader 1 ++ array putPeerQuote p.peerQuotes

def PaymentProof.put (p : PaymentProof) : Bytes :=
  arrayHeader 3 ++ (p.proofOfPayment.put ++ (array (fun h => bin h.1) p.txHashes ++
    array seqBytes p.commitmentSidecars))

/-! ## Decoding -/

def Timestamp.get : Parser Timestamp := readRecord 2 fun n => do
  return ⟨← field n 0 readU64, ← field n 1 readU32⟩

def Quote.get : Parser Quote := readRecord 8 fun n => do
  return {
    content := ← field n 0 (readArr 32)
    timestamp := ← field n 1 Timestamp.get
    price := ← field n 2 (readArr 32)
    rewardsAddress := ← field n 3 (readArr 20)
    pubKey := ← field n 4 readBytes
    signature := ← field n 5 readBytes
    committedKeyCount := ← fieldOr n 6 0 readU32
    commitmentPin := ← fieldOr n 7 none (readOption (readArr 32)) }

def getPeerQuote : Parser (XorName × Quote) := readRecord 2 fun n => do
  return (← field n 0 (readArr 32), ← field n 1 Quote.get)

def ProofOfPayment.get : Parser ProofOfPayment := readRecord 1 fun n => do
  return ⟨← field n 0 (readArray getPeerQuote)⟩

def PaymentProof.get : Parser PaymentProof := readRecord 3 fun n => do
  return {
    proofOfPayment := ← field n 0 ProofOfPayment.get
    txHashes := ← field n 1 (readArray (readArr 32))
    commitmentSidecars := ← fieldOr n 2 [] (readArray readBytes) }

variable (C : Crates)

/-- Decode a `PaymentQuote` from its rmp bytes. -/
def parseQuote (bytes : Bytes) : Except PaymentError Quote :=
  match fromSlice Quote.get bytes with
  | some q => .ok q
  | none => .error (.decode (C.rmpError bytes))

/-- Encode a quote back to rmp bytes. -/
def encodeQuote (quote : Quote) : Except PaymentError Bytes := .ok quote.put

/-! ## Signatures and hashes -/

/-- The exact payload the node signs: the price is signed little-endian, the
    sub-second part of the timestamp not at all. -/
def bytesForSig (quote : Quote) : Bytes :=
  quote.content.1 ++ (toLe 8 quote.timestamp.secs.toNat ++ (quote.price.1.reverse ++
    (quote.rewardsAddress.1 ++ (toLe 4 quote.committedKeyCount.toNat ++
      match quote.commitmentPin with
      | some pin => 1 :: pin.1
      | none => [0]))))

/-- Verify a quote's ML-DSA-65 signature. -/
def verifyQuote (quote : Quote) : Bool :=
  match Arr.ofBytes? mlDsa65PkSize quote.pubKey with
  | none => false
  | some pkBytes =>
    match Arr.ofBytes? mlDsa65SigSize quote.signature with
    | none => false
    | some sig => C.mlDsaKey pkBytes && C.mlDsaVerify pkBytes (bytesForSig quote) sig []

/-- The quote hash: Keccak-256 of the signed bytes, the key and the signature. -/
def quoteHash (quote : Quote) : Arr 32 :=
  C.keccak256 (bytesForSig quote ++ (quote.pubKey ++ quote.signature))

/-- A verified quote has a key and a signature of the right length. -/
theorem verifyQuote_lengths {quote : Quote} (h : verifyQuote C quote) :
    quote.pubKey.length = mlDsa65PkSize ∧ quote.signature.length = mlDsa65SigSize := by
  unfold verifyQuote at h
  split at h
  · cases h
  rename_i pk hpk
  split at h
  · cases h
  rename_i sig hsig
  rw [Arr.ofBytes?_eq_some.1 hpk, Arr.ofBytes?_eq_some.1 hsig]
  exact ⟨pk.2, sig.2⟩

/-! ## Proofs -/

/-- Encode a `PaymentProof` with the single-node tag byte. -/
def encodeProof (proof : PaymentProof) : Except PaymentError Bytes :=
  .ok (proofTagSingleNode :: proof.put)

/-- Build the tagged single-node payment proof bytes. -/
def serializeSingleNodeProof (peerQuotes : List (XorName × Quote)) (txHash : Arr 32)
    (sidecars : List Bytes) : Except PaymentError Bytes :=
  encodeProof {
    proofOfPayment := ⟨peerQuotes⟩
    txHashes := [txHash]
    commitmentSidecars := sidecars }

/-- Decode tagged single-node proof bytes. -/
def parseSingleNodeProof (bytes : Bytes) : Except PaymentError PaymentProof :=
  if bytes.head? = some proofTagSingleNode then
    match fromSlice PaymentProof.get bytes.tail with
    | some p => .ok p
    | none => .error (.decode (C.rmpError bytes.tail))
  else .error (.badProofTag bytes.head?)

/-! ## Round trips

The lengths in an encoding are those of vectors, below `2 ^ 32` on wasm32. -/

/-- The vectors of a quote. -/
structure Quote.Fits (q : Quote) : Prop where
  pubKey : q.pubKey.length < 2 ^ 32
  signature : q.signature.length < 2 ^ 32

/-- The vectors of a proof. -/
structure PaymentProof.Fits (p : PaymentProof) : Prop where
  peerQuotes : p.proofOfPayment.peerQuotes.length < 2 ^ 32
  quote : ∀ x ∈ p.proofOfPayment.peerQuotes, x.2.Fits
  txHashes : p.txHashes.length < 2 ^ 32
  sidecars : p.commitmentSidecars.length < 2 ^ 32
  sidecar : ∀ b ∈ p.commitmentSidecars, b.length < 2 ^ 32

theorem Timestamp.reads (t : Timestamp) : Timestamp.get.Reads t.put t :=
  readRecord_reads (by simp) (by simp) <|
    (field_reads (by simp) (readU64_reads t.secs)).bind
      (field_reads (by simp) (readU32_reads t.nanos)).last

theorem commitmentPin_reads (o : Option (Arr 32)) :
    (readOption (readArr 32)).Reads (option (fun pin => seqBytes pin.1) o) o :=
  readOption_reads fun pin _ =>
    have hform := (seqBytes_form (by rw [pin.2]; decide)).notNil
    ⟨hform.1, hform.2, readArr_reads_seq (by simp) pin⟩

theorem Quote.reads {q : Quote} (h : q.Fits) : Quote.get.Reads q.put q :=
  readRecord_reads (by simp) (by simp) <|
    (field_reads (by simp) (readArr_reads_seq (by simp) q.content)).bind <|
    (field_reads (by simp) (Timestamp.reads q.timestamp)).bind <|
    (field_reads (by simp) (readArr_reads_bin (by simp) q.price)).bind <|
    (field_reads (by simp) (readArr_reads_bin (by simp) q.rewardsAddress)).bind <|
    (field_reads (by simp) (readBytes_reads_seq h.pubKey)).bind <|
    (field_reads (by simp) (readBytes_reads_seq h.signature)).bind <|
    (fieldOr_reads (by simp) (readU32_reads q.committedKeyCount)).bind <|
    (fieldOr_reads (by simp) (commitmentPin_reads q.commitmentPin)).last

theorem getPeerQuote_reads {x : XorName × Quote} (h : x.2.Fits) :
    getPeerQuote.Reads (putPeerQuote x) x :=
  readRecord_reads (by simp) (by simp) <|
    (field_reads (by simp) (readArr_reads_seq (by simp) x.1)).bind
      (field_reads (by simp) (Quote.reads h)).last

theorem PaymentProof.reads {p : PaymentProof} (h : p.Fits) : PaymentProof.get.Reads p.put p :=
  readRecord_reads (by simp) (by simp) <|
    (field_reads (by simp) <| readRecord_reads (by simp) (by simp) <|
      (field_reads (by simp) <| readArray_reads h.peerQuotes fun x hx =>
        getPeerQuote_reads (h.quote x hx)).last).bind <|
    (field_reads (by simp) <| readArray_reads h.txHashes fun x _ =>
      readArr_reads_bin (by simp) x).bind <|
    (fieldOr_reads (by simp) <| readArray_reads h.sidecars fun b hb =>
      readBytes_reads_seq (h.sidecar b hb)).last

theorem parseQuote_put {q : Quote} (h : q.Fits) : parseQuote C q.put = .ok q := by
  rw [parseQuote, fromSlice_reads (Quote.reads h)]

/-- **The proof round trip.** -/
theorem parseSingleNodeProof_encode {p : PaymentProof} (h : p.Fits) :
    ∃ bytes, encodeProof p = .ok bytes ∧ parseSingleNodeProof C bytes = .ok p := by
  refine ⟨_, rfl, ?_⟩
  rw [parseSingleNodeProof, if_pos (by rfl), List.tail_cons, fromSlice_reads (PaymentProof.reads h)]

/-- Bytes without the single-node tag are rejected, and the error names the byte
    that stands there. -/
theorem parseSingleNodeProof_badTag {bytes : Bytes} (h : bytes.head? ≠ some proofTagSingleNode) :
    parseSingleNodeProof C bytes = .error (.badProofTag bytes.head?) := by
  rw [parseSingleNodeProof, if_neg h]

/-- **The payment codecs**: quotes and tagged proofs round-trip, and untagged bytes
    are rejected. -/
theorem payment_codecs :
    (∀ q : Quote, q.Fits → ∃ bytes, encodeQuote q = .ok bytes ∧ parseQuote C bytes = .ok q) ∧
    (∀ p : PaymentProof, p.Fits →
      ∃ bytes, encodeProof p = .ok bytes ∧ parseSingleNodeProof C bytes = .ok p) ∧
    ∀ bytes : Bytes, bytes.head? ≠ some proofTagSingleNode →
      parseSingleNodeProof C bytes = .error (.badProofTag bytes.head?) := by
  refine ⟨?_, ?_, ?_⟩
  · intro q hq
    exact ⟨q.put, rfl, parseQuote_put C hq⟩
  · intro p hp
    exact parseSingleNodeProof_encode C hp
  · intro bytes hb
    exact parseSingleNodeProof_badTag C hb

/-- A quote whose bytes take one byte, two bytes and a pin on the wire. -/
def pinnedQuote : Quote where
  content := ⟨List.replicate 32 200, by simp⟩
  timestamp := ⟨8589934592, 999999999⟩
  price := ⟨List.replicate 32 7, by simp⟩
  rewardsAddress := ⟨List.replicate 20 255, by simp⟩
  pubKey := [127, 128]
  signature := []
  committedKeyCount := 70000
  commitmentPin := some ⟨List.replicate 32 128, by simp⟩

theorem pinnedQuote_fits : pinnedQuote.Fits := ⟨by simp [pinnedQuote], by simp [pinnedQuote]⟩

theorem payment_codecs_pinned :
    (∃ bytes, encodeQuote pinnedQuote = .ok bytes ∧
      parseQuote .transparent bytes = .ok pinnedQuote) ∧
    (∃ bytes, encodeProof ⟨⟨[(⟨List.replicate 32 3, by simp⟩, pinnedQuote)]⟩, [], [[], [255]]⟩ =
        .ok bytes ∧ parseSingleNodeProof .transparent bytes =
        .ok ⟨⟨[(⟨List.replicate 32 3, by simp⟩, pinnedQuote)]⟩, [], [[], [255]]⟩) ∧
    parseSingleNodeProof .transparent [] = .error (.badProofTag none) := by
  obtain ⟨h1, h2, h3⟩ := payment_codecs .transparent
  refine ⟨h1 _ pinnedQuote_fits, h2 _ ⟨?_, ?_, ?_, ?_, ?_⟩, h3 [] (by simp)⟩
  · simp
  · simpa using pinnedQuote_fits
  · simp
  · simp
  · simp

/-! ## Sizes -/

def Timestamp.size (t : Timestamp) : ℕ := 1 + uintSize t.secs.toNat + uintSize t.nanos.toNat

def pinSize (o : Option (Arr 32)) : ℕ := o.elim 1 fun pin => seqSize pin.1

/-- The number of bytes of an encoded quote. -/
def Quote.size (q : Quote) : ℕ :=
  1 + seqSize q.content.1 + q.timestamp.size + 34 + 22 + seqSize q.pubKey + seqSize q.signature +
    uintSize q.committedKeyCount.toNat + pinSize q.commitmentPin

theorem Timestamp.length_put (t : Timestamp) : t.put.length = t.size := by
  simp only [Timestamp.put, List.length_append, length_arrayHeader, length_uint, Timestamp.size,
    headerSize, if_pos (show 2 < 16 by simp)]
  omega

theorem length_pin (o : Option (Arr 32)) :
    (option (fun pin : Arr 32 => seqBytes pin.1) o).length = pinSize o := by
  cases o with
  | none => rfl
  | some pin => exact length_seqBytes pin.1

theorem Quote.length_put (q : Quote) : q.put.length = q.size := by
  have h1 : (bin q.price.1).length = 34 := by
    rw [length_bin (by rw [q.price.2]; decide), q.price.2]
  have h2 : (bin q.rewardsAddress.1).length = 22 := by
    rw [length_bin (by rw [q.rewardsAddress.2]; decide), q.rewardsAddress.2]
  simp only [Quote.put, List.length_append, length_arrayHeader, length_uint, length_seqBytes,
    Timestamp.length_put, length_pin, h1, h2, Quote.size, headerSize, if_pos (show 8 < 16 by simp)]
  omega

/-- A verified quote is small. -/
theorem Quote.size_le {q : Quote} (h : verifyQuote C q) : q.size ≤ 2 ^ 14 := by
  obtain ⟨hpk, hsig⟩ := verifyQuote_lengths C h
  have h1 := seqSize_le q.content.1
  have h2 := seqSize_le q.pubKey
  have h3 := seqSize_le q.signature
  have h4 := uintSize_le q.timestamp.secs.toNat
  have h5 := uintSize_le q.timestamp.nanos.toNat
  have h6 := uintSize_le q.committedKeyCount.toNat
  have h7 : pinSize q.commitmentPin ≤ 69 := by
    cases q.commitmentPin with
    | none => decide
    | some pin =>
      have := seqSize_le pin.1
      rw [pin.2] at this
      exact this
  rw [q.content.2] at h1
  rw [hpk, mlDsa65PkSize] at h2
  rw [hsig, mlDsa65SigSize] at h3
  rw [Quote.size, Timestamp.size]
  omega

/-- A verified quote is read back. -/
theorem parseQuote_verified {q : Quote} (h : verifyQuote C q) : parseQuote C q.put = .ok q := by
  obtain ⟨hpk, hsig⟩ := verifyQuote_lengths C h
  exact parseQuote_put C ⟨by rw [hpk]; decide, by rw [hsig]; decide⟩

/-- The quotes of a proof on the wire. -/
def peerQuotesSize (peerQuotes : List (XorName × Quote)) : ℕ :=
  (peerQuotes.map fun x => 1 + seqSize x.1.1 + x.2.size).sum

/-- The sidecars of a proof on the wire: each byte at or above `128` takes two
    bytes. -/
def sidecarsSize (sidecars : List Bytes) : ℕ := (sidecars.map seqSize).sum

theorem length_putPeerQuote (x : XorName × Quote) :
    (putPeerQuote x).length = 1 + seqSize x.1.1 + x.2.size := by
  simp only [putPeerQuote, List.length_append, length_arrayHeader, length_seqBytes,
    Quote.length_put, headerSize, if_pos (show 2 < 16 by simp)]
  omega

/-- The size of a single-node proof. -/
theorem length_serializeSingleNodeProof {peerQuotes : List (XorName × Quote)} {txHash : Arr 32}
    {sidecars : List Bytes} {bytes : Bytes}
    (h : serializeSingleNodeProof peerQuotes txHash sidecars = .ok bytes) :
    bytes.length = 38 + headerSize peerQuotes.length + peerQuotesSize peerQuotes +
      headerSize sidecars.length + sidecarsSize sidecars := by
  have h1 : (bin txHash.1).length = 34 := by
    rw [length_bin (by rw [txHash.2]; decide), txHash.2]
  have h2 : (sidecars.map fun b => (seqBytes b).length).sum = sidecarsSize sidecars :=
    congrArg List.sum (List.map_congr_left fun b _ => length_seqBytes b)
  cases h
  simp only [PaymentProof.put, ProofOfPayment.put, List.length_cons, List.length_append,
    length_array, length_arrayHeader, length_putPeerQuote, List.map_cons, List.map_nil,
    List.sum_cons, List.sum_nil, List.length_nil, h1, h2, headerSize, peerQuotesSize,
    if_pos (show 3 < 16 by simp), if_pos (show 1 < 16 by simp)]
  omega

end AntClient
