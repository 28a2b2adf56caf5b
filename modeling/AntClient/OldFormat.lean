/-
  Data of older nodes: records and messages without their trailing fields.

  * `Quote.reads_putFirst`: a quote of six or seven fields is read with the defaults
    of the others, whatever follows it.
  * `Quote.get_none`: no other number of fields up to eight is read.
  * `old_format_decodes`: quotes, and proofs with such quotes in them.
  * `old_responses_rejected`: a response without its commitment is not read.
-/
import AntClient.Payment
import AntClient.Protocol

namespace AntClient

open Bytes MsgPack

/-! ## Quotes -/

/-- The encoded fields of a quote. -/
def Quote.fields (q : Quote) : List Bytes :=
  [seqBytes q.content.1, q.timestamp.put, bin q.price.1, bin q.rewardsAddress.1, seqBytes q.pubKey,
    seqBytes q.signature, uint q.committedKeyCount.toNat,
    option (fun pin => seqBytes pin.1) q.commitmentPin]

/-- The array of the first `n` encoded fields. -/
def Quote.putFirst (n : ℕ) (q : Quote) : Bytes := arrayHeader n ++ (q.fields.take n).flatten

/-- The quote with the defaults of the fields from the `n`-th on. -/
def Quote.withDefaults (n : ℕ) (q : Quote) : Quote :=
  { q with
    committedKeyCount := if 6 < n then q.committedKeyCount else 0
    commitmentPin := if 7 < n then q.commitmentPin else none }

theorem Quote.put_eq_putFirst (q : Quote) : q.put = q.putFirst 8 := by
  simp [Quote.put, Quote.putFirst, Quote.fields]

/-- The first six fields, and those of the last two that are there. -/
theorem Quote.putFirst_eq (q : Quote) {n : ℕ} (h₁ : 6 ≤ n) (h₂ : n ≤ 8) : q.putFirst n =
    arrayHeader n ++ (seqBytes q.content.1 ++ (q.timestamp.put ++ (bin q.price.1 ++
      (bin q.rewardsAddress.1 ++ (seqBytes q.pubKey ++ (seqBytes q.signature ++
        ((if 6 < n then uint q.committedKeyCount.toNat else []) ++
          if 7 < n then option (fun pin => seqBytes pin.1) q.commitmentPin else []))))))) := by
  obtain rfl | rfl | rfl : n = 6 ∨ n = 7 ∨ n = 8 := by omega
  · simp [Quote.putFirst, Quote.fields]
  · simp [Quote.putFirst, Quote.fields]
  · simp [Quote.putFirst, Quote.fields]

theorem Quote.reads_putFirst {q : Quote} (h : q.Fits) {n : ℕ} (h₁ : 6 ≤ n) (h₂ : n ≤ 8) :
    Quote.get.Reads (q.putFirst n) (q.withDefaults n) := by
  rw [Quote.putFirst_eq q h₁ h₂]
  exact readRecord_reads h₂ (by simp) <|
    (field_reads (by omega) (readArr_reads_seq (by simp) q.content)).bind <|
    (field_reads (by omega) (Timestamp.reads q.timestamp)).bind <|
    (field_reads (by omega) (readArr_reads_bin (by simp) q.price)).bind <|
    (field_reads (by omega) (readArr_reads_bin (by simp) q.rewardsAddress)).bind <|
    (field_reads (by omega) (readBytes_reads_seq h.pubKey)).bind <|
    (field_reads (by omega) (readBytes_reads_seq h.signature)).bind <|
    (fieldOr_reads_ite (readU32_reads q.committedKeyCount)).bind <|
    (fieldOr_reads_ite (commitmentPin_reads q.commitmentPin)).last

/-- The sixth field has no default, and there is no ninth. -/
theorem Quote.get_none {bytes rest : Bytes} {n : ℕ}
    (h : readArrayHeader bytes = some (n, rest)) (hn : n < 6 ∨ 8 < n) : Quote.get bytes = none := by
  refine readRecord_none h (hn.imp (fun hn => ?_) id)
  exact .bind _ fun _ => .bind _ fun _ => .bind _ fun _ => .bind _ fun _ => .bind _ fun _ =>
    .bind_left (field_never (by omega))

variable (C : Crates)

theorem parseQuote_none {bytes rest : Bytes} {n : ℕ}
    (h : readArrayHeader bytes = some (n, rest)) (hn : n < 6 ∨ 8 < n) :
    parseQuote C bytes = .error (.decode (C.rmpError bytes)) := by
  rw [parseQuote, fromSlice, Quote.get_none h hn]
  rfl

/-! ## Proofs -/

/-- A quote of a proof, and how many of its fields are there. -/
structure OldPeerQuote where
  peerId : XorName
  quote : Quote
  fields : ℕ

def OldPeerQuote.put (x : OldPeerQuote) : Bytes :=
  arrayHeader 2 ++ (seqBytes x.peerId.1 ++ x.quote.putFirst x.fields)

/-- What it is read as. -/
def OldPeerQuote.peerQuote (x : OldPeerQuote) : XorName × Quote :=
  (x.peerId, x.quote.withDefaults x.fields)

/-- A tagged proof of such quotes, with or without the list of sidecars. -/
def putOldProof (peerQuotes : List OldPeerQuote) (txHashes : List (Arr 32))
    (sidecars : Option (List Bytes)) : Bytes :=
  proofTagSingleNode :: (arrayHeader (if sidecars.isSome then 3 else 2) ++
    ((arrayHeader 1 ++ array OldPeerQuote.put peerQuotes) ++
      (array (fun h => bin h.1) txHashes ++ sidecars.elim [] (array seqBytes))))

/-- The vectors of such a proof. -/
structure OldProofFits (quotes : List OldPeerQuote) (hashes : List (Arr 32))
    (blobs : Option (List Bytes)) : Prop where
  peerQuotes : quotes.length < 2 ^ 32
  quote : ∀ x ∈ quotes, x.quote.Fits
  txHashes : hashes.length < 2 ^ 32
  sidecars : (blobs.getD []).length < 2 ^ 32
  sidecar : ∀ b ∈ blobs.getD [], b.length < 2 ^ 32

theorem OldPeerQuote.reads {x : OldPeerQuote} (h : x.quote.Fits) (h₁ : 6 ≤ x.fields)
    (h₂ : x.fields ≤ 8) : getPeerQuote.Reads x.put x.peerQuote :=
  readRecord_reads (by simp) (by simp) <|
    (field_reads (by simp) (readArr_reads_seq (by simp) x.peerId)).bind
      (field_reads (by simp) (Quote.reads_putFirst h h₁ h₂)).last

/-- The list of sidecars, there or not. -/
theorem sidecars_reads {sidecars : Option (List Bytes)} (hl : (sidecars.getD []).length < 2 ^ 32)
    (h : ∀ b ∈ sidecars.getD [], b.length < 2 ^ 32) :
    (fieldOr (if sidecars.isSome then 3 else 2) 2 [] (readArray readBytes)).Reads
      (sidecars.elim [] (array seqBytes)) (sidecars.getD []) := by
  cases sidecars with
  | none =>
    rw [fieldOr, if_neg (by simp)]
    exact .pure []
  | some sidecars =>
    exact fieldOr_reads (by simp) (readArray_reads hl fun b hb => readBytes_reads_seq (h b hb))

theorem parseSingleNodeProof_old {peerQuotes : List OldPeerQuote} {txHashes : List (Arr 32)}
    {sidecars : Option (List Bytes)} (h : OldProofFits peerQuotes txHashes sidecars)
    (hf : ∀ x ∈ peerQuotes, 6 ≤ x.fields ∧ x.fields ≤ 8) :
    parseSingleNodeProof C (putOldProof peerQuotes txHashes sidecars) =
      .ok ⟨⟨peerQuotes.map OldPeerQuote.peerQuote⟩, txHashes, sidecars.getD []⟩ := by
  have hn : (if sidecars.isSome then 3 else 2) = 2 ∨ (if sidecars.isSome then 3 else 2) = 3 := by
    split
    · exact Or.inr rfl
    · exact Or.inl rfl
  have hreads : PaymentProof.get.Reads (putOldProof peerQuotes txHashes sidecars).tail
      ⟨⟨peerQuotes.map OldPeerQuote.peerQuote⟩, txHashes, sidecars.getD []⟩ :=
    readRecord_reads (by omega) (by simp) <|
      (field_reads (by omega) <| readRecord_reads (by simp) (by simp) <|
        (field_reads (by simp) <| readArray_reads_map h.peerQuotes fun x hx =>
          OldPeerQuote.reads (h.quote x hx) (hf x hx).1 (hf x hx).2).last).bind <|
      (field_reads (by omega) <| readArray_reads h.txHashes fun x _ =>
        readArr_reads_bin (by simp) x).bind <|
      (sidecars_reads h.sidecars h.sidecar).last
  rw [parseSingleNodeProof, if_pos (by rfl), putOldProof, List.tail_cons]
  rw [putOldProof, List.tail_cons] at hreads
  rw [fromSlice_reads hreads]

/-- **Old payment data decodes through trailing defaults**: quotes of six and seven
    fields, and proofs with any mixture of them; no other short or long quote is read. -/
theorem old_format_decodes :
    (∀ (q : Quote) (n : ℕ), q.Fits → n = 6 ∨ n = 7 →
      parseQuote C (q.putFirst n) = .ok (q.withDefaults n)) ∧
    (∀ (q : Quote) (n : ℕ), n < 6 →
      parseQuote C (q.putFirst n) = .error (.decode (C.rmpError (q.putFirst n)))) ∧
    (∀ (bytes rest : Bytes) (n : ℕ), readArrayHeader bytes = some (n, rest) → 8 < n →
      parseQuote C bytes = .error (.decode (C.rmpError bytes))) ∧
    ∀ (peerQuotes : List OldPeerQuote) (txHashes : List (Arr 32)) (sidecars : Option (List Bytes)),
      OldProofFits peerQuotes txHashes sidecars →
      (∀ x ∈ peerQuotes, 6 ≤ x.fields ∧ x.fields ≤ 8) →
      parseSingleNodeProof C (putOldProof peerQuotes txHashes sidecars) =
        .ok ⟨⟨peerQuotes.map OldPeerQuote.peerQuote⟩, txHashes, sidecars.getD []⟩ := by
  refine ⟨?_, ?_, ?_, ?_⟩
  · intro q n hq hn
    rw [parseQuote, fromSlice_reads (Quote.reads_putFirst hq (by omega) (by omega))]
  · intro q n hn
    exact parseQuote_none C (readArrayHeader_reads (by omega) _) (Or.inl hn)
  · intro bytes rest n h hn
    exact parseQuote_none C h (Or.inr hn)
  · intro peerQuotes txHashes sidecars h hf
    exact parseSingleNodeProof_old C h hf

/-- A proof with quotes of six, eight and seven fields and no sidecars. -/
def mixedQuotes : List OldPeerQuote :=
  [⟨.replicate 32 1, pinnedQuote, 6⟩, ⟨.replicate 32 2, pinnedQuote, 8⟩,
    ⟨.replicate 32 3, pinnedQuote, 7⟩]

theorem old_format_decodes_mixed :
    parseQuote .transparent (pinnedQuote.putFirst 6) =
      .ok { pinnedQuote with committedKeyCount := 0, commitmentPin := none } ∧
    parseQuote .transparent (pinnedQuote.putFirst 5) = .error (.decode "") ∧
    parseQuote .transparent (0x99 :: List.replicate 9 0) = .error (.decode "") ∧
    parseSingleNodeProof .transparent (putOldProof mixedQuotes [.replicate 32 9] none) =
      .ok ⟨⟨mixedQuotes.map OldPeerQuote.peerQuote⟩, [.replicate 32 9], []⟩ := by
  obtain ⟨h1, h2, h3, h4⟩ := old_format_decodes .transparent
  refine ⟨h1 _ 6 pinnedQuote_fits (Or.inl rfl), h2 _ 5 (by simp),
    h3 _ (List.replicate 9 0) 9 (by rfl) (by simp),
    h4 _ _ none ⟨by simp [mixedQuotes], ?_, by simp, by simp, by simp⟩ ?_⟩
  · simpa [mixedQuotes] using pinnedQuote_fits
  · simp [mixedQuotes]

/-! ## Messages

A variant is read as a tuple of all its fields, so a field that the input ends before
has no default. -/

/-- A quote response that stops after `alreadyStored`. -/
def putOldQuoteResponse (requestId : UInt64) (quote : Bytes) (alreadyStored : Bool) : Bytes :=
  Postcard.u64 requestId ++ (Postcard.variant 5 ++ (Postcard.variant 0 ++
    (Postcard.bytes quote ++ Postcard.bool alreadyStored)))

/-- A merkle candidate response that stops after `candidateNode`. -/
def putOldMerkleResponse (requestId : UInt64) (candidateNode : Bytes) : Bytes :=
  Postcard.u64 requestId ++ (Postcard.variant 7 ++ (Postcard.variant 0 ++
    Postcard.bytes candidateNode))

/-- The commitment is all that such a response lacks. -/
theorem putOldQuoteResponse_append (requestId : UInt64) (quote : Bytes) (alreadyStored : Bool)
    (commitment : Option Bytes) :
    putOldQuoteResponse requestId quote alreadyStored ++
        Postcard.option Postcard.bytes commitment =
      ChunkMessage.put ⟨requestId, .quoteResponse (.success quote alreadyStored commitment)⟩ := by
  simp [putOldQuoteResponse, ChunkMessage.put, ChunkMessageBody.put, ChunkQuoteResponse.put]

theorem putOldMerkleResponse_append (requestId : UInt64) (candidateNode : Bytes)
    (commitment : Option Bytes) :
    putOldMerkleResponse requestId candidateNode ++ Postcard.option Postcard.bytes commitment =
      ChunkMessage.put
        ⟨requestId, .merkleCandidateQuoteResponse (.success candidateNode commitment)⟩ := by
  simp [putOldMerkleResponse, ChunkMessage.put, ChunkMessageBody.put,
    MerkleCandidateQuoteResponse.put]

theorem get_oldQuoteResponse (requestId : UInt64) {quote : Bytes} (h : Sized quote)
    (alreadyStored : Bool) :
    ChunkMessage.get (putOldQuoteResponse requestId quote alreadyStored) = none := by
  have hbool : (Postcard.readBool >>= fun alreadyStored => do
      return ChunkQuoteResponse.success quote alreadyStored
        (← Postcard.readOption Postcard.readBytes)) (Postcard.bool alreadyStored) = none := by
    rw [← List.append_nil (Postcard.bool alreadyStored)]
    exact (Postcard.readBool_reads alreadyStored).bind_none rfl
  have hresponse : ChunkQuoteResponse.get (Postcard.variant 0 ++
      (Postcard.bytes quote ++ Postcard.bool alreadyStored)) = none :=
    (Postcard.variant_reads (by simp)).bind_none ((Postcard.readBytes_reads h).bind_none hbool)
  exact (Postcard.readU64_reads requestId).bind_none <| Parser.bind_eq_none
    ((Postcard.variant_reads (by simp)).bind_none (Parser.bind_eq_none hresponse _)) _

theorem get_oldMerkleResponse (requestId : UInt64) {candidateNode : Bytes}
    (h : Sized candidateNode) :
    ChunkMessage.get (putOldMerkleResponse requestId candidateNode) = none := by
  have hresponse : MerkleCandidateQuoteResponse.get (Postcard.variant 0 ++
      Postcard.bytes candidateNode) = none := by
    rw [← List.append_nil (Postcard.bytes candidateNode)]
    exact (Postcard.variant_reads (by simp)).bind_none ((Postcard.readBytes_reads h).bind_none rfl)
  exact (Postcard.readU64_reads requestId).bind_none <| Parser.bind_eq_none
    ((Postcard.variant_reads (by simp)).bind_none (Parser.bind_eq_none hresponse _)) _

/-- Decoding fails: the message is too large, or it is not read. -/
theorem decode_error_of_get {data : Bytes}
    (h : data.length ≤ maxWireMessageSize → ChunkMessage.get data = none) :
    ∃ e, ChunkMessage.decode C data = .error e := by
  unfold ChunkMessage.decode
  split_ifs with hl
  · exact ⟨_, rfl⟩
  · rw [Postcard.fromBytes, h (by omega)]
    exact ⟨_, rfl⟩

/-- **A response without its commitment is rejected**, whatever else it says. -/
theorem old_responses_rejected :
    (∀ requestId quote alreadyStored,
      ∃ e, ChunkMessage.decode C (putOldQuoteResponse requestId quote alreadyStored) = .error e) ∧
    ∀ requestId candidateNode,
      ∃ e, ChunkMessage.decode C (putOldMerkleResponse requestId candidateNode) = .error e := by
  refine ⟨fun requestId quote alreadyStored => ?_, fun requestId candidateNode => ?_⟩
  · refine decode_error_of_get C fun hl => get_oldQuoteResponse requestId ?_ alreadyStored
    simp only [putOldQuoteResponse, List.length_append, maxWireMessageSize] at hl
    exact sized_bytes (by omega)
  · refine decode_error_of_get C fun hl => get_oldMerkleResponse requestId ?_
    simp only [putOldMerkleResponse, List.length_append, maxWireMessageSize] at hl
    exact sized_bytes (by omega)

/-- A quote response that is read once the byte of an absent commitment follows it. -/
theorem old_quote_response_rejected :
    ChunkMessage.decode .transparent (putOldQuoteResponse 1 [7] false) = .error "decode failed: " ∧
    ChunkMessage.decode .transparent (putOldQuoteResponse 1 [7] false) ≠
      .ok ⟨1, .quoteResponse (.success [7] false none)⟩ ∧
    ChunkMessage.decode .transparent (putOldQuoteResponse 1 [7] false ++ [0]) =
      .ok ⟨1, .quoteResponse (.success [7] false none)⟩ := by
  have herror : ChunkMessage.decode .transparent (putOldQuoteResponse 1 [7] false) =
      .error "decode failed: " := rfl
  refine ⟨herror, ?_, rfl⟩
  rw [herror]
  exact nofun

end AntClient
