/-
  The `autonomi.ant.chunk.v1` wire types (`protocol.rs`).

  Each type has its postcard encoding `put` and the parser `get`; variant and
  field order are those of the declarations.  `ChunkMessage.decode` caps the size
  of its input, `ChunkMessage.encode` does not cap that of its output.
-/
import AntClient.Lib.Postcard
import AntClient.Crates

namespace AntClient

open Postcard

/-- Maximum wire message size. -/
def maxWireMessageSize : ℕ := 5 * 1024 * 1024

/-! ## Types -/

/-- Protocol-level error. -/
inductive ProtocolError
  | serializationFailed (m : String)
  | deserializationFailed (m : String)
  | messageTooLarge (size maxSize : UInt32)
  | chunkTooLarge (size maxSize : UInt32)
  | addressMismatch (expected actual : XorName)
  | storageFailed (m : String)
  | paymentFailed (m : String)
  | quoteFailed (m : String)
  | internal (m : String)

/-- Request to store a chunk. -/
structure ChunkPutRequest where
  /-- BLAKE3 of `content` -/
  address : XorName
  content : Bytes
  paymentProof : Option Bytes

/-- Response to a PUT request. -/
inductive ChunkPutResponse
  | success (address : XorName)
  | alreadyExists (address : XorName)
  | paymentRequired (message : String)
  | error (e : ProtocolError)

/-- Request to retrieve a chunk. -/
structure ChunkGetRequest where
  address : XorName

/-- Response to a GET request. -/
inductive ChunkGetResponse
  | success (address : XorName) (content : Bytes)
  | notFound (address : XorName)
  | error (e : ProtocolError)

/-- Request a storage quote. -/
structure ChunkQuoteRequest where
  address : XorName
  dataSize : UInt64
  dataType : UInt32

/-- Response with a storage quote. -/
inductive ChunkQuoteResponse
  /-- a serialized `PaymentQuote`, whether the chunk is already stored, and an
      opaque commitment sidecar -/
  | success (quote : Bytes) (alreadyStored : Bool) (commitment : Option Bytes)
  | error (e : ProtocolError)

/-- Request a merkle candidate quote. -/
structure MerkleCandidateQuoteRequest where
  address : XorName
  dataType : UInt32
  dataSize : UInt64
  merklePaymentTimestamp : UInt64

/-- Response with a merkle candidate quote. -/
inductive MerkleCandidateQuoteResponse
  | success (candidateNode : Bytes) (commitment : Option Bytes)
  | error (e : ProtocolError)

/-- All chunk protocol message types. -/
inductive ChunkMessageBody
  | putRequest (r : ChunkPutRequest)
  | putResponse (r : ChunkPutResponse)
  | getRequest (r : ChunkGetRequest)
  | getResponse (r : ChunkGetResponse)
  | quoteRequest (r : ChunkQuoteRequest)
  | quoteResponse (r : ChunkQuoteResponse)
  | merkleCandidateQuoteRequest (r : MerkleCandidateQuoteRequest)
  | merkleCandidateQuoteResponse (r : MerkleCandidateQuoteResponse)

/-- Wire-format wrapper pairing a sender-assigned id with a body. -/
structure ChunkMessage where
  requestId : UInt64
  body : ChunkMessageBody

def ProtocolError.display : ProtocolError → String
  | .serializationFailed m => s!"serialization failed: {m}"
  | .deserializationFailed m => s!"deserialization failed: {m}"
  | .messageTooLarge size maxSize => s!"message size {size} exceeds maximum {maxSize}"
  | .chunkTooLarge size maxSize => s!"chunk size {size} exceeds maximum {maxSize}"
  | .addressMismatch _ _ => "address mismatch"
  | .storageFailed m => s!"storage failed: {m}"
  | .paymentFailed m => s!"payment failed: {m}"
  | .quoteFailed m => s!"quote failed: {m}"
  | .internal m => s!"internal error: {m}"

/-! ## Encoding -/

def ProtocolError.put : ProtocolError → Bytes
  | .serializationFailed m => variant 0 ++ string m
  | .deserializationFailed m => variant 1 ++ string m
  | .messageTooLarge size maxSize => variant 2 ++ (usize size ++ usize maxSize)
  | .chunkTooLarge size maxSize => variant 3 ++ (usize size ++ usize maxSize)
  | .addressMismatch expected actual => variant 4 ++ (expected.1 ++ actual.1)
  | .storageFailed m => variant 5 ++ string m
  | .paymentFailed m => variant 6 ++ string m
  | .quoteFailed m => variant 7 ++ string m
  | .internal m => variant 8 ++ string m

def ChunkPutRequest.put (r : ChunkPutRequest) : Bytes :=
  r.address.1 ++ (bytes r.content ++ option bytes r.paymentProof)

def ChunkPutResponse.put : ChunkPutResponse → Bytes
  | .success address => variant 0 ++ address.1
  | .alreadyExists address => variant 1 ++ address.1
  | .paymentRequired message => variant 2 ++ string message
  | .error e => variant 3 ++ e.put

def ChunkGetRequest.put (r : ChunkGetRequest) : Bytes := r.address.1

def ChunkGetResponse.put : ChunkGetResponse → Bytes
  | .success address content => variant 0 ++ (address.1 ++ bytes content)
  | .notFound address => variant 1 ++ address.1
  | .error e => variant 2 ++ e.put

def ChunkQuoteRequest.put (r : ChunkQuoteRequest) : Bytes :=
  r.address.1 ++ (u64 r.dataSize ++ u32 r.dataType)

def ChunkQuoteResponse.put : ChunkQuoteResponse → Bytes
  | .success quote alreadyStored commitment =>
    variant 0 ++ (bytes quote ++ (bool alreadyStored ++ option bytes commitment))
  | .error e => variant 1 ++ e.put

def MerkleCandidateQuoteRequest.put (r : MerkleCandidateQuoteRequest) : Bytes :=
  r.address.1 ++ (u32 r.dataType ++ (u64 r.dataSize ++ u64 r.merklePaymentTimestamp))

def MerkleCandidateQuoteResponse.put : MerkleCandidateQuoteResponse → Bytes
  | .success candidateNode commitment =>
    variant 0 ++ (bytes candidateNode ++ option bytes commitment)
  | .error e => variant 1 ++ e.put

def ChunkMessageBody.put : ChunkMessageBody → Bytes
  | .putRequest r => variant 0 ++ r.put
  | .putResponse r => variant 1 ++ r.put
  | .getRequest r => variant 2 ++ r.put
  | .getResponse r => variant 3 ++ r.put
  | .quoteRequest r => variant 4 ++ r.put
  | .quoteResponse r => variant 5 ++ r.put
  | .merkleCandidateQuoteRequest r => variant 6 ++ r.put
  | .merkleCandidateQuoteResponse r => variant 7 ++ r.put

def ChunkMessage.put (m : ChunkMessage) : Bytes := u64 m.requestId ++ m.body.put

/-! ## Decoding -/

def ProtocolError.get : Parser ProtocolError := do
  match ← readVariant with
  | 0 => return .serializationFailed (← readString)
  | 1 => return .deserializationFailed (← readString)
  | 2 => return .messageTooLarge (← readUsize) (← readUsize)
  | 3 => return .chunkTooLarge (← readUsize) (← readUsize)
  | 4 => return .addressMismatch (← Parser.arr 32) (← Parser.arr 32)
  | 5 => return .storageFailed (← readString)
  | 6 => return .paymentFailed (← readString)
  | 7 => return .quoteFailed (← readString)
  | 8 => return .internal (← readString)
  | _ => .fail

def ChunkPutRequest.get : Parser ChunkPutRequest := do
  return ⟨← Parser.arr 32, ← readBytes, ← readOption readBytes⟩

def ChunkPutResponse.get : Parser ChunkPutResponse := do
  match ← readVariant with
  | 0 => return .success (← Parser.arr 32)
  | 1 => return .alreadyExists (← Parser.arr 32)
  | 2 => return .paymentRequired (← readString)
  | 3 => return .error (← ProtocolError.get)
  | _ => .fail

def ChunkGetRequest.get : Parser ChunkGetRequest := do return ⟨← Parser.arr 32⟩

def ChunkGetResponse.get : Parser ChunkGetResponse := do
  match ← readVariant with
  | 0 => return .success (← Parser.arr 32) (← readBytes)
  | 1 => return .notFound (← Parser.arr 32)
  | 2 => return .error (← ProtocolError.get)
  | _ => .fail

def ChunkQuoteRequest.get : Parser ChunkQuoteRequest := do
  return ⟨← Parser.arr 32, ← readU64, ← readU32⟩

def ChunkQuoteResponse.get : Parser ChunkQuoteResponse := do
  match ← readVariant with
  | 0 => return .success (← readBytes) (← readBool) (← readOption readBytes)
  | 1 => return .error (← ProtocolError.get)
  | _ => .fail

def MerkleCandidateQuoteRequest.get : Parser MerkleCandidateQuoteRequest := do
  return ⟨← Parser.arr 32, ← readU32, ← readU64, ← readU64⟩

def MerkleCandidateQuoteResponse.get : Parser MerkleCandidateQuoteResponse := do
  match ← readVariant with
  | 0 => return .success (← readBytes) (← readOption readBytes)
  | 1 => return .error (← ProtocolError.get)
  | _ => .fail

def ChunkMessageBody.get : Parser ChunkMessageBody := do
  match ← readVariant with
  | 0 => return .putRequest (← ChunkPutRequest.get)
  | 1 => return .putResponse (← ChunkPutResponse.get)
  | 2 => return .getRequest (← ChunkGetRequest.get)
  | 3 => return .getResponse (← ChunkGetResponse.get)
  | 4 => return .quoteRequest (← ChunkQuoteRequest.get)
  | 5 => return .quoteResponse (← ChunkQuoteResponse.get)
  | 6 => return .merkleCandidateQuoteRequest (← MerkleCandidateQuoteRequest.get)
  | 7 => return .merkleCandidateQuoteResponse (← MerkleCandidateQuoteResponse.get)
  | _ => .fail

def ChunkMessage.get : Parser ChunkMessage := do return ⟨← readU64, ← ChunkMessageBody.get⟩

variable (C : Crates)

/-- Encode with postcard. -/
def ChunkMessage.encode (m : ChunkMessage) : Except String Bytes := .ok m.put

/-- Decode with postcard (size-capped). -/
def ChunkMessage.decode (data : Bytes) : Except String ChunkMessage :=
  if data.length > maxWireMessageSize then .error s!"message too large: {data.length} bytes"
  else match fromBytes ChunkMessage.get data with
    | some m => .ok m
    | none => .error s!"decode failed: {C.postcardError data}"

/-! ## Round trips

The length of a vector or a string is a `usize` of the target, below `2 ^ 32`. -/

/-- The length of a vector of bytes. -/
def Sized (b : Bytes) : Prop := b.length < 2 ^ 32

def ProtocolError.Fits : ProtocolError → Prop
  | .messageTooLarge _ _ | .chunkTooLarge _ _ | .addressMismatch _ _ => True
  | .serializationFailed m | .deserializationFailed m | .storageFailed m | .paymentFailed m
  | .quoteFailed m | .internal m => Sized (utf8 m)

def ChunkPutRequest.Fits (r : ChunkPutRequest) : Prop :=
  Sized r.content ∧ ∀ b, r.paymentProof = some b → Sized b

def ChunkPutResponse.Fits : ChunkPutResponse → Prop
  | .success _ | .alreadyExists _ => True
  | .paymentRequired message => Sized (utf8 message)
  | .error e => e.Fits

def ChunkGetResponse.Fits : ChunkGetResponse → Prop
  | .success _ content => Sized content
  | .notFound _ => True
  | .error e => e.Fits

def ChunkQuoteResponse.Fits : ChunkQuoteResponse → Prop
  | .success quote _ commitment => Sized quote ∧ ∀ b, commitment = some b → Sized b
  | .error e => e.Fits

def MerkleCandidateQuoteResponse.Fits : MerkleCandidateQuoteResponse → Prop
  | .success candidateNode commitment => Sized candidateNode ∧ ∀ b, commitment = some b → Sized b
  | .error e => e.Fits

def ChunkMessageBody.Fits : ChunkMessageBody → Prop
  | .putRequest r => r.Fits
  | .putResponse r => r.Fits
  | .getResponse r => r.Fits
  | .quoteResponse r => r.Fits
  | .merkleCandidateQuoteResponse r => r.Fits
  | .getRequest _ | .quoteRequest _ | .merkleCandidateQuoteRequest _ => True

/-- The vectors and strings of a message. -/
def ChunkMessage.Fits (m : ChunkMessage) : Prop := m.body.Fits

theorem ProtocolError.reads {e : ProtocolError} (h : e.Fits) :
    ProtocolError.get.Reads e.put e := by
  cases e with
  | messageTooLarge size maxSize =>
    exact readVariant_reads 2 ((readUsize_reads size).bind (readUsize_reads maxSize).last)
      (by simp)
  | chunkTooLarge size maxSize =>
    exact readVariant_reads 3 ((readUsize_reads size).bind (readUsize_reads maxSize).last)
      (by simp)
  | addressMismatch expected actual =>
    exact readVariant_reads 4 ((Parser.Reads.arr expected).bind (Parser.Reads.arr actual).last)
      (by simp)
  | _ m => exact readVariant_reads _ (readString_reads h).last (by simp)

theorem option_bytes_reads {o : Option Bytes} (h : ∀ b, o = some b → Sized b) :
    (readOption readBytes).Reads (option bytes o) o :=
  readOption_reads fun b hb => readBytes_reads (h b hb)

theorem ChunkPutRequest.reads {r : ChunkPutRequest} (h : r.Fits) :
    ChunkPutRequest.get.Reads r.put r :=
  (Parser.Reads.arr r.address).bind ((readBytes_reads h.1).bind (option_bytes_reads h.2).last)

theorem ChunkPutResponse.reads {r : ChunkPutResponse} (h : r.Fits) :
    ChunkPutResponse.get.Reads r.put r := by
  cases r with
  | success address => exact readVariant_reads 0 (Parser.Reads.arr address).last (by simp)
  | alreadyExists address => exact readVariant_reads 1 (Parser.Reads.arr address).last (by simp)
  | paymentRequired message => exact readVariant_reads 2 (readString_reads h).last (by simp)
  | error e => exact readVariant_reads 3 (ProtocolError.reads h).last (by simp)

theorem ChunkGetRequest.reads (r : ChunkGetRequest) : ChunkGetRequest.get.Reads r.put r :=
  (Parser.Reads.arr r.address).last

theorem ChunkGetResponse.reads {r : ChunkGetResponse} (h : r.Fits) :
    ChunkGetResponse.get.Reads r.put r := by
  cases r with
  | success address content =>
    exact readVariant_reads 0 ((Parser.Reads.arr address).bind (readBytes_reads h).last) (by simp)
  | notFound address => exact readVariant_reads 1 (Parser.Reads.arr address).last (by simp)
  | error e => exact readVariant_reads 2 (ProtocolError.reads h).last (by simp)

theorem ChunkQuoteRequest.reads (r : ChunkQuoteRequest) : ChunkQuoteRequest.get.Reads r.put r :=
  (Parser.Reads.arr r.address).bind ((readU64_reads r.dataSize).bind (readU32_reads r.dataType).last)

theorem ChunkQuoteResponse.reads {r : ChunkQuoteResponse} (h : r.Fits) :
    ChunkQuoteResponse.get.Reads r.put r := by
  cases r with
  | success quote alreadyStored commitment =>
    exact readVariant_reads 0 ((readBytes_reads h.1).bind
      ((readBool_reads alreadyStored).bind (option_bytes_reads h.2).last)) (by simp)
  | error e => exact readVariant_reads 1 (ProtocolError.reads h).last (by simp)

theorem MerkleCandidateQuoteRequest.reads (r : MerkleCandidateQuoteRequest) :
    MerkleCandidateQuoteRequest.get.Reads r.put r :=
  (Parser.Reads.arr r.address).bind ((readU32_reads r.dataType).bind
    ((readU64_reads r.dataSize).bind (readU64_reads r.merklePaymentTimestamp).last))

theorem MerkleCandidateQuoteResponse.reads {r : MerkleCandidateQuoteResponse} (h : r.Fits) :
    MerkleCandidateQuoteResponse.get.Reads r.put r := by
  cases r with
  | success candidateNode commitment =>
    exact readVariant_reads 0 ((readBytes_reads h.1).bind (option_bytes_reads h.2).last) (by simp)
  | error e => exact readVariant_reads 1 (ProtocolError.reads h).last (by simp)

theorem ChunkMessageBody.reads {b : ChunkMessageBody} (h : b.Fits) :
    ChunkMessageBody.get.Reads b.put b := by
  cases b with
  | putRequest r => exact readVariant_reads 0 (ChunkPutRequest.reads h).last (by simp)
  | putResponse r => exact readVariant_reads 1 (ChunkPutResponse.reads h).last (by simp)
  | getRequest r => exact readVariant_reads 2 r.reads.last (by simp)
  | getResponse r => exact readVariant_reads 3 (ChunkGetResponse.reads h).last (by simp)
  | quoteRequest r => exact readVariant_reads 4 r.reads.last (by simp)
  | quoteResponse r => exact readVariant_reads 5 (ChunkQuoteResponse.reads h).last (by simp)
  | merkleCandidateQuoteRequest r => exact readVariant_reads 6 r.reads.last (by simp)
  | merkleCandidateQuoteResponse r =>
    exact readVariant_reads 7 (MerkleCandidateQuoteResponse.reads h).last (by simp)

theorem ChunkMessage.reads {m : ChunkMessage} (h : m.Fits) : ChunkMessage.get.Reads m.put m :=
  (readU64_reads m.requestId).bind (ChunkMessageBody.reads h).last

/-! ### Small messages

The parts of a message of fewer than `2 ^ 32` bytes fit. -/

theorem sized_string {s : String} (h : (string s).length < 2 ^ 32) : Sized (utf8 s) :=
  (length_le_bytes _).trans_lt h

theorem sized_bytes {b : Bytes} (h : (bytes b).length < 2 ^ 32) : Sized b :=
  (length_le_bytes _).trans_lt h

theorem sized_option {o : Option Bytes} (h : (option bytes o).length < 2 ^ 32) :
    ∀ b, o = some b → Sized b := by
  intro b hb
  subst hb
  exact sized_bytes (lt_trans (by simp [option]) h)

theorem ProtocolError.fits {e : ProtocolError} (h : e.put.length < 2 ^ 32) : e.Fits := by
  cases e with
  | messageTooLarge => trivial
  | chunkTooLarge => trivial
  | addressMismatch => trivial
  | _ m =>
    simp only [ProtocolError.put, List.length_append] at h
    exact sized_string (by omega)

theorem ChunkMessageBody.fits {b : ChunkMessageBody} (h : b.put.length < 2 ^ 32) : b.Fits := by
  cases b with
  | getRequest => trivial
  | quoteRequest => trivial
  | merkleCandidateQuoteRequest => trivial
  | putRequest r =>
    simp only [ChunkMessageBody.put, ChunkPutRequest.put, List.length_append] at h
    exact ⟨sized_bytes (by omega), sized_option (by omega)⟩
  | putResponse r =>
    cases r with
    | success => trivial
    | alreadyExists => trivial
    | paymentRequired message =>
      simp only [ChunkMessageBody.put, ChunkPutResponse.put, List.length_append] at h
      exact sized_string (by omega)
    | error e =>
      simp only [ChunkMessageBody.put, ChunkPutResponse.put, List.length_append] at h
      exact ProtocolError.fits (by omega)
  | getResponse r =>
    cases r with
    | success address content =>
      simp only [ChunkMessageBody.put, ChunkGetResponse.put, List.length_append] at h
      exact sized_bytes (by omega)
    | notFound => trivial
    | error e =>
      simp only [ChunkMessageBody.put, ChunkGetResponse.put, List.length_append] at h
      exact ProtocolError.fits (by omega)
  | quoteResponse r =>
    cases r with
    | success quote alreadyStored commitment =>
      simp only [ChunkMessageBody.put, ChunkQuoteResponse.put, List.length_append] at h
      exact ⟨sized_bytes (by omega), sized_option (by omega)⟩
    | error e =>
      simp only [ChunkMessageBody.put, ChunkQuoteResponse.put, List.length_append] at h
      exact ProtocolError.fits (by omega)
  | merkleCandidateQuoteResponse r =>
    cases r with
    | success candidateNode commitment =>
      simp only [ChunkMessageBody.put, MerkleCandidateQuoteResponse.put, List.length_append] at h
      exact ⟨sized_bytes (by omega), sized_option (by omega)⟩
    | error e =>
      simp only [ChunkMessageBody.put, MerkleCandidateQuoteResponse.put, List.length_append] at h
      exact ProtocolError.fits (by omega)

theorem ChunkMessage.fits {m : ChunkMessage} (h : m.put.length < 2 ^ 32) : m.Fits := by
  simp only [ChunkMessage.put, List.length_append] at h
  exact ChunkMessageBody.fits (by omega)

/-- A message determines the bytes of its body. -/
theorem ChunkMessage.put_body {m m' : ChunkMessage} (h : m.put = m'.put) : m.body.put = m'.body.put := by
  have h1 := readU64_reads m.requestId m.body.put
  have h2 := readU64_reads m'.requestId m'.body.put
  have h3 := h1.symm.trans ((congrArg readU64 h).trans h2)
  simp only [Option.some.injEq, Prod.mk.injEq] at h3
  exact h3.2

/-- Below the cap, decoding undoes encoding. -/
theorem ChunkMessage.decode_put {m : ChunkMessage} (h : m.put.length ≤ maxWireMessageSize) :
    ChunkMessage.decode C m.put = .ok m := by
  have hl : m.put.length < 2 ^ 32 := by
    rw [maxWireMessageSize] at h
    omega
  rw [ChunkMessage.decode, if_neg (by omega), fromBytes_reads (ChunkMessage.reads (ChunkMessage.fits hl))]

/-- Above it, decoding fails. -/
theorem ChunkMessage.decode_of_large {data : Bytes} (h : maxWireMessageSize < data.length) :
    ChunkMessage.decode C data = .error s!"message too large: {data.length} bytes" := by
  rw [ChunkMessage.decode, if_pos h]

/-! ## The sidecar of a quote -/

/-- The sidecar of a quote response is a vector of less than `2 ^ 32` bytes. -/
def ChunkMessageBody.SmallSidecar (b : ChunkMessageBody) : Prop :=
  ∀ quote alreadyStored commitment,
    b = .quoteResponse (.success quote alreadyStored (some commitment)) →
      commitment.length < 2 ^ 32

theorem ChunkMessageBody.yields : ChunkMessageBody.get.Yields SmallSidecar := by
  have trivially : ∀ {α : Type} (p : Parser α) (f : α → ChunkMessageBody),
      (∀ a, SmallSidecar (f a)) → (do return f (← p)).Yields SmallSidecar :=
    fun p f h => (Parser.Yields.trivial p).bind fun a _ => .pure (h a)
  refine (Parser.Yields.trivial readVariant).bind fun i _ => ?_
  split
  · exact trivially _ _ (by rintro a _ _ _ ⟨⟩)
  · exact trivially _ _ (by rintro a _ _ _ ⟨⟩)
  · exact trivially _ _ (by rintro a _ _ _ ⟨⟩)
  · exact trivially _ _ (by rintro a _ _ _ ⟨⟩)
  · exact trivially _ _ (by rintro a _ _ _ ⟨⟩)
  · have hq : ChunkQuoteResponse.get.Yields fun r => SmallSidecar (.quoteResponse r) := by
      refine (Parser.Yields.trivial readVariant).bind fun j _ => ?_
      split
      · refine (Parser.Yields.trivial _).bind fun quote _ => (Parser.Yields.trivial _).bind fun b _ =>
          (readOption_yields readBytes_yields).bind fun c hc => .pure ?_
        rintro _ _ commitment ⟨⟩
        exact hc _ rfl
      · refine (Parser.Yields.trivial _).bind fun e _ => .pure ?_
        rintro _ _ _ ⟨⟩
      · exact .fail
    exact hq.bind fun r hr => .pure hr
  · exact trivially _ _ (by rintro a _ _ _ ⟨⟩)
  · exact trivially _ _ (by rintro a _ _ _ ⟨⟩)
  · exact .fail

theorem ChunkMessage.decode_sidecar {data quote commitment : Bytes} {requestId : UInt64}
    {alreadyStored : Bool} (h : ChunkMessage.decode C data =
      .ok ⟨requestId, .quoteResponse (.success quote alreadyStored (some commitment))⟩) :
    commitment.length < 2 ^ 32 := by
  have hy : ChunkMessage.get.Yields fun m => m.body.SmallSidecar :=
    (Parser.Yields.trivial _).bind fun id _ => ChunkMessageBody.yields.bind fun b hb => .pure hb
  unfold ChunkMessage.decode at h
  split_ifs at h
  split at h
  · rename_i m hm
    cases h
    obtain ⟨⟨m', rest⟩, hget, hmm⟩ := Option.map_eq_some_iff.1 hm
    cases hmm
    exact hy _ _ _ hget _ _ _ rfl
  · cases h

end AntClient
