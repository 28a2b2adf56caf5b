/-
  The layers of the wire together: a chunk message is encoded, tagged, sealed into an
  envelope, framed and cut into messages; the other side undoes each step.

  The client seals requests and opens responses.  The mirrored peer seals and opens with
  the other direction: `sealEnvelope` and `openEnvelope` are both sides' operations.

  * `wire_codecs`: the codecs of the three protocols round-trip, and are injective.
  * `recvMessage_sendMessage`: a message of at most `maxWireMessageSize` bytes passes
    every layer, however its bytes are cut.
-/
import AntClient.Sendable
import Mathlib.Data.Set.Function

namespace AntClient

open Bytes Postcard

variable (C : Crates)

/-! ## The codecs -/

/-- **The wire codecs**: decoding undoes encoding, up to the cap of the chunk protocol,
    and different messages of one protocol have different encodings. -/
theorem wire_codecs :
    (∀ m : ChunkMessage, ∃ bytes, m.encode = .ok bytes ∧
      (bytes.length ≤ maxWireMessageSize → ChunkMessage.decode C bytes = .ok m) ∧
      (maxWireMessageSize < bytes.length → ∃ e, ChunkMessage.decode C bytes = .error e)) ∧
    (∀ m : DiscoveryMessage, m.Fits →
      ∃ bytes, m.encode = .ok bytes ∧ DiscoveryMessage.decode C bytes = .ok m) ∧
    (∀ m : SignalRelayMessage, m.Fits →
      ∃ bytes, m.encode = .ok bytes ∧ SignalRelayMessage.decode C bytes = .ok m) ∧
    Set.InjOn ChunkMessage.encode {m | m.Fits} ∧
    Set.InjOn DiscoveryMessage.encode {m | m.Fits} ∧
    Set.InjOn SignalRelayMessage.encode {m | m.Fits} := by
  refine ⟨?_, ?_, ?_, ?_, ?_, ?_⟩
  · intro m
    refine ⟨m.put, rfl, ?_, ?_⟩
    · intro h
      exact ChunkMessage.decode_put C h
    · intro h
      exact ⟨_, ChunkMessage.decode_of_large C h⟩
  · intro m h
    exact ⟨m.put, rfl, DiscoveryMessage.decode_put C h⟩
  · intro m h
    exact ⟨m.put, rfl, SignalRelayMessage.decode_put C h⟩
  · intro m h m' h' he
    have hput : m.put = m'.put := by simpa [ChunkMessage.encode] using he
    exact (ChunkMessage.reads h).inj (hput ▸ ChunkMessage.reads h')
  · intro m h m' h' he
    have hput : m.put = m'.put := by simpa [DiscoveryMessage.encode] using he
    exact (DiscoveryMessage.reads h).inj (hput ▸ DiscoveryMessage.reads h')
  · intro m h m' h' he
    have hput : m.put = m'.put := by simpa [SignalRelayMessage.encode] using he
    exact (SignalRelayMessage.reads h).inj (hput ▸ SignalRelayMessage.reads h')

/-- Three messages: an error with a `usize`, a peer, and the largest ids. -/
theorem wire_codecs_three :
    (∃ bytes, (ChunkMessage.encode ⟨300, .getResponse (.error (.messageTooLarge 200 7))⟩ = .ok bytes) ∧
      ChunkMessage.decode .transparent bytes =
        .ok ⟨300, .getResponse (.error (.messageTooLarge 200 7))⟩) ∧
    (∃ bytes, (DiscoveryMessage.encode ⟨9223372036854775808, .closestPeersResponse
        ⟨[⟨first32 [1], "10.0.0.1", 65535, first32 [2]⟩]⟩⟩ = .ok bytes) ∧
      DiscoveryMessage.decode .transparent bytes = .ok ⟨9223372036854775808, .closestPeersResponse
        ⟨[⟨first32 [1], "10.0.0.1", 65535, first32 [2]⟩]⟩⟩) ∧
    (∃ bytes, (SignalRelayMessage.encode ⟨0, .error "Ω"⟩ = .ok bytes) ∧
      SignalRelayMessage.decode .transparent bytes = .ok ⟨0, .error "Ω"⟩) := by
  obtain ⟨h1, h2, h3, -⟩ := wire_codecs .transparent
  refine ⟨?_, h2 _ ⟨?_, ?_⟩, h3 _ ?_⟩
  · obtain ⟨bytes, hb, hd, -⟩ := h1 ⟨300, .getResponse (.error (.messageTooLarge 200 7))⟩
    refine ⟨bytes, hb, hd ?_⟩
    cases hb
    decide
  · simp
  · intro p hp
    rw [List.mem_singleton.1 hp]
    show _ < _
    decide
  · show _ < _
    decide

/-! ## Both sides of a session -/

/-- The cipher: it encrypts what fits the target, decrypts what it encrypted, and adds
    a tag of 16 bytes. -/
structure Crates.Aead : Prop where
  encrypts : ∀ key nonce p, p.length < 2 ^ 32 → ∃ c, C.encrypt key nonce p = some c
  decrypts : ∀ key nonce p c, C.encrypt key nonce p = some c → C.decrypt key nonce c = some p
  tagSize : C.TagSize

/-- Seal a plaintext for one direction. -/
def SessionCipher.sealEnvelope (cipher : SessionCipher) (direction : Direction) (seq : UInt32)
    (plaintext : Bytes) : Except String Bytes :=
  match C.encrypt cipher.key (buildNonce seq direction) plaintext with
  | none => .error "encryption failed"
  | some ciphertext => .ok (envelope seq ciphertext)

/-- Open an envelope of one direction. -/
def SessionCipher.openEnvelope (cipher : SessionCipher) (direction : Direction) (envelope : Bytes) :
    Except String (UInt32 × Bytes) :=
  if envelope.length < 5 ∨ envelope.head? ≠ some 0x03 then .error "invalid Encrypted envelope"
  else
    let seq := UInt32.ofNat (beNat ((envelope.drop 1).take 4))
    match C.decrypt cipher.key (buildNonce seq direction) (envelope.drop 5) with
    | none => .error "decryption failed (tampered or wrong session)"
    | some plaintext => .ok (seq, plaintext)

theorem SessionCipher.sealEnvelope_client (cipher : SessionCipher) :
    cipher.sealEnvelope C .clientToServer = cipher.sealRequest C := rfl

theorem SessionCipher.openEnvelope_server (cipher : SessionCipher) :
    cipher.openEnvelope C .serverToClient = cipher.openResponse C := rfl

/-- Send a message: the `DataChannel` messages that carry it. -/
def sendMessage (cipher : SessionCipher) (direction : Direction) (seq : UInt32) (tag : UInt8)
    (m : ChunkMessage) : Except String (List Bytes) := do
  let payload ← m.encode
  let env ← cipher.sealEnvelope C direction seq (tag :: payload)
  return splitMessages (encodeFrame env)

/-- Open a frame, check and strip the tag, and decode the message. -/
def openMessage (cipher : SessionCipher) (direction : Direction) (tag : UInt8) (frame : Bytes) :
    Except String (UInt32 × ChunkMessage) := do
  let (seq, plaintext) ← cipher.openEnvelope C direction frame
  if plaintext.head? ≠ some tag then .error "unexpected response protocol tag"
  else
    let m ← ChunkMessage.decode C plaintext.tail
    return (seq, m)

/-- Receive a message from the `DataChannel` messages that have arrived. -/
def recvMessage (cipher : SessionCipher) (direction : Direction) (tag : UInt8) (buf : FrameBuf)
    (msgs : List Bytes) : FrameBuf × List Bytes × Option (Except String (UInt32 × ChunkMessage)) :=
  match buf.recv msgs with
  | (buf, msgs, result) =>
    (buf, msgs, result.map fun frame => frame >>= openMessage C cipher direction tag)

variable {C}

theorem SessionCipher.openEnvelope_envelope (cipher : SessionCipher) {direction : Direction}
    {seq : UInt32} {c p : Bytes} (h : C.decrypt cipher.key (buildNonce seq direction) c = some p) :
    cipher.openEnvelope C direction (envelope seq c) = .ok (seq, p) := by
  have hlen : ¬ ((envelope seq c).length < 5 ∨ (envelope seq c).head? ≠ some 0x03) := by
    simp [envelope]
  have hseq : UInt32.ofNat (beNat (((envelope seq c).drop 1).take 4)) = seq := by
    rw [envelope, List.drop_succ_cons, List.drop_zero, List.take_left' (length_toBe 4 _),
      beNat_toBe_of_lt seq.toNat_lt]
    simp
  have hc : (envelope seq c).drop 5 = c := by
    rw [envelope, List.drop_succ_cons, List.drop_left' (length_toBe 4 _)]
  simp only [SessionCipher.openEnvelope, if_neg hlen, hseq, hc, h]

/-- What a sealed envelope opens to. -/
theorem SessionCipher.openEnvelope_seal (hC : C.Aead) {cipher : SessionCipher}
    {direction : Direction} {seq : UInt32} {p env : Bytes}
    (h : cipher.sealEnvelope C direction seq p = .ok env) :
    cipher.openEnvelope C direction env = .ok (seq, p) ∧ env.length = 5 + p.length + 16 := by
  unfold SessionCipher.sealEnvelope at h
  split at h
  · cases h
  · rename_i c hc
    cases h
    have hlen := hC.tagSize _ _ _ _ hc
    refine ⟨cipher.openEnvelope_envelope (hC.decrypts _ _ _ _ hc), ?_⟩
    simp [envelope, hlen]
    omega

/-- **The layers fit together**: a message within the cap is sealed, framed and cut; its
    bytes, cut in any other way, are reassembled and opened as this message, and nothing
    of them is left. -/
theorem recvMessage_sendMessage (hC : C.Aead) (cipher : SessionCipher) (direction : Direction)
    (seq : UInt32) (tag : UInt8) {m : ChunkMessage} {payload : Bytes}
    (he : m.encode = .ok payload) (hl : payload.length ≤ maxWireMessageSize) :
    ∃ msgs, sendMessage C cipher direction seq tag m = .ok msgs ∧
      ∀ pieces : List Bytes, pieces.flatten = msgs.flatten →
        ∃ buf rest, recvMessage C cipher direction tag .new pieces = (buf, rest, some (.ok (seq, m))) ∧
          buf.buf ++ rest.flatten = [] := by
  cases he
  have hplain : (tag :: m.put).length < 2 ^ 32 := by
    rw [List.length_cons]
    rw [maxWireMessageSize] at hl
    omega
  obtain ⟨c, hc⟩ := hC.encrypts cipher.key (buildNonce seq direction) _ hplain
  have hs : cipher.sealEnvelope C direction seq (tag :: m.put) = .ok (envelope seq c) := by
    simp only [SessionCipher.sealEnvelope, hc]
  obtain ⟨hopen, hlen⟩ := SessionCipher.openEnvelope_seal hC hs
  refine ⟨splitMessages (encodeFrame (envelope seq c)), ?_, ?_⟩
  · show (cipher.sealEnvelope C direction seq (tag :: m.put) >>= _) = _
    rw [hs]
    rfl
  · intro pieces hp
    rw [flatten_splitMessages] at hp
    -- the two caps differ by 64 bytes: one for the tag, 5 for the header, 16 for the cipher
    have hframe : IsFrame (envelope seq c) := by
      rw [IsFrame, hlen, List.length_cons, maxFrameSize]
      omega
    have hwire : [] ++ pieces.flatten = encodeFrame (envelope seq c) ++ [] := by simp [hp]
    obtain ⟨buf, rest, hr, hrest⟩ := FrameBuf.recv_frame hframe hwire
    have hm : openMessage C cipher direction tag (envelope seq c) = .ok (seq, m) := by
      show (cipher.openEnvelope C direction (envelope seq c) >>= _) = _
      rw [hopen]
      show (if (tag :: m.put).head? ≠ some tag then _ else ChunkMessage.decode C m.put >>= _) = _
      rw [if_neg (by simp), ChunkMessage.decode_put C hl]
      rfl
    refine ⟨⟨buf⟩, rest, ?_, hrest⟩
    simp only [recvMessage, FrameBuf.new, hr, Option.map_some, Option.some.injEq, Prod.mk.injEq,
      true_and]
    exact hm

theorem Crates.transparent_aead : Crates.transparent.Aead where
  encrypts _ nonce p _ := ⟨nonce.1 ++ ([0, 0, 0, 0] ++ p), rfl⟩
  decrypts := by
    intro key nonce p c h
    cases h
    have h16 : (nonce.1 ++ [0, 0, 0, 0]).length = 16 := by simp
    simp only [Crates.transparent]
    rw [← List.append_assoc, List.take_left' h16, List.drop_left' h16, if_pos rfl]
  tagSize := transparent_tagSize

/-- A request, byte by byte. -/
theorem recvMessage_sendMessage_request :
    ∃ msgs, sendMessage .transparent ⟨first32 [7]⟩ .clientToServer 1 protoChunk
        ⟨1, .getRequest ⟨first32 [9]⟩⟩ = .ok msgs ∧
      ∃ buf rest, recvMessage .transparent ⟨first32 [7]⟩ .clientToServer protoChunk .new
        (msgs.flatten.map fun b => [b]) = (buf, rest, some (.ok (1, ⟨1, .getRequest ⟨first32 [9]⟩⟩))) ∧
          buf.buf ++ rest.flatten = [] := by
  obtain ⟨msgs, h1, h2⟩ := recvMessage_sendMessage Crates.transparent_aead ⟨first32 [7]⟩
    .clientToServer 1 protoChunk (m := ⟨1, .getRequest ⟨first32 [9]⟩⟩) rfl (by decide)
  refine ⟨msgs, h1, h2 _ ?_⟩
  generalize msgs.flatten = wire
  induction wire with
  | nil => rfl
  | cons b wire ih => simp [ih]

end AntClient
