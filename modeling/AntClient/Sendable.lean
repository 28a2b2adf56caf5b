/-
  Can the PUT be sent?  A mirrored receiver bounds frames and messages; nothing on the
  sending side looks at these bounds before the payment.

  * `putSize`: the size of the PUT message, from the sizes of what goes into it.
  * `put_sendable_iff`: in every run, a PUT is accepted by a mirrored receiver if and
    only if this size is within the bound.
  * `put_sendable`: it is, for a chunk of at most 4 MiB, if the sidecars have at most
    450000 bytes in all.
-/
import AntClient.Framing
import AntClient.PaidProof
import AntClient.Tunnel

namespace AntClient

open Async Prog Bytes MsgPack

variable (C : Crates)

/-! ## Sizes -/

/-- The number of bytes of a proof. -/
def proofSize (peerQuotes : List (XorName × Quote)) (sidecars : List Bytes) : ℕ :=
  38 + headerSize peerQuotes.length + peerQuotesSize peerQuotes + headerSize sidecars.length +
    sidecarsSize sidecars

/-- The number of bytes of a byte string with its length. -/
def stringSize (n : ℕ) : ℕ := (Postcard.uint 32 n).length + n

/-- The number of bytes of a PUT message. -/
def putSize (contentLength : ℕ) (peerQuotes : List (XorName × Quote)) (sidecars : List Bytes) : ℕ :=
  35 + stringSize contentLength + stringSize (proofSize peerQuotes sidecars)

theorem length_putRequest (address : XorName) (content proofBytes : Bytes) :
    (putRequest address content proofBytes).put.length =
      35 + stringSize content.length + stringSize proofBytes.length := by
  have h1 : (Postcard.u64 1).length = 1 := rfl
  have h2 : (Postcard.variant 0).length = 1 := rfl
  simp only [putRequest, ChunkMessage.put, ChunkMessageBody.put, ChunkPutRequest.put, Postcard.bytes,
    Postcard.option, List.length_append, List.length_cons, address.2, h1, h2, stringSize]
  omega

/-! ## The receiver -/

/-- A mirrored receiver accepts a message: its frame buffer yields every envelope that
    carries it, and it decodes. -/
def MirrorAccepts (payload : Bytes) : Prop :=
  (∀ (cipher : SessionCipher) seq env, cipher.sealRequest C seq (protoChunk :: payload) = .ok env →
    ∃ buf msgs, FrameBuf.recv .new (splitMessages (encodeFrame env)) = (buf, msgs, some (.ok env))) ∧
  ∃ m, ChunkMessage.decode C payload = .ok m

/-- Every PUT in the events is one that a mirrored receiver accepts. -/
def PutsSendable (tr : List (Ev Net)) : Prop :=
  ∀ ev ∈ tr, Puts ev → ∀ conn payload, ev.req = .roundTrip conn protoChunk payload →
    payload.length ≤ maxWireMessageSize ∧ MirrorAccepts C payload

/-- The tag of the cipher has 16 bytes. -/
def Crates.TagSize : Prop := ∀ key nonce p c, C.encrypt key nonce p = some c → c.length = p.length + 16

variable {C}

theorem sealRequest_isFrame (hC : C.TagSize) {cipher : SessionCipher} {seq : UInt32}
    {payload env : Bytes} (hl : payload.length ≤ maxWireMessageSize)
    (h : cipher.sealRequest C seq (protoChunk :: payload) = .ok env) : IsFrame env := by
  obtain ⟨c, hc, rfl⟩ := SessionCipher.sealRequest_ok C h
  have hlen := hC _ _ _ _ hc
  rw [List.length_cons] at hlen
  rw [IsFrame, envelope, List.length_cons, List.length_append, length_toBe, maxFrameSize]
  omega

/-- Up to the bound a message is accepted, above it is not. -/
theorem mirrorAccepts_iff (hC : C.TagSize) {m : ChunkMessage} :
    MirrorAccepts C m.put ↔ m.put.length ≤ maxWireMessageSize := by
  constructor
  · rintro ⟨-, m', hm⟩
    by_contra hl
    rw [ChunkMessage.decode_of_large C (not_le.1 hl)] at hm
    cases hm
  · refine fun hl => ⟨fun cipher seq env h => ?_, m, ChunkMessage.decode_put C hl⟩
    have hframe := sealRequest_isFrame hC hl h
    have hwire : [] ++ (splitMessages (encodeFrame env)).flatten = encodeFrame env ++ [] := by
      rw [flatten_splitMessages, List.nil_append, List.append_nil]
    obtain ⟨buf, msgs, hrecv, -⟩ := FrameBuf.recv_frame hframe hwire
    exact ⟨⟨buf⟩, msgs, hrecv⟩

/-! ## Every run -/

section
variable {self : WasmClient} {address : XorName} {content : Bytes} {token vault : Arr 20}
  {tr A : List (Ev Net)} {peers : List PeerConnectInfo} {qs : List (QuotedPeer × Bool)}
  {payments : List DataPayment} {r₂ : PayOutcome} {txHash : Arr 32} {proofBytes : Bytes} {ev : Ev Net}

theorem Sends.length_put
    (h : Sends C self address content token vault tr peers qs A payments r₂ txHash proofBytes) :
    (putRequest address content proofBytes).put.length =
      putSize content.length (qs.map fun q => (q.1.peerId, q.1.quote))
        (qs.filterMap fun q => q.1.commitment) := by
  have hproof := h.proof
  rw [List.map_map, List.filterMap_map] at hproof
  rw [length_putRequest, length_serializeSingleNodeProof hproof]
  rfl

/-- The PUTs of a run all carry one message. -/
theorem Sends.putsSendable_iff (hC : C.TagSize)
    (h : Sends C self address content token vault tr peers qs A payments r₂ txHash proofBytes)
    (hmem : ev ∈ tr) (hev : Puts ev) : PutsSendable C tr ↔
      (putRequest address content proofBytes).put.length ≤ maxWireMessageSize := by
  constructor
  · intro hs
    obtain ⟨pre, post, rfl⟩ := List.append_of_mem hmem
    obtain ⟨-, conn, hreq⟩ := h.split_put rfl hev
    exact (hs ev hmem hev conn _ hreq).1
  · intro hl e he hputs conn payload hreq
    obtain ⟨pre, post, rfl⟩ := List.append_of_mem he
    obtain ⟨-, conn', hreq'⟩ := h.split_put rfl hputs
    cases hreq.symm.trans hreq'
    exact ⟨hl, (mirrorAccepts_iff hC).2 hl⟩

/-- **Sendable PUTs**: in every run that sends a PUT, the PUTs are accepted by a
    mirrored receiver if and only if the size that follows from the chunk, the quotes and
    the sidecars is within the bound. -/
theorem put_sendable_iff (hC : C.TagSize) {I : Cells → Cells → Prop} {s s' : Cells}
    {o : Option (Except String Unit)}
    (h : Run I (self.storeOne C address content token vault) s tr o s') (hmem : ev ∈ tr)
    (hev : Puts ev) :
    (∃ peers qs A payments r₂ txHash proofBytes,
      Sends C self address content token vault tr peers qs A payments r₂ txHash proofBytes) ∧
    ∀ peers qs A payments r₂ txHash proofBytes,
      Sends C self address content token vault tr peers qs A payments r₂ txHash proofBytes →
      (PutsSendable C tr ↔ putSize content.length (qs.map fun q => (q.1.peerId, q.1.quote))
        (qs.filterMap fun q => q.1.commitment) ≤ maxWireMessageSize) := by
  refine ⟨storeOne_sends h hmem hev, fun peers qs A payments r₂ txHash proofBytes hs => ?_⟩
  rw [← hs.length_put, hs.putsSendable_iff hC hmem hev]

end

/-! ## Small and large sidecars -/

theorem sidecarsSize_le (sidecars : List Bytes) :
    sidecarsSize sidecars ≤ 5 * sidecars.length + 2 * (sidecars.map List.length).sum := by
  induction sidecars with
  | nil => exact Nat.zero_le _
  | cons b sidecars ih =>
    have hb := seqSize_le b
    simp only [sidecarsSize, List.map_cons, List.sum_cons, List.length_cons] at ih ⊢
    omega

theorem peerQuotesSize_le {peerQuotes : List (XorName × Quote)}
    (h : ∀ x ∈ peerQuotes, verifyQuote C x.2 = true) :
    peerQuotesSize peerQuotes ≤ 16454 * peerQuotes.length := by
  induction peerQuotes with
  | nil => exact Nat.zero_le _
  | cons x peerQuotes ih =>
    obtain ⟨hx, hrest⟩ := List.forall_mem_cons.1 h
    have hid := seqSize_le x.1.1
    have hq := Quote.size_le C hx
    have hih := ih hrest
    rw [x.1.2] at hid
    simp only [peerQuotesSize, List.map_cons, List.sum_cons, List.length_cons] at hih ⊢
    omega

theorem stringSize_le (n : ℕ) : stringSize n ≤ n + 5 := by
  have h : (Postcard.uint 32 n).length ≤ 5 := Postcard.length_varint_le 5 n
  rw [stringSize]
  omega

/-- Verified quotes and small sidecars fit. -/
theorem putSize_le {contentLength : ℕ} (hc : contentLength ≤ 2 ^ 22)
    {peerQuotes : List (XorName × Quote)} (hq : ∀ x ∈ peerQuotes, verifyQuote C x.2 = true)
    (hl : peerQuotes.length = closeGroupSize) {sidecars : List Bytes}
    (hs : sidecars.length ≤ closeGroupSize) (htotal : (sidecars.map List.length).sum ≤ 450000) :
    putSize contentLength peerQuotes sidecars ≤ maxWireMessageSize := by
  have h1 := stringSize_le contentLength
  have h2 := stringSize_le (proofSize peerQuotes sidecars)
  have h3 := peerQuotesSize_le hq
  have h4 := sidecarsSize_le sidecars
  have h5 := headerSize_le peerQuotes.length
  have h6 := headerSize_le sidecars.length
  rw [closeGroupSize] at hl hs
  rw [hl] at h3
  rw [proofSize] at h2
  rw [putSize, maxWireMessageSize, proofSize]
  omega

section
variable {self : WasmClient} {address : XorName} {content : Bytes} {token vault : Arr 20}
  {I : Cells → Cells → Prop} {s s' : Cells} {tr A : List (Ev Net)} {o : Option (Except String Unit)}
  {peers : List PeerConnectInfo} {qs : List (QuotedPeer × Bool)}
  {payments : List DataPayment} {r₂ : PayOutcome} {txHash : Arr 32} {proofBytes : Bytes}

/-- For a chunk of at most 4 MiB and sidecars of at most 450000 bytes in all, the PUTs
    can be sent. -/
theorem put_sendable (hC : C.TagSize) (hc : content.length ≤ 2 ^ 22)
    (h : Sends C self address content token vault tr peers qs A payments r₂ txHash proofBytes)
    (htotal : ((qs.filterMap fun q => q.1.commitment).map List.length).sum ≤ 450000) :
    PutsSendable C tr := by
  intro ev hmem hev
  obtain ⟨hlen, hgood⟩ := h.collected.good
  have hq : ∀ x ∈ qs.map fun q => (q.1.peerId, q.1.quote), verifyQuote C x.2 = true := by
    intro x hx
    obtain ⟨q, hq, rfl⟩ := List.mem_map.1 hx
    obtain ⟨peer, -, -, -, -, hv⟩ := exists_of_mem_right hgood q.1 (List.mem_map_of_mem hq)
    exact hv
  have hs : (qs.filterMap fun q => q.1.commitment).length ≤ closeGroupSize :=
    (List.length_filterMap_le _ _).trans hlen.le
  have hle := putSize_le hc hq (by rw [List.length_map, hlen]) hs htotal
  rw [← h.length_put, ← h.putsSendable_iff hC hmem hev] at hle
  exact hle ev hmem hev

end

theorem Crates.transparent_tagSize : Crates.transparent.TagSize := by
  rintro key nonce p c ⟨⟩
  simp only [List.length_append, nonce.2, List.length_cons, List.length_nil]
  omega

/-- The PUT of a run whose nodes send no sidecars. -/
theorem put_sendable_iff_sevenNodes : ∃ peers qs A payments r₂ txHash proofBytes,
    Sends .transparent honestClient (zeros 32) [] (zeros 20) (zeros 20) (quotingRun none).1 peers qs
      A payments r₂ txHash proofBytes ∧
    (PutsSendable .transparent (quotingRun none).1 ↔
      putSize 0 (qs.map fun q => (q.1.peerId, q.1.quote)) (qs.filterMap fun q => q.1.commitment) ≤
        maxWireMessageSize) := by
  obtain ⟨pre, quoted, payments, r₁, r₂, proofBytes, conn, answer, post, -, -, htr⟩ :=
    quotingRun_paid none nofun
  have hrun := quotingRun_run (I := Any Cells) (fun _ => trivial) none
  have hmem : (⟨.roundTrip conn protoChunk (putRequest (zeros 32) [] proofBytes).put, answer⟩ :
      Ev Net) ∈ (quotingRun none).1 := by rw [htr]; simp
  obtain ⟨⟨peers, qs, A, payments, r₂, txHash, proofBytes, hs⟩, hiff⟩ :=
    put_sendable_iff Crates.transparent_tagSize hrun hmem ⟨conn, _, _, rfl⟩
  exact ⟨peers, qs, A, payments, r₂, txHash, proofBytes, hs, hiff _ _ _ _ _ _ _ hs⟩

/-! ### Large sidecars -/

/-- A sidecar of bytes that take two bytes each in the proof. -/
@[irreducible] def largeSidecar : Bytes := List.replicate 400000 0xff

theorem length_largeSidecar : largeSidecar.length = 400000 := by
  unfold largeSidecar
  exact List.length_replicate

theorem seqSize_largeSidecar : 800000 ≤ seqSize largeSidecar := by
  have h : highBytes largeSidecar = 400000 := by
    unfold largeSidecar
    exact (highBytes_replicate _ _).trans (if_pos (by simp))
  rw [seqSize, h, length_largeSidecar]
  omega

theorem sidecars_of_gives {N : QuotingNodes} {address : XorName} {peers : List PeerConnectInfo}
    {quoted : List QuotedPeer} (h : List.Forall₂ (N.Gives address) peers quoted) {b : Bytes}
    (hb : N.commitment = some b) :
    quoted.filterMap QuotedPeer.commitment = List.replicate peers.length b := by
  induction h with
  | nil => rfl
  | cons hq _ ih =>
    rw [List.filterMap_cons_some (hq.2.2.2.trans hb), ih]
    rfl

theorem sidecarsSize_replicate (n : ℕ) (b : Bytes) :
    sidecarsSize (List.replicate n b) = n * seqSize b := by
  rw [sidecarsSize, List.map_replicate, List.sum_replicate, smul_eq_mul]

/-- **Seven large sidecars**: the client pays, and cannot send the PUT. -/
theorem largeSidecars_fail :
    ¬ ∀ (content : Bytes) (s : Cells) (tr : List (Ev Net)) (o : Option (Except String Unit)) (s' : Cells),
      content.length ≤ 2 ^ 22 →
      Run (Any Cells) (honestClient.storeOne .transparent (zeros 32) content (zeros 20) (zeros 20)) s
        tr o s' → PutsSendable .transparent tr := by
  intro hclaim
  have hrun := quotingRun_run (I := Any Cells) (fun _ => trivial) (some largeSidecar)
  obtain ⟨pre, quoted, payments, r₁, r₂, proofBytes, conn, answer, post, hquoted, hproof, htr⟩ :=
    quotingRun_paid (some largeSidecar) (by rintro b ⟨⟩; rw [length_largeSidecar]; decide)
  have hmem : (⟨.roundTrip conn protoChunk (putRequest (zeros 32) [] proofBytes).put, answer⟩ :
      Ev Net) ∈ (quotingRun (some largeSidecar)).1 := by rw [htr]; simp
  obtain ⟨hle, -⟩ := hclaim [] _ _ _ _ (by simp) hrun _ hmem ⟨conn, _, _, rfl⟩ _ _ rfl
  rw [sidecars_of_gives hquoted rfl] at hproof
  have hsum := sidecarsSize_replicate (peersOf sevenNodes).length largeSidecar
  have hseven : (peersOf sevenNodes).length = 7 := rfl
  have hlen := length_serializeSingleNodeProof hproof
  have hbig := seqSize_largeSidecar
  rw [hsum, hseven] at hlen
  rw [length_putRequest, stringSize, stringSize, maxWireMessageSize] at hle
  omega

end AntClient
