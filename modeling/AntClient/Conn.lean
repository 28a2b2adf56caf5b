/-
  Connections to nodes (`conn.rs`): the handshake and the requests made over an
  established session.

  What a task may ask of its environment are the requests of `Net`: the transport,
  the key generator, the round trips of a session and the payment callback.  The
  environment answers as it likes; a contract says what a theorem assumes of the
  answers.

  * `Authentic E conn`: among the events `E` there is a handshake that made `conn`
    and in which a node signed the session as `conn.peerId`.
  * `establish_safe`: every connection that is opened is authentic, for the
    expected peer.
-/
import AntClient.Discovery
import AntClient.Tunnel
import AntClient.Lib.Tasks

namespace AntClient

open Async Prog

/-! ## Requests -/

/-- An authenticated session with one node.  Its lock, its sequence counter and
    its reassembly buffer belong to `transport`. -/
structure NodeConnection where
  transport : ℕ
  cipher : SessionCipher
  peerId : XorName

/-- A JavaScript value, as far as the client looks at it. -/
structure JsValue where
  asString : Option String
  /-- `JSON.stringify` -/
  stringify : Option String

/-- What the payment callback does. -/
inductive PayOutcome
  | threw (e : JsValue)
  | rejected (e : JsValue)
  | resolved (v : JsValue)

inductive NetReq
  /-- `Transport::connect(ip, port, fingerprint)` -/
  | transportConnect (ip : String) (port : UInt16) (certHashHex : String)
  /-- `Transport::connect_via_relay` up to the offer -/
  | relayOffer (stun : String)
  /-- `Transport::connect_via_relay` from the answer on -/
  | relayAnswer (pc : ℕ) (answerSdp : String)
  /-- `ml_kem_768::KG::try_keygen` -/
  | keygen
  | sendFrame (transport : ℕ) (payload : Bytes)
  | recvFrame (transport : ℕ)
  /-- a look at the sequence counter -/
  | nextSeq (conn : NodeConnection)
  /-- `round_trip(tag, payload)` -/
  | roundTrip (conn : NodeConnection) (tag : UInt8) (payload : Bytes)
  /-- a call of the payment callback -/
  | pay (recipient calldata : String)

/-- The requests of the client and their answers. -/
abbrev Net : Sig where
  Req := NetReq
  Ans
    | .transportConnect _ _ _ => Except String ℕ
    | .relayOffer _ => Except String (ℕ × String)
    | .relayAnswer _ _ => Except String ℕ
    | .keygen => Except String (Arr mlKem768EkSize × Arr mlKem768DkSize)
    | .sendFrame _ _ => Except String Unit
    | .recvFrame _ => Except String Bytes
    | .nextSeq _ => UInt32
    | .roundTrip _ _ _ => Except String Bytes
    | .pay _ _ => PayOutcome

variable (C : Crates) {σ : Type}

/-! ## Connecting -/

/-- Run the PQC handshake over an open transport and build the session. -/
def establish (transport : ℕ) (expectedPeerId : Option XorName) :
    Prog Net σ (Except String NodeConnection) :=
  .call .keygen fun keys =>
  bindE (.ret (ClientHandshake.start keys)) fun (handshake, hello) =>
  bindE (ask (S := Net) (.sendFrame transport hello)) fun _ =>
  bindE (ask (S := Net) (.recvFrame transport)) fun accept =>
  bindE (.ret (handshake.finish C accept expectedPeerId)) fun established =>
  .ret (.ok ⟨transport, established.cipher, established.peerId⟩)

/-- Connect to `ip:port`, pinning the certificate fingerprint and, if given, the
    node's peer id. -/
def NodeConnection.connect (ip : String) (port : UInt16) (certHashHex : String)
    (expectedPeerId : Option XorName) : Prog Net σ (Except String NodeConnection) :=
  bindE (ask (S := Net) (.transportConnect ip port certHashHex)) fun transport =>
  establish C transport expectedPeerId

/-! ## Requests over a session -/

/-- The request id: a look at the sequence counter. -/
def requestId (conn : NodeConnection) : Prog Net σ UInt64 :=
  .call (.nextSeq conn) fun seq => .ret seq.toUInt64

def NodeConnection.roundTrip (conn : NodeConnection) (tag : UInt8) (payload : Bytes) :
    Prog Net σ (Except String Bytes) := ask (S := Net) (.roundTrip conn tag payload)

/-- Send an already-encoded chunk-protocol message and return the decoded
    response. -/
def NodeConnection.chunkRoundTrip (conn : NodeConnection) (request : ChunkMessage) :
    Prog Net σ (Except String ChunkMessage) :=
  bindE (.ret request.encode) fun payload =>
  bindE (conn.roundTrip protoChunk payload) fun plaintext =>
  .ret (ChunkMessage.decode C plaintext)

/-- The checks of `get_verified` on the response. -/
def checkContent (address : XorName) : ChunkMessageBody → Except String Bytes
  | .getResponse (.success respAddress content) =>
    if respAddress ≠ address then .error "response address mismatch"
    else if C.blake3 content ≠ address then
      .error s!"chunk {hexEncode address.1} failed BLAKE3 verification"
    else .ok content
  | .getResponse (.notFound _) => .error s!"not found: {hexEncode address.1}"
  | .getResponse (.error e) => .error s!"node error: {e.display}"
  | _ => .error "unexpected response type"

/-- One GET round-trip, verifying the content hashes to `address`. -/
def NodeConnection.getVerified (conn : NodeConnection) (address : XorName) :
    Prog Net σ (Except String Bytes) :=
  requestId conn >>= fun id =>
  bindE (.ret (ChunkMessage.encode ⟨id, .getRequest ⟨address⟩⟩)) fun payload =>
  bindE (conn.roundTrip protoChunk payload) fun plaintext =>
  bindE (.ret (ChunkMessage.decode C plaintext)) fun response =>
  .ret (checkContent C address response.body)

/-- Ask this node which peers are closest to `address`. -/
def NodeConnection.closestPeers (conn : NodeConnection) (address : XorName) :
    Prog Net σ (Except String (List PeerConnectInfo)) :=
  requestId conn >>= fun id =>
  bindE (.ret (DiscoveryMessage.encode ⟨id, .closestPeersRequest ⟨address⟩⟩)) fun payload =>
  bindE (conn.roundTrip protoDiscovery payload) fun plaintext =>
  bindE (.ret (DiscoveryMessage.decode C plaintext)) fun response =>
  .ret (match response.body with
    | .closestPeersResponse r => .ok r.peers
    | .error e => .error s!"discovery error: {e}"
    | .closestPeersRequest _ => .error "unexpected discovery response")

/-- Ask this node to relay an ICE offer, returning the target's SDP answer. -/
def NodeConnection.signalRelay (conn : NodeConnection) (targetPeerId : XorName)
    (sdpOffer : String) : Prog Net σ (Except String String) :=
  requestId conn >>= fun id =>
  bindE (.ret (SignalRelayMessage.encode ⟨id, .request ⟨targetPeerId, sdpOffer⟩⟩)) fun payload =>
  bindE (conn.roundTrip protoSignal payload) fun plaintext =>
  bindE (.ret (SignalRelayMessage.decode C plaintext)) fun response =>
  .ret (match response.body with
    | .response r => .ok r.sdpAnswer
    | .error e => .error s!"signal relay error: {e}"
    | .request _ => .error "unexpected signal-relay response")

/-- Connect to a NAT'd target node, relaying SDP through `relay`. -/
def NodeConnection.connectViaRelay (relay : NodeConnection) (stun : String)
    (targetPeerId : XorName) : Prog Net σ (Except String NodeConnection) :=
  bindE (ask (S := Net) (.relayOffer stun)) fun (pc, offerSdp) =>
  bindE (relay.signalRelay C targetPeerId offerSdp) fun answerSdp =>
  bindE (ask (S := Net) (.relayAnswer pc answerSdp)) fun transport =>
  establish C transport (some targetPeerId)

/-! ## Authenticity -/

/-- The requests that opening a connection takes. -/
def NetReq.Opens : NetReq → Prop
  | .transportConnect _ _ _ | .keygen | .sendFrame _ _ | .recvFrame _ => True
  | _ => False

/-- The requests of the handshake over an open transport. -/
def NetReq.Greets : NetReq → Prop
  | .keygen | .sendFrame _ _ | .recvFrame _ => True
  | _ => False

theorem NetReq.Greets.opens {e : NetReq} (h : e.Greets) : e.Opens := by
  cases e with
  | keygen | sendFrame | recvFrame => trivial
  | _ => cases h

/-- Among the events `E` is the handshake that made the connection: its session
    key comes from a frame in which the node `conn.peerId` signed the transcript
    with a key generated for it. -/
def Authentic (E : Ev Net → Prop) (conn : NodeConnection) : Prop :=
  ∃ ek dk frame a ss, E ⟨.keygen, .ok (ek, dk)⟩ ∧ E ⟨.recvFrame conn.transport, .ok frame⟩ ∧
    ServerAccept.ofFrame frame = .ok a ∧ a.Authenticates C ek conn.peerId ∧
    C.mlKemDecaps dk a.ct = some ss ∧ conn.cipher = .fromSharedSecret C ss

theorem Authentic.mono {E E' : Ev Net → Prop} (hE : ∀ ev, E ev → E' ev) {conn : NodeConnection}
    (h : Authentic C E conn) : Authentic C E' conn := by
  obtain ⟨ek, dk, frame, a, ss, h1, h2, h3⟩ := h
  exact ⟨ek, dk, frame, a, ss, hE _ h1, hE _ h2, h3⟩

variable {K : Contract Net σ} {E : Ev Net → Prop}

/-- **The handshake**: a connection that is opened is authentic, for the expected
    peer. -/
theorem establish_greets (ha : ∀ e, e.Greets → K.asks e) (hg : ∀ e r, K.gets e r → E ⟨e, r⟩)
    {transport : ℕ} {expected : Option XorName} :
    (establish C transport expected).Safe K (Safe.IfOk fun conn =>
      Authentic C E conn ∧ ∀ p, expected = some p → conn.peerId = p) := by
  refine ⟨ha _ trivial, fun keys hkeys => ?_⟩
  cases keys with
  | error e => exact Safe.ret_error
  | ok keys =>
    obtain ⟨ek, dk⟩ := keys
    refine ⟨ha _ trivial, fun sent _ => ?_⟩
    cases sent with
    | error e => exact Safe.ret_error
    | ok =>
      refine ⟨ha _ trivial, fun accept haccept => ?_⟩
      cases accept with
      | error e => exact Safe.ret_error
      | ok accept =>
        show (bindE (.ret (ClientHandshake.finish C ⟨dk, ek⟩ accept expected)) _).Safe K _
        cases hf : ClientHandshake.finish C ⟨dk, ek⟩ accept expected with
        | error e => exact Safe.ret_error
        | ok est =>
          obtain ⟨a, h1, h2, h3, ss, h4, h5⟩ := ClientHandshake.finish_ok C hf
          exact Safe.ret_ok ⟨⟨ek, dk, accept, a, ss, hg _ _ hkeys, hg _ _ haccept, h1, h2, h4, h5⟩, h3⟩

theorem establish_safe (ha : ∀ e, e.Opens → K.asks e) (hg : ∀ e r, K.gets e r → E ⟨e, r⟩)
    {transport : ℕ} {expected : Option XorName} :
    (establish C transport expected).Safe K (Safe.IfOk fun conn =>
      Authentic C E conn ∧ ∀ p, expected = some p → conn.peerId = p) :=
  establish_greets C (fun e he => ha e he.opens) hg

theorem connect_safe (ha : ∀ e, e.Opens → K.asks e) (hg : ∀ e r, K.gets e r → E ⟨e, r⟩)
    {ip : String} {port : UInt16} {certHashHex : String} {expected : Option XorName} :
    (NodeConnection.connect C ip port certHashHex expected).Safe K (Safe.IfOk fun conn =>
      Authentic C E conn ∧ ∀ p, expected = some p → conn.peerId = p) := by
  refine ⟨ha _ trivial, fun t _ => ?_⟩
  cases t with
  | error e => exact Safe.ret_error
  | ok t => exact establish_safe C ha hg

/-! ## Requests over a session, safely -/

/-- The requests made over the session `conn`. -/
def NetReq.Uses (conn : NodeConnection) : NetReq → Prop
  | .nextSeq c | .roundTrip c _ _ => c = conn
  | _ => False

/-- In the event, a node answered a chunk request with `content`. -/
def Delivers (content : Bytes) (ev : Ev Net) : Prop :=
  ∃ conn payload plaintext id address,
    ev = ⟨.roundTrip conn protoChunk payload, .ok plaintext⟩ ∧
      ChunkMessage.decode C plaintext = .ok ⟨id, .getResponse (.success address content)⟩

theorem checkContent_ok {address : XorName} {body : ChunkMessageBody} {content : Bytes}
    (h : checkContent C address body = .ok content) :
    body = .getResponse (.success address content) ∧ C.blake3 content = address := by
  unfold checkContent at h
  split at h
  · split_ifs at h with h1 h2
    rw [not_not] at h1 h2
    cases h
    exact ⟨h1 ▸ rfl, h2⟩
  all_goals cases h

variable {conn : NodeConnection}

/-- **A fetched chunk** was delivered by a node and hashes to the address. -/
theorem getVerified_safe (ha : ∀ e, e.Uses conn → K.asks e) (hg : ∀ e r, K.gets e r → E ⟨e, r⟩)
    (address : XorName) :
    (conn.getVerified C address).Safe K (Safe.IfOk fun content =>
      C.blake3 content = address ∧ ∃ ev, E ev ∧ Delivers C content ev) := by
  refine ⟨ha _ rfl, fun seq _ => ⟨ha _ rfl, fun plaintext hp => ?_⟩⟩
  cases plaintext with
  | error e => exact Safe.ret_error
  | ok plaintext =>
    show (bindE (.ret (ChunkMessage.decode C plaintext)) _).Safe K _
    cases hd : ChunkMessage.decode C plaintext with
    | error e => exact Safe.ret_error
    | ok response =>
      obtain ⟨id, body⟩ := response
      intro content hc
      obtain ⟨rfl, hh⟩ := checkContent_ok C hc
      exact ⟨hh, _, hg _ _ hp, conn, _, plaintext, id, address, rfl, hd⟩

theorem closestPeers_safe (ha : ∀ e, e.Uses conn → K.asks e) (address : XorName) :
    (conn.closestPeers C address).Safe K fun _ => True := by
  refine ⟨ha _ rfl, fun seq _ => ⟨ha _ rfl, fun plaintext _ => ?_⟩⟩
  cases plaintext with
  | error e => trivial
  | ok plaintext =>
    show (bindE (.ret (DiscoveryMessage.decode C plaintext)) _).Safe K _
    cases DiscoveryMessage.decode C plaintext <;> trivial

end AntClient
