/-
  Whom the client contacts, and what for (`lib.rs`, `conn.rs`).

  * `Confined`: the requests that the answers so far give reason for.
  * `perform_confined`: every call of the client keeps to them.
  * `requests_confined`: in every interleaving, peers are dialled where the bootstrap node
    said they are, and asked for chunks that it named them for.
-/
import AntClient.Fetch
import AntClient.Pool

namespace AntClient

open Async Prog Bytes

variable {DataMap : Type} (S : SelfEncryption DataMap) (C : Crates)

/-! ## Requests with a reason -/

section
variable (bootstrap : NodeConnection) (E : Ev Net → Prop)

/-- The bootstrap node has named the peer as one responsible for the address. -/
def Named (address : XorName) (peer : PeerConnectInfo) : Prop :=
  ∃ id answer peers, E ⟨.roundTrip bootstrap protoDiscovery
      (DiscoveryMessage.put ⟨id, .closestPeersRequest ⟨address⟩⟩), answer⟩ ∧
    peersResult C answer = .ok peers ∧ peer ∈ peers

/-- The bootstrap node has relayed an offer of the browser to the target, and the answer of
    the target is `sdpAnswer`. -/
def Relayed (target : XorName) (pc : ℕ) (sdpAnswer : String) : Prop :=
  ∃ stun offer id plaintext id', E ⟨.relayOffer stun, .ok (pc, offer)⟩ ∧
    E ⟨.roundTrip bootstrap protoSignal (SignalRelayMessage.put ⟨id, .request ⟨target, offer⟩⟩),
      .ok plaintext⟩ ∧
    SignalRelayMessage.decode C plaintext = .ok ⟨id', .response ⟨sdpAnswer⟩⟩

/-- An id of a request over the connection: a number that its counter had, or 1. -/
def RequestId (conn : NodeConnection) (id : UInt64) : Prop :=
  id = 1 ∨ ∃ seq : UInt32, E ⟨.nextSeq conn, seq⟩ ∧ id = seq.toUInt64

/-- The transport has been opened. -/
def Opened (transport : ℕ) : Prop :=
  (∃ ip port certHashHex, E ⟨.transportConnect ip port certHashHex, .ok transport⟩) ∨
    ∃ pc sdpAnswer, E ⟨.relayAnswer pc sdpAnswer, .ok transport⟩

/-- The requests of a handshake over a transport that has been opened, whose hello carries a
    key that was generated. -/
inductive Greeting : NetReq → Prop
  | keygen : Greeting .keygen
  | hello {transport ek dk} : Opened E transport → E ⟨.keygen, .ok (ek, dk)⟩ →
      Greeting (.sendFrame transport (0x01 :: toBe 2 pqcVersion ++ ek.1))
  | accept {transport} : Opened E transport → Greeting (.recvFrame transport)

/-- The chunk that a request is about. -/
def ChunkMessageBody.asksFor : ChunkMessageBody → Option XorName
  | .getRequest r => some r.address
  | .putRequest r => some r.address
  | .quoteRequest r => some r.address
  | _ => none

/-- The requests of a connected client that the answers in `E` give reason for. -/
inductive Confined : NetReq → Prop
  /-- a peer is dialled where the bootstrap node says it is, and pinned -/
  | dial {address peer} : Named C bootstrap E address peer →
      Confined (.transportConnect peer.ip peer.port (hexEncode peer.certHash.1))
  | greet {e} : Greeting E e → Confined e
  | counter {conn} : Confined (.nextSeq conn)
  /-- discovery asks the bootstrap node -/
  | discover {id address} : RequestId E bootstrap id → Confined (.roundTrip bootstrap protoDiscovery
      (DiscoveryMessage.put ⟨id, .closestPeersRequest ⟨address⟩⟩))
  | offer {stun} : Confined (.relayOffer stun)
  /-- the bootstrap node relays an offer of the browser -/
  | signal {id target stun pc offer} : RequestId E bootstrap id →
      E ⟨.relayOffer stun, .ok (pc, offer)⟩ → Confined (.roundTrip bootstrap protoSignal
        (SignalRelayMessage.put ⟨id, .request ⟨target, offer⟩⟩))
  | answer {target pc sdpAnswer} : Relayed C bootstrap E target pc sdpAnswer →
      Confined (.relayAnswer pc sdpAnswer)
  /-- a peer is asked for chunks that it was named for -/
  | chunk {conn id body address peer} : RequestId E conn id → body.asksFor = some address →
      Named C bootstrap E address peer → conn.peerId = peer.peerId →
      Confined (.roundTrip conn protoChunk (ChunkMessage.put ⟨id, body⟩))
  /-- the target of a relayed connection may be asked for any chunk -/
  | relayed {conn id address pc sdpAnswer} : RequestId E conn id →
      Relayed C bootstrap E conn.peerId pc sdpAnswer →
      Confined (.roundTrip conn protoChunk (ChunkMessage.put ⟨id, .getRequest ⟨address⟩⟩))
  | pay {recipient calldata} : Confined (.pay recipient calldata)

/-- A connection of the client: that of the bootstrap node, or of a peer that it named. -/
def Known (conn : NodeConnection) : Prop :=
  conn = bootstrap ∨ ∃ address peer, Named C bootstrap E address peer ∧ conn.peerId = peer.peerId

/-- Tasks keep to requests with a reason, and to known connections in the pool. -/
def confinement : Contract Net Cells where
  inv := Cells.Keyed (Known C bootstrap E)
  asks := Confined C bootstrap E
  gets e r := E ⟨e, r⟩

end

/-! ## Every call keeps to them -/

section
variable {S C} {client : WasmClient} {E : Ev Net → Prop} {address : XorName}

theorem establish_greeting {σ : Type} {K : Contract Net σ} (ha : ∀ e, Greeting E e → K.asks e)
    (hg : ∀ e r, K.gets e r → E ⟨e, r⟩) {transport : ℕ} (ht : Opened E transport)
    (expected : Option XorName) : (establish C transport expected).Safe K
      (Safe.IfOk fun conn => ∀ p, expected = some p → conn.peerId = p) := by
  refine ⟨ha _ .keygen, fun keys hkeys => ?_⟩
  cases keys with
  | error e => exact Safe.ret_error
  | ok keys =>
    refine ⟨ha _ (.hello ht (hg _ _ hkeys)), fun sent _ => ?_⟩
    cases sent with
    | error e => exact Safe.ret_error
    | ok =>
      refine ⟨ha _ (.accept ht), fun accept _ => ?_⟩
      cases accept with
      | error e => exact Safe.ret_error
      | ok accept =>
        show (bindE (.ret (ClientHandshake.finish C ⟨keys.2, keys.1⟩ accept expected)) _).Safe K _
        cases hf : ClientHandshake.finish C ⟨keys.2, keys.1⟩ accept expected with
        | error e => exact Safe.ret_error
        | ok est =>
          obtain ⟨a, -, -, hpin, -⟩ := ClientHandshake.finish_ok C hf
          exact Safe.ret_ok hpin

theorem closestPeers_confined (address : XorName) :
    (client.bootstrap.closestPeers C address).Safe (confinement C client.bootstrap E)
      (Safe.IfOk fun peers => ∀ peer ∈ peers, Named C client.bootstrap E address peer) := by
  rw [closestPeers_eq]
  refine ⟨.counter, fun seq hseq => ⟨.discover (Or.inr ⟨seq, hseq, rfl⟩), fun answer hanswer => ?_⟩⟩
  intro peers hpeers peer hm
  exact ⟨_, answer, peers, hanswer, hpeers, hm⟩

/-- What is returned for a peer is a connection of the peer. -/
theorem connectionFor_confined {peer : PeerConnectInfo}
    (h : Named C client.bootstrap E address peer) :
    (connectionFor C peer).Safe (confinement C client.bootstrap E)
      (Safe.IfOk fun conn => conn.peerId = peer.peerId) := by
  intro cells hcells
  refine ⟨hcells, ?_⟩
  dsimp only
  split
  · rename_i conn hp
    exact Safe.ret_ok (hcells _ _ hp).1
  · have hopen : (NodeConnection.connect C peer.ip peer.port (hexEncode peer.certHash.1)
        (some peer.peerId)).Safe (confinement C client.bootstrap E)
        (Safe.IfOk fun conn => conn.peerId = peer.peerId) := by
      refine ⟨.dial h, fun t ht => ?_⟩
      cases t with
      | error e => exact Safe.ret_error
      | ok t =>
        refine (establish_greeting (E := E) (fun _ => Confined.greet) (fun _ _ h => h)
          (Or.inl ⟨_, _, _, ht⟩) _).mono fun r hr conn hc => hr conn hc _ rfl
    exact hopen.bindE_ok fun conn hconn cells' hcells' =>
      ⟨hcells'.putConn hconn (Or.inr ⟨address, peer, h, hconn⟩), Safe.ret_ok hconn⟩

theorem getVerified_confined {conn : NodeConnection}
    (h : ∀ id, RequestId E conn id → Confined C client.bootstrap E
      (.roundTrip conn protoChunk (ChunkMessage.put ⟨id, .getRequest ⟨address⟩⟩))) :
    (conn.getVerified C address).Safe (confinement C client.bootstrap E) fun _ => True := by
  rw [getVerified_eq]
  exact ⟨.counter, fun seq hseq => ⟨h _ (Or.inr ⟨seq, hseq, rfl⟩), fun _ _ => trivial⟩⟩

theorem getFrom_confined {peers : List PeerConnectInfo}
    (h : ∀ peer ∈ peers, Named C client.bootstrap E address peer) (lastErr : String) :
    (getFrom C address peers lastErr).Safe (confinement C client.bootstrap E) fun _ => True := by
  induction peers generalizing lastErr with
  | nil => trivial
  | cons peer peers ih =>
    obtain ⟨hpeer, hpeers⟩ := List.forall_mem_cons.1 h
    refine (connectionFor_confined hpeer).bind fun conn hconn => ?_
    cases conn with
    | error e => exact ih hpeers e
    | ok conn =>
      refine (getVerified_confined fun id hid =>
        .chunk hid rfl hpeer (hconn conn rfl)).bind fun content _ => ?_
      cases content with
      | error e => exact ih hpeers e
      | ok content => trivial

theorem getDirect_confined (address : XorName) :
    (client.getDirect C address).Safe (confinement C client.bootstrap E) fun _ => True := by
  refine (closestPeers_confined address).bindE (fun peers hpeers => ?_) fun _ _ => trivial
  split
  · trivial
  · exact getFrom_confined (hpeers peers rfl) ""

/-! ### Downloads and relayed fetches -/

theorem download_confined (addressHex : String) :
    (client.download S C addressHex).Safe (confinement C client.bootstrap E) fun _ => True := by
  unfold WasmClient.download
  cases parseAddress C addressHex with
  | error e => trivial
  | ok address =>
    have hfrom : (downloadFrom S address).Safe
        ⟨Cells.Keyed (Known C client.bootstrap E), fun _ => True, fun _ _ => True⟩ fun _ => True :=
      Safe.of_accesses (fun f hf s hs => Cells.Keyed.of_pool_eq hs (hf s)) (fun _ => trivial)
        (downloadFrom_accesses address)
    have hinv : Cells.Keyed (Known C client.bootstrap E) =
        (confinement C client.bootstrap E).inv := rfl
    refine Safe.handle hinv hfrom fun e _ => ?_
    cases e with
    | one a => exact getDirect_confined a
    | all as =>
      refine (Safe.joined (Q := fun _ _ => True) fun a _ => ?_).mono fun _ _ => trivial
      exact getDirect_confined a

/-- The answer that comes back is the target's, relayed for this offer. -/
theorem signalRelay_confined {stun offer : String} {pc : ℕ} (target : XorName)
    (h : E ⟨.relayOffer stun, .ok (pc, offer)⟩) :
    (client.bootstrap.signalRelay C target offer).Safe (confinement C client.bootstrap E)
      (Safe.IfOk fun sdpAnswer => Relayed C client.bootstrap E target pc sdpAnswer) := by
  refine ⟨.counter, fun seq hseq => ⟨.signal (Or.inr ⟨seq, hseq, rfl⟩) h, fun answer hanswer => ?_⟩⟩
  cases answer with
  | error e => exact Safe.ret_error
  | ok plaintext =>
    show (bindE (.ret (SignalRelayMessage.decode C plaintext)) _).Safe _ _
    cases hd : SignalRelayMessage.decode C plaintext with
    | error e => exact Safe.ret_error
    | ok response =>
      obtain ⟨id', body⟩ := response
      rintro sdpAnswer hs
      cases body with
      | response r =>
        cases hs
        exact ⟨stun, offer, _, plaintext, id', h, hanswer, hd⟩
      | request | error => cases hs

theorem relayedFetch_confined (targetPeerIdHex stunAddr addressHex : String) :
    (client.relayedFetch C targetPeerIdHex stunAddr addressHex).Safe
      (confinement C client.bootstrap E) fun _ => True := by
  unfold WasmClient.relayedFetch
  cases parseAddress C targetPeerIdHex with
  | error e => trivial
  | ok target =>
    cases parseAddress C addressHex with
    | error e => trivial
    | ok address =>
      have hopen : (client.bootstrap.connectViaRelay C stunAddr target).Safe
          (confinement C client.bootstrap E) (Safe.IfOk fun conn => ∃ pc sdpAnswer,
            Relayed C client.bootstrap E conn.peerId pc sdpAnswer) := by
        refine ⟨.offer, fun offer hoffer => ?_⟩
        cases offer with
        | error e => exact Safe.ret_error
        | ok offer =>
          refine (signalRelay_confined target hoffer).bindE_ok fun sdpAnswer hrelayed =>
            ⟨.answer hrelayed, fun t ht => ?_⟩
          cases t with
          | error e => exact Safe.ret_error
          | ok t =>
            refine (establish_greeting (E := E) (fun _ => Confined.greet) (fun _ _ h => h)
              (Or.inr ⟨_, _, ht⟩) _).mono fun r hr conn hc => ⟨offer.1, sdpAnswer, ?_⟩
            rw [hr conn hc target rfl]
            exact hrelayed
      refine hopen.bindE (fun conn hconn => ?_) fun _ _ => trivial
      obtain ⟨pc, sdpAnswer, hrelayed⟩ := hconn conn rfl
      exact (getVerified_confined fun id hid => .relayed hid hrelayed).bindE (fun _ _ => trivial)
        fun _ _ => trivial

/-! ### Uploads -/

/-- A quoted peer is one that was named for the address, with a connection of its own. -/
def QuotedPeer.NamedFor (C : Crates) (bootstrap : NodeConnection) (E : Ev Net → Prop)
    (address : XorName) (q : QuotedPeer) : Prop :=
  ∃ peer, Named C bootstrap E address peer ∧ q.conn.peerId = peer.peerId

theorem attemptQuote_confined {peer : PeerConnectInfo} (h : Named C client.bootstrap E address peer)
    (dataSize count : ℕ) :
    ∀ n last, (attemptQuote C peer address dataSize count n last).Safe
      (confinement C client.bootstrap E)
      (Safe.IfOk fun a => ∀ q c, a = .quoted q c → q.NamedFor C client.bootstrap E address)
  | 0, last => Safe.ret_ok fun _ _ h => by cases h
  | n + 1, last => by
    have hquote : (tryQuote C peer address dataSize).Safe (confinement C client.bootstrap E)
        fun _ => True := by
      rw [tryQuote_eq]
      refine (connectionFor_confined h).bindE (fun conn hconn => ?_) fun _ _ => trivial
      exact ⟨.chunk (Or.inl rfl) rfl h (hconn conn rfl), fun _ _ => trivial⟩
    refine hquote.bind fun r _ => ?_
    cases r with
    | error e =>
      show Safe _ _ (if 0 < n then _ else _)
      split
      · exact fun cells hcells => ⟨hcells.dropConn, attemptQuote_confined h dataSize count n e⟩
      · exact attemptQuote_confined h dataSize count n e
    | ok x =>
      obtain ⟨quote, alreadyStored, commitment⟩ := x
      dsimp only
      generalize (if alreadyStored = true then count + 1 else count) = count'
      split
      · exact Safe.ret_ok fun _ _ h => by cases h
      · refine (connectionFor_confined h).bindE_ok fun conn hconn => Safe.ret_ok ?_
        rintro q c ⟨⟩
        exact ⟨peer, h, hconn⟩

theorem quotePeers_confined (dataSize : ℕ) {peers : List PeerConnectInfo}
    (h : ∀ peer ∈ peers, Named C client.bootstrap E address peer) :
    ∀ (quoted : List QuotedPeer) (count : ℕ),
      (∀ q ∈ quoted, q.NamedFor C client.bootstrap E address) →
      (quotePeers C address dataSize peers quoted count).Safe (confinement C client.bootstrap E)
        (Safe.IfOk fun o => ∀ qs, o = some qs →
          ∀ q ∈ qs, q.NamedFor C client.bootstrap E address) := by
  induction peers with
  | nil =>
    intro quoted count hq
    refine Safe.ret_ok ?_
    rintro qs ⟨⟩
    exact hq
  | cons peer peers ih =>
    obtain ⟨hpeer, hpeers⟩ := List.forall_mem_cons.1 h
    intro quoted count hq
    refine (attemptQuote_confined hpeer dataSize count quoteAttempts "no attempt").bindE_ok
      fun a ha => ?_
    cases a with
    | stored => exact Safe.ret_ok fun _ h => by cases h
    | failed last => exact Safe.ret_error
    | quoted q c =>
      refine ih hpeers _ c fun q' hq' => ?_
      rcases List.mem_append.1 hq' with hq' | hq'
      · exact hq q' hq'
      · rw [List.mem_singleton.1 hq']
        exact ha q c rfl

theorem putPeers_confined (content proofBytes : Bytes) {quoted : List QuotedPeer}
    (h : ∀ q ∈ quoted, q.NamedFor C client.bootstrap E address) (accepted : ℕ) (lastErr : String) :
    (putPeers C address content proofBytes quoted accepted lastErr).Safe
      (confinement C client.bootstrap E) fun _ => True := by
  have hput : ∀ q : QuotedPeer, q.NamedFor C client.bootstrap E address → ∀ n lastErr,
      (attemptPut C q.conn address content proofBytes n lastErr).Safe
        (confinement C client.bootstrap E) fun _ => True := by
    rintro q ⟨peer, hpeer, hconn⟩ n
    induction n with
    | zero => exact fun _ => trivial
    | succ n ih =>
      intro lastErr
      rw [attemptPut, putChunk_eq]
      refine ⟨.chunk (Or.inl rfl) rfl hpeer hconn, fun answer _ => ?_⟩
      show Safe _ _ (Prog.ret (putResult C answer) >>= _)
      cases putResult C answer with
      | error e => exact ih e
      | ok b =>
        cases b with
        | true => trivial
        | false => trivial
  induction quoted generalizing accepted lastErr with
  | nil => trivial
  | cons q quoted ih =>
    obtain ⟨hq, hquoted⟩ := List.forall_mem_cons.1 h
    exact (hput q hq _ _).bind fun r _ => ih hquoted _ _

theorem payAndPut_confined (content : Bytes) (token vault : Arr 20) {quoted : List QuotedPeer}
    (h : ∀ q ∈ quoted, q.NamedFor C client.bootstrap E address) :
    (payAndPut C address content token vault quoted).Safe (confinement C client.bootstrap E)
      fun _ => True := by
  have hpay : ∀ recipient calldata, (callPay recipient calldata : Prog Net Cells _).Safe
      (confinement C client.bootstrap E) fun _ => True := fun _ _ => ⟨.pay, fun _ _ => trivial⟩
  unfold payAndPut
  cases paymentSplit C (quoted.map QuotedPeer.quote) with
  | error e => trivial
  | ok payments =>
    refine (hpay _ _).bindE (fun _ _ => ?_) fun _ _ => trivial
    refine (hpay _ _).bindE (fun txHex _ => ?_) fun _ _ => trivial
    cases parseTxHash C txHex with
    | error e => trivial
    | ok txHash =>
      rw [ret_ok_bindE]
      cases (serializeSingleNodeProof (quoted.map fun q => (q.peerId, q.quote)) txHash
        (quoted.filterMap QuotedPeer.commitment)) with
      | error e => trivial
      | ok proofBytes =>
        refine (putPeers_confined content proofBytes h 0 "").bind fun r _ => ?_
        show Safe _ _ (if r.1 < closeGroupMajority then _ else _)
        split <;> trivial

theorem storeOne_confined (address : XorName) (content : Bytes) (token vault : Arr 20) :
    (client.storeOne C address content token vault).Safe (confinement C client.bootstrap E)
      fun _ => True := by
  refine (closestPeers_confined address).bindE (fun peers hpeers => ?_) fun _ _ => trivial
  split
  · trivial
  · refine (quotePeers_confined content.length (fun peer hm => hpeers peers rfl peer
      (List.mem_of_mem_take hm)) [] 0 (by simp)).bindE (fun o ho => ?_) fun _ _ => trivial
    cases o with
    | none => trivial
    | some quoted => exact payAndPut_confined content token vault (ho _ rfl quoted rfl)

theorem upload_confined (data : Bytes) (tokenAddrHex vaultAddrHex : String) :
    (client.upload S C data tokenAddrHex vaultAddrHex).Safe (confinement C client.bootstrap E)
      fun _ => True := by
  have hall : ∀ token vault items,
      (client.storeAll C token vault items).Safe (confinement C client.bootstrap E) fun _ => True := by
    intro token vault items
    induction items with
    | nil => trivial
    | cons x items ih =>
      exact (storeOne_confined x.1 x.2 token vault).bindE (fun _ _ => ih) fun _ _ => trivial
  unfold WasmClient.upload
  cases parseEthAddress C tokenAddrHex with
  | error e => trivial
  | ok token =>
    cases parseEthAddress C vaultAddrHex with
    | error e => trivial
    | ok vault =>
      cases uploadItems S C data with
      | error e => trivial
      | ok x => exact (hall token vault x.1).bindE (fun _ _ => trivial) fun _ _ => trivial

/-- **Every call** issues only requests that the answers so far give reason for. -/
theorem perform_confined (call : ClientCall) :
    (client.perform S C call).Safe (confinement C client.bootstrap E) fun _ => True := by
  cases call with
  | download addressHex => exact (download_confined addressHex).bind fun _ _ => trivial
  | fetchChunk addressHex =>
    refine Safe.bind (Q := fun _ => True) ?_ fun _ _ => trivial
    unfold WasmClient.fetchChunk
    cases parseAddress C addressHex with
    | error e => trivial
    | ok address => exact getDirect_confined address
  | upload data t v => exact (upload_confined data t v).bind fun _ _ => trivial
  | relayedFetch target stun addressHex =>
    exact (relayedFetch_confined target stun addressHex).bind fun _ _ => trivial
  | closestPeersJson addressHex =>
    refine Safe.bind (Q := fun _ => True) ?_ fun _ _ => trivial
    unfold WasmClient.closestPeersJson
    cases parseAddress C addressHex with
    | error e => trivial
    | ok address =>
      exact (closestPeers_confined address).bindE (fun _ _ => trivial) fun _ _ => trivial

/-! ## Every interleaving -/

/-- What `connect` may ask for: to dial the address it is given, and the handshake. -/
def dialling (ip : String) (port : UInt16) (certHashHex : String) (E : Ev Net → Prop) :
    Contract Net Unit where
  inv _ := True
  asks e := e = .transportConnect ip port certHashHex ∨ Greeting E e
  gets e r := E ⟨e, r⟩

theorem connect_dialling (ip : String) (port : UInt16) (certHashHex peerIdHex : String) :
    (WasmClient.connect C ip port certHashHex peerIdHex).Safe (dialling ip port certHashHex E)
      (Safe.IfOk fun x => x.2.Keyed (· = x.1.bootstrap)) := by
  unfold WasmClient.connect
  cases parseOptPeerId C peerIdHex with
  | error e => exact Safe.ret_error
  | ok expected =>
    have hopen : (NodeConnection.connect C ip port certHashHex expected).Safe
        (dialling ip port certHashHex E) (Safe.IfOk fun _ => True) := by
      refine ⟨Or.inl rfl, fun t ht => ?_⟩
      cases t with
      | error e => exact Safe.ret_error
      | ok t =>
        exact (establish_greeting (E := E) (fun _ => Or.inr) (fun _ _ h => h)
          (Or.inl ⟨_, _, _, ht⟩) expected).mono fun _ _ _ _ => trivial
    refine hopen.bindE_ok fun conn _ => Safe.ret_ok ?_
    have hempty : Cells.empty.Keyed (· = conn) := by
      intro k c hc
      simp [Cells.empty] at hc
    exact hempty.putConn rfl rfl

/-- **Whom the client contacts**.  `connect` dials the address it was given.  Afterwards, in
    every interleaving of calls and whatever is answered, each request has a reason in the
    answers before it: a peer is dialled under the address and the certificate hash that the
    bootstrap node named for some chunk; a chunk is requested, quoted or stored only at a
    peer that was named for it, over a connection of that peer, or fetched from the target
    of a relayed connection, whose answer came for an offer of the browser; discovery and
    relaying go to the bootstrap node; and each request carries a number of its connection.
    It is so too for the requests that are pending; and the pool holds connections of the
    bootstrap node and of peers that it named only. -/
theorem requests_confined {ip : String} {port : UInt16} {certHashHex peerIdHex : String}
    {cells₀ cells : Cells} {tr₀ tr : List (Ev Net)} {tasks : List (Prog Net Cells Unit)}
    (hconnect : Run (Any Unit) (WasmClient.connect C ip port certHashHex peerIdHex) () tr₀
      (some (.ok (client, cells₀))) ())
    (h : Reach (fun p => ∃ call, client.perform S C call = p) (· = cells₀) cells tasks tr) :
    (∀ ev ∈ tr₀, ev.req = .transportConnect ip port certHashHex ∨ Greeting (· ∈ tr₀) ev.req) ∧
    (∀ pre ev post, tr = pre ++ ev :: post →
      Confined C client.bootstrap (· ∈ pre) ev.req) ∧
    (∀ e k, .call e k ∈ tasks → Confined C client.bootstrap (· ∈ tr) e) ∧
    cells.Keyed (Known C client.bootstrap (· ∈ tr)) := by
  obtain ⟨-, hasks, hok⟩ := Safe.run (hconnect.mono fun _ _ _ _ => trivial)
    (connect_dialling (C := C) (E := (· ∈ tr₀)) ip port certHashHex peerIdHex) trivial
    fun ev hev => hev
  have hinit : ∀ (E : Ev Net → Prop) s, s = cells₀ → (confinement C client.bootstrap E).inv s := by
    rintro E s rfl k conn hc
    obtain ⟨hk, rfl⟩ := hok _ rfl _ rfl k conn hc
    exact ⟨hk, Or.inl rfl⟩
  have hapi : ∀ (E : Ev Net → Prop) p, (∃ call, client.perform S C call = p) →
      p.Safe (confinement C client.bootstrap E) fun _ => True := by
    rintro E p ⟨call, rfl⟩
    exact perform_confined call
  have hsafe := h.safe (C := confinement C client.bootstrap (· ∈ tr)) (hinit _) (hapi _)
    fun ev hev => hev
  refine ⟨hasks, ?_, fun e k hm => (hsafe.2.1 _ hm).1, hsafe.1⟩
  exact h.asks_before (K := confinement C client.bootstrap) hinit hapi fun _ _ _ h => h

end

/-- The GET of a fetch has a reason. -/
theorem requests_confined_fetch : ∃ (client : WasmClient) (tr : List (Ev Net)),
    Confined .transparent client.bootstrap (· ∈ tr) (.roundTrip client.bootstrap protoChunk
      (ChunkMessage.put ⟨1, .getRequest ⟨zeros 32⟩⟩)) := by
  obtain ⟨client, cells, tr₀, -, -, hpool, hconnect⟩ := connect_run
  obtain ⟨r, tr, hfetch⟩ := fetchChunk_run hpool (zeros 32) (.ok [])
  have hperform : Run Eq (client.perform .transparent .transparent
      (.fetchChunk (hexEncode (zeros 32).1))) cells _ (some ()) cells := hfetch.seq .ret
  have hinit : Reach (fun p => ∃ call, client.perform .transparent .transparent call = p)
      (· = cells) cells [] [] := .init rfl
  obtain ⟨q, hreach⟩ := (hinit.spawn ⟨_, rfl⟩).run_task hperform (i := 0) rfl
  obtain ⟨-, hconf, -, -⟩ := requests_confined hconnect hreach
  rw [List.append_nil, List.nil_append] at hconf
  exact ⟨client, tr, hconf tr _ [] rfl⟩

end AntClient
