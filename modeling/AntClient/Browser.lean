/-
  Opening a transport in the browser (`webrtc.rs`): `Transport::connect`,
  `Transport::connect_via_relay` and what they wait for, as tasks over the calls of the
  browser.  They implement the three requests of the client that open a transport.

  * `connectViaRelay_handle`: the two halves of `connect_via_relay` around the exchange.
  * `openers_keep`: what the opening of a transport asks the browser for.
  * `descriptions_confined`: in every interleaving the browser is given only descriptions
    that its own offers and the client's peers account for.
-/
import AntClient.Requests
import AntClient.Sdp

namespace AntClient

open Async Prog Bytes

/-! ## The browser -/

/-- `RtcDataChannelState`. -/
inductive ChannelState
  | connecting | open | closing | closed
deriving DecidableEq

/-- Its `Debug`. -/
def ChannelState.debug : ChannelState → String
  | .connecting => "Connecting"
  | .open => "Open"
  | .closing => "Closing"
  | .closed => "Closed"

/-- `RtcIceGatheringState`. -/
inductive GatheringState
  | new | gathering | complete
deriving DecidableEq

/-- The calls of the browser; a peer connection is known by a number. -/
inductive BrowserReq
  | newPeerConnection (iceServers : List String)
  /-- `negotiated`: the id of a channel that is not negotiated in-band -/
  | createDataChannel (pc : ℕ) (label : String) (negotiated : Option ℕ)
  | getrandom
  | createOffer (pc : ℕ)
  | setLocalDescription (pc : ℕ) (sdp : String)
  | setRemoteDescription (pc : ℕ) (sdp : String)
  | localDescription (pc : ℕ)
  | readyState (pc : ℕ)
  | iceGatheringState (pc : ℕ)
  /-- `onopen`, `onerror`, or the timeout -/
  | awaitOpen (pc : ℕ) (milliseconds : ℕ)
  /-- gathering is complete, or the timeout -/
  | awaitGathering (pc : ℕ) (milliseconds : ℕ)
  /-- `from_open`: a transport over the data channel -/
  | fromOpen (pc : ℕ)

/-- The requests of the client in the browser. -/
inductive WebReq
  | browser (e : BrowserReq)
  | net (e : NetReq)

/-- The requests and their answers; the error of a call is its `Debug`. -/
abbrev Web : Sig where
  Req := WebReq
  Ans
    | .browser (.newPeerConnection _) => Except String ℕ
    | .browser (.createDataChannel _ _ _) => Unit
    | .browser .getrandom => Except String (Arr 32)
    | .browser (.createOffer _) => Except String String
    | .browser (.setLocalDescription _ _) => Except String Unit
    | .browser (.setRemoteDescription _ _) => Except String Unit
    | .browser (.localDescription _) => Option String
    | .browser (.readyState _) => ChannelState
    | .browser (.iceGatheringState _) => GatheringState
    | .browser (.awaitOpen _ _) => Unit
    | .browser (.awaitGathering _ _) => Unit
    | .browser (.fromOpen _) => Unit
    | .net e => Net.Ans e

variable {σ : Type}

/-- `map_err`. -/
def labelled {α : Type} (label : String) : Except String α → Except String α
  | .ok a => .ok a
  | .error e => .error s!"{label}: {e}"

/-- A call of the browser that may fail. -/
def attempt {α : Type} (label : String) (p : Prog Web σ (Except String α)) :
    Prog Web σ (Except String α) := p >>= fun r => .ret (labelled label r)

/-! ## Opening a transport -/

def waitForOpen (pc : ℕ) : Prog Web σ (Except String Unit) :=
  ask (S := Web) (.browser (.readyState pc)) >>= fun (state : ChannelState) =>
  if state = .open then .ret (.ok ())
  else
    ask (S := Web) (.browser (.awaitOpen pc 15000)) >>= fun _ =>
    ask (S := Web) (.browser (.readyState pc)) >>= fun (state : ChannelState) =>
    if state = .open then .ret (.ok ())
    else
      ask (S := Web) (.browser (.readyState pc)) >>= fun (state : ChannelState) =>
      .ret (.error s!"DataChannel did not open (state: {state.debug})")

def waitForIceComplete (pc : ℕ) : Prog Web σ Unit :=
  ask (S := Web) (.browser (.iceGatheringState pc)) >>= fun (state : GatheringState) =>
  if state = .complete then .ret () else ask (S := Web) (.browser (.awaitGathering pc 5000))

/-- Wrap an open data channel into a transport. -/
def Transport.open (pc : ℕ) : Prog Web σ (Except String ℕ) :=
  bindE (waitForOpen pc) fun _ =>
  ask (S := Web) (.browser (.fromOpen pc)) >>= fun _ => .ret (.ok pc)

/-- Connect to `ip:port`, pinning the certificate fingerprint. -/
def Transport.connect (upper : Char → List Char) (ip : String) (port : UInt16)
    (fingerprintHex : String) : Prog Web σ (Except String ℕ) :=
  bindE (attempt "RTCPeerConnection" (ask (S := Web) (.browser (.newPeerConnection [])))) fun pc =>
  ask (S := Web) (.browser (.createDataChannel pc "ant" (some 0))) >>= fun _ =>
  bindE (attempt "getrandom" (ask (S := Web) (.browser .getrandom))) fun ufragBytes =>
  bindE (attempt "createOffer" (ask (S := Web) (.browser (.createOffer pc)))) fun offer =>
  bindE (.ret (mungeOffer offer (hexEncode ufragBytes.1))) fun mungedSdp =>
  bindE (attempt "setLocalDescription" (ask (S := Web)
    (.browser (.setLocalDescription pc mungedSdp)))) fun _ =>
  bindE (attempt "setRemoteDescription" (ask (S := Web) (.browser (.setRemoteDescription pc
    (connectAnswer upper ip port fingerprintHex (hexEncode ufragBytes.1)))))) fun _ =>
  Transport.open pc

/-- The first half of `connect_via_relay`: the offer with all candidates. -/
def Transport.offer (stun : String) : Prog Web σ (Except String (ℕ × String)) :=
  bindE (attempt "RTCPeerConnection" (ask (S := Web)
    (.browser (.newPeerConnection [s!"stun:{stun}"])))) fun pc =>
  ask (S := Web) (.browser (.createDataChannel pc "ant" none)) >>= fun _ =>
  bindE (attempt "createOffer" (ask (S := Web) (.browser (.createOffer pc)))) fun offer =>
  bindE (attempt "setLocalDescription" (ask (S := Web)
    (.browser (.setLocalDescription pc offer)))) fun _ =>
  waitForIceComplete pc >>= fun _ =>
  ask (S := Web) (.browser (.localDescription pc)) >>= fun (sdp : Option String) =>
  .ret (match sdp with
    | some offerSdp => .ok (pc, offerSdp)
    | none => .error "no local description after gathering")

/-- The second half: the answer of the target. -/
def Transport.answer (pc : ℕ) (answerSdp : String) : Prog Web σ (Except String ℕ) :=
  bindE (attempt "setRemoteDescription" (ask (S := Web)
    (.browser (.setRemoteDescription pc answerSdp)))) fun _ =>
  Transport.open pc

/-- Connect to a NAT'd node; `exchange` sends the offer and resolves to the answer. -/
def Transport.connectViaRelay (stun : String)
    (exchange : String → Prog Web σ (Except String String)) : Prog Web σ (Except String ℕ) :=
  bindE (Transport.offer stun) fun (pc, offerSdp) =>
  bindE (exchange offerSdp) fun answerSdp =>
  Transport.answer pc answerSdp

/-- The requests of the client, with those that open a transport implemented. -/
def web (upper : Char → List Char) : ∀ e : NetReq, Prog Web σ (Net.Ans e)
  | .transportConnect ip port certHashHex => Transport.connect upper ip port certHashHex
  | .relayOffer stun => Transport.offer stun
  | .relayAnswer pc answerSdp => Transport.answer pc answerSdp
  | .keygen => ask (S := Web) (.net .keygen)
  | .sendFrame transport frame => ask (S := Web) (.net (.sendFrame transport frame))
  | .recvFrame transport => ask (S := Web) (.net (.recvFrame transport))
  | .nextSeq conn => ask (S := Web) (.net (.nextSeq conn))
  | .roundTrip conn tag payload => ask (S := Web) (.net (.roundTrip conn tag payload))
  | .pay recipient calldata => ask (S := Web) (.net (.pay recipient calldata))

/-- **The two halves** are `connect_via_relay` around the exchange. -/
theorem connectViaRelay_handle (C : Crates) (upper : Char → List Char) (relay : NodeConnection)
    (stun : String) (target : XorName) :
    (relay.connectViaRelay C stun target : Prog Net σ _).handle (web upper) =
      bindE (Transport.connectViaRelay stun fun offer =>
        (relay.signalRelay C target offer).handle (web upper)) fun transport =>
      (establish C transport (some target)).handle (web upper) := by
  rw [NodeConnection.connectViaRelay, Transport.connectViaRelay, handle_bindE, handle_ask,
    bindE_assoc]
  refine congrArg (bindE _) (funext fun x => ?_)
  rw [handle_bindE, bindE_assoc]
  refine congrArg (bindE _) (funext fun answerSdp => ?_)
  rw [handle_bindE, handle_ask]
  rfl

/-! ## Descriptions with a reason -/

/-- The requests that open a transport. -/
def NetReq.Dials : NetReq → Prop
  | .transportConnect _ _ _ | .relayOffer _ | .relayAnswer _ _ => True
  | _ => False

section
variable (C : Crates) (upper : Char → List Char) (E : Ev Web → Prop)

/-- The munged offer of a peer connection, with the ufrag of some random bytes. -/
def Munged (pc : ℕ) (bytes : Arr 32) (sdp : String) : Prop :=
  ∃ offer, E ⟨.browser .getrandom, .ok bytes⟩ ∧ E ⟨.browser (.createOffer pc), .ok offer⟩ ∧
    mungeOffer offer (hexEncode bytes.1) = .ok sdp

/-- The browser accepted the description of the other side, and the channel was open. -/
def Joined (pc : ℕ) (sdp : String) : Prop :=
  E ⟨.browser (.setRemoteDescription pc sdp), .ok ()⟩ ∧ E ⟨.browser (.readyState pc), .open⟩

/-- The answer of the node at `ip:port` for the offer of the peer connection: it carries the
    ufrag of the local description and the fingerprint. -/
def Pins (ip : String) (port : UInt16) (certHashHex : String) (pc : ℕ) (sdp : String) : Prop :=
  ∃ bytes local_, Munged E pc bytes local_ ∧
    E ⟨.browser (.setLocalDescription pc local_), .ok ()⟩ ∧
    sdp = connectAnswer upper ip port certHashHex (hexEncode bytes.1)

/-- What the client sees of the browser. -/
inductive Seen : Ev Net → Prop
  | net {e : NetReq} {r : Net.Ans e} : ¬ e.Dials → E ⟨.net e, r⟩ → Seen ⟨e, r⟩
  | connected {ip port certHashHex pc sdp} : Pins upper E ip port certHashHex pc sdp →
      Joined E pc sdp → Seen ⟨.transportConnect ip port certHashHex, .ok pc⟩
  | notConnected {ip port certHashHex e} : Seen ⟨.transportConnect ip port certHashHex, .error e⟩
  | offered {stun : String} {pc offer sdp} :
      E ⟨.browser (.newPeerConnection [s!"stun:{stun}"]), .ok pc⟩ →
      E ⟨.browser (.createOffer pc), .ok offer⟩ →
      E ⟨.browser (.setLocalDescription pc offer), .ok ()⟩ →
      E ⟨.browser (.localDescription pc), some sdp⟩ → Seen ⟨.relayOffer stun, .ok (pc, sdp)⟩
  | notOffered {stun e} : Seen ⟨.relayOffer stun, .error e⟩
  | answered {pc sdp} : Joined E pc sdp → Seen ⟨.relayAnswer pc sdp, .ok pc⟩
  | notAnswered {pc sdp e} : Seen ⟨.relayAnswer pc sdp, .error e⟩

/-- The calls of the browser that have a reason, if the nodes `node` may be dialled and the
    answers `answer` given to a peer connection. -/
inductive Browses (node : String → UInt16 → String → Prop) (answer : ℕ → String → Prop) :
    BrowserReq → Prop
  | peerConnection {servers} : servers = [] ∨ (∃ stun : String, servers = [s!"stun:{stun}"]) →
      Browses node answer (.newPeerConnection servers)
  | channel {pc id} : Browses node answer (.createDataChannel pc "ant" id)
  | random : Browses node answer .getrandom
  | offer {pc} : Browses node answer (.createOffer pc)
  | munged {pc bytes sdp} : Munged E pc bytes sdp →
      Browses node answer (.setLocalDescription pc sdp)
  | plain {pc sdp} : E ⟨.browser (.createOffer pc), .ok sdp⟩ →
      Browses node answer (.setLocalDescription pc sdp)
  /-- the answer for a node is synthesized, and pins its certificate -/
  | pinned {ip port certHashHex pc sdp} : node ip port certHashHex →
      Pins upper E ip port certHashHex pc sdp → Browses node answer (.setRemoteDescription pc sdp)
  | relayed {pc sdp} : answer pc sdp → Browses node answer (.setRemoteDescription pc sdp)
  | description {pc} : Browses node answer (.localDescription pc)
  | state {pc} : Browses node answer (.readyState pc)
  | gathering {pc} : Browses node answer (.iceGatheringState pc)
  | waitOpen {pc} : Browses node answer (.awaitOpen pc 15000)
  | waitGathering {pc} : Browses node answer (.awaitGathering pc 5000)
  /-- a transport is made of a channel that is open -/
  | fromOpen {pc sdp} : Joined E pc sdp → Browses node answer (.fromOpen pc)

end

/-! ## Opening keeps to them -/

section
variable {C : Crates} {upper : Char → List Char} {E : Ev Web → Prop} {K : Contract Web σ}
  {node : String → UInt16 → String → Prop} {answer : ℕ → String → Prop}

/-- A call that may fail. -/
theorem attempt_safe {α : Type} {label : String} {p : Prog Web σ (Except String α)} {Q : α → Prop}
    (h : p.Safe K (Safe.IfOk Q)) : (attempt label p).Safe K (Safe.IfOk Q) := by
  refine h.bind fun r hr => ?_
  rintro a ha
  cases r with
  | error e => cases ha
  | ok b =>
    cases ha
    exact hr _ rfl

theorem ask_safe {e : WebReq} (ha : K.asks e) (hg : ∀ e r, K.gets e r → E ⟨e, r⟩) :
    (ask (S := Web) e : Prog Web σ _).Safe K fun r => E ⟨e, r⟩ := ⟨ha, hg e⟩

theorem open_safe (ha : ∀ e, Browses upper E node answer e → K.asks (.browser e))
    (hg : ∀ e r, K.gets e r → E ⟨e, r⟩) {pc : ℕ} {sdp : String}
    (hset : E ⟨.browser (.setRemoteDescription pc sdp), .ok ()⟩) :
    (Transport.open pc).Safe K (Safe.IfOk fun t => t = pc ∧ Joined E pc sdp) := by
  have hwait : (waitForOpen pc).Safe K
      (Safe.IfOk fun _ => E ⟨.browser (.readyState pc), .open⟩) := by
    have hstate : (ask (S := Web) (.browser (.readyState pc)) : Prog Web σ _).Safe K _ :=
      ask_safe (ha _ .state) hg
    refine hstate.bind fun (state : ChannelState) hs => ?_
    split
    · rename_i he
      exact Safe.ret_ok (he ▸ hs)
    · refine (ask_safe (ha _ .waitOpen) hg).bind fun _ _ => ?_
      refine hstate.bind fun (state : ChannelState) hs => ?_
      split
      · rename_i he
        exact Safe.ret_ok (he ▸ hs)
      · exact hstate.bind fun _ _ => Safe.ret_error
  refine hwait.bindE_ok fun _ hopen => ?_
  refine (ask_safe (ha _ (.fromOpen ⟨hset, hopen⟩)) hg).bind fun _ _ => ?_
  exact Safe.ret_ok ⟨rfl, hset, hopen⟩

theorem connect_seen (ha : ∀ e, Browses upper E node answer e → K.asks (.browser e))
    (hg : ∀ e r, K.gets e r → E ⟨e, r⟩) {ip : String} {port : UInt16} {certHashHex : String}
    (hnode : node ip port certHashHex) : (Transport.connect upper ip port certHashHex).Safe K
      (Safe.IfOk fun t => ∃ sdp, Pins upper E ip port certHashHex t sdp ∧ Joined E t sdp) := by
  refine (attempt_safe (Q := fun _ => True) ?_).bindE_ok fun pc _ => ?_
  · exact (ask_safe (ha _ (.peerConnection (Or.inl rfl))) hg).mono fun _ _ _ _ => trivial
  refine (ask_safe (ha _ .channel) hg).bind fun _ _ => ?_
  refine (attempt_safe (Q := fun bytes => E ⟨.browser .getrandom, .ok bytes⟩) ?_).bindE_ok
    fun bytes hbytes => ?_
  · exact (ask_safe (ha _ .random) hg).mono fun _ hr bytes hb => by
      cases hb
      exact hr
  refine (attempt_safe (Q := fun offer => E ⟨.browser (.createOffer pc), .ok offer⟩) ?_).bindE_ok
    fun offer hoffer => ?_
  · exact (ask_safe (ha _ .offer) hg).mono fun _ hr offer ho => by
      cases ho
      exact hr
  cases hm : mungeOffer offer (hexEncode bytes.1) with
  | error e => exact Safe.ret_error
  | ok local_ =>
    have hmunged : Munged E pc bytes local_ := ⟨offer, hbytes, hoffer, hm⟩
    rw [ret_ok_bindE]
    refine (attempt_safe (Q := fun _ => E ⟨.browser (.setLocalDescription pc local_), .ok ()⟩)
      ?_).bindE_ok fun _ hlocal => ?_
    · exact (ask_safe (ha _ (.munged hmunged)) hg).mono fun _ hr _ hu => hu ▸ hr
    let sdp := connectAnswer upper ip port certHashHex (hexEncode bytes.1)
    have hpins : Pins upper E ip port certHashHex pc sdp := ⟨bytes, local_, hmunged, hlocal, rfl⟩
    refine (attempt_safe (Q := fun _ => E ⟨.browser (.setRemoteDescription pc sdp), .ok ()⟩)
      ?_).bindE_ok fun _ hremote => ?_
    · exact (ask_safe (ha _ (.pinned hnode hpins)) hg).mono fun _ hr _ hu => hu ▸ hr
    refine (open_safe ha hg hremote).mono fun r hr t ht => ?_
    obtain ⟨rfl, hjoined⟩ := hr t ht
    exact ⟨_, hpins, hjoined⟩

theorem offer_seen (ha : ∀ e, Browses upper E node answer e → K.asks (.browser e))
    (hg : ∀ e r, K.gets e r → E ⟨e, r⟩) (stun : String) :
    (Transport.offer stun).Safe K (Safe.IfOk fun x => Seen upper E ⟨.relayOffer stun, .ok x⟩) := by
  refine (attempt_safe (Q := fun pc =>
    E ⟨.browser (.newPeerConnection [s!"stun:{stun}"]), .ok pc⟩) ?_).bindE_ok fun pc hpc => ?_
  · exact (ask_safe (ha _ (.peerConnection (Or.inr ⟨stun, rfl⟩))) hg).mono fun _ hr pc hp => by
      cases hp
      exact hr
  refine (ask_safe (ha _ .channel) hg).bind fun _ _ => ?_
  refine (attempt_safe (Q := fun offer => E ⟨.browser (.createOffer pc), .ok offer⟩) ?_).bindE_ok
    fun offer hoffer => ?_
  · exact (ask_safe (ha _ .offer) hg).mono fun _ hr offer ho => by
      cases ho
      exact hr
  refine (attempt_safe (Q := fun _ => E ⟨.browser (.setLocalDescription pc offer), .ok ()⟩)
    ?_).bindE_ok fun _ hlocal => ?_
  · exact (ask_safe (ha _ (.plain hoffer)) hg).mono fun _ hr _ hu => hu ▸ hr
  have hgather : (waitForIceComplete pc).Safe K fun _ => True := by
    refine (ask_safe (ha _ .gathering) hg).bind fun (state : GatheringState) _ => ?_
    split
    · trivial
    · exact (ask_safe (ha _ .waitGathering) hg).mono fun _ _ => trivial
  refine hgather.bind fun _ _ => ?_
  refine (ask_safe (ha _ .description) hg).bind fun (sdp : Option String) hsdp => ?_
  cases sdp with
  | none => exact Safe.ret_error
  | some sdp => exact Safe.ret_ok (.offered hpc hoffer hlocal hsdp)

theorem answer_seen (ha : ∀ e, Browses upper E node answer e → K.asks (.browser e))
    (hg : ∀ e r, K.gets e r → E ⟨e, r⟩) {pc : ℕ} {sdp : String} (hanswer : answer pc sdp) :
    (Transport.answer pc sdp).Safe K
      (Safe.IfOk fun t => Seen upper E ⟨.relayAnswer pc sdp, .ok t⟩) := by
  refine (attempt_safe (Q := fun _ => E ⟨.browser (.setRemoteDescription pc sdp), .ok ()⟩)
    ?_).bindE_ok fun _ hremote => ?_
  · exact (ask_safe (ha _ (.relayed hanswer)) hg).mono fun _ hr _ hu => hu ▸ hr
  refine (open_safe ha hg hremote).mono fun r hr t ht => ?_
  obtain ⟨rfl, hjoined⟩ := hr t ht
  exact .answered hjoined

/-- The requests in the browser that implement requests of `A`. -/
def Within (upper : Char → List Char) (E : Ev Web → Prop) (node : String → UInt16 → String → Prop)
    (answer : ℕ → String → Prop) (A : NetReq → Prop) : WebReq → Prop
  | .browser e => Browses upper E node answer e
  | .net e => ¬ e.Dials ∧ A e

/-- **The openers** keep to calls with a reason, and answer with what the browser showed. -/
theorem web_seen {A : NetReq → Prop} (ha : ∀ e, Within upper E node answer A e → K.asks e)
    (hg : ∀ e r, K.gets e r → E ⟨e, r⟩)
    (hnode : ∀ ip port certHashHex, A (.transportConnect ip port certHashHex) →
      node ip port certHashHex)
    (hanswer : ∀ pc sdp, A (.relayAnswer pc sdp) → answer pc sdp) (e : NetReq) (he : A e) :
    (web upper e).Safe K fun r => Seen upper E ⟨e, r⟩ := by
  have hb : ∀ b, Browses upper E node answer b → K.asks (.browser b) := fun b => ha (.browser b)
  have hnet : ∀ e : NetReq, A e → ¬ e.Dials →
      (ask (S := Web) (.net e) : Prog Web σ _).Safe K fun r => Seen upper E ⟨e, r⟩ :=
    fun e he hd => ⟨ha (.net e) ⟨hd, he⟩, fun r hr => .net hd (hg _ r hr)⟩
  cases e with
  | transportConnect ip port certHashHex =>
    refine (connect_seen hb hg (hnode _ _ _ he)).mono fun r hr => ?_
    cases r with
    | error e => exact .notConnected
    | ok t =>
      obtain ⟨sdp, hpins, hjoined⟩ := hr t rfl
      exact .connected hpins hjoined
  | relayOffer stun =>
    refine (offer_seen hb hg stun).mono fun r hr => ?_
    cases r with
    | error e => exact .notOffered
    | ok x => exact hr x rfl
  | relayAnswer pc sdp =>
    refine (answer_seen hb hg (hanswer _ _ he)).mono fun r hr => ?_
    cases r with
    | error e => exact .notAnswered
    | ok t => exact hr t rfl
  | _ => exact hnet _ he not_false

end

/-! ## Every interleaving -/

section
variable {DataMap : Type} (S : SelfEncryption DataMap) (C : Crates) (upper : Char → List Char)

/-- The requests of `connect` that have a reason: it dials the node it was given. -/
def DialsNode (ip : String) (port : UInt16) (certHashHex : String) (E : Ev Web → Prop) :
    WebReq → Prop :=
  Within upper E
    (fun ip' port' certHashHex' => ip' = ip ∧ port' = port ∧ certHashHex' = certHashHex)
    (fun _ _ => False) (fun e => e = .transportConnect ip port certHashHex ∨
      Greeting (Seen upper E) e)

/-- The requests of a connected client that have a reason: the nodes that are dialled are
    peers that the bootstrap node named, and the answers that are not synthesized were
    relayed. -/
def WebConfined (bootstrap : NodeConnection) (E : Ev Web → Prop) : WebReq → Prop :=
  Within upper E
    (fun ip port certHashHex => ∃ address peer, Named C bootstrap (Seen upper E) address peer ∧
      ip = peer.ip ∧ port = peer.port ∧ certHashHex = hexEncode peer.certHash.1)
    (fun pc sdp => ∃ target, Relayed C bootstrap (Seen upper E) target pc sdp)
    (Confined C bootstrap (Seen upper E))

/-- Tasks keep to requests with a reason, and to known connections in the pool. -/
def webConfinement (bootstrap : NodeConnection) (E : Ev Web → Prop) : Contract Web Cells where
  inv := Cells.Keyed (Known C bootstrap (Seen upper E))
  asks := WebConfined C upper bootstrap E
  gets e r := E ⟨e, r⟩

def webDialling (ip : String) (port : UInt16) (certHashHex : String) (E : Ev Web → Prop) :
    Contract Web Unit where
  inv _ := True
  asks := DialsNode upper ip port certHashHex E
  gets e r := E ⟨e, r⟩

variable {S C upper} {client : WasmClient}

theorem perform_webConfined {E : Ev Web → Prop} (call : ClientCall) :
    ((client.perform S C call).handle (web upper)).Safe
      (webConfinement C upper client.bootstrap E) fun _ => True := by
  refine Safe.handle (C := webConfinement C upper client.bootstrap E)
    (D := confinement C client.bootstrap (Seen upper E)) rfl (perform_confined call) fun e he => ?_
  refine web_seen (fun _ h => h) (fun _ _ h => h) ?_ ?_ e he
  · intro ip port certHashHex hd
    cases hd with
    | dial h => exact ⟨_, _, h, rfl, rfl, rfl⟩
    | greet h => cases h
  · intro pc sdp hd
    cases hd with
    | answer h => exact ⟨_, h⟩
    | greet h => cases h

theorem connect_dialsNode {E : Ev Web → Prop} (ip : String) (port : UInt16)
    (certHashHex peerIdHex : String) :
    ((WasmClient.connect C ip port certHashHex peerIdHex).handle (web upper)).Safe
      (webDialling upper ip port certHashHex E)
      (Safe.IfOk fun x => x.2.Keyed (· = x.1.bootstrap)) := by
  refine Safe.handle (C := webDialling upper ip port certHashHex E)
    (D := dialling ip port certHashHex (Seen upper E)) rfl
    (connect_dialling ip port certHashHex peerIdHex) fun e he => ?_
  refine web_seen (fun _ h => h) (fun _ _ h => h) ?_ ?_ e he
  · intro ip' port' certHashHex' hd
    rcases hd with hd | hd
    · cases hd
      exact ⟨rfl, rfl, rfl⟩
    · cases hd
  · intro pc sdp hd
    rcases hd with hd | hd
    · cases hd
    · cases hd

/-- **What the browser is told**.  `connect` gives it the answer of the node it was given.
    Afterwards, in every interleaving of calls and whatever is answered: the local
    description is the browser's own offer, munged with random bytes or as it is; a remote
    description is the synthesized answer that pins the certificate of a peer which the
    bootstrap node named, with the ufrag of the local description that was set, or the
    answer that was relayed for the offer of this peer connection; and a transport is made of
    a channel that is open and whose remote description was set.  All other requests are
    confined as those of the client are. -/
theorem descriptions_confined {ip : String} {port : UInt16} {certHashHex peerIdHex : String}
    {cells₀ cells : Cells} {tr₀ tr : List (Ev Web)} {tasks : List (Prog Web Cells Unit)}
    (hconnect : Run (Any Unit) ((WasmClient.connect C ip port certHashHex peerIdHex).handle
      (web upper)) () tr₀ (some (.ok (client, cells₀))) ())
    (h : Reach (fun p => ∃ call, (client.perform S C call).handle (web upper) = p) (· = cells₀)
      cells tasks tr) :
    (∀ ev ∈ tr₀, DialsNode upper ip port certHashHex (· ∈ tr₀) ev.req) ∧
    (∀ pre ev post, tr = pre ++ ev :: post →
      WebConfined C upper client.bootstrap (· ∈ pre) ev.req) ∧
    (∀ e k, .call e k ∈ tasks → WebConfined C upper client.bootstrap (· ∈ tr) e) ∧
    cells.Keyed (Known C client.bootstrap (Seen upper (· ∈ tr))) := by
  obtain ⟨-, hasks, hok⟩ := Safe.run (hconnect.mono fun _ _ _ _ => trivial)
    (connect_dialsNode (E := (· ∈ tr₀)) ip port certHashHex peerIdHex) trivial fun ev hev => hev
  have hinit : ∀ E s, s = cells₀ → (webConfinement C upper client.bootstrap E).inv s := by
    rintro E s rfl k conn hc
    obtain ⟨hk, rfl⟩ := hok _ rfl _ rfl k conn hc
    exact ⟨hk, Or.inl rfl⟩
  have hapi : ∀ E p, (∃ call, (client.perform S C call).handle (web upper) = p) →
      p.Safe (webConfinement C upper client.bootstrap E) fun _ => True := by
    rintro E p ⟨call, rfl⟩
    exact perform_webConfined call
  have hsafe := h.safe (C := webConfinement C upper client.bootstrap (· ∈ tr)) (hinit _) (hapi _)
    fun ev hev => hev
  refine ⟨hasks, ?_, fun e k hm => (hsafe.2.1 _ hm).1, hsafe.1⟩
  exact h.asks_before (K := webConfinement C upper client.bootstrap) hinit hapi fun _ _ _ h => h

end

/-! ## An instance -/

/-- A browser that opens every connection. -/
def opens : ∀ e : WebReq, Web.Ans e
  | .browser (.newPeerConnection _) => .ok 0
  | .browser (.createDataChannel _ _ _) => ()
  | .browser .getrandom => .ok (zeros 32)
  | .browser (.createOffer _) => .ok "a=ice-ufrag:u\na=ice-pwd:u"
  | .browser (.setLocalDescription _ _) => .ok ()
  | .browser (.setRemoteDescription _ _) => .ok ()
  | .browser (.localDescription _) => none
  | .browser (.readyState _) => .open
  | .browser (.iceGatheringState _) => .complete
  | .browser (.awaitOpen _ _) => ()
  | .browser (.awaitGathering _ _) => ()
  | .browser (.fromOpen _) => ()
  | .net e => honest [] id e

/-- The events of opening a connection to a node. -/
def Pinned (upper : Char → List Char) (ev : Ev Net) (tr : List (Ev Web)) : Prop :=
  ∀ ip port certHashHex, ev.req = .transportConnect ip port certHashHex →
    ∃ sdp, (⟨.browser (.setRemoteDescription 0 sdp), .ok ()⟩ : Ev Web) ∈ tr ∧
      sdp = connectAnswer upper ip port certHashHex (hexEncode (zeros 32).1)

/-- What the browser does for a request: it opens every connection, and the requests that are
    not implemented get any answer. -/
theorem web_run (upper : Char → List Char) {ev : Ev Net}
    (h : (∃ ip port certHashHex, ev = ⟨.transportConnect ip port certHashHex, .ok 0⟩) ∨
      ¬ ev.req.Dials) (s : σ) :
    ∃ tr, Run Eq (web upper ev.req) s tr (some ev.ans) s ∧ Pinned upper ev tr := by
  rcases h with ⟨ip, port, certHashHex, rfl⟩ | h
  · have hrun : Run Eq (Transport.connect upper ip port certHashHex) s
        (exec (S := Web) opens (Transport.connect upper ip port certHashHex) s).1
        (some (.ok 0)) s := exec_run (S := Web) opens (fun _ => rfl) _ s
    refine ⟨_, hrun, ?_⟩
    rintro _ _ _ ⟨⟩
    exact ⟨_, List.mem_of_getElem? (i := 5) rfl, rfl⟩
  · obtain ⟨e, r⟩ := ev
    have hnet : Run Eq (ask (S := Web) (.net e)) s [⟨.net e, r⟩] (some r) s :=
      .call (S := Web) (e := .net e) r rfl .ret
    have hpinned : Pinned upper ⟨e, r⟩ [⟨.net e, r⟩] := by
      rintro ip port certHashHex rfl
      exact absurd trivial h
    cases e with
    | transportConnect | relayOffer | relayAnswer => exact absurd trivial h
    | _ => exact ⟨_, hnet, hpinned⟩

/-- The client connects. -/
theorem connect_webRun (upper : Char → List Char) : ∃ client cells tr,
    Run (Any Unit) ((WasmClient.connect .transparent honestPeer.ip honestPeer.port
      (hexEncode honestPeer.certHash.1) "").handle (web upper)) () tr
      (some (.ok (client, cells))) () ∧
    ∀ id ∈ sevenNodes, cells.pool[id]? = none := by
  have hnone : ∀ p, (none : Option XorName) = some p → p = honestPeer.peerId := by rintro p ⟨⟩
  obtain ⟨conn, -, hid, hestablish⟩ := establish_run (I := Eq) (fun _ => rfl) 0 hnone ()
  let dial : Ev Net := ⟨.transportConnect honestPeer.ip honestPeer.port
    (hexEncode honestPeer.certHash.1), .ok 0⟩
  have hask : Run Eq (ask (S := Net) dial.req) () [dial] (some (.ok 0)) () := .call _ rfl .ret
  have hconnect : Run Eq (WasmClient.connect .transparent honestPeer.ip honestPeer.port
      (hexEncode honestPeer.certHash.1) "") () (dial :: handshakeEvents 0)
      (some (.ok (⟨conn⟩,
        ⟨(∅ : Std.HashMap XorName NodeConnection).insert conn.peerId conn, 0⟩))) () := by
    rw [WasmClient.connect, parseOptPeerId, if_pos rfl, ret_ok_bindE, ← List.append_nil (_ :: _)]
    exact .seqE (.seqE hask hestablish) .ret
  have hweb : ∀ ev ∈ dial :: handshakeEvents 0, ∀ s : Unit, ∃ tr,
      Run Eq (web upper ev.req) s tr (some ev.ans) s ∧ Pinned upper ev tr := by
    refine List.forall_mem_cons.2 ⟨web_run upper (Or.inl ⟨_, _, _, rfl⟩), fun ev hev => ?_⟩
    refine web_run upper (Or.inr ?_)
    simp only [handshakeEvents, List.mem_cons, List.not_mem_nil, or_false] at hev
    rcases hev with rfl | rfl | rfl <;> exact not_false
  obtain ⟨tr, hrun, -⟩ := hconnect.handled hweb
  refine ⟨_, _, tr, hrun.mono fun _ _ _ => trivial, fun id hm => ?_⟩
  rw [Std.HashMap.getElem?_insert, if_neg]
  · simp
  · rw [beq_iff_eq, hid]
    rintro rfl
    exact honestPeer_notMem hm

/-- Discovery names a node that the client is not connected to; it is dialled, but then there
    are no keys. -/
theorem fetchNamed_run (client : WasmClient) {cells : Cells} {peer : PeerConnectInfo}
    (hl : (DiscoveryMessage.put ⟨1, .closestPeersResponse ⟨[peer]⟩⟩).length < 2 ^ 32)
    (hmiss : cells.pool[peer.peerId]? = none) : ∃ seq query answer,
    Run Eq (client.perform .transparent .transparent (.fetchChunk (hexEncode (zeros 32).1))) cells
      [⟨.nextSeq client.bootstrap, seq⟩, ⟨.roundTrip client.bootstrap protoDiscovery query, answer⟩,
        ⟨.transportConnect peer.ip peer.port (hexEncode peer.certHash.1), .ok 0⟩,
        ⟨.keygen, .error "no randomness"⟩] (some ()) cells := by
  obtain ⟨seq, hpeers⟩ := closestPeers_run hl client.bootstrap (zeros 32) cells
  have hconn : ∃ e, Run Eq (connectionFor .transparent peer) cells
      [⟨.transportConnect peer.ip peer.port (hexEncode peer.certHash.1), .ok 0⟩,
        ⟨.keygen, .error "no randomness"⟩] (some (.error e)) cells := by
    let e := "no randomness"
    refine ⟨s!"ML-KEM keygen: {e}", .sync ?_⟩
    dsimp only [id]
    rw [hmiss]
    exact .call _ rfl (.call _ rfl .ret)
  obtain ⟨e, hconn⟩ := hconn
  have hdirect : Run Eq (client.getDirect .transparent (zeros 32)) cells _ (some (.error _))
      cells := .seqE hpeers (.seq hconn .ret)
  rw [WasmClient.perform, WasmClient.fetchChunk, parseAddress_hexEncode, ret_ok_bindE]
  exact ⟨seq, _, _, hdirect.seq .ret⟩

/-- The client connects, and a fetch dials a node that discovery names: the remote description
    has a reason. -/
theorem descriptions_confined_fetch : ∃ (client : WasmClient) (tr₀ pre : List (Ev Web))
    (sdp : String), (∀ ev ∈ tr₀, DialsNode List.singleton honestPeer.ip honestPeer.port
      (hexEncode honestPeer.certHash.1) (· ∈ tr₀) ev.req) ∧
    sdp = connectAnswer List.singleton honestPeer.ip honestPeer.port
      (hexEncode honestPeer.certHash.1) (hexEncode (zeros 32).1) ∧
    WebConfined .transparent List.singleton client.bootstrap (· ∈ pre)
      (.browser (.setRemoteDescription 0 sdp)) := by
  obtain ⟨client, cells, tr₀, hconnect, hmiss⟩ := connect_webRun List.singleton
  let peer : PeerConnectInfo := { honestPeer with peerId := Arr.replicate 32 1 }
  have hl : (DiscoveryMessage.put ⟨1, .closestPeersResponse ⟨[peer]⟩⟩).length < 2 ^ 32 :=
    length_peers_lt (by decide) (by simp)
  obtain ⟨seq, query, answer, hfetch⟩ :=
    fetchNamed_run client hl (hmiss peer.peerId (by decide))
  have hweb : ∀ ev ∈ ([⟨.nextSeq client.bootstrap, seq⟩,
        ⟨.roundTrip client.bootstrap protoDiscovery query, answer⟩,
        ⟨.transportConnect peer.ip peer.port (hexEncode peer.certHash.1), .ok 0⟩,
        ⟨.keygen, .error "no randomness"⟩] : List (Ev Net)), ∀ s : Cells, ∃ tr,
      Run Eq (web List.singleton ev.req) s tr (some ev.ans) s ∧ Pinned List.singleton ev tr := by
    intro ev hev
    refine web_run List.singleton ?_
    simp only [List.mem_cons, List.not_mem_nil, or_false] at hev
    rcases hev with rfl | rfl | rfl | rfl
    · exact Or.inr not_false
    · exact Or.inr not_false
    · exact Or.inl ⟨_, _, _, rfl⟩
    · exact Or.inr not_false
  obtain ⟨tr, hrun, hpinned⟩ := hfetch.handled hweb
  obtain ⟨pre, tr', post, rfl, hp⟩ := hpinned _ (List.mem_cons_of_mem _ (List.mem_cons_of_mem _
    List.mem_cons_self))
  obtain ⟨sdp, hm, hsdp⟩ := hp _ _ _ rfl
  obtain ⟨pre', post', rfl⟩ := List.append_of_mem hm
  have hinit : Reach (fun p => ∃ call, (client.perform .transparent .transparent call).handle
      (web List.singleton) = p) (· = cells) cells [] [] := .init rfl
  obtain ⟨q, hreach⟩ := (hinit.spawn ⟨_, rfl⟩).run_task hrun (i := 0) rfl
  obtain ⟨hasks, hconfined, -, -⟩ := descriptions_confined hconnect hreach
  exact ⟨client, tr₀, pre ++ pre', sdp, hasks, hsdp, hconfined (pre ++ pre')
    ⟨.browser (.setRemoteDescription 0 sdp), .ok ()⟩ (post' ++ post) (by simp)⟩

end AntClient
