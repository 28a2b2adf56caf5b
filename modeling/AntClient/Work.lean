/-
  What the calls of a client (`lib.rs`) ask of the network and of the wallet, at most.

  Every request but a look at the sequence counter is of a `Kind`: a dial, a step of a
  handshake, a discovery query, a chunk request, a step of a relayed connection, a wallet call.
  The requests are priced by `Prices`; a bound for all prices is a bound for each kind of
  request.  Nodes choose the answers, and the other calls of the client may change its pool
  at any time.

  * `storeOne_affords`: the work of one chunk of an upload.
  * `getDirect_affords`: the work of a fetch, which each peer that discovery names pays for.
  * `work_bounded`: no answer makes a call do more.
-/
import AntClient.Upload
import AntClient.StoreSafety
import AntClient.Lib.Credits

namespace AntClient

open Async Prog

/-! ## Prices -/

inductive Kind
  | dial | greet | query | chunk | relay | pay
deriving DecidableEq

/-- The kind of a request; a look at the sequence counter asks no one. -/
def NetReq.kind : NetReq → Option Kind
  | .transportConnect _ _ _ => some .dial
  | .keygen | .sendFrame _ _ | .recvFrame _ => some .greet
  | .roundTrip _ tag _ =>
    some (if tag = protoDiscovery then .query else if tag = protoChunk then .chunk else .relay)
  | .relayOffer _ | .relayAnswer _ _ => some .relay
  | .nextSeq _ => none
  | .pay _ _ => some .pay

/-- The prices of the kinds of requests, and what a named peer brings. -/
structure Prices where
  dial : ℕ
  greet : ℕ
  query : ℕ
  chunk : ℕ
  relay : ℕ
  pay : ℕ
  named : ℕ

def Prices.price (w : Prices) : Kind → ℕ
  | .dial => w.dial
  | .greet => w.greet
  | .query => w.query
  | .chunk => w.chunk
  | .relay => w.relay
  | .pay => w.pay

/-- Only requests of one kind cost anything. -/
def Prices.only (kind : Kind) (named : ℕ) : Prices where
  dial := if kind = .dial then 1 else 0
  greet := if kind = .greet then 1 else 0
  query := if kind = .query then 1 else 0
  chunk := if kind = .chunk then 1 else 0
  relay := if kind = .relay then 1 else 0
  pay := if kind = .pay then 1 else 0
  named := named

/-- The price of a session: the dial and the handshake. -/
def Prices.session (w : Prices) : ℕ := w.dial + 3 * w.greet

variable (C : Crates)

/-- How many peers the answer names. -/
def namedBy (answer : Except String Bytes) : ℕ :=
  match peersResult C answer with
  | .ok peers => peers.length
  | .error _ => 0

def Prices.tariff (w : Prices) : Tariff Net where
  cost e := match e.kind with
    | some kind => w.price kind
    | none => 0
  credit
    | .roundTrip _ tag _, answer => if tag = protoDiscovery then namedBy C answer * w.named else 0
    | _, _ => 0

variable {C} {w : Prices} {σ : Type} {client : WasmClient}

/-! ## Connections -/

theorem establish_affords (transport : ℕ) (expected : Option XorName) :
    (establish C transport expected : Prog Net σ _).Affords (w.tariff C) (fun _ => 0)
      (w.greet + (w.greet + (w.greet + 0))) := by
  have hask : ∀ (e : NetReq) n, (w.tariff C).cost e = w.greet →
      (∀ r, (w.tariff C).credit e r = 0) → (ask (S := Net) e : Prog Net σ _).Affords (w.tariff C)
        (fun _ => n) (w.greet + n) := by
    intro e n hcost hcredit
    refine ⟨by rw [hcost]; omega, fun r => ?_⟩
    rw [hcost, hcredit]
    show n ≤ _
    omega
  refine (hask .keygen _ rfl fun _ => rfl).bind fun keys => ?_
  cases keys with
  | error e => exact Nat.zero_le _
  | ok keys =>
    refine (hask (.sendFrame transport _) _ rfl fun _ => rfl).bind fun sent => ?_
    cases sent with
    | error e => exact Nat.zero_le _
    | ok =>
      refine (hask (.recvFrame transport) _ rfl fun _ => rfl).bind fun accept => ?_
      cases accept with
      | error e => exact Nat.zero_le _
      | ok accept =>
        show (bindE (.ret (ClientHandshake.finish _ _ _ _)) _).Affords _ _ _
        cases ClientHandshake.finish C ⟨keys.2, keys.1⟩ accept expected with
        | error e => exact Nat.zero_le _
        | ok established => exact Nat.zero_le _

theorem connectionFor_affords (peer : PeerConnectInfo) :
    (connectionFor C peer).Affords (w.tariff C) (fun _ => 0) w.session := by
  intro cells
  dsimp only
  split
  · exact Nat.zero_le _
  · have hopen : (NodeConnection.connect C peer.ip peer.port (hexEncode peer.certHash.1)
        (some peer.peerId) : Prog Net Cells _).Affords (w.tariff C) (fun _ => 0) w.session := by
      have hsession : w.session = w.dial + 3 * w.greet := rfl
      have hdial : (w.tariff C).cost (.transportConnect peer.ip peer.port
        (hexEncode peer.certHash.1)) = w.dial := rfl
      refine ⟨by omega, fun transport => ?_⟩
      cases transport with
      | error e => exact Nat.zero_le _
      | ok transport =>
        refine (establish_affords transport _).mono ?_ fun _ => Nat.le_refl _
        rw [hdial, hsession]
        omega
    exact hopen.bindE (fun conn _ => Nat.zero_le _) fun _ => Nat.le_refl _

/-- A chunk request and what is made of its answer. -/
theorem chunk_affords {α : Type} (conn : NodeConnection) (payload : Bytes)
    (f : Except String Bytes → α) : (Prog.call (S := Net) (σ := σ) (.roundTrip conn protoChunk payload)
      fun answer => .ret (f answer)).Affords (w.tariff C) (fun _ => 0) w.chunk :=
  ⟨Nat.le_refl _, fun _ => Nat.zero_le _⟩

theorem closestPeers_affords (conn : NodeConnection) (address : XorName) :
    (conn.closestPeers C address : Prog Net σ _).Affords (w.tariff C)
      (fun r => match r with | .ok peers => peers.length * w.named | .error _ => 0) w.query := by
  rw [closestPeers_eq]
  refine ⟨Nat.zero_le _, fun seq => ⟨Nat.le_refl _, fun answer => ?_⟩⟩
  show _ ≤ w.query - w.query + namedBy C answer * w.named
  rw [namedBy]
  cases peersResult C answer with
  | error e => exact Nat.zero_le _
  | ok peers => exact Nat.le_add_left _ _

/-! ## Fetches -/

theorem getVerified_affords (conn : NodeConnection) (address : XorName) :
    (conn.getVerified C address : Prog Net σ _).Affords (w.tariff C) (fun _ => 0) w.chunk := by
  refine ⟨Nat.zero_le _, fun seq => ⟨Nat.le_refl _, fun answer => ?_⟩⟩
  cases answer with
  | error e => exact Nat.zero_le _
  | ok plaintext =>
    show (bindE (.ret (ChunkMessage.decode C plaintext)) _).Affords _ _ _
    cases ChunkMessage.decode C plaintext with
    | error e => exact Nat.zero_le _
    | ok response => exact Nat.zero_le _

/-- Each peer is dialled and asked at most once. -/
theorem getFrom_affords (address : XorName) (peers : List PeerConnectInfo) (lastErr : String) :
    (getFrom C address peers lastErr).Affords (w.tariff C) (fun _ => 0)
      (peers.length * (w.session + w.chunk)) := by
  induction peers generalizing lastErr with
  | nil => exact Nat.zero_le _
  | cons peer peers ih =>
    have hn : (peer :: peers).length * (w.session + w.chunk) =
        w.session + (w.chunk + peers.length * (w.session + w.chunk)) := by
      rw [List.length_cons, Nat.add_mul, Nat.one_mul]
      omega
    rw [hn]
    refine ((connectionFor_affords peer).frame _).bind fun conn => ?_
    cases conn with
    | error e => exact (ih e).mono (by omega) fun _ => Nat.le_refl _
    | ok conn =>
      have hget : (conn.getVerified C address : Prog Net Cells _).Affords (w.tariff C)
          (fun _ => peers.length * (w.session + w.chunk))
          (0 + (w.chunk + peers.length * (w.session + w.chunk))) :=
        ((getVerified_affords conn address).frame (peers.length * (w.session + w.chunk))).mono
          (by omega) fun _ => by omega
      refine hget.bind fun content => ?_
      cases content with
      | error e => exact ih e
      | ok content => exact Nat.zero_le _

/-- A fetch costs one query; the peers that are named pay for the rest. -/
theorem getDirect_affords (hnamed : w.session + w.chunk ≤ w.named) (address : XorName) :
    (client.getDirect C address).Affords (w.tariff C) (fun _ => 0) w.query := by
  refine (closestPeers_affords _ _).bindE (fun peers => ?_) fun _ => Nat.le_refl _
  split
  · exact Nat.zero_le _
  · exact (getFrom_affords address peers "").mono (Nat.mul_le_mul_left _ hnamed) fun _ => Nat.le_refl _

theorem fetchChunk_affords (hnamed : w.session + w.chunk ≤ w.named) (addressHex : String) :
    (client.fetchChunk C addressHex).Affords (w.tariff C) (fun _ => 0) w.query := by
  unfold WasmClient.fetchChunk
  cases parseAddress C addressHex with
  | error e => exact Nat.zero_le _
  | ok address => exact getDirect_affords hnamed address

theorem download_affords {DataMap : Type} (S : SelfEncryption DataMap) (hquery : w.query = 0)
    (hnamed : w.session + w.chunk ≤ w.named) (addressHex : String) :
    (client.download S C addressHex).Affords (w.tariff C) (fun _ => 0) 0 := by
  unfold WasmClient.download
  cases parseAddress C addressHex with
  | error e => exact Nat.zero_le _
  | ok address =>
    have hget : ∀ a, (client.getDirect C a).Affords (w.tariff C) (fun _ => 0) 0 :=
      fun a => (getDirect_affords hnamed a).mono (Nat.le_of_eq hquery) fun _ => Nat.le_refl _
    refine (Affords.free (V := ⟨fun _ => 0, fun _ _ => 0⟩) (fun _ => rfl) _).handle fun e => ?_
    cases e with
    | one a => exact hget a
    | all as =>
      have hall := Affords.joined as fun a _ => hget a
      exact hall.mono (by simp) fun _ => Nat.le_refl _

/-! ## Uploads -/

theorem tryQuote_affords (peer : PeerConnectInfo) (address : XorName) (dataSize : ℕ) :
    (tryQuote C peer address dataSize).Affords (w.tariff C) (fun _ => 0) (w.session + w.chunk) := by
  rw [tryQuote_eq]
  exact (connectionFor_affords peer).andThen (fun conn => chunk_affords conn _ _) fun _ => Nat.zero_le _

/-- The attempts at one peer, and the connection for the PUT. -/
theorem attemptQuote_affords (peer : PeerConnectInfo) (address : XorName) (dataSize count : ℕ) :
    ∀ n last, (attemptQuote C peer address dataSize count n last).Affords (w.tariff C) (fun _ => 0)
      (n * (w.session + w.chunk) + w.session)
  | 0, last => Nat.zero_le _
  | n + 1, last => by
    have hquote : (tryQuote C peer address dataSize).Affords (w.tariff C)
        (fun _ => n * (w.session + w.chunk) + w.session)
        ((n + 1) * (w.session + w.chunk) + w.session) := by
      have htry := (tryQuote_affords (C := C) (w := w) peer address dataSize).frame
        (n * (w.session + w.chunk) + w.session)
      refine htry.mono ?_ fun _ => by omega
      rw [Nat.add_mul, Nat.one_mul]
      omega
    refine hquote.bind fun r => ?_
    cases r with
    | error e =>
      dsimp only
      split
      · exact fun _ => attemptQuote_affords peer address dataSize count n e
      · exact attemptQuote_affords peer address dataSize count n e
    | ok x =>
      obtain ⟨quote, alreadyStored, commitment⟩ := x
      dsimp only
      generalize (if alreadyStored = true then count + 1 else count) = count'
      split
      · exact Nat.zero_le _
      · exact ((connectionFor_affords peer).mono (Nat.le_add_left _ _) fun _ => Nat.le_refl _).bindE
          (fun conn => Nat.zero_le _) fun _ => Nat.le_refl _

/-- The quote loop, with what it will take to pay and to put. -/
theorem quotePeers_affords (address : XorName) (dataSize : ℕ) (peers : List PeerConnectInfo) :
    ∀ (quoted : List QuotedPeer) (count : ℕ),
      (quotePeers C address dataSize peers quoted count).Affords (w.tariff C)
        (fun r => match r with | .ok (some qs) => qs.length * (3 * w.chunk) | _ => 0)
        (quoted.length * (3 * w.chunk) + peers.length * (4 * w.session + 6 * w.chunk)) := by
  induction peers with
  | nil =>
    intro quoted count
    show _ ≤ _
    simp
  | cons peer peers ih =>
    intro quoted count
    have hattempt := attemptQuote_affords (C := C) (w := w) peer address dataSize count quoteAttempts
      "no attempt"
    have hn : quoteAttempts * (w.session + w.chunk) + w.session +
        ((quoted.length + 1) * (3 * w.chunk) + peers.length * (4 * w.session + 6 * w.chunk)) =
          quoted.length * (3 * w.chunk) +
            (peer :: peers).length * (4 * w.session + 6 * w.chunk) := by
      rw [List.length_cons, quoteAttempts]
      simp only [Nat.add_mul, Nat.mul_add]
      omega
    rw [← hn]
    refine (hattempt.frame _).bindE (fun a => ?_) fun _ => Nat.zero_le _
    cases a with
    | stored => exact Nat.zero_le _
    | failed last => exact Nat.zero_le _
    | quoted q c =>
      refine (ih (quoted ++ [q]) c).mono ?_ fun _ => Nat.le_refl _
      rw [List.length_append, List.length_singleton]
      omega

theorem attemptPut_affords (conn : NodeConnection) (address : XorName) (content proofBytes : Bytes) :
    ∀ n lastErr, (attemptPut C conn address content proofBytes n lastErr : Prog Net σ _).Affords
      (w.tariff C) (fun _ => 0) (n * w.chunk)
  | 0, lastErr => Nat.zero_le _
  | n + 1, lastErr => by
    have hput : (putChunk C conn address content proofBytes : Prog Net σ _).Affords (w.tariff C)
        (fun _ => n * w.chunk) ((n + 1) * w.chunk) := by
      rw [putChunk_eq]
      refine ((chunk_affords conn _ _).frame (n * w.chunk)).mono ?_ fun _ => by omega
      rw [Nat.add_mul, Nat.one_mul]
      omega
    refine hput.bind fun r => ?_
    cases r with
    | error e => exact attemptPut_affords conn address content proofBytes n e
    | ok b => cases b <;> exact Nat.zero_le _

theorem putPeers_affords (address : XorName) (content proofBytes : Bytes) (quoted : List QuotedPeer) :
    ∀ accepted lastErr, (putPeers C address content proofBytes quoted accepted lastErr :
      Prog Net σ _).Affords (w.tariff C) (fun _ => 0) (quoted.length * (3 * w.chunk)) := by
  induction quoted with
  | nil => exact fun _ _ => Nat.zero_le _
  | cons q quoted ih =>
    intro accepted lastErr
    have hput := (attemptPut_affords (C := C) (w := w) (σ := σ) q.conn address content proofBytes
      quoteAttempts lastErr).frame (quoted.length * (3 * w.chunk))
    refine (hput.mono ?_ fun _ => Nat.le_refl _).bind fun r => ?_
    · rw [List.length_cons, quoteAttempts, Nat.add_mul]
      omega
    · exact (ih _ _).mono (by omega) fun _ => Nat.le_refl _

theorem callPay_affords (recipient calldata : String) :
    (callPay recipient calldata : Prog Net σ _).Affords (w.tariff C) (fun _ => 0) w.pay :=
  ⟨Nat.le_refl _, fun _ => Nat.zero_le _⟩

theorem payAndPut_affords (address : XorName) (content : Bytes) (token vault : Arr 20)
    (quoted : List QuotedPeer) :
    (payAndPut C address content token vault quoted : Prog Net σ _).Affords (w.tariff C) (fun _ => 0)
      (w.pay + (w.pay + quoted.length * (3 * w.chunk))) := by
  unfold payAndPut
  cases paymentSplit C (quoted.map QuotedPeer.quote) with
  | error e => exact Nat.zero_le _
  | ok payments =>
    refine (callPay_affords _ _).andThen (fun _ => ?_) fun _ => Nat.zero_le _
    refine (callPay_affords _ _).andThen (fun txHex => ?_) fun _ => Nat.zero_le _
    cases parseTxHash C txHex with
    | error e => exact Nat.zero_le _
    | ok txHash =>
      rw [ret_ok_bindE]
      cases (serializeSingleNodeProof (quoted.map fun q => (q.peerId, q.quote)) txHash
        (quoted.filterMap QuotedPeer.commitment)) with
      | error e => exact Nat.zero_le _
      | ok proofBytes =>
        refine (putPeers_affords address content proofBytes quoted 0 "").bind fun r => ?_
        show (if r.1 < closeGroupMajority then _ else _ : Prog Net σ _).Affords _ _ _
        split <;> exact Nat.zero_le _

/-- The price of storing one chunk. -/
def Prices.store (w : Prices) : ℕ := w.query + (28 * w.session + 42 * w.chunk + 2 * w.pay)

theorem storeOne_affords (address : XorName) (content : Bytes) (token vault : Arr 20) :
    (client.storeOne C address content token vault).Affords (w.tariff C) (fun _ => 0) w.store := by
  have hpeers : (client.bootstrap.closestPeers C address : Prog Net Cells _).Affords (w.tariff C)
      (fun _ => 28 * w.session + 42 * w.chunk + 2 * w.pay) w.store :=
    ((closestPeers_affords _ _).frame (28 * w.session + 42 * w.chunk + 2 * w.pay)).mono
      (Nat.le_refl _) fun _ => Nat.le_add_left _ _
  refine hpeers.bindE (fun peers => ?_) fun _ => Nat.zero_le _
  split
  · exact Nat.zero_le _
  · have hquotes := (quotePeers_affords (C := C) (w := w) address content.length
      (peers.take closeGroupSize) [] 0).frame (2 * w.pay)
    have hlen : (peers.take closeGroupSize).length ≤ 7 := List.length_take_le _ _
    have hbudget := Nat.mul_le_mul_right (4 * w.session + 6 * w.chunk) hlen
    refine (hquotes.mono ?_ fun _ => Nat.le_refl _).bindE (fun o => ?_) fun _ => Nat.zero_le _
    · simp only [List.length_nil, Nat.zero_mul, Nat.zero_add]
      omega
    · cases o with
      | none => exact Nat.zero_le _
      | some quoted =>
        have hn : w.pay + (w.pay + quoted.length * (3 * w.chunk)) ≤
            quoted.length * (3 * w.chunk) + 2 * w.pay := by omega
        exact (payAndPut_affords address content token vault quoted).mono hn fun _ => Nat.le_refl _

theorem storeAll_affords (token vault : Arr 20) (items : List (XorName × Bytes)) :
    (client.storeAll C token vault items).Affords (w.tariff C) (fun _ => 0)
      (items.length * w.store) := by
  induction items with
  | nil => exact Nat.zero_le _
  | cons x items ih =>
    have hall : (client.storeAll C token vault (x :: items)).Affords (w.tariff C) (fun _ => 0)
        (w.store + items.length * w.store) :=
      (storeOne_affords x.1 x.2 token vault).andThen (fun _ => ih) fun _ => Nat.zero_le _
    refine hall.mono (Nat.le_of_eq ?_) fun _ => Nat.le_refl _
    rw [List.length_cons, Nat.add_mul, Nat.one_mul, Nat.add_comm]

/-- The chunks of an upload. -/
def uploadSize {DataMap : Type} (S : SelfEncryption DataMap) (C : Crates) (data : Bytes) : ℕ :=
  match uploadItems S C data with
  | .ok (items, _) => items.length
  | .error _ => 0

theorem upload_affords {DataMap : Type} (S : SelfEncryption DataMap) (data : Bytes)
    (tokenAddrHex vaultAddrHex : String) :
    (client.upload S C data tokenAddrHex vaultAddrHex).Affords (w.tariff C) (fun _ => 0)
      (uploadSize S C data * w.store) := by
  unfold WasmClient.upload
  cases parseEthAddress C tokenAddrHex with
  | error e => exact Nat.zero_le _
  | ok token =>
    cases parseEthAddress C vaultAddrHex with
    | error e => exact Nat.zero_le _
    | ok vault =>
      rw [ret_ok_bindE, ret_ok_bindE, uploadSize]
      cases uploadItems S C data with
      | error e => exact Nat.zero_le _
      | ok x =>
        exact (storeAll_affords token vault x.1).bindE (fun _ => Nat.zero_le _) fun _ => Nat.le_refl _

/-! ## Relayed fetches and listings -/

theorem relayedFetch_affords (targetPeerIdHex stunAddr addressHex : String) :
    (client.relayedFetch C targetPeerIdHex stunAddr addressHex).Affords (w.tariff C) (fun _ => 0)
      (3 * w.relay + 3 * w.greet + w.chunk) := by
  unfold WasmClient.relayedFetch
  cases parseAddress C targetPeerIdHex with
  | error e => exact Nat.zero_le _
  | ok target =>
    cases parseAddress C addressHex with
    | error e => exact Nat.zero_le _
    | ok address =>
      have hsignal : ∀ offer, (client.bootstrap.signalRelay C target offer :
          Prog Net Cells _).Affords (w.tariff C) (fun _ => 0) w.relay := by
        intro offer
        refine ⟨Nat.zero_le _, fun seq => ⟨Nat.le_refl _, fun answer => ?_⟩⟩
        cases answer with
        | error e => exact Nat.zero_le _
        | ok plaintext =>
          show (bindE (.ret (SignalRelayMessage.decode C plaintext)) _).Affords _ _ _
          cases SignalRelayMessage.decode C plaintext with
          | error e => exact Nat.zero_le _
          | ok response => exact Nat.zero_le _
      have hopen : (client.bootstrap.connectViaRelay C stunAddr target : Prog Net Cells _).Affords
          (w.tariff C) (fun _ => 0)
          (w.relay + (w.relay + (w.relay + (w.greet + (w.greet + (w.greet + 0)))))) := by
        have hask : (ask (S := Net) (.relayOffer stunAddr) : Prog Net Cells _).Affords (w.tariff C)
            (fun _ => 0) w.relay := ⟨Nat.le_refl _, fun _ => Nat.zero_le _⟩
        refine hask.andThen (fun offer => ?_) fun _ => Nat.zero_le _
        refine (hsignal offer.2).andThen (fun answerSdp => ?_) fun _ => Nat.zero_le _
        have hanswer : (ask (S := Net) (.relayAnswer offer.1 answerSdp) : Prog Net Cells _).Affords
            (w.tariff C) (fun _ => 0) w.relay := ⟨Nat.le_refl _, fun _ => Nat.zero_le _⟩
        exact hanswer.andThen (fun transport => establish_affords transport _) fun _ => Nat.zero_le _
      have hfetch : (bindE (client.bootstrap.connectViaRelay C stunAddr target) fun conn =>
          bindE (conn.getVerified C address) fun content => .ret (.ok content.length) :
          Prog Net Cells _).Affords (w.tariff C) (fun _ => 0)
          (w.relay + (w.relay + (w.relay + (w.greet + (w.greet + (w.greet + 0))))) + w.chunk) := by
        refine hopen.andThen (fun conn => ?_) fun _ => Nat.zero_le _
        exact (getVerified_affords conn address).bindE (fun _ => Nat.zero_le _) fun _ => Nat.le_refl _
      exact hfetch.mono (by omega) fun _ => Nat.le_refl _

theorem closestPeersJson_affords (addressHex : String) :
    (client.closestPeersJson C addressHex).Affords (w.tariff C) (fun _ => 0) w.query := by
  unfold WasmClient.closestPeersJson
  cases parseAddress C addressHex with
  | error e => exact Nat.zero_le _
  | ok address =>
    exact (closestPeers_affords _ _).bindE (fun _ => Nat.zero_le _) fun _ => Nat.zero_le _

/-! ## Counting -/

/-- The requests of one kind. -/
def count (kind : Kind) (tr : List (Ev Net)) : ℕ := tr.countP fun ev => ev.req.kind = some kind

/-- How many peers the answers to discovery queries name. -/
def named (C : Crates) (tr : List (Ev Net)) : ℕ :=
  (Prices.tariff C ⟨0, 0, 0, 0, 0, 0, 1⟩).earned tr

theorem cost_only (kind : Kind) (n : ℕ) (e : NetReq) :
    ((Prices.only kind n).tariff C).cost e = if e.kind = some kind then 1 else 0 := by
  show (match e.kind with
    | some k => (Prices.only kind n).price k
    | none => 0) = _
  cases e.kind with
  | none => simp
  | some k => cases kind <;> cases k <;> rfl

theorem spent_only (kind : Kind) (n : ℕ) (tr : List (Ev Net)) :
    ((Prices.only kind n).tariff C).spent tr = count kind tr := by
  induction tr with
  | nil => rfl
  | cons ev tr ih =>
    rw [Tariff.spent, ih, cost_only, count, count, List.countP_cons, Nat.add_comm]
    simp only [decide_eq_true_eq]

/-- Each peer that is named brings its price. -/
theorem earned_eq (w : Prices) (tr : List (Ev Net)) :
    (w.tariff C).earned tr = w.named * named C tr := by
  have hcredit : ∀ e r, (w.tariff C).credit e r =
      w.named * (Prices.tariff C ⟨0, 0, 0, 0, 0, 0, 1⟩).credit e r := by
    intro e r
    cases e with
    | roundTrip conn tag payload =>
      show (if tag = protoDiscovery then namedBy C r * w.named else 0) =
        w.named * if tag = protoDiscovery then namedBy C r * 1 else 0
      split_ifs
      · rw [Nat.mul_one, Nat.mul_comm]
      · rfl
    | _ => rfl
  induction tr with
  | nil => rfl
  | cons ev tr ih => rw [Tariff.earned, hcredit, ih, named, named, Tariff.earned, Nat.mul_add]

section
variable {α : Type} {I : Cells → Cells → Prop} {p : Prog Net Cells α} {s s' : Cells}
  {tr : List (Ev Net)} {o : Option α}

/-- A bound on the requests of one kind, if each named peer pays for `m` of them. -/
theorem count_le {kind : Kind} {m n : ℕ} (hr : Run I p s tr o s')
    (h : p.Affords ((Prices.only kind m).tariff C) (fun _ => 0) n) :
    count kind tr ≤ n + m * named C tr := by
  have hrun := h.run hr
  rw [spent_only, earned_eq] at hrun
  exact (Nat.le_add_right _ _).trans hrun

/-- The work of a run, of each kind at most. -/
structure WorkWithin (tr : List (Ev Net)) (dials greets queries chunks relays pays : ℕ) : Prop where
  dials : count .dial tr ≤ dials
  greets : count .greet tr ≤ greets
  queries : count .query tr ≤ queries
  chunks : count .chunk tr ≤ chunks
  relays : count .relay tr ≤ relays
  pays : count .pay tr ≤ pays

/-- What is bounded at all prices is bounded kind by kind. -/
theorem work_within {a b c d e f : ℕ} (hr : Run I p s tr o s')
    (h : ∀ w : Prices, p.Affords (w.tariff C) (fun _ => 0) (a * w.dial + b * w.greet +
      c * w.query + d * w.chunk + e * w.relay + f * w.pay)) :
    WorkWithin tr a b c d e f := by
  have hall : ∀ kind n, (Prices.only kind 0).dial * a + (Prices.only kind 0).greet * b +
      (Prices.only kind 0).query * c + (Prices.only kind 0).chunk * d +
      (Prices.only kind 0).relay * e + (Prices.only kind 0).pay * f = n → count kind tr ≤ n := by
    intro kind n hn
    have hle := count_le hr (h (Prices.only kind 0))
    rw [Nat.zero_mul, Nat.add_zero] at hle
    refine hle.trans (Nat.le_of_eq ?_)
    rw [← hn]
    simp only [Nat.mul_comm]
  exact ⟨hall _ _ (by simp [Prices.only]), hall _ _ (by simp [Prices.only]),
    hall _ _ (by simp [Prices.only]), hall _ _ (by simp [Prices.only]),
    hall _ _ (by simp [Prices.only]), hall _ _ (by simp [Prices.only])⟩

/-- The work of a fetch, by the peers that the answers name. -/
structure WorkByNamed (C : Crates) (tr : List (Ev Net)) : Prop where
  dials : count .dial tr ≤ named C tr
  greets : count .greet tr ≤ 3 * named C tr
  chunks : count .chunk tr ≤ named C tr
  relays : count .relay tr = 0
  pays : count .pay tr = 0

theorem work_byNamed (hr : Run I p s tr o s') (h : ∀ w : Prices, w.query = 0 →
      w.session + w.chunk ≤ w.named → p.Affords (w.tariff C) (fun _ => 0) 0) :
    WorkByNamed C tr := by
  have hall : ∀ kind m, (Prices.only kind m).query = 0 →
      (Prices.only kind m).session + (Prices.only kind m).chunk ≤ m →
      count kind tr ≤ m * named C tr := by
    intro kind m hq hm
    have hle := count_le hr (h (Prices.only kind m) hq hm)
    rwa [Nat.zero_add] at hle
  have hdial := hall .dial 1 rfl (Nat.le_refl 1)
  have hgreet := hall .greet 3 rfl (Nat.le_refl 3)
  have hchunk := hall .chunk 1 rfl (Nat.le_refl 1)
  have hrelay := hall .relay 0 rfl (Nat.le_refl 0)
  have hpay := hall .pay 0 rfl (Nat.le_refl 0)
  exact ⟨by omega, hgreet, by omega, by omega, by omega⟩

end

/-- **No answer makes a call do more than this**, whatever the other calls of the client do to the
    pool meanwhile. -/
theorem work_bounded {DataMap : Type} (S : SelfEncryption DataMap) (client : WasmClient)
    {I : Cells → Cells → Prop} :
    (∀ data token vault s tr o s', Run I (client.upload S C data token vault) s tr o s' →
      WorkWithin tr (28 * uploadSize S C data) (84 * uploadSize S C data) (uploadSize S C data)
        (42 * uploadSize S C data) 0 (2 * uploadSize S C data)) ∧
    (∀ address s tr o s', Run I (client.download S C address) s tr o s' → WorkByNamed C tr) ∧
    (∀ address s tr o s', Run I (client.fetchChunk C address) s tr o s' →
      WorkByNamed C tr ∧ count .query tr ≤ 1) ∧
    (∀ target stunAddr address s tr o s',
      Run I (client.relayedFetch C target stunAddr address) s tr o s' → WorkWithin tr 0 3 0 1 3 0) ∧
    (∀ address s tr o s', Run I (client.closestPeersJson C address) s tr o s' →
      WorkWithin tr 0 0 1 0 0 0) := by
  refine ⟨?_, ?_, ?_, ?_, ?_⟩
  · intro data token vault s tr o s' hr
    refine work_within hr fun w => (upload_affords S data token vault).mono ?_ fun _ => Nat.le_refl _
    rw [Prices.store, Prices.session]
    ring_nf
    exact Nat.le_refl _
  · intro address s tr o s' hr
    exact work_byNamed hr fun w hquery hnamed => download_affords S hquery hnamed address
  · intro address s tr o s' hr
    refine ⟨work_byNamed hr fun w hquery hnamed => ?_, ?_⟩
    · exact (fetchChunk_affords hnamed address).mono (Nat.le_of_eq hquery) fun _ => Nat.le_refl _
    · have hle := count_le hr (fetchChunk_affords (w := .only .query 0) (Nat.le_refl 0) address)
      rwa [Nat.zero_mul, Nat.add_zero] at hle
  · intro target stunAddr address s tr o s' hr
    refine work_within hr fun w => (relayedFetch_affords _ _ _).mono ?_ fun _ => Nat.le_refl _
    omega
  · intro address s tr o s' hr
    refine work_within hr fun w => (closestPeersJson_affords _).mono ?_ fun _ => Nat.le_refl _
    omega

/-- An upload of three chunks that are paid for and put. -/
theorem work_bounded_storing :
    (pays storingRun.1 ≠ [] ∧ ∃ ev ∈ storingRun.1, Puts ev) ∧
      WorkWithin storingRun.1 84 252 3 126 0 6 := by
  have hitems : ∃ x items mapAddress,
      uploadItems .transparent .transparent [7] = .ok (x :: items, mapAddress) := ⟨_, _, _, rfl⟩
  obtain ⟨x, items, mapAddress, hi⟩ := hitems
  exact ⟨(storingRun_paid hi (by simp)).1,
    (work_bounded .transparent honestClient).1 _ _ _ _ _ _ _ (storingRun_run fun _ => rfl)⟩

end AntClient
