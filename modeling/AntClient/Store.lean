/-
  Storing one chunk (`lib.rs`): quote, pay, and PUT against the close group.

  * `StoreRun`: the shapes of the runs of `store_one`, one for each of its exits.
  * `storeOne_traced`: every complete run has one of these shapes.
-/
import AntClient.Client
import AntClient.Evm
import AntClient.Lib.Trace

namespace AntClient

open Async Prog

/-! ## Constants -/

/-- A quorum of the close group. -/
def closeGroupMajority : ℕ := 4
/-- The data-type tag for a plain chunk. -/
def dataTypeChunk : UInt32 := 0
/-- Connect and quote attempts per close-group peer before failing the store. -/
def quoteAttempts : ℕ := 3

variable (C : Crates) {σ : Type}

/-! ## Quotes -/

/-- One responsible peer that returned a verified quote for a chunk. -/
structure QuotedPeer where
  peerId : XorName
  conn : NodeConnection
  quote : Quote
  commitment : Option Bytes

def quoteRequest (address : XorName) (dataSize : ℕ) : ChunkMessage where
  requestId := 1
  body := .quoteRequest {
    address := address
    dataSize := UInt64.ofNat dataSize
    dataType := dataTypeChunk }

/-- The answer to a quote request. -/
def quoteOfResponse (response : ChunkMessage) : Except String (Bytes × Bool × Option Bytes) :=
  match response.body with
  | .quoteResponse (.success quote alreadyStored commitment) => .ok (quote, alreadyStored, commitment)
  | .quoteResponse (.error e) => .error s!"quote error: {e.display}"
  | _ => .error "unexpected response to quote request"

/-- Send a quote request: the quote bytes, whether the chunk is already stored, and
    the commitment. -/
def requestQuote (conn : NodeConnection) (address : XorName) (dataSize : ℕ) :
    Prog Net σ (Except String (Bytes × Bool × Option Bytes)) :=
  bindE (conn.chunkRoundTrip C (quoteRequest address dataSize)) fun response =>
  .ret (quoteOfResponse response)

/-- The checks of `try_quote` on the quote of a peer. -/
def checkQuote (peer : PeerConnectInfo) (address : XorName) (quoteBytes : Bytes) :
    Except String Quote :=
  match parseQuote C quoteBytes with
  | .error e => .error s!"quote parse: {e.display}"
  | .ok quote =>
    if quote.content ≠ address then .error "quote is for a different address"
    else if C.blake3 quote.pubKey ≠ peer.peerId then
      .error "quote public key does not match the peer id"
    else if ¬ verifyQuote C quote then .error "quote signature verification failed"
    else .ok quote

/-- One connect, quote and verify attempt against a discovered peer. -/
def tryQuote (peer : PeerConnectInfo) (address : XorName) (dataSize : ℕ) :
    Prog Net Cells (Except String (Quote × Bool × Option Bytes)) :=
  bindE (connectionFor C peer) fun conn =>
  bindE (requestQuote C conn address dataSize) fun (quoteBytes, alreadyStored, commitment) =>
  bindE (.ret (checkQuote C peer address quoteBytes)) fun quote =>
  .ret (.ok (quote, alreadyStored, commitment))

/-- How the attempts at one peer of the close group end. -/
inductive Attempted
  /-- the majority already stores the chunk: `store_one` returns -/
  | stored
  /-- a quote, and the count of peers that already store the chunk -/
  | quoted (peer : QuotedPeer) (alreadyStoredCount : ℕ)
  | failed (last : String)

/-- The last `n` of the attempts at one peer. -/
def attemptQuote (peer : PeerConnectInfo) (address : XorName) (dataSize alreadyStoredCount : ℕ) :
    ℕ → String → Prog Net Cells (Except String Attempted)
  | 0, last => .ret (.ok (.failed last))
  | n + 1, _ =>
    tryQuote C peer address dataSize >>= fun
      | .ok (quote, alreadyStored, commitment) =>
        let count := if alreadyStored then alreadyStoredCount + 1 else alreadyStoredCount
        if alreadyStored ∧ closeGroupMajority ≤ count then .ret (.ok .stored)
        else
          -- reuse the connection for the PUT
          bindE (connectionFor C peer) fun conn =>
          .ret (.ok (.quoted ⟨peer.peerId, conn, quote, commitment⟩ count))
      | .error e =>
        -- drop a possibly-broken cached connection before a retry
        if 0 < n then
          .sync (Cells.dropConn peer.peerId) fun _ =>
          attemptQuote peer address dataSize alreadyStoredCount n e
        else attemptQuote peer address dataSize alreadyStoredCount n e

/-- The quote loop: the quotes of the peers, or nothing if the majority already
    stores the chunk. -/
def quotePeers (address : XorName) (dataSize : ℕ) : List PeerConnectInfo → List QuotedPeer → ℕ →
    Prog Net Cells (Except String (Option (List QuotedPeer)))
  | [], quoted, _ => .ret (.ok (some quoted))
  | peer :: peers, quoted, alreadyStoredCount =>
    bindE (attemptQuote C peer address dataSize alreadyStoredCount quoteAttempts "no attempt") fun
      | .stored => .ret (.ok none)
      | .quoted q count => quotePeers address dataSize peers (quoted ++ [q]) count
      | .failed last => .ret (.error s!"close-group peer {hexEncode peer.peerId.1} did not give a valid quote for {hexEncode address.1} after {quoteAttempts} tries: {last}")

/-! ## Payment -/

def jsDisplay (value : JsValue) : String :=
  (value.asString.orElse fun _ => value.stringify).getD "<non-string JS error>"

/-- The result of a call of the payment callback. -/
def payResult : PayOutcome → Except String String
  | .threw e => .error s!"pay callback threw: {jsDisplay e}"
  | .rejected e => .error s!"pay callback rejected: {jsDisplay e}"
  | .resolved v =>
    match v.asString with
    | some text => .ok text
    | none => .error "pay callback did not resolve to a string tx hash"

/-- Invoke the payment callback and await the transaction hash. -/
def callPay (recipient calldata : String) : Prog Net σ (Except String String) :=
  .call (.pay recipient calldata) fun r => .ret (payResult r)

/-! ## PUT -/

def putRequest (address : XorName) (content proofBytes : Bytes) : ChunkMessage where
  requestId := 1
  body := .putRequest {
    address := address
    content := content
    paymentProof := some proofBytes }

/-- The answer to a PUT. -/
def putOfResponse (response : ChunkMessage) : Except String Bool :=
  match response.body with
  | .putResponse (.success _) | .putResponse (.alreadyExists _) => .ok true
  | .putResponse (.paymentRequired message) => .error s!"payment required: {message}"
  | .putResponse (.error e) => .error s!"put error: {e.display}"
  | _ => .error "unexpected response to put request"

/-- Send a PUT: `true` if stored or already present. -/
def putChunk (conn : NodeConnection) (address : XorName) (content proofBytes : Bytes) :
    Prog Net σ (Except String Bool) :=
  bindE (conn.chunkRoundTrip C (putRequest address content proofBytes)) fun response =>
  .ret (putOfResponse response)

/-- The last `n` PUT attempts at one peer: whether it accepted, and the last
    error. -/
def attemptPut (conn : NodeConnection) (address : XorName) (content proofBytes : Bytes) :
    ℕ → String → Prog Net σ (Bool × String)
  | 0, lastErr => .ret (false, lastErr)
  | n + 1, lastErr =>
    putChunk C conn address content proofBytes >>= fun
      | .ok true => .ret (true, lastErr)
      | .ok false => .ret (false, lastErr)
      | .error e => attemptPut conn address content proofBytes n e

/-- The PUT loop: how many peers accepted, and the last error. -/
def putPeers (address : XorName) (content proofBytes : Bytes) :
    List QuotedPeer → ℕ → String → Prog Net σ (ℕ × String)
  | [], accepted, lastErr => .ret (accepted, lastErr)
  | peer :: quoted, accepted, lastErr =>
    attemptPut C peer.conn address content proofBytes quoteAttempts lastErr >>= fun (ok, lastErr) =>
    putPeers address content proofBytes quoted (if ok then accepted + 1 else accepted) lastErr

/-! ## Storing -/

/-- `store_one` once every peer has quoted. -/
def payAndPut (address : XorName) (content : Bytes) (token vault : Arr 20)
    (quoted : List QuotedPeer) : Prog Net σ (Except String Unit) :=
  bindE (.ret (paymentSplit C (quoted.map QuotedPeer.quote))) fun payments =>
  bindE (callPay (toHex token) (hex0x (approveCalldata vault (totalAmount payments)))) fun _ =>
  bindE (callPay (toHex vault) (hex0x (payForQuotesCalldata C payments))) fun txHex =>
  bindE (.ret (parseTxHash C txHex)) fun txHash =>
  bindE (.ret ((serializeSingleNodeProof (quoted.map fun q => (q.peerId, q.quote)) txHash
    (quoted.filterMap QuotedPeer.commitment)).mapError
      fun e => s!"proof serialize failed: {e.display}")) fun proofBytes =>
  putPeers C address content proofBytes quoted 0 "" >>= fun (accepted, lastErr) =>
  if accepted < closeGroupMajority then
    .ret (.error s!"chunk {hexEncode address.1} accepted by only {accepted} of {closeGroupSize} peers: {lastErr}")
  else .ret (.ok ())

/-- Store one chunk: quote, pay, and PUT against its close group. -/
def WasmClient.storeOne (self : WasmClient) (address : XorName) (content : Bytes)
    (token vault : Arr 20) : Prog Net Cells (Except String Unit) :=
  bindE (self.bootstrap.closestPeers C address) fun peers =>
  if peers.length < closeGroupSize then
    .ret (.error s!"need at least {closeGroupSize} responsible peers for {hexEncode address.1}, discovery returned {peers.length}")
  else
    bindE (quotePeers C address content.length (peers.take closeGroupSize) [] 0) fun
      | none => .ret (.ok ())
      | some quoted => payAndPut C address content token vault quoted

/-! ## Results as functions of an answer -/

/-- The result of `try_quote` once the peer has answered. -/
def quoteResult (peer : PeerConnectInfo) (address : XorName) (answer : Except String Bytes) :
    Except String (Quote × Bool × Option Bytes) := do
  let plaintext ← answer
  let response ← ChunkMessage.decode C plaintext
  let (quoteBytes, alreadyStored, commitment) ← quoteOfResponse response
  let quote ← checkQuote C peer address quoteBytes
  return (quote, alreadyStored, commitment)

/-- The result of `put_chunk` once the peer has answered. -/
def putResult (answer : Except String Bytes) : Except String Bool := do
  let plaintext ← answer
  let response ← ChunkMessage.decode C plaintext
  putOfResponse response

/-- The result of `closest_peers` once the node has answered. -/
def peersResult (answer : Except String Bytes) : Except String (List PeerConnectInfo) := do
  let plaintext ← answer
  let response ← DiscoveryMessage.decode C plaintext
  match response.body with
  | .closestPeersResponse r => .ok r.peers
  | .error e => .error s!"discovery error: {e}"
  | .closestPeersRequest _ => .error "unexpected discovery response"

theorem peersResult_put {C : Crates} {peers : List PeerConnectInfo}
    (hl : (DiscoveryMessage.put ⟨1, .closestPeersResponse ⟨peers⟩⟩).length < 2 ^ 32) :
    peersResult C (.ok (DiscoveryMessage.put ⟨1, .closestPeersResponse ⟨peers⟩⟩)) = .ok peers := by
  show (DiscoveryMessage.decode C _ >>= _) = _
  rw [DiscoveryMessage.decode_put _ (DiscoveryMessage.fits hl)]
  rfl

theorem tryQuote_eq (peer : PeerConnectInfo) (address : XorName) (dataSize : ℕ) :
    tryQuote C peer address dataSize = bindE (connectionFor C peer) fun conn =>
      .call (.roundTrip conn protoChunk (quoteRequest address dataSize).put) fun answer =>
      .ret (quoteResult C peer address answer) := by
  unfold tryQuote
  congr 1
  funext conn
  refine congrArg (Prog.call _) (funext fun answer => ?_)
  cases answer with
  | error e => rfl
  | ok plaintext =>
    show bindE (bindE (.ret (ChunkMessage.decode C plaintext)) _) _ =
      .ret (ChunkMessage.decode C plaintext >>= _)
    cases ChunkMessage.decode C plaintext with
    | error e => rfl
    | ok response =>
      show bindE (.ret (quoteOfResponse response)) _ = .ret (quoteOfResponse response >>= _)
      cases quoteOfResponse response with
      | error e => rfl
      | ok x => exact ret_bindE_ret _ _

theorem putChunk_eq (conn : NodeConnection) (address : XorName) (content proofBytes : Bytes) :
    (putChunk C conn address content proofBytes : Prog Net σ _) =
      .call (.roundTrip conn protoChunk (putRequest address content proofBytes).put) fun answer =>
      .ret (putResult C answer) := by
  refine congrArg (Prog.call _) (funext fun answer => ?_)
  cases answer with
  | error e => rfl
  | ok plaintext => exact ret_bindE_ret _ _

theorem closestPeers_eq (conn : NodeConnection) (address : XorName) :
    (conn.closestPeers C address : Prog Net σ _) =
      .call (.nextSeq conn) fun seq =>
      .call (.roundTrip conn protoDiscovery
        (DiscoveryMessage.put ⟨seq.toUInt64, .closestPeersRequest ⟨address⟩⟩)) fun answer =>
      .ret (peersResult C answer) := by
  refine congrArg (Prog.call _) (funext fun seq => congrArg (Prog.call _) (funext fun answer => ?_))
  cases answer with
  | error e => rfl
  | ok plaintext => exact ret_bindE_ret _ _

/-! ## What an answer must be -/

variable {C}

theorem checkQuote_ok {peer : PeerConnectInfo} {address : XorName} {quoteBytes : Bytes}
    {quote : Quote} (h : checkQuote C peer address quoteBytes = .ok quote) :
    parseQuote C quoteBytes = .ok quote ∧ quote.content = address ∧
      C.blake3 quote.pubKey = peer.peerId ∧ verifyQuote C quote = true := by
  unfold checkQuote at h
  split at h
  · cases h
  · rename_i q hq
    split_ifs at h with h1 h2 h3
    rw [not_not] at h1 h2
    cases h
    exact ⟨hq, h1, h2, h3⟩

/-- An accepted quote is one of the peer, verified and for the address. -/
theorem quoteResult_ok {peer : PeerConnectInfo} {address : XorName} {answer : Except String Bytes}
    {quote : Quote} {alreadyStored : Bool} {commitment : Option Bytes}
    (h : quoteResult C peer address answer = .ok (quote, alreadyStored, commitment)) :
    ∃ plaintext requestId quoteBytes, answer = .ok plaintext ∧
      ChunkMessage.decode C plaintext =
        .ok ⟨requestId, .quoteResponse (.success quoteBytes alreadyStored commitment)⟩ ∧
      parseQuote C quoteBytes = .ok quote ∧ quote.content = address ∧
      C.blake3 quote.pubKey = peer.peerId ∧ verifyQuote C quote = true := by
  simp only [quoteResult, bind_eq_ok] at h
  obtain ⟨plaintext, rfl, ⟨requestId, body⟩, hd, ⟨quoteBytes, flag, comm⟩, hr, q, hc, h⟩ := h
  cases h
  unfold quoteOfResponse at hr
  split at hr
  · rename_i hb
    cases hr
    dsimp only at hb
    exact ⟨plaintext, requestId, quoteBytes, rfl, by rw [hd, hb], checkQuote_ok hc⟩
  · cases hr
  · cases hr

theorem quoteResult_of_decode {peer : PeerConnectInfo} {address : XorName}
    {plaintext quoteBytes : Bytes} {requestId : UInt64} {quote : Quote} {alreadyStored : Bool}
    {commitment : Option Bytes} (hd : ChunkMessage.decode C plaintext =
      .ok ⟨requestId, .quoteResponse (.success quoteBytes alreadyStored commitment)⟩)
    (hq : checkQuote C peer address quoteBytes = .ok quote) :
    quoteResult C peer address (.ok plaintext) = .ok (quote, alreadyStored, commitment) := by
  show (ChunkMessage.decode C plaintext >>= _) = _
  rw [hd]
  show (checkQuote C peer address quoteBytes >>= _) = _
  rw [hq]
  rfl

theorem putResult_ok {answer : Except String Bytes} {b : Bool} (h : putResult C answer = .ok b) :
    b = true ∧ ∃ plaintext requestId address, answer = .ok plaintext ∧
      (ChunkMessage.decode C plaintext = .ok ⟨requestId, .putResponse (.success address)⟩ ∨
        ChunkMessage.decode C plaintext = .ok ⟨requestId, .putResponse (.alreadyExists address)⟩) := by
  simp only [putResult, bind_eq_ok] at h
  obtain ⟨plaintext, rfl, ⟨requestId, body⟩, hd, h⟩ := h
  unfold putOfResponse at h
  split at h
  · rename_i a hb
    cases h
    dsimp only at hb
    exact ⟨rfl, plaintext, requestId, a, rfl, Or.inl (by rw [hd, hb])⟩
  · rename_i a hb
    cases h
    dsimp only at hb
    exact ⟨rfl, plaintext, requestId, a, rfl, Or.inr (by rw [hd, hb])⟩
  all_goals cases h

end AntClient
