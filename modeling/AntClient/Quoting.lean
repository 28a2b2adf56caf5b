/-
  A network that quotes: nodes to which connections are open give their quotes, and either
  all accept PUTs or none does.

  * `tryQuote_quoting`: each node quotes at the first attempt.
  * `quotePeers_majority`, `quotePeers_unstored`: the quote loop returns early once
    a majority of the list is flagged, and collects every quote if no node is.
  * `storeOne_quoting`: where PUTs are accepted, a chunk that no node has is paid for and stored.
-/
import AntClient.Honest
import AntClient.StoreRun

namespace AntClient

open Async Prog Postcard

/-! ## The nodes -/

structure QuotingNodes where
  /-- the answer to a discovery query -/
  plaintext : Bytes
  ids : List XorName
  /-- the nodes that already store the chunk -/
  stored : Finset XorName
  /-- the quote for an address, by node -/
  quote : XorName → XorName → Quote
  commitment : Option Bytes
  /-- whether the nodes accept PUTs -/
  accepts : Bool

/-- The address of a chunk request: it comes after the request id and the variant. -/
def requestAddress (payload : Bytes) : XorName := first32 (payload.drop 2)

/-- The response of the node `id` to a chunk request. -/
def QuotingNodes.respond (N : QuotingNodes) (id : XorName) (payload : Bytes) : ChunkMessage where
  requestId := 1
  body :=
    if N.accepts ∧ payload[1]? = some 0 then .putResponse (.success (requestAddress payload))
    else .quoteResponse
      (.success (N.quote (requestAddress payload) id).put (id ∈ N.stored) N.commitment)

/-- The answers of the network. -/
def QuotingNodes.answer (N : QuotingNodes) : ∀ e : NetReq, Net.Ans e
  | .roundTrip conn tag payload =>
    if tag = protoDiscovery then .ok N.plaintext
    else if conn.peerId ∈ N.ids then .ok (N.respond conn.peerId payload).put
    else .error ""
  | .transportConnect _ _ _ | .relayOffer _ | .relayAnswer _ _ | .keygen | .sendFrame _ _
  | .recvFrame _ => .error ""
  | .nextSeq _ => 0
  | .pay _ _ => .resolved ⟨some (hex0x (zeros 32).1), none⟩

/-- The nodes quote for the address, and what they answer fits into a response. -/
structure QuotingNodes.Valid (C : Crates) (address : XorName) (N : QuotingNodes) : Prop where
  content : ∀ id ∈ N.ids, (N.quote address id).content = address
  key : ∀ a, ∀ id ∈ N.ids, C.blake3 (N.quote a id).pubKey = id
  verified : ∀ a, ∀ id ∈ N.ids, verifyQuote C (N.quote a id) = true
  commitment : ∀ b, N.commitment = some b → b.length ≤ 2 ^ 22

theorem respond_quoteRequest (N : QuotingNodes) (id address : XorName) (dataSize : ℕ) :
    N.respond id (quoteRequest address dataSize).put = ⟨1, .quoteResponse
      (.success (N.quote address id).put (id ∈ N.stored) N.commitment)⟩ := by
  have hput : (quoteRequest address dataSize).put = 1 :: 4 :: (address.1 ++
      (u64 (UInt64.ofNat dataSize) ++ u32 dataTypeChunk)) := rfl
  have haddress : requestAddress (quoteRequest address dataSize).put = address := by
    rw [hput]
    exact (first32_append address.2.ge).trans (first32_val address)
  rw [QuotingNodes.respond, haddress, if_neg]
  rw [hput]
  rintro ⟨-, h⟩
  cases h

theorem respond_putRequest {N : QuotingNodes} (hN : N.accepts = true) (id address : XorName)
    (content proofBytes : Bytes) :
    N.respond id (putRequest address content proofBytes).put =
      ⟨1, .putResponse (.success address)⟩ := by
  have hput : (putRequest address content proofBytes).put = 1 :: 0 :: (address.1 ++
      (bytes content ++ option bytes (some proofBytes))) := rfl
  have haddress : requestAddress (putRequest address content proofBytes).put = address := by
    rw [hput]
    exact (first32_append address.2.ge).trans (first32_val address)
  rw [QuotingNodes.respond, haddress, if_pos ⟨hN, by rw [hput]; rfl⟩]

/-! ## Open connections -/

section
variable (ids : List XorName)

/-- The connections to the nodes are open. -/
def Connected (cells : Cells) : Prop :=
  ∀ id ∈ ids, ∃ conn, cells.pool[id]? = some conn ∧ conn.peerId = id

def connected : Cells :=
  ids.foldr (fun id cells => cells.putConn id ⟨0, ⟨zeros 32⟩, id⟩) Cells.empty

theorem connected_keyed : (connected ids).Keyed fun _ => True := by
  induction ids with
  | nil =>
    intro k conn h
    simp [connected, Cells.empty] at h
  | cons id ids ih => exact ih.putConn rfl trivial

theorem connected_connected : Connected ids (connected ids) := by
  induction ids with
  | nil => simp [Connected]
  | cons id ids ih =>
    intro x hx
    show ∃ conn, ((connected ids).pool.insert id _)[x]? = some conn ∧ _
    rw [Std.HashMap.getElem?_insert]
    split
    · rename_i h
      exact ⟨_, rfl, eq_of_beq h⟩
    · rename_i h
      exact ih x ((List.mem_cons.1 hx).resolve_left fun hx => h (by simp [hx]))

end

/-! ## The client in this network -/

section
variable {C : Crates} {address : XorName} {N : QuotingNodes} {dataSize : ℕ}

/-- The environment of a run. -/
def QuotingNodes.contract (N : QuotingNodes) : Contract Net Cells where
  inv := Connected N.ids
  asks _ := True
  gets e r := r = N.answer e

theorem QuotingNodes.answers (N : QuotingNodes) (e : Net.Req) : N.contract.gets e (N.answer e) :=
  (rfl : N.answer e = N.answer e)

theorem connectionFor_quoting {peer : PeerConnectInfo} (hp : peer.peerId ∈ N.ids) :
    (connectionFor C peer).Safe N.contract fun r =>
      ∃ conn, r = .ok conn ∧ conn.peerId = peer.peerId := by
  intro cells hcells
  obtain ⟨conn, hconn, hid⟩ := hcells _ hp
  refine ⟨hcells, ?_⟩
  dsimp only
  rw [hconn]
  exact ⟨conn, rfl, hid⟩

theorem length_quoteResponse_le {quote : Quote} (h : verifyQuote C quote = true)
    (alreadyStored : Bool) {commitment : Option Bytes}
    (hc : ∀ b, commitment = some b → b.length ≤ 2 ^ 22) :
    (ChunkMessage.put ⟨1, .quoteResponse (.success quote.put alreadyStored commitment)⟩).length ≤
      maxWireMessageSize := by
  have h1 := length_u64_le 1
  have h2 := length_variant_le 5
  have h3 := length_variant_le 0
  have h4 := length_bytes_le quote.put
  have h5 := Quote.size_le C h
  rw [Quote.length_put] at h4
  have h6 : (Postcard.bool alreadyStored).length = 1 := by cases alreadyStored <;> rfl
  have h7 : (option bytes commitment).length ≤ 2 ^ 22 + 6 := by
    cases commitment with
    | none => decide
    | some b =>
      have := length_bytes_le b
      have := hc b rfl
      rw [option, List.length_cons]
      omega
  simp only [ChunkMessage.put, ChunkMessageBody.put, ChunkQuoteResponse.put, List.length_append,
    maxWireMessageSize]
  omega

/-- A verified quote of the peer for the address passes the checks. -/
theorem checkQuote_put {peer : PeerConnectInfo} {quote : Quote} (hc : quote.content = address)
    (hk : C.blake3 quote.pubKey = peer.peerId) (hv : verifyQuote C quote = true) :
    checkQuote C peer address quote.put = .ok quote := by
  rw [checkQuote, parseQuote_verified C hv]
  simp only
  rw [if_neg (not_not.2 hc), if_neg (not_not.2 hk), if_neg (not_not.2 hv)]

/-- What a node answers to a quote request. -/
theorem quoteResult_quoting (hN : N.Valid C address) {peer : PeerConnectInfo}
    (hp : peer.peerId ∈ N.ids) :
    quoteResult C peer address
        (.ok (N.respond peer.peerId (quoteRequest address dataSize).put).put) =
      .ok (N.quote address peer.peerId, decide (peer.peerId ∈ N.stored), N.commitment) := by
  have hv := hN.verified address _ hp
  rw [respond_quoteRequest]
  exact quoteResult_of_decode
    (ChunkMessage.decode_put _ (length_quoteResponse_le hv _ hN.commitment))
    (checkQuote_put (hN.content _ hp) (hN.key _ _ hp) hv)

/-- Each node quotes at the first attempt. -/
theorem tryQuote_quoting (hN : N.Valid C address) {peer : PeerConnectInfo}
    (hp : peer.peerId ∈ N.ids) :
    (tryQuote C peer address dataSize).Safe N.contract fun r =>
      r = .ok (N.quote address peer.peerId, decide (peer.peerId ∈ N.stored), N.commitment) := by
  rw [tryQuote_eq]
  refine (connectionFor_quoting hp).bind fun r hr => ?_
  obtain ⟨conn, rfl, hid⟩ := hr
  refine ⟨trivial, fun answer hanswer => ?_⟩
  have hans : answer = .ok (N.respond peer.peerId (quoteRequest address dataSize).put).put := by
    rw [show answer = _ from hanswer, QuotingNodes.answer, if_neg (by decide), hid, if_pos hp]
  show quoteResult C peer address answer = _
  rw [hans, quoteResult_quoting hN hp]

/-- Whether the node already stores the chunk, as a count. -/
def QuotingNodes.flag (N : QuotingNodes) (peer : PeerConnectInfo) : ℕ :=
  (decide (peer.peerId ∈ N.stored)).toNat

/-- A quote of the peer for the address. -/
def QuotingNodes.Gives (N : QuotingNodes) (address : XorName) (peer : PeerConnectInfo)
    (q : QuotedPeer) : Prop :=
  q.peerId = peer.peerId ∧ q.conn.peerId = peer.peerId ∧ q.quote = N.quote address peer.peerId ∧
    q.commitment = N.commitment

theorem attemptQuote_quoting (hN : N.Valid C address) {peer : PeerConnectInfo}
    (hp : peer.peerId ∈ N.ids) {count : ℕ} (hc : count < closeGroupMajority) (n : ℕ)
    (last : String) :
    (attemptQuote C peer address dataSize count (n + 1) last).Safe N.contract fun r =>
      (N.flag peer = 1 ∧ r = .ok .stored) ∨ count + N.flag peer < closeGroupMajority ∧
        ∃ q, N.Gives address peer q ∧ r = .ok (.quoted q (count + N.flag peer)) := by
  refine (tryQuote_quoting hN hp).bind fun r hr => ?_
  subst hr
  have hquoted : ∀ count', (bindE (connectionFor C peer) fun conn => .ret (.ok (.quoted
      ⟨peer.peerId, conn, N.quote address peer.peerId, N.commitment⟩ count')) :
      Prog Net Cells (Except String Attempted)).Safe N.contract fun r =>
        ∃ q, N.Gives address peer q ∧ r = .ok (.quoted q count') := by
    intro count'
    refine Safe.bindE (connectionFor_quoting hp) (fun conn hconn => ?_) fun e he => ?_
    · obtain ⟨conn', hc, hid⟩ := hconn
      cases hc
      exact ⟨_, ⟨rfl, hid, rfl, rfl⟩, rfl⟩
    · obtain ⟨conn', hc, -⟩ := he
      cases hc
  unfold QuotingNodes.flag
  by_cases hs : peer.peerId ∈ N.stored
  · rw [decide_eq_true hs]
    show Safe N.contract _ (if true = true ∧ closeGroupMajority ≤ count + 1 then _ else _)
    by_cases hm : closeGroupMajority ≤ count + 1
    · rw [if_pos ⟨rfl, hm⟩]
      exact Or.inl ⟨rfl, rfl⟩
    · rw [if_neg fun h => hm h.2]
      exact (hquoted (count + 1)).mono fun r hr => Or.inr ⟨not_le.1 hm, hr⟩
  · rw [decide_eq_false hs]
    exact (hquoted count).mono fun r hr => Or.inr ⟨hc, hr⟩

/-- Once a majority of the list is flagged, the loop returns early. -/
theorem quotePeers_majority (hN : N.Valid C address) (ps rest : List PeerConnectInfo)
    (hp : ∀ peer ∈ ps, peer.peerId ∈ N.ids) (quoted : List QuotedPeer) {count : ℕ}
    (hc : count < closeGroupMajority)
    (hm : closeGroupMajority ≤ count + ps.countP fun peer => peer.peerId ∈ N.stored) :
    (quotePeers C address dataSize (ps ++ rest) quoted count).Safe N.contract fun r =>
      r = .ok none := by
  induction ps generalizing quoted count with
  | nil => exact absurd hm (by simpa using hc)
  | cons peer ps ih =>
    obtain ⟨hpeer, hps⟩ := List.forall_mem_cons.1 hp
    refine (attemptQuote_quoting hN hpeer hc 2 "no attempt").bind fun r hr => ?_
    have hflag : (peer :: ps).countP (fun peer => peer.peerId ∈ N.stored) =
        N.flag peer + ps.countP fun peer => peer.peerId ∈ N.stored := by
      rw [List.countP_cons, Nat.add_comm, QuotingNodes.flag]
      by_cases hs : peer.peerId ∈ N.stored <;> simp [hs]
    rcases hr with ⟨-, rfl⟩ | ⟨hlt, q, -, rfl⟩
    · rfl
    · exact ih hps _ hlt (by omega)

theorem exists_of_mem_right {α β : Type} {R : α → β → Prop} {as : List α} {bs : List β}
    (h : List.Forall₂ R as bs) : ∀ b ∈ bs, ∃ a ∈ as, R a b := by
  induction h with
  | nil => simp
  | cons hR _ ih =>
    refine List.forall_mem_cons.2 ⟨⟨_, by simp, hR⟩, fun b hb => ?_⟩
    obtain ⟨a, ha, hab⟩ := ih b hb
    exact ⟨a, by simp [ha], hab⟩

/-- If no node is flagged, the loop collects every quote. -/
theorem quotePeers_unstored (hN : N.Valid C address) (hs : N.stored = ∅)
    (ps : List PeerConnectInfo) (hp : ∀ peer ∈ ps, peer.peerId ∈ N.ids)
    (quoted : List QuotedPeer) {count : ℕ} (hc : count < closeGroupMajority) :
    (quotePeers C address dataSize ps quoted count).Safe N.contract fun r =>
      ∃ qs, List.Forall₂ (N.Gives address) ps qs ∧ r = .ok (some (quoted ++ qs)) := by
  induction ps generalizing quoted count with
  | nil => exact ⟨[], .nil, by simp⟩
  | cons peer ps ih =>
    obtain ⟨hpeer, hps⟩ := List.forall_mem_cons.1 hp
    refine (attemptQuote_quoting hN hpeer hc 2 "no attempt").bind fun r hr => ?_
    have hflag : N.flag peer = 0 := by simp [QuotingNodes.flag, hs]
    rcases hr with ⟨h, -⟩ | ⟨hlt, q, hq, rfl⟩
    · omega
    · refine (ih hps (quoted ++ [q]) hlt).mono fun r hr => ?_
      obtain ⟨qs, hqs, rfl⟩ := hr
      exact ⟨q :: qs, .cons hq hqs, by simp⟩

/-! ### Payment and PUTs -/

theorem length_putResponse_le (address : XorName) :
    (ChunkMessage.put ⟨1, .putResponse (.success address)⟩).length ≤ maxWireMessageSize := by
  have h1 := length_u64_le 1
  have h2 := length_variant_le 1
  have h3 := length_variant_le 0
  simp only [ChunkMessage.put, ChunkMessageBody.put, ChunkPutResponse.put, List.length_append,
    address.2, maxWireMessageSize]
  omega

theorem attemptPut_quoting (hN : N.accepts = true) {conn : NodeConnection}
    (hid : conn.peerId ∈ N.ids) (content proofBytes : Bytes) (n : ℕ) (lastErr : String) :
    (attemptPut C conn address content proofBytes (n + 1) lastErr).Safe N.contract fun r =>
      r.1 = true := by
  rw [attemptPut, putChunk_eq]
  refine ⟨trivial, fun answer hanswer => ?_⟩
  have hans : answer = .ok (ChunkMessage.put ⟨1, .putResponse (.success address)⟩) := by
    rw [show answer = _ from hanswer, QuotingNodes.answer, if_neg (by decide), if_pos hid,
      respond_putRequest hN]
  have hok : putResult C answer = .ok true := by
    rw [hans, putResult]
    show (ChunkMessage.decode C _ >>= putOfResponse) = _
    rw [ChunkMessage.decode_put _ (length_putResponse_le address)]
    rfl
  show (Prog.ret (putResult C answer) >>= _).Safe _ _
  rw [hok]
  rfl

/-- Every PUT is accepted. -/
theorem putPeers_quoting (hN : N.accepts = true) (content proofBytes : Bytes)
    (quoted : List QuotedPeer) (hids : ∀ q ∈ quoted, q.conn.peerId ∈ N.ids) (accepted : ℕ)
    (lastErr : String) :
    (putPeers C address content proofBytes quoted accepted lastErr).Safe N.contract fun r =>
      r.1 = accepted + quoted.length := by
  induction quoted generalizing accepted lastErr with
  | nil => rfl
  | cons q quoted ih =>
    obtain ⟨hq, hquoted⟩ := List.forall_mem_cons.1 hids
    refine (attemptPut_quoting hN hq content proofBytes 2 lastErr).bind fun r hr => ?_
    obtain ⟨ok, last⟩ := r
    obtain rfl : ok = true := hr
    refine (ih hquoted (accepted + 1) last).mono fun r hr => ?_
    rw [hr, List.length_cons]
    omega

theorem callPay_quoting (recipient calldata : String) :
    (callPay recipient calldata).Safe N.contract fun r => r = .ok (hex0x (zeros 32).1) := by
  refine ⟨trivial, fun outcome houtcome => ?_⟩
  rw [show outcome = _ from houtcome]
  rfl

/-- Seven quotes are paid for, and their nodes take the chunk. -/
theorem payAndPut_quoting (hN : N.accepts = true) (content : Bytes) (token vault : Arr 20)
    {quoted : List QuotedPeer} (hids : ∀ q ∈ quoted, q.conn.peerId ∈ N.ids)
    (hl : quoted.length = closeGroupSize) :
    (payAndPut C address content token vault quoted).Safe N.contract fun r => r = .ok () := by
  obtain ⟨payments, hsplit⟩ : ∃ payments,
      paymentSplit C (quoted.map QuotedPeer.quote) = .ok payments :=
    ⟨_, dif_pos (by rw [List.length_map, hl])⟩
  rw [payAndPut, hsplit, ret_ok_bindE]
  refine (callPay_quoting _ _).bind fun r hr => ?_
  subst hr
  refine (callPay_quoting _ _).bind fun r hr => ?_
  subst hr
  show (bindE (.ret (parseTxHash C (hex0x (zeros 32).1))) _).Safe _ _
  rw [parseTxHash_hex0x, ret_ok_bindE]
  refine (putPeers_quoting hN content _ quoted hids 0 "").bind fun r hr => ?_
  show (if r.1 < closeGroupMajority then _ else _ : Prog Net Cells _).Safe _ _
  rw [hr, hl, if_neg (by decide)]
  rfl

/-! ## Runs -/

/-- `store_one` after a discovery query that has returned `peers`. -/
def storeAt (C : Crates) (address : XorName) (content : Bytes) (token vault : Arr 20)
    (peers : List PeerConnectInfo) : Prog Net Cells (Except String Unit) :=
  bindE (quotePeers C address content.length (peers.take closeGroupSize) [] 0) fun
    | none => .ret (.ok ())
    | some quoted => payAndPut C address content token vault quoted

theorem exec_storeOne {peers : List PeerConnectInfo}
    (hp : peersResult C (.ok N.plaintext) = .ok peers) (hl : closeGroupSize ≤ peers.length)
    (self : WasmClient) (content : Bytes) (token vault : Arr 20) (s : Cells) :
    (self.storeOne C address content token vault).exec N.answer s =
      (discovery self address 0 (.ok N.plaintext) ++
          ((storeAt C address content token vault peers).exec N.answer s).1,
        ((storeAt C address content token vault peers).exec N.answer s).2) := by
  unfold WasmClient.storeOne
  rw [closestPeers_eq]
  show (_ :: _ :: (exec (S := Net) N.answer (bindE (.ret (peersResult C (.ok N.plaintext))) _) s).1,
    (exec (S := Net) N.answer (bindE (.ret (peersResult C (.ok N.plaintext))) _) s).2) = _
  rw [hp, ret_ok_bindE, if_neg (by omega)]
  rfl

/-- The callback pays. -/
theorem exec_callPay {α : Type} (recipient calldata : String)
    (g : String → Prog Net Cells (Except String α)) (s : Cells) :
    exec (S := Net) N.answer (bindE (callPay recipient calldata) g) s =
      (⟨.pay recipient calldata, N.answer (.pay recipient calldata)⟩ ::
          (exec (S := Net) N.answer (g (hex0x (zeros 32).1)) s).1,
        (exec (S := Net) N.answer (g (hex0x (zeros 32).1)) s).2) := rfl

/-- The first PUT goes to the first of the quoted peers. -/
theorem exec_putPeers {α : Type} (content proofBytes : Bytes) (q : QuotedPeer)
    (quoted : List QuotedPeer) (k : ℕ × String → Prog Net Cells α) (s : Cells) :
    ∃ answer post, (exec (S := Net) N.answer
      (putPeers C address content proofBytes (q :: quoted) 0 "" >>= k) s).1 =
        ⟨.roundTrip q.conn protoChunk (putRequest address content proofBytes).put, answer⟩ ::
          post := by
  rw [putPeers, quoteAttempts, attemptPut, putChunk_eq]
  exact ⟨_, _, rfl⟩

/-- If every node of the close group quotes and none is flagged, the client pays, and
    the first PUT goes to the first of them. -/
theorem exec_storeOne_paid (hN : N.Valid C address) (hs : N.stored = ∅)
    {peers : List PeerConnectInfo} (hp : peersResult C (.ok N.plaintext) = .ok peers)
    (hl : closeGroupSize ≤ peers.length)
    (hids : ∀ peer ∈ peers.take closeGroupSize, peer.peerId ∈ N.ids) {s : Cells}
    (hcells : Connected N.ids s) (self : WasmClient) (content : Bytes) (token vault : Arr 20) :
    ∃ seg quoted payments r₁ r₂ proofBytes conn answer post,
      List.Forall₂ (N.Gives address) (peers.take closeGroupSize) quoted ∧
      serializeSingleNodeProof (quoted.map fun q => (q.peerId, q.quote)) (zeros 32)
        (quoted.filterMap QuotedPeer.commitment) = .ok proofBytes ∧
      ((self.storeOne C address content token vault).exec N.answer s).1 =
        discovery self address 0 (.ok N.plaintext) ++ (seg ++ (approveEvent token vault payments r₁ ::
          payForQuotesEvent C vault payments r₂ :: ⟨.roundTrip conn protoChunk
            (putRequest address content proofBytes).put, answer⟩ :: post)) := by
  have hzero : 0 < closeGroupMajority := by decide
  have hquotes : (quotePeers C address content.length (peers.take closeGroupSize) [] 0).Safe
      N.contract _ := quotePeers_unstored hN hs _ hids [] hzero
  obtain ⟨-, quoted, hquoted, hr⟩ := hquotes.exec N.answers hcells
  rw [List.nil_append] at hr
  have hlen := hquoted.length_eq
  rw [List.length_take, min_eq_left hl] at hlen
  cases quoted with
  | nil => cases hlen
  | cons q quoted =>
    obtain ⟨payments, hsplit⟩ : ∃ payments,
        paymentSplit C ((q :: quoted).map QuotedPeer.quote) = .ok payments := by
      refine ⟨_, dif_pos ?_⟩
      rw [List.length_map, ← hlen]
    rw [exec_storeOne hp hl, storeAt, bindE, exec_bind, hr]
    dsimp only
    rw [payAndPut, hsplit, ret_ok_bindE, exec_callPay, exec_callPay, parseTxHash_hex0x, ret_ok_bindE]
    obtain ⟨answer, post, hput⟩ := exec_putPeers content _ q quoted _ _
    exact ⟨_, q :: quoted, payments, _, _, _, q.conn, answer, post, hquoted, rfl,
      congrArg (fun l => _ ++ (_ ++ (_ :: _ :: l))) hput⟩

/-- **Storing a chunk that no node has**: it is paid for, and the nodes take it. -/
theorem storeOne_quoting (hN : N.Valid C address) (hs : N.stored = ∅) (haccepts : N.accepts = true)
    {peers : List PeerConnectInfo} (hp : peersResult C (.ok N.plaintext) = .ok peers)
    (hl : closeGroupSize ≤ peers.length)
    (hids : ∀ peer ∈ peers.take closeGroupSize, peer.peerId ∈ N.ids) {s : Cells}
    (hcells : Connected N.ids s) (self : WasmClient) (content : Bytes) (token vault : Arr 20) :
    let run := (self.storeOne C address content token vault).exec N.answer s
    run.2.1 = .ok () ∧ Connected N.ids run.2.2 := by
  have hzero : 0 < closeGroupMajority := by decide
  have hstore : (storeAt C address content token vault peers).Safe N.contract
      fun r => r = .ok () := by
    refine Safe.bindE (quotePeers_unstored hN hs _ hids [] hzero) (fun o ho => ?_) fun e he => ?_
    · obtain ⟨qs, hqs, ho⟩ := ho
      cases ho
      refine payAndPut_quoting haccepts content token vault (fun q hq => ?_) ?_
      · obtain ⟨peer, hpeer, -, hconn, -⟩ := exists_of_mem_right hqs q hq
        rw [hconn]
        exact hids peer hpeer
      · rw [List.nil_append, ← hqs.length_eq, List.length_take, min_eq_left hl]
    · obtain ⟨qs, -, he⟩ := he
      cases he
  obtain ⟨hinv, hok⟩ := hstore.exec N.answers hcells
  rw [exec_storeOne hp hl]
  exact ⟨hok, hinv⟩

end

/-! ## An instance

With the transparent primitives every node can quote. -/

/-- A quote of the node `id`. -/
def honestQuote (address id : XorName) : Quote where
  content := address
  timestamp := ⟨0, 0⟩
  price := zeros 32
  rewardsAddress := zeros 20
  pubKey := id.1 ++ (zeros 1920).1
  signature := (zeros mlDsa65SigSize).1
  committedKeyCount := 0
  commitmentPin := none

theorem blake3_honestQuote (address id : XorName) :
    Crates.transparent.blake3 (honestQuote address id).pubKey = id := by
  show first32 (id.1 ++ _) = id
  rw [first32_append id.2.ge, first32_val]

theorem verifyQuote_honestQuote (address id : XorName) :
    verifyQuote .transparent (honestQuote address id) = true := by
  have hpk : (honestQuote address id).pubKey.length = mlDsa65PkSize := by
    rw [honestQuote, List.length_append, id.2, (zeros 1920).2]
    rfl
  have hsig : (honestQuote address id).signature.length = mlDsa65SigSize := (zeros _).2
  unfold verifyQuote
  rw [(Arr.ofBytes?_eq_some (a := ⟨_, hpk⟩)).2 rfl, (Arr.ofBytes?_eq_some (a := ⟨_, hsig⟩)).2 rfl]
  rfl

/-- Peers with these ids. -/
def peersOf (ids : List XorName) : List PeerConnectInfo :=
  ids.map fun id => { honestPeer with peerId := id }

theorem length_peersOf_lt {ids : List XorName} (hl : ids.length < 2 ^ 16) :
    (DiscoveryMessage.put ⟨1, .closestPeersResponse ⟨peersOf ids⟩⟩).length < 2 ^ 32 := by
  refine length_peers_lt (fun p hp => ?_) (by rwa [peersOf, List.length_map])
  obtain ⟨id, -, rfl⟩ := List.mem_map.1 hp
  exact honestPeer_ip

theorem map_peerId_peersOf (ids : List XorName) :
    (peersOf ids).map PeerConnectInfo.peerId = ids := by
  rw [peersOf, List.map_map]
  exact List.map_id ids

/-- The ids of seven nodes. -/
def sevenNodes : List XorName := ([1, 2, 3, 4, 5, 6, 7] : List UInt8).map (Arr.replicate 32)

theorem nodup_sevenNodes : sevenNodes.Nodup := by
  refine List.Nodup.map (fun a b h => ?_) (by simp)
  exact List.replicate_right_injective (by simp) (congrArg Subtype.val h)

theorem honestPeer_notMem : honestPeer.peerId ∉ sevenNodes := by
  simp only [honestPeer, honestAccept, zeros]
  decide

/-- A network of the nodes `ids`, none of which stores the chunk. -/
def quotingNodes (ids : List XorName) (commitment : Option Bytes) (accepts : Bool) :
    QuotingNodes where
  plaintext := DiscoveryMessage.put ⟨1, .closestPeersResponse ⟨peersOf ids⟩⟩
  ids := ids
  stored := ∅
  quote := honestQuote
  commitment := commitment
  accepts := accepts

theorem quotingNodes_valid (address : XorName) (ids : List XorName) {commitment : Option Bytes}
    (hc : ∀ b, commitment = some b → b.length ≤ 2 ^ 22) (accepts : Bool) :
    (quotingNodes ids commitment accepts).Valid .transparent address where
  content _ _ := rfl
  key a id _ := blake3_honestQuote a id
  verified a id _ := verifyQuote_honestQuote a id
  commitment := hc

/-- Store an empty chunk in a network of seven quoting nodes. -/
def quotingRun (commitment : Option Bytes) : List (Ev Net) × Except String Unit × Cells :=
  (honestClient.storeOne .transparent (zeros 32) [] (zeros 20) (zeros 20)).exec
    (quotingNodes sevenNodes commitment false).answer (connected sevenNodes)

theorem quotingRun_run {I : Cells → Cells → Prop} (hI : ∀ s, I s s) (commitment : Option Bytes) :
    Run I (honestClient.storeOne .transparent (zeros 32) [] (zeros 20) (zeros 20))
      (connected sevenNodes) (quotingRun commitment).1 (some (quotingRun commitment).2.1)
      (quotingRun commitment).2.2 := exec_run _ hI _ _

/-- The client pays, and sends a PUT. -/
theorem quotingRun_paid (commitment : Option Bytes)
    (hc : ∀ b, commitment = some b → b.length ≤ 2 ^ 22) :
    ∃ pre quoted payments r₁ r₂ proofBytes conn answer post,
      List.Forall₂ ((quotingNodes sevenNodes commitment false).Gives (zeros 32))
        (peersOf sevenNodes) quoted ∧
      serializeSingleNodeProof (quoted.map fun q => (q.peerId, q.quote)) (zeros 32)
        (quoted.filterMap QuotedPeer.commitment) = .ok proofBytes ∧
      (quotingRun commitment).1 = pre ++ (approveEvent (zeros 20) (zeros 20) payments r₁ ::
        payForQuotesEvent .transparent (zeros 20) payments r₂ :: ⟨.roundTrip conn protoChunk
          (putRequest (zeros 32) [] proofBytes).put, answer⟩ :: post) := by
  have htake : (peersOf sevenNodes).take closeGroupSize = peersOf sevenNodes := rfl
  have hids : ∀ peer ∈ (peersOf sevenNodes).take closeGroupSize,
      peer.peerId ∈ (quotingNodes sevenNodes commitment false).ids := by
    intro peer hpeer
    have h := List.mem_map_of_mem (f := PeerConnectInfo.peerId) hpeer
    rwa [htake, map_peerId_peersOf] at h
  obtain ⟨seg, quoted, payments, r₁, r₂, proofBytes, conn, answer, post, hquoted, hproof, htr⟩ :=
    exec_storeOne_paid (quotingNodes_valid (zeros 32) sevenNodes hc false) rfl
      (peersResult_put (length_peersOf_lt (by decide))) le_rfl hids
      (connected_connected sevenNodes) honestClient [] (zeros 20) (zeros 20)
  rw [htake] at hquoted
  exact ⟨_, quoted, payments, r₁, r₂, proofBytes, conn, answer, post, hquoted, hproof,
    htr.trans (List.append_assoc _ _ _).symm⟩

end AntClient
