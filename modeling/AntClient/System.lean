/-
  The client as a system: `connect`, then the calls of its interface (`lib.rs`), started
  at any time and interleaved in any order.

  * `perform_safe`: whatever a call does, the pool stays keyed by the ids that its
    connections authenticated, and requests are sent over such connections only.
  * `peer_authentication`: what `finish` accepts, what a signature stands for, and what
    holds of the pool in every reachable state.
-/
import AntClient.Upload

namespace AntClient

open Async Prog Bytes

variable {DataMap : Type} (S : SelfEncryption DataMap) (C : Crates)

/-! ## The calls -/

/-- The calls of the interface of a client. -/
inductive ClientCall
  | download (addressHex : String)
  | fetchChunk (addressHex : String)
  | upload (data : Bytes) (tokenAddrHex vaultAddrHex : String)
  | relayedFetch (targetPeerIdHex stunAddr addressHex : String)
  | closestPeersJson (addressHex : String)

/-- What a call does, but for what it returns to JavaScript. -/
def WasmClient.perform (client : WasmClient) : ClientCall → Prog Net Cells Unit
  | .download addressHex => client.download S C addressHex >>= fun _ => .ret ()
  | .fetchChunk addressHex => client.fetchChunk C addressHex >>= fun _ => .ret ()
  | .upload data tokenAddrHex vaultAddrHex =>
    client.upload S C data tokenAddrHex vaultAddrHex >>= fun _ => .ret ()
  | .relayedFetch targetPeerIdHex stunAddr addressHex =>
    client.relayedFetch C targetPeerIdHex stunAddr addressHex >>= fun _ => .ret ()
  | .closestPeersJson addressHex => client.closestPeersJson C addressHex >>= fun _ => .ret ()

/-- The reachable configurations of a client, with the events from `connect` on. -/
def WasmClient.Reachable (client : WasmClient) (cells : Cells) (tasks : List (Prog Net Cells Unit))
    (tr : List (Ev Net)) : Prop :=
  ∃ ip port certHashHex peerIdHex cells₀ tr₀ tr₁, tr = tr₀ ++ tr₁ ∧
    Run (Any Unit) (WasmClient.connect C ip port certHashHex peerIdHex) () tr₀
      (some (.ok (client, cells₀))) () ∧
    Reach (fun p => ∃ call, client.perform S C call = p) (· = cells₀) cells tasks tr₁

/-! ## Every call is safe -/

/-- The pool is keyed and holds authentic connections, and requests are sent over
    authentic connections only. -/
def poolContract (E : Ev Net → Prop) : Contract Net Cells where
  inv := Cells.Keyed (Authentic C E)
  asks e := ∀ conn, e.Uses conn → Authentic C E conn
  gets e r := E ⟨e, r⟩

section
variable {S C} {E : Ev Net → Prop} {client : WasmClient}

theorem NetReq.Opens.asks {e : NetReq} (h : e.Opens) : (poolContract C E).asks e := by
  intro conn hu
  cases e with
  | nextSeq | roundTrip => cases h
  | _ => cases hu

theorem connectionFor_pool (peer : PeerConnectInfo) :
    (connectionFor C peer).Safe (poolContract C E)
      (Safe.IfOk fun conn => conn.peerId = peer.peerId ∧ Authentic C E conn) :=
  connectionFor_keyed C rfl (fun _ => NetReq.Opens.asks) (fun _ _ h => h) (fun _ h => h) peer

/-- What is sent over an authentic connection. -/
theorem Authentic.asks {conn : NodeConnection} (h : Authentic C E conn) {e : NetReq}
    (hu : e.Uses conn) : (poolContract C E).asks e := by
  intro conn' hu'
  have hconn : conn' = conn := by
    cases e with
    | nextSeq | roundTrip => exact hu'.symm.trans hu
    | _ => cases hu
  rw [hconn]
  exact h

/-! ### Fetches -/

theorem getDirect_pool (hboot : Authentic C E client.bootstrap) (address : XorName) :
    (client.getDirect C address).Safe (poolContract C E) fun _ => True := by
  have hconn : ∀ peer, (connectionFor C peer).Safe (poolContract C E)
      (Safe.IfOk (Authentic C E)) := fun peer =>
    (connectionFor_pool peer).mono fun r hr conn hc => (hr conn hc).2
  exact (getDirect_safe C hconn (fun _ => hboot.asks) (fun _ h _ => h.asks) (fun _ _ h => h)
    address).mono fun _ _ => trivial

/-- A download changes nothing of the cells but its counter. -/
theorem downloadFrom_accesses (address : XorName) :
    (downloadFrom S address).Accesses fun f => ∀ cells : Cells, (f cells).pool = cells.pool := by
  have hloop : ∀ m (r : Retrieval DataMap), r.remaining S = m →
      (downloadLoop S r).Accesses fun f => ∀ cells : Cells, (f cells).pool = cells.pool := by
    intro m
    induction m using Nat.strong_induction_on with
    | _ m ih =>
      intro r hm
      rw [downloadLoop]
      split
      · trivial
      rename_i hc
      intro fetched
      dsimp only
      split
      · exact ⟨fun _ => rfl, fun _ => trivial⟩
      · rename_i r₁ n hsup
        refine ⟨fun _ => rfl, fun _ => ?_⟩
        split
        · trivial
        · rename_i r₂ hadv
          exact ih _ (hm ▸ Retrieval.remaining_lt hc fetched.2 hsup hadv) r₂ rfl
  refine ⟨fun _ => rfl, fun _ mapBytes => ?_⟩
  cases mapBytes with
  | error e => trivial
  | ok mapBytes =>
    refine ⟨fun _ => rfl, fun _ => ?_⟩
    show (bindE (.ret (Retrieval.start S address mapBytes)) _).Accesses _
    cases Retrieval.start S address mapBytes with
    | error e => trivial
    | ok r => exact hloop _ r rfl

theorem Cells.Keyed.of_pool_eq {P : NodeConnection → Prop} {cells cells' : Cells}
    (h : cells.Keyed P) (hp : cells'.pool = cells.pool) : cells'.Keyed P := by
  intro k conn hc
  rw [hp] at hc
  exact h k conn hc

theorem download_pool (hboot : Authentic C E client.bootstrap) (addressHex : String) :
    (client.download S C addressHex).Safe (poolContract C E) fun _ => True := by
  unfold WasmClient.download
  cases parseAddress C addressHex with
  | error e => trivial
  | ok address =>
    show ((downloadFrom S address).handle (client.fetches C)).Safe (poolContract C E) _
    have hfrom : (downloadFrom S address).Safe
        ⟨Cells.Keyed (Authentic C E), fun _ => True, fun _ _ => True⟩ fun _ => True :=
      Safe.of_accesses (fun f hf s hs => Cells.Keyed.of_pool_eq hs (hf s)) (fun _ => trivial)
        (downloadFrom_accesses address)
    have hinv : Cells.Keyed (Authentic C E) = (poolContract C E).inv := rfl
    refine Safe.handle hinv hfrom fun e _ => ?_
    cases e with
    | one a => exact getDirect_pool hboot a
    | all as =>
      refine (Safe.joined (Q := fun _ _ => True) fun a _ => ?_).mono fun _ _ => trivial
      exact getDirect_pool hboot a

theorem relayedFetch_pool (hboot : Authentic C E client.bootstrap)
    (targetPeerIdHex stunAddr addressHex : String) :
    (client.relayedFetch C targetPeerIdHex stunAddr addressHex).Safe (poolContract C E)
      fun _ => True := by
  unfold WasmClient.relayedFetch
  cases parseAddress C targetPeerIdHex with
  | error e => trivial
  | ok target =>
    cases parseAddress C addressHex with
    | error e => trivial
    | ok address =>
      have hopen : (client.bootstrap.connectViaRelay C stunAddr target).Safe (poolContract C E)
          (Safe.IfOk (Authentic C E)) := by
        refine ⟨fun _ h => (by cases h), fun offer _ => ?_⟩
        cases offer with
        | error e => exact Safe.ret_error
        | ok offer =>
          have hsignal : (client.bootstrap.signalRelay C target offer.2 :
              Prog Net Cells _).Safe (poolContract C E) (Safe.IfOk fun _ => True) := by
            refine ⟨hboot.asks rfl, fun seq _ => ⟨hboot.asks rfl, fun plaintext _ => ?_⟩⟩
            cases plaintext with
            | error e => exact Safe.ret_error
            | ok plaintext =>
              show (bindE (.ret (SignalRelayMessage.decode C plaintext)) _).Safe _ _
              cases SignalRelayMessage.decode C plaintext with
              | error e => exact Safe.ret_error
              | ok response => exact fun _ _ => trivial
          refine hsignal.bindE_ok fun answerSdp _ => ⟨fun _ h => (by cases h), fun t _ => ?_⟩
          cases t with
          | error e => exact Safe.ret_error
          | ok t =>
            exact (establish_safe C (fun _ => NetReq.Opens.asks) (fun _ _ h => h)).mono
              fun r hr conn hc => (hr conn hc).1
      refine Safe.mono (fun _ _ => trivial) (hopen.bindE_ok (R := fun _ => True) fun conn hconn => ?_)
      refine (getVerified_safe C (fun _ => hconn.asks) (fun _ _ h => h) address).bindE_ok
        fun content _ => Safe.ret_ok trivial

/-! ### Uploads -/

/-- A quoted peer is filed with an authentic connection of its own. -/
def QuotedPeer.Own (C : Crates) (E : Ev Net → Prop) (q : QuotedPeer) : Prop :=
  q.conn.peerId = q.peerId ∧ Authentic C E q.conn

theorem attemptQuote_pool (peer : PeerConnectInfo) (address : XorName) (dataSize count : ℕ) :
    ∀ n last, (attemptQuote C peer address dataSize count n last).Safe (poolContract C E)
      (Safe.IfOk fun a => ∀ q c, a = .quoted q c → q.Own C E)
  | 0, last => Safe.ret_ok fun _ _ h => by cases h
  | n + 1, last => by
    have hquote : (tryQuote C peer address dataSize).Safe (poolContract C E) fun _ => True := by
      rw [tryQuote_eq]
      refine Safe.bindE (connectionFor_pool peer) (fun conn hconn => ?_) fun _ _ => trivial
      exact ⟨(hconn conn rfl).2.asks rfl, fun answer _ => trivial⟩
    refine hquote.bind fun r _ => ?_
    cases r with
    | error e =>
      show Safe _ _ (if 0 < n then _ else _)
      split
      · exact fun cells hcells => ⟨hcells.dropConn, attemptQuote_pool peer address dataSize count n e⟩
      · exact attemptQuote_pool peer address dataSize count n e
    | ok x =>
      obtain ⟨quote, alreadyStored, commitment⟩ := x
      dsimp only
      generalize (if alreadyStored = true then count + 1 else count) = count'
      split
      · exact Safe.ret_ok fun _ _ h => by cases h
      · refine (connectionFor_pool peer).bindE_ok fun conn hconn => Safe.ret_ok ?_
        rintro q c ⟨⟩
        exact hconn

theorem quotePeers_pool (address : XorName) (dataSize : ℕ) (peers : List PeerConnectInfo) :
    ∀ (quoted : List QuotedPeer) (count : ℕ), (∀ q ∈ quoted, q.Own C E) →
      (quotePeers C address dataSize peers quoted count).Safe (poolContract C E)
        (Safe.IfOk fun o => ∀ qs, o = some qs → ∀ q ∈ qs, q.Own C E) := by
  induction peers with
  | nil =>
    intro quoted count hq
    refine Safe.ret_ok ?_
    rintro qs ⟨⟩
    exact hq
  | cons peer peers ih =>
    intro quoted count hq
    refine (attemptQuote_pool peer address dataSize count quoteAttempts "no attempt").bindE_ok
      fun a ha => ?_
    cases a with
    | stored => exact Safe.ret_ok fun _ h => by cases h
    | failed last => exact Safe.ret_error
    | quoted q c =>
      refine ih _ c fun q' hq' => ?_
      rcases List.mem_append.1 hq' with hq' | hq'
      · exact hq q' hq'
      · rw [List.mem_singleton.1 hq']
        exact ha q c rfl

theorem putPeers_pool (address : XorName) (content proofBytes : Bytes) (quoted : List QuotedPeer)
    (hq : ∀ q ∈ quoted, q.Own C E) (accepted : ℕ) (lastErr : String) :
    (putPeers C address content proofBytes quoted accepted lastErr : Prog Net Cells _).Safe
      (poolContract C E) fun _ => True := by
  have hput : ∀ conn : NodeConnection, Authentic C E conn → ∀ n lastErr,
      (attemptPut C conn address content proofBytes n lastErr : Prog Net Cells _).Safe
        (poolContract C E) fun _ => True := by
    intro conn hconn n
    induction n with
    | zero => exact fun _ => trivial
    | succ n ih =>
      intro lastErr
      rw [attemptPut, putChunk_eq]
      refine ⟨hconn.asks rfl, fun answer _ => ?_⟩
      show Safe _ _ (Prog.ret (putResult C answer) >>= _)
      cases putResult C answer with
      | error e => exact ih e
      | ok b =>
        cases b with
        | true => trivial
        | false => trivial
  induction quoted generalizing accepted lastErr with
  | nil => trivial
  | cons q quoted ih =>
    obtain ⟨hq, hquoted⟩ := List.forall_mem_cons.1 hq
    exact (hput q.conn hq.2 _ _).bind fun r _ => ih hquoted _ _

theorem callPay_pool (recipient calldata : String) :
    (callPay recipient calldata : Prog Net Cells _).Safe (poolContract C E) fun _ => True :=
  ⟨fun _ h => (by cases h), fun _ _ => trivial⟩

theorem payAndPut_pool (address : XorName) (content : Bytes) (token vault : Arr 20)
    (quoted : List QuotedPeer) (hq : ∀ q ∈ quoted, q.Own C E) :
    (payAndPut C address content token vault quoted : Prog Net Cells _).Safe (poolContract C E)
      fun _ => True := by
  unfold payAndPut
  cases paymentSplit C (quoted.map QuotedPeer.quote) with
  | error e => trivial
  | ok payments =>
    refine (callPay_pool _ _).bindE (fun _ _ => ?_) fun _ _ => trivial
    refine (callPay_pool _ _).bindE (fun txHex _ => ?_) fun _ _ => trivial
    cases parseTxHash C txHex with
    | error e => trivial
    | ok txHash =>
      rw [ret_ok_bindE]
      cases (serializeSingleNodeProof (quoted.map fun q => (q.peerId, q.quote)) txHash
        (quoted.filterMap QuotedPeer.commitment)) with
      | error e => trivial
      | ok proofBytes =>
        refine (putPeers_pool address content proofBytes quoted hq 0 "").bind fun r _ => ?_
        show Safe _ _ (if r.1 < closeGroupMajority then _ else _)
        split <;> trivial

theorem storeOne_pool (hboot : Authentic C E client.bootstrap) (address : XorName)
    (content : Bytes) (token vault : Arr 20) :
    (client.storeOne C address content token vault).Safe (poolContract C E) fun _ => True := by
  refine (closestPeers_safe C (fun _ => hboot.asks) address).bindE (fun peers _ => ?_)
    fun _ _ => trivial
  split
  · trivial
  · refine Safe.bindE (quotePeers_pool address content.length _ [] 0 (by simp)) (fun o ho => ?_)
      fun _ _ => trivial
    cases o with
    | none => trivial
    | some quoted => exact payAndPut_pool address content token vault quoted (ho _ rfl quoted rfl)

theorem upload_pool (hboot : Authentic C E client.bootstrap) (data : Bytes)
    (tokenAddrHex vaultAddrHex : String) :
    (client.upload S C data tokenAddrHex vaultAddrHex).Safe (poolContract C E) fun _ => True := by
  have hall : ∀ token vault items,
      (client.storeAll C token vault items).Safe (poolContract C E) fun _ => True := by
    intro token vault items
    induction items with
    | nil => trivial
    | cons x items ih =>
      exact (storeOne_pool hboot x.1 x.2 token vault).bindE (fun _ _ => ih) fun _ _ => trivial
  unfold WasmClient.upload
  cases parseEthAddress C tokenAddrHex with
  | error e => trivial
  | ok token =>
    cases parseEthAddress C vaultAddrHex with
    | error e => trivial
    | ok vault =>
      cases uploadItems S C data with
      | error e => trivial
      | ok x => exact (hall token vault x.1).bindE (fun _ _ => trivial) fun _ _ => trivial

/-- **Every call** keeps the pool keyed, and sends its requests over authentic connections. -/
theorem perform_safe (hboot : Authentic C E client.bootstrap) (call : ClientCall) :
    (client.perform S C call).Safe (poolContract C E) fun _ => True := by
  cases call with
  | download addressHex => exact (download_pool hboot addressHex).bind fun _ _ => trivial
  | fetchChunk addressHex =>
    refine Safe.bind (Q := fun _ => True) ?_ fun _ _ => trivial
    unfold WasmClient.fetchChunk
    cases parseAddress C addressHex with
    | error e => trivial
    | ok address => exact getDirect_pool hboot address
  | upload data t v => exact (upload_pool hboot data t v).bind fun _ _ => trivial
  | relayedFetch target stun addressHex =>
    exact (relayedFetch_pool hboot target stun addressHex).bind fun _ _ => trivial
  | closestPeersJson addressHex =>
    refine Safe.bind (Q := fun _ => True) ?_ fun _ _ => trivial
    unfold WasmClient.closestPeersJson
    cases parseAddress C addressHex with
    | error e => trivial
    | ok address =>
      exact (closestPeers_safe C (fun _ => hboot.asks) address).bindE (fun _ _ => trivial)
        fun _ _ => trivial

/-! ## Reachable configurations -/

/-- `connect` asks for nothing but the bootstrap connection, and files it under its id. -/
theorem connect_pool {σ : Type} (ip : String) (port : UInt16) (certHashHex peerIdHex : String) :
    (WasmClient.connect C ip port certHashHex peerIdHex : Prog Net σ _).Safe
      { Contract.answers E with asks := NetReq.Opens }
      (Safe.IfOk fun x => Authentic C E x.1.bootstrap ∧ x.2.Keyed (Authentic C E)) := by
  unfold WasmClient.connect
  cases parseOptPeerId C peerIdHex with
  | error e => exact Safe.ret_error
  | ok expected =>
    refine (connect_safe C (fun _ h => h) fun _ _ h => h).bindE_ok fun conn hconn => Safe.ret_ok ?_
    refine ⟨hconn.1, ?_⟩
    have hempty : Cells.empty.Keyed (Authentic C E) := by
      intro k c hc
      simp [Cells.empty] at hc
    exact hempty.putConn rfl hconn.1

/-- **In every reachable configuration** the pool is keyed by the ids that its connections
    authenticated, and every request so far went over an authentic connection. -/
theorem WasmClient.Reachable.pool {cells : Cells} {tasks : List (Prog Net Cells Unit)}
    {tr : List (Ev Net)} (h : client.Reachable S C cells tasks tr) :
    cells.Keyed (Authentic C (· ∈ tr)) ∧
      ∀ ev ∈ tr, ∀ conn, ev.req.Uses conn → Authentic C (· ∈ tr) conn := by
  obtain ⟨ip, port, certHashHex, peerIdHex, cells₀, tr₀, tr₁, rfl, hconnect, hreach⟩ := h
  obtain ⟨-, hopens, hok⟩ := Safe.run (hconnect.mono fun _ _ _ _ => trivial)
    (connect_pool (E := fun ev => ev ∈ tr₀ ++ tr₁) ip port certHashHex peerIdHex) trivial
    fun ev hev => List.mem_append_left _ hev
  obtain ⟨hboot, hcells⟩ := hok _ rfl _ rfl
  obtain ⟨hkeyed, -, hasks⟩ := hreach.safe (C := poolContract C fun ev => ev ∈ tr₀ ++ tr₁)
    (by rintro s rfl; exact hcells) (by rintro p ⟨call, rfl⟩; exact perform_safe hboot call)
    fun ev hev => List.mem_append_right _ hev
  refine ⟨hkeyed, fun ev hev conn hu => ?_⟩
  rcases List.mem_append.1 hev with hev | hev
  · exact (hopens ev hev).asks conn hu
  · exact hasks ev hev conn hu

end

/-! ## Peer authentication -/

/-- An ideal signature scheme: what verifies has been made with the key, and a signature is
    made for one message. -/
structure Crates.IdealSignatures (C : Crates)
    (made : Arr mlDsa65PkSize → Bytes → Arr mlDsa65SigSize → Prop) : Prop where
  verify : ∀ key message signature, C.mlDsaVerify key message signature [] →
    made key message signature
  once : ∀ key message message' signature, made key message signature →
    made key message' signature → message = message'

variable {C}

/-- **Peer authentication**.  A frame that `finish` accepts for `p` carries a key that
    hashes to `p` and its signature of this session's transcript, and a signature made for
    another session or ciphertext is not accepted; the transcript is injective; a peer id
    stands for one key; and in every reachable configuration the pool is keyed by the ids
    that its connections authenticated, every request has gone over an authentic connection,
    and what `connection_for` returns for a peer is an authentic connection of that peer. -/
theorem peer_authentication {made : Arr mlDsa65PkSize → Bytes → Arr mlDsa65SigSize → Prop}
    (hsig : C.IdealSignatures made) {keys : Set Bytes} (hinj : Set.InjOn C.blake3 keys) :
    (∀ (hs : ClientHandshake) frame p est, hs.finish C frame (some p) = .ok est →
      est.peerId = p ∧ ∃ (a : ServerAccept) (rest : Bytes),
        frame = 0x02 :: (toBe 2 pqcVersion ++ (a.ct.1 ++ (a.pubkey.1 ++ (a.signature.1 ++ rest)))) ∧
        C.blake3 a.pubkey.1 = p ∧
        C.mlDsaVerify a.pubkey (authSignContext ++ (hs.ekBytes.1 ++ a.ct.1)) a.signature [] ∧
        ∀ ek ct, made a.pubkey (authMessage ek ct) a.signature → ek = hs.ekBytes ∧ ct = a.ct) ∧
    (∀ ek ek' ct ct', authMessage ek ct = authMessage ek' ct' → ek = ek' ∧ ct = ct') ∧
    (∀ (a a' : ServerAccept) ek ek' p, a.Authenticates C ek p → a'.Authenticates C ek' p →
      a.pubkey.1 ∈ keys → a'.pubkey.1 ∈ keys → a.pubkey = a'.pubkey) ∧
    ∀ (client : WasmClient) cells tasks tr, client.Reachable S C cells tasks tr →
      (∀ k conn, cells.pool[k]? = some conn → conn.peerId = k ∧ Authentic C (· ∈ tr) conn) ∧
      (∀ ev ∈ tr, ∀ conn, ev.req.Uses conn → Authentic C (· ∈ tr) conn) ∧
      ∀ (E : Ev Net → Prop) peer tr' cells' conn, (∀ ev ∈ tr ++ tr', E ev) →
        Run (Keeping (Cells.Keyed (Authentic C E))) (connectionFor C peer) cells tr'
          (some (.ok conn)) cells' → conn.peerId = peer.peerId ∧ Authentic C E conn := by
  refine ⟨?_, fun ek ek' ct ct' => authMessage_inj, ?_, ?_⟩
  · intro hs frame p est h
    obtain ⟨a, hframe, ha, hpin, -⟩ := ClientHandshake.finish_ok C h
    obtain ⟨rest, hrest⟩ := ServerAccept.ofFrame_ok hframe
    refine ⟨hpin p rfl, a, rest, hrest, ha.peerId.trans (hpin p rfl), ha.signature, fun ek ct hm => ?_⟩
    exact authMessage_inj (hsig.once _ _ _ _ hm (hsig.verify _ _ _ ha.signature))
  · intro a a' ek ek' p ha ha' hk hk'
    exact Subtype.ext (hinj hk hk' (ha.peerId.trans ha'.peerId.symm))
  · intro client cells tasks tr h
    obtain ⟨hkeyed, huses⟩ := h.pool
    refine ⟨hkeyed, huses, fun E peer tr' cells' conn hE hrun => ?_⟩
    have hcells : cells.Keyed (Authentic C E) := by
      intro k c hc
      obtain ⟨hk, ha⟩ := hkeyed k c hc
      exact ⟨hk, ha.mono C fun ev hev => hE ev (List.mem_append_left _ hev)⟩
    obtain ⟨-, -, hok⟩ := Safe.run hrun (connectionFor_pool (E := E) peer) hcells
      fun ev hev => hE ev (List.mem_append_right _ hev)
    exact hok _ rfl conn rfl

/-! ## An instance -/

/-- Signatures that begin with the message. -/
def Crates.recording : Crates :=
  { Crates.transparent with
    mlDsaVerify := fun _ message signature _ =>
      signature.1.take (authMessage (zeros _) (zeros _)).length = message }

theorem Crates.recording_ideal : Crates.recording.IdealSignatures fun _ message signature =>
    signature.1.take (authMessage (zeros _) (zeros _)).length = message where
  verify _ _ _ h := of_decide_eq_true h
  once _ _ _ _ h h' := h.symm.trans h'

/-- The `ServerAccept` of a node that has signed the transcript of the session. -/
def recordingAccept : ServerAccept where
  ct := zeros _
  pubkey := zeros _
  signature := ⟨authMessage (zeros _) (zeros _) ++ (zeros 1019).1, by
    simp only [authMessage, List.length_append, (zeros _).2]
    decide⟩

theorem peer_authentication_recording : ∃ frame est,
    (⟨zeros _, zeros _⟩ : ClientHandshake).finish .recording frame
      (some (first32 recordingAccept.pubkey.1)) = .ok est ∧
    est.peerId = first32 recordingAccept.pubkey.1 ∧
    ∃ (a : ServerAccept) (rest : Bytes),
      frame = 0x02 :: (toBe 2 pqcVersion ++ (a.ct.1 ++ (a.pubkey.1 ++ (a.signature.1 ++ rest)))) ∧
      ∀ ek ct, a.signature.1.take (authMessage (zeros _) (zeros _)).length = authMessage ek ct →
        ek = zeros _ ∧ ct = a.ct := by
  have hverify : Crates.recording.mlDsaVerify recordingAccept.pubkey
      (authMessage (zeros _) recordingAccept.ct) recordingAccept.signature [] = true :=
    decide_eq_true (List.take_left' rfl)
  have hfinish : (⟨zeros _, zeros _⟩ : ClientHandshake).finish .recording
      (0x02 :: (toBe 2 pqcVersion ++ (recordingAccept.ct.1 ++ (recordingAccept.pubkey.1 ++
        (recordingAccept.signature.1 ++ []))))) (some (first32 recordingAccept.pubkey.1)) =
      .ok ⟨.fromSharedSecret .recording (first32 recordingAccept.ct.1),
        first32 recordingAccept.pubkey.1⟩ := by
    rw [ClientHandshake.finish, ServerAccept.ofFrame_layout]
    show ClientHandshake.accept .recording ⟨zeros _, zeros _⟩ recordingAccept _ = _
    rw [ClientHandshake.accept, if_neg (by simp [Crates.recording, Crates.transparent]),
      if_neg (not_not.2 hverify), checkPeerId_ok.2 (by rintro p ⟨⟩; rfl)]
    rfl
  obtain ⟨hauth, -, -, -⟩ := peer_authentication SelfEncryption.transparent
    Crates.recording_ideal (Set.subsingleton_singleton (a := []).injOn _)
  obtain ⟨hp, a, rest, hframe, -, -, hmade⟩ := hauth _ _ _ _ hfinish
  exact ⟨_, _, hfinish, hp, a, rest, hframe, hmade⟩

end AntClient
