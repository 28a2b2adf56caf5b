/-
  A network as it should be: a node that authenticates, answers every discovery
  query with the same peers and every chunk request by a given function.

  The primitives are the transparent ones, so that the node can sign.  In such a
  network every operation of the client goes on, whatever its pool holds.

  * `connectionFor_honest`: the node can be connected to.
  * `getDirect_honest`: a fetch returns the chunk that the node serves.
-/
import AntClient.Client

namespace AntClient

open Async Prog Postcard

/-! ## The node -/

/-- An all-zero array. -/
@[irreducible] def zeros (n : ℕ) : Arr n := Arr.replicate n 0

def honestAccept : ServerAccept := ⟨zeros _, zeros _, zeros _⟩

def honestPeer : PeerConnectInfo where
  peerId := first32 honestAccept.pubkey.1
  ip := "192.0.2.1"
  port := 443
  certHash := zeros 32

/-- A client connected to the node. -/
def honestClient : WasmClient := ⟨⟨0, ⟨zeros 32⟩, honestPeer.peerId⟩⟩

/-- The answers of the network: discovery names `peers`, chunk requests are answered
    by `reply`. -/
def honest (peers : List PeerConnectInfo) (reply : ChunkMessageBody → ChunkMessageBody) :
    ∀ e : NetReq, Net.Ans e
  | .transportConnect _ _ _ => .ok 0
  | .relayOffer _ => .ok (0, "")
  | .relayAnswer _ _ => .ok 0
  | .keygen => .ok (zeros _, zeros _)
  | .sendFrame _ _ => .ok ()
  | .recvFrame _ => .ok (0x02 :: (Bytes.toBe 2 pqcVersion ++ (honestAccept.ct.1 ++
      (honestAccept.pubkey.1 ++ (honestAccept.signature.1 ++ [])))))
  | .nextSeq _ => 1
  | .roundTrip _ tag payload =>
    if tag = protoDiscovery then .ok (DiscoveryMessage.put ⟨1, .closestPeersResponse ⟨peers⟩⟩)
    else (ChunkMessage.decode .transparent payload).map fun m =>
      ChunkMessage.put ⟨m.requestId, reply m.body⟩
  | .pay _ _ => .resolved ⟨some (hex0x (zeros 32).1), none⟩

/-- The events of the network. -/
def Honest (peers : List PeerConnectInfo) (reply : ChunkMessageBody → ChunkMessageBody)
    (ev : Ev Net) : Prop := ev.ans = honest peers reply ev.req

theorem Honest.total (peers : List PeerConnectInfo) (reply : ChunkMessageBody → ChunkMessageBody)
    (e : Net.Req) : ∃ r, Honest peers reply ⟨e, r⟩ := 
  ⟨honest peers reply e, (rfl : honest peers reply e = honest peers reply e)⟩

theorem honestPeer_ip : (utf8 honestPeer.ip).length ≤ 15 := by decide

theorem length_peers_lt {peers : List PeerConnectInfo} (h : ∀ p ∈ peers, (utf8 p.ip).length ≤ 15)
    (hl : peers.length < 2 ^ 16) :
    (DiscoveryMessage.put ⟨1, .closestPeersResponse ⟨peers⟩⟩).length < 2 ^ 32 := by
  have h1 := length_u64_le 1
  have h2 := length_variant_le 1
  have h3 : (vec PeerConnectInfo.put peers).length ≤ 87 * peers.length + 5 := by
    refine length_vec_le fun p hp => ?_
    have hip := length_bytes_le (utf8 p.ip)
    have hlen := h p hp
    have hport : (u16 p.port).length ≤ 3 := length_varint_le 3 _
    simp only [PeerConnectInfo.put, string, List.length_append, p.peerId.2, p.certHash.2]
    omega
  simp only [DiscoveryMessage.put, DiscoveryBody.put, ClosestPeersResponse.put, List.length_append]
  omega

variable {σ : Type} {peers : List PeerConnectInfo} {reply : ChunkMessageBody → ChunkMessageBody}

/-! ## The client in this network -/

theorem call_honest {α : Type} {Q : α → Prop} {e : Net.Req} {k : Net.Ans e → Prog Net σ α}
    (h : (k (honest peers reply e)).Safe (.answers (Honest peers reply)) Q) :
    (Prog.call e k).Safe (.answers (Honest peers reply)) Q := by
  refine ⟨trivial, fun r hr => ?_⟩
  obtain rfl : r = honest peers reply e := hr
  exact h

/-- The handshake of the node is accepted by clients that expect it or no one. -/
theorem finish_honest {expected : Option XorName}
    (h : ∀ p, expected = some p → p = honestPeer.peerId) :
    ClientHandshake.finish .transparent ⟨zeros _, zeros _⟩
      (0x02 :: (Bytes.toBe 2 pqcVersion ++ (honestAccept.ct.1 ++
        (honestAccept.pubkey.1 ++ (honestAccept.signature.1 ++ []))))) expected =
      .ok ⟨.fromSharedSecret .transparent (first32 honestAccept.ct.1), honestPeer.peerId⟩ := by
  rw [ClientHandshake.finish, ServerAccept.ofFrame_layout]
  show ClientHandshake.accept .transparent ⟨zeros _, zeros _⟩ honestAccept _ = _
  have hpin : checkPeerId expected (Crates.transparent.blake3 honestAccept.pubkey.1) = .ok () :=
    checkPeerId_ok.2 fun p hp => (h p hp).symm
  rw [ClientHandshake.accept, if_neg (by simp [Crates.transparent]),
    if_neg (by simp [Crates.transparent]), hpin]
  rfl

theorem establish_honest (transport : ℕ) {p : XorName} (hp : p = honestPeer.peerId) :
    (establish .transparent transport (some p) : Prog Net σ _).Safe
      (.answers (Honest peers reply)) fun r => ∃ conn, r = .ok conn := by
  refine call_honest (call_honest (call_honest ?_))
  show (bindE (.ret (ClientHandshake.finish _ _ _ _)) _).Safe _ _
  rw [finish_honest (by rintro _ ⟨⟩; exact hp)]
  exact ⟨_, rfl⟩

/-- The events of the handshake over the transport. -/
def handshakeEvents (transport : ℕ) : List (Ev Net) :=
  [⟨.keygen, .ok (zeros _, zeros _)⟩,
    ⟨.sendFrame transport (0x01 :: Bytes.toBe 2 pqcVersion ++ (zeros mlKem768EkSize).1), .ok ()⟩,
    ⟨.recvFrame transport, honest [] id (.recvFrame transport)⟩]

/-- Over any transport there is a run in which a session with the node is opened. -/
theorem establish_run {I : σ → σ → Prop} (hI : ∀ s, I s s) (transport : ℕ)
    {expected : Option XorName} (h : ∀ p, expected = some p → p = honestPeer.peerId) (s : σ) :
    ∃ conn, conn.transport = transport ∧ conn.peerId = honestPeer.peerId ∧
      Run I (establish .transparent transport expected) s (handshakeEvents transport)
        (some (.ok conn)) s := by
  have hrun := exec_run (honest [] id) hI (establish .transparent transport expected) s
  have hexec : (establish .transparent transport expected).exec (honest [] id) s =
      (handshakeEvents transport, .ok ⟨transport,
        .fromSharedSecret .transparent (first32 honestAccept.ct.1), honestPeer.peerId⟩, s) := by
    show (_ :: _ :: _ :: ((bindE (.ret (ClientHandshake.finish _ _ _ _)) _).exec _ s).1,
      ((bindE (.ret (ClientHandshake.finish _ _ _ _)) _).exec _ s).2) = _
    rw [finish_honest h]
    rfl
  rw [hexec] at hrun
  exact ⟨_, rfl, rfl, hrun⟩

/-- The node can be connected to. -/
theorem connectionFor_honest {peer : PeerConnectInfo} (h : peer.peerId = honestPeer.peerId) :
    (connectionFor .transparent peer).Safe (.answers (Honest peers reply))
      fun r => ∃ conn, r = .ok conn := by
  refine fun cells _ => ⟨trivial, ?_⟩
  dsimp only
  split
  · exact ⟨_, rfl⟩
  · refine call_honest (Safe.bindE (establish_honest 0 h) (fun conn _ cells _ => ?_) ?_)
    · exact ⟨trivial, conn, rfl⟩
    · rintro e ⟨conn, he⟩
      cases he

/-- Discovery names the peers. -/
theorem closestPeers_honest
    (hl : (DiscoveryMessage.put ⟨1, .closestPeersResponse ⟨peers⟩⟩).length < 2 ^ 32)
    (conn : NodeConnection) (address : XorName) :
    (conn.closestPeers .transparent address : Prog Net σ _).Safe (.answers (Honest peers reply))
      fun r => r = .ok peers := by
  refine call_honest (call_honest ?_)
  show (bindE (.ret (DiscoveryMessage.decode .transparent _)) _).Safe _ _
  rw [DiscoveryMessage.decode_put _ (DiscoveryMessage.fits hl)]
  rfl

/-- The node answers a chunk request by `reply`. -/
theorem honest_chunk (conn : NodeConnection) {m : ChunkMessage}
    (hm : m.put.length ≤ maxWireMessageSize) :
    honest peers reply (.roundTrip conn protoChunk m.put) =
      .ok (ChunkMessage.put ⟨m.requestId, reply m.body⟩) := by
  rw [honest, if_neg (by decide), ChunkMessage.decode_put _ hm]
  rfl

/-- A chunk of at most 4 MiB fits into a response. -/
theorem length_getResponse_le (id : UInt64) (address : XorName) {content : Bytes}
    (hl : content.length ≤ 2 ^ 22) :
    (ChunkMessage.put ⟨id, .getResponse (.success address content)⟩).length ≤
      maxWireMessageSize := by
  have h1 := length_u64_le id
  have h2 := length_variant_le 3
  have h3 := length_variant_le 0
  have h4 := length_bytes_le content
  simp only [ChunkMessage.put, ChunkMessageBody.put, ChunkGetResponse.put, List.length_append,
    address.2, maxWireMessageSize]
  omega

theorem getVerified_honest (conn : NodeConnection) {address : XorName} {content : Bytes}
    (hc : first32 content = address) (hl : content.length ≤ 2 ^ 22)
    (hr : reply (.getRequest ⟨address⟩) = .getResponse (.success address content)) :
    (conn.getVerified .transparent address : Prog Net σ _).Safe (.answers (Honest peers reply))
      fun r => r = .ok content := by
  refine call_honest (call_honest ?_)
  have hm : (ChunkMessage.put ⟨1, .getRequest ⟨address⟩⟩).length ≤ maxWireMessageSize := by
    have h1 := length_u64_le 1
    have h2 := length_variant_le 2
    simp only [ChunkMessage.put, ChunkMessageBody.put, ChunkGetRequest.put, List.length_append,
      address.2, maxWireMessageSize]
    omega
  show (bindE (.ret (honest peers reply (.roundTrip conn protoChunk
    (ChunkMessage.put ⟨1, .getRequest ⟨address⟩⟩)))) _).Safe _ _
  rw [honest_chunk conn hm, hr]
  show (bindE (.ret (ChunkMessage.decode .transparent _)) _).Safe _ _
  rw [ChunkMessage.decode_put _ (length_getResponse_le 1 address hl)]
  show checkContent .transparent address _ = _
  rw [checkContent, if_neg (by simp), if_neg (by rw [not_not]; exact hc)]

theorem getFrom_honest {address : XorName} {content : Bytes}
    (hc : first32 content = address) (hl : content.length ≤ 2 ^ 22)
    (hr : reply (.getRequest ⟨address⟩) = .getResponse (.success address content))
    {ps : List PeerConnectInfo} (hp : honestPeer ∈ ps) (lastErr : String) :
    (getFrom .transparent address ps lastErr).Safe (.answers (Honest peers reply))
      fun r => r = .ok content := by
  induction ps generalizing lastErr with
  | nil => cases hp
  | cons p ps ih =>
    have hget : ∀ (conn : NodeConnection) (g : _ → Prog Net Cells (Except String Bytes)),
        g (.ok content) = .ret (.ok content) →
        (conn.getVerified .transparent address >>= g).Safe (.answers (Honest peers reply))
          fun r => r = .ok content := by
      refine fun conn g hg => (getVerified_honest conn hc hl hr).bind fun r hr => ?_
      subst hr
      rw [hg]
      rfl
    rcases List.mem_cons.1 hp with rfl | hp
    · refine (connectionFor_honest rfl).bind fun r hconn => ?_
      obtain ⟨conn, rfl⟩ := hconn
      exact hget conn _ rfl
    · refine (Safe.trivial (fun _ => trivial) (fun _ => trivial) _).bind fun r _ => ?_
      cases r with
      | error e => exact ih hp e
      | ok conn => exact hget conn _ rfl

/-- **A fetch** from a network that serves the chunk. -/
theorem getDirect_honest {self : WasmClient} {address : XorName} {content : Bytes}
    (hpeers : (DiscoveryMessage.put ⟨1, .closestPeersResponse ⟨peers⟩⟩).length < 2 ^ 32)
    (hp : honestPeer ∈ peers) (hc : first32 content = address) (hl : content.length ≤ 2 ^ 22)
    (hr : reply (.getRequest ⟨address⟩) = .getResponse (.success address content)) :
    (self.getDirect .transparent address).Safe (.answers (Honest peers reply))
      fun r => r = .ok content := by
  refine (closestPeers_honest hpeers self.bootstrap address).bind fun r hr' => ?_
  subst hr'
  show Safe _ _ (if peers.isEmpty then _ else _)
  rw [if_neg (by rw [List.isEmpty_iff]; rintro rfl; cases hp)]
  exact getFrom_honest hc hl hr hp ""

/-- Answer a GET with the bytes the address stands for, and nothing else. -/
def serving (serve : XorName → Bytes) : ChunkMessageBody → ChunkMessageBody
  | .getRequest r => .getResponse (.success r.address (serve r.address))
  | _ => .getResponse (.notFound (zeros 32))

theorem length_serving_le {serve : XorName → Bytes} (hl : ∀ a, (serve a).length ≤ 2 ^ 22)
    (id : UInt64) (body : ChunkMessageBody) :
    (ChunkMessage.put ⟨id, serving serve body⟩).length ≤ maxWireMessageSize := by
  unfold serving
  split
  · exact length_getResponse_le id _ (hl _)
  · have h1 := length_u64_le id
    have h2 := length_variant_le 3
    have h3 := length_variant_le 1
    simp only [ChunkMessage.put, ChunkMessageBody.put, ChunkGetResponse.put, List.length_append,
      (zeros 32).2, maxWireMessageSize]
    omega

end AntClient
