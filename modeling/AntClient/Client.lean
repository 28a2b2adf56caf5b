/-
  The client (`lib.rs`): its connection pool and the single-chunk fetch.

  The shared state of a client's tasks are its cells: the pool of connections,
  keyed by peer id, and the chunk counter of the last download.

  * `connectionFor_keyed`: the pool stays keyed by the ids its connections
    authenticated.
  * `getDirect_safe`: what a fetch returns was delivered by a node and hashes to
    the address.
-/
import AntClient.Conn

namespace AntClient

open Async Prog

/-! ## State -/

/-- The cells of a client. -/
structure Cells where
  /-- direct connections keyed by peer id, opened on demand -/
  pool : Std.HashMap XorName NodeConnection
  /-- chunks the last `download` pulled off the network -/
  chunksFetched : ℕ

def Cells.empty : Cells := ⟨∅, 0⟩

/-- The fixed part of a client. -/
structure WasmClient where
  bootstrap : NodeConnection

def Cells.putConn (peerId : XorName) (conn : NodeConnection) (cells : Cells) : Cells :=
  { cells with pool := cells.pool.insert peerId conn }

def Cells.dropConn (peerId : XorName) (cells : Cells) : Cells :=
  { cells with pool := cells.pool.erase peerId }

def Cells.resetFetched (cells : Cells) : Cells := { cells with chunksFetched := 0 }

def Cells.addFetched (n : ℕ) (cells : Cells) : Cells :=
  { cells with chunksFetched := cells.chunksFetched + n }

/-- Every connection of the pool satisfies `P` and has the id it is filed under. -/
def Cells.Keyed (P : NodeConnection → Prop) (cells : Cells) : Prop :=
  ∀ k conn, cells.pool[k]? = some conn → conn.peerId = k ∧ P conn

theorem Cells.Keyed.putConn {P : NodeConnection → Prop} {cells : Cells} {peerId : XorName}
    {conn : NodeConnection} (h : cells.Keyed P) (hk : conn.peerId = peerId) (hP : P conn) :
    (cells.putConn peerId conn).Keyed P := by
  intro k c hc
  rw [Cells.putConn, Std.HashMap.getElem?_insert] at hc
  split at hc
  · rename_i hkey
    cases hc
    exact ⟨hk.trans (eq_of_beq hkey), hP⟩
  · exact h k c hc

theorem Cells.Keyed.dropConn {P : NodeConnection → Prop} {cells : Cells} {peerId : XorName}
    (h : cells.Keyed P) : (cells.dropConn peerId).Keyed P := by
  intro k c hc
  rw [Cells.dropConn, Std.HashMap.getElem?_erase] at hc
  split at hc
  · cases hc
  · exact h k c hc

@[simp] theorem Cells.getElem?_putConn_self {cells : Cells} {p : XorName} {conn : NodeConnection} :
    (cells.putConn p conn).pool[p]? = some conn := by
  simp [Cells.putConn]

theorem Cells.getElem?_putConn_ne {cells : Cells} {k p : XorName} {conn : NodeConnection}
    (h : k ≠ p) : (cells.putConn k conn).pool[p]? = cells.pool[p]? := by
  rw [Cells.putConn, Std.HashMap.getElem?_insert, if_neg (fun he => h (eq_of_beq he))]

@[simp] theorem Cells.keyed_resetFetched {P : NodeConnection → Prop} {cells : Cells} :
    cells.resetFetched.Keyed P ↔ cells.Keyed P := Iff.rfl

@[simp] theorem Cells.keyed_addFetched {P : NodeConnection → Prop} {cells : Cells} {n : ℕ} :
    (cells.addFetched n).Keyed P ↔ cells.Keyed P := Iff.rfl

variable (C : Crates)

/-! ## Operations -/

/-- Connect to a bootstrap node and establish the authenticated tunnel: the client
    and the first state of its cells. -/
def WasmClient.connect {σ : Type} (ip : String) (port : UInt16) (certHashHex peerIdHex : String) :
    Prog Net σ (Except String (WasmClient × Cells)) :=
  bindE (.ret (parseOptPeerId C peerIdHex)) fun expected =>
  bindE (NodeConnection.connect C ip port certHashHex expected) fun bootstrap =>
  .ret (.ok (⟨bootstrap⟩,
    ⟨(∅ : Std.HashMap XorName NodeConnection).insert bootstrap.peerId bootstrap, 0⟩))

/-- Get or open a direct connection to a discovered peer. -/
def connectionFor (peer : PeerConnectInfo) : Prog Net Cells (Except String NodeConnection) :=
  .sync id fun cells =>
  match cells.pool[peer.peerId]? with
  | some conn => .ret (.ok conn)
  | none =>
    bindE (NodeConnection.connect C peer.ip peer.port (hexEncode peer.certHash.1)
      (some peer.peerId)) fun conn =>
    .sync (Cells.putConn peer.peerId conn) fun _ => .ret (.ok conn)

/-- The peer loop of `get_direct`. -/
def getFrom (address : XorName) :
    List PeerConnectInfo → String → Prog Net Cells (Except String Bytes)
  | [], lastErr => .ret (.error s!"no responsible peer served {hexEncode address.1}: {lastErr}")
  | peer :: peers, _ =>
    connectionFor C peer >>= fun
      | .error e => getFrom address peers e
      | .ok conn =>
        conn.getVerified C address >>= fun
          | .ok content => .ret (.ok content)
          | .error e => getFrom address peers e

/-- Fetch a chunk from the peers responsible for its address. -/
def WasmClient.getDirect (self : WasmClient) (address : XorName) :
    Prog Net Cells (Except String Bytes) :=
  bindE (self.bootstrap.closestPeers C address) fun peers =>
  if peers.isEmpty then .ret (.error "discovery returned no peers")
  else getFrom C address peers ""

/-- Fetch one raw chunk by address. -/
def WasmClient.fetchChunk (self : WasmClient) (addressHex : String) :
    Prog Net Cells (Except String Bytes) :=
  bindE (.ret (parseAddress C addressHex)) fun address => self.getDirect C address

/-- Diagnostic: fetch a chunk from a peer reached by relayed signaling, returning
    its length. -/
def WasmClient.relayedFetch (self : WasmClient) (targetPeerIdHex stunAddr addressHex : String) :
    Prog Net Cells (Except String ℕ) :=
  bindE (.ret (parseAddress C targetPeerIdHex)) fun target =>
  bindE (.ret (parseAddress C addressHex)) fun address =>
  bindE (self.bootstrap.connectViaRelay C stunAddr target) fun conn =>
  bindE (conn.getVerified C address) fun content =>
  .ret (.ok content.length)

/-- One object of `closest_peers_json`. -/
def PeerConnectInfo.json (p : PeerConnectInfo) : String :=
  "\x7b\"peer_id\":\"" ++ hexEncode p.peerId.1 ++ "\",\"ip\":\"" ++ p.ip ++ "\",\"port\":" ++
    toString p.port ++ ",\"cert_hash\":\"" ++ hexEncode p.certHash.1 ++ "\"\x7d"

/-- The peers currently responsible for an address, as JSON. -/
def WasmClient.closestPeersJson (self : WasmClient) (addressHex : String) :
    Prog Net Cells (Except String String) :=
  bindE (.ret (parseAddress C addressHex)) fun address =>
  bindE (self.bootstrap.closestPeers C address) fun peers =>
  .ret (.ok ("[" ++ ",".intercalate (peers.map PeerConnectInfo.json) ++ "]"))

/-! ## Safety -/

variable {E : Ev Net → Prop} {K : Contract Net Cells} {P : NodeConnection → Prop}

/-- What holds of every connection in the pool and of every new one holds of those
    handed out. -/
theorem connectionFor_safe {U : XorName → NodeConnection → Prop}
    (hhit : ∀ cells k conn, K.inv cells → cells.pool[k]? = some conn → U k conn)
    (hput : ∀ cells k conn, K.inv cells → U k conn → K.inv (Cells.putConn k conn cells))
    (hnew : ∀ k conn, Authentic C E conn → conn.peerId = k → U k conn)
    (ha : ∀ e, e.Opens → K.asks e) (hg : ∀ e r, K.gets e r → E ⟨e, r⟩) (peer : PeerConnectInfo) :
    (connectionFor C peer).Safe K (Safe.IfOk (U peer.peerId)) := by
  intro cells hcells
  refine ⟨hcells, ?_⟩
  show Safe K _ (match cells.pool[peer.peerId]? with | some conn => _ | none => _)
  cases hp : cells.pool[peer.peerId]? with
  | some conn => exact Safe.ret_ok (hhit _ _ _ hcells hp)
  | none =>
    refine Safe.bindE_ok (connect_safe C ha hg) fun conn hconn cells' hcells' => ?_
    have hU : U peer.peerId conn := hnew _ _ hconn.1 (hconn.2 _ rfl)
    exact ⟨hput _ _ _ hcells' hU, Safe.ret_ok hU⟩

/-- **The pool**: a connection handed out for a peer has the peer's id, and so has
    every connection the pool files under it. -/
theorem connectionFor_keyed (hinv : K.inv = Cells.Keyed P) (ha : ∀ e, e.Opens → K.asks e)
    (hg : ∀ e r, K.gets e r → E ⟨e, r⟩) (hP : ∀ conn, Authentic C E conn → P conn)
    (peer : PeerConnectInfo) :
    (connectionFor C peer).Safe K (Safe.IfOk fun conn => conn.peerId = peer.peerId ∧ P conn) := by
  refine connectionFor_safe C (U := fun k conn => conn.peerId = k ∧ P conn) ?_ ?_
    (fun k conn hconn hid => ⟨hid, hP conn hconn⟩) ha hg peer
  · intro cells k conn hcells hp
    rw [hinv] at hcells
    exact hcells k conn hp
  · intro cells k conn hcells hU
    rw [hinv] at hcells ⊢
    exact hcells.putConn hU.1 hU.2

theorem getFrom_safe (hconn : ∀ peer, (connectionFor C peer).Safe K (Safe.IfOk P))
    (ha : ∀ conn, P conn → ∀ e, e.Uses conn → K.asks e) (hg : ∀ e r, K.gets e r → E ⟨e, r⟩)
    (address : XorName) (peers : List PeerConnectInfo) (lastErr : String) :
    (getFrom C address peers lastErr).Safe K (Safe.IfOk fun content =>
      C.blake3 content = address ∧ ∃ ev, E ev ∧ Delivers C content ev) := by
  induction peers generalizing lastErr with
  | nil => exact Safe.ret_error
  | cons peer peers ih =>
    refine (hconn peer).bind fun conn hP => ?_
    cases conn with
    | error e => exact ih e
    | ok conn =>
      refine (getVerified_safe C (ha conn (hP _ rfl)) hg address).bind fun content hc => ?_
      cases content with
      | error e => exact ih e
      | ok content => exact Safe.ret_ok (hc _ rfl)

/-- **A fetch**: a node can refuse, but what is returned was delivered by a node
    and hashes to the address. -/
theorem getDirect_safe {self : WasmClient}
    (hconn : ∀ peer, (connectionFor C peer).Safe K (Safe.IfOk P))
    (hboot : ∀ e, e.Uses self.bootstrap → K.asks e)
    (ha : ∀ conn, P conn → ∀ e, e.Uses conn → K.asks e) (hg : ∀ e r, K.gets e r → E ⟨e, r⟩)
    (address : XorName) :
    (self.getDirect C address).Safe K (Safe.IfOk fun content =>
      C.blake3 content = address ∧ ∃ ev, E ev ∧ Delivers C content ev) := by
  refine Safe.bindE_ok (Q := fun _ => True)
    ((closestPeers_safe C hboot address).mono fun _ _ _ _ => trivial) fun peers _ => ?_
  cases peers with
  | nil => exact Safe.ret_error
  | cons peer peers => exact getFrom_safe C hconn ha hg address (peer :: peers) ""

/-- The same in any state of the pool, whatever the answers are. -/
theorem getDirect_answers (self : WasmClient) (address : XorName) :
    (self.getDirect C address).Safe (.answers E) (Safe.IfOk fun content =>
      C.blake3 content = address ∧ ∃ ev, E ev ∧ Delivers C content ev) := by
  have hconn : ∀ peer, (connectionFor C peer).Safe (.answers E) (Safe.IfOk fun _ => True) :=
    fun peer => (Safe.trivial (fun _ => trivial) (fun _ => trivial) _).mono fun _ _ _ _ => trivial
  exact getDirect_safe C hconn (fun _ _ => trivial) (fun _ _ _ _ => trivial) (fun _ _ h => h) address

end AntClient
