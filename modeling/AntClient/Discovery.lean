/-
  The discovery and signaling-relay protocols (`discovery.rs`), postcard-encoded
  like the chunk protocol but without a size cap.
-/
import AntClient.Protocol

namespace AntClient

open Postcard

/-! ## Tunnel lanes -/

/-- Protocol tag: the plaintext is a `ChunkMessage`. -/
def protoChunk : UInt8 := 0x01
/-- Protocol tag: the plaintext is a `DiscoveryMessage`. -/
def protoDiscovery : UInt8 := 0x02
/-- Protocol tag: the plaintext is a `SignalRelayMessage`. -/
def protoSignal : UInt8 := 0x03

/-! ## Discovery -/

/-- Everything needed to open a direct connection to a peer. -/
structure PeerConnectInfo where
  /-- BLAKE3 of the peer's ML-DSA-65 public key -/
  peerId : XorName
  /-- IP address as text -/
  ip : String
  /-- listener UDP port -/
  port : UInt16
  /-- SHA-256 fingerprint of the DTLS certificate -/
  certHash : Arr 32

/-- Closest-peers query for one address. -/
structure ClosestPeersRequest where
  address : XorName

/-- Directly-connectable peers, closest first. -/
structure ClosestPeersResponse where
  peers : List PeerConnectInfo

inductive DiscoveryBody
  | closestPeersRequest (r : ClosestPeersRequest)
  | closestPeersResponse (r : ClosestPeersResponse)
  | error (e : String)

/-- Wire envelope of the discovery protocol. -/
structure DiscoveryMessage where
  requestId : UInt64
  body : DiscoveryBody

def PeerConnectInfo.put (p : PeerConnectInfo) : Bytes :=
  p.peerId.1 ++ (string p.ip ++ (u16 p.port ++ p.certHash.1))

def PeerConnectInfo.get : Parser PeerConnectInfo := do
  return ⟨← Parser.arr 32, ← readString, ← readU16, ← Parser.arr 32⟩

def ClosestPeersRequest.put (r : ClosestPeersRequest) : Bytes := r.address.1

def ClosestPeersRequest.get : Parser ClosestPeersRequest := do return ⟨← Parser.arr 32⟩

def ClosestPeersResponse.put (r : ClosestPeersResponse) : Bytes := vec PeerConnectInfo.put r.peers

def ClosestPeersResponse.get : Parser ClosestPeersResponse := do
  return ⟨← readVec PeerConnectInfo.get⟩

def DiscoveryBody.put : DiscoveryBody → Bytes
  | .closestPeersRequest r => variant 0 ++ r.put
  | .closestPeersResponse r => variant 1 ++ r.put
  | .error e => variant 2 ++ string e

def DiscoveryBody.get : Parser DiscoveryBody := do
  match ← readVariant with
  | 0 => return .closestPeersRequest (← ClosestPeersRequest.get)
  | 1 => return .closestPeersResponse (← ClosestPeersResponse.get)
  | 2 => return .error (← readString)
  | _ => .fail

def DiscoveryMessage.put (m : DiscoveryMessage) : Bytes := u64 m.requestId ++ m.body.put

def DiscoveryMessage.get : Parser DiscoveryMessage := do return ⟨← readU64, ← DiscoveryBody.get⟩

/-! ## Signaling relay -/

/-- Request to reach a NAT'd target node through the relay. -/
structure SignalRelayRequest where
  targetPeerId : XorName
  /-- the browser's SDP offer -/
  sdpOffer : String

/-- The target node's answer, relayed back. -/
structure SignalRelayResponse where
  sdpAnswer : String

inductive SignalRelayBody
  | request (r : SignalRelayRequest)
  | response (r : SignalRelayResponse)
  | error (e : String)

/-- Wire envelope of the signaling-relay protocol. -/
structure SignalRelayMessage where
  requestId : UInt64
  body : SignalRelayBody

def SignalRelayRequest.put (r : SignalRelayRequest) : Bytes :=
  r.targetPeerId.1 ++ string r.sdpOffer

def SignalRelayRequest.get : Parser SignalRelayRequest := do
  return ⟨← Parser.arr 32, ← readString⟩

def SignalRelayResponse.put (r : SignalRelayResponse) : Bytes := string r.sdpAnswer

def SignalRelayResponse.get : Parser SignalRelayResponse := do return ⟨← readString⟩

def SignalRelayBody.put : SignalRelayBody → Bytes
  | .request r => variant 0 ++ r.put
  | .response r => variant 1 ++ r.put
  | .error e => variant 2 ++ string e

def SignalRelayBody.get : Parser SignalRelayBody := do
  match ← readVariant with
  | 0 => return .request (← SignalRelayRequest.get)
  | 1 => return .response (← SignalRelayResponse.get)
  | 2 => return .error (← readString)
  | _ => .fail

def SignalRelayMessage.put (m : SignalRelayMessage) : Bytes := u64 m.requestId ++ m.body.put

def SignalRelayMessage.get : Parser SignalRelayMessage := do
  return ⟨← readU64, ← SignalRelayBody.get⟩

/-! ## Encoding and decoding -/

variable (C : Crates)

def DiscoveryMessage.encode (m : DiscoveryMessage) : Except String Bytes := .ok m.put

def DiscoveryMessage.decode (data : Bytes) : Except String DiscoveryMessage :=
  match fromBytes DiscoveryMessage.get data with
  | some m => .ok m
  | none => .error s!"discovery decode: {C.postcardError data}"

def SignalRelayMessage.encode (m : SignalRelayMessage) : Except String Bytes := .ok m.put

def SignalRelayMessage.decode (data : Bytes) : Except String SignalRelayMessage :=
  match fromBytes SignalRelayMessage.get data with
  | some m => .ok m
  | none => .error s!"signal-relay decode: {C.postcardError data}"

/-! ## Round trips -/

/-- The strings and vectors of a discovery message. -/
def DiscoveryBody.Fits : DiscoveryBody → Prop
  | .closestPeersRequest _ => True
  | .closestPeersResponse r => r.peers.length < 2 ^ 32 ∧ ∀ p ∈ r.peers, Sized (utf8 p.ip)
  | .error e => Sized (utf8 e)

def DiscoveryMessage.Fits (m : DiscoveryMessage) : Prop := m.body.Fits

/-- The strings of a signaling message. -/
def SignalRelayBody.Fits : SignalRelayBody → Prop
  | .request r => Sized (utf8 r.sdpOffer)
  | .response r => Sized (utf8 r.sdpAnswer)
  | .error e => Sized (utf8 e)

def SignalRelayMessage.Fits (m : SignalRelayMessage) : Prop := m.body.Fits

theorem PeerConnectInfo.reads {p : PeerConnectInfo} (h : Sized (utf8 p.ip)) :
    PeerConnectInfo.get.Reads p.put p :=
  (Parser.Reads.arr p.peerId).bind ((readString_reads h).bind
    ((readU16_reads p.port).bind (Parser.Reads.arr p.certHash).last))

theorem DiscoveryBody.reads {b : DiscoveryBody} (h : b.Fits) :
    DiscoveryBody.get.Reads b.put b := by
  cases b with
  | closestPeersRequest r =>
    exact readVariant_reads 0 (Parser.Reads.arr r.address).last.last (by simp)
  | closestPeersResponse r =>
    have hr : (readVec PeerConnectInfo.get).Reads r.put r.peers :=
      readVec_reads h.1 fun p hp => PeerConnectInfo.reads (h.2 p hp)
    exact readVariant_reads 1 hr.last.last (by simp)
  | error e => exact readVariant_reads 2 (readString_reads h).last (by simp)

theorem DiscoveryMessage.reads {m : DiscoveryMessage} (h : m.Fits) :
    DiscoveryMessage.get.Reads m.put m :=
  (readU64_reads m.requestId).bind (DiscoveryBody.reads h).last

theorem SignalRelayBody.reads {b : SignalRelayBody} (h : b.Fits) :
    SignalRelayBody.get.Reads b.put b := by
  cases b with
  | request r =>
    have hr : SignalRelayRequest.get.Reads r.put r :=
      (Parser.Reads.arr r.targetPeerId).bind (readString_reads h).last
    exact readVariant_reads 0 hr.last (by simp)
  | response r => exact readVariant_reads 1 (readString_reads h).last.last (by simp)
  | error e => exact readVariant_reads 2 (readString_reads h).last (by simp)

theorem SignalRelayMessage.reads {m : SignalRelayMessage} (h : m.Fits) :
    SignalRelayMessage.get.Reads m.put m :=
  (readU64_reads m.requestId).bind (SignalRelayBody.reads h).last

theorem DiscoveryMessage.decode_put {m : DiscoveryMessage} (h : m.Fits) :
    DiscoveryMessage.decode C m.put = .ok m := by
  rw [DiscoveryMessage.decode, fromBytes_reads (DiscoveryMessage.reads h)]

theorem SignalRelayMessage.decode_put {m : SignalRelayMessage} (h : m.Fits) :
    SignalRelayMessage.decode C m.put = .ok m := by
  rw [SignalRelayMessage.decode, fromBytes_reads (SignalRelayMessage.reads h)]

/-- The parts of a message of fewer than `2 ^ 32` bytes fit. -/
theorem DiscoveryMessage.fits {m : DiscoveryMessage} (h : m.put.length < 2 ^ 32) : m.Fits := by
  obtain ⟨id, body⟩ := m
  cases body with
  | closestPeersRequest => trivial
  | closestPeersResponse r =>
    simp only [DiscoveryMessage.put, DiscoveryBody.put, ClosestPeersResponse.put,
      List.length_append] at h
    have hv : (vec PeerConnectInfo.put r.peers).length < 2 ^ 32 := by omega
    refine ⟨length_lt_of_vec (fun p => ?_) hv, fun p hp => ?_⟩
    · simp [PeerConnectInfo.put]
    · have hp' := length_lt_of_mem_vec hv hp
      simp only [PeerConnectInfo.put, List.length_append] at hp'
      exact sized_string (by omega)
  | error e =>
    simp only [DiscoveryMessage.put, DiscoveryBody.put, List.length_append] at h
    exact sized_string (by omega)

end AntClient
