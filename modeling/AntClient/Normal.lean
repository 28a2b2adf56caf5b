/-
  What the decoders accept (`protocol.rs`, `discovery.rs`).

  A node may write a message in many ways: with longer varints than needed, and with
  anything after it.  `encode` writes the shortest of them.

  * `decode_normal`: every message that is accepted can be sent, in no more bytes, and is
    accepted again as the same message, whatever follows it.
-/
import AntClient.Discovery
import AntClient.Lib.Consumes

namespace AntClient

open Postcard Parser

/-! ## Chunk messages -/

theorem ProtocolError.consumes : ProtocolError.get.Consumes 1 0 fun e => e.put.length := by
  have hstring : ∀ (i : ℕ) (f : String → ProtocolError), (∀ m, (f m).put = variant i ++ string m) →
      (do return f (← readString)).Consumes 1 (0 + (variant i).length) fun e => e.put.length := by
    intro i f hf
    refine readString_consumes.last fun m => ?_
    rw [hf, List.length_append]
    omega
  have hsizes : ∀ (i : ℕ) (f : UInt32 → UInt32 → ProtocolError),
      (∀ m n, (f m n).put = variant i ++ (usize m ++ usize n)) →
      (do return f (← readUsize) (← readUsize)).Consumes 1 (0 + (variant i).length)
        fun e => e.put.length := by
    intro i f hf
    refine readUsize_consumes.bind fun m => readUsize_consumes.last fun n => ?_
    rw [hf, List.length_append, List.length_append]
    omega
  refine readVariant_consumes.bind fun i => ?_
  split
  · exact hstring 0 _ fun _ => rfl
  · exact hstring 1 _ fun _ => rfl
  · exact hsizes 2 _ fun _ _ => rfl
  · exact hsizes 3 _ fun _ _ => rfl
  · refine (Consumes.arr 32).bind fun expected => (Consumes.arr 32).last fun actual => ?_
    simp only [ProtocolError.put, List.length_append, Arr.length_val]
    omega
  · exact hstring 5 _ fun _ => rfl
  · exact hstring 6 _ fun _ => rfl
  · exact hstring 7 _ fun _ => rfl
  · exact hstring 8 _ fun _ => rfl
  · exact .fail

theorem ChunkPutRequest.consumes : ChunkPutRequest.get.Consumes 1 0 fun r => r.put.length := by
  refine (Consumes.arr 32).bind fun address => readBytes_consumes.bind fun content =>
    (readOption_consumes readBytes_consumes).last fun paymentProof => ?_
  simp only [ChunkPutRequest.put, List.length_append, Arr.length_val]
  omega

theorem ChunkPutResponse.consumes : ChunkPutResponse.get.Consumes 1 0 fun r => r.put.length := by
  refine readVariant_consumes.bind fun i => ?_
  split
  · refine (Consumes.arr 32).last fun address => ?_
    simp [ChunkPutResponse.put]
  · refine (Consumes.arr 32).last fun address => ?_
    simp [ChunkPutResponse.put]
  · refine readString_consumes.last fun message => ?_
    simp [ChunkPutResponse.put]
  · refine ProtocolError.consumes.last fun e => ?_
    simp [ChunkPutResponse.put]
  · exact .fail

theorem ChunkGetRequest.consumes : ChunkGetRequest.get.Consumes 1 0 fun r => r.put.length :=
  (Consumes.arr 32).last fun address => by simp [ChunkGetRequest.put]

theorem ChunkGetResponse.consumes : ChunkGetResponse.get.Consumes 1 0 fun r => r.put.length := by
  refine readVariant_consumes.bind fun i => ?_
  split
  · refine (Consumes.arr 32).bind fun address => readBytes_consumes.last fun content => ?_
    simp only [ChunkGetResponse.put, List.length_append, Arr.length_val]
    omega
  · refine (Consumes.arr 32).last fun address => ?_
    simp [ChunkGetResponse.put]
  · refine ProtocolError.consumes.last fun e => ?_
    simp [ChunkGetResponse.put]
  · exact .fail

theorem ChunkQuoteRequest.consumes : ChunkQuoteRequest.get.Consumes 1 0 fun r => r.put.length := by
  refine (Consumes.arr 32).bind fun address => readU64_consumes.bind fun dataSize =>
    readU32_consumes.last fun dataType => ?_
  simp only [ChunkQuoteRequest.put, List.length_append, Arr.length_val]
  omega

theorem ChunkQuoteResponse.consumes : ChunkQuoteResponse.get.Consumes 1 0 fun r => r.put.length := by
  refine readVariant_consumes.bind fun i => ?_
  split
  · refine readBytes_consumes.bind fun quote => readBool_consumes.bind fun alreadyStored =>
      (readOption_consumes readBytes_consumes).last fun commitment => ?_
    simp only [ChunkQuoteResponse.put, List.length_append]
    omega
  · refine ProtocolError.consumes.last fun e => ?_
    simp [ChunkQuoteResponse.put]
  · exact .fail

theorem MerkleCandidateQuoteRequest.consumes :
    MerkleCandidateQuoteRequest.get.Consumes 1 0 fun r => r.put.length := by
  refine (Consumes.arr 32).bind fun address => readU32_consumes.bind fun dataType =>
    readU64_consumes.bind fun dataSize => readU64_consumes.last fun timestamp => ?_
  simp only [MerkleCandidateQuoteRequest.put, List.length_append, Arr.length_val]
  omega

theorem MerkleCandidateQuoteResponse.consumes :
    MerkleCandidateQuoteResponse.get.Consumes 1 0 fun r => r.put.length := by
  refine readVariant_consumes.bind fun i => ?_
  split
  · refine readBytes_consumes.bind fun candidateNode =>
      (readOption_consumes readBytes_consumes).last fun commitment => ?_
    simp only [MerkleCandidateQuoteResponse.put, List.length_append]
    omega
  · refine ProtocolError.consumes.last fun e => ?_
    simp [MerkleCandidateQuoteResponse.put]
  · exact .fail

theorem ChunkMessageBody.consumes : ChunkMessageBody.get.Consumes 1 0 fun b => b.put.length := by
  refine readVariant_consumes.bind fun i => ?_
  split
  · exact ChunkPutRequest.consumes.last fun r => by simp [ChunkMessageBody.put]
  · exact ChunkPutResponse.consumes.last fun r => by simp [ChunkMessageBody.put]
  · exact ChunkGetRequest.consumes.last fun r => by simp [ChunkMessageBody.put]
  · exact ChunkGetResponse.consumes.last fun r => by simp [ChunkMessageBody.put]
  · exact ChunkQuoteRequest.consumes.last fun r => by simp [ChunkMessageBody.put]
  · exact ChunkQuoteResponse.consumes.last fun r => by simp [ChunkMessageBody.put]
  · exact MerkleCandidateQuoteRequest.consumes.last fun r => by simp [ChunkMessageBody.put]
  · exact MerkleCandidateQuoteResponse.consumes.last fun r => by simp [ChunkMessageBody.put]
  · exact .fail

theorem ChunkMessage.consumes : ChunkMessage.get.Consumes 1 0 fun m => m.put.length := by
  refine readU64_consumes.bind fun requestId => ChunkMessageBody.consumes.last fun body => ?_
  simp [ChunkMessage.put]

/-! ## Discovery and signaling messages -/

theorem PeerConnectInfo.consumes : PeerConnectInfo.get.Consumes 1 0 fun p => p.put.length := by
  refine (Consumes.arr 32).bind fun peerId => readString_consumes.bind fun ip =>
    readU16_consumes.bind fun port => (Consumes.arr 32).last fun certHash => ?_
  simp only [PeerConnectInfo.put, List.length_append, Arr.length_val]
  omega

theorem ClosestPeersResponse.consumes :
    ClosestPeersResponse.get.Consumes 1 0 fun r => r.put.length :=
  (readVec_consumes PeerConnectInfo.consumes).last fun peers => by simp [ClosestPeersResponse.put]

theorem DiscoveryBody.consumes : DiscoveryBody.get.Consumes 1 0 fun b => b.put.length := by
  refine readVariant_consumes.bind fun i => ?_
  split
  · have hr : ClosestPeersRequest.get.Consumes 1 0 fun r => r.put.length :=
      (Consumes.arr 32).last fun address => by simp [ClosestPeersRequest.put]
    exact hr.last fun r => by simp [DiscoveryBody.put]
  · exact ClosestPeersResponse.consumes.last fun r => by simp [DiscoveryBody.put]
  · exact readString_consumes.last fun e => by simp [DiscoveryBody.put]
  · exact .fail

theorem DiscoveryMessage.consumes : DiscoveryMessage.get.Consumes 1 0 fun m => m.put.length := by
  refine readU64_consumes.bind fun requestId => DiscoveryBody.consumes.last fun body => ?_
  simp [DiscoveryMessage.put]

theorem SignalRelayBody.consumes : SignalRelayBody.get.Consumes 1 0 fun b => b.put.length := by
  refine readVariant_consumes.bind fun i => ?_
  split
  · have hr : SignalRelayRequest.get.Consumes 1 0 fun r => r.put.length :=
      (Consumes.arr 32).bind fun target => readString_consumes.last fun sdpOffer => by
        simp [SignalRelayRequest.put]
    exact hr.last fun r => by simp [SignalRelayBody.put]
  · have hr : SignalRelayResponse.get.Consumes 1 0 fun r => r.put.length :=
      readString_consumes.last fun sdpAnswer => by simp [SignalRelayResponse.put]
    exact hr.last fun r => by simp [SignalRelayBody.put]
  · exact readString_consumes.last fun e => by simp [SignalRelayBody.put]
  · exact .fail

theorem SignalRelayMessage.consumes : SignalRelayMessage.get.Consumes 1 0 fun m => m.put.length := by
  refine readU64_consumes.bind fun requestId => SignalRelayBody.consumes.last fun body => ?_
  simp [SignalRelayMessage.put]

/-! ## Accepted messages can be sent -/

theorem readString_sized : readString.Yields fun s => Sized (utf8 s) :=
  readBytes_yields.bind fun b hb => by
    intro bs s rest h
    cases hs : String.fromUTF8? ⟨b.toArray⟩ with
    | none =>
      rw [hs] at h
      cases h
    | some s' =>
      rw [hs] at h
      cases h
      rw [Sized, utf8_fromUTF8 hs]
      exact hb

theorem PeerConnectInfo.yields : PeerConnectInfo.get.Yields fun p => Sized (utf8 p.ip) :=
  (Parser.Yields.trivial _).bind fun _ _ => readString_sized.bind fun _ hip =>
    (Parser.Yields.trivial _).bind fun _ _ => (Parser.Yields.trivial _).bind fun _ _ => .pure hip

theorem DiscoveryBody.yields : DiscoveryBody.get.Yields DiscoveryBody.Fits := by
  refine (Parser.Yields.trivial _).bind fun i _ => ?_
  split
  · exact (Parser.Yields.trivial _).bind fun r _ => .pure trivial
  · have hpeers : (readVec PeerConnectInfo.get).Yields fun peers =>
        peers.length < 2 ^ 32 ∧ ∀ p ∈ peers, Sized (utf8 p.ip) :=
      readUint_yields_32.bind fun n hn bs peers rest h =>
        have hall := Parser.Yields.times PeerConnectInfo.yields n bs peers rest h
        ⟨hall.1 ▸ hn, hall.2⟩
    have hr : ClosestPeersResponse.get.Yields fun r =>
        r.peers.length < 2 ^ 32 ∧ ∀ p ∈ r.peers, Sized (utf8 p.ip) :=
      hpeers.bind fun _ h => .pure h
    exact hr.bind fun _ h => .pure h
  · exact readString_sized.bind fun e he => .pure he
  · exact .fail

theorem SignalRelayBody.yields : SignalRelayBody.get.Yields SignalRelayBody.Fits := by
  refine (Parser.Yields.trivial _).bind fun i _ => ?_
  split
  · have hr : SignalRelayRequest.get.Yields fun r => Sized (utf8 r.sdpOffer) :=
      (Parser.Yields.trivial _).bind fun _ _ => readString_sized.bind fun _ h => .pure h
    exact hr.bind fun _ h => .pure h
  · have hr : SignalRelayResponse.get.Yields fun r => Sized (utf8 r.sdpAnswer) :=
      readString_sized.bind fun _ h => .pure h
    exact hr.bind fun _ h => .pure h
  · exact readString_sized.bind fun e he => .pure he
  · exact .fail

theorem fromBytes_yields {α : Type} {p : Parser α} {P : α → Prop} {bs : Bytes} {a : α}
    (hp : p.Yields P) (h : fromBytes p bs = some a) : P a := by
  obtain ⟨⟨a', rest⟩, hget, rfl⟩ := Option.map_eq_some_iff.1 h
  exact hp _ _ _ hget

section
variable {C : Crates} {data : Bytes}

theorem ChunkMessage.decode_eq_ok {m : ChunkMessage} : ChunkMessage.decode C data = .ok m ↔
    data.length ≤ maxWireMessageSize ∧ fromBytes ChunkMessage.get data = some m := by
  unfold ChunkMessage.decode
  split_ifs with hl
  · simp only [false_iff, not_and]
    omega
  · cases fromBytes ChunkMessage.get data with
    | none => simp
    | some m' => simp [Nat.le_of_not_lt hl]

theorem DiscoveryMessage.decode_eq_ok {m : DiscoveryMessage} :
    DiscoveryMessage.decode C data = .ok m ↔ fromBytes DiscoveryMessage.get data = some m := by
  unfold DiscoveryMessage.decode
  cases fromBytes DiscoveryMessage.get data <;> simp

theorem SignalRelayMessage.decode_eq_ok {m : SignalRelayMessage} :
    SignalRelayMessage.decode C data = .ok m ↔ fromBytes SignalRelayMessage.get data = some m := by
  unfold SignalRelayMessage.decode
  cases fromBytes SignalRelayMessage.get data <;> simp

end

/-- **What is accepted is well formed**: it can be sent, in no more bytes, and is then
    accepted as the same message.  Bytes after a message change nothing, below the cap. -/
theorem decode_normal (C : Crates) :
    (∀ data m, ChunkMessage.decode C data = .ok m →
      (∃ bytes, m.encode = .ok bytes ∧ bytes.length ≤ data.length ∧
        ChunkMessage.decode C bytes = .ok m) ∧
      ∀ more, (data ++ more).length ≤ maxWireMessageSize →
        ChunkMessage.decode C (data ++ more) = .ok m) ∧
    (∀ data m, DiscoveryMessage.decode C data = .ok m →
      (∃ bytes, m.encode = .ok bytes ∧ bytes.length ≤ data.length ∧
        DiscoveryMessage.decode C bytes = .ok m) ∧
      ∀ more, DiscoveryMessage.decode C (data ++ more) = .ok m) ∧
    (∀ data m, SignalRelayMessage.decode C data = .ok m →
      (∃ bytes, m.encode = .ok bytes ∧ bytes.length ≤ data.length ∧
        SignalRelayMessage.decode C bytes = .ok m) ∧
      ∀ more, SignalRelayMessage.decode C (data ++ more) = .ok m) := by
  refine ⟨?_, ?_, ?_⟩
  · intro data m h
    obtain ⟨hl, hget⟩ := ChunkMessage.decode_eq_ok.1 h
    obtain ⟨hlen, hmore⟩ := fromBytes_consumes ChunkMessage.consumes hget
    refine ⟨⟨m.put, rfl, hlen, ChunkMessage.decode_put C (hlen.trans hl)⟩, fun more hcap => ?_⟩
    exact ChunkMessage.decode_eq_ok.2 ⟨hcap, hmore more⟩
  · intro data m h
    have hget := DiscoveryMessage.decode_eq_ok.1 h
    obtain ⟨hlen, hmore⟩ := fromBytes_consumes DiscoveryMessage.consumes hget
    have hfits : DiscoveryMessage.get.Yields DiscoveryMessage.Fits :=
      (Parser.Yields.trivial _).bind fun _ _ => DiscoveryBody.yields.bind fun _ hb => .pure hb
    refine ⟨⟨m.put, rfl, hlen, DiscoveryMessage.decode_put C (fromBytes_yields hfits hget)⟩, ?_⟩
    exact fun more => DiscoveryMessage.decode_eq_ok.2 (hmore more)
  · intro data m h
    have hget := SignalRelayMessage.decode_eq_ok.1 h
    obtain ⟨hlen, hmore⟩ := fromBytes_consumes SignalRelayMessage.consumes hget
    have hfits : SignalRelayMessage.get.Yields SignalRelayMessage.Fits :=
      (Parser.Yields.trivial _).bind fun _ _ => SignalRelayBody.yields.bind fun _ hb => .pure hb
    refine ⟨⟨m.put, rfl, hlen, SignalRelayMessage.decode_put C (fromBytes_yields hfits hget)⟩, ?_⟩
    exact fun more => SignalRelayMessage.decode_eq_ok.2 (hmore more)

/-- A discovery error with a longer varint than needed, and a byte after it. -/
theorem decode_normal_padded :
    DiscoveryMessage.decode .transparent [0x85, 0x00, 2, 1, 65, 9] = .ok ⟨5, .error "A"⟩ ∧
      ∃ bytes, DiscoveryMessage.encode ⟨5, .error "A"⟩ = .ok bytes ∧ bytes.length ≤ 6 ∧
        DiscoveryMessage.decode .transparent bytes = .ok ⟨5, .error "A"⟩ := by
  have h : DiscoveryMessage.decode .transparent [0x85, 0x00, 2, 1, 65, 9] =
      .ok ⟨5, .error "A"⟩ := rfl
  exact ⟨h, ((decode_normal .transparent).2.1 _ _ h).1⟩

end AntClient
