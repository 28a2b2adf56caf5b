/-
  Client side of the post-quantum tunnel (`tunnel.rs`).

      ClientHello:   0x01 ‖ version ‖ ek
      ServerAccept:  0x02 ‖ version ‖ ct ‖ pubkey ‖ sig
      Encrypted:     0x03 ‖ seq ‖ ciphertext

  The node signs `context ‖ ek ‖ ct`; the session key is derived from the shared
  secret, and a nonce is a sequence number and a direction.

  * `finish_ok`: what an accepted `ServerAccept` has proved.
  * `authMessage_inj`: the signed transcript determines the session.
  * `buildNonce_inj`: a nonce determines its sequence number and direction.
-/
import AntClient.Text
import AntClient.Lib.Postcard

namespace AntClient

open Bytes

/-- PQC tunnel protocol version. -/
def pqcVersion : ℕ := 2

def kdfContext : String := "ant-webrtc-pqc-v1"

def authSignContext : Bytes := Postcard.utf8 "ant-webrtc-auth-v1"

/-- Maximum sequence number before the session must be torn down. -/
def maxSeq : UInt32 := 4294967295 - 1

/-- Message direction for nonce construction. -/
inductive Direction
  | clientToServer
  | serverToClient

/-- Symmetric cipher for an established session. -/
structure SessionCipher where
  key : Arr 32

/-- An in-flight client handshake (holds the decapsulation key). -/
structure ClientHandshake where
  dk : Arr mlKem768DkSize
  ekBytes : Arr mlKem768EkSize

/-- Result of a completed handshake. -/
structure Established where
  cipher : SessionCipher
  /-- BLAKE3 of the node's ML-DSA-65 public key -/
  peerId : XorName

variable (C : Crates)

/-! ## The session cipher -/

/-- Derive from the ML-KEM shared secret. -/
def SessionCipher.fromSharedSecret (ss : Arr 32) : SessionCipher :=
  ⟨C.deriveKey kdfContext ss.1⟩

def Direction.byte : Direction → UInt8
  | .clientToServer => 0x00
  | .serverToClient => 0x01

def buildNonce (seq : UInt32) (direction : Direction) : Arr 12 :=
  ⟨toBe 4 seq.toNat ++ direction.byte :: List.replicate 7 0, by simp⟩

/-- An Encrypted envelope. -/
def envelope (seq : UInt32) (ciphertext : Bytes) : Bytes := 0x03 :: (toBe 4 seq.toNat ++ ciphertext)

/-- Encrypt a request payload and wrap it in an Encrypted envelope. -/
def SessionCipher.sealRequest (self : SessionCipher) (seq : UInt32) (plaintext : Bytes) :
    Except String Bytes :=
  match C.encrypt self.key (buildNonce seq .clientToServer) plaintext with
  | none => .error "encryption failed"
  | some ciphertext => .ok (envelope seq ciphertext)

/-- Unwrap an Encrypted envelope and decrypt the response payload. -/
def SessionCipher.openResponse (self : SessionCipher) (envelope : Bytes) :
    Except String (UInt32 × Bytes) :=
  if envelope.length < 5 ∨ envelope.head? ≠ some 0x03 then .error "invalid Encrypted envelope"
  else
    let seq := UInt32.ofNat (beNat ((envelope.drop 1).take 4))
    match C.decrypt self.key (buildNonce seq .serverToClient) (envelope.drop 5) with
    | none => .error "decryption failed (tampered or wrong session)"
    | some plaintext => .ok (seq, plaintext)

/-! ## The handshake -/

/-- Produce the `ClientHello` frame from a fresh keypair, the answer of the key
    generator. -/
def ClientHandshake.start (keygen : Except String (Arr mlKem768EkSize × Arr mlKem768DkSize)) :
    Except String (ClientHandshake × Bytes) :=
  match keygen with
  | .error e => .error s!"ML-KEM keygen: {e}"
  | .ok (ek, dk) => .ok (⟨dk, ek⟩, 0x01 :: toBe 2 pqcVersion ++ ek.1)

/-- The transcript the node signs. -/
def authMessage (ek : Arr mlKem768EkSize) (ct : Arr mlKem768CtSize) : Bytes :=
  authSignContext ++ (ek.1 ++ ct.1)

/-- The contents of a `ServerAccept`. -/
structure ServerAccept where
  ct : Arr mlKem768CtSize
  pubkey : Arr mlDsa65PkSize
  signature : Arr mlDsa65SigSize

/-- The length of a `ServerAccept` frame. -/
def acceptLen : ℕ := 1 + 2 + mlKem768CtSize + mlDsa65PkSize + mlDsa65SigSize

/-- The first half of `finish`: check length, type and version, and cut the frame
    at its offsets; bytes after the signature are ignored. -/
def ServerAccept.ofFrame (acceptFrame : Bytes) : Except String ServerAccept :=
  if h : acceptFrame.length < acceptLen then
    .error s!"ServerAccept too short: {acceptFrame.length} bytes"
  else if acceptFrame.getD 0 0 ≠ 0x02 then
    .error s!"expected ServerAccept type 0x02, got 0x{hexEncode [acceptFrame.getD 0 0]}"
  else if beNat ((acceptFrame.drop 1).take 2) ≠ pqcVersion then
    .error s!"unsupported PQC version {beNat ((acceptFrame.drop 1).take 2)}"
  else
    .ok {
      ct := Arr.slice mlKem768CtSize 3 acceptFrame (by rw [acceptLen] at h; omega)
      pubkey := Arr.slice mlDsa65PkSize (3 + mlKem768CtSize) acceptFrame
        (by rw [acceptLen] at h; omega)
      signature := Arr.slice mlDsa65SigSize (3 + mlKem768CtSize + mlDsa65PkSize) acceptFrame
        (by rw [acceptLen] at h; omega) }

/-- Pin the node identity. -/
def checkPeerId (expectedPeerId : Option XorName) (peerId : XorName) : Except String Unit :=
  match expectedPeerId with
  | none => .ok ()
  | some expected =>
    if peerId ≠ expected then
      .error s!"PeerId mismatch: expected {hexEncode expected.1}, got {hexEncode peerId.1}"
    else .ok ()

/-- The second half of `finish`: verify the signature over the transcript, pin
    the peer id, and derive the session cipher. -/
def ClientHandshake.accept (self : ClientHandshake) (a : ServerAccept)
    (expectedPeerId : Option XorName) : Except String Established :=
  if ¬ C.mlDsaKey a.pubkey then .error "invalid ML-DSA-65 public key"
  else if ¬ C.mlDsaVerify a.pubkey (authMessage self.ekBytes a.ct) a.signature [] then
    .error "ML-DSA-65 signature verification failed"
  else match checkPeerId expectedPeerId (C.blake3 a.pubkey.1) with
    | .error e => .error e
    | .ok () =>
      if ¬ C.mlKemCipherText a.ct then .error "invalid ML-KEM-768 ciphertext"
      else match C.mlKemDecaps self.dk a.ct with
        | none => .error "ML-KEM-768 decapsulation failed"
        | some ss => .ok ⟨.fromSharedSecret C ss, C.blake3 a.pubkey.1⟩

/-- Process the `ServerAccept` frame: verify version, signature, and the pinned
    peer id, then derive the session cipher. -/
def ClientHandshake.finish (self : ClientHandshake) (acceptFrame : Bytes)
    (expectedPeerId : Option XorName) : Except String Established :=
  match ServerAccept.ofFrame acceptFrame with
  | .error e => .error e
  | .ok a => self.accept C a expectedPeerId

/-! ## What an accepted frame proves -/

/-- The node `peerId` has signed the transcript of the session `ek`. -/
structure ServerAccept.Authenticates (a : ServerAccept) (ek : Arr mlKem768EkSize)
    (peerId : XorName) : Prop where
  peerId : C.blake3 a.pubkey.1 = peerId
  signature : C.mlDsaVerify a.pubkey (authMessage ek a.ct) a.signature []

/-- A byte string as its bytes before and after a slice. -/
theorem drop_eq_slice {n i : ℕ} {b : Bytes} (h : i + n ≤ b.length) :
    b.drop i = (Arr.slice n i b h).1 ++ b.drop (i + n) := by
  rw [← List.drop_drop]
  exact (List.take_append_drop n (b.drop i)).symm

/-- The frame is the layout of its contents: no byte of it is skipped or read
    twice. -/
theorem ServerAccept.ofFrame_ok {frame : Bytes} {a : ServerAccept}
    (h : ServerAccept.ofFrame frame = .ok a) :
    ∃ rest, frame = 0x02 :: (toBe 2 pqcVersion ++
      (a.ct.1 ++ (a.pubkey.1 ++ (a.signature.1 ++ rest)))) := by
  unfold ServerAccept.ofFrame at h
  split_ifs at h with h1 h2 h3
  cases h
  rw [acceptLen] at h1
  rw [not_not] at h2 h3
  obtain ⟨b, bs, rfl⟩ : ∃ b bs, frame = b :: bs :=
    List.exists_cons_of_length_pos (by omega)
  have hv : bs = toBe 2 pqcVersion ++ (b :: bs).drop 3 := by
    rw [toBe_of_beNat (by simp; simp at h1; omega) h3]
    exact (List.take_append_drop 2 bs).symm
  refine ⟨(b :: bs).drop (3 + mlKem768CtSize + mlDsa65PkSize + mlDsa65SigSize), ?_⟩
  rw [← drop_eq_slice, ← drop_eq_slice, ← drop_eq_slice, ← hv]
  simpa using h2

/-- The layout of a `ServerAccept` is read back, whatever follows it. -/
theorem ServerAccept.ofFrame_layout (a : ServerAccept) (rest : Bytes) :
    ServerAccept.ofFrame (0x02 :: (toBe 2 pqcVersion ++
      (a.ct.1 ++ (a.pubkey.1 ++ (a.signature.1 ++ rest))))) = .ok a := by
  generalize hf : 0x02 :: (toBe 2 pqcVersion ++ (a.ct.1 ++ (a.pubkey.1 ++ (a.signature.1 ++ rest)))) =
    frame
  cases h : ServerAccept.ofFrame frame with
  | ok a' =>
    obtain ⟨rest', hf'⟩ := ServerAccept.ofFrame_ok h
    have hb := List.append_cancel_left (List.cons.inj (hf.trans hf')).2
    obtain ⟨h1, hb⟩ := Arr.append_inj hb
    obtain ⟨h2, hb⟩ := Arr.append_inj hb
    obtain ⟨h3, -⟩ := Arr.append_inj hb
    cases a; cases a'
    cases h1; cases h2; cases h3
    rfl
  | error e =>
    exfalso
    have hl : acceptLen ≤ frame.length := by
      rw [← hf, acceptLen]
      simp only [List.length_cons, List.length_append, length_toBe, a.ct.2, a.pubkey.2,
        a.signature.2]
      omega
    have hv : beNat ((frame.drop 1).take 2) = pqcVersion := by
      rw [← hf, List.drop_succ_cons, List.drop_zero, List.take_left' (length_toBe _ _)]
      rfl
    unfold ServerAccept.ofFrame at h
    rw [dif_neg (by omega), if_neg (by rw [← hf]; simp), if_neg (by rw [not_not]; exact hv)] at h
    cases h

theorem checkPeerId_ok {expected : Option XorName} {peerId : XorName} :
    checkPeerId expected peerId = .ok () ↔ ∀ p, expected = some p → peerId = p := by
  cases expected with
  | none => simp [checkPeerId]
  | some p => simp [checkPeerId]

theorem ClientHandshake.accept_ok {hs : ClientHandshake} {a : ServerAccept}
    {expected : Option XorName} {est : Established} (h : hs.accept C a expected = .ok est) :
    a.Authenticates C hs.ekBytes est.peerId ∧ (∀ p, expected = some p → est.peerId = p) ∧
      ∃ ss, C.mlKemDecaps hs.dk a.ct = some ss ∧ est.cipher = .fromSharedSecret C ss := by
  unfold ClientHandshake.accept at h
  split at h
  · cases h
  split at h
  · cases h
  rename_i hsig
  split at h
  · cases h
  rename_i hpin
  split at h
  · cases h
  split at h
  · cases h
  rename_i ss hss
  cases h
  exact ⟨⟨rfl, not_not.1 hsig⟩, checkPeerId_ok.1 hpin, ss, hss, rfl⟩

/-- **The handshake authenticates**: `finish` succeeds only on a frame in which
    the expected node has signed this session's transcript. -/
theorem ClientHandshake.finish_ok {hs : ClientHandshake} {frame : Bytes}
    {expected : Option XorName} {est : Established} (h : hs.finish C frame expected = .ok est) :
    ∃ a, ServerAccept.ofFrame frame = .ok a ∧ a.Authenticates C hs.ekBytes est.peerId ∧
      (∀ p, expected = some p → est.peerId = p) ∧
      ∃ ss, C.mlKemDecaps hs.dk a.ct = some ss ∧ est.cipher = .fromSharedSecret C ss := by
  unfold ClientHandshake.finish at h
  split at h
  · cases h
  · rename_i a ha
    exact ⟨a, ha, ClientHandshake.accept_ok C h⟩

/-- The transcript is injective: it determines the encapsulation key and the
    ciphertext. -/
theorem authMessage_inj {ek ek' : Arr mlKem768EkSize} {ct ct' : Arr mlKem768CtSize}
    (h : authMessage ek ct = authMessage ek' ct') : ek = ek' ∧ ct = ct' := by
  obtain ⟨h1, h2⟩ := Arr.append_inj (List.append_cancel_left h)
  exact ⟨h1, Subtype.ext h2⟩

/-! ## What envelopes and nonces say -/

theorem envelope_inj {s s' : UInt32} {c c' : Bytes} (h : envelope s c = envelope s' c') :
    s = s' ∧ c = c' := by
  obtain ⟨h1, h2⟩ := List.append_inj (List.cons.inj h).2 (by simp)
  exact ⟨UInt32.toNat_inj.1 (toBe_inj s.toNat_lt s'.toNat_lt h1), h2⟩

theorem SessionCipher.sealRequest_ok {cipher : SessionCipher} {seq : UInt32} {p env : Bytes}
    (h : cipher.sealRequest C seq p = .ok env) :
    ∃ c, C.encrypt cipher.key (buildNonce seq .clientToServer) p = some c ∧
      env = envelope seq c := by
  unfold SessionCipher.sealRequest at h
  split at h
  · cases h
  · rename_i c hc
    cases h
    exact ⟨c, hc, rfl⟩

/-- What is opened is an envelope, and its ciphertext decrypts under the nonce of
    a response with its sequence number. -/
theorem SessionCipher.openResponse_ok {cipher : SessionCipher} {env p : Bytes} {seq : UInt32}
    (h : cipher.openResponse C env = .ok (seq, p)) :
    ∃ c, env = envelope seq c ∧
      C.decrypt cipher.key (buildNonce seq .serverToClient) c = some p := by
  unfold SessionCipher.openResponse at h
  split at h
  · cases h
  rename_i hg
  rw [not_or, not_not] at hg
  obtain ⟨b, bs, rfl⟩ : ∃ b bs, env = b :: bs := List.exists_cons_of_length_pos (by omega)
  have hlt := beNat_lt (bs.take 4)
  have h4 : (bs.take 4).length = 4 := by simp at hg ⊢; omega
  rw [h4] at hlt
  have hb : b = 0x03 := by simpa using hg.2
  dsimp only at h
  split at h
  · cases h
  · rename_i p' hp
    cases h
    have hs : (UInt32.ofNat (beNat (bs.take 4))).toNat = beNat (bs.take 4) :=
      UInt32.toNat_ofNat_of_lt' hlt
    refine ⟨bs.drop 4, ?_, hp⟩
    rw [envelope, hb, List.drop_succ_cons, List.drop_zero, hs, toBe_of_beNat h4 rfl,
      List.take_append_drop]

/-- A nonce determines its sequence number and its direction. -/
theorem buildNonce_inj {s s' : UInt32} {d d' : Direction}
    (h : buildNonce s d = buildNonce s' d') : s = s' ∧ d = d' := by
  have h := congrArg Subtype.val h
  obtain ⟨h1, h2⟩ := List.append_inj h (by simp)
  refine ⟨UInt32.toNat_inj.1 (toBe_inj s.toNat_lt s'.toNat_lt h1), ?_⟩
  cases d <;> cases d' <;> first | rfl | cases h2

end AntClient
