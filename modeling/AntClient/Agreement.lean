/-
  The handshake as a protocol (`tunnel.rs`): any number of clients and nodes, over a network
  that belongs to the adversary.

  A node answers any `ClientHello` with a ciphertext for its key and a signature of the
  transcript; the client's half is `ClientHandshake`.  The nodes whose signing keys are in
  `keys` are honest.  Three assumptions, each on the keys and frames of the run only: no two
  clients generate the same key pair, a signature that verifies under the key of an honest
  node has been made by this node (`Genuine`), and no other key in the frames hashes to its id
  (`Identified`).

  * `Kem`: key pairs and encapsulations that decapsulate to what was encapsulated.
  * `handshakes_agree`: a client that ends up with the id of an honest node shares its
    session with one session of this node, which no other client has ended up with.
  * `handshake_exact`: a client gets through to an honest node by its answers, and by
    nothing else.
  * `connections_agree`: so does every connection of a client (`lib.rs`).
-/
import AntClient.System
import AntClient.Lib.Lts

namespace AntClient

open Async Prog Bytes

/-! ## Parties -/

/-- What the clients and the nodes make with ML-KEM-768. -/
structure Kem (C : Crates) where
  keypair : Arr mlKem768EkSize → Arr mlKem768DkSize → Prop
  encaps : Arr mlKem768EkSize → Arr mlKem768CtSize → Arr 32 → Prop
  correct : ∀ {ek dk ct ss}, keypair ek dk → encaps ek ct ss → C.mlKemDecaps dk ct = some ss

/-- What a node knows of a session it has answered. -/
structure NodeSession where
  key : Arr mlDsa65PkSize
  ek : Arr mlKem768EkSize
  ct : Arr mlKem768CtSize
  ss : Arr 32

/-- A handshake of a client. -/
structure Greeter where
  handshake : ClientHandshake
  expected : Option XorName
  /-- the result of `finish`, which consumes the handshake -/
  finished : Option (Except String Established)

inductive HallAct
  | hello (ek : Arr mlKem768EkSize) (dk : Arr mlKem768DkSize) (expected : Option XorName)
  | answer (n : NodeSession)
  | finish (i : ℕ) (frame : Bytes)

variable (C : Crates) (K : Kem C) (keys : Set (Arr mlDsa65PkSize))

/-- The steps: a client begins a handshake with a fresh key pair, an honest node answers
    whatever key it was sent, or a client gets whatever frame the adversary likes. -/
inductive HallStep : List Greeter → HallAct → List Greeter → Prop
  | hello {gs ek dk expected hs frame} : K.keypair ek dk →
      (∀ g ∈ gs, g.handshake.ekBytes ≠ ek) → ClientHandshake.start (.ok (ek, dk)) = .ok (hs, frame) →
      HallStep gs (.hello ek dk expected) (gs ++ [⟨hs, expected, none⟩])
  | answer {gs n} : n.key ∈ keys → K.encaps n.ek n.ct n.ss → HallStep gs (.answer n) gs
  | finish {gs i frame hs expected} : gs[i]? = some ⟨hs, expected, none⟩ →
      HallStep gs (.finish i frame)
        (gs.set i ⟨hs, expected, some (hs.finish C frame expected)⟩)

abbrev HallRun (acts : List HallAct) (gs : List Greeter) : Prop :=
  Lts.Run (HallStep C K keys) [] acts gs

/-- A client has generated the key. -/
def Greeted (acts : List HallAct) (ek : Arr mlKem768EkSize) : Prop :=
  ∃ dk expected, .hello ek dk expected ∈ acts

/-- Whatever verifies in the frame under the key of an honest node, of the transcripts for the
    keys `eks`, is the transcript of a session that this node has answered. -/
def Genuine (eks : Arr mlKem768EkSize → Prop) (answered : NodeSession → Prop) (frame : Bytes) :
    Prop :=
  ∀ a, ServerAccept.ofFrame frame = .ok a → a.pubkey ∈ keys → ∀ ek, eks ek →
    C.mlDsaVerify a.pubkey (authMessage ek a.ct) a.signature [] →
      ∃ n, answered n ∧ n.key = a.pubkey ∧ n.ek = ek ∧ n.ct = a.ct

/-- The key in the frame does not hash to the id of an honest node, unless it is its key. -/
def Identified (frame : Bytes) : Prop :=
  ∀ a, ServerAccept.ofFrame frame = .ok a → ∀ key ∈ keys,
    C.blake3 a.pubkey.1 = C.blake3 key.1 → a.pubkey = key

/-- No frame that a client gets is forged. -/
def Unforged (acts : List HallAct) : Prop :=
  ∀ pre i frame post, acts = pre ++ .finish i frame :: post →
    Genuine C keys (Greeted pre) (.answer · ∈ pre) frame

/-- The client and the node have the same session. -/
structure Shares (g : Greeter) (est : Established) (n : NodeSession) : Prop where
  ek : n.ek = g.handshake.ekBytes
  peerId : est.peerId = C.blake3 n.key.1
  cipher : est.cipher = .fromSharedSecret C n.ss

variable {C K keys} {acts : List HallAct} {gs gs' : List Greeter} {a : HallAct}

/-! ## Agreement -/

theorem Unforged.left {more : List HallAct} (h : Unforged C keys (acts ++ more)) :
    Unforged C keys acts := by
  rintro pre i frame post rfl
  exact h pre i frame (post ++ more) (by simp)

/-- What `finish` makes of a frame that is not forged. -/
theorem finish_shares {eks : Arr mlKem768EkSize → Prop} {answered : NodeSession → Prop}
    (hencaps : ∀ n, answered n → K.encaps n.ek n.ct n.ss) {ek : Arr mlKem768EkSize}
    {dk : Arr mlKem768DkSize} (hpair : K.keypair ek dk) (hek : eks ek) {frame : Bytes}
    (hhash : Identified C keys frame) (hframe : Genuine C keys eks answered frame)
    {a : ServerAccept} (ha : ServerAccept.ofFrame frame = .ok a) {key : Arr mlDsa65PkSize}
    (hkey : key ∈ keys) (hauth : a.Authenticates C ek (C.blake3 key.1)) {ss : Arr 32}
    (hss : C.mlKemDecaps dk a.ct = some ss) :
    a.pubkey = key ∧ ∃ n, answered n ∧ n.key = key ∧ n.ek = ek ∧ n.ct = a.ct ∧ n.ss = ss := by
  obtain rfl : a.pubkey = key := hhash a ha key hkey hauth.peerId
  obtain ⟨n, hn, h1, h2, h3⟩ := hframe a ha hkey _ hek hauth.signature
  have hdec := K.correct hpair (h2 ▸ h3 ▸ hencaps n hn)
  exact ⟨rfl, n, hn, h1, h2, h3, Option.some.inj (hdec.symm.trans hss)⟩

/-- The key pairs are sound and no two are one, and a client that expected someone has not
    got through to another. -/
structure Sound (C : Crates) (K : Kem C) (acts : List HallAct) (gs : List Greeter) : Prop where
  encaps : ∀ n, .answer n ∈ acts → K.encaps n.ek n.ct n.ss
  keypair : ∀ g ∈ gs, K.keypair g.handshake.ekBytes g.handshake.dk
  greeted : ∀ g ∈ gs, Greeted acts g.handshake.ekBytes
  fresh : gs.Pairwise fun g g' => g.handshake.ekBytes ≠ g'.handshake.ekBytes
  expected : ∀ g ∈ gs, ∀ est, g.finished = some (.ok est) →
    ∀ p, g.expected = some p → est.peerId = p

theorem HallStep.sound (h : Sound C K acts gs) (hst : HallStep C K keys gs a gs') :
    Sound C K (acts ++ [a]) gs' := by
  have hgreeted : ∀ g ∈ gs, Greeted (acts ++ [a]) g.handshake.ekBytes := by
    intro g hg
    obtain ⟨dk, expected, hm⟩ := h.greeted g hg
    exact ⟨dk, expected, List.mem_append_left _ hm⟩
  have hencaps : ∀ n, .answer n ∈ acts ++ [a] → K.encaps n.ek n.ct n.ss := by
    intro n hn
    rcases List.mem_append.1 hn with hn | hn
    · exact h.encaps n hn
    · rw [← List.mem_singleton.1 hn] at hst
      cases hst
      assumption
  cases hst with
  | answer => exact ⟨hencaps, h.keypair, hgreeted, h.fresh, h.expected⟩
  | @hello ek dk expected hs frame hpair hfresh hstart =>
    cases hstart
    refine ⟨hencaps, fun g hg => ?_, fun g hg => ?_, ?_, fun g hg est he => ?_⟩
    · rcases List.mem_append.1 hg with hg | hg
      · exact h.keypair g hg
      · rw [List.mem_singleton.1 hg]
        exact hpair
    · rcases List.mem_append.1 hg with hg | hg
      · exact hgreeted g hg
      · rw [List.mem_singleton.1 hg]
        exact ⟨dk, expected, by simp⟩
    · rw [List.pairwise_append]
      refine ⟨h.fresh, List.pairwise_singleton _ _, fun g hg g' hg' => ?_⟩
      rw [List.mem_singleton.1 hg']
      exact hfresh g hg
    · rcases List.mem_append.1 hg with hg | hg
      · exact h.expected g hg est he
      · rw [List.mem_singleton.1 hg] at he
        cases he
  | @finish i frame hs expected hi =>
    have hm := List.mem_of_getElem? hi
    have hpair := h.keypair _ hm
    have hgreeting := hgreeted _ hm
    refine ⟨hencaps, fun g hg => ?_, fun g hg => ?_, ?_, fun g hg est he => ?_⟩
    · rcases List.mem_or_eq_of_mem_set hg with hg | rfl
      · exact h.keypair g hg
      · exact hpair
    · rcases List.mem_or_eq_of_mem_set hg with hg | rfl
      · exact hgreeted g hg
      · exact hgreeting
    · -- the keys are what they were
      have hmap : (gs.set i ⟨hs, expected, some (hs.finish C frame expected)⟩).map
          (fun g => g.handshake.ekBytes) = gs.map fun g => g.handshake.ekBytes := by
        obtain ⟨hlt, hget⟩ := List.getElem?_eq_some_iff.1 hi
        rw [List.map_set]
        refine List.ext_getElem? fun j => ?_
        rw [List.getElem?_set]
        split
        · rename_i hij
          subst hij
          simp [hlt, hget]
        · rfl
      have hfresh := List.pairwise_map.2 h.fresh
      rw [← hmap] at hfresh
      exact List.pairwise_map.1 hfresh
    · rcases List.mem_or_eq_of_mem_set hg with hg | rfl
      · exact h.expected g hg est he
      · intro p hp
        obtain ⟨-, -, -, hpin, -⟩ := ClientHandshake.finish_ok C (Option.some.inj he)
        exact hpin p hp

theorem HallRun.sound (h : HallRun C K keys acts gs) : Sound C K acts gs := by
  refine h.inv (I := Sound C K) ⟨?_, ?_, ?_, .nil, ?_⟩ fun _ ih hst => hst.sound ih
  · rintro n ⟨⟩
  · rintro g ⟨⟩
  · rintro g ⟨⟩
  · rintro g ⟨⟩

/-- The clients that got through to honest nodes share their sessions. -/
def Agrees (C : Crates) (keys : Set (Arr mlDsa65PkSize)) (acts : List HallAct)
    (gs : List Greeter) : Prop :=
  ∀ g ∈ gs, ∀ est, g.finished = some (.ok est) → ∀ key ∈ keys,
    est.peerId = C.blake3 key.1 → ∃ n, .answer n ∈ acts ∧ n.key = key ∧ Shares C g est n

theorem HallStep.agrees (hsound : Sound C K acts gs) (h : Agrees C keys acts gs)
    (hhash : ∀ i frame, .finish i frame ∈ acts ++ [a] → Identified C keys frame)
    (hu : Unforged C keys (acts ++ [a])) (hst : HallStep C K keys gs a gs') :
    Agrees C keys (acts ++ [a]) gs' := by
  have kept : ∀ g ∈ gs, ∀ est, g.finished = some (.ok est) → ∀ key ∈ keys,
      est.peerId = C.blake3 key.1 →
        ∃ n, .answer n ∈ acts ++ [a] ∧ n.key = key ∧ Shares C g est n := by
    intro g hg est he key hk hid
    obtain ⟨n, hn, hshares⟩ := h g hg est he key hk hid
    exact ⟨n, List.mem_append_left _ hn, hshares⟩
  cases hst with
  | answer => exact kept
  | hello =>
    intro g hg est he
    rcases List.mem_append.1 hg with hg | hg
    · exact kept g hg est he
    · rw [List.mem_singleton.1 hg] at he
      cases he
  | @finish i frame hs expected hi =>
    intro g hg est he key hk hid
    rcases List.mem_or_eq_of_mem_set hg with hg | rfl
    · exact kept g hg est he key hk hid
    · have hm := List.mem_of_getElem? hi
      obtain ⟨a, ha, hauth, -, ss, hss, hcipher⟩ :=
        ClientHandshake.finish_ok C (Option.some.inj he)
      obtain ⟨-, n, hn, hkn, hek, -, hns⟩ := finish_shares hsound.encaps (hsound.keypair _ hm)
        (hsound.greeted _ hm) (hhash i frame (by simp)) (hu acts i frame [] rfl) ha hk
        (hid ▸ hauth) hss
      exact ⟨n, List.mem_append_left _ hn, hkn, hek, hid.trans (by rw [hkn]), by rw [hcipher, hns]⟩

theorem HallRun.agrees (h : HallRun C K keys acts gs)
    (hhash : ∀ i frame, .finish i frame ∈ acts → Identified C keys frame)
    (hu : Unforged C keys acts) : Agrees C keys acts gs := by
  have hinv := h.inv (I := fun acts gs =>
    (∀ i frame, .finish i frame ∈ acts → Identified C keys frame) → Unforged C keys acts →
      Agrees C keys acts gs) (fun _ _ => ?_) ?_
  · exact hinv hhash hu
  · rintro g ⟨⟩
  · intro as t a u hrun ih hst hhash' hu'
    have hprev := ih (fun i frame hm => hhash' i frame (List.mem_append_left _ hm)) hu'.left
    exact hst.agrees (HallRun.sound hrun) hprev hhash' hu'

/-- **Handshakes agree**: in every run of any number of clients and nodes over a network of
    the adversary, a client that got through has got the id it expected; if it is the id of
    an honest node, this node has answered this client's key and has the same session key;
    and no two clients that got through have the session of one answer. -/
theorem handshakes_agree
    (hhash : ∀ i frame, .finish i frame ∈ acts → Identified C keys frame)
    (h : HallRun C K keys acts gs) (hu : Unforged C keys acts) :
    (∀ g ∈ gs, ∀ est, g.finished = some (.ok est) →
      (∀ p, g.expected = some p → est.peerId = p) ∧
      ∀ key ∈ keys, est.peerId = C.blake3 key.1 →
        ∃ n, .answer n ∈ acts ∧ n.key = key ∧ Shares C g est n) ∧
    ∀ (i j : ℕ) g g' est est' n, gs[i]? = some g → gs[j]? = some g' →
      g.finished = some (.ok est) → g'.finished = some (.ok est') →
      Shares C g est n → Shares C g' est' n → i = j := by
  have hsound : Sound C K acts gs := h.sound
  refine ⟨fun g hg est he => ⟨hsound.expected g hg est he, h.agrees hhash hu g hg est he⟩, ?_⟩
  intro i j g g' est est' n hi hj _ _ hs hs'
  have heq : g.handshake.ekBytes = g'.handshake.ekBytes := hs.ek.symm.trans hs'.ek
  obtain ⟨hil, hig⟩ := List.getElem?_eq_some_iff.1 hi
  obtain ⟨hjl, hjg⟩ := List.getElem?_eq_some_iff.1 hj
  have hpair := List.pairwise_iff_getElem.1 hsound.fresh
  rcases Nat.lt_trichotomy i j with hij | hij | hij
  · exact absurd (by rw [hig, hjg]; exact heq) (hpair i j hil hjl hij)
  · exact hij
  · exact absurd (by rw [hig, hjg]; exact heq.symm) (hpair j i hjl hil hij)

/-! ## Completion -/

/-- The frame in which a node answers. -/
def NodeSession.frame (n : NodeSession) (signature : Arr mlDsa65SigSize) (rest : Bytes) : Bytes :=
  0x02 :: (toBe 2 pqcVersion ++ (n.ct.1 ++ (n.key.1 ++ (signature.1 ++ rest))))

/-- `finish` accepts what verifies, if the pieces of the frame are decodable. -/
theorem ClientHandshake.finish_layout {hs : ClientHandshake} {n : NodeSession}
    {signature : Arr mlDsa65SigSize} {expected : Option XorName} {ss : Arr 32}
    (hkey : C.mlDsaKey n.key = true)
    (hverify : C.mlDsaVerify n.key (authMessage hs.ekBytes n.ct) signature [] = true)
    (hpin : ∀ p, expected = some p → C.blake3 n.key.1 = p) (hct : C.mlKemCipherText n.ct = true)
    (hss : C.mlKemDecaps hs.dk n.ct = some ss) (rest : Bytes) :
    hs.finish C (n.frame signature rest) expected =
      .ok ⟨.fromSharedSecret C ss, C.blake3 n.key.1⟩ := by
  rw [ClientHandshake.finish, NodeSession.frame,
    ServerAccept.ofFrame_layout ⟨n.ct, n.key, signature⟩ rest]
  show hs.accept C ⟨n.ct, n.key, signature⟩ expected = _
  rw [ClientHandshake.accept, if_neg (not_not.2 hkey), if_neg (not_not.2 hverify),
    checkPeerId_ok.2 hpin]
  dsimp only
  rw [if_neg (not_not.2 hct), hss]

/-- **Handshakes complete**, and exactly those: a client that expects an honest node gets through
    just by the frames in which this node has answered its key, whatever follows them, and then
    has the session of this answer. -/
theorem handshake_exact (hvalid : ∀ key ∈ keys, C.mlDsaKey key = true)
    (hct : ∀ ek ct ss, K.encaps ek ct ss → C.mlKemCipherText ct = true)
    (h : HallRun C K keys acts gs) {i : ℕ} {hs : ClientHandshake} {key : Arr mlDsa65PkSize}
    (hkey : key ∈ keys) (hi : gs[i]? = some ⟨hs, some (C.blake3 key.1), none⟩) {frame : Bytes}
    (hhash : Identified C keys frame)
    (hframe : Genuine C keys (Greeted acts) (.answer · ∈ acts) frame) (est : Established) :
    hs.finish C frame (some (C.blake3 key.1)) = .ok est ↔
      ∃ n signature rest, .answer n ∈ acts ∧ n.key = key ∧ n.ek = hs.ekBytes ∧
        C.mlDsaVerify n.key (authMessage n.ek n.ct) signature [] = true ∧
        frame = n.frame signature rest ∧ est = ⟨.fromSharedSecret C n.ss, C.blake3 n.key.1⟩ := by
  have hsound := h.sound
  have hm := List.mem_of_getElem? hi
  have hpair : K.keypair hs.ekBytes hs.dk := hsound.keypair _ hm
  constructor
  · intro hok
    obtain ⟨a, ha, hauth, hpin, ss, hss, hcipher⟩ := ClientHandshake.finish_ok C hok
    have hid : est.peerId = C.blake3 key.1 := hpin _ rfl
    obtain ⟨rfl, n, hn, h1, h2, h3, rfl⟩ := finish_shares hsound.encaps hpair
      (hsound.greeted _ hm) hhash hframe ha hkey (hid ▸ hauth) hss
    obtain ⟨rest, hlayout⟩ := ServerAccept.ofFrame_ok ha
    refine ⟨n, a.signature, rest, hn, h1, h2, ?_, ?_, ?_⟩
    · rw [h1, h2, h3]
      exact hauth.signature
    · rw [hlayout, NodeSession.frame, h1, h3]
    · obtain ⟨cipher, peerId⟩ := est
      rw [h1]
      exact congr (congrArg Established.mk hcipher) hid
  · rintro ⟨n, signature, rest, hn, rfl, hek, hverify, rfl, rfl⟩
    have hencaps := hsound.encaps n hn
    have hdec := K.correct hpair (hek ▸ hencaps)
    exact ClientHandshake.finish_layout (hvalid _ hkey) (hek ▸ hverify)
      (by rintro p ⟨⟩; rfl) (hct _ _ _ hencaps) hdec rest

/-! ## The connections of a client -/

/-- The node's session is the one of the connection: its keys were generated for it. -/
structure SharesConn (tr : List (Ev Net)) (conn : NodeConnection) (n : NodeSession) : Prop where
  keygen : ∃ dk, ⟨.keygen, .ok (n.ek, dk)⟩ ∈ tr
  peerId : conn.peerId = C.blake3 n.key.1
  cipher : conn.cipher = .fromSharedSecret C n.ss

/-- **Connections agree**: in every reachable configuration of a client, whatever its calls
    and whatever is answered, each connection of the pool and each that a request went over,
    if it has the id of an honest node, has the session key of a session that this node
    answered for a key of this client. -/
theorem connections_agree {DataMap : Type} (S : SelfEncryption DataMap) {client : WasmClient}
    {cells : Cells} {tasks : List (Prog Net Cells Unit)} {tr : List (Ev Net)}
    (h : client.Reachable S C cells tasks tr) {answered : NodeSession → Prop}
    (hencaps : ∀ n, answered n → K.encaps n.ek n.ct n.ss)
    (hkeygen : ∀ ek dk, ⟨.keygen, .ok (ek, dk)⟩ ∈ tr → K.keypair ek dk)
    (hhash : ∀ transport frame, ⟨.recvFrame transport, .ok frame⟩ ∈ tr → Identified C keys frame)
    (hframes : ∀ transport frame, ⟨.recvFrame transport, .ok frame⟩ ∈ tr →
      Genuine C keys (fun ek => ∃ dk, ⟨.keygen, .ok (ek, dk)⟩ ∈ tr) answered frame) :
    ∀ conn, (cells.pool[conn.peerId]? = some conn ∨ ∃ ev ∈ tr, ev.req.Uses conn) →
      ∀ key ∈ keys, conn.peerId = C.blake3 key.1 →
        ∃ n, answered n ∧ n.key = key ∧ SharesConn (C := C) tr conn n := by
  intro conn hconn key hkey hid
  obtain ⟨hkeyed, huses⟩ := h.pool
  have hauth : Authentic C (· ∈ tr) conn := by
    rcases hconn with hp | ⟨ev, hev, hu⟩
    · exact (hkeyed _ _ hp).2
    · exact huses ev hev conn hu
  obtain ⟨ek, dk, frame, a, ss, hgen, hrecv, ha, hsigned, hss, hcipher⟩ := hauth
  obtain ⟨-, n, hn, hkn, rfl, -, rfl⟩ := finish_shares hencaps (hkeygen ek dk hgen) ⟨dk, hgen⟩
    (hhash _ _ hrecv) (hframes _ _ hrecv) ha hkey (hid ▸ hsigned) hss
  exact ⟨n, hn, hkn, ⟨dk, hgen⟩, hid.trans (by rw [hkn]), hcipher⟩

/-! ## An instance -/

/-- Signatures that begin with the message, and a hash that tells one key from all bytes. -/
def Crates.pinning : Crates :=
  { Crates.recording with
    blake3 := fun b => if b = (zeros mlDsa65PkSize).1 then first32 [1] else first32 [] }

def pinningKem : Kem .pinning where
  keypair _ _ := True
  encaps _ ct ss := first32 ct.1 = ss
  correct _ h := congrArg some h

/-- The node has answered the key of zeros. -/
def pinningSession : NodeSession := ⟨zeros _, zeros _, zeros _, first32 (zeros mlKem768CtSize).1⟩

def pinningFrame : Bytes :=
  0x02 :: (toBe 2 pqcVersion ++ (recordingAccept.ct.1 ++ (recordingAccept.pubkey.1 ++
    (recordingAccept.signature.1 ++ []))))

theorem blake3_pinning : Crates.pinning.blake3 (zeros mlDsa65PkSize).1 = first32 [1] :=
  if_pos rfl

theorem pinning_identified (frame : Bytes) : Identified .pinning {zeros _} frame := by
  intro a _ key hkey h
  rw [hkey, blake3_pinning] at h
  by_contra hne
  have hneq : a.pubkey.1 ≠ (zeros mlDsa65PkSize).1 :=
    fun he => hne (Subtype.ext he |>.trans hkey.symm)
  have hother : Crates.pinning.blake3 a.pubkey.1 = first32 [] := if_neg hneq
  rw [hother] at h
  exact absurd h (by decide)

theorem pinning_genuine {eks : Arr mlKem768EkSize → Prop} {answered : NodeSession → Prop}
    (h : answered pinningSession) : Genuine .pinning {zeros _} eks answered pinningFrame := by
  intro a ha _ ek _ hv
  rw [pinningFrame, ServerAccept.ofFrame_layout] at ha
  cases ha
  have htake : recordingAccept.signature.1.take (authMessage (zeros _) (zeros _)).length =
      authMessage ek recordingAccept.ct := of_decide_eq_true hv
  rw [recordingAccept, List.take_left' rfl] at htake
  obtain ⟨rfl, -⟩ := authMessage_inj htake
  exact ⟨_, h, rfl, rfl, rfl⟩

theorem finish_pinning (expected : Option XorName) (h : ∀ p, expected = some p → p = first32 [1]) :
    (⟨zeros _, zeros _⟩ : ClientHandshake).finish .pinning pinningFrame expected =
      .ok ⟨.fromSharedSecret .pinning pinningSession.ss, first32 [1]⟩ := by
  have hverify : Crates.pinning.mlDsaVerify recordingAccept.pubkey
      (authMessage (zeros _) recordingAccept.ct) recordingAccept.signature [] = true :=
    decide_eq_true (List.take_left' rfl)
  have hid : Crates.pinning.blake3 pinningSession.key.1 = first32 [1] := blake3_pinning
  have hok : (⟨zeros _, zeros _⟩ : ClientHandshake).finish .pinning
      (pinningSession.frame recordingAccept.signature []) expected =
        .ok ⟨.fromSharedSecret .pinning pinningSession.ss,
          Crates.pinning.blake3 pinningSession.key.1⟩ :=
    ClientHandshake.finish_layout rfl hverify (fun p hp => hid.trans (h p hp).symm) rfl rfl []
  rwa [hid] at hok

/-- A client that expects the node gets through to it. -/
theorem handshakes_agree_pinning : ∃ acts gs g est, HallRun .pinning pinningKem {zeros _} acts gs ∧
    g ∈ gs ∧ g.finished = some (.ok est) ∧ ∃ n, .answer n ∈ acts ∧ Shares .pinning g est n := by
  have hrun : HallRun .pinning pinningKem {zeros _}
      [.hello (zeros _) (zeros _) (some (first32 [1])), .answer pinningSession, .finish 0 pinningFrame]
      [⟨⟨zeros _, zeros _⟩, some (first32 [1]), some ((⟨zeros _, zeros _⟩ : ClientHandshake).finish
        .pinning pinningFrame (some (first32 [1])))⟩] := by
    refine .cons (.hello trivial ?_ rfl) (.cons (.answer rfl rfl) (.cons (.finish rfl) .start))
    rintro g ⟨⟩
  have hunforged : Unforged .pinning {zeros _} [.hello (zeros _) (zeros _) (some (first32 [1])),
      .answer pinningSession, .finish 0 pinningFrame] := by
    rintro pre i frame post he
    match pre, he with
    | [], he => cases he
    | [_], he => cases he
    | [_, _], he =>
      cases he
      exact pinning_genuine (by simp)
    | _ :: _ :: _ :: pre, he => simp at he
  have hfinish := finish_pinning (some (first32 [1])) (by rintro p ⟨⟩; rfl)
  obtain ⟨hall, -⟩ := handshakes_agree (fun _ frame _ => pinning_identified frame) hrun hunforged
  obtain ⟨-, hshares⟩ := hall _ List.mem_cons_self _ (congrArg some hfinish)
  obtain ⟨n, hn, -, hs⟩ := hshares (zeros _) rfl blake3_pinning.symm
  exact ⟨_, _, _, _, hrun, List.mem_cons_self, congrArg some hfinish, n, hn, hs⟩

/-- Where the node has answered, its frame completes the handshake. -/
theorem handshake_exact_pinning : ∃ acts gs est, HallRun .pinning pinningKem {zeros _} acts gs ∧
    gs[0]? = some ⟨⟨zeros _, zeros _⟩, some (Crates.pinning.blake3 (zeros mlDsa65PkSize).1), none⟩ ∧
    (⟨zeros _, zeros _⟩ : ClientHandshake).finish .pinning pinningFrame
      (some (Crates.pinning.blake3 (zeros mlDsa65PkSize).1)) = .ok est := by
  have hrun : HallRun .pinning pinningKem {zeros _}
      [.hello (zeros _) (zeros _) (some (Crates.pinning.blake3 (zeros mlDsa65PkSize).1)),
        .answer pinningSession]
      [⟨⟨zeros _, zeros _⟩, some (Crates.pinning.blake3 (zeros mlDsa65PkSize).1), none⟩] := by
    refine .cons (.hello trivial ?_ rfl) (.cons (.answer rfl rfl) .start)
    rintro g ⟨⟩
  refine ⟨_, _, _, hrun, rfl, (handshake_exact (i := 0) (fun _ _ => rfl) (fun _ _ _ _ => rfl) hrun
    rfl rfl (pinning_identified _) (pinning_genuine (by simp)) _).2
      ⟨pinningSession, recordingAccept.signature, [], by simp, rfl, rfl, ?_, rfl, rfl⟩⟩
  exact decide_eq_true (List.take_left' rfl)

/-- The events of a connect to the node. -/
def pinningTrace : List (Ev Net) :=
  [⟨.transportConnect "192.0.2.1" 443 (hexEncode (zeros 32).1), .ok 0⟩,
    ⟨.keygen, .ok (zeros _, zeros _)⟩,
    ⟨.sendFrame 0 (0x01 :: toBe 2 pqcVersion ++ (zeros mlKem768EkSize).1), .ok ()⟩,
    ⟨.recvFrame 0, .ok pinningFrame⟩]

/-- A connected client, with no name for its bootstrap node. -/
theorem connections_agree_pinning : ∃ (client : WasmClient) (tr : List (Ev Net)),
    SharesConn (C := .pinning) tr client.bootstrap pinningSession := by
  let conn : NodeConnection := ⟨0, .fromSharedSecret .pinning pinningSession.ss, first32 [1]⟩
  have hfinish := finish_pinning none (by rintro p ⟨⟩)
  have hconnect : Run Eq (WasmClient.connect .pinning "192.0.2.1" 443 (hexEncode (zeros 32).1) "")
      () pinningTrace (some (.ok (⟨conn⟩,
        ⟨(∅ : Std.HashMap XorName NodeConnection).insert conn.peerId conn, 0⟩))) () := by
    rw [WasmClient.connect, parseOptPeerId, if_pos rfl, ret_ok_bindE]
    refine .call _ rfl (.call _ rfl (.call _ rfl (.call _ rfl ?_)))
    show Run _ (bindE (bindE (.ret (ClientHandshake.finish _ _ _ _)) _) _) _ _ _ _
    rw [hfinish]
    exact .ret
  have hreach : WasmClient.Reachable .transparent .pinning ⟨conn⟩ _ [] pinningTrace :=
    ⟨"192.0.2.1", 443, hexEncode (zeros 32).1, "", _, _, [], (List.append_nil _).symm,
      hconnect.mono fun _ _ _ => trivial, .init rfl⟩
  have hframes : ∀ transport frame, ⟨.recvFrame transport, .ok frame⟩ ∈ pinningTrace →
      frame = pinningFrame := by
    intro transport frame hm
    have hpair : transport = 0 ∧ frame = pinningFrame := by simpa [pinningTrace] using hm
    exact hpair.2
  have hencaps : ∀ n, n = pinningSession → pinningKem.encaps n.ek n.ct n.ss := by
    rintro n rfl
    rfl
  obtain ⟨n, rfl, -, hs⟩ := connections_agree (K := pinningKem) .transparent hreach hencaps
    (fun _ _ _ => trivial) (fun _ frame _ => pinning_identified frame)
    (fun transport frame hm => by rw [hframes transport frame hm]; exact pinning_genuine rfl) conn
    (Or.inl (by simp)) (zeros _) rfl blake3_pinning.symm
  exact ⟨⟨conn⟩, _, hs⟩

end AntClient
