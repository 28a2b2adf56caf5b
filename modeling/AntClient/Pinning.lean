/-
  The certificate pin of a connection.

  The answer that is made up for a discovered peer contains the peer's address as the
  answering node wrote it.

  * `starts_serverAnswer`: how many lines of the answer begin with a tag of the pin.
  * `answer_pins_iff`: when the answer pins the peer's certificate and nothing else.
-/
import AntClient.Client
import AntClient.Sdp
import Mathlib.Tactic.LinearCombination

namespace AntClient

open Async Prog Bytes Lines

/-! ## The answer -/

def fingerprintTag : List Char := "a=fingerprint:".toList
def candidateTag : List Char := "a=candidate:".toList

/-- The lines that must occur once in an answer. -/
def pinnedTags : List (List Char) := [fingerprintTag, iceUfrag, icePwd, candidateTag]

section
variable {tag : List Char} {ip ufrag colon : String} {port : UInt16}

theorem mem_pinnedTags : tag ∈ pinnedTags ↔ tag = "a=fingerprint:".toList ∨
    tag = "a=ice-ufrag:".toList ∨ tag = "a=ice-pwd:".toList ∨ tag = "a=candidate:".toList := by
  simp only [pinnedTags, List.mem_cons, List.not_mem_nil, or_false]
  rfl

theorem newline_notMem_port (port : UInt16) : '\n' ∉ (toString port).toList := by
  rw [show toString port = port.toNat.repr from rfl, Nat.toList_repr]
  intro h
  have hdigit := Nat.isDigit_of_mem_toDigits (by decide) (by decide) h
  revert hdigit
  decide

theorem pinnedTags_facts (ht : tag ∈ pinnedTags) :
    tag ≠ [] ∧ '\r' ∉ tag ∧ ' ' ∉ tag ∧ ∃ rest, tag = 'a' :: '=' :: rest := by
  rcases mem_pinnedTags.1 ht with rfl | rfl | rfl | rfl
  all_goals exact ⟨by simp, by simp, by simp, _, rfl⟩

/-- A line that begins as no tag does, and continues with the address. -/
theorem starts_foreign {before : List Char} (ht : tag ∈ pinnedTags)
    (hb : '\n' ∉ before) (hfirst : ∃ c rest, before = c :: rest ∧ c ≠ 'a') :
    starts tag (before ++ ip.toList) = inserted tag ip.toList := by
  obtain ⟨-, -, -, rest, rfl⟩ := pinnedTags_facts ht
  obtain ⟨c, before, rfl, hne⟩ := hfirst
  have hfresh : ∀ more, ('a' :: '=' :: rest).isPrefixOf (c :: before ++ more) = false := by
    intro more
    simp [List.isPrefixOf, hne.symm]
  have h : starts ('a' :: '=' :: rest) (c :: before ++ (ip.toList ++ [])) =
      false.toNat + inserted ('a' :: '=' :: rest) ip.toList :=
    starts_inserted hb hfresh (by simp) (by simp)
  simpa using h

/-- A line that begins with a tag, and has no other. -/
theorem starts_own {own rest : List Char} (ht : tag ∈ pinnedTags) (ho : own ∈ pinnedTags)
    (hn : '\n' ∉ rest) : starts tag (own ++ rest) = (decide (tag = own)).toNat := by
  have hown : '\n' ∉ own := by
    rcases mem_pinnedTags.1 ho with rfl | rfl | rfl | rfl
    all_goals decide
  rw [starts_line (by simp [hown, hn])]
  refine congrArg Bool.toNat ?_
  rcases mem_pinnedTags.1 ht with rfl | rfl | rfl | rfl
  all_goals
    rcases mem_pinnedTags.1 ho with rfl | rfl | rfl | rfl
    all_goals rfl

theorem starts_candidate (ht : tag ∈ pinnedTags) :
    starts tag (s!"a=candidate:1467250027 1 UDP 1467250027 {ip} {port} typ host").toList =
      (decide (tag = candidateTag)).toNat + inserted tag ip.toList := by
  have hp := newline_notMem_port port
  have hsplit : (s!"a=candidate:1467250027 1 UDP 1467250027 {ip} {port} typ host").toList =
      "a=candidate:1467250027 1 UDP 1467250027 ".toList ++ (ip.toList ++
        (' ' :: ((toString port).toList ++ " typ host".toList))) := by
    simp [toString]
  have hspace : ∀ c ∈ (' ' :: ((toString port).toList ++ " typ host".toList)).head?, c ∉ tag := by
    simpa using (pinnedTags_facts ht).2.2.1
  have hown : ∀ rest, tag.isPrefixOf
      ("a=candidate:1467250027 1 UDP 1467250027 ".toList ++ rest) =
        decide (tag = candidateTag) := by
    intro rest
    rcases mem_pinnedTags.1 ht with rfl | rfl | rfl | rfl
    all_goals rfl
  rw [hsplit]
  exact starts_inserted (by simp) hown (by simp [hp]) hspace

theorem tag_count (ht : tag ∈ pinnedTags) :
    (decide (tag = "a=ice-ufrag:".toList)).toNat + (decide (tag = "a=ice-pwd:".toList)).toNat +
      (decide (tag = "a=fingerprint:".toList)).toNat + (decide (tag = candidateTag)).toNat = 1 := by
  rcases mem_pinnedTags.1 ht with rfl | rfl | rfl | rfl
  all_goals rfl

/-- The lines of the answer without a parameter have no tag. -/
theorem starts_fixed (ht : tag ∈ pinnedTags) : ∀ line ∈ ["v=0", "s=-", "t=0 0", "a=ice-lite",
    "a=mid:0", "a=ice-options:ice2", "a=setup:passive", "a=sctp-port:5000",
    "a=max-message-size:5242880", "a=end-of-candidates"], starts tag line.toList = 0 := by
  rcases mem_pinnedTags.1 ht with rfl | rfl | rfl | rfl
  all_goals decide

/-- **The lines of the answer** that begin with a tag: its own, and those that the address
    brings at its three places. -/
theorem starts_serverAnswer (ht : tag ∈ pinnedTags) (hu : '\n' ∉ ufrag.toList)
    (hc : '\n' ∉ colon.toList) :
    starts tag (serverAnswer ip port ufrag colon).toList = 1 + 3 * inserted tag ip.toList := by
  have hp := newline_notMem_port port
  obtain ⟨hne, hr, -, -⟩ := pinnedTags_facts ht
  have hfixed := starts_fixed ht
  simp only [List.forall_mem_cons] at hfixed
  rw [serverAnswer, String.toList_ofList, starts_join hr hne]
  simp only [List.map_cons, List.map_nil, List.sum_cons, List.sum_nil, hfixed]
  generalize hv : (if ip.toList.contains ':' = true then "IP6" else "IP4") = v
  have hv : '\n' ∉ v.toList := by
    rw [← hv]
    split <;> decide
  have haddress : ∀ kind : String, '\n' ∉ kind.toList →
      (∃ c rest, kind.toList = c :: rest ∧ c ≠ 'a') →
      starts tag (toString kind ++ toString v ++ toString " " ++ toString ip).toList =
        inserted tag ip.toList := by
    rintro kind hk ⟨c, rest, hkind, hne⟩
    have h : starts tag (kind.toList ++ v.toList ++ [' '] ++ ip.toList) =
        inserted tag ip.toList :=
      starts_foreign ht (by simp [hk, hv]) ⟨c, rest ++ v.toList ++ [' '], by simp [hkind], hne⟩
    simpa [toString] using h
  rw [starts_candidate ht, haddress "o=- 0 0 IN " (by decide) ⟨'o', _, rfl, by decide⟩,
    haddress "c=IN " (by decide) ⟨'c', _, rfl, by decide⟩]
  have hmedia : starts tag (toString "m=application " ++ toString port ++
      toString " UDP/DTLS/SCTP webrtc-datachannel").toList = 0 := by
    have h : starts tag ("m=application ".toList ++ (toString port).toList ++
        " UDP/DTLS/SCTP webrtc-datachannel".toList ++ "".toList) = inserted tag "".toList :=
      starts_foreign ht (by simp [hp]) ⟨'m', _, rfl, by decide⟩
    simpa [toString] using h
  have hufrag : starts tag (toString "a=ice-ufrag:" ++ toString ufrag).toList =
      (decide (tag = "a=ice-ufrag:".toList)).toNat := by
    rw [String.toList_append]
    exact starts_own ht (mem_pinnedTags.2 (Or.inr (Or.inl rfl))) hu
  have hpwd : starts tag (toString "a=ice-pwd:" ++ toString ufrag).toList =
      (decide (tag = "a=ice-pwd:".toList)).toNat := by
    rw [String.toList_append]
    exact starts_own ht (mem_pinnedTags.2 (Or.inr (Or.inr (Or.inl rfl)))) hu
  have hfingerprint : starts tag (toString "a=fingerprint:sha-256 " ++ toString colon).toList =
      (decide (tag = "a=fingerprint:".toList)).toNat := by
    have hsplit : (toString "a=fingerprint:sha-256 " ++ toString colon).toList =
        "a=fingerprint:".toList ++ ("sha-256 ".toList ++ colon.toList) := by
      simp [toString]
    rw [hsplit]
    exact starts_own ht (mem_pinnedTags.2 (Or.inl rfl)) (by simp [hc])
  rw [hmedia, hufrag, hpwd, hfingerprint]
  linear_combination tag_count ht

end

/-! ## The fingerprint -/

/-- The byte of two hexadecimal digits. -/
def byteOfHex (pair : List Char) : Option UInt8 :=
  match ofHexChars pair with
  | some [x] => some x
  | _ => none

/-- The bytes of a fingerprint of the form `AA:BB:…`. -/
def ofColonForm (colon : List Char) : Option Bytes := (colon.splitOn ':').mapM byteOfHex

/-- The two digits of a byte in a fingerprint. -/
def colonPair (x : UInt8) : List Char :=
  [(hexDigit (x.toNat / 16)).toUpper, (hexDigit (x.toNat % 16)).toUpper]

theorem length_hexDigit : ∀ n < 16, (Postcard.utf8 (.ofList [hexDigit n])).length = 1 := by
  decide

theorem hexDigit_ascii : ∀ n < 16, (hexDigit n).toNat < 128 := by decide

theorem hexVal_toUpper : ∀ n < 16, hexVal (hexDigit n).toUpper = some n := by decide

theorem toUpper_ne : ∀ n < 16, (hexDigit n).toUpper ≠ ':' ∧ (hexDigit n).toUpper ≠ '\n' := by
  decide

/-- The two digits of a byte. -/
theorem digits_lt (x : UInt8) : x.toNat / 16 < 16 ∧ x.toNat % 16 < 16 := by
  have hx := x.toNat_lt
  omega

theorem mem_colonPair {x : UInt8} {c : Char} (h : c ∈ colonPair x) : c ≠ ':' ∧ c ≠ '\n' := by
  simp only [colonPair, List.mem_cons, List.not_mem_nil, or_false] at h
  rcases h with rfl | rfl
  · exact toUpper_ne _ (digits_lt x).1
  · exact toUpper_ne _ (digits_lt x).2

theorem utf8_append (s t : String) :
    Postcard.utf8 (s ++ t) = Postcard.utf8 s ++ Postcard.utf8 t := by
  simp [Postcard.utf8]

/-- The pieces of a hexadecimal text are its bytes. -/
theorem chunks_hexEncode (b : Bytes) : chunks 2 (Postcard.utf8 (hexEncode b)) =
    b.map fun x => Postcard.utf8 (.ofList [hexDigit (x.toNat / 16), hexDigit (x.toNat % 16)]) := by
  induction b with
  | nil => rw [chunks]; rfl
  | cons x b ih =>
    have h1 := length_hexDigit _ (digits_lt x).1
    have h2 := length_hexDigit _ (digits_lt x).2
    have hsplit : hexEncode (x :: b) =
        .ofList [hexDigit (x.toNat / 16)] ++ .ofList [hexDigit (x.toNat % 16)] ++ hexEncode b := by
      rw [hexEncode, hexEncode, ← String.ofList_append, ← String.ofList_append]
      rfl
    have hpair : String.ofList [hexDigit (x.toNat / 16), hexDigit (x.toNat % 16)] =
        .ofList [hexDigit (x.toNat / 16)] ++ .ofList [hexDigit (x.toNat % 16)] := by
      rw [← String.ofList_append]
      rfl
    rw [hsplit, utf8_append, List.map_cons, hpair, ← ih, chunks_append (by decide)]
    rw [utf8_append, List.length_append, h1, h2]

theorem fingerprintToColonForm_hexEncode (upper : Char → List Char) (b : Bytes) :
    (fingerprintToColonForm upper (hexEncode b)).toList = [':'].intercalate (b.map colonPair) := by
  rw [fingerprintToColonForm, String.toList_ofList, chunks_hexEncode, List.map_map]
  refine congrArg _ (List.map_congr_left fun x _ => ?_)
  have h1 := hexDigit_ascii _ (digits_lt x).1
  have h2 := hexDigit_ascii _ (digits_lt x).2
  rw [Function.comp_apply, Postcard.fromUTF8_utf8, Option.getD_some, toUppercase,
    String.toList_ofList]
  simp only [List.flatMap_cons, List.flatMap_nil, h1, h2, if_true]
  rfl

theorem byteOfHex_colonPair (x : UInt8) : byteOfHex (colonPair x) = some x := by
  have h1 := hexVal_toUpper _ (digits_lt x).1
  have h2 := hexVal_toUpper _ (digits_lt x).2
  have h16 : 16 * (x.toNat / 16) + x.toNat % 16 = x.toNat := Nat.div_add_mod _ _
  rw [byteOfHex, colonPair, ofHexChars, h1, h2]
  simp only [ofHexChars, Option.pure_def, Option.bind_eq_bind, Option.bind_some, h16,
    UInt8.ofNat_toNat]

/-- **The colon form denotes the bytes.** -/
theorem ofColonForm_intercalate {b : Bytes} (hb : b ≠ []) :
    ofColonForm ([':'].intercalate (b.map colonPair)) = some b := by
  have hsep : ∀ pair ∈ b.map colonPair, ':' ∉ pair :=
    List.forall_mem_map.2 fun x _ hx => (mem_colonPair hx).1 rfl
  rw [ofColonForm, List.splitOn_intercalate ':' hsep (by simpa using hb)]
  clear hb hsep
  induction b with
  | nil => rfl
  | cons x b ih =>
    rw [List.map_cons, List.mapM_cons, ih, byteOfHex_colonPair]
    rfl

theorem newline_notMem_colon (b : Bytes) : '\n' ∉ [':'].intercalate (b.map colonPair) := by
  have hpair : ∀ x, '\n' ∉ colonPair x := fun x hx => (mem_colonPair hx).2 rfl
  induction b with
  | nil => simp
  | cons x b ih =>
    cases b with
    | nil => simpa using hpair x
    | cons y b =>
      rw [List.map_cons, List.intercalate_cons_of_ne_nil (by simp), List.mem_append,
        List.mem_append, not_or, not_or]
      exact ⟨⟨hpair x, by simp⟩, ih⟩

/-! ## The pin -/

/-- The answer pins one certificate, and has one user name, password and candidate. -/
structure AnswerPins (answer : String) (certHash : Arr 32) : Prop where
  fingerprint : ∃ colon, tagged fingerprintTag answer.toList =
      ["a=fingerprint:sha-256 ".toList ++ colon] ∧ ofColonForm colon = some certHash.1
  ufrag : (tagged iceUfrag answer.toList).length = 1
  password : (tagged icePwd answer.toList).length = 1
  candidate : (tagged candidateTag answer.toList).length = 1

/-- No line of the address after the first begins with a tag of the pin. -/
def QuietAddress (ip : String) : Prop :=
  ∀ line ∈ (ip.toList.splitOn '\n').tail, ∀ tag ∈ pinnedTags, ¬ tag.isPrefixOf line

instance (ip : String) : Decidable (QuietAddress ip) :=
  inferInstanceAs (Decidable (∀ line ∈ (ip.toList.splitOn '\n').tail, ∀ tag ∈ pinnedTags,
    ¬ tag.isPrefixOf line))

theorem quietAddress_iff {ip : String} :
    QuietAddress ip ↔ ∀ tag ∈ pinnedTags, inserted tag ip.toList = 0 := by
  simp only [QuietAddress, inserted, List.countP_eq_zero]
  exact ⟨fun h tag ht line hl => h line hl tag ht, fun h line hl tag ht => h tag ht line hl⟩

section
variable {upper : Char → List Char} {ip ufrag : String} {port : UInt16}

/-- **The answer pins the certificate** just if the address is quiet. -/
theorem connectAnswer_pins (certHash : Arr 32) (hu : '\n' ∉ ufrag.toList) :
    AnswerPins (connectAnswer upper ip port (hexEncode certHash.1) ufrag) certHash ↔
      QuietAddress ip := by
  have hcolon := fingerprintToColonForm_hexEncode upper certHash.1
  have hc : '\n' ∉ (fingerprintToColonForm upper (hexEncode certHash.1)).toList :=
    hcolon ▸ newline_notMem_colon certHash.1
  have hne : certHash.1 ≠ [] := List.ne_nil_of_length_pos (by rw [certHash.2]; decide)
  have hlength : ∀ tag ∈ pinnedTags,
      (tagged tag (connectAnswer upper ip port (hexEncode certHash.1) ufrag).toList).length =
        1 + 3 * inserted tag ip.toList := by
    intro tag ht
    obtain ⟨htag, hr, -, -⟩ := pinnedTags_facts ht
    rw [length_tagged hr htag, connectAnswer, starts_serverAnswer ht hu hc]
  have hfingerprint : fingerprintTag ∈ pinnedTags := by simp [pinnedTags]
  have hufrag : iceUfrag ∈ pinnedTags := by simp [pinnedTags]
  have hpwd : icePwd ∈ pinnedTags := by simp [pinnedTags]
  have hcandidate : candidateTag ∈ pinnedTags := by simp [pinnedTags]
  rw [quietAddress_iff]
  constructor
  · rintro ⟨⟨colon, htagged, -⟩, h2, h3, h4⟩
    have h1 := congrArg List.length htagged
    rw [hlength _ hfingerprint, List.length_singleton] at h1
    rw [hlength _ hufrag] at h2
    rw [hlength _ hpwd] at h3
    rw [hlength _ hcandidate] at h4
    simp only [pinnedTags, List.forall_mem_cons]
    refine ⟨?_, ?_, ?_, ?_, by simp⟩
    all_goals omega
  · intro hquiet
    have hone : ∀ tag ∈ pinnedTags,
        (tagged tag (connectAnswer upper ip port (hexEncode certHash.1) ufrag).toList).length =
          1 := by
      intro tag ht
      rw [hlength tag ht, hquiet tag ht]
    refine ⟨⟨_, ?_, hcolon ▸ ofColonForm_intercalate hne⟩, hone _ hufrag, hone _ hpwd,
      hone _ hcandidate⟩
    -- the only such line is the answer's own
    obtain ⟨line, hline⟩ := List.length_eq_one_iff.1 (hone _ hfingerprint)
    have hmem : "a=fingerprint:sha-256 ".toList ++
        (fingerprintToColonForm upper (hexEncode certHash.1)).toList ∈ tagged fingerprintTag
          (connectAnswer upper ip port (hexEncode certHash.1) ufrag).toList := by
      refine List.mem_filter.2 ⟨?_, rfl⟩
      rw [connectAnswer, serverAnswer, String.toList_ofList]
      refine mem_split_join ?_ (by simp [hc]) (by simp)
      simp [toString]
    rw [hline, List.mem_singleton] at hmem
    rw [hline, hmem]

end

/-! ## Connecting -/

/-- A request that opens a transport opens one to the peer. -/
def NetReq.OpensTo (peer : PeerConnectInfo) : NetReq → Prop
  | .transportConnect ip port certHashHex =>
    ip = peer.ip ∧ port = peer.port ∧ certHashHex = hexEncode peer.certHash.1
  | _ => True

theorem NetReq.Greets.opensTo {peer : PeerConnectInfo} {e : NetReq} (h : e.Greets) :
    e.OpensTo peer := by
  cases e with
  | keygen | sendFrame | recvFrame => trivial
  | _ => cases h

section
variable {C : Crates} {peer : PeerConnectInfo} {I : Cells → Cells → Prop} {cells cells' : Cells}
  {tr : List (Ev Net)} {o : Option (Except String NodeConnection)}

theorem connectionFor_opensTo :
    (connectionFor C peer).Safe ⟨fun _ => True, NetReq.OpensTo peer, fun _ _ => True⟩
      fun _ => True := by
  intro cells _
  refine ⟨trivial, ?_⟩
  dsimp only
  split
  · trivial
  · refine Safe.bindE (Q := fun _ => True) ⟨⟨rfl, rfl, rfl⟩, fun t _ => ?_⟩
      (fun conn _ => fun _ _ => ⟨trivial, trivial⟩) fun _ _ => trivial
    cases t with
    | error e => trivial
    | ok t =>
      exact (establish_greets (E := fun _ => True) C (fun _ he => he.opensTo)
        fun _ _ _ => trivial).mono fun _ _ => trivial

/-- A connection for a peer is to the peer's address and certificate. -/
theorem connectionFor_transport (h : Run I (connectionFor C peer) cells tr o cells') :
    ∀ ev ∈ tr, ev.req.OpensTo peer :=
  (Safe.run (h.mono fun _ _ _ _ => trivial) connectionFor_opensTo trivial
    fun _ _ => trivial).2.1

/-- **The certificate pin** of a connection for a peer holds just if the peer's address is
    quiet. -/
theorem answer_pins_iff (upper : Char → List Char) {ufrag ip certHashHex : String} {port : UInt16}
    (h : Run I (connectionFor C peer) cells tr o cells')
    (hconnect : ∃ ev ∈ tr, ev.req = .transportConnect ip port certHashHex)
    (hu : ∀ c ∈ ufrag.toList, (hexVal c).isSome) :
    AnswerPins (connectAnswer upper ip port certHashHex ufrag) peer.certHash ↔
      QuietAddress peer.ip := by
  obtain ⟨ev, hev, hreq⟩ := hconnect
  have hpeer := connectionFor_transport h ev hev
  rw [hreq] at hpeer
  obtain ⟨rfl, rfl, rfl⟩ := hpeer
  refine connectAnswer_pins peer.certHash fun hn => ?_
  cases hu _ hn

end

/-- The run in which the peer cannot be reached. -/
theorem connectionFor_unreachable (peer : PeerConnectInfo) :
    Run Eq (connectionFor .transparent peer) .empty
      [⟨.transportConnect peer.ip peer.port (hexEncode peer.certHash.1),
        (Except.error "unreachable" : Except String ℕ)⟩] none .empty := by
  have hp : Cells.empty.pool[peer.peerId]? = none := by simp [Cells.empty]
  refine .sync ?_
  dsimp only [id]
  rw [hp]
  show Run Eq (.call (S := Net) (.transportConnect peer.ip peer.port _) _) _ _ _ _
  exact .call _ rfl .stop

theorem answer_pins_iff_v6 : AnswerPins (connectAnswer (fun c => [c]) "::1" 1
    (hexEncode (first32 []).1) "0a") (first32 []) :=
  (answer_pins_iff (fun c => [c]) (connectionFor_unreachable ⟨first32 [], "::1", 1, first32 []⟩)
    ⟨_, List.mem_singleton_self _, rfl⟩ (List.all_eq_true.1 rfl)).2 (by decide)

/-- A peer whose address brings a second fingerprint. -/
def forgingPeer : PeerConnectInfo :=
  ⟨first32 [], "1.2.3.4\r\na=fingerprint:sha-256 00", 1, first32 []⟩

/-- It is decoded from a discovery response, and connected to. -/
theorem answer_pins_forged :
    (∃ data, DiscoveryMessage.decode .transparent data =
      .ok ⟨0, .closestPeersResponse ⟨[forgingPeer]⟩⟩) ∧
    (∃ tr o cells', Run Eq (connectionFor .transparent forgingPeer) .empty tr o cells' ∧
      ∃ ev ∈ tr, ev.req = .transportConnect forgingPeer.ip forgingPeer.port
        (hexEncode forgingPeer.certHash.1)) ∧
    ¬ AnswerPins (connectAnswer (fun c => [c]) forgingPeer.ip forgingPeer.port
      (hexEncode forgingPeer.certHash.1) "0a") forgingPeer.certHash := by
  refine ⟨⟨_, DiscoveryMessage.decode_put _ (m := ⟨0, .closestPeersResponse ⟨[forgingPeer]⟩⟩) ?_⟩,
    ⟨_, _, _, connectionFor_unreachable _, _, List.mem_singleton_self _, rfl⟩, ?_⟩
  · refine ⟨by decide, fun p hp => ?_⟩
    rw [List.mem_singleton.1 hp]
    exact Nat.lt_of_le_of_lt (by decide : _ ≤ 100) (by decide)
  · rw [connectAnswer_pins _ (by decide)]
    decide

end AntClient
