/-
  The peer list for JavaScript (`closest_peers_json`).

  The list is formatted by hand, and the address of a peer goes into it as it is.

  * `parse_peersJson`: the list denotes the peers just if their addresses are plain.
  * `closestPeersJson_faithful_iff`: the same of what the client returns.
-/
import AntClient.Store
import AntClient.Lib.Json

namespace AntClient

open Async Prog Json

/-- The text of a peer list. -/
def peersJson (peers : List PeerConnectInfo) : String :=
  "[" ++ ",".intercalate (peers.map PeerConnectInfo.json) ++ "]"

/-- The object that is to stand for a peer. -/
def PeerConnectInfo.toJson (p : PeerConnectInfo) : Json :=
  .obj [("peer_id", .str (hexEncode p.peerId.1)), ("ip", .str p.ip), ("port", .num p.port.toNat),
    ("cert_hash", .str (hexEncode p.certHash.1))]

/-! ## One peer -/

theorem plain_hexDigit : ∀ n < 16, Plain (Bytes.hexDigit n) := by decide

theorem plain_hexEncode (b : Bytes) : ∀ c ∈ (hexEncode b).toList, Plain c := by
  intro c hc
  rw [hexEncode, String.toList_ofList] at hc
  obtain ⟨x, -, hc⟩ := List.mem_flatMap.1 hc
  have hx := x.toNat_lt
  simp only [List.mem_cons, List.not_mem_nil, or_false] at hc
  rcases hc with rfl | rfl
  · exact plain_hexDigit _ (by omega)
  · exact plain_hexDigit _ (by omega)

/-- What follows the address in the text of a peer. -/
def afterIp (port certHash : String) (post : List Char) : List Char :=
  "port".toList ++ '"' :: ':' :: (port.toList ++ ',' :: '"' :: ("cert_hash".toList ++
    '"' :: ':' :: '"' :: (certHash.toList ++ '"' :: '\x7d' :: post)))

/-- What follows its opening brace. -/
def afterBrace (peerId ip port certHash : String) (post : List Char) : List Char :=
  '"' :: ("peer_id".toList ++ '"' :: ':' :: '"' :: (peerId.toList ++ '"' :: ',' :: '"' ::
    ("ip".toList ++ '"' :: ':' :: '"' :: (ip.toList ++
      '"' :: ',' :: '"' :: afterIp port certHash post))))

theorem toList_format (peerId ip port certHash : String) (post : List Char) :
    ("\x7b\"peer_id\":\"" ++ peerId ++ "\",\"ip\":\"" ++ ip ++ "\",\"port\":" ++ port ++
      ",\"cert_hash\":\"" ++ certHash ++ "\"\x7d").toList ++ post =
      '\x7b' :: afterBrace peerId ip port certHash post := by
  simp [afterBrace, afterIp]

theorem toList_json (p : PeerConnectInfo) (post : List Char) : p.json.toList ++ post =
    '\x7b' :: afterBrace (hexEncode p.peerId.1) p.ip (toString p.port) (hexEncode p.certHash.1)
      post :=
  toList_format _ _ _ _ _

section
variable {inner : List Char → Option (Json × List Char)} {peerId ip certHash : String}
  {port : UInt16} {post rest : List Char} {k n : ℕ}

theorem value_port : value (n + 1) ((toString port).toList ++ ',' :: rest) =
    some (.num port.toNat, ',' :: rest) := by
  rw [show (toString port).toList = Nat.toDigits 10 port.toNat from Nat.toList_repr]
  exact value_toDigits (by decide)

/-- A plain peer is read back. -/
theorem items_afterBrace (hid : ∀ c ∈ peerId.toList, Plain c) (hip : ∀ c ∈ ip.toList, Plain c)
    (hhash : ∀ c ∈ certHash.toList, Plain c) :
    items '\x7d' (member (value (n + 1))) (k + 4)
        (afterBrace peerId ip (toString port) certHash post) =
      some ([("peer_id", .str peerId), ("ip", .str ip), ("port", .num port.toNat),
        ("cert_hash", .str certHash)], post) := by
  have hstring : ∀ {name s : String} {cs : List Char}, (∀ c ∈ name.toList, Plain c) →
      (∀ c ∈ s.toList, Plain c) → member (value (n + 1)) ('"' :: (name.toList ++
        '"' :: ':' :: '"' :: (s.toList ++ '"' :: cs))) = some ((name, .str s), cs) := by
    intro name s cs hname hs
    rw [member_quoted hname, value_quoted hs]
    rfl
  have hport : ∀ cs, member (value (n + 1)) ('"' :: ("port".toList ++
      '"' :: ':' :: ((toString port).toList ++ ',' :: cs))) =
        some (("port", .num port.toNat), ',' :: cs) := by
    intro cs
    rw [member_quoted (plain_of_all rfl), value_port]
    rfl
  have hbrace : '\x7d' ≠ ',' := by decide
  refine (items_eq_cons hbrace).2 ⟨_, _, rfl, hstring (plain_of_all rfl) hid, Or.inl ⟨_, rfl, ?_⟩⟩
  refine (items_eq_cons hbrace).2 ⟨_, _, rfl, hstring (plain_of_all rfl) hip, Or.inl ⟨_, rfl, ?_⟩⟩
  refine (items_eq_cons hbrace).2 ⟨_, _, rfl, hport _, Or.inl ⟨_, rfl, ?_⟩⟩
  exact (items_eq_cons hbrace).2 ⟨_, _, rfl, hstring (plain_of_all rfl) hhash, Or.inr ⟨rfl, rfl⟩⟩

/-- **An address that is read back** as it is must be plain: the text after it goes on at a
    name that no comma precedes if the address takes the closing quote. -/
theorem plain_of_items {v : Json} {members : List (String × Json)}
    (hid : ∀ c ∈ peerId.toList, Plain c) (h : items '\x7d' (member (value n)) k
      (afterBrace peerId ip (toString port) certHash post) =
        some (("peer_id", v) :: ("ip", .str ip) :: members, rest)) :
    ∀ c ∈ ip.toList, Plain c := by
  have hbrace : '\x7d' ≠ ',' := by decide
  obtain ⟨_, cs, -, hfirst, h⟩ := (items_eq_cons hbrace).1 h
  rw [afterBrace, member_quoted (plain_of_all rfl)] at hfirst
  cases n with
  | zero => cases hfirst
  | succ n =>
    rw [value_quoted hid] at hfirst
    cases hfirst
    rcases h with ⟨_, hskip, h⟩ | ⟨hskip, -⟩
    · cases hskip
      obtain ⟨_, cs, -, hsecond, h⟩ := (items_eq_cons hbrace).1 h
      rw [member_quoted (plain_of_all rfl)] at hsecond
      obtain ⟨⟨_, cs'⟩, hvalue, hv⟩ := Option.map_eq_some_iff.1 hsecond
      cases hv
      obtain ⟨⟨s, cs''⟩, hs, hv'⟩ := Option.map_eq_some_iff.1 hvalue
      cases hv'
      rcases string_own (by decide) hs with hplain | rfl
      · exact hplain
      · rcases h with ⟨_, hskip, -⟩ | ⟨hskip, -⟩
        · cases hskip
        · cases hskip
    · cases hskip

/-- The object at an opening brace. -/
theorem value_afterBrace (X : List Char)
    (hX : X = afterBrace peerId ip (toString port) certHash post) :
    value (n + 1) ('\x7b' :: X) =
      (items '\x7d' (member (value n)) X.length X).map fun r => (.obj r.1, r.2) := by
  subst hX
  rfl

theorem value_json {p : PeerConnectInfo} (h : ∀ c ∈ p.ip.toList, Plain c) :
    value (n + 2) (p.json.toList ++ post) = some (p.toJson, post) := by
  rw [toList_json, value_afterBrace _ rfl]
  generalize hX : afterBrace _ _ _ _ _ = X
  obtain ⟨k, hk⟩ : ∃ k, X.length = k + 4 := by
    refine ⟨X.length - 4, ?_⟩
    rw [← hX, afterBrace]
    simp
  rw [hk, ← hX, items_afterBrace (plain_hexEncode _) h (plain_hexEncode _)]
  rfl

/-- **A peer is read back** only if its address is plain. -/
theorem plain_of_value {p : PeerConnectInfo}
    (h : value n (p.json.toList ++ post) = some (p.toJson, rest)) :
    (∀ c ∈ p.ip.toList, Plain c) ∧ rest = post := by
  have hplain : ∀ c ∈ p.ip.toList, Plain c := by
    cases n with
    | zero => cases h
    | succ n =>
      rw [toList_json, value_afterBrace _ rfl] at h
      obtain ⟨⟨members, rest'⟩, hitems, hv⟩ := Option.map_eq_some_iff.1 h
      cases hv
      exact plain_of_items (plain_hexEncode _) hitems
  have hread : value 2 (p.json.toList ++ post) = some (p.toJson, post) := value_json hplain
  exact ⟨hplain, congrArg Prod.snd (value_unique h hread)⟩

end

/-! ## The list -/

section
variable {peers : List PeerConnectInfo} {p : PeerConnectInfo} {rest : List Char} {k n : ℕ}

/-- What follows the opening bracket. -/
def afterBracket : List PeerConnectInfo → List Char
  | [] => [']']
  | [p] => p.json.toList ++ [']']
  | p :: q :: peers => p.json.toList ++ ',' :: afterBracket (q :: peers)

theorem toList_peersJson : (peersJson peers).toList = '[' :: afterBracket peers := by
  have hlist : [','].intercalate (peers.map fun p => p.json.toList) ++ [']'] =
      afterBracket peers := by
    induction peers using afterBracket.induct with
    | case1 => rfl
    | case2 p => simp [afterBracket]
    | case3 p q peers ih =>
      rw [afterBracket, ← ih, List.map_cons, List.map_cons, List.intercalate_cons_cons]
      simp
  rw [peersJson, String.toList_append, String.toList_append, String.toList_intercalate,
    List.map_map, ← hlist]
  rfl

theorem items_afterBracket (h : ∀ p ∈ peers, ∀ c ∈ p.ip.toList, Plain c) (hne : peers ≠ []) :
    items ']' (value 2) (peers.length + k) (afterBracket peers) =
      some (peers.map PeerConnectInfo.toJson, []) := by
  have hbracket : ']' ≠ ',' := by decide
  induction peers using afterBracket.induct with
  | case1 => exact absurd rfl hne
  | case2 p =>
    have hp := (List.forall_mem_cons.1 h).1
    exact (items_eq_cons hbracket).2 ⟨k, [']'], Nat.add_comm _ _, value_json hp,
      Or.inr ⟨rfl, rfl⟩⟩
  | case3 p q peers ih =>
    obtain ⟨hp, h⟩ := List.forall_mem_cons.1 h
    exact (items_eq_cons hbracket).2 ⟨_, _, Nat.add_right_comm _ _ _, value_json hp,
      Or.inl ⟨_, rfl, ih h (by simp)⟩⟩

theorem plain_of_items_afterBracket
    (h : items ']' (value n) k (afterBracket peers) =
      some (peers.map PeerConnectInfo.toJson, rest)) :
    ∀ p ∈ peers, ∀ c ∈ p.ip.toList, Plain c := by
  have hbracket : ']' ≠ ',' := by decide
  induction peers using afterBracket.induct generalizing k with
  | case1 => simp
  | case2 p =>
    obtain ⟨_, _, -, hfirst, -⟩ := (items_eq_cons hbracket).1 h
    exact List.forall_mem_singleton.2 (plain_of_value hfirst).1
  | case3 p q peers ih =>
    obtain ⟨_, _, -, hfirst, h⟩ := (items_eq_cons hbracket).1 h
    obtain ⟨hp, rfl⟩ := plain_of_value hfirst
    refine List.forall_mem_cons.2 ⟨hp, ?_⟩
    rcases h with ⟨_, hskip, h⟩ | ⟨-, hlist⟩
    · cases hskip
      exact ih h
    · cases hlist

/-- The array at an opening bracket. -/
theorem value_afterBracket : value (n + 1) ('[' :: afterBracket (p :: peers)) =
    (items ']' (value n) (afterBracket (p :: peers)).length (afterBracket (p :: peers))).map
      fun r => (.arr r.1, r.2) := by
  obtain ⟨X, hX⟩ : ∃ X, afterBracket (p :: peers) = '\x7b' :: X := by
    cases peers with
    | nil => exact ⟨_, toList_json p [']']⟩
    | cons q peers => exact ⟨_, toList_json p _⟩
  rw [hX]
  rfl

theorem length_afterBracket (peers : List PeerConnectInfo) :
    peers.length ≤ (afterBracket peers).length := by
  induction peers using afterBracket.induct with
  | case1 => simp
  | case2 p => simp [afterBracket]
  | case3 p q peers ih =>
    simp only [afterBracket, List.length_append, List.length_cons] at ih ⊢
    omega

/-- **What a peer list denotes**: the peers, just if their addresses are plain. -/
theorem parse_peersJson (peers : List PeerConnectInfo) :
    parse (peersJson peers) = some (.arr (peers.map PeerConnectInfo.toJson)) ↔
      ∀ p ∈ peers, ∀ c ∈ p.ip.toList, Plain c := by
  rw [parse_eq_some, toList_peersJson]
  cases peers with
  | nil => exact ⟨by simp, fun _ => ⟨1, [], rfl, rfl⟩⟩
  | cons p peers =>
    constructor
    · rintro ⟨n, rest, h, -⟩
      cases n with
      | zero => cases h
      | succ n =>
        rw [value_afterBracket] at h
        obtain ⟨⟨vs, rest'⟩, hitems, hv⟩ := Option.map_eq_some_iff.1 h
        cases hv
        exact plain_of_items_afterBracket hitems
    · intro h
      obtain ⟨k, hk⟩ := Nat.exists_eq_add_of_le (length_afterBracket (p :: peers))
      refine ⟨3, [], ?_, rfl⟩
      rw [value_afterBracket, hk, items_afterBracket h (by simp)]
      rfl

end

/-! ## The client -/

section
variable {C : Crates} {self : WasmClient} {addressHex text : String} {I : Cells → Cells → Prop}
  {cells cells' : Cells} {tr : List (Ev Net)}

theorem peersResult_ok {answer : Except String Bytes} {peers : List PeerConnectInfo}
    (h : peersResult C answer = .ok peers) : ∃ plaintext requestId, answer = .ok plaintext ∧
      DiscoveryMessage.decode C plaintext = .ok ⟨requestId, .closestPeersResponse ⟨peers⟩⟩ := by
  obtain ⟨plaintext, rfl, hresponse⟩ := bind_eq_ok.1 h
  obtain ⟨⟨requestId, body⟩, hdecode, hpeers⟩ := bind_eq_ok.1 hresponse
  refine ⟨plaintext, requestId, rfl, ?_⟩
  rw [hdecode]
  cases body with
  | closestPeersRequest r => cases hpeers
  | closestPeersResponse r =>
    cases hpeers
    rfl
  | error e => cases hpeers

/-- **The list that the client returns** denotes the peers of the response just if their
    addresses are plain. -/
theorem closestPeersJson_faithful_iff
    (h : Run I (self.closestPeersJson C addressHex) cells tr (some (.ok text)) cells') :
    ∃ seq request plaintext requestId peers, tr = [⟨.nextSeq self.bootstrap, seq⟩,
      ⟨.roundTrip self.bootstrap protoDiscovery request, .ok plaintext⟩] ∧
    DiscoveryMessage.decode C plaintext = .ok ⟨requestId, .closestPeersResponse ⟨peers⟩⟩ ∧
    (parse text = some (.arr (peers.map PeerConnectInfo.toJson)) ↔
      ∀ p ∈ peers, ∀ c ∈ p.ip.toList, Plain c) := by
  obtain ⟨address, _, _, _, rfl, haddress, hclosest⟩ := h.bindE_ok
  obtain ⟨-, rfl, rfl⟩ := Run.ret_some haddress
  rw [closestPeers_eq] at hclosest
  obtain ⟨peers, _, _, _, rfl, hpeers, htext⟩ := hclosest.bindE_ok
  obtain ⟨seq, _, _, -, rfl, hanswer⟩ := Run.call_some.1 hpeers
  obtain ⟨answer, _, _, -, rfl, hret⟩ := Run.call_some.1 hanswer
  obtain ⟨hresult, rfl, rfl⟩ := Run.ret_some hret
  obtain ⟨hjson, rfl, rfl⟩ := Run.ret_some htext
  obtain ⟨plaintext, requestId, rfl, hdecode⟩ := peersResult_ok hresult.symm
  cases hjson
  exact ⟨seq, _, plaintext, requestId, peers, rfl, hdecode, parse_peersJson peers⟩

end

/-- The response that names one peer. -/
def oneResponse (p : PeerConnectInfo) : DiscoveryMessage := ⟨1, .closestPeersResponse ⟨[p]⟩⟩

theorem decode_oneResponse {p : PeerConnectInfo} (h : Sized (Postcard.utf8 p.ip)) :
    DiscoveryMessage.decode .transparent (oneResponse p).put = .ok (oneResponse p) :=
  DiscoveryMessage.decode_put _ ⟨by simp, fun _ hq => List.mem_singleton.1 hq ▸ h⟩

/-- The events of asking for it. -/
def oneEvents (self : WasmClient) (p : PeerConnectInfo) : List (Ev Net) :=
  [⟨.nextSeq self.bootstrap, (1 : UInt32)⟩, ⟨.roundTrip self.bootstrap protoDiscovery
    (DiscoveryMessage.put ⟨1, .closestPeersRequest ⟨first32 []⟩⟩), .ok (oneResponse p).put⟩]

theorem closestPeersJson_one (self : WasmClient) {p : PeerConnectInfo}
    (h : Sized (Postcard.utf8 p.ip)) :
    Run Eq (self.closestPeersJson .transparent (hexEncode (first32 []).1)) .empty
      (oneEvents self p) (some (.ok (peersJson [p]))) .empty := by
  have hpeers : peersResult .transparent (.ok (oneResponse p).put) = .ok [p] := by
    show (DiscoveryMessage.decode _ _ >>= _) = _
    rw [decode_oneResponse h]
    rfl
  have hclosest : Run Eq (self.bootstrap.closestPeers .transparent (first32 [])) Cells.empty
      (oneEvents self p) (some (.ok [p])) .empty := by
    rw [closestPeers_eq]
    refine .call _ rfl (.call _ rfl ?_)
    rw [hpeers]
    exact .ret
  rw [WasmClient.closestPeersJson, parseAddress_hexEncode]
  exact hclosest.seqE .ret

/-- A client, and a peer with a plain address. -/
def lister : WasmClient := ⟨⟨0, ⟨first32 []⟩, first32 []⟩⟩
def plainPeer : PeerConnectInfo := ⟨first32 [], "::1", 1, first32 []⟩

theorem closestPeersJson_faithful_plainPeer :
    parse (peersJson [plainPeer]) = some (.arr ([plainPeer].map PeerConnectInfo.toJson)) := by
  have hip : (Postcard.utf8 plainPeer.ip).length < 2 ^ 32 := by decide
  obtain ⟨_, _, plaintext, _, peers, htr, hdecode, hiff⟩ :=
    closestPeersJson_faithful_iff (closestPeersJson_one lister hip)
  obtain rfl : (oneResponse plainPeer).put = plaintext := by
    simp only [oneEvents, List.cons.injEq, Ev.mk.injEq] at htr
    simpa using htr.2.1.2
  rw [decode_oneResponse hip] at hdecode
  cases hdecode
  exact hiff.2 (List.forall_mem_singleton.2 (plain_of_all rfl))

/-- A peer whose address ends the string that it is put into. -/
def quotingPeer : PeerConnectInfo := ⟨first32 [], "\"", 1, first32 []⟩

theorem closestPeersJson_unfaithful :
    DiscoveryMessage.decode .transparent (oneResponse quotingPeer).put =
      .ok (oneResponse quotingPeer) ∧
    Run Eq (lister.closestPeersJson .transparent (hexEncode (first32 []).1)) .empty
      (oneEvents lister quotingPeer) (some (.ok (peersJson [quotingPeer]))) .empty ∧
    parse (peersJson [quotingPeer]) ≠
      some (.arr ([quotingPeer].map PeerConnectInfo.toJson)) := by
  have hip : (Postcard.utf8 quotingPeer.ip).length < 2 ^ 32 := by decide
  refine ⟨decode_oneResponse hip, closestPeersJson_one _ hip, ?_⟩
  rw [Ne, parse_peersJson, List.forall_mem_singleton]
  intro hplain
  exact (hplain '"' (List.mem_singleton_self _)).1 rfl

end AntClient
