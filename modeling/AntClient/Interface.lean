/-
  The texts that go over the interface to JavaScript (`lib.rs`).

  Addresses, peer ids, contract addresses and transaction hashes are given and printed as
  hexadecimal text.  `parse_address` trims, the parsers for the wallet also take `0x`, and
  `parse_opt_peer_id` does neither.

  * `texts_accepted`: which texts each parser takes, that it takes what is printed, and that
    no message is sent for a text that is not taken.
-/
import AntClient.Statistics

namespace AntClient

open Async Prog Bytes

/-- A text in lowercase, with ASCII letters. -/
def lowercase (text : String) : String := .ofList (text.toList.map Char.toLower)

variable {C : Crates} {n : ℕ}

theorem lowercase_eq_hexEncode {text : String} {b : Bytes} :
    lowercase text = hexEncode b ↔ ofHexChars text.toList = some b := by
  rw [lowercase, hexEncode, String.ofList_inj, ofHexChars_eq_some]

theorem hexDecode_eq_ok {text : String} {b : Bytes} :
    hexDecode C text = .ok b ↔ lowercase text = hexEncode b := by
  rw [lowercase_eq_hexEncode, hexDecode]
  cases ofHexChars text.toList with
  | none => simp
  | some b' => simp

/-- The bytes of the texts that are taken, and those of another length. -/
theorem parseHex_eq {notHex badLength text : String} :
    (∀ a : Arr n, parseHex C n notHex badLength text = .ok a ↔ lowercase text = hexEncode a.1) ∧
      ∀ b : Bytes, lowercase text = hexEncode b → b.length ≠ n →
        parseHex C n notHex badLength text = .error badLength := by
  constructor
  · intro a
    unfold parseHex
    rw [← hexDecode_eq_ok (C := C)]
    cases hexDecode C text with
    | error e => simp
    | ok bytes =>
      cases ha : Arr.ofBytes? n bytes with
      | none =>
        have hne : bytes ≠ a.1 := by
          rintro rfl
          rw [Arr.ofBytes?_val] at ha
          cases ha
        simp [ha, hne]
      | some a' =>
        obtain rfl := Arr.ofBytes?_eq_some.1 ha
        simp [ha, Subtype.ext_iff]
  · intro b hb hn
    unfold parseHex
    rw [hexDecode_eq_ok.2 hb]
    have hnone : Arr.ofBytes? n b = none := dif_neg hn
    simp only [hnone]

/-- The text of a pinned peer id is neither trimmed nor stripped. -/
theorem parseOptPeerId_eq {text : String} (htext : text ≠ "") :
    parseOptPeerId C text =
      (parseHex C 32 "peer_id_hex" "peer_id_hex must be 32 bytes" text).map some := by
  rw [parseOptPeerId, if_neg htext]

theorem parseOptPeerId_ok {text : String} {a : XorName} :
    parseOptPeerId C text = .ok (some a) ↔ text ≠ "" ∧ lowercase text = hexEncode a.1 := by
  by_cases htext : text = ""
  · simp [parseOptPeerId, htext]
  · rw [parseOptPeerId_eq htext, ← (parseHex_eq (C := C)).1 a]
    cases parseHex C 32 "peer_id_hex" "peer_id_hex must be 32 bytes" text with
    | error e => simp [Except.map]
    | ok a' => simp [Except.map, htext]

/-! ## The texts of a call -/

/-- The parsers take the texts of a call. -/
def ClientCall.Readable : ClientCall → Prop
  | .download addressHex | .fetchChunk addressHex | .closestPeersJson addressHex =>
    ∃ a : XorName, lowercase (trim addressHex) = hexEncode a.1
  | .upload _ tokenAddrHex vaultAddrHex =>
    (∃ a : Arr 20, lowercase (strip0x (trim tokenAddrHex)) = hexEncode a.1) ∧
      ∃ a : Arr 20, lowercase (strip0x (trim vaultAddrHex)) = hexEncode a.1
  | .relayedFetch targetPeerIdHex _ addressHex =>
    (∃ a : XorName, lowercase (trim targetPeerIdHex) = hexEncode a.1) ∧
      ∃ a : XorName, lowercase (trim addressHex) = hexEncode a.1

/-- A text that is not taken ends what it is parsed for. -/
theorem bindE_parseHex {α : Type} (notHex badLength : String) {text : String}
    (htext : ¬∃ a : Arr n, lowercase text = hexEncode a.1)
    (g : Arr n → Prog Net Cells (Except String α)) :
    ∃ e, bindE (.ret (parseHex C n notHex badLength text)) g = .ret (.error e) := by
  cases h : parseHex C n notHex badLength text with
  | error e => exact ⟨e, ret_error_bindE e g⟩
  | ok a => exact absurd ⟨a, parseHex_eq.1 a |>.1 h⟩ htext

/-- A call with a text that is not taken neither sends nor changes anything. -/
theorem perform_unreadable {DataMap : Type} {S : SelfEncryption DataMap} {client : WasmClient}
    {call : ClientCall} (hcall : ¬call.Readable) : client.perform S C call = .ret () := by
  cases call with
  | download addressHex =>
    obtain ⟨e, he⟩ := bindE_parseHex _ _ hcall _
    exact congrArg (· >>= fun _ => .ret ()) he
  | fetchChunk addressHex =>
    obtain ⟨e, he⟩ := bindE_parseHex _ _ hcall _
    exact congrArg (· >>= fun _ => .ret ()) he
  | closestPeersJson addressHex =>
    obtain ⟨e, he⟩ := bindE_parseHex _ _ hcall _
    exact congrArg (· >>= fun _ => .ret ()) he
  | upload data tokenAddrHex vaultAddrHex =>
    by_cases htoken : ∃ a : Arr 20, lowercase (strip0x (trim tokenAddrHex)) = hexEncode a.1
    · obtain ⟨a, ha⟩ := htoken
      have htaken : parseEthAddress C tokenAddrHex = .ok a := parseHex_eq.1 a |>.2 ha
      obtain ⟨e, he⟩ := bindE_parseHex (C := C) "address is not hex"
        "address must be 20 bytes (40 hex chars)" (fun hvault => hcall ⟨⟨a, ha⟩, hvault⟩) _
      rw [WasmClient.perform, WasmClient.upload, htaken, ret_ok_bindE]
      exact congrArg (· >>= fun _ => .ret ()) he
    · obtain ⟨e, he⟩ := bindE_parseHex _ _ htoken _
      exact congrArg (· >>= fun _ => .ret ()) he
  | relayedFetch targetPeerIdHex stunAddr addressHex =>
    by_cases htarget : ∃ a : XorName, lowercase (trim targetPeerIdHex) = hexEncode a.1
    · obtain ⟨a, ha⟩ := htarget
      have htaken : parseAddress C targetPeerIdHex = .ok a := parseHex_eq.1 a |>.2 ha
      obtain ⟨e, he⟩ := bindE_parseHex _ _ (fun haddress => hcall ⟨⟨a, ha⟩, haddress⟩) _
      rw [WasmClient.perform, WasmClient.relayedFetch, htaken, ret_ok_bindE]
      exact congrArg (· >>= fun _ => .ret ()) he
    · obtain ⟨e, he⟩ := bindE_parseHex _ _ htarget _
      exact congrArg (· >>= fun _ => .ret ()) he

/-- A client does not connect with a peer id that is not taken. -/
theorem connect_unreadable {σ : Type} {peerIdHex : String} (ip : String) (port : UInt16)
    (certHashHex : String) (hne : peerIdHex ≠ "")
    (hid : ¬∃ a : XorName, lowercase peerIdHex = hexEncode a.1) :
    ∃ e, WasmClient.connect C (σ := σ) ip port certHashHex peerIdHex = .ret (.error e) := by
  cases h : parseOptPeerId C peerIdHex with
  | error e => exact ⟨e, by rw [WasmClient.connect, h, ret_error_bindE]⟩
  | ok o =>
    cases o with
    | none =>
      rw [parseOptPeerId_eq hne] at h
      cases hparse : parseHex C 32 "peer_id_hex" "peer_id_hex must be 32 bytes" peerIdHex with
      | error e =>
        rw [hparse] at h
        cases h
      | ok a =>
        rw [hparse] at h
        cases h
    | some a => exact absurd ⟨a, (parseOptPeerId_ok.1 h).2⟩ hid

/-- **The texts of the interface**: each parser takes the digits of its bytes in either case, up to
    the white space and the prefix that it strips, and says of the digits of more or fewer bytes
    how many it takes; what the client prints is taken and means what was printed; and a call with
    a text that is not taken neither sends nor changes anything, nor does a client connect. -/
theorem texts_accepted {DataMap : Type} (S : SelfEncryption DataMap) (C : Crates)
    (client : WasmClient) :
    (∀ text, (∀ a, parseAddress C text = .ok a ↔ lowercase (trim text) = hexEncode a.1) ∧
      (∀ a, parseEthAddress C text = .ok a ↔ lowercase (strip0x (trim text)) = hexEncode a.1) ∧
      (∀ a, parseTxHash C text = .ok a ↔ lowercase (strip0x (trim text)) = hexEncode a.1) ∧
      (parseOptPeerId C text = .ok none ↔ text = "") ∧
      ∀ a, parseOptPeerId C text = .ok (some a) ↔ text ≠ "" ∧ lowercase text = hexEncode a.1) ∧
    (∀ text b, (b.length ≠ 32 → lowercase (trim text) = hexEncode b →
        parseAddress C text = .error "address must be 64 hex characters") ∧
      (b.length ≠ 20 → lowercase (strip0x (trim text)) = hexEncode b →
        parseEthAddress C text = .error "address must be 20 bytes (40 hex chars)") ∧
      (b.length ≠ 32 → lowercase (strip0x (trim text)) = hexEncode b →
        parseTxHash C text = .error "tx hash must be 32 bytes (64 hex chars)") ∧
      (b.length ≠ 32 → text ≠ "" → lowercase text = hexEncode b →
        parseOptPeerId C text = .error "peer_id_hex must be 32 bytes")) ∧
    (∀ a, parseAddress C (hexEncode a.1) = .ok a) ∧
    (∀ a, parseEthAddress C (toHex a) = .ok a) ∧
    (∀ a, parseTxHash C (hex0x a.1) = .ok a) ∧
    parseOptPeerId C client.peerId = .ok (some client.bootstrap.peerId) ∧
    (∀ call, ¬call.Readable → client.perform S C call = .ret ()) ∧
    ∀ ip port certHashHex peerIdHex, peerIdHex ≠ "" →
      (¬∃ a : XorName, lowercase peerIdHex = hexEncode a.1) →
      ∃ e, WasmClient.connect C (σ := Cells) ip port certHashHex peerIdHex = .ret (.error e) := by
  have hpeer : parseOptPeerId C client.peerId = .ok (some client.bootstrap.peerId) := by
    have hdigits : lowercase client.peerId = hexEncode client.bootstrap.peerId.1 := by
      refine lowercase_eq_hexEncode.2 ?_
      rw [WasmClient.peerId, hexEncode, String.toList_ofList, ofHexChars_toHexChars]
    refine parseOptPeerId_ok.2 ⟨fun hempty => ?_, hdigits⟩
    rw [hempty] at hdigits
    have hnil : ([] : Bytes) = client.bootstrap.peerId.1 :=
      Option.some.inj (lowercase_eq_hexEncode.1 hdigits)
    have h32 := client.bootstrap.peerId.2
    rw [← hnil] at h32
    cases h32
  refine ⟨fun text => ⟨fun a => parseHex_eq.1 a, fun a => parseHex_eq.1 a,
      fun a => parseHex_eq.1 a, ?_, fun a => parseOptPeerId_ok⟩,
    fun text b => ⟨fun hn hb => parseHex_eq.2 b hb hn, fun hn hb => parseHex_eq.2 b hb hn,
      fun hn hb => parseHex_eq.2 b hb hn, fun hn htext hb => ?_⟩,
    parseAddress_hexEncode C, parseEthAddress_toHex C, parseTxHash_hex0x C, hpeer,
    fun call hcall => perform_unreadable hcall, fun ip port certHashHex peerIdHex =>
      connect_unreadable ip port certHashHex⟩
  · by_cases htext : text = ""
    · simp [parseOptPeerId, htext]
    · rw [parseOptPeerId_eq htext]
      cases parseHex C 32 "peer_id_hex" "peer_id_hex must be 32 bytes" text with
      | error e => simp [Except.map, htext]
      | ok a => simp [Except.map, htext]
  · rw [parseOptPeerId_eq htext, parseHex_eq.2 b hb hn]
    rfl

end AntClient
