/-
  Hexadecimal text: addresses, peer ids and transaction hashes as they come from
  JavaScript (`lib.rs`).
-/
import AntClient.Crates

namespace AntClient

/-! ## Strings -/

/-- Unicode `White_Space`, which `str::trim` removes. -/
def isWhiteSpace (c : Char) : Bool :=
  let n := c.toNat
  (0x09 ≤ n && n ≤ 0x0d) || n == 0x20 || n == 0x85 || n == 0xa0 || n == 0x1680 ||
    (0x2000 ≤ n && n ≤ 0x200a) || n == 0x2028 || n == 0x2029 || n == 0x202f || n == 0x205f ||
    n == 0x3000

/-- `str::trim`. -/
def trim (text : String) : String :=
  .ofList ((text.toList.dropWhile isWhiteSpace).reverse.dropWhile isWhiteSpace).reverse

/-- `text.strip_prefix("0x").unwrap_or(text)`. -/
def strip0x (text : String) : String :=
  match text.toList with
  | '0' :: 'x' :: cs => .ofList cs
  | _ => text

/-- `hex::encode`. -/
def hexEncode (b : Bytes) : String := .ofList (Bytes.toHexChars b)

/-- `0x`-prefixed lowercase hex of a byte slice. -/
def hex0x (b : Bytes) : String := .ofList ('0' :: 'x' :: Bytes.toHexChars b)

/-- `0x`-prefixed hex of a 20-byte address. -/
def toHex (addr : Arr 20) : String := hex0x addr.1

/-! ## Parsing -/

variable (C : Crates)

/-- `hex::decode`. -/
@[irreducible] def hexDecode (text : String) : Except String Bytes :=
  match Bytes.ofHexChars text.toList with
  | some b => .ok b
  | none => .error (C.hexError text)

/-- `hex::decode` and `try_into`, with the messages of the caller. -/
def parseHex (n : ℕ) (notHex badLength : String) (text : String) : Except String (Arr n) :=
  match hexDecode C text with
  | .error e => .error s!"{notHex}: {e}"
  | .ok bytes =>
    match Arr.ofBytes? n bytes with
    | some a => .ok a
    | none => .error badLength

def parseAddress (text : String) : Except String XorName :=
  parseHex C 32 "address is not hex" "address must be 64 hex characters" (trim text)

def parseEthAddress (text : String) : Except String (Arr 20) :=
  parseHex C 20 "address is not hex" "address must be 20 bytes (40 hex chars)"
    (strip0x (trim text))

def parseTxHash (text : String) : Except String (Arr 32) :=
  parseHex C 32 "tx hash is not hex" "tx hash must be 32 bytes (64 hex chars)"
    (strip0x (trim text))

def parseOptPeerId (text : String) : Except String (Option XorName) :=
  if text = "" then .ok none
  else (parseHex C 32 "peer_id_hex" "peer_id_hex must be 32 bytes" text).map some

theorem hexDecode_hexEncode (b : Bytes) : hexDecode C (hexEncode b) = .ok b := by
  simp [hexDecode, hexEncode, Bytes.ofHexChars_toHexChars]

theorem isWhiteSpace_hexDigit : ∀ n < 16, isWhiteSpace (Bytes.hexDigit n) = false := by decide

theorem isWhiteSpace_of_mem_toHexChars {b : Bytes} {c : Char} (h : c ∈ Bytes.toHexChars b) :
    isWhiteSpace c = false := by
  obtain ⟨x, -, hc⟩ := List.mem_flatMap.1 h
  have hx := x.toNat_lt
  simp only [List.mem_cons, List.not_mem_nil, or_false] at hc
  rcases hc with rfl | rfl
  · exact isWhiteSpace_hexDigit _ (by omega)
  · exact isWhiteSpace_hexDigit _ (by omega)

theorem dropWhile_of_none {α : Type} {p : α → Bool} {l : List α} (h : ∀ a ∈ l, p a = false) :
    l.dropWhile p = l := by
  cases l with
  | nil => rfl
  | cons a l => rw [List.dropWhile_cons, h a List.mem_cons_self, if_neg Bool.false_ne_true]

/-- Hexadecimal text has no white space to trim. -/
theorem trim_hexEncode (b : Bytes) : trim (hexEncode b) = hexEncode b := by
  have h : ∀ c ∈ Bytes.toHexChars b, isWhiteSpace c = false :=
    fun c => isWhiteSpace_of_mem_toHexChars
  rw [trim, hexEncode, String.toList_ofList, dropWhile_of_none h,
    dropWhile_of_none fun c hc => h c (List.mem_reverse.1 hc), List.reverse_reverse]

/-- An address is parsed back from its text. -/
theorem parseAddress_hexEncode (a : XorName) : parseAddress C (hexEncode a.1) = .ok a := by
  rw [parseAddress, parseHex, trim_hexEncode, hexDecode_hexEncode]
  simp only [Arr.ofBytes?_val]

/-- Bytes are parsed back from their prefixed text. -/
theorem parseHex_hex0x {n : ℕ} (notHex badLength : String) (a : Arr n) :
    parseHex C n notHex badLength (strip0x (trim (hex0x a.1))) = .ok a := by
  have hnone : ∀ c ∈ '0' :: 'x' :: Bytes.toHexChars a.1, isWhiteSpace c = false :=
    List.forall_mem_cons.2 ⟨by decide, List.forall_mem_cons.2
      ⟨by decide, fun c => isWhiteSpace_of_mem_toHexChars⟩⟩
  have htrim : trim (hex0x a.1) = hex0x a.1 := by
    rw [trim, hex0x, String.toList_ofList, dropWhile_of_none hnone,
      dropWhile_of_none fun c hc => hnone c (List.mem_reverse.1 hc), List.reverse_reverse]
  have hstrip : strip0x (hex0x a.1) = hexEncode a.1 := by
    rw [strip0x, hex0x, String.toList_ofList]
    rfl
  rw [parseHex, htrim, hstrip, hexDecode_hexEncode]
  simp only [Arr.ofBytes?_val]

theorem parseTxHash_hex0x (a : Arr 32) : parseTxHash C (hex0x a.1) = .ok a :=
  parseHex_hex0x C _ _ a

theorem parseEthAddress_toHex (a : Arr 20) : parseEthAddress C (toHex a) = .ok a :=
  parseHex_hex0x C _ _ a

end AntClient
