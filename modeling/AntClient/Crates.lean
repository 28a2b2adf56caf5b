/-
  The third-party crates of the client.

  Primitives whose code is not part of the repository are the fields of
  `Crates`; a development over `C : Crates` holds for every such primitive, and
  what is assumed of one (no collisions, an ideal cipher) is a hypothesis of the
  theorem that needs it.  The text of an error a crate reports is a field too.
-/
import AntClient.Lib.Bytes

namespace AntClient

/-- A `[u8; 32]`: a content address, a peer id or a hash. -/
abbrev XorName := Arr 32

instance : LawfulBEq XorName := inferInstance

/-! ## Sizes of the post-quantum primitives -/

/-- ML-KEM-768 encapsulation key size. -/
def mlKem768EkSize : ℕ := 1184
/-- ML-KEM-768 ciphertext size. -/
def mlKem768CtSize : ℕ := 1088
/-- ML-KEM-768 decapsulation key size. -/
def mlKem768DkSize : ℕ := 2400
/-- ML-DSA-65 public key size. -/
def mlDsa65PkSize : ℕ := 1952
/-- ML-DSA-65 signature size. -/
def mlDsa65SigSize : ℕ := 3309

structure Crates where
  /-- `blake3::hash` -/
  blake3 : Bytes → Arr 32
  /-- `blake3::derive_key(context, material)` -/
  deriveKey : String → Bytes → Arr 32
  /-- legacy Keccak-256 -/
  keccak256 : Bytes → Arr 32
  /-- `ml_dsa_65::PublicKey::try_from_bytes` succeeds -/
  mlDsaKey : Arr mlDsa65PkSize → Bool
  /-- `PublicKey::verify(message, signature, context)` -/
  mlDsaVerify : Arr mlDsa65PkSize → Bytes → Arr mlDsa65SigSize → Bytes → Bool
  /-- `ml_kem_768::CipherText::try_from_bytes` succeeds -/
  mlKemCipherText : Arr mlKem768CtSize → Bool
  /-- `DecapsKey::try_decaps`, as bytes -/
  mlKemDecaps : Arr mlKem768DkSize → Arr mlKem768CtSize → Option (Arr 32)
  /-- ChaCha20-Poly1305 `encrypt` under a key and a nonce -/
  encrypt : Arr 32 → Arr 12 → Bytes → Option Bytes
  /-- ChaCha20-Poly1305 `decrypt` under a key and a nonce -/
  decrypt : Arr 32 → Arr 12 → Bytes → Option Bytes
  /-- what `postcard` says of bytes it rejects -/
  postcardError : Bytes → String
  /-- what `rmp_serde` says of bytes it rejects -/
  rmpError : Bytes → String
  /-- what `hex` says of text it rejects -/
  hexError : String → String

/-! ## An instance -/

/-- The first 32 bytes, padded with zeros. -/
def first32 (b : Bytes) : Arr 32 := ⟨(b ++ List.replicate 32 0).take 32, by simp⟩

theorem first32_append {b c : Bytes} (h : 32 ≤ b.length) : first32 (b ++ c) = first32 b := by
  apply Subtype.ext
  simp only [first32]
  rw [List.append_assoc, List.take_append_of_le_length h, List.take_append_of_le_length h]

@[simp] theorem first32_val (a : Arr 32) : first32 a.1 = a :=
  Subtype.ext (List.take_left' a.2)

/-- Primitives to evaluate the model on: a hash is the first 32 bytes, every
    signature verifies, and a ciphertext is its nonce, four bytes and the
    plaintext. -/
def Crates.transparent : Crates where
  blake3 := first32
  deriveKey _ := first32
  keccak256 := first32
  mlDsaKey _ := true
  mlDsaVerify _ _ _ _ := true
  mlKemCipherText _ := true
  mlKemDecaps _ ct := some (first32 ct.1)
  encrypt _ nonce p := some (nonce.1 ++ ([0, 0, 0, 0] ++ p))
  decrypt _ nonce c :=
    if c.take 16 = nonce.1 ++ [0, 0, 0, 0] then some (c.drop 16) else none
  postcardError _ := ""
  rmpError _ := ""
  hexError _ := ""

end AntClient
