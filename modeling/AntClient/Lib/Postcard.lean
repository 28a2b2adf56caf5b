/-
  The postcard wire format (`postcard` 1.1).

  Postcard is not self-describing: a record is its fields in declaration order,
  an enum its variant index and then the variant's fields.  Integers wider than a
  byte are LEB128 varints with a maximal length for each width; byte strings,
  strings and vectors carry a varint length; an option is one byte and then the
  value, if any; arrays of bytes are raw.  `usize` is that of wasm32.

  For each component there is an encoder and a parser that reads it
  (`Parser.Reads`), so that the round trip of a message follows its definition.
-/
import AntClient.Lib.Parser
import Mathlib.Tactic.Linarith
import Mathlib.Tactic.Positivity

namespace Postcard

variable {α : Type}

/-! ## Varints -/

/-- The number of bytes of the longest varint for an integer of `w` bits. -/
def varintMax (w : ℕ) : ℕ := (w + 6) / 7

/-- The largest last byte of a varint of maximal length. -/
def maxOfLastByte (w : ℕ) : ℕ := 2 ^ (w % 7) - 1

/-- The varint of `n` in at most `k` bytes. -/
def varint : ℕ → ℕ → Bytes
  | 0, _ => []
  | k + 1, n => if n < 128 then [UInt8.ofNat n] else UInt8.ofNat (n % 128 + 128) :: varint k (n / 128)

/-- Read a varint of at most `k` bytes, where a `k`-th byte must not exceed `m`. -/
def readVarint (m : ℕ) : ℕ → Parser ℕ
  | 0 => .fail
  | k + 1 => do
    let b ← Parser.byte
    if b.toNat < 128 then
      if k = 0 ∧ m < b.toNat then .fail else return b.toNat
    else
      let n ← readVarint m k
      return b.toNat - 128 + 128 * n

theorem readVarint_reads {m : ℕ} (hm : m < 128) : ∀ (k : ℕ) {n : ℕ}, n < 128 ^ k * (m + 1) →
    (readVarint m (k + 1)).Reads (varint (k + 1) n) n
  | 0, n, h => by
    have hn : n ≤ m := by omega
    have hb : (UInt8.ofNat n).toNat = n := by simp; omega
    rw [varint, if_pos (by omega)]
    intro rest
    simp only [readVarint, Parser.byte, List.singleton_append, Parser.bind_apply,
      Option.bind_some, hb]
    rw [if_pos (by omega), if_neg (by omega)]
    rfl
  | k + 1, n, h => by
    by_cases hn : n < 128
    · have hb : (UInt8.ofNat n).toNat = n := by simp; omega
      rw [varint, if_pos hn]
      intro rest
      simp only [readVarint, Parser.byte, List.singleton_append, Parser.bind_apply,
        Option.bind_some, hb]
      rw [if_pos hn, if_neg (by omega)]
      rfl
    · have hb : (UInt8.ofNat (n % 128 + 128)).toNat = n % 128 + 128 := by simp; omega
      have hd : n / 128 < 128 ^ k * (m + 1) := by
        rw [Nat.div_lt_iff_lt_mul (by omega)]
        rw [pow_succ] at h
        linarith
      have ih := readVarint_reads hm k hd
      rw [varint, if_neg hn]
      intro rest
      rw [readVarint, List.cons_append]
      simp only [Parser.byte, Parser.bind_apply, Option.bind_some, hb]
      rw [if_neg (by omega), Parser.bind_apply, ih rest]
      simp only [Option.bind_some, Parser.pure_apply, Option.some.injEq, Prod.mk.injEq, and_true]
      omega

theorem readVarint_yields {m : ℕ} (hm : m < 128) : ∀ k : ℕ,
    (readVarint m (k + 1)).Yields fun n => n < 128 ^ k * (m + 1)
  | 0 => by
    refine (Parser.Yields.trivial _).bind fun b _ => ?_
    split_ifs with h1 h2
    · exact .fail
    · exact .pure (by omega)
    · exact Parser.Yields.bind (P := fun _ => False) (fun _ _ _ h => by cases h) (by simp)
  | k + 1 => by
    refine (Parser.Yields.trivial _).bind fun b _ => ?_
    have hp : 0 < 128 ^ k * (m + 1) := by positivity
    have hs : 128 ^ (k + 1) * (m + 1) = 128 * (128 ^ k * (m + 1)) := by ring
    split_ifs with h1 h2
    · exact .fail
    · exact .pure (by omega)
    · refine (readVarint_yields hm k).bind fun n hn => .pure ?_
      have hb := b.toNat_lt
      omega

theorem length_varint_le : ∀ k n, (varint k n).length ≤ k
  | 0, _ => le_rfl
  | k + 1, n => by
    rw [varint]
    split_ifs
    · simp
    · simpa using length_varint_le k (n / 128)

@[simp] theorem length_varint_small {k n : ℕ} (h : n < 128) : (varint (k + 1) n).length = 1 := by
  rw [varint, if_pos h]; rfl

/-! ## Integers -/

/-- An unsigned integer of `w` bits. -/
def uint (w n : ℕ) : Bytes := varint (varintMax w) n

def readUint (w : ℕ) : Parser ℕ := readVarint (maxOfLastByte w) (varintMax w)

theorem readUint_reads_16 {n : ℕ} (h : n < 2 ^ 16) : (readUint 16).Reads (uint 16 n) n :=
  readVarint_reads (by decide) 2 h

theorem readUint_reads_32 {n : ℕ} (h : n < 2 ^ 32) : (readUint 32).Reads (uint 32 n) n :=
  readVarint_reads (by decide) 4 h

theorem readUint_reads_64 {n : ℕ} (h : n < 2 ^ 64) : (readUint 64).Reads (uint 64 n) n :=
  readVarint_reads (by decide) 9 h

theorem readUint_yields_32 : (readUint 32).Yields fun n => n < 2 ^ 32 :=
  readVarint_yields (by decide) 4

def u16 (n : UInt16) : Bytes := uint 16 n.toNat

def readU16 : Parser UInt16 := do return UInt16.ofNat (← readUint 16)

def u32 (n : UInt32) : Bytes := uint 32 n.toNat

def readU32 : Parser UInt32 := do return UInt32.ofNat (← readUint 32)

def u64 (n : UInt64) : Bytes := uint 64 n.toNat

def readU64 : Parser UInt64 := do return UInt64.ofNat (← readUint 64)

theorem readU16_reads (n : UInt16) : readU16.Reads (u16 n) n := by
  simpa [readU16, u16] using (readUint_reads_16 n.toNat_lt).last (f := UInt16.ofNat)

theorem readU32_reads (n : UInt32) : readU32.Reads (u32 n) n := by
  simpa [readU32, u32] using (readUint_reads_32 n.toNat_lt).last (f := UInt32.ofNat)

theorem readU64_reads (n : UInt64) : readU64.Reads (u64 n) n := by
  simpa [readU64, u64] using (readUint_reads_64 n.toNat_lt).last (f := UInt64.ofNat)

/-- A `usize` travels as a `u64` and must fit 32 bits when it is read. -/
def usize (n : UInt32) : Bytes := uint 64 n.toNat

def readUsize : Parser UInt32 := do
  let n ← readUint 64
  Parser.ofOption (if n < 2 ^ 32 then some (UInt32.ofNat n) else none)

theorem readUsize_reads (n : UInt32) : readUsize.Reads (usize n) n := by
  have hn := n.toNat_lt
  refine (readUint_reads_64 (by omega)).check ?_
  rw [if_pos hn]
  simp

def bool : Bool → Bytes
  | false => [0]
  | true => [1]

def readBool : Parser Bool := do
  match (← Parser.byte).toNat with
  | 0 => return false
  | 1 => return true
  | _ => .fail

theorem readBool_reads (b : Bool) : readBool.Reads (bool b) b := by
  cases b <;> exact fun _ => rfl

/-! ## Options, byte strings, strings and vectors -/

def option (enc : α → Bytes) : Option α → Bytes
  | none => [0]
  | some a => 1 :: enc a

def readOption (p : Parser α) : Parser (Option α) := do
  match (← Parser.byte).toNat with
  | 0 => return none
  | 1 => return some (← p)
  | _ => .fail

theorem readOption_reads {enc : α → Bytes} {p : Parser α} {o : Option α}
    (h : ∀ a, o = some a → p.Reads (enc a) a) : (readOption p).Reads (option enc o) o := by
  cases o with
  | none => exact fun _ => rfl
  | some a => exact (Parser.Reads.byte 1).bind ((h a rfl).last (f := some))

theorem readOption_yields {p : Parser α} {P : α → Prop} (h : p.Yields P) :
    (readOption p).Yields fun o => ∀ a, o = some a → P a := by
  refine (Parser.Yields.trivial _).bind fun b _ => ?_
  split
  · exact .pure (by simp)
  · exact h.bind fun a ha => .pure (by rintro b ⟨⟩; exact ha)
  · exact .fail

/-- A byte string (`Vec<u8>`). -/
def bytes (b : Bytes) : Bytes := uint 32 b.length ++ b

def readBytes : Parser Bytes := do Parser.take (← readUint 32)

theorem readBytes_reads {b : Bytes} (h : b.length < 2 ^ 32) : readBytes.Reads (bytes b) b :=
  (readUint_reads_32 h).bind (.take rfl)

theorem readBytes_yields : readBytes.Yields fun b => b.length < 2 ^ 32 :=
  readUint_yields_32.bind fun n hn => by
    intro bs b rest hb
    exact (Parser.Yields.take n bs b rest hb).symm ▸ hn

/-- The UTF-8 bytes of a string. -/
def utf8 (s : String) : Bytes := s.toUTF8.data.toList

/-- A string. -/
def string (s : String) : Bytes := bytes (utf8 s)

def readString : Parser String := do
  Parser.ofOption (String.fromUTF8? ⟨(← readBytes).toArray⟩)

theorem fromUTF8_utf8 (s : String) : String.fromUTF8? ⟨(utf8 s).toArray⟩ = some s := by
  have h : (⟨(utf8 s).toArray⟩ : ByteArray) = s.toUTF8 := rfl
  have hv : s.toUTF8.IsValidUTF8 := s.isValidUTF8
  rw [h, String.fromUTF8?, dif_pos hv]
  rfl

theorem readString_reads {s : String} (h : (utf8 s).length < 2 ^ 32) :
    readString.Reads (string s) s :=
  (readBytes_reads h).check (fromUTF8_utf8 s)

/-- A vector. -/
def vec (enc : α → Bytes) (as : List α) : Bytes := uint 32 as.length ++ as.flatMap enc

def readVec (p : Parser α) : Parser (List α) := do Parser.times p (← readUint 32)

theorem readVec_reads {enc : α → Bytes} {p : Parser α} {as : List α} (hl : as.length < 2 ^ 32)
    (h : ∀ a ∈ as, p.Reads (enc a) a) : (readVec p).Reads (vec enc as) as :=
  (readUint_reads_32 hl).bind (.times rfl h)

/-! ## Enums -/

/-- The variant index of an enum. -/
def variant (i : ℕ) : Bytes := uint 32 i

def readVariant : Parser ℕ := readUint 32

theorem variant_reads {i : ℕ} (hi : i < 2 ^ 32) : readVariant.Reads (variant i) i :=
  readUint_reads_32 hi

theorem readVariant_reads {f : ℕ → Parser α} {bs : Bytes} {a : α} (i : ℕ) (h : (f i).Reads bs a)
    (hi : i < 2 ^ 32) : (readVariant >>= f).Reads (variant i ++ bs) a :=
  (variant_reads hi).bind h

/-! ## Sizes -/

theorem length_le_bytes (b : Bytes) : b.length ≤ (bytes b).length := by
  rw [bytes, List.length_append]
  omega

theorem length_bytes_le (b : Bytes) : (bytes b).length ≤ b.length + 5 := by
  have h : (uint 32 b.length).length ≤ 5 := length_varint_le 5 b.length
  rw [bytes, List.length_append]
  omega

theorem length_u64_le (n : UInt64) : (u64 n).length ≤ 10 := length_varint_le 10 n.toNat

theorem length_variant_le (i : ℕ) : (variant i).length ≤ 5 := length_varint_le 5 i

theorem length_vec_le {enc : α → Bytes} {as : List α} {k : ℕ} (h : ∀ a ∈ as, (enc a).length ≤ k) :
    (vec enc as).length ≤ k * as.length + 5 := by
  have h1 : (uint 32 as.length).length ≤ 5 := length_varint_le 5 as.length
  have h2 : (as.flatMap enc).length ≤ k * as.length := by
    induction as with
    | nil => exact Nat.zero_le _
    | cons a as ih =>
      have ha := h a List.mem_cons_self
      have ih := ih (fun b hb => h b (List.mem_cons_of_mem _ hb)) (length_varint_le 5 as.length)
      rw [List.flatMap_cons, List.length_append, List.length_cons, Nat.mul_add, Nat.mul_one]
      omega
  rw [vec, List.length_append]
  omega

/-- An element of a vector is no longer than the vector. -/
theorem length_lt_of_mem_vec {enc : α → Bytes} {as : List α} {a : α} {n : ℕ}
    (h : (vec enc as).length < n) (ha : a ∈ as) : (enc a).length < n := by
  have := List.le_sum_of_mem (List.mem_map_of_mem (f := fun a => (enc a).length) ha)
  rw [vec, List.length_append, List.length_flatMap] at h
  omega

/-- A vector of elements of at least one byte has no more elements than bytes. -/
theorem length_lt_of_vec {enc : α → Bytes} {as : List α} {n : ℕ}
    (hpos : ∀ a, 0 < (enc a).length) (h : (vec enc as).length < n) : as.length < n := by
  rw [vec, List.length_append, List.length_flatMap] at h
  have := List.length_le_sum_of_one_le (as.map fun a => (enc a).length)
    (List.forall_mem_map.2 fun a _ => hpos a)
  rw [List.length_map] at this
  omega

/-! ## Messages -/

/-- `from_bytes`: read a value and ignore what follows it. -/
def fromBytes (p : Parser α) (bs : Bytes) : Option α := (p bs).map Prod.fst

theorem fromBytes_reads {p : Parser α} {bs : Bytes} {a : α} (h : p.Reads bs a) :
    fromBytes p bs = some a := by
  have h := h []
  rw [List.append_nil] at h
  rw [fromBytes, h, Option.map_some]

end Postcard
