/-
  Byte strings, fixed-size byte arrays and positional integers.

  `beNat` reads a byte string as a big-endian integer, `toBe w n` writes the `w`
  low bytes of `n`; they are inverse to each other on strings of `w` bytes.
-/
import Mathlib.Data.List.Induction
import Mathlib.Tactic.IntervalCases
import Mathlib.Tactic.Ring

/-- A byte string. -/
abbrev Bytes := List UInt8

/-- A byte array of fixed size `n`. -/
abbrev Arr (n : ℕ) := {b : Bytes // b.length = n}

namespace Arr
variable {n : ℕ}

@[simp] theorem length_val (a : Arr n) : a.1.length = n := a.2

/-- The array of `n` equal bytes. -/
def replicate (n : ℕ) (b : UInt8) : Arr n := ⟨List.replicate n b, List.length_replicate⟩

/-- A byte string as an array, if it has the right length (`try_into`). -/
def ofBytes? (n : ℕ) (b : Bytes) : Option (Arr n) := if h : b.length = n then some ⟨b, h⟩ else none

@[simp] theorem ofBytes?_val (a : Arr n) : ofBytes? n a.1 = some a := by
  rw [ofBytes?, dif_pos a.2]

theorem ofBytes?_eq_some {b : Bytes} {a : Arr n} : ofBytes? n b = some a ↔ b = a.1 := by
  unfold ofBytes?
  split_ifs with h
  · simp only [Option.some.injEq]
    constructor
    · rintro rfl; rfl
    · rintro rfl; rfl
  · simp only [false_iff]
    rintro rfl
    exact h a.2

/-- The `n` bytes of a string from position `i` on. -/
def slice (n i : ℕ) (b : Bytes) (h : i + n ≤ b.length) : Arr n :=
  ⟨(b.drop i).take n, by rw [List.length_take, List.length_drop]; omega⟩

/-- Equal-length arrays in front determine a concatenation. -/
theorem append_inj {a b : Arr n} {x y : Bytes} (h : a.1 ++ x = b.1 ++ y) : a = b ∧ x = y := by
  obtain ⟨h1, h2⟩ := List.append_inj h (by rw [a.2, b.2])
  exact ⟨Subtype.ext h1, h2⟩

end Arr

namespace Bytes

/-! ## Positional integers -/

/-- A big-endian byte string as an integer. -/
def beNat (b : Bytes) : ℕ := b.foldl (fun n x => n * 256 + x.toNat) 0

/-- The `w` low bytes of an integer, big-endian. -/
def toBe : ℕ → ℕ → Bytes
  | 0, _ => []
  | w + 1, n => toBe w (n / 256) ++ [UInt8.ofNat n]

/-- The `w` low bytes of an integer, little-endian. -/
def toLe (w n : ℕ) : Bytes := (toBe w n).reverse

@[simp] theorem beNat_nil : beNat [] = 0 := rfl

theorem beNat_concat (b : Bytes) (x : UInt8) : beNat (b ++ [x]) = beNat b * 256 + x.toNat := by
  simp [beNat]

theorem beNat_append (a b : Bytes) : beNat (a ++ b) = beNat a * 256 ^ b.length + beNat b := by
  induction b using List.reverseRecOn with
  | nil => simp
  | append_singleton b x ih =>
    rw [← List.append_assoc, beNat_concat, beNat_concat, ih]
    simp only [List.length_append, List.length_singleton]
    ring

theorem beNat_cons (x : UInt8) (b : Bytes) : beNat (x :: b) = x.toNat * 256 ^ b.length + beNat b := by
  simpa [beNat] using beNat_append [x] b

theorem beNat_lt (b : Bytes) : beNat b < 256 ^ b.length := by
  induction b using List.reverseRecOn with
  | nil => simp
  | append_singleton b x ih =>
    have hx := x.toNat_lt
    rw [beNat_concat, List.length_append, List.length_singleton, pow_succ]
    omega

@[simp] theorem length_toBe (w n : ℕ) : (toBe w n).length = w := by
  induction w generalizing n with
  | zero => rfl
  | succ w ih => simp [toBe, ih]

@[simp] theorem length_toLe (w n : ℕ) : (toLe w n).length = w := by simp [toLe]

theorem beNat_toBe (w n : ℕ) : beNat (toBe w n) = n % 256 ^ w := by
  induction w generalizing n with
  | zero => simp [toBe, Nat.mod_one]
  | succ w ih =>
    have hx : (UInt8.ofNat n).toNat = n % 256 := by simp
    rw [toBe, beNat_concat, ih, hx, pow_succ, mul_comm (256 ^ w) 256, Nat.mod_mul]
    omega

theorem beNat_toBe_of_lt {w n : ℕ} (h : n < 256 ^ w) : beNat (toBe w n) = n := by
  rw [beNat_toBe, Nat.mod_eq_of_lt h]

theorem toBe_beNat (b : Bytes) : toBe b.length (beNat b) = b := by
  induction b using List.reverseRecOn with
  | nil => rfl
  | append_singleton b x ih =>
    have hx := x.toNat_lt
    have h1 : (beNat b * 256 + x.toNat) / 256 = beNat b := by omega
    have h2 : UInt8.ofNat (beNat b * 256 + x.toNat) = x := by
      apply UInt8.toNat_inj.1
      simp
    rw [List.length_append, List.length_singleton, toBe, beNat_concat, h1, h2, ih]

theorem toBe_of_beNat {b : Bytes} {w n : ℕ} (hl : b.length = w) (h : beNat b = n) : toBe w n = b := by
  subst hl; subst h; exact toBe_beNat b

/-- Arrays of one size are equal if they are the same integer. -/
theorem beNat_inj {n : ℕ} {a b : Arr n} (h : beNat a.1 = beNat b.1) : a = b := by
  apply Subtype.ext
  rw [← toBe_of_beNat a.2 h, toBe_of_beNat b.2 rfl]

theorem toBe_inj {w m n : ℕ} (hm : m < 256 ^ w) (hn : n < 256 ^ w) (h : toBe w m = toBe w n) :
    m = n := by
  rw [← beNat_toBe_of_lt hm, ← beNat_toBe_of_lt hn, h]

@[simp] theorem beNat_replicate_zero (n : ℕ) : beNat (List.replicate n 0) = 0 := by
  induction n with
  | zero => rfl
  | succ n ih => rw [List.replicate_succ, beNat_cons, ih]; simp

/-! ## Hexadecimal digits -/

/-- The lowercase hexadecimal digit of a half byte. -/
def hexDigit (n : ℕ) : Char :=
  if n < 10 then Char.ofNat (48 + n) else Char.ofNat (87 + n)

/-- The value of a hexadecimal digit of either case. -/
def hexVal (c : Char) : Option ℕ :=
  let n := c.toNat
  if 48 ≤ n ∧ n ≤ 57 then some (n - 48)
  else if 97 ≤ n ∧ n ≤ 102 then some (n - 87)
  else if 65 ≤ n ∧ n ≤ 70 then some (n - 55)
  else none

/-- Two lowercase hexadecimal digits per byte. -/
def toHexChars (b : Bytes) : List Char :=
  b.flatMap fun x => [hexDigit (x.toNat / 16), hexDigit (x.toNat % 16)]

/-- Pairs of hexadecimal digits as bytes. -/
def ofHexChars : List Char → Option Bytes
  | [] => some []
  | [_] => none
  | c :: d :: cs => do
    let m ← hexVal c
    let n ← hexVal d
    let b ← ofHexChars cs
    return UInt8.ofNat (16 * m + n) :: b

theorem hexVal_hexDigit : ∀ n < 16, hexVal (hexDigit n) = some n := by decide

theorem ofHexChars_toHexChars (b : Bytes) : ofHexChars (toHexChars b) = some b := by
  induction b with
  | nil => rfl
  | cons x b ih =>
    have hx := x.toNat_lt
    have h16 : 16 * (x.toNat / 16) + x.toNat % 16 = x.toNat := Nat.div_add_mod _ _
    have h1 := hexVal_hexDigit (x.toNat / 16) (by omega)
    have h2 := hexVal_hexDigit (x.toNat % 16) (by omega)
    rw [show toHexChars (x :: b) = hexDigit (x.toNat / 16) :: hexDigit (x.toNat % 16) ::
      toHexChars b from rfl, ofHexChars, h1, h2, ih]
    simp only [Option.pure_def, Option.bind_eq_bind, Option.bind_some, h16]
    rw [UInt8.ofNat_toNat]

theorem hexVal_upper : ∀ k, 65 ≤ k → k < 91 → ∀ n < 16, (Char.ofNat k).toLower = hexDigit n →
    hexVal (Char.ofNat k) = some n := by
  intro k h1 h2
  interval_cases k <;> decide

/-- A character stands for a digit in either case. -/
theorem hexVal_eq_some {c : Char} {n : ℕ} : hexVal c = some n ↔ n < 16 ∧ c.toLower = hexDigit n := by
  have hc : c = Char.ofNat c.toNat := (Char.ofNat_toNat c).symm
  constructor
  · intro h
    unfold hexVal at h
    dsimp only at h
    generalize c.toNat = k at h hc
    subst hc
    split_ifs at h with h1 h2 h3
    · obtain ⟨hl, hu⟩ := h1
      cases h
      interval_cases k <;> decide
    · obtain ⟨hl, hu⟩ := h2
      cases h
      interval_cases k <;> decide
    · obtain ⟨hl, hu⟩ := h3
      cases h
      interval_cases k <;> decide
  · rintro ⟨hn, h⟩
    by_cases hu : 65 ≤ c.toNat ∧ c.toNat < 91
    · rw [hc] at h ⊢
      exact hexVal_upper _ hu.1 hu.2 n hn h
    · have hlow : c.toLower = c := by
        unfold Char.toLower
        rw [dif_neg]
        rintro ⟨h1, h2⟩
        refine hu ⟨h1, ?_⟩
        exact Nat.lt_succ_of_le h2
      rw [← hlow, h, hexVal_hexDigit n hn]

/-- The texts of a byte string are its digits in either case. -/
theorem ofHexChars_eq_some : ∀ {cs : List Char} {b : Bytes},
    ofHexChars cs = some b ↔ cs.map Char.toLower = toHexChars b
  | [], b => by
    cases b with
    | nil => simp [ofHexChars, toHexChars]
    | cons x b => simp [ofHexChars, toHexChars]
  | [c], b => by
    cases b with
    | nil => simp [ofHexChars, toHexChars]
    | cons x b => simp [ofHexChars, toHexChars]
  | c :: d :: cs, b => by
    rw [ofHexChars]
    constructor
    · intro h
      simp only [Option.bind_eq_bind, Option.bind_eq_some_iff, Option.pure_def, Option.some.injEq] at h
      obtain ⟨m, hm, n, hn, b', hb, rfl⟩ := h
      obtain ⟨hm, hc⟩ := hexVal_eq_some.1 hm
      obtain ⟨hn, hd⟩ := hexVal_eq_some.1 hn
      have hx : (UInt8.ofNat (16 * m + n)).toNat = 16 * m + n := by
        simp
        omega
      have h1 : (16 * m + n) / 16 = m := by omega
      have h2 : (16 * m + n) % 16 = n := by omega
      have hcons : toHexChars (UInt8.ofNat (16 * m + n) :: b') =
          hexDigit m :: hexDigit n :: toHexChars b' := by
        simp only [toHexChars, List.flatMap_cons, hx, h1, h2]
        rfl
      rw [List.map_cons, List.map_cons, ofHexChars_eq_some.1 hb, hc, hd, hcons]
    · intro h
      cases b with
      | nil => simp [toHexChars] at h
      | cons x b =>
        have hx := x.toNat_lt
        obtain ⟨hc, hrest⟩ := List.cons.inj (h : _ = hexDigit (x.toNat / 16) ::
          hexDigit (x.toNat % 16) :: toHexChars b)
        obtain ⟨hd, hcs⟩ := List.cons.inj hrest
        have h1 : hexVal c = some (x.toNat / 16) := hexVal_eq_some.2 ⟨by omega, hc⟩
        have h2 : hexVal d = some (x.toNat % 16) := hexVal_eq_some.2 ⟨by omega, hd⟩
        have h3 : 16 * (x.toNat / 16) + x.toNat % 16 = x.toNat := Nat.div_add_mod _ _
        rw [h1, h2, ofHexChars_eq_some.2 hcs]
        simp only [Option.bind_eq_bind, Option.bind_some, Option.pure_def, h3]
        rw [UInt8.ofNat_toNat]

end Bytes
