/-
  JSON texts and the values they denote.

  * `Json.parse` reads a whole text, by recursive descent; `value` reads the value at the
    front of a text.
  * `parse_eq_some`: the bound on the depth of the descent is no restriction.
  * `string_plain`, `string_own`: a text between two quotes is read back just if it is
    plain, or else the reader ends after the next quote.

  A member list keeps the order of the text.  An escape that denotes half a surrogate
  pair denotes no character, and is refused.
-/
import AntClient.Lib.Bytes
import Mathlib.Data.Rat.Defs
import Mathlib.Algebra.Field.Rat
import Mathlib.Data.List.TakeDrop
import Mathlib.Data.List.TakeWhile

/-- A JSON value. -/
inductive Json where
  | null
  | bool (b : Bool)
  | num (q : ℚ)
  | str (s : String)
  | arr (items : List Json)
  | obj (members : List (String × Json))

namespace Json

/-! ## Strings -/

/-- The characters up to the closing quote, and what follows it. -/
def rawString : List Char → Option (List Char × List Char)
  | [] => none
  | '"' :: rest => some ([], rest)
  | '\\' :: c :: rest => (rawString rest).map fun r => ('\\' :: c :: r.1, r.2)
  | c :: rest => (rawString rest).map fun r => (c :: r.1, r.2)

/-- The code of an escape of two characters. -/
def escape : Char → Option ℕ
  | '"' => some 0x22
  | '\\' => some 0x5c
  | '/' => some 0x2f
  | 'b' => some 0x08
  | 'f' => some 0x0c
  | 'n' => some 0x0a
  | 'r' => some 0x0d
  | 't' => some 0x09
  | _ => none

/-- The number of four hexadecimal digits. -/
def hex4 (a b c d : Char) : Option ℕ := do
  return 4096 * (← Bytes.hexVal a) + 256 * (← Bytes.hexVal b) + 16 * (← Bytes.hexVal c) +
    (← Bytes.hexVal d)

/-- A character that stands for itself. -/
def Plain (c : Char) : Prop := c ≠ '"' ∧ c ≠ '\\' ∧ 0x20 ≤ c.toNat

instance : DecidablePred Plain := fun _ => inferInstanceAs (Decidable (_ ∧ _ ∧ _))

theorem plain_of_all {s : List Char} (h : s.all (fun c => decide (Plain c)) = true) :
    ∀ c ∈ s, Plain c := by
  simpa [List.all_eq_true] using h

/-- The codes of the characters and escapes of a string. -/
def codes : List Char → Option (List ℕ)
  | [] => some []
  | '\\' :: 'u' :: a :: b :: c :: d :: raw => do return (← hex4 a b c d) :: (← codes raw)
  | '\\' :: c :: raw => do return (← escape c) :: (← codes raw)
  | c :: raw => if Plain c then do return c.toNat :: (← codes raw) else none

/-- The characters of a sequence of codes, where two surrogates make one character. -/
def chars : List ℕ → Option (List Char)
  | [] => some []
  | [u] => if 0xd800 ≤ u ∧ u < 0xe000 then none else some [Char.ofNat u]
  | u :: v :: us =>
    if 0xd800 ≤ u ∧ u < 0xdc00 ∧ 0xdc00 ≤ v ∧ v < 0xe000 then do
      return Char.ofNat (0x10000 + (u - 0xd800) * 0x400 + (v - 0xdc00)) :: (← chars us)
    else if 0xd800 ≤ u ∧ u < 0xe000 then none
    else do return Char.ofNat u :: (← chars (v :: us))

/-- The string that begins after a quote, and what follows its closing quote. -/
def string (cs : List Char) : Option (String × List Char) := do
  let (raw, rest) ← rawString cs
  return (.ofList (← chars (← codes raw)), rest)

section
variable {raw s rest post : List Char} {us : List ℕ} {a : Char}

theorem rawString_plain (h : ∀ c ∈ s, Plain c) : rawString (s ++ '"' :: rest) = some (s, rest) := by
  induction s with
  | nil => rfl
  | cons c s ih =>
    obtain ⟨⟨hq, hb, -⟩, h⟩ := List.forall_mem_cons.1 h
    rw [List.cons_append, rawString, ih h]
    · rfl
    · exact hq
    · intro _ _ hc
      exact absurd hc hb

/-- A text in quotes, and then the quote that opens the next one: the reader ends inside
    the text, at its end, or after the other quote. -/
theorem rawString_own (ha : Plain a) (h : rawString (s ++ '"' :: a :: '"' :: post) =
    some (raw, rest)) : raw.length < s.length ∨ raw = s ∨ rest = post := by
  induction s using rawString.induct generalizing raw with
  | case1 =>
    rw [List.nil_append, rawString] at h
    cases h
    exact Or.inr (Or.inl rfl)
  | case2 s =>
    rw [List.cons_append, rawString] at h
    cases h
    exact Or.inl (by simp)
  | case3 c s ih =>
    rw [List.cons_append, List.cons_append, rawString, Option.map_eq_some_iff] at h
    obtain ⟨⟨raw', rest'⟩, hraw, h⟩ := h
    cases h
    rcases ih hraw with hlt | rfl | rfl
    · exact Or.inl (by simpa using hlt)
    · exact Or.inr (Or.inl rfl)
    · exact Or.inr (Or.inr rfl)
  | case4 c s hq hb ih =>
    by_cases hend : c = '\\' ∧ s = []
    · -- the backslash takes the closing quote
      obtain ⟨rfl, rfl⟩ := hend
      have hnext : rawString (a :: '"' :: post) = some ([a], post) :=
        rawString_plain (s := [a]) (by simpa using ha)
      rw [List.cons_append, List.nil_append, rawString, hnext] at h
      cases h
      exact Or.inr (Or.inr rfl)
    · rw [List.cons_append, rawString, Option.map_eq_some_iff] at h
      · obtain ⟨⟨raw', rest'⟩, hraw, h⟩ := h
        cases h
        rcases ih hraw with hlt | rfl | rfl
        · exact Or.inl (by simpa using hlt)
        · exact Or.inr (Or.inl rfl)
        · exact Or.inr (Or.inr rfl)
      · exact hq
      · rintro d more rfl hs
        cases s with
        | nil => exact hend ⟨rfl, rfl⟩
        | cons e s => exact hb e s rfl rfl

theorem codes_plain (h : ∀ c ∈ s, Plain c) : codes s = some (s.map Char.toNat) := by
  induction s with
  | nil => rfl
  | cons c s ih =>
    obtain ⟨hc, h⟩ := List.forall_mem_cons.1 h
    rw [codes, if_pos hc, ih h]
    · rfl
    · intro _ _ _ _ _ hc'
      exact absurd hc' hc.2.1
    · intro _ _ hc'
      exact absurd hc' hc.2.1

/-- There are as many codes as characters only if every character stands for itself. -/
theorem codes_length (h : codes raw = some us) : us.length ≤ raw.length ∧
    (us.length = raw.length → ∀ c ∈ raw, Plain c) := by
  induction raw using codes.induct generalizing us with
  | case1 =>
    cases h
    simp
  | case2 a b c d raw ih =>
    rw [codes] at h
    obtain ⟨u, -, h⟩ := Option.bind_eq_some_iff.1 h
    obtain ⟨us', hus, h⟩ := Option.bind_eq_some_iff.1 h
    cases h
    have hle := (ih hus).1
    simp only [List.length_cons]
    omega
  | case3 c raw hu ih =>
    rw [codes] at h
    · obtain ⟨u, -, h⟩ := Option.bind_eq_some_iff.1 h
      obtain ⟨us', hus, h⟩ := Option.bind_eq_some_iff.1 h
      cases h
      have hle := (ih hus).1
      simp only [List.length_cons]
      omega
    · exact hu
  | case4 c raw h1 h2 hc ih =>
    rw [codes, if_pos hc] at h
    · obtain ⟨us', hus, h⟩ := Option.bind_eq_some_iff.1 h
      cases h
      obtain ⟨hle, heq⟩ := ih hus
      refine ⟨by simpa using hle, fun hl => ?_⟩
      exact List.forall_mem_cons.2 ⟨hc, heq (by simpa using hl)⟩
    · exact h1
    · exact h2
  | case5 c raw h1 h2 hc =>
    rw [codes, if_neg hc] at h
    · cases h
    · exact h1
    · exact h2

/-- A character is no surrogate. -/
theorem toNat_not_surrogate (c : Char) : ¬ (0xd800 ≤ c.toNat ∧ c.toNat < 0xe000) := by
  have h := c.valid
  simp only [UInt32.isValidChar, Nat.isValidChar] at h
  show ¬ (0xd800 ≤ c.val.toNat ∧ c.val.toNat < 0xe000)
  omega

theorem chars_toNat (s : List Char) : chars (s.map Char.toNat) = some s := by
  induction s with
  | nil => rfl
  | cons c s ih =>
    have hc := toNat_not_surrogate c
    cases s with
    | nil => rw [List.map_cons, List.map_nil, chars, if_neg hc, Char.ofNat_toNat]
    | cons d s =>
      rw [List.map_cons] at ih ⊢
      rw [List.map_cons, chars, if_neg (by omega), if_neg hc, ih, Char.ofNat_toNat]
      rfl

theorem chars_length (h : chars us = some s) : s.length ≤ us.length := by
  induction us using chars.induct generalizing s with
  | case1 =>
    cases h
    simp
  | case2 u hu =>
    rw [chars, if_pos hu] at h
    cases h
  | case3 u hu =>
    rw [chars, if_neg hu] at h
    cases h
    simp
  | case4 u v us hu ih =>
    rw [chars, if_pos hu] at h
    obtain ⟨s', hs, h⟩ := Option.bind_eq_some_iff.1 h
    cases h
    have hle := ih hs
    simp only [List.length_cons]
    omega
  | case5 u v us h1 hu =>
    rw [chars, if_neg h1, if_pos hu] at h
    cases h
  | case6 u v us h1 hu ih =>
    rw [chars, if_neg h1, if_neg hu] at h
    obtain ⟨s', hs, h⟩ := Option.bind_eq_some_iff.1 h
    cases h
    simpa using ih hs

end

section
variable {s : String} {rest post : List Char}

/-- A plain text in quotes is read back. -/
theorem string_plain (h : ∀ c ∈ s.toList, Plain c) :
    string (s.toList ++ '"' :: rest) = some (s, rest) := by
  rw [string, rawString_plain h]
  simp only [Option.bind_eq_bind, Option.bind_some, codes_plain h, chars_toNat,
    Option.pure_def, String.ofList_toList]

/-- **A text that is read back** is plain, or else the reader ends after the next quote. -/
theorem string_own {a : Char} (ha : Plain a)
    (h : string (s.toList ++ '"' :: a :: '"' :: post) = some (s, rest)) :
    (∀ c ∈ s.toList, Plain c) ∨ rest = post := by
  obtain ⟨⟨raw, rest'⟩, hraw, h⟩ := Option.bind_eq_some_iff.1 h
  obtain ⟨us, hcodes, h⟩ := Option.bind_eq_some_iff.1 h
  obtain ⟨cs, hchars, h⟩ := Option.bind_eq_some_iff.1 h
  simp only [Option.pure_def, Option.some.injEq, Prod.mk.injEq] at h
  obtain ⟨rfl, rfl⟩ := h
  rw [String.toList_ofList] at hraw ⊢
  obtain ⟨hle, heq⟩ := codes_length hcodes
  have hle' := chars_length hchars
  rcases rawString_own ha hraw with hlt | rfl | hrest
  · omega
  · exact Or.inl (heq (by omega))
  · exact Or.inr hrest

end

/-! ## Numbers -/

/-- The number of the digits at the front. -/
def digits (cs : List Char) : Option (List Char × List Char) :=
  match cs.span Char.isDigit with
  | ([], _) => none
  | r => some r

/-- The integer at the front. -/
def integer (cs : List Char) : Option (ℕ × List Char) := do
  let (ds, rest) ← digits cs
  if ds.head? = some '0' ∧ ds.length ≠ 1 then none else return (Nat.ofDigitChars 10 ds 0, rest)

/-- The fraction at the front, if there is one. -/
def fraction : List Char → Option (ℚ × List Char)
  | '.' :: cs => do
    let (ds, rest) ← digits cs
    return (Nat.ofDigitChars 10 ds 0 / 10 ^ ds.length, rest)
  | cs => some (0, cs)

/-- The exponent of a whole text, if it is not empty. -/
def exponent : List Char → Option ℤ
  | [] => some 0
  | c :: cs =>
    if c = 'e' ∨ c = 'E' then
      match cs with
      | '-' :: cs => (wholeDigits cs).map fun n => -n
      | '+' :: cs => wholeDigits cs
      | cs => wholeDigits cs
    else none
where
  wholeDigits (cs : List Char) : Option ℤ := do
    let (ds, rest) ← digits cs
    if rest = [] then return Nat.ofDigitChars 10 ds 0 else none

/-- The number that a whole text without a sign denotes. -/
def unsigned (cs : List Char) : Option ℚ := do
  let (n, cs) ← integer cs
  let (q, cs) ← fraction cs
  let e ← exponent cs
  return (n + q) * 10 ^ e

/-- The number that a whole text denotes. -/
def signed : List Char → Option ℚ
  | '-' :: cs => (unsigned cs).map fun q => -q
  | cs => unsigned cs

def isNumberChar (c : Char) : Bool :=
  c.isDigit || c = '-' || c = '+' || c = '.' || c = 'e' || c = 'E'

/-- The number at the front. -/
def number (cs : List Char) : Option (ℚ × List Char) :=
  (signed (cs.takeWhile isNumberChar)).map fun q => (q, cs.dropWhile isNumberChar)

theorem toDigits_no_zero {n : ℕ} (hn : n ≠ 0) :
    ∃ c ds, Nat.toDigits 10 n = c :: ds ∧ c ≠ '0' := by
  induction n using Nat.strongRecOn with
  | ind n ih =>
    by_cases hlt : n < 10
    · rw [Nat.toDigits_of_lt_base hlt]
      have hdigit : ∀ m < 10, m ≠ 0 → m.digitChar ≠ '0' := by decide
      exact ⟨_, _, rfl, hdigit n hlt hn⟩
    · obtain ⟨c, ds, hds, hc⟩ := ih (n / 10) (by omega) (by omega)
      rw [Nat.toDigits_of_base_le (by decide) (by omega), hds]
      exact ⟨c, _, rfl, hc⟩

theorem isDigit_toDigits {n : ℕ} {c : Char} (h : c ∈ Nat.toDigits 10 n) : c.isDigit = true :=
  Nat.isDigit_of_mem_toDigits (by decide) (by decide) h

theorem digits_toDigits (n : ℕ) : digits (Nat.toDigits 10 n) = some (Nat.toDigits 10 n, []) := by
  have hspan : (Nat.toDigits 10 n).span Char.isDigit = (Nat.toDigits 10 n, []) := by
    rw [List.span_eq_takeWhile_dropWhile, List.takeWhile_eq_self_iff.2 fun _ => isDigit_toDigits,
      List.dropWhile_eq_nil_iff.2 fun _ => isDigit_toDigits]
  rw [digits, hspan]
  obtain ⟨c, ds, hds⟩ := List.exists_cons_of_ne_nil (Nat.toDigits_ne_nil (n := n) (b := 10))
  rw [hds]

theorem integer_toDigits (n : ℕ) : integer (Nat.toDigits 10 n) = some (n, []) := by
  have hzero : ¬ ((Nat.toDigits 10 n).head? = some '0' ∧ (Nat.toDigits 10 n).length ≠ 1) := by
    by_cases hn : n = 0
    · simp [hn]
    · obtain ⟨c, ds, hds, hc⟩ := toDigits_no_zero hn
      simp [hds, hc]
  simp [integer, digits_toDigits, hzero]

/-- The digits of a number denote it. -/
theorem signed_toDigits (n : ℕ) : signed (Nat.toDigits 10 n) = some (n : ℚ) := by
  have hunsigned : unsigned (Nat.toDigits 10 n) = some (n : ℚ) := by
    simp [unsigned, integer_toDigits, fraction, exponent]
  rw [signed, hunsigned]
  intro cs hcs
  have hdigit : '-'.isDigit = true := isDigit_toDigits (n := n) (hcs ▸ List.mem_cons_self)
  cases hdigit

/-- The digits of a number are read up to a character that cannot go on with it. -/
theorem number_toDigits {c : Char} (n : ℕ) (rest : List Char) (hc : isNumberChar c = false) :
    number (Nat.toDigits 10 n ++ c :: rest) = some ((n : ℚ), c :: rest) := by
  have hdigits : ∀ d ∈ Nat.toDigits 10 n, isNumberChar d = true := by
    intro d hd
    simp [isNumberChar, isDigit_toDigits hd]
  rw [number, List.takeWhile_append_of_pos hdigits, List.dropWhile_append_of_pos hdigits]
  simp [hc, signed_toDigits]

theorem number_length {cs rest : List Char} {q : ℚ} (h : number cs = some (q, rest)) :
    rest.length ≤ cs.length := by
  obtain ⟨q', -, h⟩ := Option.map_eq_some_iff.1 h
  cases h
  exact List.length_dropWhile_le _ _

/-! ## Values -/

def isBlank (c : Char) : Bool := c = ' ' || c = '\t' || c = '\n' || c = '\r'

/-- Drop the blanks at the front. -/
def skip (cs : List Char) : List Char := cs.dropWhile isBlank

section
variable {α : Type} (close : Char) (item : List Char → Option (α × List Char))

/-- Items separated by commas, up to the closing character. -/
def items : ℕ → List Char → Option (List α × List Char)
  | 0, _ => none
  | k + 1, cs => do
    let (a, cs) ← item cs
    match skip cs with
    | ',' :: cs => (items k cs).map fun r => (a :: r.1, r.2)
    | c :: rest => if c = close then some ([a], rest) else none
    | [] => none

/-- The items after an opening character; there may be none. -/
def enclosed (cs : List Char) : Option (List α × List Char) :=
  match skip cs with
  | [] => none
  | c :: rest => if c = close then some ([], rest) else items close item cs.length cs

end

/-- A member of an object, given how values are read. -/
def member (value : List Char → Option (Json × List Char)) (cs : List Char) :
    Option ((String × Json) × List Char) :=
  match skip cs with
  | '"' :: cs => do
    let (name, cs) ← string cs
    match skip cs with
    | ':' :: cs => (value cs).map fun r => ((name, r.1), r.2)
    | _ => none
  | _ => none

/-- The word or number at the front. -/
def scalar : List Char → Option (Json × List Char)
  | 'n' :: 'u' :: 'l' :: 'l' :: cs => some (.null, cs)
  | 't' :: 'r' :: 'u' :: 'e' :: cs => some (.bool true, cs)
  | 'f' :: 'a' :: 'l' :: 's' :: 'e' :: cs => some (.bool false, cs)
  | cs => (number cs).map fun r => (.num r.1, r.2)

/-- The value at the front, given how the values inside it are read. -/
def front (inner : List Char → Option (Json × List Char)) (cs : List Char) :
    Option (Json × List Char) :=
  match skip cs with
  | '"' :: cs => (string cs).map fun r => (.str r.1, r.2)
  | '[' :: cs => (enclosed ']' inner cs).map fun r => (.arr r.1, r.2)
  | '\x7b' :: cs => (enclosed '\x7d' (member inner) cs).map fun r => (.obj r.1, r.2)
  | cs => scalar cs

/-- The value at the front, of a depth less than `n`. -/
def value : ℕ → List Char → Option (Json × List Char)
  | 0, _ => none
  | n + 1, cs => front (value n) cs

/-- The value of a text. -/
def parse (text : String) : Option Json :=
  match value (text.toList.length + 1) text.toList with
  | some (v, rest) => if skip rest = [] then some v else none
  | none => none

/-! ## Depth -/

theorem length_skip (cs : List Char) : (skip cs).length ≤ cs.length :=
  List.length_dropWhile_le _ _

theorem length_skip_cons {cs rest : List Char} {c : Char} (h : skip cs = c :: rest) :
    rest.length < cs.length := by
  have hle := length_skip cs
  rw [h, List.length_cons] at hle
  exact hle

/-- Texts of up to `L` characters that `item` reads are read by `item'` too, and what
    follows is no longer. -/
def Extends {α : Type} (L : ℕ) (item item' : List Char → Option (α × List Char)) : Prop :=
  ∀ cs a rest, cs.length ≤ L → item cs = some (a, rest) →
    rest.length ≤ cs.length ∧ item' cs = some (a, rest)

section
variable {α : Type} {close : Char} {item item' : List Char → Option (α × List Char)}
  {cs rest : List Char} {as : List α} {k L : ℕ}

/-- What a list of items begins with. -/
theorem items_eq_some (hc : close ≠ ',') : items close item k cs = some (as, rest) ↔
    ∃ j a cs', k = j + 1 ∧ item cs = some (a, cs') ∧
      ((∃ cs'' as', skip cs' = ',' :: cs'' ∧ items close item j cs'' = some (as', rest) ∧
        as = a :: as') ∨ skip cs' = close :: rest ∧ as = [a]) := by
  constructor
  · intro h
    cases k with
    | zero => cases h
    | succ j =>
      obtain ⟨⟨a, cs'⟩, hitem, h⟩ := Option.bind_eq_some_iff.1 h
      refine ⟨j, a, cs', rfl, hitem, ?_⟩
      dsimp only at h
      split at h
      · rename_i cs'' hskip
        obtain ⟨⟨as', rest'⟩, has, h⟩ := Option.map_eq_some_iff.1 h
        cases h
        exact Or.inl ⟨cs'', as', hskip, has, rfl⟩
      · rename_i c rest' _ hskip
        split at h
        · rename_i heq
          cases h
          exact Or.inr ⟨heq ▸ hskip, rfl⟩
        · cases h
      · cases h
  · rintro ⟨j, a, cs', rfl, hitem, ⟨cs'', as', hskip, has, rfl⟩ | ⟨hskip, rfl⟩⟩
    · simp [items, hitem, hskip, has]
    · simp [items, hitem, hskip]

/-- The same of a list whose first item is known. -/
theorem items_eq_cons {a : α} (hc : close ≠ ',') : items close item k cs = some (a :: as, rest) ↔
    ∃ j cs', k = j + 1 ∧ item cs = some (a, cs') ∧
      ((∃ cs'', skip cs' = ',' :: cs'' ∧ items close item j cs'' = some (as, rest)) ∨
        skip cs' = close :: rest ∧ as = []) := by
  rw [items_eq_some hc]
  constructor
  · rintro ⟨j, a', cs', hk, hitem, ⟨cs'', as', hskip, has, heq⟩ | ⟨hskip, heq⟩⟩
    · cases heq
      exact ⟨j, cs', hk, hitem, Or.inl ⟨cs'', hskip, has⟩⟩
    · cases heq
      exact ⟨j, cs', hk, hitem, Or.inr ⟨hskip, rfl⟩⟩
  · rintro ⟨j, cs', hk, hitem, ⟨cs'', hskip, has⟩ | ⟨hskip, rfl⟩⟩
    · exact ⟨j, a, cs', hk, hitem, Or.inl ⟨cs'', as, hskip, has, rfl⟩⟩
    · exact ⟨j, a, cs', hk, hitem, Or.inr ⟨hskip, rfl⟩⟩

theorem Extends.items (hc : close ≠ ',') (hitem : Extends L item item') :
    ∀ {k : ℕ} {cs as} (k' : ℕ), cs.length ≤ L → cs.length ≤ k' →
      items close item k cs = some (as, rest) →
        rest.length ≤ cs.length ∧ items close item' k' cs = some (as, rest) := by
  intro k
  induction k with
  | zero => exact fun _ _ _ h => by cases h
  | succ k ih =>
    intro cs as k' hL hk h
    obtain ⟨j, a, cs', hj, hfirst, h⟩ := (items_eq_some hc).1 h
    cases hj
    obtain ⟨hle, hfirst'⟩ := hitem cs a cs' hL hfirst
    rcases h with ⟨cs'', as', hskip, has, rfl⟩ | ⟨hskip, rfl⟩
    · have hlt := length_skip_cons hskip
      obtain ⟨k', rfl⟩ : ∃ i, k' = i + 1 := ⟨k' - 1, by omega⟩
      obtain ⟨hrest, has'⟩ := ih k' (by omega) (by omega) has
      refine ⟨by omega, (items_eq_some hc).2 ⟨k', a, cs', rfl, hfirst', Or.inl ?_⟩⟩
      exact ⟨cs'', as', hskip, has', rfl⟩
    · have hlt := length_skip_cons hskip
      obtain ⟨k', rfl⟩ : ∃ i, k' = i + 1 := ⟨k' - 1, by omega⟩
      exact ⟨by omega, (items_eq_some hc).2 ⟨k', a, cs', rfl, hfirst', Or.inr ⟨hskip, rfl⟩⟩⟩

theorem Extends.enclosed (hc : close ≠ ',') (hitem : Extends L item item') :
    Extends L (enclosed close item) (enclosed close item') := by
  intro cs as rest hL h
  rw [Json.enclosed] at h ⊢
  cases hskip : skip cs with
  | nil =>
    rw [hskip] at h
    cases h
  | cons c cs' =>
    rw [hskip] at h
    dsimp only at h ⊢
    split at h
    · rename_i heq
      cases h
      exact ⟨(length_skip_cons hskip).le, if_pos heq⟩
    · rename_i hne
      rw [if_neg hne]
      exact hitem.items hc _ hL le_rfl h

end

theorem rawString_length {cs raw rest : List Char} (h : rawString cs = some (raw, rest)) :
    rest.length ≤ cs.length := by
  induction cs using rawString.induct generalizing raw with
  | case1 => cases h
  | case2 cs =>
    cases h
    simp
  | case3 c cs ih =>
    obtain ⟨⟨raw', rest'⟩, hraw, h⟩ := Option.map_eq_some_iff.1 h
    cases h
    have hle : rest'.length ≤ cs.length := ih hraw
    show rest'.length ≤ cs.length + 2
    omega
  | case4 c cs hq hb ih =>
    rw [rawString] at h
    · obtain ⟨⟨raw', rest'⟩, hraw, h⟩ := Option.map_eq_some_iff.1 h
      cases h
      have hle : rest'.length ≤ cs.length := ih hraw
      show rest'.length ≤ cs.length + 1
      omega
    · exact hq
    · exact hb

theorem string_length {cs rest : List Char} {s : String} (h : string cs = some (s, rest)) :
    rest.length ≤ cs.length := by
  obtain ⟨⟨raw, rest'⟩, hraw, h⟩ := Option.bind_eq_some_iff.1 h
  obtain ⟨us, -, h⟩ := Option.bind_eq_some_iff.1 h
  obtain ⟨cs', -, h⟩ := Option.bind_eq_some_iff.1 h
  cases h
  exact rawString_length hraw

theorem scalar_length {cs rest : List Char} {v : Json} (h : scalar cs = some (v, rest)) :
    rest.length ≤ cs.length := by
  unfold scalar at h
  split at h
  · cases h
    simp only [List.length_cons]
    omega
  · cases h
    simp only [List.length_cons]
    omega
  · cases h
    simp only [List.length_cons]
    omega
  · obtain ⟨⟨q, rest'⟩, hnumber, h⟩ := Option.map_eq_some_iff.1 h
    cases h
    exact number_length hnumber

section
variable {inner inner' : List Char → Option (Json × List Char)} {L n m : ℕ} {cs : List Char}

theorem Extends.member (hinner : Extends L inner inner') :
    Extends L (member inner) (member inner') := by
  intro cs a rest hL h
  rw [Json.member] at h ⊢
  split at h
  · rename_i cs' hskip
    have hlt := length_skip_cons hskip
    obtain ⟨⟨name, cs''⟩, hname, h⟩ := Option.bind_eq_some_iff.1 h
    have hle := string_length hname
    dsimp only at h
    split at h
    · rename_i cs₃ hcolon
      have hlt' := length_skip_cons hcolon
      obtain ⟨⟨v, rest'⟩, hv, h⟩ := Option.map_eq_some_iff.1 h
      cases h
      obtain ⟨hrest, hv'⟩ := hinner cs₃ v rest' (by omega) hv
      refine ⟨hrest.trans (by omega), ?_⟩
      simp [hname, hcolon, hv']
    · cases h
  · cases h

/-- What is inside a value is shorter. -/
theorem Extends.front (hinner : Extends L inner inner') :
    Extends (L + 1) (front inner) (front inner') := by
  intro cs v rest hL h
  have hle := length_skip cs
  rw [Json.front] at h ⊢
  split at h
  · rename_i cs' hskip
    have hlt := length_skip_cons hskip
    obtain ⟨⟨s, rest'⟩, hs, h'⟩ := Option.map_eq_some_iff.1 h
    cases h'
    exact ⟨(string_length hs).trans hlt.le, h⟩
  · rename_i cs' hskip
    have hlt := length_skip_cons hskip
    obtain ⟨⟨vs, rest'⟩, hvs, h⟩ := Option.map_eq_some_iff.1 h
    cases h
    obtain ⟨hrest, hvs'⟩ := hinner.enclosed (by decide) cs' vs rest' (by omega) hvs
    refine ⟨hrest.trans hlt.le, ?_⟩
    simp [hvs']
  · rename_i cs' hskip
    have hlt := length_skip_cons hskip
    obtain ⟨⟨ms, rest'⟩, hms, h⟩ := Option.map_eq_some_iff.1 h
    cases h
    obtain ⟨hrest, hms'⟩ := hinner.member.enclosed (by decide) cs' ms rest' (by omega) hms
    refine ⟨hrest.trans hlt.le, ?_⟩
    simp [hms']
  · exact ⟨(scalar_length h).trans hle, h⟩

/-- **The depth of the descent** is no restriction on a text that is not longer. -/
theorem value_extends (n m : ℕ) : Extends m (value n) (value (m + 1)) := by
  induction n generalizing m with
  | zero => exact fun _ _ _ _ h => by cases h
  | succ n ih =>
    cases m with
    | zero =>
      intro cs v rest hL h
      rw [List.length_eq_zero_iff.1 (Nat.le_zero.1 hL)] at h
      cases h
    | succ m => exact (ih m).front

/-- **A text denotes a value** if, at some depth, the value is read and only blanks follow. -/
theorem parse_eq_some {text : String} {v : Json} : parse text = some v ↔
    ∃ n rest, value n text.toList = some (v, rest) ∧ skip rest = [] := by
  constructor
  · intro h
    rw [parse] at h
    split at h
    · rename_i v' rest hv
      split at h
      · rename_i hrest
        cases h
        exact ⟨_, rest, hv, hrest⟩
      · cases h
    · cases h
  · rintro ⟨n, rest, hv, hrest⟩
    rw [parse, (value_extends n _ _ v rest le_rfl hv).2]
    exact if_pos hrest

theorem value_unique {r r' : Json × List Char} (h : value n cs = some r)
    (h' : value m cs = some r') : r = r' := by
  have h₁ := (value_extends n _ cs r.1 r.2 le_rfl h).2
  have h₂ := (value_extends m _ cs r'.1 r'.2 le_rfl h').2
  exact Option.some.inj (h₁.symm.trans h₂)

end

/-! ## Reading -/

section
variable {inner : List Char → Option (Json × List Char)} {n : ℕ} {s : String} {c : Char}
  {cs : List Char}

/-- A member with a plain name. -/
theorem member_quoted (h : ∀ c ∈ s.toList, Plain c) :
    member inner ('"' :: (s.toList ++ '"' :: ':' :: cs)) =
      (inner cs).map fun r => ((s, r.1), r.2) := by
  show (string _ >>= _) = _
  rw [string_plain h]
  rfl

theorem value_quoted (h : ∀ c ∈ s.toList, Plain c) :
    value (n + 1) ('"' :: (s.toList ++ '"' :: cs)) = some (.str s, cs) := by
  show (string _).map _ = _
  rw [string_plain h]
  rfl

/-- A value that begins with a digit is a number. -/
theorem front_digit (hc : c.isDigit = true) :
    front inner (c :: cs) = (number (c :: cs)).map fun r => (.num r.1, r.2) := by
  have hne : ∀ d : Char, d.isDigit = false → c ≠ d := by
    rintro d hd rfl
    cases hc.symm.trans hd
  have hblank : isBlank c = false := by
    simp [isBlank, hne ' ' rfl, hne '\t' rfl, hne '\n' rfl, hne '\r' rfl]
  have hskip : skip (c :: cs) = c :: cs := by
    rw [skip, List.dropWhile_cons, hblank]
    rfl
  rw [front, hskip]
  split
  · rename_i heq
    cases heq
    cases hc
  · rename_i heq
    cases heq
    cases hc
  · rename_i heq
    cases heq
    cases hc
  · rw [scalar]
    · rintro _ ⟨⟩
      cases hc
    · rintro _ ⟨⟩
      cases hc
    · rintro _ ⟨⟩
      cases hc

theorem value_toDigits {m : ℕ} (hc : isNumberChar c = false) :
    value (n + 1) (Nat.toDigits 10 m ++ c :: cs) = some (.num m, c :: cs) := by
  have hnumber := number_toDigits m cs hc
  obtain ⟨d, ds, hds⟩ := List.exists_cons_of_ne_nil (Nat.toDigits_ne_nil (n := m) (b := 10))
  have hd : d.isDigit = true := isDigit_toDigits (hds ▸ List.mem_cons_self)
  rw [hds, List.cons_append] at hnumber ⊢
  rw [value, front_digit hd, hnumber]
  rfl

end

end Json
