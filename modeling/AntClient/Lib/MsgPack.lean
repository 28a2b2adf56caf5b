/-
  MessagePack as `rmp_serde` writes and reads it.

  The compact encoding: a record is the array of its field values, an integer
  and a header have minimal width, `serialize_bytes` writes a `bin`, a sequence
  of bytes is an array of integers (one or two bytes each), and an option is
  `nil` or the bare value.

  The readers take the array forms, of which the encoding is one (`UintForm`,
  `HeaderForm`, `ArrayForm`, `BytesForm`): unsigned integers and headers of any width,
  a byte string as a sequence or as a `bin`, and a record as an array.  A sequence ends
  after its declared number of elements: a record takes the fields that are there, its
  trailing fields may have defaults, and leftover elements are an error.  The other
  forms that `rmp_serde` takes are not read here: a record as a map or a `bin`, an
  integer with a signed marker, a byte string as a `str` or in a longer `bin`.
-/
import AntClient.Lib.Parser
import Mathlib.Tactic.Linarith

namespace MsgPack

open Bytes

variable {α : Type}

/-! ## Integers -/

/-- An unsigned integer. -/
def uint (n : ℕ) : Bytes :=
  if n < 128 then toBe 1 n
  else if n < 2 ^ 8 then 0xcc :: toBe 1 n
  else if n < 2 ^ 16 then 0xcd :: toBe 2 n
  else if n < 2 ^ 32 then 0xce :: toBe 4 n
  else 0xcf :: toBe 8 n

/-- A big-endian integer of `w` bytes. -/
def readBe (w : ℕ) : Parser ℕ := do return beNat (← Parser.take w)

/-- An unsigned integer that is at most `m`. -/
def readUint (m : ℕ) : Parser ℕ := do
  let b ← Parser.byte
  let n ← match b.toNat with
    | 0xcc => readBe 1
    | 0xcd => readBe 2
    | 0xce => readBe 4
    | 0xcf => readBe 8
    | n => if n < 128 then pure n else .fail
  if n ≤ m then return n else .fail

theorem readBe_reads {w n : ℕ} (h : n < 256 ^ w) : (readBe w).Reads (toBe w n) n := by
  have := (Parser.Reads.take (length_toBe w n)).last (f := beNat)
  rwa [beNat_toBe_of_lt h] at this

/-- A marker and the integer of `w` bytes after it. -/
inductive Wide (markers : List (UInt8 × ℕ)) : Bytes → ℕ → Prop
  | mk {m w n} : (m, w) ∈ markers → n < 256 ^ w → Wide markers (m :: toBe w n) n

/-- The forms of an unsigned integer. -/
inductive UintForm : Bytes → ℕ → Prop
  | fix {n} : n < 128 → UintForm (toBe 1 n) n
  | wide {bs n} : Wide [(0xcc, 1), (0xcd, 2), (0xce, 4), (0xcf, 8)] bs n → UintForm bs n

theorem uint_form {n : ℕ} (h : n < 2 ^ 64) : UintForm (uint n) n := by
  unfold uint
  split_ifs with h1 h2 h3 h4
  · exact .fix h1
  · exact .wide (.mk (by simp) (by omega))
  · exact .wide (.mk (by simp) (by omega))
  · exact .wide (.mk (by simp) (by omega))
  · exact .wide (.mk (by simp) (by omega))

/-- The last check of an integer. -/
theorem readMax_reads {m n : ℕ} (h : n ≤ m) :
    (if n ≤ m then (pure n : Parser ℕ) else .fail).Reads [] n := by
  rw [if_pos h]; exact .pure n

theorem UintForm.reads {m n : ℕ} {bs : Bytes} (h : UintForm bs n) (hm : n ≤ m) :
    (readUint m).Reads bs n := by
  cases h with
  | fix h1 =>
    have hb : (UInt8.ofNat n).toNat = n := by simp; omega
    intro rest
    simp only [toBe, List.nil_append, List.singleton_append, readUint, Parser.bind_apply,
      Parser.byte, Option.bind_some, hb]
    split
    · omega
    · omega
    · omega
    · omega
    · rw [if_pos h1]; simp [hm]
  | wide h =>
    obtain ⟨hmem, hw⟩ := h
    have hr := (readBe_reads hw).bind (f := fun n => if n ≤ m then pure n else .fail)
      (readMax_reads hm)
    rw [List.append_nil] at hr
    simp only [List.mem_cons, Prod.mk.injEq, List.not_mem_nil, or_false] at hmem
    rcases hmem with ⟨rfl, rfl⟩ | ⟨rfl, rfl⟩ | ⟨rfl, rfl⟩ | ⟨rfl, rfl⟩
    · exact (Parser.Reads.byte 0xcc).bind hr
    · exact (Parser.Reads.byte 0xcd).bind hr
    · exact (Parser.Reads.byte 0xce).bind hr
    · exact (Parser.Reads.byte 0xcf).bind hr

def readU64 : Parser UInt64 := do return UInt64.ofNat (← readUint (2 ^ 64 - 1))

def readU32 : Parser UInt32 := do return UInt32.ofNat (← readUint (2 ^ 32 - 1))

theorem UintForm.readU64 {n : UInt64} {bs : Bytes} (h : UintForm bs n.toNat) :
    readU64.Reads bs n := by
  have hn := n.toNat_lt
  have h := (h.reads (m := 2 ^ 64 - 1) (by omega)).last (f := UInt64.ofNat)
  rwa [UInt64.ofNat_toNat] at h

theorem UintForm.readU32 {n : UInt32} {bs : Bytes} (h : UintForm bs n.toNat) :
    readU32.Reads bs n := by
  have hn := n.toNat_lt
  have h := (h.reads (m := 2 ^ 32 - 1) (by omega)).last (f := UInt32.ofNat)
  rwa [UInt32.ofNat_toNat] at h

theorem readU64_reads (n : UInt64) : readU64.Reads (uint n.toNat) n :=
  (uint_form n.toNat_lt).readU64

theorem readU32_reads (n : UInt32) : readU32.Reads (uint n.toNat) n :=
  have hn := n.toNat_lt
  (uint_form (by omega)).readU32

/-! ## Arrays -/

/-- The header of an array of `n` elements. -/
def arrayHeader (n : ℕ) : Bytes :=
  if n < 16 then toBe 1 (0x90 + n)
  else if n < 2 ^ 16 then 0xdc :: toBe 2 n
  else 0xdd :: toBe 4 n

def readArrayHeader : Parser ℕ := do
  match (← Parser.byte).toNat with
  | 0xdc => readBe 2
  | 0xdd => readBe 4
  | n => if 0x90 ≤ n ∧ n < 0xa0 then return n - 0x90 else .fail

/-- The forms of the header of an array. -/
inductive HeaderForm : Bytes → ℕ → Prop
  | fix {n} : n < 16 → HeaderForm (toBe 1 (0x90 + n)) n
  | wide {bs n} : Wide [(0xdc, 2), (0xdd, 4)] bs n → HeaderForm bs n

theorem arrayHeader_form {n : ℕ} (h : n < 2 ^ 32) : HeaderForm (arrayHeader n) n := by
  unfold arrayHeader
  split_ifs with h1 h2
  · exact .fix h1
  · exact .wide (.mk (by simp) (by omega))
  · exact .wide (.mk (by simp) (by omega))

/-- A header starts with a marker of an array. -/
theorem HeaderForm.eq_cons {n : ℕ} {header : Bytes} (h : HeaderForm header n) :
    ∃ b bs, header = b :: bs ∧ 0x90 ≤ b.toNat ∧ (b.toNat < 0xa0 ∨ 0xdc ≤ b.toNat) := by
  cases h with
  | fix h1 =>
    have hb : (UInt8.ofNat (0x90 + n)).toNat = 0x90 + n := by simp; omega
    exact ⟨_, [], rfl, by rw [hb]; omega, by rw [hb]; omega⟩
  | wide h =>
    obtain ⟨hmem, -⟩ := h
    simp only [List.mem_cons, Prod.mk.injEq, List.not_mem_nil, or_false] at hmem
    rcases hmem with ⟨rfl, rfl⟩ | ⟨rfl, rfl⟩
    · exact ⟨_, _, rfl, by simp, by simp⟩
    · exact ⟨_, _, rfl, by simp, by simp⟩

theorem HeaderForm.reads {n : ℕ} {header : Bytes} (h : HeaderForm header n) :
    readArrayHeader.Reads header n := by
  cases h with
  | fix h1 =>
    have hb : (UInt8.ofNat (0x90 + n)).toNat = 0x90 + n := by simp; omega
    intro rest
    simp only [toBe, List.nil_append, List.singleton_append, readArrayHeader, Parser.bind_apply,
      Parser.byte, Option.bind_some, hb]
    generalize hm : 0x90 + n = m
    split
    · omega
    · omega
    · rw [if_pos (by omega), ← hm]; simp
  | wide h =>
    obtain ⟨hmem, hw⟩ := h
    simp only [List.mem_cons, Prod.mk.injEq, List.not_mem_nil, or_false] at hmem
    rcases hmem with ⟨rfl, rfl⟩ | ⟨rfl, rfl⟩
    · exact (Parser.Reads.byte 0xdc).bind (readBe_reads hw)
    · exact (Parser.Reads.byte 0xdd).bind (readBe_reads hw)

theorem readArrayHeader_reads {n : ℕ} (h : n < 2 ^ 32) :
    readArrayHeader.Reads (arrayHeader n) n :=
  (arrayHeader_form h).reads

/-- A sequence. -/
def array (enc : α → Bytes) (as : List α) : Bytes := arrayHeader as.length ++ as.flatMap enc

def readArray (p : Parser α) : Parser (List α) := do Parser.times p (← readArrayHeader)

/-- Values one after the other, each in one of its forms. -/
inductive EachForm (form : Bytes → α → Prop) : Bytes → List α → Prop
  | nil : EachForm form [] []
  | cons {b bs a as} : form b a → EachForm form bs as → EachForm form (b ++ bs) (a :: as)

/-- The forms of a sequence. -/
inductive ArrayForm (form : Bytes → α → Prop) : Bytes → List α → Prop
  | mk {header body as} : HeaderForm header as.length → EachForm form body as →
      ArrayForm form (header ++ body) as

theorem eachForm_flatMap {form : Bytes → α → Prop} {enc : α → Bytes} {as : List α}
    (h : ∀ a ∈ as, form (enc a) a) : EachForm form (as.flatMap enc) as := by
  induction as with
  | nil => exact .nil
  | cons a as ih =>
    rw [List.forall_mem_cons] at h
    rw [List.flatMap_cons]
    exact .cons h.1 (ih h.2)

theorem array_form {form : Bytes → α → Prop} {enc : α → Bytes} {as : List α}
    (hl : as.length < 2 ^ 32) (h : ∀ a ∈ as, form (enc a) a) : ArrayForm form (array enc as) as :=
  .mk (arrayHeader_form hl) (eachForm_flatMap h)

theorem EachForm.reads {form : Bytes → α → Prop} {p : Parser α} {body : Bytes} {as : List α}
    (hp : ∀ bs a, form bs a → p.Reads bs a) (h : EachForm form body as) :
    (Parser.times p as.length).Reads body as := by
  induction h with
  | nil => exact .pure []
  | cons ha _ ih => exact (hp _ _ ha).bind (ih.last (f := fun as => _ :: as))

theorem ArrayForm.reads {form : Bytes → α → Prop} {p : Parser α} {bs : Bytes} {as : List α}
    (hp : ∀ bs a, form bs a → p.Reads bs a) (h : ArrayForm form bs as) :
    (readArray p).Reads bs as := by
  obtain ⟨hheader, hbody⟩ := h
  exact hheader.reads.bind (hbody.reads hp)

/-- A sequence whose elements are read as other values. -/
theorem readArray_reads_map {β : Type} {enc : β → Bytes} {val : β → α} {p : Parser α} {xs : List β}
    (hl : xs.length < 2 ^ 32) (h : ∀ x ∈ xs, p.Reads (enc x) (val x)) :
    (readArray p).Reads (array enc xs) (xs.map val) :=
  (readArrayHeader_reads hl).bind (.times_map rfl h)

theorem readArray_reads {enc : α → Bytes} {p : Parser α} {as : List α} (hl : as.length < 2 ^ 32)
    (h : ∀ a ∈ as, p.Reads (enc a) a) : (readArray p).Reads (array enc as) as :=
  (readArrayHeader_reads hl).bind (.times rfl h)

/-! ## Bytes

A byte string is a sequence of integers unless it is written with
`serialize_bytes`; both are read. -/

/-- An element of a sequence of bytes. -/
def u8 (b : UInt8) : Bytes := uint b.toNat

def readU8 : Parser UInt8 := do return UInt8.ofNat (← readUint 255)

/-- The forms of an element. -/
def U8Form (bs : Bytes) (b : UInt8) : Prop := UintForm bs b.toNat

theorem u8_form (b : UInt8) : U8Form (u8 b) b :=
  have hb := b.toNat_lt
  uint_form (by omega)

theorem U8Form.reads {bs : Bytes} {b : UInt8} (h : U8Form bs b) : readU8.Reads bs b := by
  have hb := b.toNat_lt
  have hr := (UintForm.reads h (m := 255) (by omega)).last (f := UInt8.ofNat)
  rwa [UInt8.ofNat_toNat] at hr

/-- A byte string as a sequence (`Vec<u8>`). -/
def seqBytes (b : Bytes) : Bytes := array u8 b

/-- A byte string as a `bin` (`serialize_bytes`). -/
def bin (b : Bytes) : Bytes :=
  if b.length < 2 ^ 8 then 0xc4 :: toBe 1 b.length ++ b
  else if b.length < 2 ^ 16 then 0xc5 :: toBe 2 b.length ++ b
  else 0xc6 :: toBe 4 b.length ++ b

/-- The bytes of a `bin` whose length takes `w` bytes. -/
def readBin (w : ℕ) : Parser Bytes := do Parser.take (← readBe w)

/-- A `bin` or a sequence. -/
def readBytes : Parser Bytes
  | 0xc4 :: bs => readBin 1 bs
  | 0xc5 :: bs => readBin 2 bs
  | 0xc6 :: bs => readBin 4 bs
  | bs => readArray readU8 bs

/-- The forms of a byte string. -/
inductive BytesForm : Bytes → Bytes → Prop
  | bin {header b} : Wide [(0xc4, 1), (0xc5, 2), (0xc6, 4)] header b.length →
      BytesForm (header ++ b) b
  | seq {bs b} : ArrayForm U8Form bs b → BytesForm bs b

theorem bin_form {b : Bytes} (h : b.length < 2 ^ 32) : BytesForm (bin b) b := by
  unfold bin
  split_ifs with h1 h2
  · exact .bin (.mk (by simp) (by omega))
  · exact .bin (.mk (by simp) (by omega))
  · exact .bin (.mk (by simp) (by omega))

theorem seqBytes_form {b : Bytes} (h : b.length < 2 ^ 32) : BytesForm (seqBytes b) b :=
  .seq (array_form h fun b _ => u8_form b)

/-- The marker of a byte string. -/
theorem BytesForm.eq_cons {bs b : Bytes} (h : BytesForm bs b) :
    ∃ x xs, bs = x :: xs ∧ x ≠ 0xc0 := by
  cases h with
  | bin h =>
    obtain ⟨hmem, -⟩ := h
    simp only [List.mem_cons, Prod.mk.injEq, List.not_mem_nil, or_false] at hmem
    rcases hmem with ⟨rfl, rfl⟩ | ⟨rfl, rfl⟩ | ⟨rfl, rfl⟩
    · exact ⟨_, _, rfl, by decide⟩
    · exact ⟨_, _, rfl, by decide⟩
    · exact ⟨_, _, rfl, by decide⟩
  | seq h =>
    obtain ⟨hheader, -⟩ := h
    obtain ⟨x, xs, rfl, h1, h2⟩ := hheader.eq_cons
    refine ⟨x, _, rfl, ?_⟩
    rintro rfl
    revert h1 h2
    decide

/-- A sequence is not a `bin`. -/
theorem readBytes_eq_readArray {n : ℕ} {header : Bytes} (h : HeaderForm header n) (rest : Bytes) :
    readBytes (header ++ rest) = readArray readU8 (header ++ rest) := by
  obtain ⟨x, xs, rfl, h1, h2⟩ := h.eq_cons
  rw [List.cons_append, readBytes]
  all_goals
    rintro bs he
    cases he
    revert h1 h2
    decide

theorem BytesForm.reads {bs b : Bytes} (h : BytesForm bs b) : readBytes.Reads bs b := by
  intro rest
  cases h with
  | bin h =>
    obtain ⟨hmem, hw⟩ := h
    have hr := (readBe_reads hw).bind (f := Parser.take) (.take rfl)
    simp only [List.mem_cons, Prod.mk.injEq, List.not_mem_nil, or_false] at hmem
    rcases hmem with ⟨rfl, rfl⟩ | ⟨rfl, rfl⟩ | ⟨rfl, rfl⟩
    · exact hr rest
    · exact hr rest
    · exact hr rest
  | seq h =>
    have hr := h.reads (fun _ _ => U8Form.reads) rest
    obtain ⟨hheader, -⟩ := h
    rw [List.append_assoc] at hr ⊢
    rw [readBytes_eq_readArray hheader]
    exact hr

theorem readBytes_reads_bin {b : Bytes} (h : b.length < 2 ^ 32) : readBytes.Reads (bin b) b :=
  (bin_form h).reads

theorem readBytes_reads_seq {b : Bytes} (h : b.length < 2 ^ 32) :
    readBytes.Reads (seqBytes b) b :=
  (seqBytes_form h).reads

/-- A byte array of fixed size. -/
def readArr (n : ℕ) : Parser (Arr n) := do Parser.ofOption (Arr.ofBytes? n (← readBytes))

theorem readArr_reads {n : ℕ} {bs : Bytes} {a : Arr n} (h : readBytes.Reads bs a.1) :
    (readArr n).Reads bs a :=
  h.check (Arr.ofBytes?_val a)

theorem readArr_reads_seq {n : ℕ} (hn : n < 2 ^ 32) (a : Arr n) :
    (readArr n).Reads (seqBytes a.1) a :=
  readArr_reads (readBytes_reads_seq (by rw [a.2]; exact hn))

theorem readArr_reads_bin {n : ℕ} (hn : n < 2 ^ 32) (a : Arr n) : (readArr n).Reads (bin a.1) a :=
  readArr_reads (readBytes_reads_bin (by rw [a.2]; exact hn))

/-! ## Options and records -/

def option (enc : α → Bytes) : Option α → Bytes
  | none => [0xc0]
  | some a => enc a

/-- `nil` or the bare value: the marker is looked at, not consumed. -/
def readOption (p : Parser α) : Parser (Option α)
  | 0xc0 :: bs => some (none, bs)
  | bs => (some <$> p) bs

/-- A value whose encoding does not start with the marker of `nil`. -/
def NotNil (bs : Bytes) : Prop := bs.head? ≠ some 0xc0

theorem BytesForm.notNil {bs b : Bytes} (h : BytesForm bs b) : NotNil bs ∧ bs ≠ [] := by
  obtain ⟨x, xs, rfl, hx⟩ := h.eq_cons
  refine ⟨fun hhead => hx ?_, List.cons_ne_nil _ _⟩
  rw [List.head?_cons] at hhead
  exact Option.some.inj hhead

theorem readOption_reads_some {p : Parser α} {bs : Bytes} {a : α} (hn : NotNil bs) (he : bs ≠ [])
    (h : p.Reads bs a) : (readOption p).Reads bs (some a) := by
  intro rest
  obtain ⟨b, bs, rfl⟩ := List.exists_cons_of_ne_nil he
  have hb : b ≠ 0xc0 := fun hb => hn (by simp [hb])
  have hs : (some <$> p) (b :: bs ++ rest) = some (some a, rest) := h.last (f := some) rest
  rw [List.cons_append] at hs ⊢
  rw [readOption]
  · exact hs
  · intro bs' he'; cases he'; exact hb rfl

theorem readOption_reads {enc : α → Bytes} {p : Parser α} {o : Option α}
    (h : ∀ a, o = some a → NotNil (enc a) ∧ enc a ≠ [] ∧ p.Reads (enc a) a) :
    (readOption p).Reads (option enc o) o := by
  cases o with
  | none => exact fun _ => rfl
  | some a =>
    obtain ⟨h1, h2, h3⟩ := h a rfl
    exact readOption_reads_some h1 h2 h3

/-- The forms of an option. -/
inductive OptionForm (form : Bytes → α → Prop) : Bytes → Option α → Prop
  | none : OptionForm form [0xc0] none
  | some {bs a} : form bs a → OptionForm form bs (some a)

theorem OptionForm.reads {form : Bytes → α → Prop} {p : Parser α} {bs : Bytes} {o : Option α}
    (hp : ∀ bs a, form bs a → NotNil bs ∧ bs ≠ [] ∧ p.Reads bs a) (h : OptionForm form bs o) :
    (readOption p).Reads bs o := by
  cases h with
  | none => exact fun _ => rfl
  | some ha =>
    obtain ⟨h1, h2, h3⟩ := hp _ _ ha
    exact readOption_reads_some h1 h2 h3

/-- A field of a record with `n` fields present. -/
def field (n i : ℕ) (p : Parser α) : Parser α := if i < n then p else .fail

/-- A trailing field with a default. -/
def fieldOr (n i : ℕ) (d : α) (p : Parser α) : Parser α := if i < n then p else pure d

theorem field_reads {n i : ℕ} {p : Parser α} {bs : Bytes} {a : α} (hi : i < n)
    (h : p.Reads bs a) : (field n i p).Reads bs a := by
  rw [field, if_pos hi]; exact h

theorem fieldOr_reads {n i : ℕ} {d : α} {p : Parser α} {bs : Bytes} {a : α} (hi : i < n)
    (h : p.Reads bs a) : (fieldOr n i d p).Reads bs a := by
  rw [fieldOr, if_pos hi]; exact h

/-- The forms of a trailing field: there, or left out for its default. -/
inductive FieldOrForm (n i : ℕ) (d : α) (form : Bytes → α → Prop) : Bytes → α → Prop
  | there {bs a} : i < n → form bs a → FieldOrForm n i d form bs a
  | absent : n ≤ i → FieldOrForm n i d form [] d

theorem FieldOrForm.reads {n i : ℕ} {d a : α} {form : Bytes → α → Prop} {p : Parser α} {bs : Bytes}
    (hp : ∀ bs a, form bs a → p.Reads bs a) (h : FieldOrForm n i d form bs a) :
    (fieldOr n i d p).Reads bs a := by
  cases h with
  | there hi ha => exact fieldOr_reads hi (hp _ _ ha)
  | absent hi =>
    rw [fieldOr, if_neg (by omega)]
    exact .pure d

/-- A trailing field that is there or not. -/
theorem fieldOr_reads_ite {n i : ℕ} {d : α} {p : Parser α} {bs : Bytes} {a : α}
    (h : p.Reads bs a) :
    (fieldOr n i d p).Reads (if i < n then bs else []) (if i < n then a else d) := by
  unfold fieldOr
  split_ifs
  · exact h
  · exact .pure d

theorem field_never {n i : ℕ} {p : Parser α} (h : n ≤ i) : (field n i p).Never := by
  rw [field, if_neg (by omega)]
  exact .fail

/-- A record of at most `k` fields; `f n` reads the fields of a record in which
    `n` are present. -/
def readRecord (k : ℕ) (f : ℕ → Parser α) : Parser α := do
  let n ← readArrayHeader
  let a ← f n
  if n ≤ k then return a else .fail

theorem HeaderForm.readRecord {k n : ℕ} {f : ℕ → Parser α} {header bs : Bytes} {a : α}
    (hheader : HeaderForm header n) (hn : n ≤ k) (h : (f n).Reads bs a) :
    (readRecord k f).Reads (header ++ bs) a := by
  refine hheader.reads.bind ?_
  have hpure : (if n ≤ k then pure a else .fail : Parser α).Reads [] a := by
    rw [if_pos hn]
    exact .pure a
  have := h.bind (f := fun a => if n ≤ k then pure a else .fail) hpure
  simpa using this

theorem readRecord_reads {k n : ℕ} {f : ℕ → Parser α} {bs : Bytes} {a : α} (hn : n ≤ k)
    (hk : k < 2 ^ 32) (h : (f n).Reads bs a) :
    (readRecord k f).Reads (arrayHeader n ++ bs) a :=
  (arrayHeader_form (by omega)).readRecord hn h

/-- A record with too few or too many fields. -/
theorem readRecord_none {k n : ℕ} {f : ℕ → Parser α} {bytes rest : Bytes}
    (h : readArrayHeader bytes = some (n, rest)) (hf : (f n).Never ∨ k < n) :
    readRecord k f bytes = none := by
  rw [readRecord, Parser.bind_apply, h, Option.bind_some]
  rcases hf with hf | hn
  · exact hf.bind_left rest
  · refine Parser.Never.bind _ (fun a => ?_) rest
    rw [if_neg (by omega)]
    exact .fail

/-- `from_slice`: read a value and ignore what follows it. -/
def fromSlice (p : Parser α) (bs : Bytes) : Option α := (p bs).map Prod.fst

theorem fromSlice_reads {p : Parser α} {bs : Bytes} {a : α} (h : p.Reads bs a) :
    fromSlice p bs = some a := by
  have h := h []
  rw [List.append_nil] at h
  rw [fromSlice, h, Option.map_some]

/-! ## Sizes -/

/-- The number of bytes of an integer. -/
def uintSize (n : ℕ) : ℕ :=
  if n < 128 then 1 else if n < 2 ^ 8 then 2 else if n < 2 ^ 16 then 3
  else if n < 2 ^ 32 then 5 else 9

/-- The number of bytes of an array header. -/
def headerSize (n : ℕ) : ℕ := if n < 16 then 1 else if n < 2 ^ 16 then 3 else 5

/-- The number of bytes at or above `128`, which take two bytes in a sequence. -/
def highBytes (b : Bytes) : ℕ := b.countP fun x => 128 ≤ x.toNat

/-- The number of bytes of a byte string as a sequence. -/
def seqSize (b : Bytes) : ℕ := headerSize b.length + b.length + highBytes b

theorem length_uint (n : ℕ) : (uint n).length = uintSize n := by
  unfold uint uintSize
  split_ifs <;> simp

theorem uintSize_le (n : ℕ) : uintSize n ≤ 9 := by
  unfold uintSize
  split_ifs <;> omega

theorem length_arrayHeader (n : ℕ) : (arrayHeader n).length = headerSize n := by
  unfold arrayHeader headerSize
  split_ifs <;> simp

theorem headerSize_le (n : ℕ) : headerSize n ≤ 5 := by
  unfold headerSize
  split_ifs <;> omega

theorem length_array (enc : α → Bytes) (as : List α) :
    (array enc as).length = headerSize as.length + (as.map fun a => (enc a).length).sum := by
  rw [array, List.length_append, length_arrayHeader, List.length_flatMap]

theorem length_u8 (b : UInt8) : (u8 b).length = if 128 ≤ b.toNat then 2 else 1 := by
  have := b.toNat_lt
  rw [u8, length_uint, uintSize]
  split_ifs <;> omega

theorem length_seqBytes (b : Bytes) : (seqBytes b).length = seqSize b := by
  have h : (b.flatMap u8).length = b.length + highBytes b := by
    induction b with
    | nil => rfl
    | cons x b ih =>
      rw [List.flatMap_cons, List.length_append, ih, length_u8, highBytes, highBytes,
        List.countP_cons, List.length_cons]
      simp only [decide_eq_true_eq]
      split_ifs <;> omega
  rw [seqBytes, array, List.length_append, length_arrayHeader, h, seqSize]
  omega

theorem length_bin {b : Bytes} (h : b.length < 2 ^ 8) : (bin b).length = 2 + b.length := by
  rw [bin, if_pos h, List.length_append, List.length_cons, length_toBe]

theorem highBytes_le (b : Bytes) : highBytes b ≤ b.length := List.countP_le_length

theorem seqSize_le (b : Bytes) : seqSize b ≤ 5 + 2 * b.length := by
  have h1 := headerSize_le b.length
  have h2 := highBytes_le b
  rw [seqSize]
  omega

@[simp] theorem highBytes_replicate (n : ℕ) (x : UInt8) :
    highBytes (List.replicate n x) = if 128 ≤ x.toNat then n else 0 := by
  simp [highBytes, List.countP_replicate]

end MsgPack
