/-
  What a parser consumes.

  * `p.Consumes c k size`: `p` does not look beyond what it consumes, and the value it reads
    has at most the size of `c` times the bytes consumed and `k`.  The bytes that a record has
    consumed for its first fields pay for them, so that the size of the record is bounded by
    that of its encoding.
  * The postcard readers consume at least what the postcard encoders write: an encoding is
    the shortest one of its value.
  * The MessagePack readers consume at least half of what the encoders write: a `bin` takes
    one byte for what takes up to two in a sequence.
-/
import AntClient.Lib.MsgPack
import AntClient.Lib.Postcard

namespace Parser

variable {α β : Type} {c k n : ℕ} {size : α → ℕ}

/-- `p` pays `c` for each byte it consumes for the value it reads, and does not look further. -/
def Consumes (p : Parser α) (c k : ℕ) (size : α → ℕ) : Prop :=
  ∀ bs a rest, p bs = some (a, rest) →
    size a + c * rest.length ≤ k + c * bs.length ∧ ∀ more, p (bs ++ more) = some (a, rest ++ more)

namespace Consumes

theorem fail : (Parser.fail : Parser α).Consumes c k size := by
  intro bs a rest h
  cases h

theorem pure {a : α} (h : size a ≤ k) : (Pure.pure a : Parser α).Consumes c k size := by
  intro bs b rest hb
  cases hb
  exact ⟨Nat.add_le_add_right h _, fun more => rfl⟩

/-- What the first reader has left pays for the second. -/
theorem pass {p : Parser α} {f : α → Parser β} {m : α → ℕ} {size : β → ℕ} (hp : p.Consumes c k m)
    (hf : ∀ a, (f a).Consumes c (m a) size) : (p >>= f).Consumes c k size := by
  intro bs b rest h
  rw [bind_apply, Option.bind_eq_some_iff] at h
  obtain ⟨⟨a, bs'⟩, hpa, hfa⟩ := h
  obtain ⟨hlen, hmore⟩ := hp _ _ _ hpa
  obtain ⟨hlen', hmore'⟩ := hf a _ _ _ hfa
  refine ⟨?_, fun more => ?_⟩
  · dsimp only at hlen'
    omega
  · rw [bind_apply, hmore]
    exact hmore' more

theorem bind {p : Parser α} {f : α → Parser β} {m : α → ℕ} {size : β → ℕ} (hp : p.Consumes c 0 m)
    (hf : ∀ a, (f a).Consumes c (k + m a) size) : (p >>= f).Consumes c k size := by
  have hcredit : p.Consumes c k fun a => k + m a := by
    intro bs a rest h
    obtain ⟨hlen, hmore⟩ := hp _ _ _ h
    exact ⟨by dsimp only; omega, hmore⟩
  exact hcredit.pass hf

/-- The last component of a record. -/
theorem last {p : Parser α} {f : α → β} {m : α → ℕ} {size : β → ℕ} (hp : p.Consumes c 0 m)
    (h : ∀ a, size (f a) ≤ k + m a) : (p >>= fun a => Pure.pure (f a)).Consumes c k size :=
  hp.bind fun a => pure (h a)

theorem ofOption {o : Option α} (h : ∀ a, o = some a → size a ≤ k) :
    (Parser.ofOption o).Consumes c k size := by
  cases o with
  | none => exact fail
  | some a => exact pure (h a rfl)

/-- Paid for twice, or more often. -/
theorem scale {m : α → ℕ} {p : Parser α} (hp : p.Consumes 1 0 m) :
    p.Consumes c 0 fun a => c * m a := by
  intro bs a rest h
  obtain ⟨hlen, hmore⟩ := hp _ _ _ h
  refine ⟨?_, hmore⟩
  have hc := Nat.mul_le_mul_left c hlen
  rw [Nat.zero_add, Nat.one_mul, Nat.mul_add, Nat.one_mul] at hc
  rwa [Nat.zero_add]

theorem byte : Parser.byte.Consumes c 0 fun _ => c := by
  intro bs b rest h
  cases bs with
  | nil => cases h
  | cons b' bs =>
    cases h
    refine ⟨?_, fun more => rfl⟩
    dsimp only
    rw [List.length_cons, Nat.mul_succ]
    omega

theorem take (n : ℕ) : (Parser.take n).Consumes c 0 fun bs => c * bs.length := by
  intro bs b rest h
  unfold Parser.take at h ⊢
  split_ifs at h with hn
  cases h
  refine ⟨?_, fun more => ?_⟩
  · dsimp only
    rw [List.length_drop, List.length_take_of_le hn, ← Nat.mul_add, Nat.add_sub_cancel' hn]
    exact Nat.le_add_left _ 0
  · have hn' : n ≤ (bs ++ more).length := by
      rw [List.length_append]
      omega
    simp only [if_pos hn', List.take_append_of_le_length hn, List.drop_append_of_le_length hn]

theorem arr (n : ℕ) : (Parser.arr n).Consumes 1 0 fun _ => n := by
  intro bs a rest h
  unfold Parser.arr at h ⊢
  split_ifs at h with hn
  cases h
  refine ⟨?_, fun more => ?_⟩
  · dsimp only
    rw [List.length_drop]
    omega
  · have hn' : n ≤ (bs ++ more).length := by
      rw [List.length_append]
      omega
    simp only [dif_pos hn', List.take_append_of_le_length hn, List.drop_append_of_le_length hn]

/-- Values one after the other. -/
theorem times {p : Parser α} {enc : α → Bytes} (hp : p.Consumes c 0 fun a => (enc a).length) :
    ∀ n, (Parser.times p n).Consumes c 0 fun as => (as.flatMap enc).length
  | 0 => pure (Nat.le_refl 0)
  | n + 1 => hp.bind fun a => (times hp n).last fun as => by
      rw [List.flatMap_cons, List.length_append]
      omega

/-- Another size, of the values that can be read. -/
theorem mono {p : Parser α} {m : α → ℕ} {P : α → Prop} (hp : p.Consumes c 0 m) (hy : p.Yields P)
    (h : ∀ a, P a → size a ≤ k + m a) : p.Consumes c k size := by
  intro bs a rest hb
  obtain ⟨hlen, hmore⟩ := hp _ _ _ hb
  have ha := h a (hy _ _ _ hb)
  exact ⟨by omega, hmore⟩

end Consumes

end Parser

namespace Postcard

open Parser (Consumes)

variable {α : Type}

/-! ## Varints -/

/-- Larger integers have longer varints. -/
theorem length_varint_mono {m n : ℕ} (h : m ≤ n) : ∀ k, (varint k m).length ≤ (varint k n).length
  | 0 => Nat.le_refl 0
  | k + 1 => by
    rw [varint, varint]
    by_cases hm : m < 128
    · rw [if_pos hm]
      split_ifs <;> simp
    · have hn : ¬ n < 128 := by omega
      rw [if_neg hm, if_neg hn, List.length_cons, List.length_cons]
      exact Nat.succ_le_succ (length_varint_mono (Nat.div_le_div_right h) k)

/-- No varint of an integer is shorter than the one that is written. -/
theorem readVarint_consumes (m : ℕ) : ∀ k,
    (readVarint m k).Consumes 1 0 fun n => (varint k n).length
  | 0 => .fail
  | k + 1 => by
    refine Consumes.byte.bind fun b => ?_
    have hb := b.toNat_lt
    split_ifs with h1 h2
    · exact .fail
    · exact .pure (Nat.le_of_eq (length_varint_small h1))
    · refine (readVarint_consumes m k).last fun n => ?_
      have hd : (b.toNat - 128 + 128 * n) / 128 = n := by omega
      by_cases hn : b.toNat - 128 + 128 * n < 128
      · rw [length_varint_small hn]
        omega
      · rw [varint, if_neg hn, hd, List.length_cons]
        omega

theorem readUint_consumes (w : ℕ) : (readUint w).Consumes 1 0 fun n => (uint w n).length :=
  readVarint_consumes _ _

theorem length_uint_le {w m n : ℕ} (h : m ≤ n) : (uint w m).length ≤ 0 + (uint w n).length :=
  Nat.le_trans (length_varint_mono h _) (Nat.le_add_left _ 0)

theorem readU16_consumes : readU16.Consumes 1 0 fun n => (u16 n).length := by
  refine (readUint_consumes 16).last fun n => ?_
  have hn : (UInt16.ofNat n).toNat ≤ n := UInt16.toNat_ofNat' ▸ Nat.mod_le n (2 ^ 16)
  exact length_uint_le hn

theorem readU32_consumes : readU32.Consumes 1 0 fun n => (u32 n).length := by
  refine (readUint_consumes 32).last fun n => ?_
  have hn : (UInt32.ofNat n).toNat ≤ n := UInt32.toNat_ofNat' ▸ Nat.mod_le n (2 ^ 32)
  exact length_uint_le hn

theorem readU64_consumes : readU64.Consumes 1 0 fun n => (u64 n).length := by
  refine (readUint_consumes 64).last fun n => ?_
  have hn : (UInt64.ofNat n).toNat ≤ n := UInt64.toNat_ofNat' ▸ Nat.mod_le n (2 ^ 64)
  exact length_uint_le hn

theorem readUsize_consumes : readUsize.Consumes 1 0 fun n => (usize n).length := by
  refine (readUint_consumes 64).bind fun n => .ofOption fun a ha => ?_
  split_ifs at ha with h
  cases ha
  have hn : (UInt32.ofNat n).toNat ≤ n := UInt32.toNat_ofNat' ▸ Nat.mod_le n (2 ^ 32)
  exact length_uint_le hn

theorem readBool_consumes : readBool.Consumes 1 0 fun b => (bool b).length := by
  refine Consumes.byte.bind fun b => ?_
  split
  · exact .pure (Nat.le_refl 1)
  · exact .pure (Nat.le_refl 1)
  · exact .fail

theorem readVariant_consumes : readVariant.Consumes 1 0 fun i => (variant i).length :=
  readUint_consumes 32

/-! ## Options, byte strings, strings and vectors -/

theorem readOption_consumes {enc : α → Bytes} {p : Parser α}
    (hp : p.Consumes 1 0 fun a => (enc a).length) :
    (readOption p).Consumes 1 0 fun o => (option enc o).length := by
  refine Consumes.byte.bind fun b => ?_
  split
  · exact .pure (Nat.le_refl 1)
  · refine hp.last fun a => ?_
    rw [option, List.length_cons]
    omega
  · exact .fail

theorem readBytes_consumes : readBytes.Consumes 1 0 fun b => (bytes b).length := by
  refine (readUint_consumes 32).bind fun n => (Consumes.take n).mono (.take n) fun b hb => ?_
  rw [bytes, List.length_append, hb]
  omega

/-- A string is the bytes that it was read from. -/
theorem utf8_fromUTF8 {b : Bytes} {s : String} (h : String.fromUTF8? ⟨b.toArray⟩ = some s) :
    utf8 s = b := by
  unfold String.fromUTF8? at h
  split_ifs at h with hv
  cases h
  rfl

theorem readString_consumes : readString.Consumes 1 0 fun s => (string s).length := by
  refine readBytes_consumes.bind fun b => .ofOption fun s hs => ?_
  rw [string, utf8_fromUTF8 hs]
  omega

theorem readVec_consumes {enc : α → Bytes} {p : Parser α}
    (hp : p.Consumes 1 0 fun a => (enc a).length) :
    (readVec p).Consumes 1 0 fun as => (vec enc as).length := by
  refine (readUint_consumes 32).bind fun n =>
    (Consumes.times hp n).mono (Parser.Yields.times (.trivial p) n) fun as has => ?_
  rw [vec, List.length_append, has.1]
  omega

/-! ## Messages -/

theorem fromBytes_consumes {p : Parser α} {enc : α → Bytes} {bs : Bytes} {a : α}
    (hp : p.Consumes 1 0 fun a => (enc a).length) (h : fromBytes p bs = some a) :
    (enc a).length ≤ bs.length ∧ ∀ more, fromBytes p (bs ++ more) = some a := by
  obtain ⟨⟨a', rest⟩, hget, rfl⟩ := Option.map_eq_some_iff.1 h
  obtain ⟨hlen, hmore⟩ := hp _ _ _ hget
  refine ⟨?_, fun more => ?_⟩
  · dsimp only at hlen ⊢
    omega
  · rw [fromBytes, hmore, Option.map_some]

end Postcard

namespace MsgPack

open Bytes Parser

variable {α : Type} {c k : ℕ}

/-! ## MessagePack: integers and headers -/

theorem readBe_consumes (w : ℕ) : (readBe w).Consumes 1 0 fun _ => w :=
  ((Consumes.take w).mono (.take w) fun bs hbs => by omega).last fun bs => Nat.le_add_left w 0

theorem readBe_yields (w : ℕ) : (readBe w).Yields (· < 256 ^ w) :=
  (Yields.take w).bind fun bs hbs => .pure (hbs ▸ beNat_lt bs)

/-- An integer after its marker. -/
theorem readBe_pays {w : ℕ} {size : ℕ → ℕ} (h : ∀ n < 256 ^ w, size n ≤ k + w) :
    (readBe w).Consumes 1 k size :=
  (readBe_consumes w).mono (readBe_yields w) h

/-- No integer is read from fewer bytes than are written for it. -/
theorem readUint_consumes (m : ℕ) : (readUint m).Consumes 1 0 uintSize := by
  have hmax : ∀ n,
      (if n ≤ m then pure n else .fail : Parser ℕ).Consumes 1 (uintSize n) uintSize := by
    intro n
    split_ifs
    · exact .pure (Nat.le_refl _)
    · exact .fail
  refine Consumes.byte.bind fun b => ?_
  dsimp only
  split
  · refine (readBe_pays fun n hn => ?_).pass hmax
    unfold uintSize
    split_ifs <;> omega
  · refine (readBe_pays fun n hn => ?_).pass hmax
    unfold uintSize
    split_ifs <;> omega
  · refine (readBe_pays fun n hn => ?_).pass hmax
    unfold uintSize
    split_ifs <;> omega
  · exact (readBe_pays fun n hn => uintSize_le n).pass hmax
  · split_ifs with hn
    · have hpure : (pure b.toNat : Parser ℕ).Consumes 1 1 uintSize :=
        .pure (Nat.le_of_eq (if_pos hn))
      exact hpure.pass hmax
    · exact Consumes.fail.pass hmax

theorem uintSize_mono {m n : ℕ} (h : m ≤ n) : uintSize m ≤ uintSize n := by
  unfold uintSize
  split_ifs <;> omega

theorem readU64_consumes : readU64.Consumes 1 0 fun n => uintSize n.toNat := by
  refine (readUint_consumes _).last fun n => ?_
  have hn : (UInt64.ofNat n).toNat ≤ n := UInt64.toNat_ofNat' ▸ Nat.mod_le n (2 ^ 64)
  exact (Nat.zero_add _).symm ▸ uintSize_mono hn

theorem readU32_consumes : readU32.Consumes 1 0 fun n => uintSize n.toNat := by
  refine (readUint_consumes _).last fun n => ?_
  have hn : (UInt32.ofNat n).toNat ≤ n := UInt32.toNat_ofNat' ▸ Nat.mod_le n (2 ^ 32)
  exact (Nat.zero_add _).symm ▸ uintSize_mono hn

theorem readU8_consumes : readU8.Consumes 1 0 fun b => (u8 b).length := by
  refine (readUint_consumes _).last fun n => ?_
  have hn : (UInt8.ofNat n).toNat ≤ n := UInt8.toNat_ofNat' ▸ Nat.mod_le n (2 ^ 8)
  rw [u8, length_uint, Nat.zero_add]
  exact uintSize_mono hn

theorem readArrayHeader_consumes : readArrayHeader.Consumes 1 0 headerSize := by
  refine Consumes.byte.bind fun b => ?_
  split
  · refine readBe_pays fun n hn => ?_
    unfold headerSize
    split_ifs <;> omega
  · exact readBe_pays fun n hn => headerSize_le n
  · split_ifs with hn
    · refine .pure ?_
      unfold headerSize
      split_ifs <;> omega
    · exact .fail

theorem readArrayHeader_yields : readArrayHeader.Yields (· < 2 ^ 32) := by
  refine (Yields.trivial _).bind fun b _ => ?_
  split
  · intro bs n rest h
    have hn : n < 2 ^ 16 := readBe_yields 2 bs n rest h
    omega
  · exact readBe_yields 4
  · split_ifs with hn
    · exact .pure (by have := b.toNat_lt; omega)
    · exact .fail

/-! ## MessagePack: sequences and bytes -/

theorem readArray_consumes {enc : α → Bytes} {p : Parser α} (hc : 1 ≤ c)
    (hp : p.Consumes c 0 fun a => (enc a).length) :
    (readArray p).Consumes c 0 fun as => (array enc as).length := by
  refine readArrayHeader_consumes.scale.bind fun n =>
    (Consumes.times hp n).mono (Parser.Yields.times (.trivial p) n) fun as has => ?_
  have hn := Nat.mul_le_mul_right (headerSize n) hc
  rw [Nat.one_mul] at hn
  rw [array, List.length_append, length_arrayHeader, has.1]
  omega

theorem readArray_yields {p : Parser α} {P : α → Prop} (hp : p.Yields P) :
    (readArray p).Yields fun as => as.length < 2 ^ 32 ∧ ∀ a ∈ as, P a :=
  readArrayHeader_yields.bind fun n hn bs as rest h =>
    have has := Yields.times hp n bs as rest h
    ⟨has.1 ▸ hn, has.2⟩

/-- A `bin` after its marker, which pays two. -/
theorem readBin_consumes {w : ℕ} (h : ∀ n < 256 ^ w, headerSize n ≤ 2 + 2 * w) :
    (readBin w).Consumes 2 2 seqSize := by
  have hbe : (readBe w).Consumes 2 2 headerSize :=
    (readBe_consumes w).scale.mono (readBe_yields w) h
  refine hbe.pass fun n => (Consumes.take n).mono (.take n) fun b hb => ?_
  have hhigh := highBytes_le b
  rw [seqSize, hb]
  omega

theorem readSeq_consumes : (readArray readU8).Consumes 2 0 seqSize := by
  have hseq : (readArray readU8).Consumes 1 0 fun b => (seqBytes b).length :=
    readArray_consumes (Nat.le_refl 1) readU8_consumes
  refine hseq.scale.mono (.trivial _) fun b _ => ?_
  rw [length_seqBytes]
  omega

/-- Bytes take at most twice as many when they are written as a sequence. -/
theorem readBytes_consumes : readBytes.Consumes 2 0 seqSize := by
  have h1 : ∀ n < 256 ^ 1, headerSize n ≤ 2 + 2 * 1 := by
    intro n hn
    unfold headerSize
    split_ifs <;> omega
  have hwide : ∀ w, 2 ≤ w → ∀ n < 256 ^ w, headerSize n ≤ 2 + 2 * w := by
    intro w hw n hn
    have hn := headerSize_le n
    omega
  intro bs b rest h
  unfold readBytes at h
  split at h
  · obtain ⟨hlen, hmore⟩ := readBin_consumes h1 _ _ _ h
    exact ⟨by rw [List.length_cons]; omega, hmore⟩
  · obtain ⟨hlen, hmore⟩ := readBin_consumes (hwide 2 (by decide)) _ _ _ h
    exact ⟨by rw [List.length_cons]; omega, hmore⟩
  · obtain ⟨hlen, hmore⟩ := readBin_consumes (hwide 4 (by decide)) _ _ _ h
    exact ⟨by rw [List.length_cons]; omega, hmore⟩
  · rename_i h4 h5 h6
    obtain ⟨hlen, hmore⟩ := readSeq_consumes _ _ _ h
    refine ⟨hlen, fun more => ?_⟩
    cases bs with
    | nil => cases h
    | cons x xs =>
      rw [List.cons_append, readBytes]
      · exact hmore more
      · rintro bs he
        cases he
        exact h4 _ rfl
      · rintro bs he
        cases he
        exact h5 _ rfl
      · rintro bs he
        cases he
        exact h6 _ rfl

theorem readBytes_yields : readBytes.Yields fun b => b.length < 2 ^ 32 := by
  have hbin : ∀ w ≤ 4, (readBin w).Yields fun b => b.length < 2 ^ 32 := by
    intro w hw
    refine (readBe_yields w).bind fun n hn bs b rest h => ?_
    have hb : b.length = n := Yields.take n _ _ _ h
    have hpow : 256 ^ w ≤ 256 ^ 4 := Nat.pow_le_pow_right (by decide) hw
    omega
  intro bs b rest h
  unfold readBytes at h
  split at h
  · exact hbin 1 (by decide) _ _ _ h
  · exact hbin 2 (by decide) _ _ _ h
  · exact hbin 4 (by decide) _ _ _ h
  · exact (readArray_yields (.trivial _) _ _ _ h).1

/-- An array in a sequence takes at most twice the bytes that it was read from. -/
theorem readArr_consumes (n : ℕ) : (readArr n).Consumes 2 0 fun a => seqSize a.1 := by
  refine readBytes_consumes.bind fun b => .ofOption fun a ha => ?_
  rw [Arr.ofBytes?_eq_some.1 ha]
  omega

/-! ## MessagePack: options and records -/

theorem readOption_consumes {p : Parser α} {m : α → ℕ} (hc : 1 ≤ c) (hp : p.Consumes c 0 m)
    (hm : ∀ a, 0 < m a) : (readOption p).Consumes c 0 fun o => o.elim 1 m := by
  intro bs o rest h
  unfold readOption at h
  split at h
  · cases h
    refine ⟨?_, fun more => rfl⟩
    rw [List.length_cons, Nat.mul_succ]
    show 1 + _ ≤ _
    omega
  · rename_i h0
    have hsome : (some <$> p).Consumes c 0 fun o => o.elim 1 m :=
      hp.last fun a => Nat.le_add_left _ 0
    obtain ⟨hlen, hmore⟩ := hsome _ _ _ h
    refine ⟨hlen, fun more => ?_⟩
    cases bs with
    | nil =>
      -- nothing is read from nothing
      cases o with
      | none => simp at hlen
      | some a =>
        have ha := hm a
        simp only [Option.elim_some, List.length_nil] at hlen
        omega
    | cons x xs =>
      rw [List.cons_append, readOption]
      · exact hmore more
      · rintro bs he
        cases he
        exact h0 _ rfl

theorem field_consumes {n i : ℕ} {p : Parser α} {m : α → ℕ} (hp : p.Consumes c 0 m) :
    (field n i p).Consumes c 0 m := by
  unfold field
  split_ifs
  · exact hp
  · exact .fail

/-- A default has to be paid for by the fields before it. -/
theorem fieldOr_consumes {n i : ℕ} {d : α} {p : Parser α} {m : α → ℕ} (hp : p.Consumes c 0 m) :
    (fieldOr n i d p).Consumes c 0 fun a => m a - m d := by
  unfold fieldOr
  split_ifs
  · exact hp.mono (.trivial p) fun a _ => by omega
  · exact .pure (Nat.le_of_eq (Nat.sub_self _))

/-- The header of a record pays `c`. -/
theorem readRecord_consumes {n : ℕ} {f : ℕ → Parser α} {m : α → ℕ}
    (hf : ∀ i, (f i).Consumes c c m) : (readRecord n f).Consumes c 0 m := by
  have hheader : readArrayHeader.Consumes c 0 fun _ => c :=
    readArrayHeader_consumes.scale.mono (.trivial _) fun i _ => by
      have hi : 1 ≤ headerSize i := by
        unfold headerSize
        split_ifs <;> omega
      have hc := Nat.mul_le_mul_left c hi
      omega
  refine hheader.pass fun i => (hf i).pass fun a => ?_
  split_ifs
  · exact .pure (Nat.le_refl _)
  · exact .fail

theorem field_yields {n i : ℕ} {p : Parser α} {P : α → Prop} (hp : p.Yields P) :
    (field n i p).Yields P := by
  unfold field
  split_ifs
  · exact hp
  · exact .fail

theorem fieldOr_yields {n i : ℕ} {d : α} {p : Parser α} {P : α → Prop} (hp : p.Yields P)
    (hd : P d) : (fieldOr n i d p).Yields P := by
  unfold fieldOr
  split_ifs
  · exact hp
  · exact .pure hd

theorem readRecord_yields {n : ℕ} {f : ℕ → Parser α} {P : α → Prop}
    (hf : ∀ i, (f i).Yields P) : (readRecord n f).Yields P :=
  readArrayHeader_yields.bind fun i _ => (hf i).bind fun a ha => by
    split_ifs
    · exact .pure ha
    · exact .fail

theorem fromSlice_consumes {p : Parser α} {m : α → ℕ} {bs : Bytes} {a : α} (hp : p.Consumes c 0 m)
    (h : fromSlice p bs = some a) :
    m a ≤ c * bs.length ∧ ∀ more, fromSlice p (bs ++ more) = some a := by
  obtain ⟨⟨a', rest⟩, hget, rfl⟩ := Option.map_eq_some_iff.1 h
  obtain ⟨hlen, hmore⟩ := hp _ _ _ hget
  refine ⟨?_, fun more => ?_⟩
  · dsimp only at hlen ⊢
    omega
  · rw [fromSlice, hmore, Option.map_some]

end MsgPack
