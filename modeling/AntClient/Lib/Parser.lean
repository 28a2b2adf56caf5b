/-
  Parsers for binary formats.

  A parser reads a value from the front of a byte string and returns the rest.
  `p.Reads bs a` says that `p` reads exactly `bs` as the value `a`, whatever
  follows: an encoding is self-delimiting when its parser `Reads` it.  The rules
  follow the parsers' structure, so the round trip of a format is assembled from
  those of its components.
-/
import AntClient.Lib.Bytes

/-- A parser of values of type `α`. -/
def Parser (α : Type) := Bytes → Option (α × Bytes)

namespace Parser

variable {α β : Type}

instance : Monad Parser where
  pure a := fun bs => some (a, bs)
  bind p f := fun bs => (p bs).bind fun x => f x.1 x.2

@[simp] theorem pure_apply (a : α) (bs : Bytes) : (pure a : Parser α) bs = some (a, bs) := rfl

@[simp] theorem bind_apply (p : Parser α) (f : α → Parser β) (bs : Bytes) :
    (p >>= f) bs = (p bs).bind fun x => f x.1 x.2 := rfl

/-- The parser that rejects every input. -/
def fail : Parser α := fun _ => none

@[simp] theorem fail_apply (bs : Bytes) : (fail : Parser α) bs = none := rfl

/-- The value of an option, or a rejection. -/
def ofOption : Option α → Parser α
  | some a => pure a
  | none => fail

/-- One byte. -/
def byte : Parser UInt8
  | [] => none
  | b :: bs => some (b, bs)

/-- The next `n` bytes. -/
def take (n : ℕ) : Parser Bytes := fun bs =>
  if n ≤ bs.length then some (bs.take n, bs.drop n) else none

/-- A byte array of fixed size. -/
def arr (n : ℕ) : Parser (Arr n) := fun bs =>
  if h : n ≤ bs.length then some (⟨bs.take n, by simp [h]⟩, bs.drop n) else none

/-- `n` values, one after the other. -/
def times (p : Parser α) : ℕ → Parser (List α)
  | 0 => pure []
  | n + 1 => do
    let a ← p
    let as ← times p n
    return a :: as

theorem bind_eq_none {p : Parser α} {bs : Bytes} (h : p bs = none) (f : α → Parser β) :
    (p >>= f) bs = none := by
  rw [bind_apply, h]
  rfl

/-! ## Reading an encoding -/

/-- `p` reads `bs` as `a` and leaves what follows. -/
def Reads (p : Parser α) (bs : Bytes) (a : α) : Prop := ∀ rest, p (bs ++ rest) = some (a, rest)

namespace Reads

theorem pure (a : α) : (Pure.pure a : Parser α).Reads [] a := fun _ => rfl

theorem bind {p : Parser α} {f : α → Parser β} {bs cs : Bytes} {a : α} {b : β}
    (hp : p.Reads bs a) (hf : (f a).Reads cs b) : (p >>= f).Reads (bs ++ cs) b := by
  intro rest
  rw [bind_apply, List.append_assoc, hp]
  exact hf rest

/-- What comes next is not readable. -/
theorem bind_none {p : Parser α} {f : α → Parser β} {bs cs : Bytes} {a : α} (hp : p.Reads bs a)
    (hf : f a cs = none) : (p >>= f) (bs ++ cs) = none := by
  rw [bind_apply, hp]
  exact hf

/-- The last component of a record. -/
theorem last {p : Parser α} {f : α → β} {bs : Bytes} {a : α} (hp : p.Reads bs a) :
    (p >>= fun a => Pure.pure (f a)).Reads bs (f a) := by
  simpa using bind hp (f := fun a => Pure.pure (f a)) (pure (f a))

theorem byte (b : UInt8) : Parser.byte.Reads [b] b := fun _ => rfl

theorem take {bs : Bytes} {n : ℕ} (h : bs.length = n) : (Parser.take n).Reads bs bs := by
  intro rest
  subst h
  simp [Parser.take]

theorem arr {n : ℕ} (a : Arr n) : (Parser.arr n).Reads a.1 a := by
  intro rest
  have h : n ≤ (a.1 ++ rest).length := by simp
  rw [Parser.arr, dif_pos h]
  congr 2
  · exact Subtype.ext (by simp [List.take_left' a.2])
  · exact List.drop_left' a.2

/-- Encodings one after the other, each with the value it is read as. -/
theorem times_map {γ : Type} {p : Parser α} {enc : γ → Bytes} {val : γ → α} :
    ∀ {xs : List γ} {n : ℕ}, xs.length = n → (∀ x ∈ xs, p.Reads (enc x) (val x)) →
      (Parser.times p n).Reads (xs.flatMap enc) (xs.map val)
  | [], _, rfl, _ => pure []
  | x :: xs, _, rfl, h => by
    have hx := h x List.mem_cons_self
    have hxs : (Parser.times p xs.length).Reads (xs.flatMap enc) (xs.map val) :=
      times_map rfl fun y hy => h y (List.mem_cons_of_mem _ hy)
    exact hx.bind hxs.last

/-- The encodings of a list of values, one after the other. -/
theorem times {p : Parser α} {enc : α → Bytes} {as : List α} {n : ℕ} (hl : as.length = n)
    (h : ∀ a ∈ as, p.Reads (enc a) a) : (Parser.times p n).Reads (as.flatMap enc) as := by
  have hmap : (Parser.times p n).Reads (as.flatMap enc) (as.map fun a => a) := times_map hl h
  rwa [List.map_id'] at hmap

/-- A last step that may reject the value. -/
theorem check {p : Parser α} {f : α → Option β} {bs : Bytes} {a : α} {b : β} (hp : p.Reads bs a)
    (h : f a = some b) : (p >>= fun a => ofOption (f a)).Reads bs b := by
  intro rest
  rw [bind_apply, hp, Option.bind_some, h]
  rfl

/-- Two encodings read by one parser are equal only for equal values. -/
theorem inj {p : Parser α} {bs : Bytes} {a b : α} (ha : p.Reads bs a) (hb : p.Reads bs b) :
    a = b := by
  have h := (ha []).symm.trans (hb [])
  simpa using h

end Reads

/-! ## Rejecting -/

/-- `p` rejects every input. -/
def Never (p : Parser α) : Prop := ∀ bs, p bs = none

namespace Never

theorem fail : (Parser.fail : Parser α).Never := fun _ => rfl

theorem bind_left {p : Parser α} {f : α → Parser β} (h : p.Never) : (p >>= f).Never :=
  fun bs => bind_eq_none (h bs) f

theorem bind (p : Parser α) {f : α → Parser β} (h : ∀ a, (f a).Never) : (p >>= f).Never := by
  intro bs
  rw [bind_apply]
  cases p bs with
  | none => rfl
  | some x => exact h x.1 x.2

end Never

/-! ## What a parser can return -/

/-- Every value read by `p` satisfies `P`. -/
def Yields (p : Parser α) (P : α → Prop) : Prop := ∀ bs a rest, p bs = some (a, rest) → P a

namespace Yields
variable {P Q : α → Prop}

theorem pure {a : α} (h : P a) : (Pure.pure a : Parser α).Yields P := by
  intro bs b rest hb
  cases hb; exact h

theorem bind {p : Parser α} {f : α → Parser β} {R : β → Prop} (hp : p.Yields P)
    (hf : ∀ a, P a → (f a).Yields R) : (p >>= f).Yields R := by
  intro bs b rest hb
  rw [bind_apply, Option.bind_eq_some_iff] at hb
  obtain ⟨⟨a, bs'⟩, h1, h2⟩ := hb
  exact hf a (hp _ _ _ h1) _ _ _ h2

theorem trivial (p : Parser α) : p.Yields fun _ => True := fun _ _ _ _ => True.intro

theorem fail : (Parser.fail : Parser α).Yields P := by
  intro bs a rest h
  cases h

theorem take (n : ℕ) : (Parser.take n).Yields fun bs => bs.length = n := by
  intro bs a rest h
  unfold Parser.take at h
  split_ifs at h with hn
  cases h
  simpa using hn

theorem times {p : Parser α} (hp : p.Yields P) :
    ∀ n, (Parser.times p n).Yields fun as => as.length = n ∧ ∀ a ∈ as, P a
  | 0 => pure ⟨rfl, by simp⟩
  | n + 1 => hp.bind fun _ ha => (times hp n).bind fun _ has =>
      pure ⟨by simp [has.1], List.forall_mem_cons.2 ⟨ha, has.2⟩⟩

end Yields

end Parser
