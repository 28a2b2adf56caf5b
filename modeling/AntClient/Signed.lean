/-
  What a signature and a quote hash bind.

  * `bytesForSig_append`: the signed bytes of a quote delimit themselves, whatever
    follows them.
  * `signed_bytes_bind`: equal signed bytes are equal signed fields, and the quotes of
    equal hashes differ in their nanoseconds at most.
-/
import AntClient.Quoting

namespace AntClient

open Bytes

/-- The fields that a signature covers. -/
structure SignedFields where
  content : XorName
  secs : UInt64
  price : Arr 32
  rewardsAddress : Arr 20
  committedKeyCount : UInt32
  commitmentPin : Option (Arr 32)

def Quote.signed (q : Quote) : SignedFields :=
  ⟨q.content, q.timestamp.secs, q.price, q.rewardsAddress, q.committedKeyCount, q.commitmentPin⟩

/-- A quote up to its nanoseconds. -/
def Quote.withoutNanos (q : Quote) : Quote := { q with timestamp := ⟨q.timestamp.secs, 0⟩ }

/-- What the quote hash is a hash of. -/
def hashedBytes (q : Quote) : Bytes := bytesForSig q ++ (q.pubKey ++ q.signature)

theorem toLe_inj {w m n : ℕ} (hm : m < 256 ^ w) (hn : n < 256 ^ w) (h : toLe w m = toLe w n) :
    m = n := toBe_inj hm hn (List.reverse_injective h)

/-- The pin tag, and the pin. -/
def pinBytes : Option (Arr 32) → Bytes
  | some pin => 1 :: pin.1
  | none => [0]

theorem bytesForSig_eq (q : Quote) : bytesForSig q =
    q.content.1 ++ (toLe 8 q.timestamp.secs.toNat ++ (q.price.1.reverse ++
      (q.rewardsAddress.1 ++ (toLe 4 q.committedKeyCount.toNat ++ pinBytes q.commitmentPin)))) := rfl

/-- The tag byte tells whether a pin follows. -/
theorem pinBytes_append {o₁ o₂ : Option (Arr 32)} {x y : Bytes}
    (h : pinBytes o₁ ++ x = pinBytes o₂ ++ y) : o₁ = o₂ ∧ x = y := by
  cases o₁ with
  | none =>
    cases o₂ with
    | none => exact ⟨rfl, by simpa [pinBytes] using h⟩
    | some pin => simp [pinBytes] at h
  | some pin =>
    cases o₂ with
    | none => simp [pinBytes] at h
    | some pin' =>
      obtain ⟨rfl, hxy⟩ := Arr.append_inj (List.cons.inj h).2
      exact ⟨rfl, hxy⟩

/-- **The signed bytes delimit themselves.** -/
theorem bytesForSig_append {q₁ q₂ : Quote} {x y : Bytes}
    (h : bytesForSig q₁ ++ x = bytesForSig q₂ ++ y) : q₁.signed = q₂.signed ∧ x = y := by
  simp only [bytesForSig_eq, List.append_assoc] at h
  obtain ⟨hcontent, h⟩ := Arr.append_inj h
  obtain ⟨hsecs, h⟩ := List.append_inj h (by simp)
  obtain ⟨hprice, h⟩ := List.append_inj h (by simp)
  obtain ⟨hrewards, h⟩ := Arr.append_inj h
  obtain ⟨hcount, h⟩ := List.append_inj h (by simp)
  obtain ⟨hpin, hxy⟩ := pinBytes_append h
  have hsecs' : q₁.timestamp.secs = q₂.timestamp.secs :=
    UInt64.toNat_inj.1 (toLe_inj (UInt64.toNat_lt _) (UInt64.toNat_lt _) hsecs)
  have hprice' : q₁.price = q₂.price := Subtype.ext (List.reverse_injective hprice)
  have hcount' : q₁.committedKeyCount = q₂.committedKeyCount :=
    UInt32.toNat_inj.1 (toLe_inj (UInt32.toNat_lt _) (UInt32.toNat_lt _) hcount)
  refine ⟨?_, hxy⟩
  rw [Quote.signed, Quote.signed, hcontent, hsecs', hprice', hrewards, hcount', hpin]

theorem bytesForSig_eq_iff {q₁ q₂ : Quote} :
    bytesForSig q₁ = bytesForSig q₂ ↔ q₁.signed = q₂.signed := by
  constructor
  · intro h
    exact (bytesForSig_append (congrArg (· ++ []) h)).1
  · intro h
    obtain ⟨h1, h2, h3, h4, h5, h6⟩ := SignedFields.mk.inj h
    rw [bytesForSig_eq, bytesForSig_eq, h1, h2, h3, h4, h5, h6]

theorem withoutNanos_eq_iff {q₁ q₂ : Quote} : q₁.withoutNanos = q₂.withoutNanos ↔
    q₁.signed = q₂.signed ∧ q₁.pubKey = q₂.pubKey ∧ q₁.signature = q₂.signature := by
  simp only [Quote.withoutNanos, Quote.signed, Quote.mk.injEq, Timestamp.mk.injEq,
    SignedFields.mk.injEq]
  tauto

variable (C : Crates)

/-- Verified quotes have keys of one length, so the key and the signature are told apart. -/
theorem hashedBytes_eq_iff {q₁ q₂ : Quote} (h₁ : verifyQuote C q₁) (h₂ : verifyQuote C q₂) :
    hashedBytes q₁ = hashedBytes q₂ ↔ q₁.withoutNanos = q₂.withoutNanos := by
  have hlen : q₁.pubKey.length = q₂.pubKey.length := by
    rw [(verifyQuote_lengths C h₁).1, (verifyQuote_lengths C h₂).1]
  rw [withoutNanos_eq_iff]
  constructor
  · intro h
    obtain ⟨hsigned, hrest⟩ := bytesForSig_append h
    exact ⟨hsigned, List.append_inj hrest hlen⟩
  · rintro ⟨hsigned, hkey, hsig⟩
    rw [hashedBytes, hashedBytes, bytesForSig_eq_iff.2 hsigned, hkey, hsig]

/-- **Signed bytes bind the quote**, and where Keccak-256 has no collision a quote hash
    identifies the signed quote. -/
theorem signed_bytes_bind :
    (∀ q₁ q₂ : Quote, bytesForSig q₁ = bytesForSig q₂ ↔
      q₁.content = q₂.content ∧ q₁.timestamp.secs = q₂.timestamp.secs ∧ q₁.price = q₂.price ∧
      q₁.rewardsAddress = q₂.rewardsAddress ∧ q₁.committedKeyCount = q₂.committedKeyCount ∧
      q₁.commitmentPin = q₂.commitmentPin) ∧
    (∀ q₁ q₂ : Quote, verifyQuote C q₁ → verifyQuote C q₂ →
      (hashedBytes q₁ = hashedBytes q₂ ↔ q₁.withoutNanos = q₂.withoutNanos)) ∧
    ∀ quotes : Set Quote, (∀ q ∈ quotes, verifyQuote C q) →
      Set.InjOn C.keccak256 (hashedBytes '' quotes) →
      ∀ q₁ ∈ quotes, ∀ q₂ ∈ quotes,
        (quoteHash C q₁ = quoteHash C q₂ ↔ q₁.withoutNanos = q₂.withoutNanos) := by
  refine ⟨?_, ?_, ?_⟩
  · intro q₁ q₂
    rw [bytesForSig_eq_iff, Quote.signed, Quote.signed, SignedFields.mk.injEq]
  · intro q₁ q₂ h₁ h₂
    exact hashedBytes_eq_iff C h₁ h₂
  · intro quotes hv hinj q₁ h₁ q₂ h₂
    rw [← hashedBytes_eq_iff C (hv q₁ h₁) (hv q₂ h₂)]
    exact hinj.eq_iff (Set.mem_image_of_mem _ h₁) (Set.mem_image_of_mem _ h₂)

/-- The quotes of one node for two contents: the transparent hash of such a quote is its
    content. -/
theorem signed_bytes_bind_honest :
    quoteHash .transparent (honestQuote (zeros 32) (zeros 32)) =
        quoteHash .transparent (honestQuote (Arr.replicate 32 1) (zeros 32)) ↔
      (honestQuote (zeros 32) (zeros 32)).withoutNanos =
        (honestQuote (Arr.replicate 32 1) (zeros 32)).withoutNanos := by
  have hhash : ∀ a, Crates.transparent.keccak256 (hashedBytes (honestQuote a (zeros 32))) = a := by
    intro a
    show first32 (a.1 ++ _ ++ _) = a
    rw [List.append_assoc, first32_append a.2.ge, first32_val]
  refine (signed_bytes_bind .transparent).2.2 (Set.range fun a => honestQuote a (zeros 32)) ?_ ?_
    _ (Set.mem_range_self _) _ (Set.mem_range_self _)
  · rintro _ ⟨a, rfl⟩
    exact verifyQuote_honestQuote a _
  · rintro _ ⟨_, ⟨a, rfl⟩, rfl⟩ _ ⟨_, ⟨b, rfl⟩, rfl⟩ h
    rw [hhash, hhash] at h
    rw [h]

end AntClient
