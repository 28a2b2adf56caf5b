/-
  What the payment decoders accept (`payment.rs`).

  A node may write a quote in many ways: as an array with integers and headers wider than
  needed, bytes as a `bin` or as a sequence, without the trailing fields, and with anything
  after it.  The proof that is stored with a chunk holds the quotes as `encode_quote` writes
  them.

  * `Quote.Form`, `PaymentProof.Form`: the array forms.  What the encoders write is one.
  * `payment_normal`: every quote and every proof in an array form is accepted, and written
    again in at most twice the bytes.
-/
import AntClient.Normal
import AntClient.Payment

namespace AntClient

open Bytes MsgPack Parser

/-! ## Array forms -/

/-- The forms of an array of bytes. -/
def ArrForm {n : ℕ} (bs : Bytes) (a : Arr n) : Prop := BytesForm bs a.1

inductive Timestamp.Form : Bytes → Timestamp → Prop
  | mk {header secs nanos t} : HeaderForm header 2 → UintForm secs t.secs.toNat →
      UintForm nanos t.nanos.toNat → Timestamp.Form (header ++ (secs ++ nanos)) t

/-- The forms of a quote.  The last two of the `n` fields may be left out. -/
inductive Quote.Form : Bytes → Quote → Prop
  | mk {n header content timestamp price rewardsAddress pubKey signature count pin q} :
      HeaderForm header n → 6 ≤ n → n ≤ 8 → ArrForm content q.content →
      Timestamp.Form timestamp q.timestamp → ArrForm price q.price →
      ArrForm rewardsAddress q.rewardsAddress → BytesForm pubKey q.pubKey →
      BytesForm signature q.signature →
      FieldOrForm n 6 0 (fun bs i => UintForm bs i.toNat) count q.committedKeyCount →
      FieldOrForm n 7 none (OptionForm ArrForm) pin q.commitmentPin →
      Quote.Form (header ++ (content ++ (timestamp ++ (price ++ (rewardsAddress ++
        (pubKey ++ (signature ++ (count ++ pin)))))))) q

/-- The forms of a `(PeerId, Quote)` pair. -/
inductive PeerQuoteForm : Bytes → XorName × Quote → Prop
  | mk {header peerId quote x} : HeaderForm header 2 → ArrForm peerId x.1 → Quote.Form quote x.2 →
      PeerQuoteForm (header ++ (peerId ++ quote)) x

inductive ProofOfPayment.Form : Bytes → ProofOfPayment → Prop
  | mk {header peers p} : HeaderForm header 1 → ArrayForm PeerQuoteForm peers p.peerQuotes →
      ProofOfPayment.Form (header ++ peers) p

/-- The forms of a proof after its tag.  The sidecars may be left out. -/
inductive PaymentProof.Form : Bytes → PaymentProof → Prop
  | mk {n header proof txHashes sidecars p} : HeaderForm header n → 2 ≤ n → n ≤ 3 →
      ProofOfPayment.Form proof p.proofOfPayment → ArrayForm ArrForm txHashes p.txHashes →
      FieldOrForm n 2 [] (ArrayForm BytesForm) sidecars p.commitmentSidecars →
      PaymentProof.Form (header ++ (proof ++ (txHashes ++ sidecars))) p

/-! ## The forms are read -/

theorem ArrForm.reads {n : ℕ} {bs : Bytes} {a : Arr n} (h : ArrForm bs a) :
    (readArr n).Reads bs a :=
  readArr_reads (BytesForm.reads h)

theorem Timestamp.Form.reads {bs : Bytes} {t : Timestamp} (h : Timestamp.Form bs t) :
    Timestamp.get.Reads bs t := by
  obtain ⟨hheader, hsecs, hnanos⟩ := h
  exact hheader.readRecord (by simp) <|
    (field_reads (by simp) hsecs.readU64).bind (field_reads (by simp) hnanos.readU32).last

theorem commitmentPin_form_reads {bs : Bytes} {o : Option (Arr 32)} (h : OptionForm ArrForm bs o) :
    (readOption (readArr 32)).Reads bs o :=
  h.reads fun _ _ ha =>
    have hnil := BytesForm.notNil ha
    ⟨hnil.1, hnil.2, ArrForm.reads ha⟩

theorem Quote.Form.reads {bs : Bytes} {q : Quote} (h : Quote.Form bs q) : Quote.get.Reads bs q := by
  obtain ⟨hheader, h6, h8, hcontent, htimestamp, hprice, hrewards, hpubKey, hsignature, hcount,
    hpin⟩ := h
  exact hheader.readRecord h8 <|
    (field_reads (by omega) hcontent.reads).bind <|
    (field_reads (by omega) htimestamp.reads).bind <|
    (field_reads (by omega) hprice.reads).bind <|
    (field_reads (by omega) hrewards.reads).bind <|
    (field_reads (by omega) hpubKey.reads).bind <|
    (field_reads (by omega) hsignature.reads).bind <|
    (hcount.reads fun _ _ => UintForm.readU32).bind
      (hpin.reads fun _ _ => commitmentPin_form_reads).last

theorem PeerQuoteForm.reads {bs : Bytes} {x : XorName × Quote} (h : PeerQuoteForm bs x) :
    getPeerQuote.Reads bs x := by
  obtain ⟨hheader, hpeer, hquote⟩ := h
  exact hheader.readRecord (by simp) <|
    (field_reads (by simp) hpeer.reads).bind (field_reads (by simp) hquote.reads).last

theorem ProofOfPayment.Form.reads {bs : Bytes} {p : ProofOfPayment} (h : ProofOfPayment.Form bs p) :
    ProofOfPayment.get.Reads bs p := by
  obtain ⟨hheader, hpeers⟩ := h
  exact hheader.readRecord (by simp)
    (field_reads (by simp) (hpeers.reads fun _ _ => PeerQuoteForm.reads)).last

theorem PaymentProof.Form.reads {bs : Bytes} {p : PaymentProof} (h : PaymentProof.Form bs p) :
    PaymentProof.get.Reads bs p := by
  obtain ⟨hheader, h2, h3, hproof, htx, hsidecars⟩ := h
  exact hheader.readRecord h3 <|
    (field_reads (by omega) hproof.reads).bind <|
    (field_reads (by omega) (htx.reads fun _ _ => ArrForm.reads)).bind
      (hsidecars.reads fun _ _ h => h.reads fun _ _ => BytesForm.reads).last

/-! ## The encoders write forms -/

theorem arrForm_seq {n : ℕ} (hn : n < 2 ^ 32) (a : Arr n) : ArrForm (seqBytes a.1) a :=
  seqBytes_form (by rw [a.2]; exact hn)

theorem arrForm_bin {n : ℕ} (hn : n < 2 ^ 32) (a : Arr n) : ArrForm (bin a.1) a :=
  bin_form (by rw [a.2]; exact hn)

theorem Timestamp.form_put (t : Timestamp) : Timestamp.Form t.put t := by
  have hsecs := t.secs.toNat_lt
  have hnanos := t.nanos.toNat_lt
  exact .mk (arrayHeader_form (by decide)) (uint_form hsecs) (uint_form (by omega))

theorem commitmentPin_form (o : Option (Arr 32)) :
    OptionForm ArrForm (option (fun pin => seqBytes pin.1) o) o := by
  cases o with
  | none => exact .none
  | some pin => exact .some (arrForm_seq (by decide) pin)

theorem Quote.form_put {q : Quote} (h : q.Fits) : Quote.Form q.put q := by
  have hcount := q.committedKeyCount.toNat_lt
  exact .mk (arrayHeader_form (by decide)) (by decide) (by decide)
    (arrForm_seq (by decide) q.content) q.timestamp.form_put (arrForm_bin (by decide) q.price)
    (arrForm_bin (by decide) q.rewardsAddress) (seqBytes_form h.pubKey) (seqBytes_form h.signature)
    (.there (by decide) (uint_form (by omega))) (.there (by decide) (commitmentPin_form _))

theorem PaymentProof.form_put {p : PaymentProof} (h : p.Fits) : PaymentProof.Form p.put p := by
  have hquotes : ArrayForm PeerQuoteForm (array putPeerQuote p.proofOfPayment.peerQuotes)
      p.proofOfPayment.peerQuotes :=
    array_form h.peerQuotes fun x hx => .mk (arrayHeader_form (by decide))
      (arrForm_seq (by decide) x.1) (Quote.form_put (h.quote x hx))
  exact .mk (arrayHeader_form (by decide)) (by decide) (by decide)
    (.mk (arrayHeader_form (by decide)) hquotes)
    (array_form h.txHashes fun x _ => arrForm_bin (by decide) x)
    (.there (by decide) (array_form h.sidecars fun b hb => seqBytes_form (h.sidecar b hb)))

/-! ## Quotes -/

theorem Timestamp.consumes : Timestamp.get.Consumes 1 0 Timestamp.size :=
  readRecord_consumes fun i => (field_consumes readU64_consumes).bind fun secs =>
    (field_consumes readU32_consumes).last fun nanos => by rw [Timestamp.size]

/-- An array takes at least its header and its bytes. -/
theorem seqSize_arr {n : ℕ} (hn : 16 ≤ n) (a : Arr n) : 3 + n ≤ seqSize a.1 := by
  have hheader : 3 ≤ headerSize n := by
    unfold headerSize
    split_ifs <;> omega
  rw [seqSize, a.2]
  omega

theorem commitmentPin_consumes : (readOption (readArr 32)).Consumes 2 0 pinSize := by
  have hpos : ∀ pin : Arr 32, 0 < seqSize pin.1 := by
    intro pin
    have hpin := seqSize_arr (by decide) pin
    omega
  exact readOption_consumes (by decide) (readArr_consumes 32) hpos

/-- A quote takes at most twice the bytes that it was read from. -/
theorem Quote.consumes : Quote.get.Consumes 2 0 Quote.size := by
  refine readRecord_consumes fun i => (field_consumes (readArr_consumes 32)).bind fun content =>
    (field_consumes Timestamp.consumes.scale).bind fun timestamp =>
    (field_consumes (readArr_consumes 32)).bind fun price =>
    (field_consumes (readArr_consumes 20)).bind fun rewardsAddress =>
    (field_consumes readBytes_consumes).bind fun pubKey =>
    (field_consumes readBytes_consumes).bind fun signature =>
    (fieldOr_consumes readU32_consumes.scale).bind fun committedKeyCount =>
    (fieldOr_consumes commitmentPin_consumes).last fun commitmentPin => ?_
  -- the price and the wallet are written as a `bin`: what is left pays for the defaults
  have hprice := seqSize_arr (by decide) price
  have hrewards := seqSize_arr (by decide) rewardsAddress
  have hcount : uintSize (0 : UInt32).toNat = 1 := rfl
  have hpin : pinSize none = 1 := rfl
  rw [Quote.size]
  dsimp only
  rw [hcount, hpin]
  omega

theorem Quote.yields : Quote.get.Yields Quote.Fits :=
  readRecord_yields fun _ => (Yields.trivial _).bind fun _ _ => (Yields.trivial _).bind fun _ _ =>
    (Yields.trivial _).bind fun _ _ => (Yields.trivial _).bind fun _ _ =>
    (field_yields readBytes_yields).bind fun _ hpubKey =>
    (field_yields readBytes_yields).bind fun _ hsignature =>
    (Yields.trivial _).bind fun _ _ => (Yields.trivial _).bind fun _ _ =>
    .pure ⟨hpubKey, hsignature⟩

/-! ## Proofs -/

theorem getPeerQuote_consumes : getPeerQuote.Consumes 2 0 fun x => (putPeerQuote x).length :=
  readRecord_consumes fun i => (field_consumes (readArr_consumes 32)).bind fun peerId =>
    (field_consumes Quote.consumes).last fun quote => by
      rw [length_putPeerQuote]
      dsimp only
      omega

theorem ProofOfPayment.consumes : ProofOfPayment.get.Consumes 2 0 fun p => p.put.length :=
  readRecord_consumes fun i =>
    (field_consumes (readArray_consumes (by decide) getPeerQuote_consumes)).last fun peers => by
      have hheader : (arrayHeader 1).length = 1 := rfl
      rw [ProofOfPayment.put, List.length_append, hheader]
      dsimp only
      omega

theorem readTxHash_consumes : (readArr 32).Consumes 2 0 fun a => (bin a.1).length :=
  (readArr_consumes 32).mono (.trivial _) fun a _ => by
    have ha := seqSize_arr (by decide) a
    rw [length_bin (by rw [a.2]; decide), a.2]
    omega

theorem readSidecar_consumes : readBytes.Consumes 2 0 fun b => (seqBytes b).length :=
  readBytes_consumes.mono (.trivial _) fun b _ => by
    rw [length_seqBytes]
    omega

/-- A proof takes at most twice the bytes that it was read from. -/
theorem PaymentProof.consumes : PaymentProof.get.Consumes 2 0 fun p => p.put.length := by
  refine readRecord_consumes fun i =>
    (field_consumes ProofOfPayment.consumes).bind fun proofOfPayment =>
    (field_consumes (readArray_consumes (by decide) readTxHash_consumes)).bind fun txHashes =>
    (fieldOr_consumes (readArray_consumes (by decide) readSidecar_consumes)).last fun sidecars => ?_
  have hheader : (arrayHeader 3).length = 1 := rfl
  have hempty : (array seqBytes []).length = 1 := rfl
  rw [PaymentProof.put, List.length_append, List.length_append, List.length_append, hheader]
  dsimp only
  rw [hempty]
  omega

theorem getPeerQuote_yields : getPeerQuote.Yields fun x => x.2.Fits :=
  readRecord_yields fun _ => (Yields.trivial _).bind fun _ _ =>
    (field_yields Quote.yields).bind fun _ hquote => .pure hquote

theorem PaymentProof.yields : PaymentProof.get.Yields PaymentProof.Fits := by
  have hproof : ProofOfPayment.get.Yields fun p =>
      p.peerQuotes.length < 2 ^ 32 ∧ ∀ x ∈ p.peerQuotes, x.2.Fits :=
    readRecord_yields fun _ =>
      (field_yields (readArray_yields getPeerQuote_yields)).bind fun _ h => .pure h
  exact readRecord_yields fun _ => (field_yields hproof).bind fun _ hquotes =>
    (field_yields (readArray_yields (.trivial _))).bind fun _ htx =>
    (fieldOr_yields (readArray_yields readBytes_yields) ⟨by decide, by simp⟩).bind
      fun _ hsidecars => .pure ⟨hquotes.1, hquotes.2, htx.1, hsidecars.1, hsidecars.2⟩

/-! ## What is accepted -/

section
variable {C : Crates} {bytes : Bytes}

theorem parseQuote_eq_ok {q : Quote} :
    parseQuote C bytes = .ok q ↔ fromSlice Quote.get bytes = some q := by
  unfold parseQuote
  cases fromSlice Quote.get bytes <;> simp

theorem parseSingleNodeProof_eq_ok {p : PaymentProof} : parseSingleNodeProof C bytes = .ok p ↔
    ∃ body, bytes = proofTagSingleNode :: body ∧ fromSlice PaymentProof.get body = some p := by
  unfold parseSingleNodeProof
  cases bytes with
  | nil => simp
  | cons tag body =>
    by_cases htag : tag = proofTagSingleNode
    · cases hbody : fromSlice PaymentProof.get body <;> simp [htag, hbody]
    · simp [htag]

theorem fromSlice_yields {α : Type} {p : Parser α} {P : α → Prop} {bs : Bytes} {a : α}
    (hp : p.Yields P) (h : fromSlice p bs = some a) : P a := by
  obtain ⟨⟨a', rest⟩, hget, rfl⟩ := Option.map_eq_some_iff.1 h
  exact hp _ _ _ hget

end

/-- **What a node may send is normalised**: a quote and a proof in any array form are
    accepted, whatever follows them.  They are written again without error, in at most twice
    the bytes, in an array form that is accepted as the same. -/
theorem payment_normal (C : Crates) :
    (∀ bytes q, Quote.Form bytes q →
      (∀ more, parseQuote C (bytes ++ more) = .ok q) ∧
      ∃ bytes', encodeQuote q = .ok bytes' ∧ Quote.Form bytes' q ∧
        bytes'.length ≤ 2 * bytes.length ∧ parseQuote C bytes' = .ok q) ∧
    ∀ body p, PaymentProof.Form body p →
      (∀ more, parseSingleNodeProof C (proofTagSingleNode :: (body ++ more)) = .ok p) ∧
      ∃ body', encodeProof p = .ok (proofTagSingleNode :: body') ∧ PaymentProof.Form body' p ∧
        body'.length ≤ 2 * body.length ∧
        parseSingleNodeProof C (proofTagSingleNode :: body') = .ok p := by
  constructor
  · intro bytes q h
    have hget := fromSlice_reads h.reads
    obtain ⟨hlen, hmore⟩ := fromSlice_consumes Quote.consumes hget
    have hfits := fromSlice_yields Quote.yields hget
    refine ⟨fun more => parseQuote_eq_ok.2 (hmore more), q.put, rfl, Quote.form_put hfits, ?_,
      parseQuote_put C hfits⟩
    rw [Quote.length_put]
    exact hlen
  · intro body p h
    have hget := fromSlice_reads h.reads
    obtain ⟨hlen, hmore⟩ := fromSlice_consumes PaymentProof.consumes hget
    have hform := PaymentProof.form_put (fromSlice_yields PaymentProof.yields hget)
    exact ⟨fun more => parseSingleNodeProof_eq_ok.2 ⟨_, rfl, hmore more⟩, p.put, rfl, hform, hlen,
      parseSingleNodeProof_eq_ok.2 ⟨_, rfl, fromSlice_reads hform.reads⟩⟩

/-- A quote as no encoder writes it: a wide header, integers that are wider than needed, every
    byte string as a `bin`, and no trailing fields. -/
def wideQuote : Bytes :=
  0xdc :: toBe 2 6 ++ (0xc5 :: toBe 2 32 ++ List.replicate 32 200 ++
    (0xdd :: toBe 4 2 ++ (0xcf :: toBe 8 5 ++ 0xcd :: toBe 2 7) ++
    (0xc6 :: toBe 4 32 ++ List.replicate 32 7 ++ (0xc4 :: toBe 1 20 ++ List.replicate 20 255 ++
    (0xc4 :: toBe 1 2 ++ [127, 128] ++ (0xc6 :: toBe 4 0 ++ [] ++ ([] ++ [])))))))

theorem wideQuote_form : Quote.Form wideQuote
    { pinnedQuote with timestamp := ⟨5, 7⟩, committedKeyCount := 0, commitmentPin := none } := by
  have htimestamp : Timestamp.Form (0xdd :: toBe 4 2 ++ (0xcf :: toBe 8 5 ++ 0xcd :: toBe 2 7))
      ⟨5, 7⟩ :=
    .mk (.wide (.mk (by simp) (by decide))) (.wide (.mk (by simp) (by decide)))
      (.wide (.mk (by simp) (by decide)))
  exact .mk (.wide (.mk (by simp) (by decide))) (by decide) (by decide)
    (.bin (.mk (by simp) (by decide))) htimestamp (.bin (.mk (by simp) (by decide)))
    (.bin (.mk (by simp) (by decide))) (.bin (.mk (by simp) (by decide)))
    (.bin (.mk (by simp) (by decide))) (.absent (by decide)) (.absent (by decide))

theorem payment_normal_pinned :
    (∃ q, parseQuote .transparent (wideQuote ++ [9]) = .ok q ∧
      ∃ bytes, encodeQuote q = .ok bytes ∧ bytes.length ≤ 2 * wideQuote.length ∧
        parseQuote .transparent bytes = .ok q) ∧
    ∃ p body, encodeProof p = .ok (proofTagSingleNode :: body) ∧ p.commitmentSidecars = [[255]] ∧
      parseSingleNodeProof .transparent (proofTagSingleNode :: body) = .ok p := by
  obtain ⟨hquote, hproof⟩ := payment_normal .transparent
  obtain ⟨hread, bytes, hput, -, hlen, hagain⟩ := hquote _ _ wideQuote_form
  have hfits : PaymentProof.Fits ⟨⟨[(⟨List.replicate 32 3, by simp⟩, pinnedQuote)]⟩, [], [[255]]⟩ :=
    ⟨by simp, by simpa using pinnedQuote_fits, by simp, by simp, by simp⟩
  obtain ⟨-, body, hbody, -, -, hparse⟩ := hproof _ _ (PaymentProof.form_put hfits)
  exact ⟨⟨_, hread [9], bytes, hput, hlen, hagain⟩, _, body, hbody, rfl, hparse⟩

end AntClient
