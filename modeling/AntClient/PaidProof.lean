/-
  What is paid is what is proved: the proof of a PUT and the calldata of the payment
  before it are about the same quotes.

  * `storeOne_sends`: what a PUT carries, in every run.
  * `paid_is_proved`: a node that decodes the proof, and a contract that decodes the
    calldata, see the same quotes in the same order.
-/
import AntClient.StoreSafety

namespace AntClient

open Async Prog Bytes

variable (C : Crates)

/-! ## The agreement -/

/-- The proof decodes to these quotes, hash and sidecars, and the calldata to one
    payment for each of the quotes. -/
def Agree (peerQuotes : List (XorName × Quote)) (txHash : Arr 32) (sidecars : List Bytes)
    (proofBytes calldata : Bytes) : Prop :=
  parseSingleNodeProof C proofBytes = .ok ⟨⟨peerQuotes⟩, [txHash], sidecars⟩ ∧
  ∃ payments, paymentSplit C (peerQuotes.map Prod.snd) = .ok payments ∧
    decodePayForQuotes C calldata = some (payments, []) ∧
    List.Forall₂ (fun x p => p.1 = x.2.rewardsAddress ∧ p.2.2 = quoteHash C x.2) peerQuotes payments

theorem paymentSplit_of_length (quotes : List Quote) (h : quotes.length = closeGroupSize) :
    ∃ payments, paymentSplit C quotes = .ok payments := ⟨_, dif_pos h⟩

/-- Proof and calldata built from the same quotes agree. -/
theorem agree_of_split {peerQuotes : List (XorName × Quote)} {txHash : Arr 32}
    {sidecars : List Bytes} (hf : PaymentProof.Fits ⟨⟨peerQuotes⟩, [txHash], sidecars⟩)
    {payments : List DataPayment} (hs : paymentSplit C (peerQuotes.map Prod.snd) = .ok payments)
    {proofBytes : Bytes} (hp : serializeSingleNodeProof peerQuotes txHash sidecars = .ok proofBytes) :
    Agree C peerQuotes txHash sidecars proofBytes (payForQuotesCalldata C payments) := by
  obtain ⟨bytes, hbytes, hparse⟩ := parseSingleNodeProof_encode C hf
  cases hp.symm.trans hbytes
  have hall := paymentSplit_forall₂ C hs
  refine ⟨hparse, payments, hs, decodePayForQuotes_calldata C ?_, List.forall₂_map_left_iff.1 hall⟩
  rw [← hall.length_eq, paymentSplit_length C hs]
  decide

/-! ## What a PUT carries -/

section
variable (client : WasmClient) (address : XorName) (content : Bytes) (token vault : Arr 20)

/-- The events are the collection of quotes, the two calls of the callback, and PUTs of
    the proof of what has been paid. -/
structure Sends (tr : List (Ev Net)) (peers : List PeerConnectInfo) (qs : List (QuotedPeer × Bool))
    (A : List (Ev Net)) (payments : List DataPayment) (r₂ : PayOutcome) (txHash : Arr 32)
    (proofBytes : Bytes) : Prop where
  collected : Collected C client address content peers qs A
  events : ∃ r₁ puts, tr = A ++ [approveEvent token vault payments r₁,
    payForQuotesEvent C vault payments r₂] ++ puts ∧ ∀ ev ∈ puts, ∃ conn,
      ev.req = .roundTrip conn protoChunk (putRequest address content proofBytes).put
  split : paymentSplit C ((qs.map Prod.fst).map QuotedPeer.quote) = .ok payments
  hash : (payResult r₂ >>= parseTxHash C) = .ok txHash
  proof : serializeSingleNodeProof ((qs.map Prod.fst).map fun q => (q.peerId, q.quote)) txHash
    ((qs.map Prod.fst).filterMap QuotedPeer.commitment) = .ok proofBytes

end

variable {C} {self : WasmClient} {address : XorName} {content : Bytes} {token vault : Arr 20}

theorem PutPhase.put {proofBytes : Bytes} {quoted acc : List QuotedPeer} {seg : List (Ev Net)}
    (h : PutPhase C address content proofBytes quoted seg acc) : ∀ ev ∈ seg, ∃ conn,
      ev.req = .roundTrip conn protoChunk (putRequest address content proofBytes).put := by
  have hfail : ∀ {conn ev}, PutFails C address content proofBytes conn ev → ∃ conn,
      ev.req = .roundTrip conn protoChunk (putRequest address content proofBytes).put := by
    rintro conn ev ⟨answer, e, rfl, -⟩
    exact ⟨conn, rfl⟩
  induction h with
  | nil => simp
  | accepted hpre hev _ ih =>
    obtain ⟨answer, rfl, -⟩ := hev
    exact List.forall_mem_append.2 ⟨fun ev hev => hfail (hpre ev hev),
      List.forall_mem_cons.2 ⟨⟨_, rfl⟩, ih⟩⟩
  | refused hpre _ ih => exact List.forall_mem_append.2 ⟨fun ev hev => hfail (hpre ev hev), ih⟩

theorem Puts.not_pay {ev : Ev Net} (h : Puts ev) : NetReq.isPay ev.req = false := by
  obtain ⟨conn, requestId, r, h⟩ := h
  rw [h]
  rfl

theorem Puts.notMem_pays {ev : Ev Net} (h : Puts ev) {P : List (Ev Net)}
    (hP : ∀ e ∈ P, NetReq.isPay e.req) : ev ∉ P := fun hmem => by
  have hpay := hP ev hmem
  rw [h.not_pay] at hpay
  cases hpay

/-- A PUT comes after the quotes and the calls. -/
theorem Sends.split_put {tr A pre post : List (Ev Net)} {peers : List PeerConnectInfo}
    {qs : List (QuotedPeer × Bool)} {payments : List DataPayment} {r₂ : PayOutcome}
    {txHash : Arr 32} {proofBytes : Bytes} {ev : Ev Net}
    (h : Sends C self address content token vault tr peers qs A payments r₂ txHash proofBytes)
    (htr : tr = pre ++ ev :: post) (hev : Puts ev) :
    (∃ r₁ puts, pre = A ++ [approveEvent token vault payments r₁,
      payForQuotesEvent C vault payments r₂] ++ puts) ∧
    ∃ conn, ev.req = .roundTrip conn protoChunk (putRequest address content proofBytes).put := by
  obtain ⟨r₁, puts, htr', hputs⟩ := h.events
  have hnot : ev ∉ A ++ [approveEvent token vault payments r₁,
      payForQuotesEvent C vault payments r₂] := by
    rw [List.mem_append, not_or]
    exact ⟨fun hA => (h.collected.quiet ev hA).2 hev, hev.notMem_pays
      (List.forall_mem_cons.2 ⟨rfl, List.forall_mem_singleton.2 rfl⟩)⟩
  obtain ⟨l, rfl, rfl⟩ := split_of_notMem_left (htr'.symm.trans htr) hnot
  exact ⟨⟨r₁, l, rfl⟩, hputs ev (by simp)⟩

theorem StoreRun.sends {tr : List (Ev Net)} {ev : Ev Net} {o : Except String Unit}
    (h : StoreRun C self address content token vault (fun _ _ => True) tr o) (hmem : ev ∈ tr)
    (hev : Puts ev) : ∃ peers qs A payments r₂ txHash proofBytes,
      Sends C self address content token vault tr peers qs A payments r₂ txHash proofBytes := by
  rcases h.quiet_or_collected with ⟨hquiet, -⟩ | ⟨peers, qs, A, B, rfl, hcol, -, hpay⟩
  · exact absurd hev (hquiet ev hmem).2
  · have hB : ev ∈ B := (List.mem_append.1 hmem).resolve_left fun hA => (hcol.quiet ev hA).2 hev
    cases hpay with
    | noSplit => cases hB
    | unapproved => exact absurd hB (hev.notMem_pays (List.forall_mem_singleton.2 rfl))
    | unpaid =>
      exact absurd hB (hev.notMem_pays
        (List.forall_mem_cons.2 ⟨rfl, List.forall_mem_singleton.2 rfl⟩))
    | @put payments r₁ _ r₂ _ _ seg _ _ hs h₁ h₂ hp hput =>
      exact ⟨peers, qs, A, payments, r₂, _, _, hcol, ⟨r₁, seg, (List.append_assoc A
        [approveEvent token vault payments r₁, payForQuotesEvent C vault payments r₂] seg).symm,
        hput.put⟩, hs, h₂, hp⟩

/-- **What the PUTs of a run carry.** -/
theorem storeOne_sends {I : Cells → Cells → Prop} {s s' : Cells} {tr : List (Ev Net)}
    {o : Option (Except String Unit)}
    (h : Run I (self.storeOne C address content token vault) s tr o s') {ev : Ev Net}
    (hmem : ev ∈ tr) (hev : Puts ev) : ∃ peers qs A payments r₂ txHash proofBytes,
      Sends C self address content token vault tr peers qs A payments r₂ txHash proofBytes := by
  obtain ⟨tr', o', hrun⟩ := exists_storeRun h
  obtain ⟨peers, qs, A, payments, r₂, txHash, proofBytes, hsends⟩ :=
    hrun.sends (List.mem_append_left _ hmem) hev
  refine ⟨peers, qs, A, payments, r₂, txHash, proofBytes, hsends.collected, ?_, hsends.split,
    hsends.hash, hsends.proof⟩
  -- the run stopped after its first PUT
  obtain ⟨pre, post, rfl⟩ := List.append_of_mem hmem
  obtain ⟨r₁, puts, htr, hputs⟩ := hsends.events
  obtain ⟨⟨r₁', l, rfl⟩, -⟩ := hsends.split_put (List.append_assoc _ _ _) hev
  refine ⟨r₁', l ++ ev :: post, List.append_assoc _ _ _, fun e he => ?_⟩
  have hl : puts = l ++ ev :: (post ++ tr') := by
    rw [List.append_assoc, List.append_assoc, List.append_assoc, List.append_assoc] at htr
    exact (List.append_inj (List.append_cancel_left htr) rfl).2.symm
  refine hputs e ?_
  rw [hl]
  simp only [List.mem_append, List.mem_cons] at he ⊢
  tauto

/-! ## Agreement in every run -/

theorem QuotePhase.sidecars {dataSize : ℕ} {U : PeerConnectInfo → NodeConnection → Prop}
    {peers : List PeerConnectInfo} {seg : List (Ev Net)} {qs : List (QuotedPeer × Bool)}
    (h : QuotePhase C address dataSize U peers seg qs) :
    ∀ q ∈ qs, ∀ b, q.1.commitment = some b → b.length < 2 ^ 32 := by
  induction h with
  | nil => simp
  | cons _ hq _ _ _ _ ih =>
    refine List.forall_mem_cons.2 ⟨fun b hb => ?_, ih⟩
    obtain ⟨conn, answer, -, hr⟩ := hq
    obtain ⟨_, _, _, -, hd, -⟩ := quoteResult_ok hr
    dsimp only at hb
    rw [hb] at hd
    exact ChunkMessage.decode_sidecar C hd

/-- The vectors of the proof of collected quotes are within their bounds. -/
theorem Collected.fits {tr : List (Ev Net)} {peers : List PeerConnectInfo}
    {qs : List (QuotedPeer × Bool)} (h : Collected C self address content peers qs tr)
    (txHash : Arr 32) : PaymentProof.Fits ⟨⟨(qs.map Prod.fst).map fun q => (q.peerId, q.quote)⟩,
      [txHash], (qs.map Prod.fst).filterMap QuotedPeer.commitment⟩ := by
  obtain ⟨hlen, hgood⟩ := h.good
  obtain ⟨_, _, _, -, -, -, hphase⟩ := h
  have hle : ((qs.map Prod.fst).filterMap QuotedPeer.commitment).length ≤ closeGroupSize := by
    refine (List.length_filterMap_le _ _).trans ?_
    rw [List.length_map, hlen]
  refine ⟨?_, fun x hx => ?_, by simp, lt_of_le_of_lt hle (by decide), fun b hb => ?_⟩
  · rw [List.length_map, List.length_map, hlen]
    decide
  · obtain ⟨q, hq, rfl⟩ := List.mem_map.1 hx
    obtain ⟨peer, -, -, -, -, hv⟩ := exists_of_mem_right hgood q hq
    obtain ⟨hpk, hsig⟩ := verifyQuote_lengths C hv
    exact ⟨by rw [hpk]; decide, by rw [hsig]; decide⟩
  · obtain ⟨q, hq, hqb⟩ := List.mem_filterMap.1 hb
    obtain ⟨x, hx, rfl⟩ := List.mem_map.1 hq
    exact hphase.sidecars x hx b hqb

/-- **What is paid is what is proved**: for any seven quotes, sidecars and hash, the
    proof and the calldata agree; and every PUT of every run carries a proof that agrees
    with the calldata of the payment before it. -/
theorem paid_is_proved :
    (∀ peerQuotes txHash sidecars, peerQuotes.length = closeGroupSize →
      PaymentProof.Fits ⟨⟨peerQuotes⟩, [txHash], sidecars⟩ → ∃ payments proofBytes,
        paymentSplit C (peerQuotes.map Prod.snd) = .ok payments ∧
        serializeSingleNodeProof peerQuotes txHash sidecars = .ok proofBytes ∧
        Agree C peerQuotes txHash sidecars proofBytes (payForQuotesCalldata C payments)) ∧
    ∀ (self : WasmClient) address content token vault (I : Cells → Cells → Prop) s pre ev post o s',
      Run I (self.storeOne C address content token vault) s (pre ++ ev :: post) o s' → Puts ev →
      ∃ peers qs A calls calldata r₂ txHash proofBytes,
        pre = A ++ calls ∧ Collected C self address content peers qs A ∧
        qs.length = closeGroupSize ∧ ⟨.pay (toHex vault) (hex0x calldata), r₂⟩ ∈ calls ∧
        (payResult r₂ >>= parseTxHash C) = .ok txHash ∧
        (∃ conn, ev.req = .roundTrip conn protoChunk (putRequest address content proofBytes).put) ∧
        Agree C (qs.map fun q => (q.1.peerId, q.1.quote)) txHash
          (qs.filterMap fun q => q.1.commitment) proofBytes calldata := by
  refine ⟨fun peerQuotes txHash sidecars hl hf => ?_, ?_⟩
  · obtain ⟨payments, hs⟩ := paymentSplit_of_length C (peerQuotes.map Prod.snd)
      (by rwa [List.length_map])
    exact ⟨payments, _, hs, rfl, agree_of_split C hf hs rfl⟩
  · intro self address content token vault I s pre ev post o s' h hev
    obtain ⟨peers, qs, A, payments, r₂, txHash, proofBytes, hsends⟩ :=
      storeOne_sends h (List.mem_append_right _ List.mem_cons_self) hev
    obtain ⟨⟨r₁, puts, rfl⟩, hreq⟩ := hsends.split_put rfl hev
    have hcol := hsends.collected
    refine ⟨peers, qs, A, _, _, r₂, txHash, proofBytes, List.append_assoc _ _ _, hcol, hcol.good.1,
      List.mem_append_left _ (List.mem_cons_of_mem _ List.mem_cons_self), hsends.hash, hreq, ?_⟩
    have hsplit := hsends.split
    have hsnd : ((qs.map Prod.fst).map fun q => (q.peerId, q.quote)).map Prod.snd =
        (qs.map Prod.fst).map QuotedPeer.quote := by
      rw [List.map_map]
      rfl
    rw [← hsnd] at hsplit
    have hagree := agree_of_split C (hcol.fits txHash) hsplit hsends.proof
    rw [List.map_map, List.filterMap_map] at hagree
    exact hagree

/-- The quotes of seven nodes with a sidecar, and a PUT of a run that pays them. -/
theorem paid_is_proved_sevenNodes :
    (∃ payments proofBytes,
      Agree .transparent (sevenNodes.map fun id => (id, honestQuote (zeros 32) id)) (zeros 32)
        [[0, 0xff]] proofBytes (payForQuotesCalldata .transparent payments)) ∧
    ∃ pre ev post peers qs A calls calldata r₂ txHash proofBytes,
      (quotingRun none).1 = pre ++ ev :: post ∧ pre = A ++ calls ∧
      Collected .transparent honestClient (zeros 32) [] peers qs A ∧ qs.length = closeGroupSize ∧
      ⟨.pay (toHex (zeros 20)) (hex0x calldata), r₂⟩ ∈ calls ∧
      (payResult r₂ >>= parseTxHash .transparent) = .ok txHash ∧
      (∃ conn, ev.req = .roundTrip conn protoChunk (putRequest (zeros 32) [] proofBytes).put) ∧
      Agree .transparent (qs.map fun q => (q.1.peerId, q.1.quote)) txHash
        (qs.filterMap fun q => q.1.commitment) proofBytes calldata := by
  have hfits : PaymentProof.Fits ⟨⟨sevenNodes.map fun id => (id, honestQuote (zeros 32) id)⟩,
      [zeros 32], [[0, 0xff]]⟩ := by
    refine ⟨by decide, fun x hx => ?_, by decide, by decide, by decide⟩
    obtain ⟨id, -, rfl⟩ := List.mem_map.1 hx
    obtain ⟨hpk, hsig⟩ := verifyQuote_lengths _ (verifyQuote_honestQuote (zeros 32) id)
    exact ⟨by rw [hpk]; decide, by rw [hsig]; decide⟩
  obtain ⟨payments, proofBytes, -, -, hagree⟩ :=
    (paid_is_proved (C := .transparent)).1 _ _ _ (by decide) hfits
  refine ⟨⟨payments, proofBytes, hagree⟩, ?_⟩
  obtain ⟨pre, quoted, payments, r₁, r₂, proofBytes, conn, answer, post, -, -, htr⟩ :=
    quotingRun_paid none nofun
  rw [List.append_cons, List.append_cons _ (payForQuotesEvent _ _ _ _)] at htr
  have hrun := quotingRun_run (I := Any Cells) (fun _ => trivial) none
  rw [htr] at hrun
  obtain ⟨peers, qs, A, calls, calldata, r₂, txHash, proof, h⟩ :=
    (paid_is_proved (C := .transparent)).2 _ _ _ _ _ _ _ _ _ _ _ _ hrun ⟨conn, _, _, rfl⟩
  exact ⟨_, _, _, peers, qs, A, calls, calldata, r₂, txHash, proof, htr, h⟩

end AntClient
