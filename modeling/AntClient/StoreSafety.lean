/-
  Payment safety: what every run of `store_one` promises about the calls of the
  payment callback, wherever the run stops.

  * `Collected`: discovery, and one verified quote from each of the first seven
    peers.
  * `storeOne_paysSafely`: no call without these quotes, at most two calls, the exact
    total, and no PUT before the second call has been answered with a hash.
-/
import AntClient.Quoting

namespace AntClient

open Async Prog Bytes

variable (C : Crates)

/-! ## Events -/

def NetReq.isPay : NetReq → Bool
  | .pay _ _ => true
  | _ => false

/-- The calls of the payment callback. -/
def pays (tr : List (Ev Net)) : List (Ev Net) := tr.filter fun ev => NetReq.isPay ev.req

/-- A PUT of anything is sent. -/
def Puts (ev : Ev Net) : Prop :=
  ∃ conn requestId r, ev.req = .roundTrip conn protoChunk (ChunkMessage.put ⟨requestId, .putRequest r⟩)

theorem quoteRequest_ne_put (address : XorName) (dataSize : ℕ) (requestId : UInt64)
    (r : ChunkPutRequest) :
    (quoteRequest address dataSize).put ≠ ChunkMessage.put ⟨requestId, .putRequest r⟩ := by
  intro h
  cases (List.cons.inj (ChunkMessage.put_body h)).1

theorem pays_append (tr tr' : List (Ev Net)) : pays (tr ++ tr') = pays tr ++ pays tr' :=
  List.filter_append _ _

theorem pays_eq_nil {tr : List (Ev Net)} (h : ∀ ev ∈ tr, NetReq.isPay ev.req = false) :
    pays tr = [] := List.filter_eq_nil_iff.2 fun ev hev => by simp [h ev hev]

section
variable {C} {address : XorName} {content : Bytes} {dataSize : ℕ}
  {U : PeerConnectInfo → NodeConnection → Prop}

theorem Opens.not_pay {e : NetReq} (h : e.Opens) : e.isPay = false := by
  cases e with
  | pay => cases h
  | _ => rfl

/-- Events that neither pay nor PUT. -/
def Quiet (ev : Ev Net) : Prop := NetReq.isPay ev.req = false ∧ ¬ Puts ev

theorem QuoteEvent.quiet {ev : Ev Net} (h : QuoteEvent address dataSize ev) : Quiet ev := by
  obtain ⟨e, r⟩ := ev
  rcases h with h | ⟨conn, rfl⟩
  · refine ⟨Opens.not_pay h, ?_⟩
    rintro ⟨conn, requestId, r, rfl⟩
    exact h
  · refine ⟨rfl, ?_⟩
    rintro ⟨conn', requestId, r, h⟩
    exact quoteRequest_ne_put _ _ _ _ (NetReq.roundTrip.inj h).2.2

theorem discovery_quiet {self : WasmClient} {seq : UInt32} {answer : Except String Bytes} :
    ∀ ev ∈ discovery self address seq answer, Quiet ev := by
  refine List.forall_mem_cons.2 ⟨⟨rfl, ?_⟩, List.forall_mem_singleton.2 ⟨rfl, ?_⟩⟩
  · rintro ⟨_, _, _, ⟨⟩⟩
  · rintro ⟨_, _, _, h⟩
    cases (NetReq.roundTrip.inj h).2.1

theorem PutPhase.not_pay {proofBytes : Bytes} {quoted acc : List QuotedPeer} {seg : List (Ev Net)}
    (h : PutPhase C address content proofBytes quoted seg acc) :
    ∀ ev ∈ seg, NetReq.isPay ev.req = false := by
  have hfail : ∀ {conn ev}, PutFails C address content proofBytes conn ev →
      NetReq.isPay ev.req = false := by
    rintro conn ev ⟨answer, e, rfl, -⟩
    rfl
  induction h with
  | nil => simp
  | accepted hpre hev _ ih =>
    obtain ⟨answer, rfl, -⟩ := hev
    refine List.forall_mem_append.2 ⟨fun ev hev => hfail (hpre ev hev), List.forall_mem_cons.2 ⟨rfl, ih⟩⟩
  | refused hpre _ ih => exact List.forall_mem_append.2 ⟨fun ev hev => hfail (hpre ev hev), ih⟩

end

/-! ## The property -/

section
variable (client : WasmClient) (address : XorName) (content : Bytes) (token vault : Arr 20)

/-- The events are the discovery of `peers` and the collection of one quote from each
    peer of the close group. -/
def Collected (peers : List PeerConnectInfo) (qs : List (QuotedPeer × Bool))
    (tr : List (Ev Net)) : Prop :=
  ∃ seq answer seg, tr = discovery client address seq answer ++ seg ∧
    peersResult C answer = .ok peers ∧ closeGroupSize ≤ peers.length ∧
    QuotePhase C address content.length (fun _ _ => True) (peers.take closeGroupSize) seg qs

/-- A verified quote of the peer for the address. -/
def GoodQuote (peer : PeerConnectInfo) (q : QuotedPeer) : Prop :=
  q.peerId = peer.peerId ∧ q.quote.content = address ∧ C.blake3 q.quote.pubKey = peer.peerId ∧
    verifyQuote C q.quote = true

/-- The events end with the already-stored flag that makes a majority. -/
def AlreadyStored (tr : List (Ev Net)) : Prop :=
  ∃ seq answer peers ps peer rest seg qs pre ev quote commitment,
    tr = discovery client address seq answer ++ (seg ++ (pre ++ [ev])) ∧
    peersResult C answer = .ok peers ∧ peers.take closeGroupSize = ps ++ peer :: rest ∧
    QuotePhase C address content.length (fun _ _ => True) ps seg qs ∧
    (∀ e ∈ pre, Unquoted C address content.length peer e) ∧
    Quotes C address content.length peer ev quote true commitment ∧
    closeGroupMajority ≤ flagged qs + 1

/-- The calls of the callback: `approve` of the exact total, and once it has resolved
    `payForQuotes`. -/
def Calls (calls : List (Ev Net)) : Prop :=
  calls = [] ∨ ∃ total payments r₁, beNat total.1 = sumAmounts payments ∧
    decodePayForQuotes C (payForQuotesCalldata C payments) = some (payments, []) ∧
    (calls = [⟨.pay (toHex token) (hex0x (approveCalldata vault total)), r₁⟩] ∨
      ∃ text r₂, payResult r₁ = .ok text ∧
        calls = [⟨.pay (toHex token) (hex0x (approveCalldata vault total)), r₁⟩,
          ⟨.pay (toHex vault) (hex0x (payForQuotesCalldata C payments)), r₂⟩])

/-- Both calls are made, and the second is answered with the text of a hash. -/
def PaidFor (calls : List (Ev Net)) : Prop :=
  ∃ call₁ recipient calldata r₂ text txHash, calls = [call₁, ⟨.pay recipient calldata, r₂⟩] ∧
    payResult r₂ = .ok text ∧ parseTxHash C text = .ok txHash

structure PaysSafely (tr : List (Ev Net)) (o : Option (Except String Unit)) : Prop where
  /-- before a call of the callback: the seven quotes, and earlier calls only -/
  quotes : ∀ pre ev post, tr = pre ++ ev :: post → NetReq.isPay ev.req →
    ∃ peers qs A calls, pre = A ++ calls ∧ (∀ ev ∈ calls, NetReq.isPay ev.req) ∧
      Collected C client address content peers qs A ∧ qs.length = closeGroupSize ∧
      List.Forall₂ (GoodQuote C address) (peers.take closeGroupSize) (qs.map Prod.fst)
  calls : Calls C token vault (pays tr)
  puts : ∀ pre ev post, tr = pre ++ ev :: post → Puts ev → PaidFor C (pays pre)
  /-- success without a call is success by the already-stored majority -/
  stored : o = some (.ok ()) → (pays tr = [] ↔ AlreadyStored C client address content tr)

end

/-! ## Runs -/

section
variable {C} {self : WasmClient} {address : XorName} {content : Bytes} {token vault : Arr 20}
  {tr : List (Ev Net)} {o : Except String Unit}

theorem QuotePhase.good {U : PeerConnectInfo → NodeConnection → Prop} {dataSize : ℕ}
    {peers : List PeerConnectInfo} {seg : List (Ev Net)} {qs : List (QuotedPeer × Bool)}
    (h : QuotePhase C address dataSize U peers seg qs) :
    List.Forall₂ (GoodQuote C address) peers (qs.map Prod.fst) := by
  induction h with
  | nil => exact .nil
  | cons _ hq _ hid _ _ ih =>
    obtain ⟨conn, answer, -, hr⟩ := hq
    obtain ⟨_, _, _, -, -, -, h1, h2, h3⟩ := quoteResult_ok hr
    exact .cons ⟨hid, h1, h2, h3⟩ ih

theorem Collected.good {peers : List PeerConnectInfo} {qs : List (QuotedPeer × Bool)}
    (h : Collected C self address content peers qs tr) : qs.length = closeGroupSize ∧
      List.Forall₂ (GoodQuote C address) (peers.take closeGroupSize) (qs.map Prod.fst) := by
  obtain ⟨_, _, _, -, -, hl, hphase⟩ := h
  refine ⟨?_, hphase.good⟩
  have hlen := hphase.good.length_eq
  rw [List.length_take, min_eq_left hl, List.length_map] at hlen
  exact hlen.symm

theorem Collected.quiet {peers : List PeerConnectInfo} {qs : List (QuotedPeer × Bool)}
    (h : Collected C self address content peers qs tr) : ∀ ev ∈ tr, Quiet ev := by
  obtain ⟨_, _, _, rfl, -, -, hphase⟩ := h
  exact List.forall_mem_append.2 ⟨discovery_quiet, fun ev hev => (hphase.quoteEvent ev hev).quiet⟩

/-- A run that never gets to the payment is quiet; any other collects the quotes
    first. -/
theorem StoreRun.quiet_or_collected
    (h : StoreRun C self address content token vault (fun _ _ => True) tr o) :
    ((∀ ev ∈ tr, Quiet ev) ∧ (o = .ok () → AlreadyStored C self address content tr)) ∨
      ∃ peers qs A B, tr = A ++ B ∧ Collected C self address content peers qs A ∧
        flagged qs < closeGroupMajority ∧
        PayRun C address content token vault (qs.map Prod.fst) B o := by
  cases h with
  | undiscovered => exact Or.inl ⟨discovery_quiet, fun ho => by cases ho⟩
  | unquoted _ _ h =>
    exact Or.inl ⟨List.forall_mem_append.2 ⟨discovery_quiet, fun ev hev => (h ev hev).quiet⟩,
      fun ho => by cases ho⟩
  | stored hp hl hps hphase hpre hq hm =>
    refine Or.inl ⟨?_, fun _ => ⟨_, _, _, _, _, _, _, _, _, _, _, _, rfl, hp, hps, hphase, hpre, hq, hm⟩⟩
    refine List.forall_mem_append.2 ⟨discovery_quiet, List.forall_mem_append.2
      ⟨fun ev hev => (hphase.quoteEvent ev hev).quiet, List.forall_mem_append.2
        ⟨fun ev hev => (hpre ev hev).quoteEvent.quiet, ?_⟩⟩⟩
    exact List.forall_mem_singleton.2 hq.quoteEvent.quiet
  | paid hp hl hphase hf hpay =>
    exact Or.inr ⟨_, _, _, _, (List.append_assoc _ _ _).symm, ⟨_, _, _, rfl, hp, hl, hphase⟩, hf, hpay⟩

theorem AlreadyStored.pays (h : AlreadyStored C self address content tr) : pays tr = [] := by
  obtain ⟨_, _, _, _, _, _, _, _, _, _, _, _, rfl, -, -, hphase, hpre, hq, -⟩ := h
  refine pays_eq_nil (List.forall_mem_append.2 ⟨fun ev hev => (discovery_quiet ev hev).1,
    List.forall_mem_append.2 ⟨fun ev hev => (hphase.quoteEvent ev hev).quiet.1,
      List.forall_mem_append.2 ⟨fun ev hev => (hpre ev hev).quoteEvent.quiet.1, ?_⟩⟩⟩)
  exact List.forall_mem_singleton.2 hq.quoteEvent.quiet.1

/-- What is done after the quotes: the calls of the callback, and then the PUTs. -/
theorem PayRun.shape {quoted : List QuotedPeer}
    (h : PayRun C address content token vault quoted tr o) : ∃ P S, tr = P ++ S ∧
      (∀ ev ∈ P, NetReq.isPay ev.req) ∧ (∀ ev ∈ S, NetReq.isPay ev.req = false) ∧
      Calls C token vault P ∧ (P = [] → o ≠ .ok ()) ∧ (S ≠ [] → PaidFor C P) := by
  have exact : ∀ {payments}, paymentSplit C (quoted.map QuotedPeer.quote) = .ok payments →
      beNat (totalAmount payments).1 = sumAmounts payments ∧
        decodePayForQuotes C (payForQuotesCalldata C payments) = some (payments, []) := by
    intro payments hs
    refine ⟨totalAmount_split C hs, decodePayForQuotes_calldata C ?_⟩
    rw [← (paymentSplit_forall₂ C hs).length_eq, paymentSplit_length C hs]
    decide
  cases h with
  | noSplit =>
    exact ⟨[], [], rfl, by simp, by simp, Or.inl rfl, fun _ => nofun, fun h => absurd rfl h⟩
  | @unapproved payments r e hs =>
    refine ⟨[approveEvent token vault payments r], [], rfl, List.forall_mem_singleton.2 rfl, by simp,
      Or.inr ⟨_, _, _, (exact hs).1, (exact hs).2, Or.inl rfl⟩, fun _ => nofun,
      fun h => absurd rfl h⟩
  | @unpaid payments r₁ text₁ r₂ e hs h₁ =>
    refine ⟨[approveEvent token vault payments r₁, payForQuotesEvent C vault payments r₂], [], rfl,
      List.forall_mem_cons.2 ⟨rfl, List.forall_mem_singleton.2 rfl⟩, by simp,
      Or.inr ⟨_, _, _, (exact hs).1, (exact hs).2, Or.inr ⟨_, _, h₁, rfl⟩⟩, fun _ => nofun,
      fun h => absurd rfl h⟩
  | @put payments r₁ text₁ r₂ txHash proofBytes seg acc o hs h₁ h₂ _ hput =>
    refine ⟨[approveEvent token vault payments r₁, payForQuotesEvent C vault payments r₂], seg, rfl,
      List.forall_mem_cons.2 ⟨rfl, List.forall_mem_singleton.2 rfl⟩, hput.not_pay,
      Or.inr ⟨_, _, _, (exact hs).1, (exact hs).2, Or.inr ⟨_, _, h₁, rfl⟩⟩, nofun,
      fun _ => ?_⟩
    obtain ⟨text, h₃, h₂⟩ := bind_eq_ok.1 h₂
    exact ⟨_, _, _, r₂, text, txHash, rfl, h₃, h₂⟩

/-- An event that is not in the first part of a list is in the second. -/
theorem split_of_notMem_left {α : Type} {A B pre post : List α} {x : α}
    (h : A ++ B = pre ++ x :: post) (hx : x ∉ A) : ∃ l, pre = A ++ l ∧ B = l ++ x :: post := by
  rcases List.append_eq_append_iff.1 h with ⟨l, rfl, hB⟩ | ⟨l, rfl, hl⟩
  · exact ⟨l, rfl, hB⟩
  · cases l with
    | nil => exact ⟨[], by simp, by simpa using hl.symm⟩
    | cons y l =>
      obtain ⟨rfl, -⟩ := List.cons.inj hl
      exact absurd (by simp) hx

/-- An event that is not in the second part of a list is in the first. -/
theorem split_of_notMem_right {α : Type} {A B pre post : List α} {x : α}
    (h : A ++ B = pre ++ x :: post) (hx : x ∉ B) : ∃ l, A = pre ++ x :: l := by
  rcases List.append_eq_append_iff.1 h with ⟨l, rfl, rfl⟩ | ⟨l, rfl, hl⟩
  · exact absurd (by simp) hx
  · cases l with
    | nil => exact absurd (by simp [show B = _ from hl.symm]) hx
    | cons y l =>
      obtain ⟨rfl, -⟩ := List.cons.inj hl
      exact ⟨l, rfl⟩

theorem StoreRun.paysSafely
    (h : StoreRun C self address content token vault (fun _ _ => True) tr o) :
    PaysSafely C self address content token vault tr (some o) := by
  rcases h.quiet_or_collected with ⟨hquiet, hstored⟩ | ⟨peers, qs, A, B, rfl, hcol, hf, hpay⟩
  · have hnil : pays tr = [] := pays_eq_nil fun ev hev => (hquiet ev hev).1
    refine ⟨?_, Or.inl hnil, ?_, fun ho => iff_of_true hnil (hstored (Option.some.inj ho))⟩
    · rintro pre ev post rfl hev
      exact absurd hev (by simp [(hquiet ev (by simp)).1])
    · rintro pre ev post rfl hev
      exact absurd hev (hquiet ev (by simp)).2
  · obtain ⟨P, S, rfl, hP, hS, hcalls, hok, hput⟩ := hpay.shape
    have hA : ∀ ev ∈ A, Quiet ev := hcol.quiet
    have hpaysA : pays A = [] := pays_eq_nil fun ev hev => (hA ev hev).1
    have hpaysP : pays P = P := List.filter_eq_self.2 hP
    have hpays : pays (A ++ (P ++ S)) = P := by
      rw [pays_append, pays_append, hpaysA, hpaysP, pays_eq_nil hS, List.append_nil, List.nil_append]
    refine ⟨fun pre ev post htr hev => ?_, by rwa [hpays], fun pre ev post htr hev => ?_, fun ho => ?_⟩
    · obtain ⟨calls, rfl, hB⟩ := split_of_notMem_left htr fun h => by simp [(hA ev h).1] at hev
      obtain ⟨l, rfl⟩ := split_of_notMem_right hB fun h => by simp [hS ev h] at hev
      exact ⟨peers, qs, A, calls, rfl, fun ev h => hP ev (by simp [h]), hcol, hcol.good⟩
    · obtain ⟨calls, rfl, hB⟩ := split_of_notMem_left htr fun h => (hA ev h).2 hev
      have hev' : NetReq.isPay ev.req = false := by
        obtain ⟨conn, requestId, r, h⟩ := hev
        rw [h]
        rfl
      obtain ⟨l, rfl, rfl⟩ := split_of_notMem_left hB fun h => by simp [hP ev h] at hev'
      have hl : pays l = [] := pays_eq_nil fun ev h => hS ev (by simp [h])
      rw [pays_append, pays_append, hpaysA, hpaysP, hl, List.append_nil, List.nil_append]
      exact hput (by simp)
    · rw [hpays]
      refine iff_of_false (fun h => hok h (Option.some.inj ho)) fun h => hok ?_ (Option.some.inj ho)
      rw [← hpays, h.pays]

theorem Calls.of_prefix {calls calls' : List (Ev Net)} (h : Calls C token vault calls)
    (hp : calls' <+: calls) : Calls C token vault calls' := by
  rcases h with rfl | ⟨total, payments, r₁, htotal, hdec, rfl | ⟨text, r₂, h₁, rfl⟩⟩
  · exact Or.inl (List.prefix_nil.1 hp)
  · rcases List.prefix_cons_iff.1 hp with rfl | ⟨l, rfl, hl⟩
    · exact Or.inl rfl
    · cases List.prefix_nil.1 hl
      exact Or.inr ⟨total, payments, r₁, htotal, hdec, Or.inl rfl⟩
  · rcases List.prefix_cons_iff.1 hp with rfl | ⟨l, rfl, hl⟩
    · exact Or.inl rfl
    · refine Or.inr ⟨total, payments, r₁, htotal, hdec, ?_⟩
      rcases List.prefix_cons_iff.1 hl with rfl | ⟨l', rfl, hl'⟩
      · exact Or.inl rfl
      · cases List.prefix_nil.1 hl'
        exact Or.inr ⟨text, r₂, h₁, rfl⟩

/-- The promise of a run holds of the runs that stop earlier. -/
theorem PaysSafely.stop {tr' : List (Ev Net)} {o' : Option (Except String Unit)}
    (h : PaysSafely C self address content token vault (tr ++ tr') o') :
    PaysSafely C self address content token vault tr none where
  quotes := by
    rintro pre ev post rfl hev
    exact h.quotes pre ev (post ++ tr') (by simp) hev
  calls := h.calls.of_prefix (pays_append tr tr' ▸ List.prefix_append _ _)
  puts := by
    rintro pre ev post rfl hev
    exact h.puts pre ev (post ++ tr') (by simp) hev
  stored ho := by cases ho

/-- **Payment safety**: every run of `store_one`, whatever discovery, the peers and the
    callback answer and wherever it stops. -/
theorem storeOne_paysSafely {I : Cells → Cells → Prop} {s s' : Cells} {tr : List (Ev Net)}
    {o : Option (Except String Unit)}
    (h : Run I (self.storeOne C address content token vault) s tr o s') :
    PaysSafely C self address content token vault tr o := by
  cases o with
  | some o => exact (storeRun_of_run h).paysSafely
  | none =>
    obtain ⟨tr', o', hrun⟩ := exists_storeRun h
    exact hrun.paysSafely.stop

end

/-- A run that pays seven nodes. -/
theorem storeOne_paysSafely_sevenNodes : pays (quotingRun none).1 ≠ [] ∧
    PaysSafely .transparent honestClient (zeros 32) [] (zeros 20) (zeros 20) (quotingRun none).1
      (some (quotingRun none).2.1) := by
  refine ⟨?_, storeOne_paysSafely (quotingRun_run (I := Any Cells) (fun _ => trivial) none)⟩
  obtain ⟨pre, quoted, payments, r₁, r₂, proofBytes, conn, answer, post, -, -, htr⟩ :=
    quotingRun_paid none nofun
  rw [htr]
  exact List.ne_nil_of_mem (List.mem_filter.2
    ⟨List.mem_append_right _ List.mem_cons_self, rfl⟩ : approveEvent _ _ payments r₁ ∈ _)

end AntClient
