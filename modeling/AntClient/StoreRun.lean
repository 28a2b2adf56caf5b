/-
  The runs of `store_one`.

  A run is described by its events alone: the discovery query, the attempts at
  quotes, the two calls of the payment callback, and the PUTs.  The
  description is indexed by what is known of the connection handed out for a
  peer (`U`).

  * `StoreRun`: the shapes of a complete run, one for each exit of the procedure.
  * `storeOne_traced`: every complete run has one of them.
  * `exists_storeRun`: a run that was stopped is a prefix of such a run.
-/
import AntClient.Store

namespace AntClient

open Async Prog

variable (C : Crates)

/-! ## The quote phase -/

section
variable (address : XorName) (dataSize : ℕ)

/-- An event of the quote phase. -/
def QuoteEvent (ev : Ev Net) : Prop :=
  ev.req.Opens ∨ ∃ conn, ev.req = .roundTrip conn protoChunk (quoteRequest address dataSize).put

/-- An event of an attempt at `peer` that gives no quote. -/
def Unquoted (peer : PeerConnectInfo) (ev : Ev Net) : Prop :=
  ev.req.Opens ∨ ∃ conn answer e,
    ev = ⟨.roundTrip conn protoChunk (quoteRequest address dataSize).put, answer⟩ ∧
      quoteResult C peer address answer = .error e

/-- The event in which `peer` gives a quote. -/
def Quotes (peer : PeerConnectInfo) (ev : Ev Net) (quote : Quote) (alreadyStored : Bool)
    (commitment : Option Bytes) : Prop :=
  ∃ conn answer, ev = ⟨.roundTrip conn protoChunk (quoteRequest address dataSize).put, answer⟩ ∧
    quoteResult C peer address answer = .ok (quote, alreadyStored, commitment)

/-- The quote phase over the peers: one quote from each, in order, with its
    already-stored flag. -/
inductive QuotePhase (U : PeerConnectInfo → NodeConnection → Prop) :
    List PeerConnectInfo → List (Ev Net) → List (QuotedPeer × Bool) → Prop
  | nil : QuotePhase U [] [] []
  | cons {peer peers pre ev post seg q alreadyStored qs} :
      (∀ e ∈ pre, Unquoted C address dataSize peer e) →
      Quotes C address dataSize peer ev q.quote alreadyStored q.commitment →
      (∀ e ∈ post, e.req.Opens) → q.peerId = peer.peerId → U peer q.conn →
      QuotePhase U peers seg qs →
      QuotePhase U (peer :: peers) (pre ++ ev :: (post ++ seg)) ((q, alreadyStored) :: qs)

end

/-- How many of the peers already store the chunk. -/
def flagged (qs : List (QuotedPeer × Bool)) : ℕ := qs.countP fun q => q.2

/-! ## The PUT phase -/

section
variable (address : XorName) (content proofBytes : Bytes)

/-- A PUT that is not accepted. -/
def PutFails (conn : NodeConnection) (ev : Ev Net) : Prop :=
  ∃ answer e, ev = ⟨.roundTrip conn protoChunk (putRequest address content proofBytes).put, answer⟩ ∧
    putResult C answer = .error e

/-- A PUT that is accepted. -/
def PutAccepted (conn : NodeConnection) (ev : Ev Net) : Prop :=
  ∃ answer, ev = ⟨.roundTrip conn protoChunk (putRequest address content proofBytes).put, answer⟩ ∧
    putResult C answer = .ok true

/-- The PUT phase over the quoted peers, and those that accept. -/
inductive PutPhase : List QuotedPeer → List (Ev Net) → List QuotedPeer → Prop
  | nil : PutPhase [] [] []
  | accepted {q quoted pre ev seg acc} :
      (∀ e ∈ pre, PutFails C address content proofBytes q.conn e) →
      PutAccepted C address content proofBytes q.conn ev → PutPhase quoted seg acc →
      PutPhase (q :: quoted) (pre ++ ev :: seg) (q :: acc)
  | refused {q quoted pre seg acc} :
      (∀ e ∈ pre, PutFails C address content proofBytes q.conn e) → PutPhase quoted seg acc →
      PutPhase (q :: quoted) (pre ++ seg) acc

end

/-! ## Runs -/

section
variable (self : WasmClient) (address : XorName) (content : Bytes) (token vault : Arr 20)

def approveEvent (payments : List DataPayment) (r : PayOutcome) : Ev Net :=
  ⟨.pay (toHex token) (hex0x (approveCalldata vault (totalAmount payments))), r⟩

def payForQuotesEvent (payments : List DataPayment) (r : PayOutcome) : Ev Net :=
  ⟨.pay (toHex vault) (hex0x (payForQuotesCalldata C payments)), r⟩

/-- The runs of `payAndPut`. -/
inductive PayRun (quoted : List QuotedPeer) : List (Ev Net) → Except String Unit → Prop
  | noSplit {e} : paymentSplit C (quoted.map QuotedPeer.quote) = .error e →
      PayRun quoted [] (.error e)
  | unapproved {payments r e} : paymentSplit C (quoted.map QuotedPeer.quote) = .ok payments →
      payResult r = .error e → PayRun quoted [approveEvent token vault payments r] (.error e)
  | unpaid {payments r₁ text₁ r₂ e} :
      paymentSplit C (quoted.map QuotedPeer.quote) = .ok payments → payResult r₁ = .ok text₁ →
      (payResult r₂ >>= parseTxHash C) = .error e →
      PayRun quoted [approveEvent token vault payments r₁, payForQuotesEvent C vault payments r₂]
        (.error e)
  | put {payments r₁ text₁ r₂ txHash proofBytes seg acc o} :
      paymentSplit C (quoted.map QuotedPeer.quote) = .ok payments → payResult r₁ = .ok text₁ →
      (payResult r₂ >>= parseTxHash C) = .ok txHash →
      serializeSingleNodeProof (quoted.map fun q => (q.peerId, q.quote)) txHash
        (quoted.filterMap QuotedPeer.commitment) = .ok proofBytes →
      PutPhase C address content proofBytes quoted seg acc →
      (o = .ok () ↔ closeGroupMajority ≤ acc.length) →
      PayRun quoted (approveEvent token vault payments r₁ ::
        payForQuotesEvent C vault payments r₂ :: seg) o

/-- The discovery query. -/
def discovery (seq : UInt32) (answer : Except String Bytes) : List (Ev Net) :=
  [⟨.nextSeq self.bootstrap, seq⟩, ⟨.roundTrip self.bootstrap protoDiscovery
    (DiscoveryMessage.put ⟨seq.toUInt64, .closestPeersRequest ⟨address⟩⟩), answer⟩]

variable {self address} in
theorem discovery_append_inj {seq seq' : UInt32} {answer answer' : Except String Bytes}
    {rest rest' : List (Ev Net)} (h : discovery self address seq answer ++ rest =
      discovery self address seq' answer' ++ rest') :
    seq = seq' ∧ answer = answer' ∧ rest = rest' := by
  simp only [discovery, List.cons_append, List.nil_append, List.cons.injEq] at h
  obtain ⟨h1, h2, h3⟩ := h
  cases h1
  cases h2
  exact ⟨rfl, rfl, h3⟩

/-- The complete runs of `store_one`. -/
inductive StoreRun (U : PeerConnectInfo → NodeConnection → Prop) :
    List (Ev Net) → Except String Unit → Prop
  | undiscovered {seq answer e} :
      (∀ peers, peersResult C answer = .ok peers → peers.length < closeGroupSize) →
      StoreRun U (discovery self address seq answer) (.error e)
  | unquoted {seq answer peers seg e} : peersResult C answer = .ok peers →
      closeGroupSize ≤ peers.length → (∀ ev ∈ seg, QuoteEvent address content.length ev) →
      StoreRun U (discovery self address seq answer ++ seg) (.error e)
  | stored {seq answer peers ps peer rest seg qs pre ev quote commitment} :
      peersResult C answer = .ok peers → closeGroupSize ≤ peers.length →
      peers.take closeGroupSize = ps ++ peer :: rest →
      QuotePhase C address content.length U ps seg qs →
      (∀ e ∈ pre, Unquoted C address content.length peer e) →
      Quotes C address content.length peer ev quote true commitment →
      closeGroupMajority ≤ flagged qs + 1 →
      StoreRun U (discovery self address seq answer ++ (seg ++ (pre ++ [ev]))) (.ok ())
  | paid {seq answer peers seg qs tr o} : peersResult C answer = .ok peers →
      closeGroupSize ≤ peers.length →
      QuotePhase C address content.length U (peers.take closeGroupSize) seg qs →
      flagged qs < closeGroupMajority →
      PayRun C address content token vault (qs.map Prod.fst) tr o →
      StoreRun U (discovery self address seq answer ++ (seg ++ tr)) o

end

/-! ## The quote phase of the procedure -/

section
variable {C} {address : XorName} {dataSize : ℕ} {U : PeerConnectInfo → NodeConnection → Prop}
  {J : Cells → Prop} {peer : PeerConnectInfo}

theorem Unquoted.quoteEvent {ev : Ev Net} (h : Unquoted C address dataSize peer ev) :
    QuoteEvent address dataSize ev := by
  rcases h with h | ⟨conn, answer, e, rfl, -⟩
  · exact Or.inl h
  · exact Or.inr ⟨conn, rfl⟩

theorem Quotes.quoteEvent {ev : Ev Net} {quote : Quote} {alreadyStored : Bool}
    {commitment : Option Bytes}
    (h : Quotes C address dataSize peer ev quote alreadyStored commitment) :
    QuoteEvent address dataSize ev := by
  obtain ⟨conn, answer, rfl, -⟩ := h
  exact Or.inr ⟨conn, rfl⟩

theorem QuotePhase.quoteEvent {peers : List PeerConnectInfo} {seg : List (Ev Net)}
    {qs : List (QuotedPeer × Bool)} (h : QuotePhase C address dataSize U peers seg qs) :
    ∀ ev ∈ seg, QuoteEvent address dataSize ev := by
  induction h with
  | nil => simp
  | cons hpre hq hpost _ _ _ ih =>
    intro ev hev
    simp only [List.mem_append, List.mem_cons] at hev
    rcases hev with hev | rfl | hev | hev
    · exact (hpre ev hev).quoteEvent
    · exact hq.quoteEvent
    · exact Or.inl (hpost ev hev)
    · exact ih ev hev

/-- How the attempts at one peer end. -/
inductive AttemptRun (C : Crates) (address : XorName) (dataSize : ℕ)
    (U : PeerConnectInfo → NodeConnection → Prop) (peer : PeerConnectInfo) (count : ℕ) :
    List (Ev Net) → Except String Attempted → Prop
  | failed {tr last} : (∀ e ∈ tr, Unquoted C address dataSize peer e) →
      AttemptRun C address dataSize U peer count tr (.ok (.failed last))
  | error {tr e} : (∀ ev ∈ tr, QuoteEvent address dataSize ev) →
      AttemptRun C address dataSize U peer count tr (.error e)
  | stored {pre ev quote commitment} : (∀ e ∈ pre, Unquoted C address dataSize peer e) →
      Quotes C address dataSize peer ev quote true commitment → closeGroupMajority ≤ count + 1 →
      AttemptRun C address dataSize U peer count (pre ++ [ev]) (.ok .stored)
  | quoted {pre ev post q alreadyStored} : (∀ e ∈ pre, Unquoted C address dataSize peer e) →
      Quotes C address dataSize peer ev q.quote alreadyStored q.commitment →
      (∀ e ∈ post, e.req.Opens) → q.peerId = peer.peerId → U peer q.conn →
      count + alreadyStored.toNat < closeGroupMajority →
      AttemptRun C address dataSize U peer count (pre ++ ev :: post)
        (.ok (.quoted q (count + alreadyStored.toNat)))

/-- Failed attempts before it do not change how a run ends. -/
theorem AttemptRun.prepend {count : ℕ} {pre tr : List (Ev Net)} {r : Except String Attempted}
    (hpre : ∀ e ∈ pre, Unquoted C address dataSize peer e)
    (h : AttemptRun C address dataSize U peer count tr r) :
    AttemptRun C address dataSize U peer count (pre ++ tr) r := by
  have happ : ∀ {l : List (Ev Net)}, (∀ e ∈ l, Unquoted C address dataSize peer e) →
      ∀ e ∈ pre ++ l, Unquoted C address dataSize peer e :=
    fun hl e he => (List.mem_append.1 he).elim (hpre e) (hl e)
  cases h with
  | failed h => exact .failed (happ h)
  | error h =>
    exact .error fun ev hev => (List.mem_append.1 hev).elim (fun h => (hpre ev h).quoteEvent) (h ev)
  | stored h1 h2 h3 =>
    rw [← List.append_assoc]
    exact .stored (happ h1) h2 h3
  | quoted h1 h2 h3 h4 h5 h6 =>
    rw [← List.append_assoc]
    exact .quoted (happ h1) h2 h3 h4 h5 h6

variable (hconn : ∀ peer, (connectionFor C peer).Traced J fun (tr : List (Ev Net)) r =>
    (∀ ev ∈ tr, ev.req.Opens) ∧ Safe.IfOk (U peer) r)
  (hdrop : ∀ s k, J s → J (Cells.dropConn k s))

include hconn

theorem tryQuote_traced : (tryQuote C peer address dataSize).Traced J fun tr r => match r with
    | .error _ => ∀ ev ∈ tr, Unquoted C address dataSize peer ev
    | .ok (quote, alreadyStored, commitment) => ∃ pre ev, tr = pre ++ [ev] ∧
        (∀ e ∈ pre, Unquoted C address dataSize peer e) ∧
        Quotes C address dataSize peer ev quote alreadyStored commitment := by
  rw [tryQuote_eq]
  refine (hconn peer).bindE (fun tr conn htr => Traced.call fun answer => Traced.ret ?_) ?_
  · cases h : quoteResult C peer address answer with
    | error e =>
      intro ev hev
      rcases List.mem_append.1 hev with hev | hev
      · exact Or.inl (htr.1 ev hev)
      · exact Or.inr ⟨conn, answer, e, List.mem_singleton.1 hev, h⟩
    | ok x =>
      obtain ⟨quote, alreadyStored, commitment⟩ := x
      exact ⟨tr, _, rfl, fun e he => Or.inl (htr.1 e he), conn, answer, rfl, h⟩
  · exact fun tr e htr ev hev => Or.inl (htr.1 ev hev)

include hdrop

theorem attemptQuote_traced {count : ℕ} (hc : count < closeGroupMajority) (n : ℕ) (last : String) :
    (attemptQuote C peer address dataSize count n last).Traced J
      (AttemptRun C address dataSize U peer count) := by
  induction n generalizing last with
  | zero => exact Traced.ret (.failed (by simp))
  | succ n ih =>
    refine (tryQuote_traced hconn).bind fun tr r htr => ?_
    cases r with
    | error e =>
      have hnext : (attemptQuote C peer address dataSize count n e).Traced J fun tr' =>
          AttemptRun C address dataSize U peer count (tr ++ tr') :=
        (ih e).mono fun tr' r h => h.prepend htr
      dsimp only
      split
      · exact Traced.sync fun s hs => ⟨hdrop s _ hs, hnext⟩
      · exact hnext
    | ok x =>
      obtain ⟨quote, alreadyStored, commitment⟩ := x
      obtain ⟨pre, ev, rfl, hpre, hq⟩ := htr
      have hquoted : count + alreadyStored.toNat < closeGroupMajority →
          (bindE (connectionFor C peer) fun conn => .ret (.ok (.quoted
            ⟨peer.peerId, conn, quote, commitment⟩ (count + alreadyStored.toNat)))).Traced J
          fun tr' => AttemptRun C address dataSize U peer count (pre ++ [ev] ++ tr') := by
        intro hlt
        refine (hconn peer).bindE (fun tr conn htr => Traced.ret ?_) fun tr e htr => ?_
        · rw [List.append_nil, List.append_assoc, List.singleton_append]
          exact .quoted hpre hq htr.1 rfl (htr.2 conn rfl) hlt
        · rw [List.append_assoc, List.singleton_append]
          refine .error fun ev' hev => ?_
          simp only [List.mem_append, List.mem_cons] at hev
          rcases hev with hev | rfl | hev
          · exact (hpre ev' hev).quoteEvent
          · exact hq.quoteEvent
          · exact Or.inl (htr.1 ev' hev)
      cases alreadyStored with
      | false => exact hquoted hc
      | true =>
        show Traced J _ (if true = true ∧ closeGroupMajority ≤ count + 1 then _ else _)
        by_cases hm : closeGroupMajority ≤ count + 1
        · rw [if_pos ⟨rfl, hm⟩]
          refine Traced.ret ?_
          rw [List.append_nil]
          exact .stored hpre hq hm
        · rw [if_neg fun h => hm h.2]
          exact hquoted (by simpa using hm)

omit hconn hdrop in
/-- How the quote loop ends. -/
inductive PeersRun (C : Crates) (address : XorName) (dataSize : ℕ)
    (U : PeerConnectInfo → NodeConnection → Prop) (peers : List PeerConnectInfo)
    (quoted : List QuotedPeer) (count : ℕ) :
    List (Ev Net) → Except String (Option (List QuotedPeer)) → Prop
  | error {tr e} : (∀ ev ∈ tr, QuoteEvent address dataSize ev) →
      PeersRun C address dataSize U peers quoted count tr (.error e)
  | stored {ps peer rest seg qs pre ev quote commitment} : peers = ps ++ peer :: rest →
      QuotePhase C address dataSize U ps seg qs →
      (∀ e ∈ pre, Unquoted C address dataSize peer e) →
      Quotes C address dataSize peer ev quote true commitment →
      closeGroupMajority ≤ count + flagged qs + 1 →
      PeersRun C address dataSize U peers quoted count (seg ++ (pre ++ [ev])) (.ok none)
  | quoted {seg qs} : QuotePhase C address dataSize U peers seg qs →
      count + flagged qs < closeGroupMajority →
      PeersRun C address dataSize U peers quoted count seg (.ok (some (quoted ++ qs.map Prod.fst)))

omit hconn hdrop in
theorem flagged_cons (q : QuotedPeer × Bool) (qs : List (QuotedPeer × Bool)) :
    flagged (q :: qs) = q.2.toNat + flagged qs := by
  unfold flagged
  rw [List.countP_cons]
  cases q.2 <;> simp [Nat.add_comm]

omit hconn hdrop in
/-- The quote of one more peer in front of the loop. -/
theorem PeersRun.cons {peers : List PeerConnectInfo} {quoted : List QuotedPeer} {count : ℕ}
    {pre post : List (Ev Net)} {ev : Ev Net} {q : QuotedPeer} {alreadyStored : Bool}
    (hpre : ∀ e ∈ pre, Unquoted C address dataSize peer e)
    (hq : Quotes C address dataSize peer ev q.quote alreadyStored q.commitment)
    (hpost : ∀ e ∈ post, e.req.Opens) (hid : q.peerId = peer.peerId) (hU : U peer q.conn)
    {tr : List (Ev Net)} {r : Except String (Option (List QuotedPeer))}
    (h : PeersRun C address dataSize U peers (quoted ++ [q]) (count + alreadyStored.toNat) tr r) :
    PeersRun C address dataSize U (peer :: peers) quoted count (pre ++ ev :: post ++ tr) r := by
  cases h with
  | error h =>
    refine .error fun ev' hev => ?_
    simp only [List.mem_append, List.mem_cons] at hev
    rcases hev with (hev | rfl | hev) | hev
    · exact (hpre ev' hev).quoteEvent
    · exact hq.quoteEvent
    · exact Or.inl (hpost ev' hev)
    · exact h ev' hev
  | @stored ps p rest seg qs pre' ev' quote commitment hps hphase hpre' hq' hm =>
    have htr : pre ++ ev :: post ++ (seg ++ (pre' ++ [ev'])) =
        pre ++ ev :: (post ++ seg) ++ (pre' ++ [ev']) := by simp
    have hps' : peer :: peers = (peer :: ps) ++ _ :: rest := congrArg (peer :: ·) hps
    rw [htr]
    refine .stored hps' (.cons hpre hq hpost hid hU hphase) hpre' hq' ?_
    rw [flagged_cons]
    dsimp only
    omega
  | @quoted seg qs hphase hm =>
    have htr : pre ++ ev :: post ++ tr = pre ++ ev :: (post ++ tr) := by simp
    have hqs : quoted ++ [q] ++ qs.map Prod.fst =
        quoted ++ ((q, alreadyStored) :: qs).map Prod.fst := by simp
    rw [htr, hqs]
    refine .quoted (.cons hpre hq hpost hid hU hphase) ?_
    rw [flagged_cons]
    dsimp only
    omega

theorem quotePeers_traced (peers : List PeerConnectInfo) (quoted : List QuotedPeer) {count : ℕ}
    (hc : count < closeGroupMajority) :
    (quotePeers C address dataSize peers quoted count).Traced J
      (PeersRun C address dataSize U peers quoted count) := by
  induction peers generalizing quoted count with
  | nil =>
    have h : PeersRun C address dataSize U [] quoted count []
        (.ok (some (quoted ++ ([] : List (QuotedPeer × Bool)).map Prod.fst))) := .quoted .nil hc
    rw [List.map_nil, List.append_nil] at h
    exact Traced.ret h
  | cons peer peers ih =>
    refine (attemptQuote_traced hconn hdrop hc quoteAttempts "no attempt").bindE
      (fun tr r hr => ?_) fun tr e hr => ?_
    · cases hr with
      | failed h => exact Traced.ret (.error (by simpa using fun ev hev => (h ev hev).quoteEvent))
      | stored hpre hq hm =>
        refine Traced.ret ?_
        rw [List.append_nil]
        exact .stored (rfl : peer :: peers = [] ++ peer :: peers) .nil hpre hq
          (by simpa [flagged] using hm)
      | quoted hpre hq hpost hid hU hm =>
        exact (ih _ hm).mono fun tr' r h => h.cons hpre hq hpost hid hU
    · cases hr with
      | error h => exact .error h

end

/-! ## The PUT phase of the procedure -/

section
variable {C} {σ : Type} {J : σ → Prop} {address : XorName} {content proofBytes : Bytes}

theorem attemptPut_traced (conn : NodeConnection) (n : ℕ) (lastErr : String) :
    (attemptPut C conn address content proofBytes n lastErr).Traced J fun tr r =>
      if r.1 then ∃ pre ev, tr = pre ++ [ev] ∧
        (∀ e ∈ pre, PutFails C address content proofBytes conn e) ∧
        PutAccepted C address content proofBytes conn ev
      else ∀ e ∈ tr, PutFails C address content proofBytes conn e := by
  induction n generalizing lastErr with
  | zero => exact Traced.ret (by simp)
  | succ n ih =>
    rw [attemptPut, putChunk_eq]
    refine Traced.call fun answer => ?_
    show Traced J _ (Prog.ret (putResult C answer) >>= _)
    cases h : putResult C answer with
    | ok b =>
      obtain ⟨rfl, -⟩ := putResult_ok h
      exact Traced.ret ⟨[], _, rfl, by simp, answer, rfl, h⟩
    | error e =>
      have hfail : PutFails C address content proofBytes conn ⟨.roundTrip conn protoChunk
          (putRequest address content proofBytes).put, answer⟩ := ⟨answer, e, rfl, h⟩
      refine (ih e).mono fun tr r hr => ?_
      split
      · rename_i hb
        rw [if_pos hb] at hr
        obtain ⟨pre, ev, rfl, hpre, hev⟩ := hr
        exact ⟨_ :: pre, ev, rfl, List.forall_mem_cons.2 ⟨hfail, hpre⟩, hev⟩
      · rename_i hb
        rw [if_neg hb] at hr
        exact List.forall_mem_cons.2 ⟨hfail, hr⟩

theorem putPeers_traced (quoted : List QuotedPeer) (accepted : ℕ) (lastErr : String) :
    (putPeers C address content proofBytes quoted accepted lastErr).Traced J fun tr r =>
      ∃ acc, PutPhase C address content proofBytes quoted tr acc ∧
        r.1 = accepted + acc.length := by
  induction quoted generalizing accepted lastErr with
  | nil => exact Traced.ret ⟨[], .nil, rfl⟩
  | cons q quoted ih =>
    refine (attemptPut_traced q.conn quoteAttempts lastErr).bind fun tr r hr => ?_
    obtain ⟨ok, lastErr'⟩ := r
    refine (ih _ lastErr').mono fun tr' r' hr' => ?_
    obtain ⟨acc, hphase, hcount⟩ := hr'
    cases ok with
    | false => exact ⟨acc, .refused hr hphase, hcount⟩
    | true =>
      obtain ⟨pre, ev, rfl, hpre, hev⟩ := hr
      refine ⟨q :: acc, ?_, ?_⟩
      · rw [List.append_assoc, List.singleton_append]
        exact .accepted hpre hev hphase
      · rw [hcount, if_pos rfl, List.length_cons]
        omega

end

/-! ## The procedure -/

section
variable {C} {σ : Type} {address : XorName} {content : Bytes} {token vault : Arr 20}

theorem payAndPut_traced {J : σ → Prop} (quoted : List QuotedPeer) :
    (payAndPut C address content token vault quoted).Traced J
      (PayRun C address content token vault quoted) := by
  unfold payAndPut
  cases hs : paymentSplit C (quoted.map QuotedPeer.quote) with
  | error e => exact Traced.ret (.noSplit hs)
  | ok payments =>
    refine Traced.call fun r₁ => ?_
    show Traced J _ (bindE (.ret (payResult r₁)) _)
    cases h₁ : payResult r₁ with
    | error e => exact Traced.ret (.unapproved hs h₁)
    | ok text₁ =>
      refine Traced.call fun r₂ => ?_
      show Traced J _ (bindE (.ret (payResult r₂)) _)
      cases h₂ : payResult r₂ with
      | error e => exact Traced.ret (.unpaid hs h₁ (by rw [h₂]; rfl))
      | ok text₂ =>
        show Traced J _ (bindE (.ret (parseTxHash C text₂)) _)
        cases h₃ : parseTxHash C text₂ with
        | error e => exact Traced.ret (.unpaid hs h₁ (by rw [h₂]; exact h₃))
        | ok txHash =>
          refine (putPeers_traced quoted 0 "").bind fun tr r hr => ?_
          obtain ⟨accepted, lastErr⟩ := r
          obtain ⟨acc, hphase, hcount⟩ := hr
          have hput : ∀ o : Except String Unit, (o = .ok () ↔ closeGroupMajority ≤ acc.length) →
              PayRun C address content token vault quoted (approveEvent token vault payments r₁ ::
                payForQuotesEvent C vault payments r₂ :: (tr ++ [])) o := by
            intro o ho
            rw [List.append_nil]
            exact .put hs h₁ (by rw [h₂]; exact h₃) rfl hphase ho
          dsimp only at hcount ⊢
          split
          · exact Traced.ret (hput _ (iff_of_false (fun h => by cases h) (by omega)))
          · exact Traced.ret (hput _ (iff_of_true rfl (by omega)))

variable {U : PeerConnectInfo → NodeConnection → Prop} {J : Cells → Prop}

/-- **Every complete run of `store_one`** has one of the shapes of `StoreRun`. -/
theorem storeOne_traced {self : WasmClient}
    (hconn : ∀ peer, (connectionFor C peer).Traced J fun (tr : List (Ev Net)) r =>
      (∀ ev ∈ tr, ev.req.Opens) ∧ Safe.IfOk (U peer) r)
    (hdrop : ∀ s k, J s → J (Cells.dropConn k s)) :
    (self.storeOne C address content token vault).Traced J
      (StoreRun C self address content token vault U) := by
  unfold WasmClient.storeOne
  rw [closestPeers_eq]
  refine Traced.call fun seq => Traced.call fun answer => ?_
  show Traced J _ (bindE (.ret (peersResult C answer)) _)
  cases hp : peersResult C answer with
  | error e => exact Traced.ret (.undiscovered (by rw [hp]; rintro _ ⟨⟩))
  | ok peers =>
    show Traced J _ (if peers.length < closeGroupSize then _ else _)
    split
    · rename_i hl
      exact Traced.ret (.undiscovered (by rw [hp]; rintro _ ⟨⟩; exact hl))
    · rename_i hl
      rw [not_lt] at hl
      refine (quotePeers_traced hconn hdrop _ [] (by decide)).bindE (fun tr r hr => ?_)
        fun tr e hr => ?_
      · cases hr with
        | stored hps hphase hpre hq hm =>
          refine Traced.ret ?_
          rw [List.append_nil]
          exact .stored hp hl hps hphase hpre hq (by omega)
        | @quoted _ qs hphase hm =>
          refine (payAndPut_traced (qs.map Prod.fst)).mono fun tr' o h => ?_
          exact .paid hp hl hphase (by omega) h
      · cases hr with
        | error h => exact .unquoted hp hl h

/-! ## Runs of the procedure -/

omit U J in
/-- Opening a connection is all that `connection_for` asks for. -/
theorem connectionFor_opens (peer : PeerConnectInfo) :
    (connectionFor C peer).Traced (fun _ => True) fun (tr : List (Ev Net)) r =>
      (∀ ev ∈ tr, ev.req.Opens) ∧ Safe.IfOk (fun _ => True) r := by
  have h := connectionFor_safe C (K := ⟨fun _ => True, NetReq.Opens, fun _ _ => True⟩)
    (U := fun _ _ => True) (E := fun _ => True) (fun _ _ _ _ _ => trivial) (fun _ _ _ _ _ => trivial)
    (fun _ _ _ _ => trivial) (fun _ h => h) (fun _ _ _ => trivial) peer
  exact Traced.of_safe (fun _ _ => trivial) h

omit U J in
/-- From a pool that is keyed, `connection_for` returns a connection of the peer. -/
theorem connectionFor_opens_keyed (peer : PeerConnectInfo) :
    (connectionFor C peer).Traced (Cells.Keyed fun _ => True) fun (tr : List (Ev Net)) r =>
      (∀ ev ∈ tr, ev.req.Opens) ∧ Safe.IfOk (fun conn => conn.peerId = peer.peerId) r := by
  have h := connectionFor_keyed C
    (K := ⟨Cells.Keyed fun _ => True, NetReq.Opens, fun _ _ => True⟩) (E := fun _ => True) rfl
    (fun _ h => h) (fun _ _ _ => trivial) (fun _ _ => trivial) peer
  exact Traced.of_safe (fun _ _ => trivial) (h.mono fun r hr conn hc => (hr conn hc).1)

variable {self : WasmClient} {I : Cells → Cells → Prop} {s s' : Cells} {tr : List (Ev Net)}

theorem storeRun_of_run {o : Except String Unit}
    (h : Run I (self.storeOne C address content token vault) s tr (some o) s') :
    StoreRun C self address content token vault (fun _ _ => True) tr o :=
  (storeOne_traced connectionFor_opens (fun _ _ _ => trivial) s tr o s' trivial
    (h.mono fun _ _ _ _ => trivial)).2

/-- A run that is stopped anywhere is a prefix of a complete one. -/
theorem exists_storeRun {o : Option (Except String Unit)}
    (h : Run I (self.storeOne C address content token vault) s tr o s') :
    ∃ tr' o', StoreRun C self address content token vault (fun _ _ => True) (tr ++ tr') o' := by
  have hA : ∀ e : Net.Req, Nonempty (Net.Ans e) := by
    intro e
    cases e with
    | nextSeq => exact ⟨(0 : UInt32)⟩
    | pay => exact ⟨PayOutcome.threw ⟨none, none⟩⟩
    | _ => exact ⟨Except.error ""⟩
  obtain ⟨tr', o', s'', hr⟩ := h.any.extend (fun _ => trivial) hA
  exact ⟨tr', o', storeRun_of_run hr⟩

theorem storeRun_of_run_keyed {o : Except String Unit} (hs : s.Keyed fun _ => True)
    (h : Run (Keeping (Cells.Keyed fun _ => True)) (self.storeOne C address content token vault) s tr
      (some o) s') :
    StoreRun C self address content token vault (fun peer conn => conn.peerId = peer.peerId) tr o :=
  (storeOne_traced connectionFor_opens_keyed (fun _ _ h => h.dropConn) s tr o s' hs h).2

end

end AntClient
