/-
  The storage quorum: how many nodes attest a store that has succeeded.

  The counters of `store_one` count positions of the discovered list, and the list
  may name a peer more than once.

  * `Repeats`: a prefix of the list, long enough for a majority, can quote and
    repeats a peer id.
  * `storeOne_quorum`: the counters count distinct nodes in every run if and only
    if the list has no such prefix.
-/
import AntClient.Quoting

namespace AntClient

open Async Prog

variable (C : Crates)

/-! ## The property -/

section
variable (address : XorName) (content : Bytes)

/-- In the event, the node `id` attests that it stores the chunk: it gave a verified
    quote with the already-stored flag, or accepted a PUT. -/
def Attests (id : XorName) (ev : Ev Net) : Prop :=
  (∃ conn plaintext requestId quoteBytes commitment quote,
    ev = ⟨.roundTrip conn protoChunk (quoteRequest address content.length).put, .ok plaintext⟩ ∧
    ChunkMessage.decode C plaintext =
      .ok ⟨requestId, .quoteResponse (.success quoteBytes true commitment)⟩ ∧
    parseQuote C quoteBytes = .ok quote ∧ quote.content = address ∧
    C.blake3 quote.pubKey = id ∧ verifyQuote C quote = true) ∨
  ∃ conn plaintext requestId proofBytes a,
    ev = ⟨.roundTrip conn protoChunk (putRequest address content proofBytes).put, .ok plaintext⟩ ∧
    conn.peerId = id ∧
    (ChunkMessage.decode C plaintext = .ok ⟨requestId, .putResponse (.success a)⟩ ∨
      ChunkMessage.decode C plaintext = .ok ⟨requestId, .putResponse (.alreadyExists a)⟩)

/-- A majority of different nodes attest the chunk. -/
def Quorum (tr : List (Ev Net)) : Prop :=
  ∃ ids : Finset XorName, closeGroupMajority ≤ ids.card ∧
    ∀ id ∈ ids, ∃ ev ∈ tr, Attests C address content id ev

/-- Every run in which discovery returns `peers` and `store_one` succeeds ends with a
    quorum of different nodes. -/
def CountsNodes (peers : List PeerConnectInfo) : Prop :=
  ∀ (self : WasmClient) token vault s seq answer rest s',
    s.Keyed (fun _ => True) → peersResult C answer = .ok peers →
    Run (Keeping (Cells.Keyed fun _ => True)) (self.storeOne C address content token vault) s
      (discovery self address seq answer ++ rest) (some (.ok ())) s' →
    Quorum C address content (discovery self address seq answer ++ rest)

/-- The node `id` can give a verified quote for the address. -/
def Quotable (id : XorName) : Prop :=
  ∃ quote : Quote, quote.content = address ∧ C.blake3 quote.pubKey = id ∧ verifyQuote C quote = true

/-- At least a majority of the first peers of the list, up to the close group, can
    quote and are not all different. -/
def Repeats (peers : List PeerConnectInfo) : Prop :=
  closeGroupSize ≤ peers.length ∧ ∃ n, closeGroupMajority ≤ n ∧ n ≤ closeGroupSize ∧
    ¬ ((peers.take n).map PeerConnectInfo.peerId).Nodup ∧
    ∀ peer ∈ peers.take n, Quotable C address peer.peerId

end

/-! ## Runs without repetition -/

section
variable {C} {address : XorName} {content : Bytes}
  {U : PeerConnectInfo → NodeConnection → Prop} {peers : List PeerConnectInfo}
  {seg : List (Ev Net)} {qs : List (QuotedPeer × Bool)}

theorem Quotes.quotable {dataSize : ℕ} {peer : PeerConnectInfo} {ev : Ev Net} {quote : Quote}
    {alreadyStored : Bool} {commitment : Option Bytes}
    (h : Quotes C address dataSize peer ev quote alreadyStored commitment) :
    Quotable C address peer.peerId := by
  obtain ⟨conn, answer, -, hq⟩ := h
  obtain ⟨plaintext, requestId, quoteBytes, -, -, -, h1, h2, h3⟩ := quoteResult_ok hq
  exact ⟨quote, h1, h2, h3⟩

theorem Quotes.attests {peer : PeerConnectInfo} {ev : Ev Net} {quote : Quote}
    {commitment : Option Bytes}
    (h : Quotes C address content.length peer ev quote true commitment) :
    Attests C address content peer.peerId ev := by
  obtain ⟨conn, answer, rfl, hq⟩ := h
  obtain ⟨plaintext, requestId, quoteBytes, rfl, hd, hp, h1, h2, h3⟩ := quoteResult_ok hq
  exact Or.inl ⟨conn, plaintext, requestId, quoteBytes, commitment, quote, rfl, hd, hp, h1, h2, h3⟩

theorem QuotePhase.peerIds {dataSize : ℕ} (h : QuotePhase C address dataSize U peers seg qs) :
    qs.map (fun q => q.1.peerId) = peers.map PeerConnectInfo.peerId := by
  induction h with
  | nil => rfl
  | cons _ _ _ hid _ _ ih => rw [List.map_cons, List.map_cons, ih, hid]

theorem QuotePhase.quotable {dataSize : ℕ} (h : QuotePhase C address dataSize U peers seg qs) :
    ∀ peer ∈ peers, Quotable C address peer.peerId := by
  induction h with
  | nil => simp
  | cons _ hq _ _ _ _ ih => exact List.forall_mem_cons.2 ⟨hq.quotable, ih⟩

theorem QuotePhase.attests (h : QuotePhase C address content.length U peers seg qs) :
    ∀ q ∈ qs, q.2 = true → ∃ ev ∈ seg, Attests C address content q.1.peerId ev := by
  induction h with
  | nil => simp
  | @cons peer peers pre ev post seg q alreadyStored qs _ hq _ hid _ _ ih =>
    refine List.forall_mem_cons.2 ⟨?_, fun q' hq' hs => ?_⟩
    · rintro rfl
      exact ⟨ev, by simp, hid ▸ hq.attests⟩
    · obtain ⟨ev', hev', ha⟩ := ih q' hq' hs
      exact ⟨ev', by simp [hev'], ha⟩

theorem QuotePhase.conns {dataSize : ℕ}
    (h : QuotePhase C address dataSize (fun peer conn => conn.peerId = peer.peerId) peers seg qs) :
    ∀ q ∈ qs, q.1.conn.peerId = q.1.peerId := by
  induction h with
  | nil => simp
  | cons _ _ _ hid hU _ ih => exact List.forall_mem_cons.2 ⟨hU.trans hid.symm, ih⟩

theorem PutPhase.sublist {proofBytes : Bytes} {quoted acc : List QuotedPeer}
    (h : PutPhase C address content proofBytes quoted seg acc) : acc.Sublist quoted := by
  induction h with
  | nil => exact .slnil
  | accepted _ _ _ ih => exact ih.cons_cons _
  | refused _ _ ih => exact ih.cons _

theorem PutPhase.attests {proofBytes : Bytes} {quoted acc : List QuotedPeer}
    (h : PutPhase C address content proofBytes quoted seg acc) :
    ∀ q ∈ acc, ∃ ev ∈ seg, Attests C address content q.conn.peerId ev := by
  induction h with
  | nil => simp
  | @accepted q quoted pre ev seg acc _ hev _ ih =>
    refine List.forall_mem_cons.2 ⟨⟨ev, by simp, ?_⟩, fun q' hq' => ?_⟩
    · obtain ⟨answer, rfl, hr⟩ := hev
      obtain ⟨-, plaintext, requestId, a, rfl, hd⟩ := putResult_ok hr
      exact Or.inr ⟨_, plaintext, requestId, proofBytes, a, rfl, rfl, hd⟩
    · obtain ⟨ev', hev', ha⟩ := ih q' hq'
      exact ⟨ev', by simp [hev'], ha⟩
  | refused _ _ ih =>
    intro q hq
    obtain ⟨ev, hev, ha⟩ := ih q hq
    exact ⟨ev, by simp [hev], ha⟩

theorem quorum_of_list {tr : List (Ev Net)} {ids : List XorName} (hn : ids.Nodup)
    (hl : closeGroupMajority ≤ ids.length)
    (ha : ∀ id ∈ ids, ∃ ev ∈ tr, Attests C address content id ev) : Quorum C address content tr :=
  ⟨ids.toFinset, by rwa [List.toFinset_card_of_nodup hn],
    fun id hid => ha id (List.mem_toFinset.1 hid)⟩

theorem stored_quorum {ps rest : List PeerConnectInfo} {peer : PeerConnectInfo} {ev : Ev Net}
    {quote : Quote} {commitment : Option Bytes} (hrep : ¬ Repeats C address peers)
    (hl : closeGroupSize ≤ peers.length) (hps : peers.take closeGroupSize = ps ++ peer :: rest)
    (hphase : QuotePhase C address content.length U ps seg qs)
    (hq : Quotes C address content.length peer ev quote true commitment)
    (hm : closeGroupMajority ≤ flagged qs + 1) {tr : List (Ev Net)} (hseg : seg ⊆ tr)
    (hev : ev ∈ tr) : Quorum C address content tr := by
  have hlen := congrArg List.length hps
  rw [List.length_take, List.length_append, List.length_cons, min_eq_left hl] at hlen
  have htake : peers.take (ps.length + 1) = ps ++ [peer] := by
    have h : (peers.take closeGroupSize).take (ps.length + 1) = ps ++ [peer] := by
      rw [hps, List.take_length_add_append, List.take_succ_cons, List.take_zero]
    rwa [List.take_take, min_eq_left (by omega)] at h
  have hflag : flagged qs ≤ ps.length := by
    have h := congrArg List.length hphase.peerIds
    rw [List.length_map, List.length_map] at h
    exact h ▸ List.countP_le_length
  by_cases hn : ((ps ++ [peer]).map PeerConnectInfo.peerId).Nodup
  · rw [List.map_append, ← hphase.peerIds] at hn
    have hsub : ((qs.filter fun q => q.2).map (fun q => q.1.peerId) ++ [peer.peerId]).Sublist
        (qs.map (fun q => q.1.peerId) ++ [peer].map PeerConnectInfo.peerId) :=
      List.Sublist.append (List.filter_sublist.map _) (.refl _)
    refine quorum_of_list (hn.sublist hsub) ?_ fun id hid => ?_
    · rw [List.length_append, List.length_map, ← List.countP_eq_length_filter]
      exact hm
    · rcases List.mem_append.1 hid with hid | hid
      · obtain ⟨q, hqm, rfl⟩ := List.mem_map.1 hid
        obtain ⟨ev', hev', ha⟩ := hphase.attests q (List.mem_filter.1 hqm).1 (List.mem_filter.1 hqm).2
        exact ⟨ev', hseg hev', ha⟩
      · exact ⟨ev, hev, List.mem_singleton.1 hid ▸ hq.attests⟩
  · refine absurd ⟨hl, ps.length + 1, by omega, by omega, htake ▸ hn, fun p hp => ?_⟩ hrep
    rw [htake, List.mem_append, List.mem_singleton] at hp
    rcases hp with hp | rfl
    · exact hphase.quotable p hp
    · exact hq.quotable

theorem paid_quorum {proofBytes : Bytes} {acc : List QuotedPeer} {tr : List (Ev Net)}
    (hrep : ¬ Repeats C address peers) (hl : closeGroupSize ≤ peers.length)
    (hphase : QuotePhase C address content.length (fun peer conn => conn.peerId = peer.peerId)
      (peers.take closeGroupSize) seg qs)
    (hput : PutPhase C address content proofBytes (qs.map Prod.fst) tr acc)
    (hm : closeGroupMajority ≤ acc.length) {tr' : List (Ev Net)} (htr : tr ⊆ tr') :
    Quorum C address content tr' := by
  by_cases hn : ((peers.take closeGroupSize).map PeerConnectInfo.peerId).Nodup
  · have hids : (qs.map Prod.fst).map QuotedPeer.peerId =
        (peers.take closeGroupSize).map PeerConnectInfo.peerId := by
      rw [List.map_map, ← hphase.peerIds]
      rfl
    have hacc : (acc.map QuotedPeer.peerId).Nodup := (hids ▸ hn).sublist (hput.sublist.map _)
    refine quorum_of_list hacc (by rwa [List.length_map]) fun id hid => ?_
    obtain ⟨q, hq, rfl⟩ := List.mem_map.1 hid
    obtain ⟨ev, hev, ha⟩ := hput.attests q hq
    obtain ⟨x, hx, hxq⟩ := List.mem_map.1 (hput.sublist.subset hq)
    rw [← hxq, hphase.conns x hx, hxq] at ha
    exact ⟨ev, htr hev, ha⟩
  · exact absurd ⟨hl, closeGroupSize, by decide, le_rfl, hn, hphase.quotable⟩ hrep

/-- Without repetition, the counters count nodes. -/
theorem countsNodes_of_not_repeats (hrep : ¬ Repeats C address peers) :
    CountsNodes C address content peers := by
  intro self token vault s seq answer rest s' hs hp hr
  have hrun := storeRun_of_run_keyed hs hr
  generalize htr : discovery self address seq answer ++ rest = tr at hrun
  generalize ho : (.ok () : Except String Unit) = o at hrun
  cases hrun with
  | undiscovered => cases ho
  | unquoted => cases ho
  | stored hp' hl hps hphase _ hq hm =>
    obtain ⟨rfl, rfl, -⟩ := discovery_append_inj htr
    rw [hp] at hp'
    cases hp'
    exact stored_quorum hrep hl hps hphase hq hm (by simp) (by simp)
  | paid hp' hl hphase _ hpay =>
    obtain ⟨rfl, rfl, -⟩ := discovery_append_inj htr
    rw [hp] at hp'
    cases hp'
    cases hpay with
    | noSplit => cases ho
    | unapproved => cases ho
    | unpaid => cases ho
    | put _ _ _ _ hput hm =>
      refine paid_quorum hrep hl hphase hput (hm.1 ho.symm) fun ev hev => ?_
      simp [hev]

end

/-! ## Runs with repetition

One peer that is named twice counts twice: with two of its peers, it makes a
majority. -/

/-- In a list with a repetition, some elements occur more often than they are. -/
theorem exists_often {α : Type} [DecidableEq α] {l : List α} (hn : ¬ l.Nodup) {k : ℕ}
    (h2 : 2 ≤ k) (hk : k ≤ l.length) :
    ∃ A : Finset α, A ⊆ l.toFinset ∧ A.card < k ∧ k ≤ l.countP (· ∈ A) := by
  induction k, h2 using Nat.le_induction with
  | base =>
    obtain ⟨x, hx⟩ := List.exists_duplicate_iff_not_nodup.2 hn
    refine ⟨{x}, by simpa using hx.mem, by simp, ?_⟩
    have h := List.duplicate_iff_two_le_count.1 hx
    rw [List.count_eq_countP] at h
    exact h.trans (List.countP_mono_left fun y _ hy => by simpa using hy)
  | succ k h2 ih =>
    obtain ⟨A, hA, hcard, hcount⟩ := ih (by omega)
    by_cases hlt : k < l.countP (· ∈ A)
    · exact ⟨A, hA, by omega, hlt⟩
    · obtain ⟨y, hy, hyA⟩ : ∃ y ∈ l, y ∉ A := by
        by_contra h
        push Not at h
        have := List.countP_eq_length.2 fun y hy => decide_eq_true (h y hy)
        omega
      refine ⟨insert y A, Finset.insert_subset (by simpa using hy) hA, ?_, ?_⟩
      · rw [Finset.card_insert_of_notMem hyA]
        omega
      · obtain ⟨l₁, l₂, rfl⟩ := List.append_of_mem hy
        have hmono : ∀ m : List α, m.countP (· ∈ A) ≤ m.countP (· ∈ insert y A) := fun m =>
          List.countP_mono_left fun x _ hx => by simp_all
        have h1 := hmono l₁
        have h2 := hmono l₂
        rw [List.countP_append, List.countP_cons, if_neg (by simpa using hyA)] at hcount
        rw [List.countP_append, List.countP_cons, if_pos (by simp)]
        omega

section
variable {C} {address : XorName} {content : Bytes} {peers : List PeerConnectInfo}

/-- In a network of quoting nodes, those that attest the chunk are the flagged ones. -/
theorem Attests.mem_stored {N : QuotingNodes} (hN : N.Valid C address) (hputs : N.accepts = false)
    {id : XorName} {ev : Ev Net}
    (hev : ev.ans = N.answer ev.req) (h : Attests C address content id ev) : id ∈ N.stored := by
  have key : ∀ {conn : NodeConnection} {payload plaintext : Bytes} {requestId body},
      N.answer (.roundTrip conn protoChunk payload) = .ok plaintext →
      ChunkMessage.decode C plaintext = .ok ⟨requestId, body⟩ → conn.peerId ∈ N.ids ∧
        body = .quoteResponse (.success (N.quote (requestAddress payload) conn.peerId).put
          (conn.peerId ∈ N.stored) N.commitment) := by
    intro conn payload plaintext requestId body ha hd
    rw [QuotingNodes.answer, if_neg (by decide)] at ha
    split_ifs at ha with hid
    cases ha
    rw [QuotingNodes.respond, if_neg (by simp [hputs]), ChunkMessage.decode_put _
      (length_quoteResponse_le (hN.verified _ _ hid) _ hN.commitment)] at hd
    cases hd
    exact ⟨hid, rfl⟩
  rcases h with ⟨conn, plaintext, requestId, quoteBytes, commitment, quote, rfl, hd, hp, -, hk, -⟩ |
    ⟨conn, plaintext, requestId, proofBytes, a, rfl, -, hd⟩
  · obtain ⟨hid, hbody⟩ := key hev.symm hd
    simp only [ChunkMessageBody.quoteResponse.injEq, ChunkQuoteResponse.success.injEq] at hbody
    obtain ⟨rfl, hs, -⟩ := hbody
    rw [parseQuote_verified C (hN.verified _ _ hid)] at hp
    cases hp
    rw [← hk, hN.key _ _ hid]
    exact of_decide_eq_true hs.symm
  · rcases hd with hd | hd <;> cases (key hev.symm hd).2

/-- With repetition, a store can succeed without a quorum. -/
theorem not_countsNodes_of_repeats {answer : Except String Bytes}
    (hp : peersResult C answer = .ok peers) (h : Repeats C address peers) :
    ¬ CountsNodes C address content peers := by
  obtain ⟨hl, n, hn4, hn7, hdup, hquotable⟩ := h
  cases answer with
  | error e => cases hp
  | ok plaintext =>
    have hlen : closeGroupMajority ≤ ((peers.take n).map PeerConnectInfo.peerId).length := by
      rw [List.length_map, List.length_take]
      exact le_min hn4 (by omega)
    obtain ⟨stored, hstored, hcard, hcount⟩ := exists_often hdup (by decide) hlen
    have hq : ∀ id, ∃ quote : Quote, id ∈ (peers.take n).map PeerConnectInfo.peerId →
        quote.content = address ∧ C.blake3 quote.pubKey = id ∧ verifyQuote C quote = true := by
      intro id
      by_cases hid : id ∈ (peers.take n).map PeerConnectInfo.peerId
      · obtain ⟨peer, hpeer, rfl⟩ := List.mem_map.1 hid
        obtain ⟨quote, hquote⟩ := hquotable peer hpeer
        exact ⟨quote, fun _ => hquote⟩
      · exact ⟨honestQuote address id, fun h => absurd h hid⟩
    choose quote hquote using hq
    let N : QuotingNodes :=
      ⟨plaintext, (peers.take n).map PeerConnectInfo.peerId, stored, fun _ => quote, none, false⟩
    have hN : N.Valid C address := ⟨fun id hid => (hquote id hid).1,
      fun _ id hid => (hquote id hid).2.1, fun _ id hid => (hquote id hid).2.2, by simp [N]⟩
    -- the store succeeds
    have hok : ((storeAt C address content (zeros 20) (zeros 20) peers).exec N.answer
        (connected N.ids)).2.1 = .ok () := by
      have hsplit : peers.take closeGroupSize = peers.take n ++ (peers.take closeGroupSize).drop n := by
        rw [← min_eq_left hn7, ← List.take_take, min_eq_left hn7, List.take_append_drop]
      have hsafe : (storeAt C address content (zeros 20) (zeros 20) peers).Safe N.contract
          fun r => r = .ok () := by
        unfold storeAt
        rw [hsplit]
        refine Safe.bindE (quotePeers_majority hN _ _ (fun peer hpeer => List.mem_map_of_mem hpeer) []
          (by decide) ?_) (fun r hr => ?_) fun e he => ?_
        · rw [Nat.zero_add]
          rwa [List.countP_map] at hcount
        · cases hr
          rfl
        · cases he
      exact (hsafe.exec N.answers (connected_connected _)).2
    intro hcn
    have hrun := exec_run N.answer (I := Keeping (Cells.Keyed fun _ => True)) (fun _ h => h)
      (honestClient.storeOne C address content (zeros 20) (zeros 20)) (connected N.ids)
    have hans := exec_answers N.answer
      (honestClient.storeOne C address content (zeros 20) (zeros 20)) (connected N.ids)
    rw [exec_storeOne hp hl] at hrun hans
    rw [hok] at hrun
    -- its attesters are the flagged nodes, fewer than a majority
    obtain ⟨ids, hids, hattest⟩ := hcn _ _ _ _ _ _ _ _ (connected_keyed _) hp hrun
    have hsub : ids ⊆ stored := fun id hid => by
      obtain ⟨ev, hev, ha⟩ := hattest id hid
      exact ha.mem_stored hN rfl (hans ev hev)
    have := Finset.card_le_card hsub
    omega

/-- **The storage quorum**: for a list that discovery can return, the counters count
    distinct nodes in every run if and only if no prefix of the list that can make a
    majority repeats a peer. -/
theorem storeOne_quorum (hp : ∃ answer, peersResult C answer = .ok peers) :
    CountsNodes C address content peers ↔ ¬ Repeats C address peers := by
  obtain ⟨answer, hp⟩ := hp
  exact ⟨fun h hrep => not_countsNodes_of_repeats hp hrep h, countsNodes_of_not_repeats⟩

end

theorem storeOne_quorum_sevenNodes :
    CountsNodes .transparent (zeros 32) [] (peersOf sevenNodes) :=
  (storeOne_quorum ⟨_, peersResult_put (length_peersOf_lt (by decide))⟩).2 fun ⟨_, n, _, _, hdup, _⟩ =>
    hdup (by rw [List.map_take, map_peerId_peersOf]; exact nodup_sevenNodes.sublist (List.take_sublist _ _))

/-- One node that is named seven times is counted as a majority. -/
theorem oneNode_fails :
    ¬ CountsNodes .transparent (zeros 32) [] (peersOf (List.replicate 7 honestPeer.peerId)) := by
  refine not_countsNodes_of_repeats (peersResult_put (length_peersOf_lt (by decide)))
    ⟨by decide, 4, by decide, by decide, ?_, fun peer _ => ?_⟩
  · rw [List.map_take, map_peerId_peersOf, List.take_replicate, List.nodup_replicate]
    decide
  · exact ⟨honestQuote (zeros 32) peer.peerId, rfl, blake3_honestQuote _ _,
      verifyQuote_honestQuote _ _⟩

end AntClient
