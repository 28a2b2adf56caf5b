/-
  Dead sessions in the pool (`lib.rs`).

  Tasks take turns: a task that is not waiting goes on, and the others wait.  A session is
  dead once a round trip over it has failed: its sequence numbers are off, or its transport
  is gone.

  * `connectionFor_live`: if no round trip fails on a connection of the pool, but for quote
    attempts that are retried, no connection that is handed out is dead.
  * `deadSession_handedOut`: a fetch leaves a dead session in the pool.
-/
import AntClient.Fetch
import AntClient.Openings
import AntClient.System
import AntClient.Lib.Turns

namespace AntClient

open Async Prog

variable {DataMap : Type} {S : SelfEncryption DataMap} {C : Crates} {client : WasmClient}

/-! ## Dead sessions -/

/-- A failed round trip over the connection. -/
def Fails (conn : NodeConnection) (ev : Ev Net) : Prop :=
  ∃ tag payload e, ev = ⟨.roundTrip conn tag payload, .error e⟩

/-- A round trip over the connection has failed.  A handle of a transport may be reused: a
    handshake over it begins another session. -/
def Dead (tr : List (Ev Net)) (conn : NodeConnection) : Prop :=
  ∃ pre ev post, tr = pre ++ ev :: post ∧ Fails conn ev ∧
    ∀ ev' ∈ post, ev'.req ≠ .recvFrame conn.transport

/-- The pool is keyed, and none of its connections is dead. -/
def LivePool (tr : List (Ev Net)) (cells : Cells) : Prop := cells.Keyed fun conn => ¬ Dead tr conn

/-- A round trip fails over a connection of the pool. -/
def FailsPooled (cells : Cells) (ev : Ev Net) : Prop :=
  ∃ conn, Fails conn ev ∧ cells.pool[conn.peerId]? = some conn

theorem dead_concat {tr : List (Ev Net)} {ev : Ev Net} {conn : NodeConnection}
    (h : Dead (tr ++ [ev]) conn) :
    Fails conn ev ∨ Dead tr conn ∧ ev.req ≠ .recvFrame conn.transport := by
  obtain ⟨pre, ev', post, htr, hf, hpost⟩ := h
  rcases List.eq_nil_or_concat post with rfl | ⟨post, ev'', rfl⟩
  · obtain ⟨-, he⟩ := List.append_inj' htr rfl
    rw [List.singleton_inj.1 he]
    exact Or.inl hf
  · have htr' : tr ++ [ev] = (pre ++ ev' :: post) ++ [ev''] := by simp [htr]
    obtain ⟨rfl, he⟩ := List.append_inj' htr' rfl
    obtain rfl := List.singleton_inj.1 he
    simp only [List.concat_eq_append, List.mem_append, List.mem_singleton] at hpost
    exact Or.inr ⟨⟨pre, ev', post, rfl, hf, fun e he => hpost e (Or.inl he)⟩, hpost _ (Or.inr rfl)⟩

theorem Fails.inj {conn conn' : NodeConnection} {ev : Ev Net} (h : Fails conn ev)
    (h' : Fails conn' ev) : conn = conn' := by
  obtain ⟨tag, payload, e, rfl⟩ := h
  obtain ⟨tag', payload', e', he⟩ := h'
  cases he
  rfl

/-- An answer that fails no connection of the pool leaves it live. -/
theorem LivePool.answer {tr : List (Ev Net)} {cells : Cells} {ev : Ev Net} (h : LivePool tr cells)
    (hev : ¬ FailsPooled cells ev) : LivePool (tr ++ [ev]) cells := by
  intro k conn hc
  obtain ⟨hk, hlive⟩ := h k conn hc
  refine ⟨hk, fun hd => ?_⟩
  rcases dead_concat hd with hf | ⟨hd, -⟩
  · exact hev ⟨conn, hf, by rw [hk]; exact hc⟩
  · exact hlive hd

/-- So does the eviction of the connection that failed. -/
theorem LivePool.evict {tr : List (Ev Net)} {cells : Cells} {ev : Ev Net} {conn : NodeConnection}
    (h : LivePool tr cells) (hf : Fails conn ev) :
    LivePool (tr ++ [ev]) (cells.dropConn conn.peerId) := by
  intro k c hc
  rw [Cells.dropConn, Std.HashMap.getElem?_erase] at hc
  split at hc
  · cases hc
  · rename_i hne
    obtain ⟨hk, hlive⟩ := h k c hc
    refine ⟨hk, fun hd => ?_⟩
    rcases dead_concat hd with hf' | ⟨hd, -⟩
    · rw [hf.inj hf', hk] at hne
      simp at hne
    · exact hlive hd

/-- A connection that has just been made is not dead. -/
theorem LivePool.insert {tr : List (Ev Net)} {cells : Cells} {conn : NodeConnection} {k : XorName}
    {r : Except String Bytes} (h : LivePool tr cells) (hk : conn.peerId = k) :
    LivePool (tr ++ [⟨.recvFrame conn.transport, r⟩]) (cells.putConn k conn) := by
  have hno : ∀ c, ¬ Fails c ⟨.recvFrame conn.transport, r⟩ := by
    rintro c ⟨tag, payload, e, he⟩
    cases he
  refine Cells.Keyed.putConn (h.answer ?_) hk fun hd => ?_
  · rintro ⟨c, hf, -⟩
    exact hno c hf
  · rcases dead_concat hd with hf | ⟨-, hne⟩
    · exact hno conn hf
    · exact hne rfl

/-! ## Tasks that request no quote -/

/-- Not a quote request. -/
def NetReq.NotQuote (e : NetReq) : Prop :=
  ∀ conn address dataSize, e ≠ .roundTrip conn protoChunk (quoteRequest address dataSize).put

/-- The task requests no quotes, and keeps the pool live as long as no round trip fails over
    a connection of the pool. -/
abbrev Live {α : Type} (Q : α → Prop) (p : Prog Net Cells α) : Prop :=
  Ready LivePool NetReq.NotQuote (fun cells _ ev => ¬ FailsPooled cells ev) Q p

theorem live_call {α : Type} {Q : α → Prop} {e : NetReq} {k : Net.Ans e → Prog Net Cells α}
    (he : e.NotQuote) (hk : ∀ r, Live Q (k r)) : Live Q (.call e k) :=
  Ready.call (fun _ _ _ hI hok => hI.answer hok) he hk

theorem live_bindE {α β : Type} {Q : Except String α → Prop} {p : Prog Net Cells (Except String α)}
    {g : α → Prog Net Cells (Except String β)} (hp : Live Q p)
    (hg : ∀ a, Q (.ok a) → Live (fun _ => True) (g a)) : Live (fun _ => True) (bindE p g) := by
  refine Ready.bind hp fun r hr => ?_
  cases r with
  | ok a => exact hg a hr
  | error e => exact .ret trivial

theorem NetReq.Opens.notQuote {e : NetReq} (h : e.Opens) : e.NotQuote := by
  rintro conn address dataSize rfl
  cases h

theorem notQuote_of_tag {conn : NodeConnection} {tag : UInt8} {payload : Bytes}
    (h : tag ≠ protoChunk) : (NetReq.roundTrip conn tag payload).NotQuote := by
  intro conn' address dataSize he
  exact h (NetReq.roundTrip.inj he).2.1

theorem notQuote_of_body {conn : NodeConnection} {m : ChunkMessage}
    (h : m.body.put.head? ≠ some 4) : (NetReq.roundTrip conn protoChunk m.put).NotQuote := by
  intro conn' address dataSize he
  have hbody := ChunkMessage.put_body (NetReq.roundTrip.inj he).2.2
  rw [hbody] at h
  exact h rfl

/-- What follows a handshake goes on in the turn in which the frame of the node came in. -/
theorem establish_live {α : Type} {Q : Except String α → Prop} (transport : ℕ)
    (expected : Option XorName) {g : NodeConnection → Prog Net Cells (Except String α)}
    (he : ∀ e, Q (.error e))
    (hg : ∀ conn r tr cells, (∀ p, expected = some p → conn.peerId = p) → LivePool tr cells →
      LivePool (tr ++ [⟨.recvFrame conn.transport, r⟩]) cells →
      Turn LivePool NetReq.NotQuote (fun cells _ ev => ¬ FailsPooled cells ev) Q
        (tr ++ [⟨.recvFrame conn.transport, r⟩]) (g conn) cells) :
    Live Q (bindE (establish C transport expected) g) := by
  refine live_call (NetReq.Opens.notQuote trivial) fun keys => ?_
  cases keys with
  | error e => exact .ret (he _)
  | ok keys =>
    refine live_call (NetReq.Opens.notQuote trivial) fun sent => ?_
    cases sent with
    | error e => exact .ret (he _)
    | ok =>
      refine fun tr s hI => ⟨hI, NetReq.Opens.notQuote trivial, fun tr' s' accept hI' hok => ?_⟩
      cases accept with
      | error e => exact ⟨hI'.answer hok, he _⟩
      | ok accept =>
        show Turn _ _ _ _ _ (bindE (bindE (.ret (ClientHandshake.finish C ⟨keys.2, keys.1⟩ accept
          expected)) _) _) _
        cases hf : ClientHandshake.finish C ⟨keys.2, keys.1⟩ accept expected with
        | error e => exact ⟨hI'.answer hok, he _⟩
        | ok est =>
          obtain ⟨-, -, -, hpin, -⟩ := ClientHandshake.finish_ok C hf
          exact hg ⟨transport, est.cipher, est.peerId⟩ (.ok accept) tr' s' hpin hI' (hI'.answer hok)

/-- A connection that `connection_for` inserts comes from the handshake just before. -/
theorem connectionFor_ready (peer : PeerConnectInfo) :
    Live (Safe.IfOk fun conn => conn.peerId = peer.peerId) (connectionFor C peer) := by
  refine Ready.sync fun tr s hI => ⟨hI, ?_⟩
  cases hp : s.pool[peer.peerId]? with
  | some conn =>
    refine .ret ?_
    rintro _ ⟨⟩
    exact (hI _ _ hp).1
  | none =>
    refine live_call (NetReq.Opens.notQuote trivial) fun t => ?_
    cases t with
    | error e => exact .ret (by rintro _ ⟨⟩)
    | ok t =>
      refine establish_live t (some peer.peerId) (by rintro e _ ⟨⟩) ?_
      intro conn r tr cells hpin hI _
      have hid := hpin _ rfl
      refine ⟨hI.insert hid, hI.insert hid, ?_⟩
      rintro _ ⟨⟩
      exact hid

/-! ### Fetches -/

theorem closestPeers_live (conn : NodeConnection) (address : XorName) :
    Live (fun _ => True) (conn.closestPeers C address) := by
  rw [closestPeers_eq]
  refine live_call (fun _ _ _ h => by cases h) fun seq => ?_
  exact live_call (notQuote_of_tag (by decide)) fun answer => .ret trivial

theorem getVerified_live (conn : NodeConnection) (address : XorName) :
    Live (fun _ => True) (conn.getVerified C address) := by
  rw [getVerified_eq]
  refine live_call (fun _ _ _ h => by cases h) fun seq => ?_
  exact live_call (notQuote_of_body (by rintro ⟨⟩)) fun answer => .ret trivial

theorem getDirect_live (address : XorName) :
    Live (fun _ => True) (client.getDirect C address) := by
  have hloop : ∀ peers lastErr, Live (fun _ => True) (getFrom C address peers lastErr) := by
    intro peers
    induction peers with
    | nil => exact fun _ => .ret trivial
    | cons peer peers ih =>
      intro lastErr
      refine (connectionFor_ready peer).bind fun r _ => ?_
      cases r with
      | error e => exact ih e
      | ok conn =>
        refine (getVerified_live conn address).bind fun r _ => ?_
        cases r with
        | error e => exact ih e
        | ok content => exact .ret trivial
  refine live_bindE (closestPeers_live client.bootstrap address) fun peers _ => ?_
  split
  · exact .ret trivial
  · exact hloop peers ""

theorem download_live (addressHex : String) :
    Live (fun _ => True) (client.download S C addressHex) := by
  unfold WasmClient.download
  cases parseAddress C addressHex with
  | error e => exact .ret trivial
  | ok address =>
    refine Ready.handle (fun f hf tr s hI => Cells.Keyed.of_pool_eq hI (hf s)) (fun e => ?_)
      (downloadFrom_accesses address)
    cases e with
    | one a => exact getDirect_live a
    | all as => exact Ready.joined as getDirect_live

theorem signalRelay_live (conn : NodeConnection) (target : XorName) (sdpOffer : String) :
    Live (fun _ => True) (conn.signalRelay C target sdpOffer) := by
  refine live_call (fun _ _ _ h => by cases h) fun seq => ?_
  refine live_call (notQuote_of_tag (by decide)) fun plaintext => ?_
  cases plaintext with
  | error e => exact .ret trivial
  | ok plaintext =>
    show Live _ (bindE (.ret (SignalRelayMessage.decode C plaintext)) _)
    cases SignalRelayMessage.decode C plaintext with
    | error e => exact .ret trivial
    | ok response => exact .ret trivial

theorem connectViaRelay_live (relay : NodeConnection) (stun : String) (target : XorName) :
    Live (fun _ => True) (relay.connectViaRelay C stun target) := by
  refine live_call (fun _ _ _ h => by cases h) fun offer => ?_
  cases offer with
  | error e => exact .ret trivial
  | ok offer =>
    refine live_bindE (signalRelay_live relay target offer.2) fun answerSdp _ => ?_
    refine live_call (fun _ _ _ h => by cases h) fun t => ?_
    cases t with
    | error e => exact .ret trivial
    | ok t =>
      have h : Live (fun _ => True)
          (bindE (establish C t (some target)) fun conn => .ret (.ok conn)) :=
        establish_live t (some target) (fun _ => trivial)
          fun conn r tr cells _ _ hI => ⟨hI, trivial⟩
      rw [bindE_ret] at h
      exact h

theorem relayedFetch_live (targetPeerIdHex stunAddr addressHex : String) :
    Live (fun _ => True) (client.relayedFetch C targetPeerIdHex stunAddr addressHex) := by
  unfold WasmClient.relayedFetch
  cases parseAddress C targetPeerIdHex with
  | error e => exact .ret trivial
  | ok target =>
    rw [ret_ok_bindE]
    cases parseAddress C addressHex with
    | error e => exact .ret trivial
    | ok address =>
      rw [ret_ok_bindE]
      refine live_bindE (connectViaRelay_live client.bootstrap stunAddr target) fun conn _ => ?_
      exact live_bindE (getVerified_live conn address) fun content _ => .ret trivial

/-! ### Payment and PUTs -/

theorem callPay_live (recipient calldata : String) :
    Live (fun _ => True) (callPay recipient calldata) :=
  live_call (fun _ _ _ h => by cases h) fun _ => .ret trivial

theorem putPeers_live (address : XorName) (content proofBytes : Bytes) (quoted : List QuotedPeer)
    (accepted : ℕ) (lastErr : String) :
    Live (fun _ => True) (putPeers C address content proofBytes quoted accepted lastErr) := by
  have hput : ∀ (conn : NodeConnection) n lastErr, Live (fun _ => True)
      (attemptPut C conn address content proofBytes n lastErr) := by
    intro conn n
    induction n with
    | zero => exact fun _ => .ret trivial
    | succ n ih =>
      intro lastErr
      rw [attemptPut, putChunk_eq]
      refine live_call (notQuote_of_body (by rintro ⟨⟩)) fun answer => ?_
      show Live _ (Prog.ret (putResult C answer) >>= _)
      cases putResult C answer with
      | error e => exact ih e
      | ok b =>
        cases b with
        | true => exact .ret trivial
        | false => exact .ret trivial
  induction quoted generalizing accepted lastErr with
  | nil => exact .ret trivial
  | cons q quoted ih => exact (hput q.conn _ _).bind fun r _ => ih _ _

theorem payAndPut_live (address : XorName) (content : Bytes) (token vault : Arr 20)
    (quoted : List QuotedPeer) :
    Live (fun _ => True) (payAndPut C address content token vault quoted) := by
  unfold payAndPut
  cases paymentSplit C (quoted.map QuotedPeer.quote) with
  | error e => exact .ret trivial
  | ok payments =>
    rw [ret_ok_bindE]
    refine live_bindE (callPay_live _ _) fun _ _ => ?_
    refine live_bindE (callPay_live _ _) fun txHex _ => ?_
    cases parseTxHash C txHex with
    | error e => exact .ret trivial
    | ok txHash =>
      rw [ret_ok_bindE]
      cases serializeSingleNodeProof (quoted.map fun q => (q.peerId, q.quote)) txHash
        (quoted.filterMap QuotedPeer.commitment) with
      | error e => exact .ret trivial
      | ok proofBytes =>
        refine (putPeers_live address content proofBytes quoted 0 "").bind fun r _ => ?_
        show Live _ (if r.1 < closeGroupMajority then _ else _)
        split
        · exact .ret trivial
        · exact .ret trivial

/-! ## Quote attempts -/

section
variable (C)

/-- What follows the answer to a quote request, with `n` attempts left. -/
def afterQuote (peer : PeerConnectInfo) (address : XorName) (dataSize alreadyStoredCount n : ℕ) :
    Except String (Quote × Bool × Option Bytes) → Prog Net Cells (Except String Attempted)
  | .ok (quote, alreadyStored, commitment) =>
    let count := if alreadyStored then alreadyStoredCount + 1 else alreadyStoredCount
    if alreadyStored ∧ closeGroupMajority ≤ count then .ret (.ok .stored)
    else
      bindE (connectionFor C peer) fun conn =>
      .ret (.ok (.quoted ⟨peer.peerId, conn, quote, commitment⟩ count))
  | .error e =>
    if 0 < n then
      .sync (Cells.dropConn peer.peerId) fun _ =>
      attemptQuote C peer address dataSize alreadyStoredCount n e
    else attemptQuote C peer address dataSize alreadyStoredCount n e

theorem attemptQuote_succ (peer : PeerConnectInfo) (address : XorName) (dataSize count n : ℕ)
    (last : String) : attemptQuote C peer address dataSize count (n + 1) last =
      tryQuote C peer address dataSize >>= afterQuote C peer address dataSize count n := rfl

/-- The rest of a quote attempt once `connection_for` has returned. -/
def quoteOver (peer : PeerConnectInfo) (address : XorName) (dataSize count n : ℕ)
    (rest : Except String Attempted → Prog Net Cells Unit) :
    Except String NodeConnection → Prog Net Cells Unit
  | .ok conn => .call (.roundTrip conn protoChunk (quoteRequest address dataSize).put) fun answer =>
    afterQuote C peer address dataSize count n (quoteResult C peer address answer) >>= rest
  | .error e => afterQuote C peer address dataSize count n (.error e) >>= rest

theorem attemptQuote_bind (peer : PeerConnectInfo) (address : XorName) (dataSize count n : ℕ)
    (last : String) (rest : Except String Attempted → Prog Net Cells Unit) :
    attemptQuote C peer address dataSize count (n + 1) last >>= rest =
      connectionFor C peer >>= quoteOver C peer address dataSize count n rest := by
  rw [attemptQuote_succ, tryQuote_eq, Prog.bind_assoc, bindE_bind]
  refine congrArg (connectionFor C peer >>= ·) (funext fun r => ?_)
  cases r with
  | ok conn => rfl
  | error e => rfl

/-- A failed answer to a quote request, with attempts left, evicts the connection. -/
theorem afterQuote_failed {peer : PeerConnectInfo} {address : XorName} {dataSize count n : ℕ}
    (hn : 0 < n) (e : String) (rest : Except String Attempted → Prog Net Cells Unit) :
    afterQuote C peer address dataSize count n (quoteResult C peer address (.error e)) >>= rest =
      .sync (Cells.dropConn peer.peerId) fun _ =>
        attemptQuote C peer address dataSize count n e >>= rest :=
  congrArg (· >>= rest) (if_pos hn)

/-- The task waits for the answer of a peer to a quote request, in an attempt that is not
    the last: attempts are left. -/
inductive Retried : Prog Net Cells Unit → Prop
  | intro {conn : NodeConnection} {peer address dataSize count n}
      {rest : Except String Attempted → Prog Net Cells Unit} :
      0 < n → conn.peerId = peer.peerId →
      Retried (.call (.roundTrip conn protoChunk (quoteRequest address dataSize).put) fun answer =>
        afterQuote C peer address dataSize count n (quoteResult C peer address answer) >>= rest)

/-- Among the round trips over connections of the pool only quote requests that are retried
    may fail. -/
def WhenRetried (cells : Cells) (p : Prog Net Cells Unit) (ev : Ev Net) : Prop :=
  FailsPooled cells ev → Retried C p

/-- The task keeps the pool live under this condition. -/
abbrev LiveWhenRetried (p : Prog Net Cells Unit) : Prop :=
  Ready LivePool (fun _ => True) (WhenRetried C) (fun _ => True) p

end

theorem Retried.quote {e : NetReq} {k : Net.Ans e → Prog Net Cells Unit}
    (h : Retried C (.call e k)) : ¬ e.NotQuote := by
  intro hne
  cases h with
  | intro => exact hne _ _ _ rfl

/-- A failure is followed by an access. -/
theorem Retried.next {conn : NodeConnection} {tag : UInt8} {payload : Bytes}
    {k : Except String Bytes → Prog Net Cells Unit}
    (h : Retried C (.call (.roundTrip conn tag payload) k)) (e : String) :
    ∃ f k', k (.error e) = .sync f k' := by
  cases h with
  | intro hn hid => exact ⟨_, _, afterQuote_failed C hn e _⟩

/-- What asks for no quotes may come first. -/
theorem live_bind {α : Type} {Q : α → Prop} {p : Prog Net Cells α} {g : α → Prog Net Cells Unit}
    (hp : Live Q p) (hg : ∀ a, Q a → LiveWhenRetried C (g a)) : LiveWhenRetried C (p >>= g) := by
  intro tr s hI
  refine (hp tr s hI).bind (fun _ _ => trivial) (fun cells e k r hne hok hf => ?_) hg
  exact (hok hf).quote hne

/-- **The quote attempts at a peer** keep the pool live: a connection that fails is evicted
    before the next attempt, and no attempt that is the last one fails over a connection of
    the pool. -/
theorem attemptQuote_live {peer : PeerConnectInfo} {address : XorName} {dataSize count : ℕ}
    {rest : Except String Attempted → Prog Net Cells Unit} (hrest : ∀ r, LiveWhenRetried C (rest r))
    (hfailed : ∀ last, ∃ u, rest (.ok (.failed last)) = .ret u) : ∀ n last,
    LiveWhenRetried C (attemptQuote C peer address dataSize count n last >>= rest)
  | 0, last => hrest _
  | n + 1, last => by
    have hafter : ∀ r,
        LiveWhenRetried C (afterQuote C peer address dataSize count n r >>= rest) := by
      intro r
      cases r with
      | error e =>
        show LiveWhenRetried C ((if 0 < n then _ else _) >>= rest)
        split
        · refine Ready.sync fun tr s hI => ⟨Cells.Keyed.dropConn hI, ?_⟩
          exact attemptQuote_live hrest hfailed n e
        · exact attemptQuote_live hrest hfailed n e
      | ok x =>
        obtain ⟨quote, alreadyStored, commitment⟩ := x
        rw [afterQuote]
        generalize (if alreadyStored = true then count + 1 else count) = count'
        split
        · exact hrest _
        · rw [bindE_bind]
          refine live_bind (connectionFor_ready peer) fun r _ => ?_
          cases r with
          | error e => exact hrest _
          | ok conn => exact hrest _
    rw [attemptQuote_bind]
    refine live_bind (connectionFor_ready peer) fun r hr => ?_
    cases r with
    | error e => exact hafter _
    | ok conn =>
      have hid : conn.peerId = peer.peerId := hr conn rfl
      refine fun tr s hI => ⟨hI, trivial, fun tr' s' answer hI' hok => ?_⟩
      by_cases hf : FailsPooled s' ⟨_, answer⟩
      · have hretried := hok hf
        obtain ⟨conn', ⟨tag, payload, e, he⟩, -⟩ := hf
        cases he
        cases n with
        | zero =>
          -- the last attempt: the task ends, so this round trip does not meet the condition
          obtain ⟨f, k, hk⟩ := hretried.next e
          obtain ⟨u, hu⟩ := hfailed e
          have hlast : rest (.ok (.failed e)) = .sync f k := hk
          rw [hu] at hlast
          cases hlast
        | succ n =>
          have hfails : Fails conn ⟨.roundTrip conn protoChunk (quoteRequest address dataSize).put,
              .error e⟩ := ⟨_, _, e, rfl⟩
          have hevict := hI'.evict hfails
          rw [hid] at hevict
          exact ⟨hevict, attemptQuote_live hrest hfailed (n + 1) e _ _ hevict⟩
      · exact hafter _ _ _ (hI'.answer hf)

theorem quotePeers_live {address : XorName} {dataSize : ℕ}
    {rest : Except String (Option (List QuotedPeer)) → Prog Net Cells Unit}
    (hrest : ∀ r, LiveWhenRetried C (rest r)) (hfailed : ∀ e, ∃ u, rest (.error e) = .ret u)
    (peers : List PeerConnectInfo) (quoted : List QuotedPeer) (count : ℕ) :
    LiveWhenRetried C (quotePeers C address dataSize peers quoted count >>= rest) := by
  induction peers generalizing quoted count with
  | nil => exact hrest _
  | cons peer peers ih =>
    rw [quotePeers, bindE_bind]
    refine attemptQuote_live (fun r => ?_) (fun last => ?_) _ _
    · match r with
      | .error e => exact hrest _
      | .ok .stored => exact hrest _
      | .ok (.quoted q c) => exact ih _ c
      | .ok (.failed last) => exact hrest _
    · exact hfailed _

theorem storeOne_live {address : XorName} {content : Bytes} {token vault : Arr 20}
    {rest : Except String Unit → Prog Net Cells Unit} (hrest : ∀ r, LiveWhenRetried C (rest r))
    (hfailed : ∀ e, ∃ u, rest (.error e) = .ret u) :
    LiveWhenRetried C (client.storeOne C address content token vault >>= rest) := by
  rw [WasmClient.storeOne, bindE_bind]
  refine live_bind (closestPeers_live client.bootstrap address) fun r _ => ?_
  cases r with
  | error e => exact hrest _
  | ok peers =>
    dsimp only
    split
    · exact hrest _
    · rw [bindE_bind]
      refine quotePeers_live (fun r => ?_) (fun e => hfailed e) _ [] 0
      match r with
      | .error e => exact hrest _
      | .ok none => exact hrest _
      | .ok (some quoted) =>
        exact live_bind (payAndPut_live address content token vault quoted) fun r _ => hrest r

theorem upload_live (data : Bytes) (tokenAddrHex vaultAddrHex : String) :
    LiveWhenRetried C (client.upload S C data tokenAddrHex vaultAddrHex >>= fun _ => .ret ()) := by
  have hall : ∀ token vault items (rest : Except String Unit → Prog Net Cells Unit),
      (∀ r, LiveWhenRetried C (rest r)) → (∀ e, ∃ u, rest (.error e) = .ret u) →
      LiveWhenRetried C (client.storeAll C token vault items >>= rest) := by
    intro token vault items
    induction items with
    | nil => exact fun rest hrest _ => hrest _
    | cons x items ih =>
      intro rest hrest hfailed
      rw [WasmClient.storeAll, bindE_bind]
      refine storeOne_live (fun r => ?_) fun e => hfailed e
      cases r with
      | error e => exact hrest _
      | ok u => exact ih rest hrest hfailed
  unfold WasmClient.upload
  cases parseEthAddress C tokenAddrHex with
  | error e => exact .ret trivial
  | ok token =>
    rw [ret_ok_bindE]
    cases parseEthAddress C vaultAddrHex with
    | error e => exact .ret trivial
    | ok vault =>
      rw [ret_ok_bindE]
      cases uploadItems S C data with
      | error e => exact .ret trivial
      | ok x =>
        rw [ret_ok_bindE]
        dsimp only
        rw [bindE_bind]
        refine hall token vault x.1 _ (fun r => ?_) fun e => ⟨(), rfl⟩
        cases r with
        | error e => exact .ret trivial
        | ok u => exact .ret trivial

/-- **Every call** keeps the pool live if only retried quote requests fail. -/
theorem perform_live (call : ClientCall) : LiveWhenRetried C (client.perform S C call) := by
  cases call with
  | download addressHex => exact live_bind (download_live addressHex) fun _ _ => .ret trivial
  | fetchChunk addressHex =>
    refine live_bind (Q := fun _ => True) ?_ fun _ _ => .ret trivial
    unfold WasmClient.fetchChunk
    cases parseAddress C addressHex with
    | error e => exact .ret trivial
    | ok address => exact getDirect_live address
  | upload data t v => exact upload_live data t v
  | relayedFetch target stun addressHex =>
    exact live_bind (relayedFetch_live target stun addressHex) fun _ _ => .ret trivial
  | closestPeersJson addressHex =>
    refine live_bind (Q := fun _ => True) ?_ fun _ _ => .ret trivial
    unfold WasmClient.closestPeersJson
    cases parseAddress C addressHex with
    | error e => exact .ret trivial
    | ok address =>
      rw [ret_ok_bindE]
      exact live_bindE (closestPeers_live client.bootstrap address) fun _ _ => .ret trivial

/-! ## What is handed out -/

/-- What `connection_for` returns is what the pool holds then: it has checked or changed the
    pool just before.  For a peer that was not in the pool it is a new connection. -/
theorem connectionFor_pooled {I : Cells → Cells → Prop} {peer : PeerConnectInfo} {s s' : Cells}
    {tr : List (Ev Net)} {conn : NodeConnection}
    (h : Run I (connectionFor C peer) s tr (some (.ok conn)) s') :
    s'.pool[peer.peerId]? = some conn ∧
      (s.pool[peer.peerId]? = none → Authentic C (· ∈ tr) conn) := by
  rw [connectionFor, Run.sync_some] at h
  dsimp only [id] at h
  cases hp : s.pool[peer.peerId]? with
  | some c =>
    rw [hp] at h
    obtain ⟨hc, -, rfl⟩ := Run.ret_some h
    cases hc
    exact ⟨hp, by rintro ⟨⟩⟩
  | none =>
    rw [hp] at h
    obtain ⟨c, tr₁, s₁, tr₂, rfl, hopen, hrest⟩ := Run.bindE_ok h
    rw [Run.sync_some] at hrest
    obtain ⟨hc, -, rfl⟩ := Run.ret_some hrest
    cases hc
    have hnew := (connect_safe C (E := (· ∈ tr₁ ++ tr₂)) (fun _ _ => trivial) fun _ _ h => h).run_answers
      hopen fun ev hev => List.mem_append_left _ hev
    exact ⟨Cells.getElem?_putConn_self, fun _ => (hnew _ rfl).1⟩

theorem connectionFor_hit {I : Cells → Cells → Prop} {peer : PeerConnectInfo} {s : Cells}
    {conn : NodeConnection} (h : s.pool[peer.peerId]? = some conn) :
    Run I (connectionFor C peer) s [] (some (.ok conn)) s := by
  refine .sync ?_
  dsimp only [id]
  rw [h]
  exact .ret

theorem connect_live {ip : String} {port : UInt16} {certHashHex peerIdHex : String} {cells : Cells}
    {tr : List (Ev Net)} (h : Run (Any Unit) (WasmClient.connect C ip port certHashHex peerIdHex) ()
      tr (some (.ok (client, cells))) ()) :
    (∀ ev ∈ tr, ev.req.Opens) ∧ LivePool [] cells := by
  obtain ⟨-, hopens, hok⟩ := Safe.run (h.mono fun _ _ _ _ => trivial)
    (connect_pool (E := fun ev => ev ∈ tr) ip port certHashHex peerIdHex) trivial fun ev hev => hev
  refine ⟨hopens, fun k conn hc => ⟨((hok _ rfl _ rfl).2 k conn hc).1, ?_⟩⟩
  rintro ⟨pre, ev, post, htr, -⟩
  simp at htr

/-- **Dead sessions are not handed out** in any run, over any calls that take turns, in which
    the round trips that fail over connections of the pool are those of quote attempts with
    attempts left: what `connection_for` returns is in the pool when it returns, newly opened
    if the pool had no connection to the peer, and no connection of the pool is dead. -/
theorem connectionFor_live {ip : String} {port : UInt16} {certHashHex peerIdHex : String}
    {cells₀ : Cells} {tr₀ : List (Ev Net)}
    (hconnect : Run (Any Unit) (WasmClient.connect C ip port certHashHex peerIdHex) () tr₀
      (some (.ok (client, cells₀))) ()) :
    (∀ (I : Cells → Cells → Prop) peer s tr conn s',
      Run I (connectionFor C peer) s tr (some (.ok conn)) s' →
        s'.pool[peer.peerId]? = some conn ∧
        (s.pool[peer.peerId]? = none → Authentic C (· ∈ tr) conn)) ∧
    ∀ acts (c : Turns.Conf Net Cells Unit ClientCall),
      Lts.Run (fun c a c' => Turns.Step (client.perform S C) c a c' ∧
        Turns.Meets (WhenRetried C) c a) ⟨cells₀, []⟩ acts c →
      (c.Idle ∨ ∃ acts' i f, acts = acts' ++ [.access i f]) →
      ∀ (k : XorName) conn, c.state.pool[k]? = some conn →
        ¬ Dead (tr₀ ++ Turns.events acts) conn := by
  refine ⟨fun I peer s tr conn s' => connectionFor_pooled, fun acts c hrun hc k conn hk hd => ?_⟩
  obtain ⟨hopens, hlive⟩ := connect_live hconnect
  refine (Turns.invariant perform_live hlive hrun hc k conn hk).2 ?_
  -- the round trip that failed comes after `connect`
  obtain ⟨pre, ev, post, htr, hf, hpost⟩ := hd
  rcases List.append_eq_append_iff.1 htr with ⟨mid, rfl, hev⟩ | ⟨mid, rfl, hev⟩
  · exact ⟨mid, ev, post, hev, hf, hpost⟩
  · cases mid with
    | nil => exact ⟨[], ev, post, hev.symm, hf, hpost⟩
    | cons ev' mid =>
      obtain ⟨rfl, -⟩ := List.cons.inj hev
      obtain ⟨tag, payload, e, rfl⟩ := hf
      exact (hopens _ (List.mem_append_right _ List.mem_cons_self)).elim

/-! ## An instance -/

/-- Connect to the node at its address, with its certificate hash. -/
def connectHonest : Prog Net Unit (Except String (WasmClient × Cells)) :=
  WasmClient.connect .transparent honestPeer.ip honestPeer.port (hexEncode honestPeer.certHash.1) ""

/-- A client of the network, whose bootstrap node is the one node. -/
theorem connect_run : ∃ (client : WasmClient) (cells : Cells) (tr : List (Ev Net)),
    client.bootstrap.transport = 0 ∧ client.bootstrap.peerId = honestPeer.peerId ∧
    cells.pool[honestPeer.peerId]? = some client.bootstrap ∧
    Run (Any Unit) connectHonest () tr (some (.ok (client, cells))) () := by
  have hnone : ∀ p, (none : Option XorName) = some p → p = honestPeer.peerId := by rintro p ⟨⟩
  obtain ⟨conn, ht, hid, hrun⟩ :=
    establish_run (I := Any Unit) (fun _ => trivial) 0 hnone ()
  have hopen : Run (Any Unit) (ask (S := Net) (.transportConnect honestPeer.ip honestPeer.port
      (hexEncode honestPeer.certHash.1))) () [⟨.transportConnect honestPeer.ip honestPeer.port
        (hexEncode honestPeer.certHash.1), .ok 0⟩] (some (.ok 0)) () := .call _ trivial .ret
  rw [connectHonest, WasmClient.connect, parseOptPeerId, if_pos rfl, ret_ok_bindE]
  exact ⟨⟨conn⟩, _, _, ht, hid, by simp [hid], .seqE (.seqE hopen hrun) .ret⟩

/-- A query that is answered with the peers. -/
theorem closestPeers_run {peers : List PeerConnectInfo}
    (hl : (DiscoveryMessage.put ⟨1, .closestPeersResponse ⟨peers⟩⟩).length < 2 ^ 32)
    (conn : NodeConnection) (address : XorName) (cells : Cells) : ∃ seq,
    Run Eq (conn.closestPeers .transparent address) cells
      [⟨.nextSeq conn, seq⟩, ⟨.roundTrip conn protoDiscovery
          (DiscoveryMessage.put ⟨seq.toUInt64, .closestPeersRequest ⟨address⟩⟩),
          .ok (DiscoveryMessage.put ⟨1, .closestPeersResponse ⟨peers⟩⟩)⟩]
      (some (.ok peers)) cells := by
  rw [closestPeers_eq, ← peersResult_put (C := .transparent) hl]
  exact ⟨1, .call _ rfl (.call _ rfl .ret)⟩

/-- A fetch over the bootstrap connection: its last event is the answer to the GET. -/
theorem fetchChunk_run {cells : Cells}
    (hpool : cells.pool[honestPeer.peerId]? = some client.bootstrap) (address : XorName)
    (answer : Except String Bytes) : ∃ r tr,
    Run Eq (client.fetchChunk .transparent (hexEncode address.1)) cells
      (tr ++ [⟨.roundTrip client.bootstrap protoChunk (ChunkMessage.put ⟨1, .getRequest ⟨address⟩⟩),
        answer⟩]) (some r) cells := by
  have hl : (DiscoveryMessage.put ⟨1, .closestPeersResponse ⟨[honestPeer]⟩⟩).length < 2 ^ 32 :=
    length_peers_lt (by decide) (by simp)
  obtain ⟨seq, hpeers⟩ := closestPeers_run hl client.bootstrap address cells
  have hconn := connectionFor_hit (C := .transparent) (I := Eq) hpool
  have hget : Run Eq (client.bootstrap.getVerified .transparent address) cells
      [⟨.nextSeq client.bootstrap, 1⟩,
        ⟨.roundTrip client.bootstrap protoChunk (ChunkMessage.put ⟨1, .getRequest ⟨address⟩⟩), answer⟩]
      (some (getResult .transparent address answer)) cells := by
    rw [getVerified_eq]
    exact .call _ rfl (.call _ rfl .ret)
  have hfrom : ∃ r, Run Eq (getFrom .transparent address [honestPeer] "") cells
      [⟨.nextSeq client.bootstrap, 1⟩,
        ⟨.roundTrip client.bootstrap protoChunk (ChunkMessage.put ⟨1, .getRequest ⟨address⟩⟩), answer⟩]
      (some r) cells := by
    cases hr : getResult .transparent address answer with
    | ok content =>
      rw [hr] at hget
      exact ⟨_, .seq hconn (.seq hget .ret)⟩
    | error e =>
      rw [hr] at hget
      exact ⟨_, .seq hconn (.seq hget .ret)⟩
  obtain ⟨r, hfrom⟩ := hfrom
  have hdirect : Run Eq (client.getDirect .transparent address) cells _ (some r) cells :=
    .seqE hpeers hfrom
  rw [WasmClient.fetchChunk, parseAddress_hexEncode, ret_ok_bindE]
  exact ⟨r, [_, _, _], hdirect⟩

/-- The run of the client in which it fetches one chunk. -/
theorem perform_fetchChunk_run {cells : Cells}
    (hpool : cells.pool[honestPeer.peerId]? = some client.bootstrap) (address : XorName)
    (answer : Except String Bytes) : ∃ acts c tr,
    Lts.Run (Turns.Step (client.perform .transparent .transparent)) ⟨cells, []⟩ acts c ∧ c.Idle ∧
      c.state = cells ∧ Turns.events acts = tr ++
        [⟨.roundTrip client.bootstrap protoChunk (ChunkMessage.put ⟨1, .getRequest ⟨address⟩⟩),
          answer⟩] := by
  obtain ⟨r, tr, hfetch⟩ := fetchChunk_run hpool address answer
  let call : ClientCall := .fetchChunk (hexEncode address.1)
  have hspawn : Turns.Step (client.perform .transparent .transparent) ⟨cells, []⟩ (.spawn call)
      ⟨cells, [(call, client.perform .transparent .transparent call)]⟩ := .spawn (by rintro t ⟨⟩)
  obtain ⟨acts, hrun, htr, -⟩ := Turns.run_task (client.perform .transparent .transparent)
    (c := ⟨cells, [(call, client.perform .transparent .transparent call)]⟩) (i := 0) rfl
    (by rintro (_ | j) t hj ht; exacts [absurd rfl hj, by simp at ht]) (hfetch.seq .ret)
  refine ⟨_, _, tr, hrun.cons hspawn, ?_, rfl, htr.trans (List.append_nil _)⟩
  simp [Turns.Conf.Idle, Prog.Idle]

/-- What discovery names: the node, and others. -/
def discovered : List PeerConnectInfo := honestPeer :: peersOf sevenNodes

theorem length_discovered_lt :
    (DiscoveryMessage.put ⟨1, .closestPeersResponse ⟨discovered⟩⟩).length < 2 ^ 32 :=
  length_peers_lt (by decide) (by decide)

/-- The upload of a byte. -/
def uploadCall : ClientCall := .upload [7] (toHex (zeros 20)) (toHex (zeros 20))

/-- It begins with a query and the quote attempts at the first peer. -/
theorem upload_firstQuote (client : WasmClient) : ∃ address dataSize k,
    client.perform .transparent .transparent uploadCall =
      client.bootstrap.closestPeers .transparent address >>= k ∧
    ∃ rest, k (.ok discovered) =
      attemptQuote .transparent honestPeer address dataSize 0 quoteAttempts "no attempt" >>=
        rest := by
  have hitems : ∃ x items mapAddress,
      uploadItems .transparent .transparent [7] = .ok (x :: items, mapAddress) := ⟨_, _, _, rfl⟩
  obtain ⟨x, items, mapAddress, hi⟩ := hitems
  have htake : discovered.take closeGroupSize = honestPeer :: peersOf (sevenNodes.take 6) := rfl
  rw [uploadCall, WasmClient.perform, WasmClient.upload, parseEthAddress_toHex, ret_ok_bindE,
    ret_ok_bindE, hi, ret_ok_bindE]
  dsimp only
  rw [bindE_bind, WasmClient.storeAll, bindE_bind, WasmClient.storeOne, bindE_bind]
  refine ⟨x.1, x.2.length, _, rfl, ?_⟩
  dsimp only
  rw [if_neg (by decide), htake, bindE_bind, quotePeers, bindE_bind]
  exact ⟨_, rfl⟩

/-- The upload waits for a quote over the connection, with `n` attempts left. -/
def awaitsQuote (cells : Cells) (conn : NodeConnection) (address : XorName) (dataSize n : ℕ)
    (rest : Except String Attempted → Prog Net Cells Unit) : Turns.Conf Net Cells Unit ClientCall :=
  ⟨cells, [(uploadCall, quoteOver .transparent honestPeer address dataSize 0 n rest (.ok conn))]⟩

theorem awaitsQuote_idle {cells : Cells} {conn : NodeConnection} {address : XorName}
    {dataSize n : ℕ} {rest : Except String Attempted → Prog Net Cells Unit} :
    (awaitsQuote cells conn address dataSize n rest).Idle := by
  intro t ht
  rw [List.mem_singleton.1 ht]
  trivial

theorem others_idle (t : ClientCall × Prog Net Cells Unit) :
    ∀ (j : ℕ) t', j ≠ 0 → [t][j]? = some t' → t'.2.Idle := by
  rintro (_ | j) t' hj ht
  · exact absurd rfl hj
  · simp at ht

/-- The query, and the lookup of the bootstrap session. -/
theorem firstQuote_run {cells : Cells}
    (hpool : cells.pool[honestPeer.peerId]? = some client.bootstrap) :
    ∃ address dataSize rest acts, Lts.Run (Turns.Step (client.perform .transparent .transparent))
      ⟨cells, []⟩ acts (awaitsQuote cells client.bootstrap address dataSize 2 rest) ∧
      ∀ ev ∈ Turns.events acts, ∀ conn, ¬ Fails conn ev := by
  let api := client.perform .transparent .transparent
  obtain ⟨address, dataSize, k, hperform, rest, hk⟩ := upload_firstQuote client
  have hspawn : Turns.Step api ⟨cells, []⟩ (.spawn uploadCall)
      ⟨cells, [(uploadCall, api uploadCall)]⟩ :=
    .spawn (by rintro t ⟨⟩)
  obtain ⟨seq, hpeers⟩ := closestPeers_run length_discovered_lt client.bootstrap address cells
  obtain ⟨as₁, hrun₁, hev₁, -⟩ := Turns.run_bind api (c := ⟨cells, [(uploadCall, api uploadCall)]⟩)
    (i := 0) (congrArg (fun p => some (uploadCall, p)) hperform) (others_idle _) hpeers
  obtain ⟨as₂, hrun₂, hev₂, -⟩ := Turns.run_bind api
    (c := ⟨cells, [(uploadCall, k (.ok discovered))]⟩) (i := 0)
    (congrArg (fun p => some (uploadCall, p)) (hk.trans (attemptQuote_bind _ _ _ _ _ _ _ rest)))
    (others_idle _) (connectionFor_hit (C := .transparent) hpool)
  refine ⟨address, dataSize, rest, _, (hrun₁.append hrun₂).cons hspawn, ?_⟩
  have hevents : Turns.events (.spawn uploadCall :: (as₁ ++ as₂)) =
      Turns.events as₁ ++ Turns.events as₂ := Turns.events_append as₁ as₂
  rw [hevents, hev₁, hev₂]
  simp [Fails]

/-- The eviction, and the next attempt over a new connection. -/
theorem nextQuote_run (client : WasmClient) (cells : Cells) (address : XorName) (dataSize : ℕ)
    (e : String) (rest : Except String Attempted → Prog Net Cells Unit) : ∃ conn acts,
    conn.transport = 1 ∧ Lts.Run (Turns.Step (client.perform .transparent .transparent))
      ⟨cells, [(uploadCall, afterQuote .transparent honestPeer address dataSize 0 2
        (quoteResult .transparent honestPeer address (.error e)) >>= rest)]⟩ acts
      (awaitsQuote ((cells.dropConn honestPeer.peerId).putConn honestPeer.peerId conn) conn address
        dataSize 1 rest) ∧
    Turns.events acts = ⟨.transportConnect honestPeer.ip honestPeer.port
      (hexEncode honestPeer.certHash.1), .ok 1⟩ :: handshakeEvents 1 := by
  have hmiss : (cells.dropConn honestPeer.peerId).pool[honestPeer.peerId]? = none := by
    simp [Cells.dropConn]
  obtain ⟨conn, ht, -, hopen⟩ := openConnection_run 1 (cells.dropConn honestPeer.peerId)
  have hreopen : ∀ tr s', Run Eq (openConnection .transparent honestPeer)
      (cells.dropConn honestPeer.peerId) tr (some (.ok conn)) s' →
      Run Eq (.sync (Cells.dropConn honestPeer.peerId) fun _ =>
        connectionFor .transparent honestPeer) cells tr (some (.ok conn)) s' := by
    intro tr s' h
    refine .sync ?_
    rw [connectionFor_eq]
    refine .sync ?_
    dsimp only [id]
    rw [hmiss]
    exact h
  have hnext : afterQuote .transparent honestPeer address dataSize 0 2
      (quoteResult .transparent honestPeer address (.error e)) >>= rest =
      (.sync (Cells.dropConn honestPeer.peerId) fun _ => connectionFor .transparent honestPeer) >>=
        quoteOver .transparent honestPeer address dataSize 0 1 rest :=
    (afterQuote_failed _ (by decide) e rest).trans
      (congrArg (Prog.sync _) (funext fun _ => attemptQuote_bind _ _ _ _ _ _ _ rest))
  obtain ⟨acts, hrun, hev, -⟩ := Turns.run_bind (client.perform .transparent .transparent)
    (c := ⟨cells, [(uploadCall, afterQuote .transparent honestPeer address dataSize 0 2
      (quoteResult .transparent honestPeer address (.error e)) >>= rest)]⟩) (i := 0)
    (congrArg (fun p => some (uploadCall, p)) hnext) (others_idle _) (hreopen _ _ hopen)
  exact ⟨conn, acts, ht, hrun, hev⟩

/-- A quote attempt of the upload fails over the bootstrap session; the session is evicted and
    the peer is reopened. -/
theorem connectionFor_live_reopened : ∃ (client : WasmClient) (cells₀ : Cells) (tr₀ : List (Ev Net))
    (acts : List (Turns.Act Net Cells ClientCall)) (c : Turns.Conf Net Cells Unit ClientCall)
    (conn : NodeConnection),
    Run (Any Unit) connectHonest () tr₀ (some (.ok (client, cells₀))) () ∧
    Lts.Run (Turns.Step (client.perform .transparent .transparent)) ⟨cells₀, []⟩ acts c ∧
    cells₀.pool[honestPeer.peerId]? = some client.bootstrap ∧
    Dead (tr₀ ++ Turns.events acts) client.bootstrap ∧
    c.state.pool[honestPeer.peerId]? = some conn ∧ conn ≠ client.bootstrap ∧
    ¬ Dead (tr₀ ++ Turns.events acts) conn := by
  obtain ⟨client, cells, tr₀, hzero, hid, hpool, hconnect⟩ := connect_run
  obtain ⟨address, dataSize, rest, as₁, hrun₁, hok₁⟩ := firstQuote_run hpool
  obtain ⟨conn, as₂, hone, hrun₂, hev₂⟩ :=
    nextQuote_run client cells address dataSize "channel closed" rest
  let failure : Ev Net := ⟨.roundTrip client.bootstrap protoChunk
    (quoteRequest address dataSize).put, .error "channel closed"⟩
  have hfail : Turns.Step (client.perform .transparent .transparent)
      (awaitsQuote cells client.bootstrap address dataSize 2 rest) (.answer 0 failure) _ :=
    .answer _ awaitsQuote_idle rfl
  have hretried : Turns.Meets (WhenRetried .transparent)
      (awaitsQuote cells client.bootstrap address dataSize 2 rest) (.answer 0 failure) := by
    rintro x p ⟨⟩ -
    exact .intro (by decide) hid
  -- no other round trip fails
  have hok₁' : ∀ ev ∈ Turns.events as₁, ∀ s p, WhenRetried .transparent s p ev := by
    rintro ev hev s p ⟨conn', hf, -⟩
    exact absurd hf (hok₁ ev hev conn')
  have hok₂ : ∀ ev ∈ Turns.events as₂, ∀ s p, WhenRetried .transparent s p ev := by
    rintro ev hev s p ⟨conn', ⟨tag, payload, e, rfl⟩, -⟩
    rw [hev₂] at hev
    simp [handshakeEvents] at hev
  have hmeets₁ := Turns.meets_of_events hrun₁ hok₁'
  have hmeets₂ := Turns.meets_of_events hrun₂ hok₂
  have hall := hmeets₁.append (hmeets₂.cons ⟨hfail, hretried⟩)
  have hevents : Turns.events (as₁ ++ .answer 0 failure :: as₂) =
      Turns.events as₁ ++ failure :: Turns.events as₂ := Turns.events_append as₁ _
  refine ⟨client, cells, tr₀, _, _, conn, hconnect, hall.mono fun _ _ _ _ hst => hst.1, hpool, ?_,
    Cells.getElem?_putConn_self, ?_, ?_⟩
  · rw [hevents, ← List.append_assoc]
    refine ⟨_, _, _, rfl, ⟨_, _, _, rfl⟩, ?_⟩
    rw [hev₂, hzero]
    simp [handshakeEvents]
  · rintro rfl
    rw [hzero] at hone
    cases hone
  · exact (connectionFor_live hconnect).2 _ _ hall (Or.inl awaitsQuote_idle) _ _
      Cells.getElem?_putConn_self

/-- **A dead session is handed out**: the GET of a fetch fails with "channel closed", and a
    later `connection_for` returns the connection. -/
theorem deadSession_handedOut : ∃ (client : WasmClient) (cells₀ : Cells) (tr₀ : List (Ev Net))
    (acts : List (Turns.Act Net Cells ClientCall)) (c : Turns.Conf Net Cells Unit ClientCall)
    (conn : NodeConnection),
    Run (Any Unit) connectHonest () tr₀ (some (.ok (client, cells₀))) () ∧
    Lts.Run (Turns.Step (client.perform .transparent .transparent)) ⟨cells₀, []⟩ acts c ∧ c.Idle ∧
    Dead (tr₀ ++ Turns.events acts) conn ∧
    Run Eq (connectionFor .transparent honestPeer) c.state [] (some (.ok conn)) c.state := by
  obtain ⟨client, cells, tr₀, -, -, hpool, hconnect⟩ := connect_run
  obtain ⟨acts, c, tr, hrun, hidle, rfl, hev⟩ :=
    perform_fetchChunk_run hpool (zeros 32) (.error "channel closed")
  refine ⟨client, _, tr₀, acts, c, client.bootstrap, hconnect, hrun, hidle, ?_, ?_⟩
  · rw [hev, ← List.append_assoc]
    exact ⟨_, _, [], rfl, ⟨_, _, _, rfl⟩, by simp⟩
  · exact connectionFor_hit hpool

end AntClient
