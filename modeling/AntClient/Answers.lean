/-
  The client over its sessions: the calls of its interface (`lib.rs`), whose round trips
  take their way through the lock, the counter and the buffer of a connection (`conn.rs`).

  * `clientRun_reachable`: every configuration of the client over its sessions is one of
    the client whose round trips are answered at once.
  * `answers_authentic`: an answer that any call of the client has got was sealed for this
    request by the node that the connection authenticated, and for no other request.
-/
import AntClient.Pool
import AntClient.Session
import AntClient.Lib.Served

namespace AntClient

open Async Prog

deriving instance DecidableEq for SessionCipher, NodeConnection

/-! ## The client over its sessions -/

/-- The sessions of the connections: they begin the round trips, and a look at the counter
    reads theirs. -/
def sessions (C : Crates) : Service Net NodeConnection Session Act where
  step conn := Step C conn.cipher
  begins
    | .roundTrip conn tag payload => some (conn, .start tag payload)
    | _ => none
  begun s := s.calls.length
  answers s n
    | .roundTrip _ tag payload, r => s.calls[n]? = some ⟨tag, payload, .done r⟩
    | _, _ => False
  allows session
    | .nextSeq conn, seq => seq = (session conn).conn.nextSeq
    | _, _ => True
  begun_begins := by
    intro e o s a s' hb hs
    cases e with
    | roundTrip conn tag payload =>
      cases hb
      cases hs with
      | start => simp
      | call _ hs => cases hs
    | _ => cases hb
  begun_own := by
    intro o s a s' hb hs
    cases hs with
    | @start k calls tag payload => exact absurd rfl (hb (.roundTrip o tag payload) o)
    | call => exact List.length_set
    | node => rfl

variable {DataMap : Type} (S : SelfEncryption DataMap) (C : Crates)

/-- A client over its sessions. -/
abbrev ClientConf := Served.Conf Net Cells NodeConnection Session

/-- A step of a client over its sessions. -/
abbrev ClientAct := Served.Act Net Cells NodeConnection Act

/-- The runs of a connected client over its sessions.  The buffer of a session may hold
    bytes that came with the handshake. -/
abbrev ClientRun (client : WasmClient) (cells₀ : Cells) (buffers : NodeConnection → FrameBuf)
    (acts : List ClientAct) (c : ClientConf) : Prop :=
  Lts.Run (Served.Step (sessions C) fun p => ∃ call, client.perform S C call = p)
    ⟨cells₀, [], fun conn => .fresh (buffers conn)⟩ acts c

/-- The log of a session. -/
abbrev sessionLog (conn : NodeConnection) (acts : List ClientAct) : List Act :=
  Served.log conn acts

/-- The event is a request over the connection that was answered with a response. -/
def isResponse (conn : NodeConnection) : Ev Net → Bool
  | ⟨.roundTrip c _ _, .ok _⟩ => c = conn
  | _ => false

/-- The requests over the connection that were answered with a response. -/
def responses (conn : NodeConnection) (tr : List (Ev Net)) : List (Ev Net) :=
  tr.filter (isResponse conn)

/-- The log of a session holds the request of the event under this number, and the node has
    sealed the response for it. -/
inductive Response (log : List Act) : Ev Net → UInt32 → Prop
  | mk {conn tag payload body seq env c i} :
      .sealRequest i seq (tag :: payload) (.ok env) ∈ log → .node seq (tag :: body) c ∈ log →
      Response log ⟨.roundTrip conn tag payload, .ok body⟩ seq

section
variable {S C} {client : WasmClient} {cells₀ : Cells} {buffers : NodeConnection → FrameBuf}
  {acts : List ClientAct} {c : ClientConf}

/-- What a session is at the end of a run of the client. -/
theorem session_run (h : ClientRun S C client cells₀ buffers acts c) (conn : NodeConnection) :
    SessionRun C conn.cipher (buffers conn) (sessionLog conn acts) (c.objs conn) :=
  Served.log_run conn h

/-- **The client over its sessions** is a client whose round trips are answered at once. -/
theorem clientRun_reachable {ip certHashHex peerIdHex : String} {port : UInt16}
    {tr₀ : List (Ev Net)} (hconnect : Run (Any Unit)
      (WasmClient.connect C ip port certHashHex peerIdHex) () tr₀ (some (.ok (client, cells₀))) ())
    (h : ClientRun S C client cells₀ buffers acts c) :
    client.Reachable S C c.state (c.tasks.map Prod.fst) (tr₀ ++ Served.events acts) :=
  ⟨ip, port, certHashHex, peerIdHex, cells₀, tr₀, _, rfl, hconnect, Served.reach rfl h⟩

/-! ## A call and its response -/

theorem IdealAead.left {cipher : SessionCipher} {log more : List Act}
    (h : IdealAead C cipher (log ++ more)) : IdealAead C cipher log := by
  rintro pre i seq r post respSeq ct p rfl
  exact h pre i seq r (post ++ more) respSeq ct p (by simp)

/-- A call that has a response has sealed its request under a number of its own, and the
    node has sealed the response for this number. -/
theorem response_of_done {cipher : SessionCipher} {frameBuf : FrameBuf} {log : List Act}
    {s : Session} (h : SessionRun C cipher frameBuf log s) (hi : IdealAead C cipher log) {i : ℕ}
    {tag : UInt8} {payload body : Bytes}
    (hd : s.calls[i]? = some ⟨tag, payload, .done (.ok body)⟩) :
    ∃ seq env ct, .sealRequest i seq (tag :: payload) (.ok env) ∈ log ∧
      .node seq (tag :: body) ct ∈ log := by
  obtain ⟨seq, frame, env, hs, hck, hr⟩ := history h i _ hd
  obtain ⟨ct, rfl, ho⟩ := SessionCipher.checkResponse_ok hr
  obtain ⟨pre, post, he⟩ := List.append_of_mem hck
  obtain ⟨hsealed, -⟩ := hi pre i seq _ post seq ct _ he ho
  generalize hn : buildNonce seq .serverToClient = n at hsealed
  cases hsealed with
  | client => cases (buildNonce_inj hn).2
  | node hm =>
    cases (buildNonce_inj hn).1
    exact ⟨seq, env, ct, hs, he ▸ List.mem_append_left _ hm⟩

/-- A number is sealed by one call. -/
theorem sealed_once {cipher : SessionCipher} {frameBuf : FrameBuf} {log : List Act} {s : Session}
    (h : SessionRun C cipher frameBuf log s) {i j : ℕ} {seq : UInt32} {p q : Bytes}
    {r r' : Except String Bytes} (hi : .sealRequest i seq p r ∈ log)
    (hj : .sealRequest j seq q r' ∈ log) : i = j := by
  have hsorted := (sealsOk h).sorted
  obtain ⟨as, bs, rfl⟩ := List.append_of_mem hi
  rw [sealSeqs, List.filterMap_append, List.filterMap_cons_some (f := Act.sealSeq) rfl,
    List.pairwise_append, List.pairwise_cons] at hsorted
  rcases List.mem_append.1 hj with hj | hj
  · exact absurd (hsorted.2.2 seq (List.mem_filterMap.2 ⟨_, hj, rfl⟩) seq List.mem_cons_self)
      (UInt32.lt_irrefl seq)
  · rcases List.mem_cons.1 hj with hj | hj
    · cases hj
      rfl
    · exact absurd (hsorted.2.1.1 seq (List.mem_filterMap.2 ⟨_, hj, rfl⟩)) (UInt32.lt_irrefl seq)

/-! ## Every answer -/

theorem isResponse_iff {conn : NodeConnection} {ev : Ev Net} : isResponse conn ev = true ↔
    ∃ tag payload body, ev = ⟨.roundTrip conn tag payload, .ok body⟩ := by
  constructor
  · intro h
    unfold isResponse at h
    split at h
    · rename_i c tag payload body
      rw [of_decide_eq_true h]
      exact ⟨tag, payload, body, rfl⟩
    · cases h
  · rintro ⟨tag, payload, body, rfl⟩
    exact decide_eq_true rfl

/-- The requests over the connection that were answered with a response, with their numbers
    on the session. -/
def finished (conn : NodeConnection) : List ClientAct → List (ℕ × Ev Net) :=
  List.filterMap fun
    | .finish _ _ n ev => if isResponse conn ev then some (n, ev) else none
    | _ => none

/-- The request of the call `x.1` was sealed under the number, and `x.2` is its response. -/
structure SealedFor (log : List Act) (x : ℕ × Ev Net) (seq : UInt32) : Prop where
  request : ∃ p env, .sealRequest x.1 seq p (.ok env) ∈ log
  response : Response log x.2 seq

/-- A finished request was answered under a number that is sealed for it. -/
theorem finish_response (h : ClientRun S C client cells₀ buffers acts c)
    (hideal : ∀ conn, IdealAead C conn.cipher (sessionLog conn acts)) {conn : NodeConnection}
    {n : ℕ} {ev : Ev Net} (hm : (n, ev) ∈ finished conn acts) :
    ∃ seq, SealedFor (sessionLog conn acts) (n, ev) seq := by
  obtain ⟨a, ha, hf⟩ := List.mem_filterMap.1 hm
  split at hf
  · rename_i i o m ev'
    split at hf
    · rename_i hr
      cases hf
      obtain ⟨tag, payload, body, rfl⟩ := isResponse_iff.1 hr
      obtain ⟨pre, post, he⟩ := List.append_of_mem ha
      obtain ⟨s, b, hb, hrun, hans⟩ := Served.finish_spec (he ▸ h)
      cases hb
      have hlog : sessionLog conn acts = sessionLog conn pre ++ sessionLog conn (_ :: post) :=
        (congrArg (sessionLog conn) he).trans (Served.log_append conn pre _)
      obtain ⟨seq, env, ct, hs, hn⟩ := response_of_done hrun (IdealAead.left (hlog ▸ hideal conn)) hans
      rw [hlog]
      exact ⟨seq, ⟨tag :: payload, env, List.mem_append_left _ hs⟩,
        .mk (List.mem_append_left _ hs) (List.mem_append_left _ hn)⟩
    · cases hf
  · cases hf

/-- The responses come from finished requests, with different numbers. -/
theorem responses_eq (h : ClientRun S C client cells₀ buffers acts c) (conn : NodeConnection) :
    responses conn (Served.events acts) = (finished conn acts).map Prod.snd ∧
      ((finished conn acts).map Prod.fst).Nodup := by
  have hanswer : ∀ i ev, .answer i ev ∈ acts → isResponse conn ev = false := by
    intro i ev hm
    by_contra hr
    obtain ⟨tag, payload, body, rfl⟩ := isResponse_iff.1 (Bool.not_eq_false _ ▸ hr)
    obtain ⟨pre, post, rfl⟩ := List.append_of_mem hm
    cases Served.answer_spec h
  have hfinish : ∀ i o n ev, .finish i o n ev ∈ acts → isResponse conn ev = true → o = conn := by
    intro i o n ev hm hr
    obtain ⟨tag, payload, body, rfl⟩ := isResponse_iff.1 hr
    obtain ⟨pre, post, rfl⟩ := List.append_of_mem hm
    obtain ⟨s, b, hb, -, -⟩ := Served.finish_spec h
    cases hb
    rfl
  have hboth : responses conn (Served.events acts) = (finished conn acts).map Prod.snd ∧
      (((finished conn acts).map Prod.fst).map fun n => (conn, n)).Sublist (Served.ended acts) := by
    clear h
    induction acts with
    | nil => exact ⟨rfl, .slnil⟩
    | cons a acts ih =>
      obtain ⟨h1, h2⟩ := ih (fun i ev hm => hanswer i ev (List.mem_cons_of_mem _ hm))
        fun i o n ev hm => hfinish i o n ev (List.mem_cons_of_mem _ hm)
      cases a with
      | answer i ev =>
        have hr := hanswer i ev List.mem_cons_self
        exact ⟨by simpa [responses, Served.events, finished, hr] using h1, h2⟩
      | finish i o n ev =>
        by_cases hr : isResponse conn ev = true
        · obtain rfl := hfinish i o n ev List.mem_cons_self hr
          have hf : finished o (.finish i o n ev :: acts) = (n, ev) :: finished o acts :=
            List.filterMap_cons_some (if_pos hr)
          rw [hf]
          exact ⟨by simpa [responses, Served.events, hr] using h1, h2.cons_cons _⟩
        · have hf : finished conn (.finish i o n ev :: acts) = finished conn acts :=
            List.filterMap_cons_none (if_neg hr)
          rw [hf]
          exact ⟨by simpa [responses, Served.events, hr] using h1, h2.cons _⟩
      | _ => exact ⟨h1, h2⟩
  exact ⟨hboth.1, .of_map _ (hboth.2.nodup (Served.ended_nodup h))⟩

/-- Elements with different keys that `P` relates to values, each value to one key, are
    related to different values. -/
theorem exists_forall₂_nodup {α β κ : Type} {P : α → β → Prop} {key : α → κ} {l : List α}
    (hl : (l.map key).Nodup) (hP : ∀ a b x, P a x → P b x → key a = key b)
    (h : ∀ a ∈ l, ∃ x, P a x) : ∃ xs : List β, xs.Nodup ∧ List.Forall₂ P l xs := by
  induction l with
  | nil => exact ⟨[], .nil, .nil⟩
  | cons a l ih =>
    obtain ⟨ha, hl⟩ := List.nodup_cons.1 hl
    obtain ⟨xs, hxs, hall⟩ := ih hl fun b hb => h b (List.mem_cons_of_mem _ hb)
    obtain ⟨x, hx⟩ := h a List.mem_cons_self
    refine ⟨x :: xs, List.nodup_cons.2 ⟨fun hm => ?_, hxs⟩, .cons hx hall⟩
    obtain ⟨b, hb, hbx⟩ := exists_of_mem_right hall x hm
    exact ha (hP a b x hx hbx ▸ List.mem_map_of_mem hb)

end

/-- **Answers are authentic**.  In every run of the client over its sessions, of any calls
    in any interleaving and with any network, the configuration is one of the client whose
    round trips are answered at once; a connection over which a response was received is
    authentic; and the responses received over it belong to different sequence numbers,
    under each of which the request was sealed and the node has sealed this response. -/
theorem answers_authentic {client : WasmClient} {cells₀ : Cells} {ip certHashHex peerIdHex : String}
    {port : UInt16} {tr₀ : List (Ev Net)} (hconnect : Run (Any Unit)
      (WasmClient.connect C ip port certHashHex peerIdHex) () tr₀ (some (.ok (client, cells₀))) ())
    {buffers : NodeConnection → FrameBuf} {acts : List ClientAct}
    {c : ClientConf} (h : ClientRun S C client cells₀ buffers acts c)
    (hideal : ∀ conn, IdealAead C conn.cipher (sessionLog conn acts)) :
    client.Reachable S C c.state (c.tasks.map Prod.fst) (tr₀ ++ Served.events acts) ∧
      ∀ conn, (∀ ev ∈ responses conn (Served.events acts),
          Authentic C (· ∈ tr₀ ++ Served.events acts) conn) ∧
        ∃ seqs : List UInt32, seqs.Nodup ∧
          List.Forall₂ (Response (sessionLog conn acts)) (responses conn (Served.events acts))
            seqs := by
  have hreach := clientRun_reachable hconnect h
  refine ⟨hreach, fun conn => ⟨fun ev hev => ?_, ?_⟩⟩
  · obtain ⟨hev, hr⟩ := List.mem_filter.1 hev
    obtain ⟨tag, payload, body, rfl⟩ := isResponse_iff.1 hr
    exact hreach.pool.2 _ (List.mem_append_right _ hev) conn rfl
  · obtain ⟨heq, hnodup⟩ := responses_eq h conn
    -- a number is sealed by one call of the session
    have honce : ∀ (x y : ℕ × Ev Net) seq, SealedFor (sessionLog conn acts) x seq →
        SealedFor (sessionLog conn acts) y seq → x.1 = y.1 := by
      rintro x y seq ⟨⟨p, env, hx⟩, -⟩ ⟨⟨q, env', hy⟩, -⟩
      exact sealed_once (session_run h conn) hx hy
    obtain ⟨seqs, hseqs, hall⟩ := exists_forall₂_nodup hnodup honce fun x hx =>
      finish_response h hideal hx
    refine ⟨seqs, hseqs, ?_⟩
    rw [heq, List.forall₂_map_left_iff]
    exact hall.imp fun x seq hx => hx.response

/-! ## An instance -/

section Instance

/-- What is sealed with the transparent cipher under the first number. -/
private def sealedFirst (d : Direction) (p : Bytes) : Bytes :=
  (buildNonce 1 d).1 ++ ([0, 0, 0, 0] ++ p)

/-- A request of discovery after `start`, and its response. -/
private def discoveryExchange (payload : Bytes) : List Act :=
  [.lock 0, .number 0 (.ok 1),
    .sealRequest 0 1 (2 :: payload) (.ok (envelope 1 (sealedFirst .clientToServer (2 :: payload)))),
    .send 0 (envelope 1 (sealedFirst .clientToServer (2 :: payload))) (.ok ()), .poll 0,
    .node 1 [2, 9] (sealedFirst .serverToClient [2, 9]),
    .recv 0 (some (encodeFrame (envelope 1 (sealedFirst .serverToClient [2, 9])))),
    .check 0 1 (envelope 1 (sealedFirst .serverToClient [2, 9])) (.ok [9]), .ret 0 (.ok [9])]

theorem discoveryExchange_run (cipher : SessionCipher) (payload : Bytes) :
    Lts.Run (Step .transparent cipher) ⟨⟨1, none, .new⟩, [⟨2, payload, .waiting⟩]⟩
      (discoveryExchange payload) ⟨⟨2, none, .new⟩, [⟨2, payload, .done (.ok [9])⟩]⟩ := by
  have hp : IsFrame (envelope 1 (sealedFirst .serverToClient [2, 9])) := by
    constructor <;> decide
  refine .cons (.call rfl (.lock rfl)) ?_
  refine .cons (.call rfl (.number rfl)) ?_
  refine .cons (.call rfl (.sealRequest rfl)) ?_
  refine .cons (.call rfl .send) ?_
  refine .cons (.call rfl (.poll rfl)) ?_
  refine .cons (.node rfl) ?_
  refine .cons (.call rfl (.recv (FrameBuf.push_frame hp (List.append_nil _).symm))) ?_
  refine .cons (.call rfl (.check rfl)) ?_
  exact .cons (.call rfl .ret) .start

theorem discoveryExchange_ideal (cipher : SessionCipher) (payload : Bytes) :
    IdealAead .transparent cipher (.start 2 payload :: discoveryExchange payload) := by
  have h8 : IdealAead .transparent cipher (.start 2 payload :: (discoveryExchange payload).take 7) :=
    .of_no_check fun i seq frame r => by simp [discoveryExchange]
  refine (h8.snoc fun i seq r respSeq c p ha hd => ?_).snoc fun i seq r respSeq c p ha => by cases ha
  obtain ⟨rfl, rfl⟩ := envelope_inj (Act.check.inj ha).2.2.1
  have hopen : Crates.transparent.decrypt cipher.key (buildNonce 1 .serverToClient)
      (sealedFirst .serverToClient [2, 9]) = some [2, 9] := rfl
  cases hopen.symm.trans hd
  refine ⟨.node (by simp [discoveryExchange]), fun n p' hs => ?_⟩
  cases hs with
  | client hm =>
    obtain ⟨-, -, -, he⟩ : _ ∧ _ ∧ _ ∧ _ := by simpa [discoveryExchange] using hm
    have hne : sealedFirst .serverToClient [2, 9] ≠ sealedFirst .clientToServer (2 :: payload) := by
      intro h
      cases (buildNonce_inj (Subtype.ext (List.append_inj h rfl).1)).2
    exact absurd (envelope_inj he).2 hne
  | node hm =>
    obtain ⟨rfl, -⟩ : _ ∧ _ := by simpa [discoveryExchange] using hm
    rfl

/-- A client asks the bootstrap node for the peers of an address. -/
theorem closestPeersJson_run (client : WasmClient) (cells : Cells) (address : XorName) :
    ∃ acts c, ClientRun .transparent .transparent client cells (fun _ => .new) acts c ∧
      (∀ conn, IdealAead .transparent conn.cipher (sessionLog conn acts)) ∧
      ⟨.roundTrip client.bootstrap protoDiscovery
        (DiscoveryMessage.put ⟨1, .closestPeersRequest ⟨address⟩⟩), .ok [9]⟩ ∈
          Served.events acts := by
  have htask : ∃ k : Except String Bytes → Prog Net Cells Unit,
      client.perform .transparent .transparent (.closestPeersJson (hexEncode address.1)) =
      .call (.nextSeq client.bootstrap) fun seq => .call (.roundTrip client.bootstrap protoDiscovery
        (DiscoveryMessage.put ⟨seq.toUInt64, .closestPeersRequest ⟨address⟩⟩)) k := by
    rw [WasmClient.perform, WasmClient.closestPeersJson, parseAddress_hexEncode, ret_ok_bindE,
      closestPeers_eq]
    simp only [call_bindE, call_bind]
    exact ⟨_, rfl⟩
  obtain ⟨k, hk⟩ := htask
  let payload := DiscoveryMessage.put ⟨1, .closestPeersRequest ⟨address⟩⟩
  have hown : ∀ b ∈ discoveryExchange payload, ∀ e o, (sessions .transparent).begins e ≠ some (o, b) := by
    intro b hb e o he
    cases e with
    | roundTrip conn tag payload =>
      cases he
      simp [discoveryExchange] at hb
    | _ => cases he
  have hspawn : ClientRun .transparent .transparent client cells (fun _ => .new)
      [.spawn _] ⟨cells, [(_, none)], fun _ => .fresh .new⟩ :=
    Lts.Run.start.snoc (.spawn ⟨.closestPeersJson (hexEncode address.1), hk⟩)
  have hcounter : (sessions .transparent).allows (fun _ => .fresh .new) (.nextSeq client.bootstrap)
      (1 : UInt32) := rfl
  have hlook := hspawn.snoc (.answer (i := 0) (1 : UInt32) rfl rfl hcounter)
  have hbegins : (sessions .transparent).begins (.roundTrip client.bootstrap protoDiscovery payload) =
      some (client.bootstrap, .start protoDiscovery payload) := rfl
  have hbegin := hlook.snoc (.begin (i := 0) rfl hbegins .start)
  have hexchange := hbegin.append (Served.own_run (discoveryExchange_run _ payload)
    (Function.update_self _ _ _) hown)
  have hanswer : ∀ s : Session,
      s = ⟨⟨2, none, .new⟩, [⟨2, payload, .done (.ok [9])⟩]⟩ →
      (sessions .transparent).answers s 0 (.roundTrip client.bootstrap protoDiscovery payload)
        (.ok [9] : Except String Bytes) := by
    rintro s rfl
    rfl
  have hfinish := hexchange.snoc (.finish (i := 0) (n := 0) (.ok [9] : Except String Bytes) rfl hbegins
    (hanswer _ (Function.update_self client.bootstrap _ _)))
  refine ⟨_, _, hfinish, fun conn => ?_, by simp [Served.events]⟩
  rw [sessionLog, Served.log_append, Served.log_append, Served.log_append, Served.log_own]
  by_cases hconn : client.bootstrap = conn
  · subst hconn
    have hbegun : Served.log (S := Net) (σ := Cells) (A := Act) client.bootstrap
        [.begin 0 client.bootstrap (.start protoDiscovery payload)] =
        [.start protoDiscovery payload] := List.filterMap_cons_some (if_pos rfl)
    have hideal := discoveryExchange_ideal client.bootstrap.cipher payload
    rw [if_pos rfl, hbegun]
    rw [← List.append_nil (_ :: _)] at hideal
    exact hideal
  · have hbegun : Served.log (S := Net) (σ := Cells) (A := Act) conn
        [.begin 0 client.bootstrap (.start protoDiscovery payload)] = [] :=
      List.filterMap_cons_none (if_neg hconn)
    rw [if_neg hconn, hbegun]
    exact .of_no_check fun i seq frame r => by rintro ⟨⟩

/-- The client got its answer from the node it authenticated. -/
theorem answers_authentic_closestPeersJson : ∃ (client : WasmClient) (tr₀ : List (Ev Net))
    (acts : List ClientAct) (ev : Ev Net) (seq : UInt32),
    ev ∈ responses client.bootstrap (Served.events acts) ∧
      Authentic .transparent (· ∈ tr₀ ++ Served.events acts) client.bootstrap ∧
      Response (sessionLog client.bootstrap acts) ev seq := by
  obtain ⟨client, cells, tr₀, -, -, -, hconnect⟩ := connect_run
  obtain ⟨acts, c, hrun, hideal, hm⟩ := closestPeersJson_run client cells (zeros 32)
  obtain ⟨-, hall⟩ := answers_authentic .transparent .transparent hconnect hrun hideal
  obtain ⟨hauth, seqs, -, hresponses⟩ := hall client.bootstrap
  have hev := List.mem_filter.2 ⟨hm, isResponse_iff.2 ⟨_, _, _, rfl⟩⟩
  obtain ⟨seq, -, hseq⟩ := exists_of_mem_right hresponses.flip _ hev
  exact ⟨client, tr₀, acts, _, seq, hev, hauth _ hev, hseq⟩

end Instance

end AntClient
