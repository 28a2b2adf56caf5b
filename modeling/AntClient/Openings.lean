/-
  Calls of `connection_for` that run at the same time (`lib.rs`).

  The pool is looked up before the handshake and changed after it, and other calls take
  their turns in between.

  * `connectionFor_once`: if a call for a peer starts only when the pool has the peer or the
    earlier calls for it have ended, one connection to the peer is opened and all calls for
    the peer return it.
  * `connectionFor_twice`: two calls for a peer that start together open two connections.
-/
import AntClient.Honest
import AntClient.Lib.Turns

namespace AntClient

open Async Prog

/-- A system of calls of `connection_for`. -/
abbrev Callers := Turns.Conf Net Cells (Except String NodeConnection) PeerConnectInfo

variable (C : Crates)

/-! ## The states of a call -/

/-- What `connection_for` does when the pool has no connection to the peer. -/
def openConnection (peer : PeerConnectInfo) : Prog Net Cells (Except String NodeConnection) :=
  bindE (NodeConnection.connect C peer.ip peer.port (hexEncode peer.certHash.1)
    (some peer.peerId)) fun conn =>
  .sync (Cells.putConn peer.peerId conn) fun _ => .ret (.ok conn)

theorem connectionFor_eq (peer : PeerConnectInfo) : connectionFor C peer =
    .sync id fun cells => match cells.pool[peer.peerId]? with
      | some conn => .ret (.ok conn)
      | none => openConnection C peer := rfl

/-- The call is about to open a connection, which it will file under `p` and return. -/
def Opening (p : XorName) : Prog Net Cells (Except String NodeConnection) → Prop
  | .ret r => ∃ e, r = .error e
  | .sync f k => ∃ conn, f = Cells.putConn p conn ∧ ∀ s, k s = .ret (.ok conn)
  | .call _ k => ∀ r, Opening p (k r)
  | .choose _ => False

/-- The states of a call for the peer. -/
inductive CallState (peer : PeerConnectInfo) : Prog Net Cells (Except String NodeConnection) → Prop
  | started : CallState peer (connectionFor C peer)
  | opening {p} : Opening peer.peerId p → CallState peer p
  | returned (conn : NodeConnection) : CallState peer (.ret (.ok conn))

variable {C}

theorem openConnection_opening (peer : PeerConnectInfo) :
    Opening peer.peerId (openConnection C peer) := by
  intro t
  cases t with
  | error e => exact ⟨e, rfl⟩
  | ok t =>
    intro keys
    cases keys with
    | error e => exact ⟨_, rfl⟩
    | ok keys =>
      intro sent
      cases sent with
      | error e => exact ⟨e, rfl⟩
      | ok =>
        intro accept
        cases accept with
        | error e => exact ⟨e, rfl⟩
        | ok accept =>
          show Opening _ (bindE (bindE (.ret (ClientHandshake.finish C ⟨keys.2, keys.1⟩ accept
            (some peer.peerId))) _) _)
          cases ClientHandshake.finish C ⟨keys.2, keys.1⟩ accept (some peer.peerId) with
          | error e => exact ⟨e, rfl⟩
          | ok est => exact ⟨⟨t, est.cipher, est.peerId⟩, rfl, fun _ => rfl⟩

theorem CallState.call {peer : PeerConnectInfo} {e : NetReq}
    {k : Net.Ans e → Prog Net Cells (Except String NodeConnection)}
    (h : CallState C peer (.call e k)) (r : Net.Ans e) : Opening peer.peerId (k r) := by
  generalize hq : Prog.call (S := Net) e k = q at h
  cases h with
  | started => cases hq
  | opening h =>
    subst hq
    exact h r
  | returned conn => cases hq

theorem CallState.not_choose {peer : PeerConnectInfo}
    {k : Bool → Prog Net Cells (Except String NodeConnection)} : ¬ CallState C peer (.choose k) := by
  intro h
  generalize hq : Prog.choose k = q at h
  cases h with
  | started => cases hq
  | opening h =>
    subst hq
    exact h
  | returned conn => cases hq

section
variable (C)

/-- What a step does. -/
inductive CallsStep (c : Callers) : Turns.Act Net Cells PeerConnectInfo → Callers → Prop
  | spawn (peer : PeerConnectInfo) :
      CallsStep c (.spawn peer) ⟨c.state, c.tasks ++ [(peer, connectionFor C peer)]⟩
  | hit {i peer conn} : c.tasks[i]? = some (peer, connectionFor C peer) →
      c.state.pool[peer.peerId]? = some conn →
      CallsStep c (.access i id) ⟨c.state, c.tasks.set i (peer, .ret (.ok conn))⟩
  | miss {i peer} : c.tasks[i]? = some (peer, connectionFor C peer) →
      c.state.pool[peer.peerId]? = none →
      CallsStep c (.access i id) ⟨c.state, c.tasks.set i (peer, openConnection C peer)⟩
  | file {i peer conn k} : c.tasks[i]? = some (peer, .sync (Cells.putConn peer.peerId conn) k) →
      CallsStep c (.access i (Cells.putConn peer.peerId conn))
        ⟨c.state.putConn peer.peerId conn, c.tasks.set i (peer, .ret (.ok conn))⟩
  | answer {i peer e k r} : c.tasks[i]? = some (peer, .call e k) → Opening peer.peerId (k r) →
      CallsStep c (.answer i ⟨e, r⟩) ⟨c.state, c.tasks.set i (peer, k r)⟩

end

theorem CallState.sync {c : Callers} {peer : PeerConnectInfo} {f : Cells → Cells} {i : ℕ}
    {k : Cells → Prog Net Cells (Except String NodeConnection)} (h : CallState C peer (.sync f k))
    (hi : c.tasks[i]? = some (peer, .sync f k)) :
    CallsStep C c (.access i f) ⟨f c.state, c.tasks.set i (peer, k c.state)⟩ := by
  generalize hq : Prog.sync f k = q at h
  cases h with
  | started =>
    rw [hq] at hi
    rw [connectionFor_eq] at hq
    obtain ⟨rfl, rfl⟩ := Prog.sync.inj hq
    dsimp only [id]
    cases hp : c.state.pool[peer.peerId]? with
    | some conn => exact .hit hi hp
    | none => exact .miss hi hp
  | opening h =>
    subst hq
    obtain ⟨conn, rfl, hk⟩ := h
    rw [hk]
    exact .file hi
  | returned conn => cases hq

theorem step_calls {c c' : Callers} {a : Turns.Act Net Cells PeerConnectInfo}
    (hst : Turns.Step (connectionFor C) c a c') (h : ∀ t ∈ c.tasks, CallState C t.1 t.2) :
    CallsStep C c a c' := by
  cases hst with
  | spawn _ => exact .spawn _
  | access hi => exact (h _ (List.mem_of_getElem? hi)).sync hi
  | answer r _ hi => exact .answer hi ((h _ (List.mem_of_getElem? hi)).call r)
  | pick b hi => exact absurd (h _ (List.mem_of_getElem? hi)) CallState.not_choose

theorem CallsStep.states {c c' : Callers} {a : Turns.Act Net Cells PeerConnectInfo}
    (hst : CallsStep C c a c') (h : ∀ t ∈ c.tasks, CallState C t.1 t.2) :
    ∀ t ∈ c'.tasks, CallState C t.1 t.2 := by
  have hset : ∀ {i} (t : PeerConnectInfo × Prog Net Cells (Except String NodeConnection)),
      CallState C t.1 t.2 → ∀ u ∈ c.tasks.set i t, CallState C u.1 u.2 := by
    intro i t ht u hu
    rcases List.mem_or_eq_of_mem_set hu with hu | rfl
    · exact h u hu
    · exact ht
  cases hst with
  | spawn peer =>
    intro t ht
    rcases List.mem_append.1 ht with ht | ht
    · exact h t ht
    · rw [List.mem_singleton.1 ht]
      exact .started
  | hit _ _ => exact hset _ (.returned _)
  | @miss i peer _ _ => exact hset _ (.opening (openConnection_opening peer))
  | file _ => exact hset _ (.returned _)
  | answer _ ho => exact hset _ (.opening ho)

/-! ## One call at a time -/

/-- The connections that a run files under `p`, oldest first: what its accesses put into an
    empty pool. -/
def filed (p : XorName) : List (Turns.Act Net Cells PeerConnectInfo) → List NodeConnection :=
  List.filterMap fun
    | .access _ f => (f Cells.empty).pool[p]?
    | _ => none

/-- A task that is a call for `p` and has not ended. -/
def busyFor (p : XorName) (t : PeerConnectInfo × Prog Net Cells (Except String NodeConnection)) :
    Bool := t.1.peerId = p && t.2.busy

theorem busyFor_own {p : XorName} {peer : PeerConnectInfo}
    {q : Prog Net Cells (Except String NodeConnection)} (h : peer.peerId = p) :
    busyFor p (peer, q) = q.busy := by
  rw [busyFor, decide_eq_true h, Bool.true_and]

/-- A call for `p` starts only if the pool has a connection to `p` or no other call for `p`
    is under way. -/
def OneAtATime (p : XorName) (c : Callers) : Turns.Act Net Cells PeerConnectInfo → Prop
  | .spawn peer => peer.peerId = p → c.state.pool[p]? = none → c.tasks.countP (busyFor p) = 0
  | _ => True

section
variable (C)

/-- The steps in which the calls for `p` start one at a time. -/
def OnceStep (p : XorName) (c : Callers) (a : Turns.Act Net Cells PeerConnectInfo) (c' : Callers) :
    Prop := Turns.Step (connectionFor C) c a c' ∧ OneAtATime p c a

/-- Of the calls for `p` at most one is under way until the pool has a connection to `p`;
    from then on they return this connection. -/
inductive OneOpening (p : XorName) (conns : List NodeConnection) (c : Callers) : Prop
  | absent : c.state.pool[p]? = none → conns = [] → c.tasks.countP (busyFor p) ≤ 1 →
      (∀ t ∈ c.tasks, t.1.peerId = p → ∀ conn, t.2 ≠ .ret (.ok conn)) → OneOpening p conns c
  | present (conn : NodeConnection) : c.state.pool[p]? = some conn → conns = [conn] →
      (∀ t ∈ c.tasks, t.1.peerId = p →
        t.2 = connectionFor C t.1 ∨ t.2 = .ret (.ok conn) ∨ ∃ e, t.2 = .ret (.error e)) →
      OneOpening p conns c

end

theorem countP_set_add {α : Type} {f : α → Bool} {l : List α} {i : ℕ} {a b : α}
    (hi : l[i]? = some b) :
    (l.set i a).countP f + (if f b then 1 else 0) = l.countP f + if f a then 1 else 0 := by
  obtain ⟨hl, rfl⟩ := List.getElem?_eq_some_iff.1 hi
  rw [List.countP_set hl]
  have hle : (if f l[i] then 1 else 0) ≤ l.countP f := by
    split
    · rename_i hf
      exact List.countP_pos_iff.2 ⟨_, List.getElem_mem hl, hf⟩
    · exact Nat.zero_le _
  omega

theorem putConn_ne_id {p : XorName} {conn : NodeConnection} : Cells.putConn p conn ≠ id := by
  intro h
  have hp := congrArg (fun f => (f Cells.empty).pool[p]?) h
  simp [Cells.putConn, Cells.empty] at hp

@[simp] theorem filed_append (p : XorName) (as bs : List (Turns.Act Net Cells PeerConnectInfo)) :
    filed p (as ++ bs) = filed p as ++ filed p bs := List.filterMap_append

@[simp] theorem filed_spawn (p : XorName) (peer : PeerConnectInfo) :
    filed p [.spawn peer] = [] := rfl

@[simp] theorem filed_answer (p : XorName) (i : ℕ) (ev : Ev Net) : filed p [.answer i ev] = [] := rfl

@[simp] theorem filed_lookup (p : XorName) (i : ℕ) : filed p [.access i id] = [] := by
  simp [filed, Cells.empty]

@[simp] theorem filed_putConn_self (p : XorName) (i : ℕ) (conn : NodeConnection) :
    filed p [.access i (Cells.putConn p conn)] = [conn] := by
  simp [filed]

theorem filed_putConn_ne {k p : XorName} (h : k ≠ p) {i : ℕ} {conn : NodeConnection} :
    filed p [.access i (Cells.putConn k conn)] = [] := by
  have hnone : (Cells.empty.putConn k conn).pool[p]? = none := by
    rw [Cells.getElem?_putConn_ne h]
    simp [Cells.empty]
  simp [filed, hnone]

variable {p : XorName} {conns : List NodeConnection} {c : Callers} {i : ℕ} {peer : PeerConnectInfo}
  {q q' : Prog Net Cells (Except String NodeConnection)}

/-- A step of a call for another peer. -/
theorem OneOpening.other (h : OneOpening C p conns c) (hi : c.tasks[i]? = some (peer, q))
    (hne : peer.peerId ≠ p) {s : Cells} (hs : s.pool[p]? = c.state.pool[p]?) :
    OneOpening C p conns ⟨s, c.tasks.set i (peer, q')⟩ := by
  have hmem : ∀ t ∈ c.tasks.set i (peer, q'), t.1.peerId = p → t ∈ c.tasks := by
    intro t ht htp
    rcases List.mem_or_eq_of_mem_set ht with ht | rfl
    · exact ht
    · exact absurd htp hne
  cases h with
  | absent hp hconns hbusy hnone =>
    refine .absent (hs.trans hp) hconns ?_ fun t ht htp => hnone t (hmem t ht htp) htp
    have hcount := countP_set_add (f := busyFor p) (a := (peer, q')) hi
    simp [busyFor, hne] at hcount
    exact hcount ▸ hbusy
  | present conn hp hconns hall =>
    exact .present conn (hs.trans hp) hconns fun t ht htp => hall t (hmem t ht htp) htp

/-- A step of a call under way that does not return a connection. -/
theorem OneOpening.own (h : OneOpening C p conns c) (hi : c.tasks[i]? = some (peer, q))
    (hp : c.state.pool[p]? = none) (hq : q.busy) (hq' : ∀ conn, q' ≠ .ret (.ok conn)) :
    OneOpening C p conns ⟨c.state, c.tasks.set i (peer, q')⟩ := by
  cases h with
  | absent hp hconns hbusy hnone =>
    refine .absent hp hconns ?_ fun t ht htp => ?_
    · have hcount := countP_set_add (f := busyFor p) (a := (peer, q')) hi
      have hle : (if busyFor p (peer, q') then 1 else 0) ≤ if busyFor p (peer, q) then 1 else 0 := by
        by_cases hpeer : peer.peerId = p
        · rw [busyFor_own hpeer, busyFor_own hpeer, if_pos hq]
          split
          · exact le_refl 1
          · exact Nat.zero_le 1
        · simp [busyFor, hpeer]
      show (c.tasks.set i (peer, q')).countP (busyFor p) ≤ 1
      omega
    · rcases List.mem_or_eq_of_mem_set ht with ht | rfl
      · exact hnone t ht htp
      · exact hq'
  | present conn hp' _ _ =>
    rw [hp] at hp'
    cases hp'

theorem OneOpening.start (h : OneOpening C p conns c) (hone : OneAtATime p c (.spawn peer)) :
    OneOpening C p conns ⟨c.state, c.tasks ++ [(peer, connectionFor C peer)]⟩ := by
  cases h with
  | absent hp hconns hbusy hnone =>
    refine .absent hp hconns ?_ fun t ht htp conn hret => ?_
    · rw [List.countP_append]
      by_cases hpeer : peer.peerId = p
      · rw [hone hpeer hp]
        exact (Nat.zero_add _).trans_le List.countP_le_length
      · simpa [busyFor, hpeer] using hbusy
    · rcases List.mem_append.1 ht with ht | ht
      · exact hnone t ht htp conn hret
      · rw [List.mem_singleton.1 ht] at hret
        cases hret
  | present conn hp hconns hall =>
    refine .present conn hp hconns fun t ht htp => ?_
    rcases List.mem_append.1 ht with ht | ht
    · exact hall t ht htp
    · rw [List.mem_singleton.1 ht]
      exact Or.inl rfl

theorem OneOpening.hit {conn : NodeConnection} (h : OneOpening C p conns c)
    (hp : c.state.pool[p]? = some conn) :
    OneOpening C p conns ⟨c.state, c.tasks.set i (peer, .ret (.ok conn))⟩ := by
  cases h with
  | absent hp' _ _ _ =>
    rw [hp] at hp'
    cases hp'
  | present conn' hp' hconns hall =>
    rw [hp] at hp'
    cases hp'
    refine .present conn hp hconns fun t ht htp => ?_
    rcases List.mem_or_eq_of_mem_set ht with ht | rfl
    · exact hall t ht htp
    · exact Or.inr (Or.inl rfl)

/-- A call for `p` that has looked up the pool waits only while the pool has no connection
    to `p`. -/
theorem OneOpening.pool_eq_none (h : OneOpening C p conns c) (hi : c.tasks[i]? = some (peer, q))
    (hpeer : peer.peerId = p) (hq : q.busy) (hne : q ≠ connectionFor C peer) :
    c.state.pool[p]? = none := by
  cases h with
  | absent hp _ _ _ => exact hp
  | present conn _ _ hall =>
    rcases hall _ (List.mem_of_getElem? hi) hpeer with he | he | ⟨e, he⟩
    · exact absurd he hne
    · rw [show q = .ret (.ok conn) from he] at hq
      cases hq
    · rw [show q = .ret (.error e) from he] at hq
      cases hq

/-- The one call that is under way files its connection. -/
theorem OneOpening.file {conn : NodeConnection} (h : OneOpening C p conns c)
    (hi : c.tasks[i]? = some (peer, q)) (hpeer : peer.peerId = p) (hq : q.busy)
    (hp : c.state.pool[p]? = none) :
    OneOpening C p (conns ++ [conn])
      ⟨c.state.putConn p conn, c.tasks.set i (peer, .ret (.ok conn))⟩ := by
  cases h with
  | present conn' hp' _ _ =>
    rw [hp] at hp'
    cases hp'
  | absent _ hconns hbusy hnone =>
    refine .present conn Cells.getElem?_putConn_self (by rw [hconns]; rfl) fun t ht htp => ?_
    -- the other calls for the peer have ended, without a connection
    have hcount := countP_set_add (f := busyFor p) (a := (peer, .ret (.ok conn))) hi
    have hzero : (c.tasks.set i (peer, .ret (.ok conn))).countP (busyFor p) = 0 := by
      rw [busyFor_own hpeer, busyFor_own hpeer, if_pos hq] at hcount
      simp only [Prog.busy, Bool.false_eq_true, if_false] at hcount
      omega
    have hended := List.countP_eq_zero.1 hzero t ht
    rcases List.mem_or_eq_of_mem_set ht with ht | rfl
    · obtain ⟨peer', q⟩ := t
      cases q with
      | ret r =>
        cases r with
        | ok conn' => exact absurd rfl (hnone _ ht htp conn')
        | error e => exact Or.inr (Or.inr ⟨e, rfl⟩)
      | _ => exact absurd (busyFor_own htp) hended
    · exact Or.inr (Or.inl rfl)

/-- **One step** keeps the calls for `p` to one opening. -/
theorem OneOpening.step {acts : List (Turns.Act Net Cells PeerConnectInfo)}
    {a : Turns.Act Net Cells PeerConnectInfo} {c' : Callers}
    (h : OneOpening C p (filed p acts) c) (hst : CallsStep C c a c') (hone : OneAtATime p c a) :
    OneOpening C p (filed p (acts ++ [a])) c' := by
  rw [filed_append]
  cases hst with
  | spawn peer =>
    rw [filed_spawn, List.append_nil]
    exact h.start hone
  | @hit i peer conn hi hhit =>
    rw [filed_lookup, List.append_nil]
    by_cases hpeer : peer.peerId = p
    · subst hpeer
      exact h.hit hhit
    · exact h.other hi hpeer rfl
  | @miss i peer hi hmiss =>
    rw [filed_lookup, List.append_nil]
    by_cases hpeer : peer.peerId = p
    · subst hpeer
      exact h.own hi hmiss rfl (by rintro conn ⟨⟩)
    · exact h.other hi hpeer rfl
  | @file i peer conn k hi =>
    by_cases hpeer : peer.peerId = p
    · subst hpeer
      have hne : Prog.sync (Cells.putConn peer.peerId conn) k ≠ connectionFor C peer := by
        rw [connectionFor_eq]
        exact fun he => putConn_ne_id (Prog.sync.inj he).1
      rw [filed_putConn_self]
      exact h.file hi rfl rfl (h.pool_eq_none hi rfl rfl hne)
    · rw [filed_putConn_ne hpeer, List.append_nil]
      exact h.other hi hpeer (Cells.getElem?_putConn_ne hpeer)
  | @answer i peer e k r hi ho =>
    rw [filed_answer, List.append_nil]
    by_cases hpeer : peer.peerId = p
    · subst hpeer
      have hne : Prog.call (S := Net) e k ≠ connectionFor C peer := by
        rw [connectionFor_eq]
        rintro ⟨⟩
      refine h.own hi (h.pool_eq_none hi rfl rfl hne) rfl fun conn hret => ?_
      rw [hret] at ho
      obtain ⟨e, he⟩ := ho
      cases he
    · exact h.other hi hpeer rfl

/-- **One connection per peer**: in every run, from a pool without `p`, in which the calls
    for `p` start one at a time until one has returned a connection, at most one connection
    to `p` is opened, and all calls for `p` that return a connection return this one. -/
theorem connectionFor_once {cells₀ : Cells} (hp : cells₀.pool[p]? = none)
    {acts : List (Turns.Act Net Cells PeerConnectInfo)}
    (h : Lts.Run (OnceStep C p) ⟨cells₀, []⟩ acts c) :
    (filed p acts).length ≤ 1 ∧ ∀ t ∈ c.tasks, t.1.peerId = p → ∀ conn, t.2 = .ret (.ok conn) →
      filed p acts = [conn] ∧ c.state.pool[p]? = some conn := by
  have hinv : (∀ t ∈ c.tasks, CallState C t.1 t.2) ∧ OneOpening C p (filed p acts) c := by
    refine h.inv (I := fun acts c => (∀ t ∈ c.tasks, CallState C t.1 t.2) ∧
      OneOpening C p (filed p acts) c) ?_ ?_
    · exact ⟨by rintro t ⟨⟩, .absent hp rfl (Nat.zero_le 1) (by rintro t ⟨⟩)⟩
    · rintro acts c a c' - ⟨hstates, hone⟩ ⟨hst, ha⟩
      have hcalls := step_calls hst hstates
      exact ⟨hcalls.states hstates, hone.step hcalls ha⟩
  cases hinv.2 with
  | absent hp hconns hbusy hnone =>
    exact ⟨by simp [hconns], fun t ht htp conn hret => absurd hret (hnone t ht htp conn)⟩
  | present conn hp hconns hall =>
    refine ⟨by simp [hconns], fun t ht htp conn' hret => ?_⟩
    rcases hall t ht htp with he | he | ⟨e, he⟩
    · rw [hret, connectionFor_eq] at he
      cases he
    · rw [hret] at he
      cases he
      exact ⟨hconns, hp⟩
    · rw [hret] at he
      cases he

/-! ## An instance -/

/-- A connection to the node can be opened over any transport. -/
theorem openConnection_run (transport : ℕ) (s : Cells) : ∃ conn, conn.transport = transport ∧
    conn.peerId = honestPeer.peerId ∧ Run Eq (openConnection .transparent honestPeer) s
      (⟨.transportConnect honestPeer.ip honestPeer.port (hexEncode honestPeer.certHash.1),
        .ok transport⟩ :: handshakeEvents transport) (some (.ok conn))
      (s.putConn honestPeer.peerId conn) := by
  have hexpected : ∀ p, some honestPeer.peerId = some p → p = honestPeer.peerId := by
    rintro p ⟨⟩
    rfl
  obtain ⟨conn, ht, hid, hrun⟩ := establish_run (I := Eq) (fun _ => rfl) transport hexpected s
  have hopen : Run Eq (ask (S := Net) (.transportConnect honestPeer.ip honestPeer.port
      (hexEncode honestPeer.certHash.1))) s
      [⟨.transportConnect honestPeer.ip honestPeer.port (hexEncode honestPeer.certHash.1),
        .ok transport⟩] (some (.ok transport)) s := .call _ rfl .ret
  rw [← List.append_nil (_ :: _)]
  exact ⟨conn, ht, hid, .seqE (.seqE hopen hrun) (.sync .ret)⟩

/-- A call that has just started looks up the pool. -/
theorem lookup_step (c : Callers) (peer : PeerConnectInfo) :
    Turns.Step (connectionFor C) ⟨c.state, c.tasks ++ [(peer, connectionFor C peer)]⟩
      (.access c.tasks.length id) ⟨c.state, c.tasks ++ [(peer, match c.state.pool[peer.peerId]? with
        | some conn => .ret (.ok conn)
        | none => openConnection C peer)]⟩ := by
  have hlast : (c.tasks ++ [(peer, connectionFor C peer)])[c.tasks.length]? =
      some (peer, connectionFor C peer) := List.getElem?_concat_length
  have hlookup : Turns.Step (connectionFor C) _ _ _ :=
    .access (c := ⟨c.state, c.tasks ++ [(peer, connectionFor C peer)]⟩) hlast
  dsimp only at hlookup
  rw [List.set_append_right _ _ le_rfl, Nat.sub_self] at hlookup
  exact hlookup

/-- When every call waits, the `i`-th one may open its connection. -/
theorem open_run {c : Callers} {i : ℕ} (hidle : c.Idle)
    (hi : c.tasks[i]? = some (honestPeer, openConnection .transparent honestPeer)) (transport : ℕ) :
    ∃ acts conn, conn.transport = transport ∧ (∀ peer, .spawn peer ∉ acts) ∧
      Lts.Run (Turns.Step (connectionFor .transparent)) c acts
        ⟨c.state.putConn honestPeer.peerId conn, c.tasks.set i (honestPeer, .ret (.ok conn))⟩ := by
  obtain ⟨conn, ht, -, hopen⟩ := openConnection_run transport c.state
  obtain ⟨acts, hrun, -, hno⟩ := Turns.run_task (connectionFor .transparent) hi
    (fun j t _ hj => hidle t (List.mem_of_getElem? hj)) hopen
  exact ⟨acts, conn, ht, hno, hrun⟩

theorem connectionFor_once_honestPeer : ∃ (acts : List (Turns.Act Net Cells PeerConnectInfo))
    (c : Callers) (conn : NodeConnection),
    Lts.Run (Turns.Step (connectionFor .transparent)) ⟨Cells.empty, []⟩ acts c ∧
    c.tasks = [(honestPeer, .ret (.ok conn)), (honestPeer, .ret (.ok conn))] ∧
    filed honestPeer.peerId acts = [conn] := by
  have hempty : Cells.empty.pool[honestPeer.peerId]? = none := by simp [Cells.empty]
  have hmiss := lookup_step (C := .transparent) ⟨Cells.empty, []⟩ honestPeer
  dsimp only at hmiss
  rw [hempty] at hmiss
  obtain ⟨acts, conn, -, hno, hrun⟩ := open_run (i := 0)
    (c := ⟨Cells.empty, [(honestPeer, openConnection .transparent honestPeer)]⟩)
    (by intro t ht; rw [List.mem_singleton.1 ht]; trivial) rfl 0
  -- the second call starts when the first has ended, and finds the connection
  have hhit := lookup_step (C := .transparent)
    ⟨Cells.empty.putConn honestPeer.peerId conn, [(honestPeer, .ret (.ok conn))]⟩ honestPeer
  dsimp only at hhit
  rw [Cells.getElem?_putConn_self] at hhit
  have hstart : Lts.Run (OnceStep .transparent honestPeer.peerId) ⟨Cells.empty, []⟩
      [.spawn honestPeer, .access 0 id]
      ⟨Cells.empty, [(honestPeer, openConnection .transparent honestPeer)]⟩ :=
    (Lts.Run.start.snoc ⟨.spawn (by rintro t ⟨⟩), fun _ _ => rfl⟩).snoc ⟨hmiss, trivial⟩
  have hopen : Lts.Run (OnceStep .transparent honestPeer.peerId) _ _ _ :=
    hrun.mono fun t a u ha hst => ⟨hst, by cases a with
      | spawn x => exact absurd ha (hno x)
      | _ => trivial⟩
  have hend : Lts.Run (OnceStep .transparent honestPeer.peerId)
      ⟨Cells.empty.putConn honestPeer.peerId conn, [(honestPeer, .ret (.ok conn))]⟩
      [.spawn honestPeer, .access 1 id] ⟨Cells.empty.putConn honestPeer.peerId conn,
        [(honestPeer, .ret (.ok conn)), (honestPeer, .ret (.ok conn))]⟩ := by
    refine (Lts.Run.start.snoc ⟨.spawn (by simp [Turns.Conf.Idle, Prog.Idle]), ?_⟩).snoc
      ⟨hhit, trivial⟩
    intro _ hnone
    rw [Cells.getElem?_putConn_self] at hnone
    cases hnone
  have hall := hstart.append (hopen.append hend)
  refine ⟨_, _, conn, hall.mono fun _ _ _ _ hst => hst.1, rfl, ?_⟩
  exact ((connectionFor_once hempty hall).2 _ List.mem_cons_self rfl conn rfl).1

/-- **Two connections to one peer**: two calls for a peer that start at the same time return
    different connections. -/
theorem connectionFor_twice : ∃ (acts : List (Turns.Act Net Cells PeerConnectInfo))
    (c : Callers) (conn conn' : NodeConnection),
    Lts.Run (Turns.Step (connectionFor .transparent)) ⟨Cells.empty, []⟩ acts c ∧
    c.tasks = [(honestPeer, .ret (.ok conn)), (honestPeer, .ret (.ok conn'))] ∧ conn ≠ conn' := by
  have hempty : Cells.empty.pool[honestPeer.peerId]? = none := by simp [Cells.empty]
  -- both calls miss
  have hmiss := lookup_step (C := .transparent) ⟨Cells.empty, []⟩ honestPeer
  have hmiss' := lookup_step (C := .transparent)
    ⟨Cells.empty, [(honestPeer, openConnection .transparent honestPeer)]⟩ honestPeer
  dsimp only at hmiss hmiss'
  rw [hempty] at hmiss hmiss'
  -- and then they open their connections, one after the other
  obtain ⟨acts, conn, ht, -, hrun⟩ := open_run (i := 0)
    (c := ⟨Cells.empty, [(honestPeer, openConnection .transparent honestPeer),
      (honestPeer, openConnection .transparent honestPeer)]⟩)
    (by intro t ht; simp at ht; rw [ht]; trivial) rfl 0
  obtain ⟨acts', conn', ht', -, hrun'⟩ := open_run (i := 1)
    (c := ⟨Cells.empty.putConn honestPeer.peerId conn, [(honestPeer, .ret (.ok conn)),
      (honestPeer, openConnection .transparent honestPeer)]⟩)
    (by simp [Turns.Conf.Idle]; exact ⟨trivial, trivial⟩) rfl 1
  have hstart : Lts.Run (Turns.Step (connectionFor .transparent)) ⟨Cells.empty, []⟩ _ _ :=
    (((Lts.Run.start.snoc (.spawn (by rintro t ⟨⟩))).snoc hmiss).snoc
      (.spawn (by intro t ht; rw [List.mem_singleton.1 ht]; trivial))).snoc hmiss'
  refine ⟨_, _, conn, conn', hstart.append (hrun.append hrun'), rfl, ?_⟩
  rintro rfl
  rw [ht] at ht'
  cases ht'

end AntClient
