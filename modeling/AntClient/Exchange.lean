/-
  A session with a node that answers: calls of `round_trip` (`conn.rs`) over a channel that
  loses nothing, and a peer that opens each request and seals its answer under the same
  number.

  A `Link` is a session with the frames that have reached the node and the bytes that are
  on their way back.  The channel cuts these as it likes, any number of calls share the
  session, and each takes its next step when it likes.

  * `Link.Owes`: what the link owes a call, at each point of the call.
  * `fair_exchange`: every call ends, after a bounded number of steps, and with the answer
    of the node to its own request.
-/
import AntClient.Liveness
import AntClient.Wire

namespace AntClient

/-! ## Links -/

/-- A session, the requests that the node has not read, and the bytes of its answers that
    the client has not read. -/
structure Link where
  session : Session
  inbox : List Bytes
  outbox : Bytes

/-- The action takes place at the client. -/
def Act.Alone : Act → Prop
  | .start _ _ | .send _ _ (.ok _) | .recv _ _ | .node _ _ _ => False
  | _ => True

variable (C : Crates) (cipher : SessionCipher) (answer : UInt8 → Bytes → Bytes)

/-- The steps of a link to a node that answers a request as `answer` says.  A request fits
    a frame; a frame is sent or refused as a whole. -/
inductive LinkStep : Link → Act → Link → Prop
  | start {s s' tag payload inbox outbox} : payload.length + 22 ≤ maxFrameSize →
      Step C cipher s (.start tag payload) s' →
      LinkStep ⟨s, inbox, outbox⟩ (.start tag payload) ⟨s', inbox, outbox⟩
  | alone {s a s' inbox outbox} : a.Alone → Step C cipher s a s' →
      LinkStep ⟨s, inbox, outbox⟩ a ⟨s', inbox, outbox⟩
  | send {s s' i env inbox outbox} : Step C cipher s (.send i env (.ok ())) s' →
      LinkStep ⟨s, inbox, outbox⟩ (.send i env (.ok ())) ⟨s', inbox ++ [env], outbox⟩
  | node {s s' env seq tag payload c inbox outbox} : IsFrame env →
      cipher.openEnvelope C .clientToServer env = .ok (seq, tag :: payload) →
      Step C cipher s (.node seq (tag :: answer tag payload) c) s' →
      LinkStep ⟨s, env :: inbox, outbox⟩ (.node seq (tag :: answer tag payload) c)
        ⟨s', inbox, outbox ++ encodeFrame (envelope seq c)⟩
  | recv {s s' i raw inbox outbox} : raw ≠ [] → Step C cipher s (.recv i (some raw)) s' →
      LinkStep ⟨s, inbox, raw ++ outbox⟩ (.recv i (some raw)) ⟨s', inbox, outbox⟩

/-- A link with nothing on its way. -/
def Link.fresh : Link := ⟨.fresh .new, [], []⟩

/-- The runs of a link. -/
abbrev LinkRun (acts : List Act) (L : Link) : Prop :=
  Lts.Run (LinkStep C cipher answer) .fresh acts L

section
variable {C cipher answer} {acts : List Act} {L L' : Link} {a : Act}

theorem LinkStep.step (h : LinkStep C cipher answer L a L') :
    Step C cipher L.session a L'.session := by
  cases h <;> assumption

/-- All that is on its way back arrives. -/
theorem LinkStep.recv_all {s s' : Session} {i : ℕ} {raw : Bytes} {inbox : List Bytes}
    (hraw : raw ≠ []) (h : Step C cipher s (.recv i (some raw)) s') :
    LinkStep C cipher answer ⟨s, inbox, raw⟩ (.recv i (some raw)) ⟨s', inbox, []⟩ := by
  have hstep : LinkStep C cipher answer ⟨s, inbox, raw ++ []⟩ _ _ := .recv hraw h
  rwa [List.append_nil] at hstep

/-- The session of a link. -/
theorem LinkRun.session (h : LinkRun C cipher answer acts L) :
    SessionRun C cipher .new acts L.session :=
  h.inv (I := fun acts L => SessionRun C cipher .new acts L.session) .start
    fun _ ih hst => ih.snoc hst.step

end

/-! ## What is owed -/

/-- Nothing is on its way, and nothing is left in the buffer. -/
structure Link.Quiet (L : Link) : Prop where
  inbox : L.inbox = []
  outbox : L.outbox = []
  buf : L.session.conn.frameBuf.buf = []

/-- The frame holds the answer of the node to the request with this number. -/
def Reply (seq : UInt32) (tag : UInt8) (payload frame : Bytes) : Prop :=
  IsFrame frame ∧ ∃ c, frame = envelope seq c ∧
    C.decrypt cipher.key (buildNonce seq .serverToClient) c = some (tag :: answer tag payload)

/-- The envelope holds the request. -/
def Request (seq : UInt32) (tag : UInt8) (payload env : Bytes) : Prop :=
  IsFrame env ∧ cipher.openEnvelope C .clientToServer env = .ok (seq, tag :: payload)

/-- The request is all that is on its way, or its answer is. -/
inductive Link.Due (L : Link) (seq : UInt32) (tag : UInt8) (payload : Bytes) : Prop
  | unread {env} : L.inbox = [env] → Request C cipher seq tag payload env → L.outbox = [] →
      L.session.conn.frameBuf.buf = [] → Due L seq tag payload
  | answered {frame} : L.inbox = [] → Reply C cipher answer seq tag payload frame →
      L.session.conn.frameBuf.buf ++ L.outbox = encodeFrame frame → Due L seq tag payload

/-- The call `i` failed before its request was sent. -/
inductive Unsent (acts : List Act) (i : ℕ) (e : String) : Prop
  | exhausted : .number i (.error e) ∈ acts → Unsent acts i e
  | refused {env} : .send i env (.error e) ∈ acts → Unsent acts i e

/-- What a call may return. -/
def Result (acts : List Act) (i : ℕ) (tag : UInt8) (payload : Bytes) :
    Except String Bytes → Prop
  | .ok body => body = answer tag payload
  | .error e => Unsent acts i e

/-- What the link owes the call `i`. -/
def Link.Owes (L : Link) (acts : List Act) (i : ℕ) (tag : UInt8) (payload : Bytes) : Pc → Prop
  | .waiting => True
  | .locked | .numbered _ => L.Quiet
  | .sealed seq env => L.Quiet ∧ Request C cipher seq tag payload env
  | .polling seq => L.Due C cipher answer seq tag payload
  | .awaiting seq => L.Due C cipher answer seq tag payload ∧ (L.inbox = [] → L.outbox ≠ [])
  | .received seq frame => L.Quiet ∧ Reply C cipher answer seq tag payload frame
  | .leaving r => L.Quiet ∧ Result answer acts i tag payload r
  | .done r => Result answer acts i tag payload r

/-- The link owes every call what is right, and no call anything while the lock is free. -/
structure Link.Owing (acts : List Act) (L : Link) : Prop where
  fits : ∀ c ∈ L.session.calls, c.payload.length + 22 ≤ maxFrameSize
  calls : ∀ (i : ℕ) c, L.session.calls[i]? = some c →
    L.Owes C cipher answer acts i c.tag c.payload c.pc
  free : L.session.conn.lock = none → L.Quiet

variable {C cipher answer} {acts : List Act} {L L' : Link} {a : Act} {i : ℕ} {tag : UInt8}
  {payload : Bytes} {seq : UInt32} {pc pc' : Pc}

theorem Result.mono {r : Except String Bytes} (h : Result answer acts i tag payload r)
    (more : List Act) : Result answer (acts ++ more) i tag payload r := by
  cases r with
  | ok body => exact h
  | error e =>
    cases h with
    | exhausted hm => exact .exhausted (List.mem_append_left _ hm)
    | refused hm => exact .refused (List.mem_append_left _ hm)

/-- A call that does not hold the lock is owed nothing that is on its way. -/
theorem Link.Owes.outside (h : L.Owes C cipher answer acts i tag payload pc) (hpc : ¬ pc.Holds)
    (L' : Link) (a : Act) : L'.Owes C cipher answer (acts ++ [a]) i tag payload pc := by
  cases pc with
  | waiting => trivial
  | done r => exact Result.mono h [a]
  | _ => exact absurd trivial hpc

/-- A link that has not changed owes what it did. -/
theorem Link.Owes.mono (h : L.Owes C cipher answer acts i tag payload pc)
    (hi : L'.inbox = L.inbox) (ho : L'.outbox = L.outbox)
    (hb : L'.session.conn.frameBuf = L.session.conn.frameBuf) (a : Act) :
    L'.Owes C cipher answer (acts ++ [a]) i tag payload pc := by
  have hquiet : L.Quiet → L'.Quiet := fun hq => ⟨hi.trans hq.inbox, ho.trans hq.outbox, hb ▸ hq.buf⟩
  have hdue : ∀ {seq}, L.Due C cipher answer seq tag payload →
      L'.Due C cipher answer seq tag payload := by
    intro seq hd
    cases hd with
    | unread h1 h2 h3 h4 => exact .unread (hi.trans h1) h2 (ho.trans h3) (hb ▸ h4)
    | answered h1 h2 h3 => exact .answered (hi.trans h1) h2 (by rw [hb, ho]; exact h3)
  cases pc with
  | waiting => trivial
  | locked => exact hquiet h
  | numbered => exact hquiet h
  | «sealed» => exact ⟨hquiet h.1, h.2⟩
  | polling => exact hdue h
  | awaiting => exact ⟨hdue h.1, by rw [hi, ho]; exact h.2⟩
  | received => exact ⟨hquiet h.1, h.2⟩
  | leaving => exact ⟨hquiet h.1, h.2.mono [a]⟩
  | done => exact Result.mono h [a]

/-! ## Steps -/

/-- A buffer with a part of one frame: the frame is complete, or the buffer waits for what
    is on its way. -/
theorem FrameBuf.push_part {buf data more frame : Bytes} (h : IsFrame frame)
    (he : buf ++ data ++ more = encodeFrame frame) :
    (more = [] ∧ FrameBuf.push ⟨buf⟩ data = (⟨[]⟩, .ok (some frame))) ∨
      (more ≠ [] ∧ FrameBuf.push ⟨buf⟩ data = (⟨buf ++ data⟩, .ok none)) := by
  by_cases hm : more = []
  · subst hm
    rw [List.append_nil] at he
    exact Or.inl ⟨rfl, FrameBuf.push_frame h (he.trans (List.append_nil _).symm)⟩
  · have hlen := congrArg List.length he
    have hpos := List.length_pos_of_ne_nil hm
    rw [List.length_append, length_encodeFrame] at hlen
    exact Or.inr ⟨hm, FrameBuf.push_short h (he.trans (List.append_nil _).symm) (by omega)⟩

theorem FrameBuf.push_nothing : FrameBuf.push ⟨[]⟩ [] = (⟨[]⟩, .ok none) := rfl

/-- The response that holds the answer passes the checks. -/
theorem Reply.checkResponse {frame : Bytes} (h : Reply C cipher answer seq tag payload frame) :
    cipher.checkResponse C seq tag frame = .ok (answer tag payload) := by
  obtain ⟨-, c, rfl, hd⟩ := h
  have hopen := cipher.openEnvelope_envelope hd
  rw [SessionCipher.openEnvelope_server] at hopen
  simp only [SessionCipher.checkResponse, hopen]
  simp

variable {k k' : Conn} {calls calls' : List Call} {inbox : List Bytes} {outbox : Bytes}

/-- What a call is owed after a step of the client alone. -/
theorem CallStep.owes (hC : C.Aead) (hfit : payload.length + 22 ≤ maxFrameSize)
    (h : CallStep C cipher i tag payload k pc a k' pc') (ha : a.Alone)
    (hfree : k.lock = none → Link.Quiet ⟨⟨k, calls⟩, inbox, outbox⟩)
    (ho : Link.Owes C cipher answer ⟨⟨k, calls⟩, inbox, outbox⟩ acts i tag payload pc) :
    Link.Owes C cipher answer ⟨⟨k', calls'⟩, inbox, outbox⟩ (acts ++ [a]) i tag payload pc' ∧
      (pc'.Holds ∨ Link.Quiet ⟨⟨k', calls'⟩, inbox, outbox⟩) := by
  cases h with
  | lock hl =>
    obtain ⟨h1, h2, h3⟩ := hfree hl
    exact ⟨⟨h1, h2, h3⟩, Or.inl trivial⟩
  | exhausted ht =>
    obtain ⟨h1, h2, h3⟩ := ho
    rcases Conn.takeSeq_cases ht with ⟨-, rfl, -⟩ | ⟨-, -, he⟩
    · exact ⟨⟨⟨h1, h2, h3⟩, .exhausted (List.mem_append_right _ List.mem_cons_self)⟩,
        Or.inl trivial⟩
    · cases he
  | number ht =>
    obtain ⟨h1, h2, h3⟩ := ho
    rcases Conn.takeSeq_cases ht with ⟨-, -, he⟩ | ⟨-, rfl, -⟩
    · cases he
    · exact ⟨⟨h1, h2, h3⟩, Or.inl trivial⟩
  | @sealFailed seq e hs =>
    -- the cipher takes whatever fits a frame
    exfalso
    obtain ⟨c, hc⟩ := hC.encrypts cipher.key (buildNonce seq .clientToServer) (tag :: payload) (by
      rw [maxFrameSize, maxWireMessageSize] at hfit
      rw [List.length_cons]
      omega)
    rw [← SessionCipher.sealEnvelope_client, SessionCipher.sealEnvelope, hc] at hs
    cases hs
  | sealRequest hs =>
    obtain ⟨h1, h2, h3⟩ := ho
    rw [← SessionCipher.sealEnvelope_client] at hs
    obtain ⟨hopen, hlen⟩ := SessionCipher.openEnvelope_seal hC hs
    refine ⟨⟨⟨h1, h2, h3⟩, ⟨?_, ?_⟩, hopen⟩, Or.inl trivial⟩
    · omega
    · rw [hlen, List.length_cons]
      omega
  | sendFailed e =>
    obtain ⟨⟨h1, h2, h3⟩, -⟩ := ho
    exact ⟨⟨⟨h1, h2, h3⟩, .refused (List.mem_append_right _ List.mem_cons_self)⟩, Or.inl trivial⟩
  | send | closed | recv => exact ha.elim
  | poll hp =>
    obtain ⟨seq₀, lock₀, ⟨buf⟩⟩ := k
    cases ho with
    | unread h1 h2 h3 h4 =>
      cases h4
      cases FrameBuf.push_nothing.symm.trans hp
      exact ⟨⟨.unread h1 h2 h3 rfl, fun he => absurd (h1.symm.trans he) (List.cons_ne_nil _ _)⟩,
        Or.inl trivial⟩
    | answered h1 h2 h3 =>
      have hpart : buf ++ [] ++ outbox = _ :=
        (congrArg (· ++ outbox) (List.append_nil buf)).trans h3
      rcases FrameBuf.push_part h2.1 hpart with ⟨he, hq⟩ | ⟨he, hq⟩
      · cases hq.symm.trans hp
        exact ⟨⟨⟨h1, he, rfl⟩, h2⟩, Or.inl trivial⟩
      · cases hq.symm.trans hp
        exact ⟨⟨.answered h1 h2 (by simpa using h3), fun _ => he⟩, Or.inl trivial⟩
  | check hr =>
    obtain ⟨⟨h1, h2, h3⟩, hreply⟩ := ho
    rw [hreply.checkResponse] at hr
    subst hr
    exact ⟨⟨⟨h1, h2, h3⟩, rfl⟩, Or.inl trivial⟩
  | ret =>
    obtain ⟨⟨h1, h2, h3⟩, hr⟩ := ho
    exact ⟨hr.mono _, Or.inr ⟨h1, h2, h3⟩⟩

/-- What a call is owed after it has received. -/
theorem CallStep.owes_recv {j : ℕ} {raw : Bytes}
    (h : CallStep C cipher i tag payload k pc (.recv j (some raw)) k' pc') (hraw : raw ≠ [])
    (ho : Link.Owes C cipher answer ⟨⟨k, calls⟩, inbox, raw ++ outbox⟩ acts i tag payload pc) :
    Link.Owes C cipher answer ⟨⟨k', calls'⟩, inbox, outbox⟩ (acts ++ [.recv j (some raw)]) i tag
      payload pc' ∧ pc'.Holds := by
  cases h with
  | recv hp =>
    obtain ⟨seq₀, lock₀, ⟨buf⟩⟩ := k
    cases ho.1 with
    | unread _ _ h3 =>
      exact absurd (List.append_eq_nil_iff.1 h3).1 hraw
    | answered h1 h2 h3 =>
      rcases FrameBuf.push_part h2.1 ((List.append_assoc _ _ _).trans h3) with ⟨he, hq⟩ | ⟨he, hq⟩
      · cases hq.symm.trans hp
        exact ⟨⟨⟨h1, he, rfl⟩, h2⟩, trivial⟩
      · cases hq.symm.trans hp
        exact ⟨.answered h1 h2 ((List.append_assoc _ _ _).trans h3), trivial⟩

/-- The other calls do not hold the lock. -/
theorem others_outside {s : Session} (h : SessionRun C cipher .new acts s) {c : Call}
    (hi : s.calls[i]? = some c) (hown : c.pc.Holds ∨ s.conn.lock = none) {j : ℕ} {d : Call}
    (hd : s.calls[j]? = some d) (hj : j ≠ i) : ¬ d.pc.Holds := by
  intro hh
  have other := exclusive h j d hd hh
  rcases hown with hc | hl
  · exact hj (Option.some.inj (other.symm.trans (exclusive h i c hi hc)))
  · cases other.symm.trans hl

/-- A step of a call begins under the lock, or takes it. -/
theorem CallStep.owns (h : CallStep C cipher i tag payload k pc a k' pc') :
    pc.Holds ∨ k.lock = none := by
  rcases h.lock_cases with ⟨-, hl, -⟩ | ⟨hp, -⟩ | ⟨hp, -⟩
  · exact Or.inr hl
  · exact Or.inl hp
  · exact Or.inl hp

/-- One call goes on, and is owed what is right; the others are owed nothing new. -/
theorem Link.Owing.call {conn' : Conn} {L : Link} (h : L.Owing C cipher answer acts)
    (hr : SessionRun C cipher .new acts L.session)
    (hi : L.session.calls[i]? = some ⟨tag, payload, pc⟩)
    (hs : CallStep C cipher i tag payload L.session.conn pc a conn' pc')
    (hL : L' = ⟨⟨conn', L.session.calls.set i ⟨tag, payload, pc'⟩⟩, inbox, outbox⟩)
    (ho : L'.Owes C cipher answer (acts ++ [a]) i tag payload pc') (hq : pc'.Holds ∨ L'.Quiet) :
    L'.Owing C cipher answer (acts ++ [a]) where
  fits c hc := by
    subst hL
    rcases List.mem_or_eq_of_mem_set hc with hc | rfl
    · exact h.fits c hc
    · exact h.fits ⟨tag, payload, pc⟩ (List.mem_of_getElem? hi)
  calls j d hd := by
    subst hL
    rcases List.getElem?_set_cases hd with ⟨rfl, rfl⟩ | ⟨hj, hd⟩
    · exact ho
    · exact (h.calls j d hd).outside (others_outside hr hi hs.owns hd hj) _ a
  free hl := by
    subst hL
    rcases hq with hh | hq
    · rcases hs.lock_cases with ⟨-, -, hl'⟩ | ⟨hp, hl'⟩ | ⟨-, hn⟩
      · cases hl'.symm.trans hl
      · have hown := exclusive hr i _ hi hp
        cases (hl'.trans hown).symm.trans hl
      · exact absurd hh hn
    · exact hq

/-- A request that has reached the node is one that a call waits with. -/
theorem Link.Owing.asked {env : Bytes} (h : L.Owing C cipher answer acts)
    (hr : SessionRun C cipher .new acts L.session) (hm : env ∈ L.inbox) :
    ∃ (i : ℕ) (c : Call) (seq : UInt32), L.session.calls[i]? = some c ∧ L.inbox = [env] ∧
      L.outbox = [] ∧ L.session.conn.frameBuf.buf = [] ∧ Request C cipher seq c.tag c.payload env ∧
      (c.pc = .polling seq ∨ c.pc = .awaiting seq) := by
  have hquiet : ¬ L.Quiet := fun hq => absurd (hq.inbox ▸ hm) List.not_mem_nil
  have due : ∀ {seq tag payload}, L.Due C cipher answer seq tag payload →
      L.inbox = [env] ∧ Request C cipher seq tag payload env ∧ L.outbox = [] ∧
        L.session.conn.frameBuf.buf = [] := by
    intro seq tag payload hd
    cases hd with
    | unread h1 h2 h3 h4 =>
      obtain rfl := List.mem_singleton.1 (h1 ▸ hm)
      exact ⟨h1, h2, h3, h4⟩
    | answered h1 => exact absurd (h1 ▸ hm) List.not_mem_nil
  cases hl : L.session.conn.lock with
  | none => exact absurd (h.free hl) hquiet
  | some i =>
    obtain ⟨⟨tag, payload, pc⟩, hi, hh⟩ := lockHeld hr i hl
    have ho := h.calls i _ hi
    cases pc with
    | waiting | done => exact hh.elim
    | locked => exact absurd ho hquiet
    | numbered => exact absurd ho hquiet
    | «sealed» => exact absurd ho.1 hquiet
    | received => exact absurd ho.1 hquiet
    | leaving => exact absurd ho.1 hquiet
    | polling seq =>
      obtain ⟨h1, h2, h3, h4⟩ := due ho
      exact ⟨i, _, seq, hi, h1, h3, h4, h2, Or.inl rfl⟩
    | awaiting seq =>
      obtain ⟨h1, h2, h3, h4⟩ := due ho.1
      exact ⟨i, _, seq, hi, h1, h3, h4, h2, Or.inr rfl⟩

/-- The response that an honest node seals. -/
theorem Reply.of_seal (hC : C.Aead)
    (hfit : ∀ tag payload, (answer tag payload).length + 22 ≤ maxFrameSize) {c : Bytes}
    (h : C.encrypt cipher.key (buildNonce seq .serverToClient) (tag :: answer tag payload) = some c) :
    Reply C cipher answer seq tag payload (envelope seq c) := by
  have hlen := hC.tagSize _ _ _ _ h
  have hf := hfit tag payload
  refine ⟨⟨?_, ?_⟩, c, rfl, hC.decrypts _ _ _ _ h⟩
  · simp [envelope]
  · simp [envelope, hlen]
    omega

/-- **A step of a link** leaves every call owed what is right. -/
theorem LinkStep.owing (hC : C.Aead)
    (hfit : ∀ tag payload, (answer tag payload).length + 22 ≤ maxFrameSize)
    (h : L.Owing C cipher answer acts) (hr : SessionRun C cipher .new acts L.session)
    (hst : LinkStep C cipher answer L a L') : L'.Owing C cipher answer (acts ++ [a]) := by
  cases hst with
  | start hf hs =>
    cases hs with
    | start =>
      refine ⟨fun c hc => ?_, fun j d hd => ?_, fun hl => ?_⟩
      · rcases List.mem_append.1 hc with hc | hc
        · exact h.fits c hc
        · rw [List.mem_singleton.1 hc]
          exact hf
      · rcases get_append hd with hd | ⟨-, rfl⟩
        · exact Link.Owes.mono (h.calls j d hd) (by rfl) (by rfl) (by rfl) _
        · trivial
      · obtain ⟨h1, h2, h3⟩ := h.free hl
        exact ⟨h1, h2, h3⟩
    | call hi hs => cases hs
  | alone ha hs =>
    cases hs with
    | start | node => exact ha.elim
    | call hi hs =>
      obtain ⟨ho, hq⟩ := hs.owes hC (h.fits _ (List.mem_of_getElem? hi)) ha h.free
        (h.calls _ _ hi)
      exact h.call hr hi hs rfl ho hq
  | send hs =>
    cases hs with
    | call hi hs =>
      have ho := h.calls _ _ hi
      have hs' := hs
      cases hs with
      | send =>
        obtain ⟨⟨h1, h2, h3⟩, hreq⟩ := ho
        refine h.call hr hi hs' rfl ?_ (Or.inl trivial)
        exact .unread (congrArg (· ++ [_]) h1) hreq h2 h3
  | recv hraw hs =>
    cases hs with
    | call hi hs =>
      obtain ⟨ho, hh⟩ := hs.owes_recv hraw (h.calls _ _ hi)
      exact h.call hr hi hs rfl ho (Or.inl hh)
  | @node s s' env seq tag payload c inbox outbox hf hopen hs =>
    cases hs with
    | call hi hs => cases hs
    | node hc =>
      obtain ⟨i, d, seq', hi, hin, hout, hbuf, hreq, hpc⟩ := h.asked hr List.mem_cons_self
      obtain ⟨tag', payload', pc⟩ := d
      cases hin
      cases hout
      cases hopen.symm.trans hreq.2
      have hdue : Link.Due C cipher answer ⟨s, [], [] ++ encodeFrame (envelope seq c)⟩ seq tag'
          payload' := by
        refine .answered rfl (Reply.of_seal hC hfit hc) ?_
        rw [show _ = [] from hbuf]
        rfl
      have hholds : pc.Holds := by
        rcases hpc with rfl | rfl
        · trivial
        · trivial
      refine ⟨h.fits, fun j e he => ?_, fun hl => ?_⟩
      · by_cases hj : j = i
        · subst hj
          cases hi.symm.trans he
          rcases hpc with rfl | rfl
          · exact hdue
          · exact ⟨hdue, fun _ => by simp [encodeFrame, envelope]⟩
        · exact (h.calls j e he).outside (others_outside hr hi (Or.inl hholds) he hj) _ _
      · cases (exclusive hr i _ hi hholds).symm.trans hl

/-- **A link** owes every call what is right. -/
theorem owing (hC : C.Aead) (hfit : ∀ tag payload, (answer tag payload).length + 22 ≤ maxFrameSize)
    (h : LinkRun C cipher answer acts L) : L.Owing C cipher answer acts := by
  refine h.inv (I := fun acts L => L.Owing C cipher answer acts) ?_ ?_
  · constructor
    · rintro c ⟨⟩
    · rintro i c ⟨⟩
    · intro _
      exact ⟨rfl, rfl, rfl⟩
  · intro as t a u hr ih hst
    exact hst.owing hC hfit ih (LinkRun.session hr)

/-! ## Steps to go -/

/-- The steps that are left of a call and of what it will send; a byte of an answer may
    come alone. -/
def Pc.toGo : Pc → ℕ
  | .waiting => 2 * maxFrameSize + 17
  | .locked => 2 * maxFrameSize + 16
  | .numbered _ => 2 * maxFrameSize + 15
  | .sealed _ _ => 2 * maxFrameSize + 14
  | .polling _ => 4
  | .awaiting _ => 3
  | .received _ _ => 2
  | .leaving _ => 1
  | .done _ => 0

def Link.toGo (L : Link) : ℕ :=
  (L.session.calls.map fun c => c.pc.toGo).sum + L.inbox.length * (2 * maxFrameSize + 9) +
    2 * L.outbox.length

theorem toGo_afterPush (seq : UInt32) (next : Pc) (r : Except String (Option Bytes)) :
    (afterPush seq next r).toGo ≤ max next.toGo 2 := by
  match r with
  | .error _ => exact le_max_of_le_right (by decide : 1 ≤ 2)
  | .ok (some _) => exact le_max_right _ _
  | .ok none => exact le_max_left _ _

/-- A step of the client alone brings the call nearer to its end. -/
theorem CallStep.toGo (h : CallStep C cipher i tag payload k pc a k' pc') (ha : a.Alone) :
    a.starts = false ∧ pc'.toGo + 1 ≤ pc.toGo := by
  cases h with
  | send | closed | recv => exact ha.elim
  | @poll seq _ r _ =>
    have hp := toGo_afterPush seq (.awaiting seq) r
    refine ⟨rfl, ?_⟩
    simp [Pc.toGo] at hp ⊢
    omega
  | _ => exact ⟨rfl, by simp [Pc.toGo]⟩

/-- **A step of a link** brings the calls nearer to their end. -/
theorem LinkStep.toGo (hC : C.Aead)
    (hfit : ∀ tag payload, (answer tag payload).length + 22 ≤ maxFrameSize)
    (hst : LinkStep C cipher answer L a L') :
    (if a.starts then 0 else 1) + L'.toGo ≤
      L.toGo + if a.starts then 2 * maxFrameSize + 17 else 0 := by
  cases hst with
  | start hf hs =>
    cases hs with
    | start =>
      simp [Link.toGo, Act.starts, Pc.toGo]
      omega
    | call hi hs => cases hs
  | alone ha hs =>
    cases hs with
    | start | node => exact ha.elim
    | @call k calls i tag payload pc _ k' pc' hi hs =>
      obtain ⟨hstart, hgo⟩ := hs.toGo ha
      have hsum := sum_map_set (f := fun c : Call => c.pc.toGo) (x := ⟨tag, payload, pc'⟩) hi
      simp only [Link.toGo, hstart, Bool.false_eq_true, if_false]
      dsimp only at hsum
      omega
  | send hs =>
    cases hs with
    | @call k calls i tag payload pc _ k' pc' hi hs =>
      have hsum := sum_map_set (f := fun c : Call => c.pc.toGo) (x := ⟨tag, payload, pc'⟩) hi
      cases hs with
      | send =>
        simp [Link.toGo, Act.starts, Pc.toGo, Nat.add_mul] at hsum ⊢
        omega
  | recv hraw hs =>
    cases hs with
    | @call k calls i tag payload pc _ k' pc' hi hs =>
      have hsum := sum_map_set (f := fun c : Call => c.pc.toGo) (x := ⟨tag, payload, pc'⟩) hi
      have hpos := List.length_pos_of_ne_nil hraw
      cases hs with
      | @recv seq _ _ r _ =>
        have hp := toGo_afterPush seq (.polling seq) r
        simp [Link.toGo, Act.starts, Pc.toGo] at hp hsum ⊢
        omega
  | @node s s' env seq tag payload c inbox outbox hf hopen hs =>
    cases hs with
    | call hi hs => cases hs
    | node hc =>
      have hframe := (Reply.of_seal hC hfit hc).1.2
      simp [Link.toGo, Act.starts, Nat.add_mul]
      omega

/-- While a call has not ended, the link can take a step. -/
theorem LinkRun.step (hC : C.Aead)
    (hfit : ∀ tag payload, (answer tag payload).length + 22 ≤ maxFrameSize)
    (h : LinkRun C cipher answer acts L) {c : Call} (hc : c ∈ L.session.calls)
    (hend : ¬ c.pc.Ended) : ∃ a L', LinkStep C cipher answer L a L' ∧ a.starts = false := by
  obtain ⟨s, inbox, outbox⟩ := L
  rcases step_or_awaiting (LinkRun.session h) hc hend with
    ⟨a, s', hst, hcall, hrecv⟩ | ⟨i, ⟨tag, payload, pc⟩, seq, hl, hi, rfl⟩
  · cases a with
    | start | node => cases hcall
    | recv i raw => exact absurd rfl (hrecv i raw)
    | send i env r =>
      cases r with
      | ok => exact ⟨_, _, .send hst, rfl⟩
      | error e => exact ⟨_, _, .alone (by trivial) hst, rfl⟩
    | _ => exact ⟨_, _, .alone (by trivial) hst, rfl⟩
  · obtain ⟨hdue, hout⟩ := (owing hC hfit h).calls i _ hi
    cases hdue with
    | unread h1 h2 h3 h4 =>
      cases h1
      obtain ⟨ct, hct⟩ := hC.encrypts cipher.key (buildNonce seq .serverToClient)
        (tag :: answer tag payload) (by
          have := hfit tag payload
          rw [maxFrameSize, maxWireMessageSize] at this
          rw [List.length_cons]
          omega)
      exact ⟨_, _, .node h2.1 h2.2 (.node hct), rfl⟩
    | answered h1 =>
      obtain ⟨s', hst⟩ := awaiting_step C cipher hi rfl (some outbox)
      exact ⟨_, _, .recv_all (hout h1) hst, rfl⟩

end AntClient
