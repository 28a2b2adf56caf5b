/-
  A transport on the event loop of the browser (`webrtc.rs`).

  `send_frame` hands the messages of a frame to the data channel, which may refuse one.
  Messages arrive as events: `on_message` queues them and `on_close` ends the queue, while
  a call of `recv_frame` takes its steps.  The model is one direction of a connection, from
  the data channel of the sender to the calls of the receiver.

  * `streamed`: the bytes that the sender's channel took are those of the frames that were
    returned and what is still under way, in order.
  * `channel_frames`: what the receiver gets if each call sends all of its frame or nothing,
    and what it gets after a call that failed in the middle.
-/
import AntClient.Stream

namespace AntClient

open Bytes

/-! ## Sending -/

/-- The loop of `send_frame`: the messages that the data channel takes, and the result.
    `refuses i` is what the channel throws at message `i`. -/
def sendMessages (refuses : ℕ → Option String) : ℕ → List Bytes → List Bytes × Except String Unit
  | _, [] => ([], .ok ())
  | i, msg :: msgs =>
    match refuses i with
    | some e => ([], .error s!"DataChannel send: {e}")
    | none =>
      let (taken, result) := sendMessages refuses (i + 1) msgs
      (msg :: taken, result)

/-- Send one application frame. -/
def sendFrame (refuses : ℕ → Option String) (payload : Bytes) : List Bytes × Except String Unit :=
  sendMessages refuses 0 (splitMessages (encodeFrame payload))

/-! ## Events -/

/-- The data of a message event. -/
inductive MessageData
  | arrayBuffer (bytes : Bytes)
  | other

/-- The closure `on_message`.  After the close there is nobody to send to. -/
def Transport.onMessage (self : Transport) : MessageData → Transport
  | .arrayBuffer bytes =>
    if self.closed then self else { self with receiver := self.receiver ++ [bytes] }
  | .other => self

/-- The closure `on_close`. -/
def Transport.onClose (self : Transport) : Transport := { self with closed := true }

/-- `from_open`. -/
def Transport.fromOpen : Transport := ⟨.new, [], false⟩

/-! ## The channel -/

structure Channel where
  /-- the messages that the channel took and that have not arrived -/
  inFlight : List Bytes
  transport : Transport
  pc : RecvPc

/-- A call of `send_frame`. -/
structure Sent where
  payload : Bytes
  taken : List Bytes
  result : Except String Unit

inductive ChannelAct
  | send (call : Sent)
  | message (data : MessageData)
  | close
  /-- a step of `recv_frame`, and what the call returns by it -/
  | recv (a : RecvAct) (result : Option (Except String Bytes))

/-- What `receiver.next()` can give a step of `recv_frame`, and the queue it leaves. -/
def Transport.Supplies (self : Transport) (queue : List Bytes) : RecvAct → Prop
  | .next (some raw) => self.receiver = raw :: queue
  | .next none => self.receiver = [] ∧ self.closed = true ∧ queue = []
  | .call | .poll => queue = self.receiver

def RecvPc.result : RecvPc → Option (Except String Bytes)
  | .returned r => some r
  | _ => none

inductive ChannelStep : Channel → ChannelAct → Channel → Prop
  | send {c refuses payload taken result} : sendFrame refuses payload = (taken, result) →
      ChannelStep c (.send ⟨payload, taken, result⟩) { c with inFlight := c.inFlight ++ taken }
  | arrive {inFlight bytes t pc} : ChannelStep ⟨bytes :: inFlight, t, pc⟩
      (.message (.arrayBuffer bytes)) ⟨inFlight, t.onMessage (.arrayBuffer bytes), pc⟩
  | other {c} : ChannelStep c (.message .other)
      { c with transport := c.transport.onMessage .other }
  | close {c} : ChannelStep c .close { c with transport := c.transport.onClose }
  | recv {inFlight t pc a b pc' queue} : RecvStep (t.frameBuf, pc) a (b, pc') →
      t.Supplies queue a →
      ChannelStep ⟨inFlight, t, pc⟩ (.recv a pc'.result) ⟨inFlight, ⟨b, queue, t.closed⟩, pc'⟩

/-- A run from the opening of the channel. -/
abbrev ChannelRun (acts : List ChannelAct) (c : Channel) : Prop :=
  Lts.Run ChannelStep ⟨[], .fromOpen, .idle⟩ acts c

/-! ### What a run did -/

def ChannelAct.sent : ChannelAct → Option Sent
  | .send call => some call
  | _ => none

def ChannelAct.result : ChannelAct → Option (Except String Bytes)
  | .recv _ r => r
  | _ => none

/-- The calls of `send_frame`. -/
def sends (acts : List ChannelAct) : List Sent := acts.filterMap ChannelAct.sent

/-- The results of `recv_frame`. -/
def received (acts : List ChannelAct) : List (Except String Bytes) :=
  acts.filterMap ChannelAct.result

/-- The bytes that the channel took. -/
def takenBytes (calls : List Sent) : Bytes := (calls.map fun x => x.taken.flatten).flatten

/-- The call failed after a part of its frame was taken. -/
def Sent.Partial (x : Sent) : Prop := x.taken ≠ [] ∧ x.result ≠ .ok ()

/-- The payloads of the calls that succeeded. -/
def carried (calls : List Sent) : List Bytes :=
  calls.filterMap fun x => x.result.toOption.map fun _ => x.payload

/-- The frames among the results. -/
def frames (results : List (Except String Bytes)) : List Bytes := results.filterMap Except.toOption

/-- The bytes of frames. -/
def wireBytes (payloads : List Bytes) : Bytes := (payloads.map encodeFrame).flatten

variable {acts : List ChannelAct} {c : Channel}

@[simp] theorem frames_nil : frames [] = [] := rfl

@[simp] theorem frames_ok (p : Bytes) (rs : List (Except String Bytes)) :
    frames (.ok p :: rs) = p :: frames rs := rfl

@[simp] theorem frames_error (e : String) (rs : List (Except String Bytes)) :
    frames (.error e :: rs) = frames rs := rfl

@[simp] theorem frames_append (rs rs' : List (Except String Bytes)) :
    frames (rs ++ rs') = frames rs ++ frames rs' := List.filterMap_append

theorem received_snoc (as : List ChannelAct) (a : ChannelAct) :
    received (as ++ [a]) = received as ++ a.result.toList := by
  rw [received, List.filterMap_append]
  cases h : a.result <;> simp [received, h]

theorem sends_snoc (as : List ChannelAct) (a : ChannelAct) :
    sends (as ++ [a]) = sends as ++ a.sent.toList := by
  rw [sends, List.filterMap_append]
  cases h : a.sent <;> simp [sends, h]

@[simp] theorem takenBytes_append (xs ys : List Sent) :
    takenBytes (xs ++ ys) = takenBytes xs ++ takenBytes ys := by simp [takenBytes]

/-! ## What a call hands over -/

theorem sendMessages_spec {refuses : ℕ → Option String} :
    ∀ (msgs : List Bytes) (i : ℕ) {taken result}, sendMessages refuses i msgs = (taken, result) →
      ∃ rest, msgs = taken ++ rest ∧ (result = .ok () ↔ rest = [])
  | [], i, taken, result, h => by
    cases h
    exact ⟨[], rfl, by simp⟩
  | msg :: msgs, i, taken, result, h => by
    rw [sendMessages] at h
    cases hr : refuses i with
    | some e =>
      rw [hr] at h
      cases h
      exact ⟨msg :: msgs, rfl, by simp⟩
    | none =>
      rw [hr] at h
      cases h
      obtain ⟨rest, he, hok⟩ := sendMessages_spec msgs (i + 1) rfl
      exact ⟨rest, congrArg (msg :: ·) he, hok⟩

/-- What a call hands over: a part of the frame, and all of it if the call succeeds. -/
structure Sent.Spec (x : Sent) : Prop where
  cut : x.taken.flatten <+: encodeFrame x.payload
  whole : x.result = .ok () → x.taken.flatten = encodeFrame x.payload
  header : x.Partial → 4 ≤ x.taken.flatten.length

theorem sendFrame_spec {refuses : ℕ → Option String} {payload taken result}
    (h : sendFrame refuses payload = (taken, result)) : (Sent.mk payload taken result).Spec := by
  obtain ⟨rest, he, hok⟩ := sendMessages_spec _ _ h
  have hflat : encodeFrame payload = taken.flatten ++ rest.flatten := by
    rw [← flatten_splitMessages (encodeFrame payload), he, List.flatten_append]
  refine ⟨⟨rest.flatten, hflat.symm⟩, fun hr => ?_, fun hp => ?_⟩
  · rw [hflat, hok.1 hr, List.flatten_nil, List.append_nil]
  · cases taken with
    | nil => exact absurd rfl hp.1
    | cons msg taken =>
      -- the first message holds the length
      have hne : encodeFrame payload ≠ [] := by simp [encodeFrame, toBe]
      have hmsg : msg = (encodeFrame payload).take maxDcMessageSize := by
        rw [splitMessages, chunks, if_neg (by simp [hne, maxDcMessageSize])] at he
        exact (List.cons.inj he).1.symm
      have hlen : 4 ≤ msg.length := by
        rw [hmsg, List.length_take, length_encodeFrame, maxDcMessageSize]
        omega
      simp
      omega

theorem sent_spec (h : ChannelRun acts c) : ∀ x ∈ sends acts, x.Spec := by
  refine h.inv (I := fun acts _ => ∀ x ∈ sends acts, x.Spec) (by simp [sends]) ?_
  intro as t a u _ ih hst x hx
  rw [sends_snoc, List.mem_append] at hx
  rcases hx with hx | hx
  · exact ih x hx
  · cases hst with
    | send hs =>
      obtain rfl := List.mem_singleton.1 hx
      exact sendFrame_spec hs
    | _ => cases hx

/-! ## Frames in a row -/

@[simp] theorem wireBytes_nil : wireBytes [] = [] := rfl

@[simp] theorem wireBytes_cons (p : Bytes) (ps : List Bytes) :
    wireBytes (p :: ps) = encodeFrame p ++ wireBytes ps := rfl

@[simp] theorem wireBytes_append (ps qs : List Bytes) :
    wireBytes (ps ++ qs) = wireBytes ps ++ wireBytes qs := by simp [wireBytes]

/-- The length at the front is that of the frame. -/
theorem length_of_front {p q x y : Bytes} (hp : IsFrame p) (hq : IsFrame q)
    (he : (encodeFrame p ++ x).take 4 = (encodeFrame q ++ y).take 4) : p.length = q.length := by
  rw [← declared_length hp x, he, declared_length hq y]

theorem encodeFrame_append_inj {p q x y : Bytes} (hp : IsFrame p) (hq : IsFrame q)
    (he : encodeFrame p ++ x = encodeFrame q ++ y) : p = q ∧ x = y := by
  have hl : (encodeFrame p).length = (encodeFrame q).length := by
    rw [length_encodeFrame, length_encodeFrame, length_of_front hp hq (congrArg _ he)]
  obtain ⟨hpq, hxy⟩ := List.append_inj he hl
  exact ⟨(List.append_inj hpq (by simp)).2, hxy⟩

/-- Of two rows of frames at the front of the same bytes one continues the other. -/
theorem wireBytes_comparable {x y : Bytes} : ∀ {ps qs : List Bytes}, (∀ p ∈ ps, IsFrame p) →
    (∀ q ∈ qs, IsFrame q) → wireBytes ps ++ x = wireBytes qs ++ y →
    (∃ us, qs = ps ++ us ∧ x = wireBytes us ++ y) ∨ ∃ u us, ps = qs ++ u :: us ∧
      y = wireBytes (u :: us) ++ x
  | [], qs, _, _, he => Or.inl ⟨qs, rfl, he⟩
  | p :: ps, [], _, _, he => Or.inr ⟨p, ps, rfl, he.symm⟩
  | p :: ps, q :: qs, hps, hqs, he => by
    obtain ⟨hp, hps'⟩ := List.forall_mem_cons.1 hps
    obtain ⟨hq, hqs'⟩ := List.forall_mem_cons.1 hqs
    rw [wireBytes_cons, wireBytes_cons, List.append_assoc, List.append_assoc] at he
    obtain ⟨rfl, he'⟩ := encodeFrame_append_inj hp hq he
    rcases wireBytes_comparable hps' hqs' he' with ⟨us, rfl, hx⟩ | ⟨u, us, rfl, hy⟩
    · exact Or.inl ⟨us, rfl, hx⟩
    · exact Or.inr ⟨u, us, rfl, hy⟩

/-! ## What is received -/

/-- The result of a step is a frame at the front of the bytes, or they stay. -/
theorem RecvStep.bytes {t : Transport} {pc pc' : RecvPc} {a : RecvAct} {b : FrameBuf}
    {queue : List Bytes} (h : RecvStep (t.frameBuf, pc) a (b, pc')) (hq : t.Supplies queue a) :
    (∀ p ∈ frames pc'.result.toList, IsFrame p) ∧
      t.bytes = wireBytes (frames pc'.result.toList) ++ (b.buf ++ queue.flatten) := by
  have push : ∀ {b b' : FrameBuf} {data : Bytes} {r} (next : RecvPc), next.result = none →
      b.push data = (b', r) →
      (∀ p ∈ frames (afterRecv next r).result.toList, IsFrame p) ∧
        b.buf ++ data = wireBytes (frames (afterRecv next r).result.toList) ++ b'.buf := by
    intro b b' data r next hn hp
    rcases b.push_cases data with ⟨h', -⟩ | ⟨len, h', -⟩ | ⟨payload, rest, h', hf, he⟩
    · cases hp.symm.trans h'
      simp [afterRecv, hn]
    · cases hp.symm.trans h'
      simp [afterRecv, RecvPc.result]
    · cases hp.symm.trans h'
      simpa [afterRecv, RecvPc.result] using ⟨hf, he⟩
  cases h with
  | first | again =>
    obtain rfl : queue = t.receiver := hq
    exact ⟨by simp [RecvPc.result], by simp [RecvPc.result, Transport.bytes]⟩
  | poll hp =>
    obtain rfl : queue = t.receiver := hq
    obtain ⟨hf, he⟩ := push .awaiting rfl hp
    rw [List.append_nil] at he
    refine ⟨hf, ?_⟩
    rw [Transport.bytes, he, List.append_assoc]
  | @next _ raw b' r hp =>
    have hrec : t.receiver = raw :: queue := hq
    obtain ⟨hf, he⟩ := push .polling rfl hp
    refine ⟨hf, ?_⟩
    rw [Transport.bytes, hrec, List.flatten_cons, ← List.append_assoc, he, List.append_assoc]
  | closed =>
    obtain ⟨hrec, -, rfl⟩ : t.receiver = [] ∧ t.closed = true ∧ queue = [] := hq
    refine ⟨by simp [RecvPc.result], ?_⟩
    simp [RecvPc.result, Transport.bytes, hrec]

/-- **The bytes that the channel took** are those of the frames that were returned, in their
    order, then what the receiver holds, then what is on its way or was lost at the close. -/
theorem streamed (h : ChannelRun acts c) :
    (∀ p ∈ frames (received acts), IsFrame p) ∧
      ∃ late, takenBytes (sends acts) = wireBytes (frames (received acts)) ++
        (c.transport.bytes ++ late) ∧
        (c.transport.closed = false → late = c.inFlight.flatten) := by
  refine h.inv (I := fun acts c => (∀ p ∈ frames (received acts), IsFrame p) ∧
    ∃ late, takenBytes (sends acts) = wireBytes (frames (received acts)) ++
      (c.transport.bytes ++ late) ∧ (c.transport.closed = false → late = c.inFlight.flatten)) ?_ ?_
  · exact ⟨by simp [received, frames], [], rfl, fun _ => rfl⟩
  intro as t a u _ ih hst
  obtain ⟨hf, late, hbytes, hlate⟩ := ih
  rw [received_snoc, sends_snoc]
  cases hst with
  | @send _ _ payload taken result =>
    refine ⟨by simpa [ChannelAct.result] using hf, late ++ taken.flatten, ?_, fun hc => ?_⟩
    · rw [takenBytes_append, hbytes]
      simp [ChannelAct.sent, ChannelAct.result, takenBytes]
    · simp [hlate hc]
  | @arrive inFlight bytes t pc =>
    refine ⟨by simpa [ChannelAct.result] using hf, ?_⟩
    by_cases hc : t.closed = true
    · refine ⟨late, ?_, by simp [Transport.onMessage, hc]⟩
      simpa [ChannelAct.sent, ChannelAct.result, Transport.onMessage, hc] using hbytes
    · obtain rfl := hlate (by simpa using hc)
      refine ⟨inFlight.flatten, ?_, fun _ => rfl⟩
      simpa [ChannelAct.sent, ChannelAct.result, Transport.onMessage, hc, Transport.bytes] using hbytes
  | other => exact ⟨by simpa [ChannelAct.result] using hf, late, by
      simpa [ChannelAct.sent, ChannelAct.result, Transport.onMessage] using hbytes, hlate⟩
  | close =>
    refine ⟨by simpa [ChannelAct.result] using hf, late, ?_, fun hc => ?_⟩
    · simpa [ChannelAct.sent, ChannelAct.result, Transport.onClose, Transport.bytes] using hbytes
    · cases hc
  | recv hs hq =>
    obtain ⟨hfs, hb⟩ := hs.bytes hq
    refine ⟨?_, late, ?_, hlate⟩
    · intro p hp
      rw [frames_append, List.mem_append] at hp
      exact hp.elim (hf p) (hfs p)
    · rw [hb] at hbytes
      simpa [ChannelAct.sent, ChannelAct.result, Transport.bytes] using hbytes

/-! ## Whole frames -/

/-- A call that sent its frame or nothing. -/
theorem takenBytes_whole {calls : List Sent} (hs : ∀ x ∈ calls, x.Spec)
    (hp : ∀ x ∈ calls, ¬ x.Partial) : takenBytes calls = wireBytes (carried calls) := by
  induction calls with
  | nil => rfl
  | cons x calls ih =>
    obtain ⟨hx, hs⟩ := List.forall_mem_cons.1 hs
    obtain ⟨hpx, hp⟩ := List.forall_mem_cons.1 hp
    have ih := ih hs hp
    obtain ⟨payload, taken, result⟩ := x
    cases result with
    | ok =>
      have hw := hx.whole rfl
      have hc : carried (⟨payload, taken, .ok ()⟩ :: calls) = payload :: carried calls := rfl
      rw [hc, wireBytes_cons, ← ih, ← hw]
      rfl
    | error e =>
      obtain rfl : taken = [] := by
        by_contra hne
        exact hpx ⟨hne, nofun⟩
      exact ih

theorem mem_carried {calls : List Sent} {p : Bytes} (h : p ∈ carried calls) :
    ∃ x ∈ calls, x.payload = p := by
  obtain ⟨x, hx, hr⟩ := List.mem_filterMap.1 h
  obtain ⟨_, -, rfl⟩ := Option.map_eq_some_iff.1 hr
  exact ⟨x, hx, rfl⟩

/-- The buffer holds no frame and no rejected length. -/
def FrameBuf.Waits (b : FrameBuf) : Prop := b.push [] = (b, .ok none)

/-- A call waits for a message only when the buffer holds no frame. -/
theorem RecvStep.waits {b b' : FrameBuf} {pc pc' : RecvPc} {a : RecvAct}
    (h : RecvStep (b, pc) a (b', pc')) (hpc : pc' = .awaiting) : b'.Waits := by
  cases h with
  | first | again | closed => cases hpc
  | @poll _ _ r hp =>
    rcases b.push_cases [] with ⟨h', -⟩ | ⟨len, h', -⟩ | ⟨payload, rest, h', -, -⟩
    · obtain ⟨rfl, rfl⟩ := Prod.mk.inj (hp.symm.trans h')
      simpa [FrameBuf.Waits] using h'
    · cases hp.symm.trans h'
      cases hpc
    · cases hp.symm.trans h'
      cases hpc
  | @next _ raw _ r hp =>
    cases r with
    | error e => cases hpc
    | ok o => cases o <;> cases hpc

theorem awaiting_waits (h : ChannelRun acts c) :
    c.pc = .awaiting → c.transport.frameBuf.Waits := by
  refine h.inv (I := fun _ c => c.pc = .awaiting → c.transport.frameBuf.Waits) (by rintro ⟨⟩) ?_
  intro as t a u _ ih hst hpc
  cases hst with
  | @arrive _ bytes t =>
    have hb : (t.onMessage (.arrayBuffer bytes)).frameBuf = t.frameBuf := by
      rw [Transport.onMessage]
      split <;> rfl
    exact hb ▸ ih hpc
  | recv hs hq => exact hs.waits hpc
  | _ => exact ih hpc

/-- Bytes at the front of a row of frames have no length that is rejected. -/
theorem not_outOfRange {ps : List Bytes} (hps : ∀ p ∈ ps, IsFrame p) {buf more : Bytes} {len : ℕ}
    (he : buf ++ more = wireBytes ps) : ¬ FrameBuf.OutOfRange ⟨buf⟩ len := by
  rintro ⟨hh, hd, hr⟩
  cases ps with
  | nil =>
    obtain ⟨rfl, -⟩ := List.append_eq_nil_iff.1 he
    simp at hh
  | cons p ps =>
    have hp := hps p List.mem_cons_self
    have hlen : p.length = len := by
      rw [← hd, ← declared_length hp (wireBytes ps), ← wireBytes_cons, ← he]
      exact congrArg beNat (List.take_append_of_le_length hh)
    obtain ⟨h1, h2⟩ := hp
    omega

/-- Bytes at the front of a row of frames that hold none. -/
theorem FrameBuf.Waits.short {buf : Bytes} (h : FrameBuf.Waits ⟨buf⟩) {p rest : Bytes}
    (hp : IsFrame p) : buf ≠ encodeFrame p ++ rest := by
  rintro rfl
  have hpush := FrameBuf.push_frame hp (List.append_nil (encodeFrame p ++ rest))
  have hres := congrArg Prod.snd (h.symm.trans hpush)
  cases hres

/-- The row of frames at the front of the bytes that were taken. -/
theorem frames_row (h : ChannelRun acts c) (hf : ∀ x ∈ sends acts, IsFrame x.payload)
    (hp : ∀ x ∈ sends acts, ¬ x.Partial) :
    ∃ us late, carried (sends acts) = frames (received acts) ++ us ∧
      wireBytes us = c.transport.bytes ++ late ∧
      (c.transport.closed = false → late = c.inFlight.flatten) := by
  obtain ⟨hframes, late, hbytes, hlate⟩ := streamed h
  rw [takenBytes_whole (sent_spec h) hp] at hbytes
  have hcarried : ∀ p ∈ carried (sends acts), IsFrame p := by
    intro p hm
    obtain ⟨x, hx, rfl⟩ := mem_carried hm
    exact hf x hx
  rw [← List.append_nil (wireBytes (carried _))] at hbytes
  rcases wireBytes_comparable hframes hcarried hbytes.symm with ⟨us, hus, hx⟩ | ⟨u, us, -, hx⟩
  · exact ⟨us, late, hus, by rw [hx, List.append_nil], hlate⟩
  · simp [encodeFrame, toBe] at hx

/-- A step with nothing to read returns nothing but that the channel has closed. -/
theorem RecvStep.drained {t : Transport} {pc pc' : RecvPc} {a : RecvAct} {b : FrameBuf}
    {queue : List Bytes} (h : RecvStep (t.frameBuf, pc) a (b, pc')) (hq : t.Supplies queue a)
    (hr : t.receiver = []) (hw : t.frameBuf.Waits) :
    queue = [] ∧ b.Waits ∧
      (pc'.result = none ∨ pc'.result = some (.error "connection closed")) := by
  cases h with
  | first | again => exact ⟨hq.trans hr, hw, Or.inl rfl⟩
  | poll hp =>
    obtain ⟨rfl, rfl⟩ := Prod.mk.inj (hp.symm.trans hw)
    exact ⟨hq.trans hr, hw, Or.inl rfl⟩
  | next hp => cases hr.symm.trans hq
  | closed => exact ⟨hq.2.2, hw, Or.inr rfl⟩

/-- An error is the end of the channel, or a length that is rejected. -/
theorem RecvStep.error {t : Transport} {pc pc' : RecvPc} {a : RecvAct} {b : FrameBuf}
    {queue : List Bytes} {e : String} (h : RecvStep (t.frameBuf, pc) a (b, pc'))
    (hq : t.Supplies queue a) (he : pc'.result = some (.error e)) :
    (pc = .awaiting ∧ t.receiver = [] ∧ t.closed = true ∧ queue = [] ∧ b = t.frameBuf ∧
      e = "connection closed") ∨ ∃ len, b.OutOfRange len := by
  have push : ∀ {b b' : FrameBuf} {data : Bytes} {r} (next : RecvPc), next.result = none →
      b.push data = (b', r) → (afterRecv next r).result = some (.error e) →
      ∃ len, b'.OutOfRange len := by
    intro b b' data r next hn hp hres
    rcases r with e' | - | p
    · obtain ⟨len, -, hrange⟩ := FrameBuf.push_error hp
      exact ⟨len, hrange⟩
    · cases hn.symm.trans hres
    · cases hres
  cases h with
  | first | again => cases he
  | poll hp => exact Or.inr (push .awaiting rfl hp he)
  | next hp => exact Or.inr (push .polling rfl hp he)
  | closed =>
    cases he
    exact Or.inl ⟨rfl, hq.1, hq.2.1, hq.2.2, rfl, rfl⟩

theorem frames_snoc_ok {rs : List (Except String Bytes)} (h : rs = (frames rs).map .ok)
    (p : Bytes) : rs ++ [.ok p] = (frames (rs ++ [.ok p])).map .ok := by
  rw [frames_append, List.map_append, ← h]
  rfl

theorem frames_snoc_error {rs : List (Except String Bytes)} {m : ℕ} {e : String}
    (h : rs = (frames rs).map .ok ++ List.replicate m (.error e)) :
    rs ++ [.error e] = (frames (rs ++ [.error e])).map .ok ++
      List.replicate (m + 1) (.error e) := by
  rw [frames_append, frames_error, frames_nil, List.append_nil, List.replicate_succ',
    ← List.append_assoc, ← h]

/-- If each call sent its frame or nothing, the results are frames, and then that the
    channel has closed. -/
theorem received_whole (h : ChannelRun acts c) (hf : ∀ x ∈ sends acts, IsFrame x.payload)
    (hp : ∀ x ∈ sends acts, ¬ x.Partial) :
    ∃ m, received acts = (frames (received acts)).map .ok ++
        List.replicate m (.error "connection closed") ∧
      (0 < m → c.transport.closed = true ∧ c.transport.receiver = [] ∧
        c.transport.frameBuf.Waits) := by
  revert hf hp
  refine h.inv (I := fun acts c => (∀ x ∈ sends acts, IsFrame x.payload) →
    (∀ x ∈ sends acts, ¬ x.Partial) → ∃ m, received acts = (frames (received acts)).map .ok ++
      List.replicate m (.error "connection closed") ∧ (0 < m → c.transport.closed = true ∧
        c.transport.receiver = [] ∧ c.transport.frameBuf.Waits)) ?_ ?_
  · intro _ _
    exact ⟨0, rfl, fun h => absurd h (Nat.lt_irrefl 0)⟩
  intro as t a u hrun ih hst hf hp
  rw [sends_snoc] at hf hp
  replace hf : ∀ x ∈ sends as, IsFrame x.payload := fun x hx => hf x (List.mem_append_left _ hx)
  replace hp : ∀ x ∈ sends as, ¬ x.Partial := fun x hx => hp x (List.mem_append_left _ hx)
  obtain ⟨m, hm, hclosed⟩ := ih hf hp
  -- a step that returns nothing
  have quiet : a.result = none → (0 < m → u.transport.closed = true ∧ u.transport.receiver = [] ∧
      u.transport.frameBuf.Waits) → ∃ m, received (as ++ [a]) = (frames (received (as ++ [a]))).map
        .ok ++ List.replicate m (.error "connection closed") ∧ (0 < m → u.transport.closed = true ∧
          u.transport.receiver = [] ∧ u.transport.frameBuf.Waits) := by
    intro ha hu
    rw [received_snoc, ha, Option.toList_none, List.append_nil]
    exact ⟨m, hm, hu⟩
  cases hst with
  | send => exact quiet rfl hclosed
  | arrive =>
    refine quiet rfl fun hm => ?_
    obtain ⟨hc, hr, hw⟩ := hclosed hm
    have hsame : ∀ data, Transport.onMessage _ (.arrayBuffer data) = _ := fun data => if_pos hc
    rw [hsame]
    exact ⟨hc, hr, hw⟩
  | other => exact quiet rfl hclosed
  | close => exact quiet rfl fun hm => ⟨rfl, (hclosed hm).2⟩
  | @recv inFlight t pc a b pc' queue hs hq =>
    cases hr : pc'.result with
    | none =>
      rw [hr] at quiet
      refine quiet rfl fun hpos => ?_
      obtain ⟨hcl, hrec, hw⟩ := hclosed hpos
      obtain ⟨hqueue, hwaits, -⟩ := hs.drained hq hrec hw
      exact ⟨hcl, hqueue, hwaits⟩
    | some r =>
      rw [received_snoc, ChannelAct.result, Option.toList_some]
      by_cases hpos : 0 < m
      · obtain ⟨hcl, hrec, hw⟩ := hclosed hpos
        obtain ⟨hqueue, hwaits, h0 | h0⟩ := hs.drained hq hrec hw
        · cases hr.symm.trans h0
        · cases hr.symm.trans h0
          exact ⟨m + 1, frames_snoc_error hm, fun _ => ⟨hcl, hqueue, hwaits⟩⟩
      · obtain rfl : m = 0 := by omega
        cases r with
        | ok p =>
          refine ⟨0, ?_, fun h => absurd h (Nat.lt_irrefl 0)⟩
          rw [List.replicate_zero, List.append_nil] at hm ⊢
          exact frames_snoc_ok hm p
        | error e =>
          rcases hs.error hq hr with ⟨hpc, hrec, hcl, rfl, rfl, rfl⟩ | ⟨len, hrange⟩
          · have hw : t.frameBuf.Waits := awaiting_waits hrun hpc
            exact ⟨1, frames_snoc_error hm, fun _ => ⟨hcl, rfl, hw⟩⟩
          · -- the buffer is the front of frames that were sent
            obtain ⟨us, late, hus, hwire, -⟩ := frames_row hrun hf hp
            have hb := (hs.bytes hq).2
            rw [hr] at hb
            rw [show t.bytes = b.buf ++ queue.flatten from hb, List.append_assoc] at hwire
            refine absurd hrange (not_outOfRange (fun p hm => ?_) hwire.symm)
            obtain ⟨x, hx, rfl⟩ := mem_carried (hus ▸ List.mem_append_right _ hm)
            exact hf x hx

/-- **Frames over the event loop**.  In every interleaving of sends, events and steps of
    `recv_frame`, with a data channel that may refuse any message and close at any time:
    if each call of `send_frame` sends all of its frame or nothing, the results of
    `recv_frame` are the payloads of the calls that succeeded, in their order, and after
    them only that the channel has closed; a call that waits on an open channel, with
    nothing on the way, has seen all of them.  After the first call that fails in the middle
    of a frame the next frame has the length of that payload, and consists of the part
    that was sent and of the bytes of the calls after it. -/
theorem channel_frames (h : ChannelRun acts c) (hf : ∀ x ∈ sends acts, IsFrame x.payload) :
    ((∀ x ∈ sends acts, ¬ x.Partial) → ∃ us m, carried (sends acts) = frames (received acts) ++ us ∧
      received acts = (frames (received acts)).map .ok ++
        List.replicate m (.error "connection closed") ∧
      (0 < m → c.transport.closed = true) ∧
      (c.pc = .awaiting → c.transport.receiver = [] → c.inFlight = [] →
        c.transport.closed = false → us = [])) ∧
    ∀ pre x post, sends acts = pre ++ x :: post → (∀ y ∈ pre, ¬ y.Partial) → x.Partial →
      frames (received acts) <+: carried pre ∨
        ∃ q us, frames (received acts) = carried pre ++ q :: us ∧
          q.length = x.payload.length ∧
          encodeFrame q = (x.taken.flatten ++ takenBytes post).take (4 + x.payload.length) := by
  refine ⟨fun hp => ?_, fun pre x post hsplit hpre hx => ?_⟩
  · obtain ⟨us, late, hus, hwire, hlate⟩ := frames_row h hf hp
    obtain ⟨m, hm, hclosed⟩ := received_whole h hf hp
    refine ⟨us, m, hus, hm, fun hpos => (hclosed hpos).1, fun hpc hrec hfly hopen => ?_⟩
    cases us with
    | nil => rfl
    | cons p us =>
      -- the buffer would hold the frame
      have hw := awaiting_waits h hpc
      rw [hlate hopen, hfly, Transport.bytes, hrec] at hwire
      obtain ⟨y, hy, rfl⟩ := mem_carried (hus ▸ List.mem_append_right _ List.mem_cons_self)
      have hbuf : c.transport.frameBuf.buf = encodeFrame y.payload ++ wireBytes us := by
        simpa using hwire.symm
      exact absurd hbuf (hw.short (hf y hy))
  · obtain ⟨hframes, late, hbytes, -⟩ := streamed h
    have hmem : ∀ y ∈ pre, y ∈ sends acts := fun y hy => hsplit ▸ List.mem_append_left _ hy
    have hspec : ∀ y ∈ pre, y.Spec := fun y hy => sent_spec h y (hmem y hy)
    have hxm : x ∈ sends acts := hsplit ▸ List.mem_append_right _ List.mem_cons_self
    have hsx : x.Spec := sent_spec h x hxm
    have hcarried : ∀ p ∈ carried pre, IsFrame p := by
      intro p hm
      obtain ⟨y, hy, rfl⟩ := mem_carried hm
      exact hf y (hmem y hy)
    have htail : takenBytes (x :: post) = x.taken.flatten ++ takenBytes post := rfl
    rw [hsplit, takenBytes_append, takenBytes_whole hspec hpre, htail] at hbytes
    rcases wireBytes_comparable hframes hcarried hbytes.symm with ⟨us, hus, -⟩ | ⟨q, us, hus, hq⟩
    · exact Or.inl ⟨us, hus.symm⟩
    · refine Or.inr ⟨q, us, hus, ?_⟩
      have hqf : IsFrame q := hframes q (hus ▸ List.mem_append_right _ List.mem_cons_self)
      rw [wireBytes_cons, List.append_assoc] at hq
      -- the part that was sent holds the length
      have hcut : x.taken.flatten.take 4 = (encodeFrame x.payload ++ []).take 4 := by
        obtain ⟨rest, hrest⟩ := hsx.cut
        rw [List.append_nil, ← hrest, List.take_append_of_le_length (hsx.header hx)]
      have hfront : (encodeFrame q ++ (wireBytes us ++ (c.transport.bytes ++ late))).take 4 =
          (encodeFrame x.payload ++ []).take 4 := by
        rw [← hq, List.take_append_of_le_length (hsx.header hx), hcut]
      have hlen : q.length = x.payload.length := length_of_front hqf (hf x hxm) hfront
      refine ⟨hlen, ?_⟩
      rw [hq, List.take_left' (by rw [length_encodeFrame, hlen])]

/-- A frame is cut after its first message, and the next one has the length of what is missing:
    the receiver takes it for the rest of the first. -/
theorem cut_run {p tail next : Bytes} (hp : 4 + p.length = maxDcMessageSize)
    (htail : tail.length = 4 + next.length) (hmax : tail.length ≤ maxDcMessageSize) :
    ∃ acts c, ChannelRun acts c ∧
      sends acts = [⟨p ++ tail, [toBe 4 (p ++ tail).length ++ p], .error "DataChannel send: full"⟩,
        ⟨next, [encodeFrame next], .ok ()⟩] ∧
      received acts = [.ok (p ++ encodeFrame next)] := by
  have hsizes : 2 * maxDcMessageSize ≤ maxFrameSize := by decide
  have hcut : sendFrame (fun i => if i = 0 then none else some "full") (p ++ tail) =
      ([toBe 4 (p ++ tail).length ++ p], .error "DataChannel send: full") := by
    have hfirst : (toBe 4 (p ++ tail).length ++ p).length = maxDcMessageSize := by
      rw [List.length_append, length_toBe, hp]
    rw [sendFrame, splitMessages, encodeFrame, ← List.append_assoc,
      chunks_append (by decide) hfirst, chunks_short (by omega) hmax]
    rfl
  have hsend : sendFrame (fun _ => none) next = ([encodeFrame next], .ok ()) := by
    have hlen := length_encodeFrame next
    rw [sendFrame, splitMessages, chunks_short (by omega) (by omega)]
    rfl
  have hframe : IsFrame (p ++ encodeFrame next) := by
    rw [IsFrame, List.length_append, length_encodeFrame]
    omega
  have hbytes : toBe 4 (p ++ tail).length ++ p ++ encodeFrame next =
      encodeFrame (p ++ encodeFrame next) ++ [] := by
    have hlen : (p ++ encodeFrame next).length = (p ++ tail).length := by
      rw [List.length_append, List.length_append, length_encodeFrame, htail]
    rw [List.append_nil, encodeFrame.eq_def (p ++ _), hlen, List.append_assoc]
  have hfirst : (toBe 4 (p ++ tail).length ++ p).length = 4 + p.length := by
    rw [List.length_append, length_toBe]
  generalize toBe 4 (p ++ tail).length ++ p = first at hcut hbytes hfirst
  have hless : first.length < 4 + (p ++ encodeFrame next).length := by
    rw [List.length_append, length_encodeFrame]
    omega
  have hwait : FrameBuf.push .new first = (⟨first⟩, .ok none) :=
    FrameBuf.push_short hframe (show [] ++ first ++ encodeFrame next = _ from hbytes) hless
  have hshort : FrameBuf.push ⟨first⟩ [] = (⟨first⟩, .ok none) := by
    rw [← List.append_nil first] at hbytes hless
    have h := FrameBuf.push_short hframe hbytes hless
    rwa [List.append_nil] at h
  have h1 : ChannelRun _ _ := (Lts.Run.start.snoc (.send hcut)).snoc (.send hsend)
  have h2 := (h1.snoc .arrive).snoc .arrive
  have h3 := (h2.snoc (.recv .first rfl)).snoc (.recv (.poll rfl) rfl)
  have h4 := (h3.snoc (.recv (.next hwait) rfl)).snoc (.recv (.poll hshort) rfl)
  have h5 := h4.snoc (.recv (.next (FrameBuf.push_frame hframe hbytes)) rfl)
  exact ⟨_, _, h5, rfl, rfl⟩
/-- A frame is sent and arrives, and the channel refuses the next one at once and closes; a
    frame is cut, and the bytes of the one after it are taken for its rest. -/
theorem channel_frames_one : (∃ acts c, ChannelRun acts c ∧
    received acts = [.ok [7], .error "connection closed"] ∧
    ∃ us m, carried (sends acts) = frames (received acts) ++ us ∧
      received acts = (frames (received acts)).map .ok ++
        List.replicate m (.error "connection closed")) ∧
    ∃ acts c x q us, ChannelRun acts c ∧ x ∈ sends acts ∧ x.Partial ∧ q ≠ x.payload ∧
      frames (received acts) = q :: us ∧ q.length = x.payload.length := by
  constructor
  · have hchunks : chunks maxDcMessageSize (encodeFrame [7]) = [[0, 0, 0, 1, 7]] := by
      rw [chunks, if_neg (by decide), chunks, if_pos (by decide)]
      rfl
    have hsend : sendFrame (fun _ => none) [7] = ([[0, 0, 0, 1, 7]], .ok ()) := by
      rw [sendFrame, splitMessages, hchunks]
      rfl
    have hrefused : sendFrame (fun _ => some "full") [7] =
        ([], .error "DataChannel send: full") := by
      rw [sendFrame, splitMessages, hchunks]
      rfl
    have h : IsFrame [7] := by constructor <;> decide
    have hpush : FrameBuf.push .new [0, 0, 0, 1, 7] = (⟨[]⟩, .ok (some [7])) :=
      FrameBuf.push_frame h (List.append_nil (encodeFrame [7])).symm
    have h1 : ChannelRun _ _ := Lts.Run.start.snoc (.send hsend)
    have h2 := (h1.snoc .arrive).snoc (.send hrefused)
    have h3 := (h2.snoc .close).snoc (.recv .first rfl)
    have h4 := (h3.snoc (.recv (.poll rfl) rfl)).snoc (.recv (.next hpush) rfl)
    have h5 := (h4.snoc (.recv .again rfl)).snoc (.recv (.poll rfl) rfl)
    have hrun := h5.snoc (.recv .closed ⟨rfl, rfl, rfl⟩)
    have hsends : ∀ x ∈ [Sent.mk [7] [[0, 0, 0, 1, 7]] (.ok ()), Sent.mk [7] []
        (.error "DataChannel send: full")], IsFrame x.payload ∧ ¬ x.Partial := by
      simp [h, Sent.Partial]
    obtain ⟨hwhole, -⟩ := channel_frames hrun fun x hx => (hsends x hx).1
    obtain ⟨us, m, hus, hm, -⟩ := hwhole fun x hx => (hsends x hx).2
    exact ⟨_, _, hrun, rfl, us, m, hus, hm⟩
  · have hnext : IsFrame (List.replicate 8 2) := by constructor <;> decide
    have hp : 4 + (List.replicate (maxDcMessageSize - 4) (1 : UInt8)).length =
        maxDcMessageSize := by
      rw [List.length_replicate]
      decide
    obtain ⟨acts, c, hrun, hsends, hrec⟩ := cut_run hp
      (show (List.replicate 12 (3 : UInt8)).length = 4 + (List.replicate 8 (2 : UInt8)).length
        from rfl) (by decide)
    generalize List.replicate (maxDcMessageSize - 4) (1 : UInt8) = p at hp hsends hrec
    have hcut : IsFrame (p ++ List.replicate 12 3) := by
      rw [IsFrame, List.length_append, List.length_replicate, maxFrameSize, maxWireMessageSize]
      rw [maxDcMessageSize] at hp
      omega
    obtain ⟨-, hpart⟩ := channel_frames hrun (by simpa [hsends] using ⟨hcut, hnext⟩)
    have hpartial := hpart [] _ _ hsends (by simp) ⟨by simp, by simp⟩
    rw [hrec] at hpartial
    rcases hpartial with hnone | ⟨q, us, hq, hlen, -⟩
    · exact absurd hnone (by simp [carried])
    · refine ⟨acts, c, _, q, us, hrun, hsends ▸ List.mem_cons_self, ⟨by simp, by simp⟩, ?_,
        hrec ▸ hq, hlen⟩
      rintro rfl
      have htail := List.append_cancel_left (List.cons.inj hq).1
      cases htail

end AntClient
