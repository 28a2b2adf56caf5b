/-
  One authenticated connection under concurrent callers: `NodeConnection`'s
  `round_trip` and `next_seq` (`conn.rs`) over `Transport` (`webrtc.rs`).

  A call of `round_trip` is a program counter between its atomic pieces; the cells
  of the connection are shared.  Any call may take its next step at any time, and
  at each step that can fail it may.  The network is the adversary: it chooses
  every message a call receives.  The actions of a run record what was sealed,
  sent, received and returned, by the node as well.

  * `exclusive`: the lock separates the calls.
  * `SealsOk`: every sequence number is sealed once, in increasing order.
  * `IdealAead`: what opens was sealed under the same nonce, and under no other.
-/
import AntClient.Lib.Lts
import AntClient.Framing
import AntClient.Tunnel

namespace AntClient

variable (C : Crates)

/-! ## The connection -/

/-- The cells that the calls on a connection share. -/
structure Conn where
  nextSeq : UInt32
  /-- `request_lock`: the call that holds it -/
  lock : Option ℕ
  frameBuf : FrameBuf

/-- `next_seq`. -/
def Conn.takeSeq (self : Conn) : Conn × Except String UInt32 :=
  let seq := self.nextSeq
  if seq ≥ maxSeq then (self, .error "session sequence space exhausted; reconnect")
  else ({ self with nextSeq := seq + 1 }, .ok seq)

/-- The end of `round_trip`: open the frame, check the sequence number and the
    tag, and strip the tag. -/
def SessionCipher.checkResponse (cipher : SessionCipher) (seq : UInt32) (tag : UInt8)
    (frame : Bytes) : Except String Bytes :=
  match cipher.openResponse C frame with
  | .error e => .error e
  | .ok (respSeq, plaintext) =>
    if respSeq ≠ seq then .error s!"response seq {respSeq} does not match request {seq}"
    else if plaintext.head? ≠ some tag then .error "unexpected response protocol tag"
    else .ok plaintext.tail

/-- Where a call of `round_trip` is. -/
inductive Pc
  /-- at `request_lock.lock().await` -/
  | waiting
  /-- before `next_seq` -/
  | locked
  /-- before `seal_request` -/
  | numbered (seq : UInt32)
  /-- before `send_frame` -/
  | sealed (seq : UInt32) (env : Bytes)
  /-- at the head of the loop in `recv_frame` -/
  | polling (seq : UInt32)
  /-- at `receiver.next().await` in `recv_frame` -/
  | awaiting (seq : UInt32)
  /-- before `open_response` -/
  | received (seq : UInt32) (frame : Bytes)
  /-- before the guard is dropped -/
  | leaving (r : Except String Bytes)
  | done (r : Except String Bytes)

/-- A call of `round_trip`. -/
structure Call where
  tag : UInt8
  payload : Bytes
  pc : Pc

/-- A connection and all calls made on it so far. -/
structure Session where
  conn : Conn
  calls : List Call

/-- What happens on a connection. -/
inductive Act
  | start (tag : UInt8) (payload : Bytes)
  | lock (i : ℕ)
  | number (i : ℕ) (r : Except String UInt32)
  | sealRequest (i : ℕ) (seq : UInt32) (plaintext : Bytes) (r : Except String Bytes)
  | send (i : ℕ) (env : Bytes) (r : Except String Unit)
  | poll (i : ℕ)
  | recv (i : ℕ) (raw : Option Bytes)
  | check (i : ℕ) (seq : UInt32) (frame : Bytes) (r : Except String Bytes)
  | ret (i : ℕ) (r : Except String Bytes)
  /-- the node seals a response -/
  | node (seq : UInt32) (plaintext ciphertext : Bytes)

/-! ## Steps -/

/-- Where a call goes on after `FrameBuf::push`. -/
def afterPush (seq : UInt32) (next : Pc) : Except String (Option Bytes) → Pc
  | .error e => .leaving (.error e)
  | .ok (some frame) => .received seq frame
  | .ok none => next

/-- The steps of the call `i`. -/
inductive CallStep (cipher : SessionCipher) (i : ℕ) (tag : UInt8) (payload : Bytes) :
    Conn → Pc → Act → Conn → Pc → Prop
  | lock {k} : k.lock = none →
      CallStep cipher i tag payload k .waiting (.lock i) { k with lock := some i } .locked
  | exhausted {k k' e} : k.takeSeq = (k', .error e) →
      CallStep cipher i tag payload k .locked (.number i (.error e)) k' (.leaving (.error e))
  | number {k k' seq} : k.takeSeq = (k', .ok seq) →
      CallStep cipher i tag payload k .locked (.number i (.ok seq)) k' (.numbered seq)
  | sealFailed {k seq e} : cipher.sealRequest C seq (tag :: payload) = .error e →
      CallStep cipher i tag payload k (.numbered seq) (.sealRequest i seq (tag :: payload) (.error e)) k
        (.leaving (.error e))
  | sealRequest {k seq env} : cipher.sealRequest C seq (tag :: payload) = .ok env →
      CallStep cipher i tag payload k (.numbered seq) (.sealRequest i seq (tag :: payload) (.ok env)) k
        (.sealed seq env)
  | sendFailed {k seq env} (e : String) :
      CallStep cipher i tag payload k (.sealed seq env) (.send i env (.error e)) k
        (.leaving (.error e))
  | send {k seq env} :
      CallStep cipher i tag payload k (.sealed seq env) (.send i env (.ok ())) k (.polling seq)
  | poll {k seq b r} : k.frameBuf.push [] = (b, r) →
      CallStep cipher i tag payload k (.polling seq) (.poll i) { k with frameBuf := b }
        (afterPush seq (.awaiting seq) r)
  | closed {k seq} :
      CallStep cipher i tag payload k (.awaiting seq) (.recv i none) k
        (.leaving (.error "connection closed"))
  | recv {k seq raw b r} : k.frameBuf.push raw = (b, r) →
      CallStep cipher i tag payload k (.awaiting seq) (.recv i (some raw)) { k with frameBuf := b }
        (afterPush seq (.polling seq) r)
  | check {k seq frame r} : cipher.checkResponse C seq tag frame = r →
      CallStep cipher i tag payload k (.received seq frame) (.check i seq frame r) k (.leaving r)
  | ret {k r} :
      CallStep cipher i tag payload k (.leaving r) (.ret i r) { k with lock := none } (.done r)

/-- The steps of a connection: a new call, a step of a call, or a response sealed
    by the node. -/
inductive Step (cipher : SessionCipher) : Session → Act → Session → Prop
  | start {k calls tag payload} :
      Step cipher ⟨k, calls⟩ (.start tag payload) ⟨k, calls ++ [⟨tag, payload, .waiting⟩]⟩
  | call {k calls i tag payload pc a k' pc'} : calls[i]? = some ⟨tag, payload, pc⟩ →
      CallStep C cipher i tag payload k pc a k' pc' →
      Step cipher ⟨k, calls⟩ a ⟨k', calls.set i ⟨tag, payload, pc'⟩⟩
  | node {s seq p c} : C.encrypt cipher.key (buildNonce seq .serverToClient) p = some c →
      Step cipher s (.node seq p c) s

/-- A connection as `establish` leaves it; the buffer may hold bytes that came
    with the handshake. -/
def Session.fresh (frameBuf : FrameBuf) : Session := ⟨⟨1, none, frameBuf⟩, []⟩

/-- The runs of a connection. -/
abbrev SessionRun (cipher : SessionCipher) (frameBuf : FrameBuf) (acts : List Act) (s : Session) :
    Prop := Lts.Run (Step C cipher) (.fresh frameBuf) acts s

/-! ## Mutual exclusion -/

/-- Between `lock` and the drop of the guard. -/
def Pc.Holds : Pc → Prop
  | .waiting | .done _ => False
  | _ => True

/-- Inside `recv_frame`. -/
def Pc.InRecv : Pc → Prop
  | .polling _ | .awaiting _ => True
  | _ => False

theorem Pc.InRecv.holds : ∀ {pc : Pc}, pc.InRecv → pc.Holds
  | .polling _, _ | .awaiting _, _ => trivial

/-- What `next_seq` does. -/
theorem Conn.takeSeq_cases {k k' : Conn} {r : Except String UInt32} (h : k.takeSeq = (k', r)) :
    (maxSeq ≤ k.nextSeq ∧ k' = k ∧ r = .error "session sequence space exhausted; reconnect") ∨
      (k.nextSeq < maxSeq ∧ k' = { k with nextSeq := k.nextSeq + 1 } ∧ r = .ok k.nextSeq) := by
  unfold Conn.takeSeq at h
  by_cases hs : maxSeq ≤ k.nextSeq
  · rw [if_pos hs] at h
    cases h
    exact Or.inl ⟨hs, rfl, rfl⟩
  · rw [if_neg hs] at h
    cases h
    exact Or.inr ⟨UInt32.not_le.1 hs, rfl, rfl⟩

variable {C} {cipher : SessionCipher} {i : ℕ} {tag : UInt8} {payload : Bytes} {k k' : Conn}
  {pc pc' : Pc} {a : Act}

/-- What a step of a call does with the lock. -/
theorem CallStep.lock_cases (h : CallStep C cipher i tag payload k pc a k' pc') :
    (¬ pc.Holds ∧ k.lock = none ∧ k'.lock = some i) ∨
      (pc.Holds ∧ k'.lock = k.lock) ∨ (pc.Holds ∧ ¬ pc'.Holds) := by
  cases h with
  | lock hl => exact Or.inl ⟨id, hl, rfl⟩
  | ret => exact Or.inr (Or.inr ⟨trivial, id⟩)
  | exhausted ht | number ht =>
    rcases Conn.takeSeq_cases ht with ⟨-, rfl, -⟩ | ⟨-, rfl, -⟩
    · exact Or.inr (Or.inl ⟨trivial, rfl⟩)
    · exact Or.inr (Or.inl ⟨trivial, rfl⟩)
  | _ => exact Or.inr (Or.inl ⟨trivial, rfl⟩)

/-- A call that was there before, or the new one. -/
theorem get_append {calls : List Call} {c d : Call} {j : ℕ} (h : (calls ++ [c])[j]? = some d) :
    calls[j]? = some d ∨ (j = calls.length ∧ d = c) := by
  rcases Nat.lt_trichotomy j calls.length with hj | rfl | hj
  · rw [List.getElem?_append_left hj] at h
    exact Or.inl h
  · simp at h
    exact Or.inr ⟨rfl, h.symm⟩
  · rw [List.getElem?_eq_none (by simp; omega)] at h
    cases h

variable {frameBuf : FrameBuf} {acts : List Act} {s : Session}

/-- **Mutual exclusion**: a call past the lock is the one that holds it. -/
theorem exclusive (h : SessionRun C cipher frameBuf acts s) :
    ∀ i c, s.calls[i]? = some c → c.pc.Holds → s.conn.lock = some i := by
  refine h.inv (I := fun _ s => ∀ i c, s.calls[i]? = some c → c.pc.Holds → s.conn.lock = some i)
    ?_ ?_
  · intro i c hc
    cases hc
  · intro as t a u _ ih hst j d hd hh
    cases hst with
    | start =>
      rcases get_append hd with hd | ⟨-, rfl⟩
      · exact ih j d hd hh
      · exact absurd hh id
    | node => exact ih j d hd hh
    | call hi hs =>
      have own := ih _ _ hi
      rcases List.getElem?_set_cases hd with ⟨rfl, rfl⟩ | ⟨hj, hd⟩
      · rcases hs.lock_cases with ⟨-, -, hl⟩ | ⟨hp, hl⟩ | ⟨-, hn⟩
        · exact hl
        · exact hl.trans (own hp)
        · exact absurd hh hn
      · have other := ih j d hd hh
        rcases hs.lock_cases with ⟨-, hl, -⟩ | ⟨-, hl⟩ | ⟨hp, -⟩
        · rw [hl] at other
          cases other
        · exact hl.trans other
        · exact absurd (Option.some.inj (other.symm.trans (own hp))) hj

/-! ## Sequence numbers -/

/-- The sequence number of a `seal_request`. -/
def Act.sealSeq : Act → Option UInt32
  | .sealRequest _ seq _ _ => some seq
  | _ => none

/-- The sequence number handed out by `next_seq`. -/
def Act.numbered : Act → Option UInt32
  | .number _ (.ok seq) => some seq
  | _ => none

/-- The sequence numbers of all `seal_request` calls, the failed ones included. -/
def sealSeqs (acts : List Act) : List UInt32 := acts.filterMap Act.sealSeq

/-- The nonces of all `seal_request` calls. -/
def sealNonces (acts : List Act) : List (Arr 12) :=
  (sealSeqs acts).map fun seq => buildNonce seq .clientToServer

/-- What a step of a call does with sequence numbers: it seals under the number
    it has, draws a number, or neither. -/
theorem CallStep.seq_cases (h : CallStep C cipher i tag payload k pc a k' pc') :
    (∃ seq, pc = .numbered seq ∧ a.sealSeq = some seq ∧ a.numbered = none ∧ k' = k ∧
        ∀ n, pc' ≠ .numbered n) ∨
      (pc = .locked ∧ k.nextSeq < maxSeq ∧ k'.nextSeq = k.nextSeq + 1 ∧ a.sealSeq = none ∧
        a.numbered = some k.nextSeq ∧ pc' = .numbered k.nextSeq) ∨
      (a.sealSeq = none ∧ a.numbered = none ∧ k'.nextSeq = k.nextSeq ∧ ∀ n, pc' ≠ .numbered n) := by
  have push : ∀ {seq : UInt32} {next : Pc} (r : Except String (Option Bytes)),
      (∀ n, next ≠ .numbered n) → ∀ n, afterPush seq next r ≠ .numbered n := by
    intro seq next r hn n
    match r with
    | .error _ | .ok (some _) => exact Pc.noConfusion
    | .ok none => exact hn n
  cases h with
  | sealFailed => exact Or.inl ⟨_, rfl, rfl, rfl, rfl, fun _ => Pc.noConfusion⟩
  | sealRequest => exact Or.inl ⟨_, rfl, rfl, rfl, rfl, fun _ => Pc.noConfusion⟩
  | exhausted ht =>
    rcases Conn.takeSeq_cases ht with ⟨-, rfl, -⟩ | ⟨-, -, he⟩
    · exact Or.inr (Or.inr ⟨rfl, rfl, rfl, fun _ => Pc.noConfusion⟩)
    · cases he
  | number ht =>
    rcases Conn.takeSeq_cases ht with ⟨-, -, he⟩ | ⟨hlt, rfl, he⟩
    · cases he
    · cases he
      exact Or.inr (Or.inl ⟨rfl, hlt, rfl, rfl, rfl, rfl⟩)
  | poll => exact Or.inr (Or.inr ⟨rfl, rfl, rfl, push _ fun _ => Pc.noConfusion⟩)
  | recv => exact Or.inr (Or.inr ⟨rfl, rfl, rfl, push _ fun _ => Pc.noConfusion⟩)
  | _ => exact Or.inr (Or.inr ⟨rfl, rfl, rfl, fun _ => Pc.noConfusion⟩)

/-- The sealed sequence numbers increase and stay below the counter; a number
    that waits to be sealed is above them. -/
structure SealsOk (acts : List Act) (s : Session) : Prop where
  counter : s.conn.nextSeq.toNat = 1 + (acts.filterMap Act.numbered).length
  range : s.conn.nextSeq ≤ maxSeq
  below : ∀ n ∈ sealSeqs acts, n < s.conn.nextSeq
  sorted : (sealSeqs acts).Pairwise (· < ·)
  pending : ∀ (i : ℕ) c seq, s.calls[i]? = some c → c.pc = .numbered seq →
    seq < s.conn.nextSeq ∧ ∀ n ∈ sealSeqs acts, n < seq

theorem sealSeqs_append_none (h : a.sealSeq = none) : sealSeqs (acts ++ [a]) = sealSeqs acts := by
  simp [sealSeqs, h]

theorem sealSeqs_append_some {seq : UInt32} (h : a.sealSeq = some seq) :
    sealSeqs (acts ++ [a]) = sealSeqs acts ++ [seq] := by
  simp [sealSeqs, h]

/-- An action that neither seals nor draws a number. -/
theorem SealsOk.frame {s' : Session} (h : SealsOk acts s) (hs : a.sealSeq = none)
    (hn : a.numbered = none) (hc : s'.conn.nextSeq = s.conn.nextSeq)
    (hp : ∀ (i : ℕ) c seq, s'.calls[i]? = some c → c.pc = .numbered seq →
      ∃ (j : ℕ) (d : Call), s.calls[j]? = some d ∧ d.pc = .numbered seq) : SealsOk (acts ++ [a]) s' where
  counter := by rw [hc, h.counter]; simp [hn]
  range := by rw [hc]; exact h.range
  below := by rw [hc, sealSeqs_append_none hs]; exact h.below
  sorted := by rw [sealSeqs_append_none hs]; exact h.sorted
  pending := by
    rw [hc, sealSeqs_append_none hs]
    intro i c seq hi hpc
    obtain ⟨j, d, hj, hd⟩ := hp i c seq hi hpc
    exact h.pending j d seq hj hd

/-- The number of the only call that has one is sealed: it was above all others. -/
theorem SealsOk.sealed {k : Conn} {calls : List Call} {c c' : Call} {seq : UInt32}
    (h : SealsOk acts ⟨k, calls⟩) (hi : calls[i]? = some c) (hc : c.pc = .numbered seq)
    (ha : a.sealSeq = some seq) (hn : a.numbered = none) (hc' : ∀ n, c'.pc ≠ .numbered n)
    (hone : ∀ (j : ℕ) d n, calls[j]? = some d → d.pc = .numbered n → j = i) :
    SealsOk (acts ++ [a]) ⟨k, calls.set i c'⟩ := by
  obtain ⟨hb, hgt⟩ := h.pending i c seq hi hc
  refine ⟨?_, h.range, ?_, ?_, ?_⟩
  · rw [h.counter]
    simp [hn]
  · rw [sealSeqs_append_some ha]
    intro n hn
    rcases List.mem_append.1 hn with hn | hn
    · exact h.below n hn
    · exact List.mem_singleton.1 hn ▸ hb
  · rw [sealSeqs_append_some ha, List.pairwise_append]
    exact ⟨h.sorted, by simp, fun x hx y hy => List.mem_singleton.1 hy ▸ hgt x hx⟩
  · intro j d n hd hp
    rcases List.getElem?_set_cases hd with ⟨-, rfl⟩ | ⟨hj, hd⟩
    · exact absurd hp (hc' n)
    · exact absurd (hone j d n hd hp) hj

/-- A number is drawn: it is above all sealed ones. -/
theorem SealsOk.drawn {k k' : Conn} {calls : List Call} {c' : Call}
    (h : SealsOk acts ⟨k, calls⟩) (hlt : k.nextSeq < maxSeq) (hk : k'.nextSeq = k.nextSeq + 1)
    (ha : a.sealSeq = none) (hn : a.numbered = some k.nextSeq) (hc' : c'.pc = .numbered k.nextSeq) :
    SealsOk (acts ++ [a]) ⟨k', calls.set i c'⟩ := by
  have hnat : (k.nextSeq + 1).toNat = k.nextSeq.toNat + 1 := by
    have hm : k.nextSeq.toNat < maxSeq.toNat := UInt32.lt_iff_toNat_lt.1 hlt
    have : maxSeq.toNat = 4294967294 := rfl
    rw [UInt32.toNat_add]
    simp
    omega
  have hstep : ∀ n, n ≤ k.nextSeq → n < k'.nextSeq := by
    intro n hn
    rw [hk, UInt32.lt_iff_toNat_lt, hnat]
    have := UInt32.le_iff_toNat_le.1 hn
    omega
  refine ⟨?_, ?_, ?_, ?_, ?_⟩
  · show k'.nextSeq.toNat = _
    rw [hk, hnat, show k.nextSeq.toNat = _ from h.counter]
    simp [hn]
    omega
  · show k'.nextSeq ≤ maxSeq
    rw [hk, UInt32.le_iff_toNat_le, hnat]
    exact UInt32.lt_iff_toNat_lt.1 hlt
  · rw [sealSeqs_append_none ha]
    exact fun n hn => hstep n (UInt32.le_of_lt (h.below n hn))
  · rw [sealSeqs_append_none ha]
    exact h.sorted
  · rw [sealSeqs_append_none ha]
    intro j d n hd hp
    rcases List.getElem?_set_cases hd with ⟨-, rfl⟩ | ⟨-, hd⟩
    · rw [hc'] at hp
      cases hp
      exact ⟨hstep _ (UInt32.le_refl _), h.below⟩
    · obtain ⟨hb, hgt⟩ := h.pending j d n hd hp
      exact ⟨hstep n (UInt32.le_of_lt hb), hgt⟩

theorem sealsOk (h : SessionRun C cipher frameBuf acts s) : SealsOk acts s := by
  refine h.inv (I := SealsOk) ?_ ?_
  · have h1 : (1 : UInt32) ≤ maxSeq := by decide
    exact ⟨rfl, h1, by simp [sealSeqs], by simp [sealSeqs], fun i c seq hi => by cases hi⟩
  · intro as t a u hr ih hst
    cases hst with
    | start =>
      refine ih.frame rfl rfl rfl fun j d seq hd hp => ?_
      rcases get_append hd with hd | ⟨-, rfl⟩
      · exact ⟨j, d, hd, hp⟩
      · cases hp
    | node => exact ih.frame rfl rfl rfl fun j d seq hd hp => ⟨j, d, hd, hp⟩
    | @call k calls i tag payload pc _ k' pc' hi hs =>
      rcases hs.seq_cases with ⟨seq, rfl, h1, h2, rfl, h3⟩ | ⟨rfl, hlt, h1, h2, h3, rfl⟩ |
        ⟨h1, h2, h3, h4⟩
      · -- no other call has a number, as none holds the lock
        refine ih.sealed hi rfl h1 h2 h3 fun j d n hd hp => ?_
        have e1 := exclusive hr i _ hi trivial
        have e2 := exclusive hr j d hd (by rw [hp]; trivial)
        exact Option.some.inj (e2.symm.trans e1)
      · exact ih.drawn hlt h1 h2 h3 rfl
      · refine ih.frame h1 h2 h3 fun j d seq hd hp => ?_
        rcases List.getElem?_set_cases hd with ⟨-, rfl⟩ | ⟨-, hd⟩
        · exact absurd hp (h4 seq)
        · exact ⟨j, d, hd, hp⟩

/-! ## Nonces -/

/-- A call that has no sequence number and, once the space is exhausted, gets
    none. -/
def Pc.Refused : Pc → Prop
  | .waiting | .locked => True
  | .leaving r | .done r => r = .error "session sequence space exhausted; reconnect"
  | _ => False

/-- The call `i` seals or sends. -/
def Act.SealsOrSends (i : ℕ) : Act → Prop
  | .sealRequest j _ _ _ | .send j _ _ => j = i
  | _ => False

theorem CallStep.sealsOrSends (h : CallStep C cipher i tag payload k pc a k' pc') {j : ℕ}
    (ha : a.SealsOrSends j) : i = j := by
  cases h with
  | sealFailed | sealRequest | sendFailed | send => exact ha
  | _ => exact ha.elim

theorem CallStep.refused (h : CallStep C cipher i tag payload k pc a k' pc')
    (hp : pc.Refused) (hmax : maxSeq ≤ k.nextSeq) : pc'.Refused ∧ ∀ j, ¬ a.SealsOrSends j := by
  cases h with
  | lock => exact ⟨trivial, fun _ => id⟩
  | exhausted ht =>
    rcases Conn.takeSeq_cases ht with ⟨-, -, he⟩ | ⟨-, -, he⟩
    · cases he
      exact ⟨rfl, fun _ => id⟩
    · cases he
  | number ht =>
    rcases Conn.takeSeq_cases ht with ⟨-, -, he⟩ | ⟨hlt, -, -⟩
    · cases he
    · exact absurd hmax (UInt32.not_le.2 hlt)
  | ret => exact ⟨hp, fun _ => id⟩
  | _ => exact hp.elim

/-- Once the sequence space is exhausted, a call without a number fails; it
    neither seals nor sends. -/
theorem exhausted_refuses {acts' : List Act} {s' : Session} (hmax : maxSeq ≤ s.conn.nextSeq)
    (h : Lts.Run (Step C cipher) s acts' s')
    (hi : ∀ c, s.calls[i]? = some c → c.pc.Refused) :
    (∀ a ∈ acts', ¬ a.SealsOrSends i) ∧ ∀ c, s'.calls[i]? = some c → c.pc.Refused := by
  refine (h.inv (I := fun as t => maxSeq ≤ t.conn.nextSeq ∧ (∀ a ∈ as, ¬ a.SealsOrSends i) ∧
    ∀ c, t.calls[i]? = some c → c.pc.Refused) ⟨hmax, by simp, hi⟩ ?_).2
  rintro as t a u - ⟨hm, ha, hr⟩ hst
  have snoc : ¬ a.SealsOrSends i → ∀ b ∈ as ++ [a], ¬ b.SealsOrSends i := fun hn b hb =>
    (List.mem_append.1 hb).elim (ha b) fun hb => List.mem_singleton.1 hb ▸ hn
  cases hst with
  | start =>
    refine ⟨hm, snoc id, fun c hc => ?_⟩
    rcases get_append hc with hc | ⟨-, rfl⟩
    · exact hr c hc
    · trivial
  | node => exact ⟨hm, snoc id, hr⟩
  | @call k calls j _ _ pc _ k' pc' hj hs =>
    have hm' : maxSeq ≤ k'.nextSeq := by
      rcases hs.seq_cases with ⟨_, -, -, -, rfl, -⟩ | ⟨-, hlt, -⟩ | ⟨-, -, he, -⟩
      · exact hm
      · exact absurd hm (UInt32.not_le.2 hlt)
      · rw [he]; exact hm
    by_cases hji : j = i
    · subst hji
      obtain ⟨h1, h2⟩ := hs.refused (hr _ hj) hm
      refine ⟨hm', snoc (h2 j), fun c hc => ?_⟩
      rcases List.getElem?_set_cases hc with ⟨-, rfl⟩ | ⟨hne, -⟩
      · exact h1
      · exact absurd rfl hne
    · refine ⟨hm', snoc fun hu => hji (hs.sealsOrSends hu), fun c hc => ?_⟩
      rcases List.getElem?_set_cases hc with ⟨rfl, -⟩ | ⟨-, hc⟩
      · exact absurd rfl hji
      · exact hr c hc

/-- **Nonce uniqueness**: no two seals of a session share a nonce, none uses the
    nonce of a response, the counter has not wrapped, and after the last sequence
    number every further call fails before it seals or sends. -/
theorem nonce_uniqueness (h : SessionRun C cipher frameBuf acts s) :
    (sealNonces acts).Nodup ∧
      (∀ n ∈ sealNonces acts, ∀ seq, n ≠ buildNonce seq .serverToClient) ∧
      (s.conn.nextSeq ≤ maxSeq ∧
        s.conn.nextSeq.toNat = 1 + (acts.filterMap Act.numbered).length) ∧
      (maxSeq ≤ s.conn.nextSeq → ∀ acts' s', Lts.Run (Step C cipher) s acts' s' →
        ∀ i : ℕ, (∀ c, s.calls[i]? = some c → c.pc.Refused) →
          (∀ a ∈ acts', ¬ a.SealsOrSends i) ∧ ∀ c, s'.calls[i]? = some c → c.pc.Refused) := by
  have hs := sealsOk h
  refine ⟨?_, ?_, ⟨hs.range, hs.counter⟩, ?_⟩
  · have hn : (sealSeqs acts).Nodup := hs.sorted.imp UInt32.ne_of_lt
    exact hn.map fun m n he => (buildNonce_inj he).1
  · intro n hn seq he
    obtain ⟨m, -, rfl⟩ := List.mem_map.1 hn
    cases (buildNonce_inj he).2
  · intro hmax acts' s' hr i hi
    exact exhausted_refuses hmax hr hi

/-! ## Correlation -/

/-- What has been sealed under the session key, by either side: nonce, plaintext
    and ciphertext. -/
inductive Sealed (acts : List Act) : Arr 12 → Bytes → Bytes → Prop
  | client {i seq p c} : .sealRequest i seq p (.ok (envelope seq c)) ∈ acts →
      Sealed acts (buildNonce seq .clientToServer) p c
  | node {seq p c} : .node seq p c ∈ acts → Sealed acts (buildNonce seq .serverToClient) p c

/-- An ideal AEAD: a frame that opens carries a ciphertext that was sealed under
    the same nonce for the same plaintext, and under no other nonce. -/
def IdealAead (C : Crates) (cipher : SessionCipher) (acts : List Act) : Prop :=
  ∀ pre i seq r post respSeq c p, acts = pre ++ .check i seq (envelope respSeq c) r :: post →
    C.decrypt cipher.key (buildNonce respSeq .serverToClient) c = some p →
    Sealed pre (buildNonce respSeq .serverToClient) p c ∧
      ∀ n p', Sealed pre n p' c → n = buildNonce respSeq .serverToClient

theorem IdealAead.of_no_check (h : ∀ i seq frame r, .check i seq frame r ∉ acts) :
    IdealAead C cipher acts := by
  rintro pre i seq r post respSeq c p rfl
  exact absurd (List.mem_append_right _ List.mem_cons_self) (h i seq _ r)

/-- The condition is about checks only, each with the log before it. -/
theorem IdealAead.snoc (h : IdealAead C cipher acts)
    (ha : ∀ i seq r respSeq c p, a = .check i seq (envelope respSeq c) r →
      C.decrypt cipher.key (buildNonce respSeq .serverToClient) c = some p →
      Sealed acts (buildNonce respSeq .serverToClient) p c ∧
        ∀ n p', Sealed acts n p' c → n = buildNonce respSeq .serverToClient) :
    IdealAead C cipher (acts ++ [a]) := by
  intro pre i seq r post respSeq c p he hd
  induction post using List.reverseRecOn with
  | nil =>
    obtain ⟨rfl, hb⟩ := List.append_inj' he rfl
    exact ha i seq r respSeq c p (List.singleton_inj.1 hb) hd
  | append_singleton post b _ =>
    rw [← List.cons_append, ← List.append_assoc] at he
    exact h pre i seq r post respSeq c p (List.append_inj' he rfl).1 hd

theorem SessionCipher.checkResponse_ok {seq : UInt32} {frame p : Bytes}
    (h : cipher.checkResponse C seq tag frame = .ok p) :
    ∃ c, frame = envelope seq c ∧
      C.decrypt cipher.key (buildNonce seq .serverToClient) c = some (tag :: p) := by
  unfold SessionCipher.checkResponse at h
  split at h
  · cases h
  rename_i respSeq plaintext ho
  split_ifs at h with h1 h2
  cases h
  rw [not_not] at h1 h2
  subst h1
  obtain ⟨c, hc, hd⟩ := SessionCipher.openResponse_ok C ho
  obtain ⟨rest, rfl⟩ := List.head?_eq_some_iff.1 h2
  exact ⟨c, hc, hd⟩

/-- What has happened to a call: its request was sealed under its number, and a
    result comes from a frame that passed the checks. -/
def Pc.History (C : Crates) (cipher : SessionCipher) (acts : List Act) (i : ℕ) (tag : UInt8)
    (payload : Bytes) : Pc → Prop
  | .sealed seq _ | .polling seq | .awaiting seq | .received seq _ =>
    ∃ env, .sealRequest i seq (tag :: payload) (.ok env) ∈ acts
  | .leaving (.ok p) | .done (.ok p) => ∃ seq frame env,
    .sealRequest i seq (tag :: payload) (.ok env) ∈ acts ∧
      .check i seq frame (.ok p) ∈ acts ∧ cipher.checkResponse C seq tag frame = .ok p
  | _ => True

theorem Pc.History.mono {acts' : List Act} (hs : acts ⊆ acts')
    (h : pc.History C cipher acts i tag payload) : pc.History C cipher acts' i tag payload := by
  match pc, h with
  | .sealed _ _, ⟨env, h⟩ | .polling _, ⟨env, h⟩ | .awaiting _, ⟨env, h⟩
  | .received _ _, ⟨env, h⟩ => exact ⟨env, hs h⟩
  | .leaving (.ok _), ⟨seq, frame, env, h1, h2, h3⟩
  | .done (.ok _), ⟨seq, frame, env, h1, h2, h3⟩ => exact ⟨seq, frame, env, hs h1, hs h2, h3⟩
  | .leaving (.error _), _ | .done (.error _), _ | .waiting, _ | .locked, _
  | .numbered _, _ => trivial

theorem CallStep.history (h : CallStep C cipher i tag payload k pc a k' pc')
    (hp : pc.History C cipher acts i tag payload) :
    pc'.History C cipher (acts ++ [a]) i tag payload := by
  have hm := hp.mono (List.subset_append_left acts [a])
  have push : ∀ {seq : UInt32} {next : Pc} (r : Except String (Option Bytes)),
      (∃ env, .sealRequest i seq (tag :: payload) (.ok env) ∈ acts ++ [a]) →
      next.History C cipher (acts ++ [a]) i tag payload →
      (afterPush seq next r).History C cipher (acts ++ [a]) i tag payload := by
    intro seq next r he hn
    match r with
    | .error _ => trivial
    | .ok (some _) => exact he
    | .ok none => exact hn
  cases h with
  | sealRequest => exact ⟨_, List.mem_append_right _ List.mem_cons_self⟩
  | send => exact hm
  | poll => exact push _ hm hm
  | recv => exact push _ hm hm
  | @check seq frame r hr =>
    obtain ⟨env, he⟩ := hm
    cases r with
    | error => trivial
    | ok p => exact ⟨seq, frame, env, he, List.mem_append_right _ List.mem_cons_self, hr⟩
  | @ret r =>
    cases r with
    | error => trivial
    | ok => exact hm
  | _ => trivial

theorem history (h : SessionRun C cipher frameBuf acts s) :
    ∀ (i : ℕ) c, s.calls[i]? = some c → c.pc.History C cipher acts i c.tag c.payload := by
  refine h.inv (I := fun acts s => ∀ (i : ℕ) c, s.calls[i]? = some c →
    c.pc.History C cipher acts i c.tag c.payload) ?_ ?_
  · intro i c hc
    cases hc
  · intro as t a u _ ih hst j d hd
    have other : ∀ d, t.calls[j]? = some d →
        d.pc.History C cipher (as ++ [a]) j d.tag d.payload :=
      fun d hd => (ih j d hd).mono (List.subset_append_left as [a])
    cases hst with
    | start =>
      rcases get_append hd with hd | ⟨-, rfl⟩
      · exact other d hd
      · trivial
    | node => exact other d hd
    | call hi hs =>
      rcases List.getElem?_set_cases hd with ⟨rfl, rfl⟩ | ⟨-, hd⟩
      · exact hs.history (ih _ _ hi)
      · exact other d hd

/-- A check is made by a call that has sealed its request under this number. -/
theorem check_spec {pre post : List Act} {seq : UInt32} {frame : Bytes} {r : Except String Bytes}
    (h : SessionRun C cipher frameBuf (pre ++ .check i seq frame r :: post) s) :
    ∃ tag payload env, .sealRequest i seq (tag :: payload) (.ok env) ∈ pre ∧
      cipher.checkResponse C seq tag frame = r := by
  obtain ⟨t, t', hr, hst, -⟩ := h.split
  cases hst with
  | call hi hs =>
    cases hs with
    | check hc =>
      obtain ⟨env, he⟩ := history hr _ _ hi
      exact ⟨_, _, env, he, hc⟩

/-- What `seal_request` returns is an envelope with its number. -/
theorem seal_spec {j : ℕ} {seq : UInt32} {q env : Bytes}
    (h : SessionRun C cipher frameBuf acts s) (hm : .sealRequest j seq q (.ok env) ∈ acts) :
    ∃ c, env = envelope seq c := by
  obtain ⟨pre, post, rfl⟩ := List.append_of_mem hm
  obtain ⟨t, t', -, hst, -⟩ := h.split
  cases hst with
  | call hi hs =>
    cases hs with
    | sealRequest hc =>
      obtain ⟨c, -, hc⟩ := SessionCipher.sealRequest_ok C hc
      exact ⟨c, hc⟩

/-- A number is sealed once, so before its response is checked. -/
theorem seal_before_check {pre post : List Act} {j : ℕ} {seq : UInt32} {frame q : Bytes}
    {r r' : Except String Bytes}
    (h : SessionRun C cipher frameBuf (pre ++ .check i seq frame r :: post) s)
    (hm : .sealRequest j seq q r' ∈ pre ++ .check i seq frame r :: post) :
    .sealRequest j seq q r' ∈ pre := by
  rcases List.mem_append.1 hm with hm | hm
  · exact hm
  · obtain ⟨tag, payload, env, he, -⟩ := check_spec h
    have hs := (sealsOk h).sorted
    rw [sealSeqs, List.filterMap_append, List.pairwise_append] at hs
    exact absurd (hs.2.2 seq (List.mem_filterMap.2 ⟨_, he, rfl⟩) seq
      (List.mem_filterMap.2 ⟨_, hm, rfl⟩)) (UInt32.lt_irrefl seq)

/-- **Correlation**: under an ideal AEAD a call returns only what the node sealed
    for its sequence number and tag; an envelope is accepted for one sequence
    number only, and never if it is one of the client's own; and `recv_frame` is
    never entered twice. -/
theorem responses_correlate (h : SessionRun C cipher frameBuf acts s)
    (hi : IdealAead C cipher acts) :
    (∀ (i : ℕ) tag payload p, s.calls[i]? = some ⟨tag, payload, .done (.ok p)⟩ →
      ∃ seq env c, .sealRequest i seq (tag :: payload) (.ok env) ∈ acts ∧
        .check i seq (envelope seq c) (.ok p) ∈ acts ∧ .node seq (tag :: p) c ∈ acts) ∧
    (∀ i j seq seq' frame p p', .check i seq frame (.ok p) ∈ acts →
      .check j seq' frame (.ok p') ∈ acts → seq = seq') ∧
    (∀ i j seq seq' frame p q env, .check i seq frame (.ok p) ∈ acts →
      .sealRequest j seq' q (.ok env) ∈ acts → env ≠ frame) ∧
    ∀ (i j : ℕ) c d, s.calls[i]? = some c → s.calls[j]? = some d → c.pc.InRecv → d.pc.InRecv →
      i = j := by
  refine ⟨?_, ?_, ?_, ?_⟩
  · intro i tag payload p hc
    obtain ⟨seq, frame, env, hs, hck, hr⟩ := history h i _ hc
    obtain ⟨c, rfl, hd⟩ := SessionCipher.checkResponse_ok hr
    obtain ⟨pre, post, he⟩ := List.append_of_mem hck
    obtain ⟨hsealed, -⟩ := hi pre i seq _ post seq c _ he hd
    refine ⟨seq, env, c, hs, hck, ?_⟩
    generalize hn : buildNonce seq .serverToClient = n at hsealed
    cases hsealed with
    | client => cases (buildNonce_inj hn).2
    | node hm =>
      cases (buildNonce_inj hn).1
      exact he ▸ List.mem_append_left _ hm
  · intro i j seq seq' frame p p' h1 h2
    obtain ⟨pre, post, he⟩ := List.append_of_mem h1
    obtain ⟨_, _, _, -, hr⟩ := check_spec (he ▸ h)
    obtain ⟨pre', post', he'⟩ := List.append_of_mem h2
    obtain ⟨_, _, _, -, hr'⟩ := check_spec (he' ▸ h)
    obtain ⟨c, rfl, -⟩ := SessionCipher.checkResponse_ok hr
    obtain ⟨c', hc', -⟩ := SessionCipher.checkResponse_ok hr'
    exact (envelope_inj hc').1
  · intro i j seq seq' frame p q env h1 h2 hef
    subst hef
    obtain ⟨pre, post, he⟩ := List.append_of_mem h1
    obtain ⟨_, _, _, -, hr⟩ := check_spec (he ▸ h)
    obtain ⟨c, rfl, hd⟩ := SessionCipher.checkResponse_ok hr
    obtain ⟨c', hc'⟩ := seal_spec h h2
    obtain ⟨rfl, rfl⟩ := envelope_inj hc'
    -- the request with this number is in the log when its reflection is opened
    have hpre := seal_before_check (he ▸ h) (he ▸ h2)
    obtain ⟨-, hu⟩ := hi pre i seq _ post seq c _ he hd
    cases (buildNonce_inj (hu _ _ (.client hpre))).2
  · intro i j c d hc hd h1 h2
    have e1 := exclusive h i c hc h1.holds
    have e2 := exclusive h j d hd h2.holds
    exact Option.some.inj (e1.symm.trans e2)

/-! ## An exchange -/

section Exchange

/-- The session key of the exchange. -/
private def key₀ : SessionCipher := ⟨Arr.replicate 32 0⟩

private def sealed₀ (d : Direction) (p : Bytes) : Bytes :=
  (buildNonce 1 d).1 ++ ([0, 0, 0, 0] ++ p)

/-- One request with tag `1` and its response. -/
def exchange : List Act :=
  [.start 1 [7], .lock 0, .number 0 (.ok 1),
    .sealRequest 0 1 [1, 7] (.ok (envelope 1 (sealed₀ .clientToServer [1, 7]))),
    .send 0 (envelope 1 (sealed₀ .clientToServer [1, 7])) (.ok ()), .poll 0,
    .node 1 [1, 9] (sealed₀ .serverToClient [1, 9]),
    .recv 0 (some (encodeFrame (envelope 1 (sealed₀ .serverToClient [1, 9])))),
    .check 0 1 (envelope 1 (sealed₀ .serverToClient [1, 9])) (.ok [9]), .ret 0 (.ok [9])]

theorem exchange_run : SessionRun .transparent key₀ .new exchange
    ⟨⟨2, none, .new⟩, [⟨1, [7], .done (.ok [9])⟩]⟩ := by
  have hp : IsFrame (envelope 1 (sealed₀ .serverToClient [1, 9])) := by
    constructor <;> decide
  refine .cons .start ?_
  refine .cons (.call rfl (.lock rfl)) ?_
  refine .cons (.call rfl (.number rfl)) ?_
  refine .cons (.call rfl (.sealRequest rfl)) ?_
  refine .cons (.call rfl .send) ?_
  refine .cons (.call rfl (.poll rfl)) ?_
  refine .cons (.node rfl) ?_
  refine .cons (.call rfl (.recv (FrameBuf.push_frame hp (List.append_nil _).symm))) ?_
  refine .cons (.call rfl (.check rfl)) ?_
  exact .cons (.call rfl .ret) .start

theorem exchange_ideal : IdealAead .transparent key₀ exchange := by
  have h8 : IdealAead .transparent key₀ (exchange.take 8) :=
    .of_no_check fun i seq frame r => by simp [exchange]
  refine (h8.snoc fun i seq r respSeq c p ha hd => ?_).snoc fun i seq r respSeq c p ha => by cases ha
  obtain ⟨rfl, rfl⟩ := envelope_inj (Act.check.inj ha).2.2.1
  have hopen : Crates.transparent.decrypt key₀.key (buildNonce 1 .serverToClient)
      (sealed₀ .serverToClient [1, 9]) = some [1, 9] := rfl
  cases hopen.symm.trans hd
  refine ⟨.node (by simp [exchange]), fun n p' hs => ?_⟩
  cases hs with
  | client hm =>
    obtain ⟨-, -, -, he⟩ : _ ∧ _ ∧ _ ∧ _ := by simpa [exchange] using hm
    exact absurd (envelope_inj he).2 (by decide)
  | node hm =>
    obtain ⟨rfl, -⟩ : _ ∧ _ := by simpa [exchange] using hm
    rfl

/-- The exchange returns what the node sealed. -/
theorem responses_correlate_exchange : ∃ seq env c,
    .sealRequest 0 seq [1, 7] (.ok env) ∈ exchange ∧
      .check 0 seq (envelope seq c) (.ok [9]) ∈ exchange ∧ .node seq [1, 9] c ∈ exchange :=
  (responses_correlate exchange_run exchange_ideal).1 0 1 [7] [9] rfl

/-- A second call after the exchange seals under the next number. -/
theorem nonce_uniqueness_exchange : ∃ acts s, SessionRun .transparent key₀ .new acts s ∧
    sealNonces acts = [buildNonce 1 .clientToServer, buildNonce 2 .clientToServer] ∧
    (sealNonces acts).Nodup ∧ ∀ n ∈ sealNonces acts, ∀ seq, n ≠ buildNonce seq .serverToClient := by
  have h1 : SessionRun .transparent key₀ .new (exchange ++ [.start 2 [8]]) _ :=
    exchange_run.snoc .start
  have h2 := (h1.snoc (.call (i := 1) rfl (.lock rfl))).snoc (.call (i := 1) rfl (.number rfl))
  have h3 := (h2.snoc (.call (i := 1) rfl (.sealRequest rfl))).snoc (.call (i := 1) rfl .send)
  obtain ⟨hnodup, hresponse, -⟩ := nonce_uniqueness h3
  exact ⟨_, _, h3, rfl, hnodup, hresponse⟩

end Exchange

end AntClient
