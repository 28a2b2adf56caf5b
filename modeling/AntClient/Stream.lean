/-
  A transport as a stream of frames: successive calls of `recv_frame` (`webrtc.rs`)
  over the messages that have arrived.

  * `FrameBuf.recv_eq`: a call over pieces does what one `push` of all bytes does, so
    its result does not depend on the pieces.
  * `recvN_frames`: the frames that were sent are received, however they are cut.
  * `recv_malformed`: arbitrary streams.
-/
import AntClient.Framing
import AntClient.Lib.Lts

namespace AntClient

open Bytes

/-! ## The transport -/

/-- The receiving side of a transport. -/
structure Transport where
  frameBuf : FrameBuf
  /-- the messages that have arrived and were not read -/
  receiver : List Bytes
  /-- whether the channel closed after them -/
  closed : Bool

/-- `recv_frame`: the transport it leaves and its result, `none` while it waits. -/
def Transport.recvFrame (self : Transport) : Transport × Option (Except String Bytes) :=
  match self.frameBuf.recv self.receiver with
  | (buf, msgs, some r) => (⟨buf, msgs, self.closed⟩, some r)
  | (buf, msgs, none) =>
    (⟨buf, msgs, self.closed⟩, if self.closed then some (.error "connection closed") else none)

/-- The results of `n` successive calls; a call that waits ends the list. -/
def Transport.recvN : ℕ → Transport → List (Except String Bytes) × Transport
  | 0, self => ([], self)
  | n + 1, self =>
    match self.recvFrame with
    | (self, none) => ([], self)
    | (self, some r) => (r :: (self.recvN n).1, (self.recvN n).2)

/-- The bytes that no call has returned yet. -/
def Transport.bytes (self : Transport) : Bytes := self.frameBuf.buf ++ self.receiver.flatten

/-! ## What a push does -/

/-- The error of a rejected length. -/
def outOfRange (len : ℕ) : String := s!"declared frame length {len} out of range"

/-- The length at the front of the buffer is rejected. -/
structure FrameBuf.OutOfRange (self : FrameBuf) (len : ℕ) : Prop where
  header : 4 ≤ self.buf.length
  declared : beNat (self.buf.take 4) = len
  range : len = 0 ∨ maxFrameSize < len

/-- `push` waits, rejects the length, or returns the frame at the front. -/
theorem FrameBuf.push_cases (b : FrameBuf) (data : Bytes) :
    (b.push data = (⟨b.buf ++ data⟩, .ok none) ∧ (b.buf ++ data).length ≤ maxFrameSize + 3) ∨
      (∃ len, b.push data = (⟨b.buf ++ data⟩, .error (outOfRange len)) ∧
        FrameBuf.OutOfRange ⟨b.buf ++ data⟩ len) ∨
      ∃ payload rest, b.push data = (⟨rest⟩, .ok (some payload)) ∧ IsFrame payload ∧
        b.buf ++ data = encodeFrame payload ++ rest := by
  generalize he : b.buf ++ data = all
  simp only [FrameBuf.push, he]
  by_cases h4 : all.length < 4
  · refine Or.inl ⟨by rw [if_pos h4], by omega⟩
  · rw [if_neg h4]
    by_cases hr : beNat (all.take 4) = 0 ∨ beNat (all.take 4) > maxFrameSize
    · refine Or.inr (Or.inl ⟨beNat (all.take 4), by rw [if_pos hr]; rfl, ?_⟩)
      exact ⟨by simpa using h4, rfl, hr⟩
    · rw [if_neg hr]
      rw [not_or] at hr
      by_cases hl : all.length < 4 + beNat (all.take 4)
      · refine Or.inl ⟨by rw [if_pos hl], by omega⟩
      · refine Or.inr (Or.inr ⟨_, _, by rw [if_neg hl], ?_, ?_⟩)
        · constructor
          · simp
            omega
          · simp
            omega
        · have hlen : ((all.drop 4).take (beNat (all.take 4))).length = beNat (all.take 4) := by
            simp
            omega
          have htake : toBe 4 (beNat (all.take 4)) = all.take 4 :=
            toBe_of_beNat (by simp; omega) rfl
          rw [encodeFrame, hlen, htake, List.append_assoc, ← List.drop_drop, List.take_append_drop,
            List.take_append_drop]

theorem FrameBuf.push_outOfRange {b : FrameBuf} {data : Bytes} {len : ℕ}
    (h : FrameBuf.OutOfRange ⟨b.buf ++ data⟩ len) :
    b.push data = (⟨b.buf ++ data⟩, .error (outOfRange len)) := by
  obtain ⟨h4, rfl, hr⟩ := h
  simp only [FrameBuf.push]
  rw [if_neg (by simpa using h4), if_pos hr]
  rfl

/-- Bytes that arrive later do not repair a rejected length. -/
theorem FrameBuf.OutOfRange.append {buf : Bytes} {len : ℕ} (h : FrameBuf.OutOfRange ⟨buf⟩ len)
    (more : Bytes) : FrameBuf.OutOfRange ⟨buf ++ more⟩ len := by
  obtain ⟨h4, hd, hr⟩ := h
  refine ⟨?_, ?_, hr⟩
  · simp at h4 ⊢
    omega
  · rw [← hd]
    exact congrArg beNat (List.take_append_of_le_length h4)

/-! ## Pieces do not matter -/

/-- The result of a call as the result of a `push`. -/
def pushResult : Option (Except String Bytes) → Except String (Option Bytes)
  | none => .ok none
  | some (.ok frame) => .ok (some frame)
  | some (.error e) => .error e

/-- What `push` returns of a part of the bytes it returns of all of them. -/
theorem FrameBuf.push_more (b : FrameBuf) (data more : Bytes) :
    b.push data = (⟨b.buf ++ data⟩, .ok none) ∨
      ∃ b' r, b.push data = (b', pushResult (some r)) ∧
        FrameBuf.push ⟨b.buf ++ data ++ more⟩ [] = (⟨b'.buf ++ more⟩, pushResult (some r)) := by
  rcases b.push_cases data with ⟨h, -⟩ | ⟨len, h, hr⟩ | ⟨payload, rest, h, hf, he⟩
  · exact Or.inl h
  · refine Or.inr ⟨_, .error (outOfRange len), h, ?_⟩
    have hrange : FrameBuf.OutOfRange ⟨b.buf ++ data ++ more ++ []⟩ len := by
      simpa using hr.append more
    rw [FrameBuf.push_outOfRange hrange]
    simp [pushResult]
  · refine Or.inr ⟨_, .ok payload, h, ?_⟩
    have hframe : b.buf ++ data ++ more ++ [] = encodeFrame payload ++ (rest ++ more) := by simp [he]
    rw [FrameBuf.push_frame hf hframe]
    rfl

theorem FrameBuf.recv_result {b b' : FrameBuf} {r : Except String Bytes} (raw : Bytes)
    (rest : List Bytes) (h : b.push [] = (b', pushResult (some r))) :
    b.recv [] = (b', [], some r) ∧ b.recv (raw :: rest) = (b', raw :: rest, some r) := by
  cases r <;> simp [FrameBuf.recv, h, pushResult]

theorem FrameBuf.recv_result_cons {b b' : FrameBuf} {r : Except String Bytes} {raw : Bytes}
    {rest : List Bytes} (hw : b.push [] = (b, .ok none))
    (h : b.push raw = (b', pushResult (some r))) : b.recv (raw :: rest) = (b', rest, some r) := by
  cases r <;> simp [FrameBuf.recv, hw, h, pushResult]

/-- **Pieces do not matter**: a call over the pieces does what one `push` of all bytes
    does, and the bytes it leaves are those the `push` leaves. -/
theorem FrameBuf.recv_eq (msgs : List Bytes) : ∀ b : FrameBuf,
    FrameBuf.push ⟨b.buf ++ msgs.flatten⟩ [] =
      (⟨(b.recv msgs).1.buf ++ (b.recv msgs).2.1.flatten⟩, pushResult (b.recv msgs).2.2) := by
  induction msgs with
  | nil =>
    intro b
    rcases b.push_more [] [] with h | ⟨b', r, h, hm⟩
    · simp at h ⊢
      simp [FrameBuf.recv, h, pushResult]
    · obtain ⟨hr, -⟩ := FrameBuf.recv_result [] [] h
      rw [hr]
      simpa using hm
  | cons raw rest ih =>
    intro b
    rcases b.push_more [] (raw :: rest).flatten with h | ⟨b', r, h, hm⟩
    · have hw : b.push [] = (b, .ok none) := by simpa using h
      rcases b.push_more raw rest.flatten with h' | ⟨b', r, h', hm'⟩
      · have hrec : b.recv (raw :: rest) = FrameBuf.recv ⟨b.buf ++ raw⟩ rest := by
          simp [FrameBuf.recv, hw, h']
        have ih := ih ⟨b.buf ++ raw⟩
        rw [hrec]
        simpa using ih
      · rw [FrameBuf.recv_result_cons hw h']
        simpa using hm'
    · obtain ⟨-, hr⟩ := FrameBuf.recv_result raw rest h
      rw [hr]
      simpa using hm

/-! ## Frames that were sent -/

theorem Transport.recvFrame_eq (t : Transport) :
    t.recvFrame = (⟨(t.frameBuf.recv t.receiver).1, (t.frameBuf.recv t.receiver).2.1, t.closed⟩,
      match (t.frameBuf.recv t.receiver).2.2 with
      | some r => some r
      | none => if t.closed then some (.error "connection closed") else none) := by
  rw [Transport.recvFrame]
  rcases t.frameBuf.recv t.receiver with ⟨b, msgs, o⟩
  cases o <;> rfl

/-- A transport that holds a frame returns it. -/
theorem Transport.recvFrame_frame {t : Transport} {payload rest : Bytes} (h : IsFrame payload)
    (ht : t.bytes = encodeFrame payload ++ rest) :
    ∃ t', t.recvFrame = (t', some (.ok payload)) ∧ t'.bytes = rest ∧ t'.closed = t.closed := by
  obtain ⟨buf, msgs, hr, hrest⟩ := FrameBuf.recv_frame h ht
  refine ⟨⟨⟨buf⟩, msgs, t.closed⟩, ?_, hrest, rfl⟩
  rw [Transport.recvFrame_eq, show t.frameBuf.recv t.receiver = _ from hr]

/-- An empty transport waits, or its channel is closed. -/
theorem Transport.recvFrame_empty {t : Transport} (h : t.bytes = []) :
    t.recvFrame.2 = if t.closed then some (.error "connection closed") else none := by
  have hr := FrameBuf.recv_eq t.receiver t.frameBuf
  rw [show t.frameBuf.buf ++ t.receiver.flatten = [] from h] at hr
  rw [Transport.recvFrame_eq]
  rcases hb : t.frameBuf.recv t.receiver with ⟨b, msgs, o⟩
  rw [hb] at hr
  have ho := (Prod.mk.inj hr).2
  cases o with
  | none => rfl
  | some r => cases r <;> cases ho

/-- **Frames survive any fragmentation**: successive calls on a fresh transport return the
    payloads that were sent, in order; then the buffer is empty, and there is no
    further frame. -/
theorem recvN_frames {payloads : List Bytes} (hp : ∀ p ∈ payloads, IsFrame p) {msgs : List Bytes}
    (hm : msgs.flatten = (payloads.map encodeFrame).flatten) (closed : Bool) :
    ∃ t : Transport, Transport.recvN payloads.length ⟨.new, msgs, closed⟩ = (payloads.map .ok, t) ∧
      t.frameBuf.buf = [] ∧ t.receiver.flatten = [] ∧
      t.recvFrame.2 = if closed then some (.error "connection closed") else none := by
  have run : ∀ (ps : List Bytes) (t : Transport), (∀ p ∈ ps, IsFrame p) →
      t.bytes = (ps.map encodeFrame).flatten →
      ∃ t', t.recvN ps.length = (ps.map .ok, t') ∧ t'.bytes = [] ∧ t'.closed = t.closed := by
    intro ps
    induction ps with
    | nil =>
      intro t _ ht
      exact ⟨t, rfl, by simpa using ht, rfl⟩
    | cons p ps ih =>
      intro t hps ht
      have hp := hps p List.mem_cons_self
      obtain ⟨t₁, h1, hb, hc⟩ := Transport.recvFrame_frame (t := t) hp (by simpa using ht)
      obtain ⟨t₂, h2, hb₂, hc₂⟩ := ih t₁ (fun q hq => hps q (List.mem_cons_of_mem _ hq)) hb
      refine ⟨t₂, ?_, hb₂, hc₂.trans hc⟩
      simp [Transport.recvN, h1, h2]
  obtain ⟨t, h1, h2, h3⟩ := run payloads ⟨.new, msgs, closed⟩ hp
    (by simpa [Transport.bytes, FrameBuf.new] using hm)
  have hend := Transport.recvFrame_empty h2
  rw [h3] at hend
  rw [Transport.bytes, List.append_eq_nil_iff] at h2
  exact ⟨t, h1, h2.1, h2.2, hend⟩

/-- Two frames in four messages: the cuts fall inside a length and inside a payload, and
    one message is empty. -/
theorem recvN_frames_two :
    ∃ t : Transport, Transport.recvN 2 ⟨.new, [[0, 0], [0, 1, 7, 0, 0, 0, 2, 8], [], [9]], true⟩ =
        ([.ok [7], .ok [8, 9]], t) ∧
      t.frameBuf.buf = [] ∧ t.receiver.flatten = [] ∧
      t.recvFrame.2 = if true then some (.error "connection closed") else none := by
  have hp : ∀ p ∈ ([[7], [8, 9]] : List Bytes), IsFrame p := by
    simp [IsFrame, maxFrameSize, maxWireMessageSize]
  exact recvN_frames hp (by decide) true

/-! ## Arbitrary streams -/

/-- The result of a call is a function of the bytes and of the close. -/
theorem Transport.recvFrame_congr {t t' : Transport} (hb : t.bytes = t'.bytes)
    (hc : t.closed = t'.closed) : t.recvFrame.2 = t'.recvFrame.2 ∧
      t.recvFrame.1.bytes = t'.recvFrame.1.bytes ∧ t.recvFrame.1.closed = t'.recvFrame.1.closed := by
  have h := FrameBuf.recv_eq t.receiver t.frameBuf
  have h' := FrameBuf.recv_eq t'.receiver t'.frameBuf
  rw [show t.frameBuf.buf ++ t.receiver.flatten = t'.frameBuf.buf ++ t'.receiver.flatten from hb] at h
  obtain ⟨hbuf, hr⟩ := Prod.mk.inj (h.symm.trans h')
  have hres : (t.frameBuf.recv t.receiver).2.2 = (t'.frameBuf.recv t'.receiver).2.2 := by
    revert hr
    generalize (t.frameBuf.recv t.receiver).2.2 = o
    generalize (t'.frameBuf.recv t'.receiver).2.2 = o'
    rcases o with - | - | - <;> rcases o' with - | - | - <;> simp [pushResult]
  rw [Transport.recvFrame_eq, Transport.recvFrame_eq t', hres, hc]
  exact ⟨rfl, FrameBuf.mk.inj hbuf, rfl⟩

/-- So are the results of any number of calls. -/
theorem Transport.recvN_congr : ∀ (n : ℕ) {t t' : Transport}, t.bytes = t'.bytes →
    t.closed = t'.closed → (t.recvN n).1 = (t'.recvN n).1
  | 0, _, _, _, _ => rfl
  | n + 1, t, t', hb, hc => by
    obtain ⟨hr, hb', hc'⟩ := Transport.recvFrame_congr hb hc
    rw [Transport.recvN, Transport.recvN]
    rcases h : t.recvFrame with ⟨t₁, o⟩
    rcases h' : t'.recvFrame with ⟨t₁', o'⟩
    rw [h, h'] at hr hb' hc'
    cases hr
    cases o with
    | none => rfl
    | some r => exact congrArg (r :: ·) (Transport.recvN_congr n hb' hc')

/-- A rejected length is final: the call consumes nothing. -/
theorem Transport.recvFrame_outOfRange {t : Transport} {len : ℕ} (h : t.frameBuf.OutOfRange len) :
    t.recvFrame = (t, some (.error (outOfRange len))) := by
  have hp : t.frameBuf.push [] = (t.frameBuf, pushResult (some (.error (outOfRange len)))) := by
    have hrange : FrameBuf.OutOfRange ⟨t.frameBuf.buf ++ []⟩ len := by simpa using h
    rw [FrameBuf.push_outOfRange hrange]
    simp [pushResult]
  obtain ⟨frameBuf, receiver, closed⟩ := t
  cases receiver with
  | nil =>
    obtain ⟨hr, -⟩ := FrameBuf.recv_result [] [] hp
    simp [Transport.recvFrame, show frameBuf.recv [] = _ from hr]
  | cons raw rest =>
    obtain ⟨-, hr⟩ := FrameBuf.recv_result raw rest hp
    simp [Transport.recvFrame, show frameBuf.recv (raw :: rest) = _ from hr]

theorem Transport.recvN_outOfRange {t : Transport} {len : ℕ} (h : t.frameBuf.OutOfRange len) :
    ∀ n, t.recvN n = (List.replicate n (.error (outOfRange len)), t)
  | 0 => rfl
  | n + 1 => by
    simp [Transport.recvN, Transport.recvFrame_outOfRange h, Transport.recvN_outOfRange h n,
      List.replicate_succ]

theorem FrameBuf.push_error {b b' : FrameBuf} {data : Bytes} {e : String}
    (h : b.push data = (b', .error e)) : ∃ len, e = outOfRange len ∧ b'.OutOfRange len := by
  rcases b.push_cases data with ⟨h', -⟩ | ⟨len, h', hr⟩ | ⟨payload, rest, h', -, -⟩
  · cases h.symm.trans h'
  · cases h.symm.trans h'
    exact ⟨len, rfl, hr⟩
  · cases h.symm.trans h'

/-! ## The steps of a call -/

/-- Where a call of `recv_frame` is. -/
inductive RecvPc
  /-- before the first call -/
  | idle
  /-- at the head of the loop -/
  | polling
  /-- at `receiver.next().await` -/
  | awaiting
  | returned (r : Except String Bytes)

inductive RecvAct
  | call
  | poll
  /-- a message, or the end of the channel -/
  | next (raw : Option Bytes)

/-- Where a call goes on after `push`. -/
def afterRecv (next : RecvPc) : Except String (Option Bytes) → RecvPc
  | .error e => .returned (.error e)
  | .ok (some frame) => .returned (.ok frame)
  | .ok none => next

/-- The steps of successive calls on one buffer. -/
inductive RecvStep : FrameBuf × RecvPc → RecvAct → FrameBuf × RecvPc → Prop
  | first {b} : RecvStep (b, .idle) .call (b, .polling)
  | again {b r} : RecvStep (b, .returned r) .call (b, .polling)
  | poll {b b' r} : b.push [] = (b', r) →
      RecvStep (b, .polling) .poll (b', afterRecv .awaiting r)
  | next {b raw b' r} : b.push raw = (b', r) →
      RecvStep (b, .awaiting) (.next (some raw)) (b', afterRecv .polling r)
  | closed {b} :
      RecvStep (b, .awaiting) (.next none) (b, .returned (.error "connection closed"))

def RecvAct.read : RecvAct → Option Bytes
  | .next raw => raw
  | _ => none

/-- The messages that were read. -/
def messagesRead (acts : List RecvAct) : List Bytes := acts.filterMap RecvAct.read

theorem messagesRead_append (as bs : List RecvAct) :
    messagesRead (as ++ bs) = messagesRead as ++ messagesRead bs := List.filterMap_append

/-- `recv` takes these steps. -/
theorem FrameBuf.recv_steps (msgs : List Bytes) : ∀ b : FrameBuf,
    ∃ acts, Lts.Run RecvStep (b, .polling) acts
        ((b.recv msgs).1, (b.recv msgs).2.2.elim .awaiting .returned) ∧
      messagesRead acts ++ (b.recv msgs).2.1 = msgs := by
  induction msgs with
  | nil =>
    intro b
    rcases b.push_more [] [] with h | ⟨b', r, h, -⟩
    · have hw : b.push [] = (b, .ok none) := by simpa using h
      refine ⟨[.poll], .cons (.poll hw) ?_, by simp [FrameBuf.recv, hw, messagesRead, RecvAct.read]⟩
      simpa [FrameBuf.recv, hw, afterRecv] using Lts.Run.start
    · obtain ⟨hr, -⟩ := FrameBuf.recv_result [] [] h
      refine ⟨[.poll], .cons (.poll h) ?_, by rw [hr]; rfl⟩
      rw [hr]
      cases r <;> exact .start
  | cons raw rest ih =>
    intro b
    rcases b.push_more [] [] with h | ⟨b', r, h, -⟩
    · have hw : b.push [] = (b, .ok none) := by simpa using h
      rcases b.push_more raw [] with h' | ⟨b', r, h', -⟩
      · obtain ⟨acts, hrun, hread⟩ := ih ⟨b.buf ++ raw⟩
        have hrec : b.recv (raw :: rest) = FrameBuf.recv ⟨b.buf ++ raw⟩ rest := by
          simp [FrameBuf.recv, hw, h']
        rw [hrec]
        exact ⟨.poll :: .next (some raw) :: acts, .cons (.poll hw) (.cons (.next h') hrun),
          congrArg (raw :: ·) hread⟩
      · rw [FrameBuf.recv_result_cons hw h']
        refine ⟨[.poll, .next (some raw)], .cons (.poll hw) (.cons (.next h') ?_), rfl⟩
        cases r <;> exact .start
    · obtain ⟨-, hr⟩ := FrameBuf.recv_result raw rest h
      refine ⟨[.poll], .cons (.poll h) ?_, by rw [hr]; rfl⟩
      rw [hr]
      cases r <;> exact .start

/-- While a call waits for a message, the buffer holds less than a frame. -/
structure RecvBound (L : ℕ) (s : FrameBuf × RecvPc) : Prop where
  size : s.1.buf.length ≤ maxFrameSize + 3 + L
  awaiting : s.2 = .awaiting → s.1.buf.length ≤ maxFrameSize + 3

/-- A `push` onto a buffer of bounded size. -/
theorem FrameBuf.push_length {b b' : FrameBuf} {data : Bytes} {r : Except String (Option Bytes)}
    (h : b.push data = (b', r)) : b'.buf.length ≤ b.buf.length + data.length ∧
      (r = .ok none → b'.buf.length ≤ maxFrameSize + 3) := by
  rcases b.push_cases data with ⟨h', hl⟩ | ⟨len, h', -⟩ | ⟨payload, rest, h', -, he⟩
  · cases h.symm.trans h'
    exact ⟨by simp, fun _ => hl⟩
  · cases h.symm.trans h'
    exact ⟨by simp, by simp⟩
  · cases h.symm.trans h'
    have hlen := congrArg List.length he
    simp at hlen
    exact ⟨by simp; omega, by simp⟩

theorem RecvBound.step {L : ℕ} {s s' : FrameBuf × RecvPc} {a : RecvAct} (h : RecvBound L s)
    (hs : RecvStep s a s') (hL : ∀ raw, a.read = some raw → raw.length ≤ L) : RecvBound L s' := by
  obtain ⟨hsize, hawait⟩ := h
  cases hs with
  | first => exact ⟨hsize, nofun⟩
  | again => exact ⟨hsize, nofun⟩
  | closed => exact ⟨hsize, nofun⟩
  | poll hp =>
    obtain ⟨h1, h2⟩ := FrameBuf.push_length hp
    simp at h1
    refine ⟨h1.trans hsize, fun hpc => h2 ?_⟩
    rename_i r
    rcases r with e | - | frame
    · cases hpc
    · rfl
    · cases hpc
  | next hp =>
    obtain ⟨h1, h2⟩ := FrameBuf.push_length hp
    have hb := hawait rfl
    have hraw := hL _ rfl
    refine ⟨?_, fun hpc => ?_⟩
    · simp at hb ⊢
      omega
    · rename_i r
      rcases r with e | - | frame <;> cases hpc

/-- In every state of every run the buffer is bounded. -/
theorem recvBound_run {L : ℕ} {acts : List RecvAct} {s : FrameBuf × RecvPc}
    (h : Lts.Run RecvStep (.new, .idle) acts s) (hL : ∀ raw ∈ messagesRead acts, raw.length ≤ L) :
    RecvBound L s := by
  revert hL
  refine h.inv (I := fun acts s => (∀ raw ∈ messagesRead acts, raw.length ≤ L) → RecvBound L s) ?_ ?_
  · intro _
    exact ⟨by simp [FrameBuf.new], nofun⟩
  · intro as t a u _ ih hs hL
    refine (ih fun raw hm => hL raw ?_).step hs fun raw hr => hL raw ?_
    · simp [messagesRead] at hm ⊢
      exact Or.inl hm
    · simp [messagesRead, hr]

/-- A call ends in a state of such a run: it returned, or it waits. -/
theorem Transport.recvFrame_steps (t : Transport) :
    ∃ acts, Lts.Run RecvStep (t.frameBuf, .polling) acts
        (t.recvFrame.1.frameBuf, t.recvFrame.2.elim .awaiting .returned) ∧
      messagesRead acts ++ t.recvFrame.1.receiver = t.receiver := by
  obtain ⟨acts, hrun, hread⟩ := FrameBuf.recv_steps t.receiver t.frameBuf
  rw [Transport.recvFrame_eq]
  rcases hb : t.frameBuf.recv t.receiver with ⟨b, msgs, o⟩
  rw [hb] at hrun hread
  rcases o with - | r
  · by_cases hc : t.closed = true
    · refine ⟨acts ++ [.next none], ?_, ?_⟩
      · simpa [hc] using hrun.snoc .closed
      · rw [messagesRead_append, List.append_assoc]
        exact hread
    · exact ⟨acts, by simpa [hc] using hrun, hread⟩
  · exact ⟨acts, hrun, hread⟩

/-- So do successive calls. -/
theorem Transport.recvN_steps : ∀ (n : ℕ) (t : Transport) {pc : RecvPc},
    (pc = .idle ∨ ∃ r, pc = .returned r) →
    ∃ acts pc', Lts.Run RecvStep (t.frameBuf, pc) acts ((t.recvN n).2.frameBuf, pc') ∧
      messagesRead acts ++ (t.recvN n).2.receiver = t.receiver
  | 0, t, pc, _ => ⟨[], pc, .start, rfl⟩
  | n + 1, t, pc, hpc => by
    obtain ⟨acts, hrun, hread⟩ := t.recvFrame_steps
    have hcall : RecvStep (t.frameBuf, pc) .call (t.frameBuf, .polling) := by
      rcases hpc with rfl | ⟨r, rfl⟩
      · exact .first
      · exact .again
    rw [Transport.recvN]
    rcases ht : t.recvFrame with ⟨t', o⟩
    rw [ht] at hrun hread
    cases o with
    | none => exact ⟨.call :: acts, .awaiting, hrun.cons hcall, hread⟩
    | some r =>
      have hret : RecvPc.returned r = .idle ∨ ∃ r', RecvPc.returned r = .returned r' := Or.inr ⟨r, rfl⟩
      obtain ⟨acts', pc', hrun', hread'⟩ := Transport.recvN_steps n t' hret
      refine ⟨.call :: (acts ++ acts'), pc', (hrun.append hrun').cons hcall, ?_⟩
      have hsplit : messagesRead (.call :: (acts ++ acts')) = messagesRead acts ++ messagesRead acts' :=
        messagesRead_append acts acts'
      rw [hsplit, List.append_assoc, hread', hread]

/-- An error is the end of the channel or a rejected length, which stays in the buffer. -/
theorem FrameBuf.recv_error (msgs : List Bytes) : ∀ (b : FrameBuf) (e : String),
    (b.recv msgs).2.2 = some (.error e) →
      ∃ len, e = outOfRange len ∧ (b.recv msgs).1.OutOfRange len := by
  induction msgs with
  | nil =>
    intro b e he
    rcases b.push_more [] [] with h | ⟨b', r, h, -⟩
    · have hw : b.push [] = (b, .ok none) := by simpa using h
      simp [FrameBuf.recv, hw] at he
    · obtain ⟨hr, -⟩ := FrameBuf.recv_result [] [] h
      rw [hr] at he ⊢
      cases he
      exact FrameBuf.push_error h
  | cons raw rest ih =>
    intro b e he
    rcases b.push_more [] [] with h | ⟨b', r, h, -⟩
    · have hw : b.push [] = (b, .ok none) := by simpa using h
      rcases b.push_more raw [] with h' | ⟨b', r, h', -⟩
      · have hrec : b.recv (raw :: rest) = FrameBuf.recv ⟨b.buf ++ raw⟩ rest := by
          simp [FrameBuf.recv, hw, h']
        rw [hrec] at he ⊢
        exact ih _ e he
      · rw [FrameBuf.recv_result_cons hw h'] at he ⊢
        cases he
        exact FrameBuf.push_error h'
    · obtain ⟨-, hr⟩ := FrameBuf.recv_result raw rest h
      rw [hr] at he ⊢
      cases he
      exact FrameBuf.push_error h

/-- **Malformed streams**: the results are a function of the bytes and of the close; an
    error is the end of the channel or a rejected length; a rejected length is final and
    nothing is consumed after it; and the buffer is bounded by the frame size and the
    longest message. -/
theorem recv_malformed :
    (∀ t t' : Transport, t.bytes = t'.bytes → t.closed = t'.closed →
      ∀ n, (t.recvN n).1 = (t'.recvN n).1) ∧
    (∀ (t t' : Transport) e, t.recvFrame = (t', some (.error e)) →
      t.closed = true ∧ e = "connection closed" ∨
        ∃ len, e = outOfRange len ∧ t'.frameBuf.OutOfRange len) ∧
    (∀ (t : Transport) len, t.frameBuf.OutOfRange len →
      ∀ n, t.recvN n = (List.replicate n (.error (outOfRange len)), t)) ∧
    ∀ acts b pc L, Lts.Run RecvStep (.new, .idle) acts (b, pc) →
      (∀ raw ∈ messagesRead acts, raw.length ≤ L) →
      b.buf.length ≤ maxFrameSize + 3 + L ∧ (pc = .awaiting → b.buf.length ≤ maxFrameSize + 3) := by
  refine ⟨?_, ?_, ?_, ?_⟩
  · intro t t' hb hc n
    exact Transport.recvN_congr n hb hc
  · intro t t' e h
    rw [Transport.recvFrame_eq] at h
    obtain ⟨rfl, h⟩ := Prod.mk.inj h
    rcases ho : (t.frameBuf.recv t.receiver).2.2 with - | r
    · rw [ho] at h
      by_cases hc : t.closed = true
      · simp [hc] at h
        exact Or.inl ⟨hc, h.symm⟩
      · simp [hc] at h
    · rw [ho] at h
      cases h
      exact Or.inr (FrameBuf.recv_error _ _ e ho)
  · intro t len h n
    exact Transport.recvN_outOfRange h n
  · intro acts b pc L h hL
    have hb := recvBound_run h hL
    exact ⟨hb.size, hb.awaiting⟩

/-- A stream that starts with the length `0`, in two ways: the message after it is not
    read. -/
theorem recv_malformed_zero :
    (Transport.recvN 2 ⟨.new, [[0, 0, 0, 0], [1]], true⟩).1 =
      (Transport.recvN 2 ⟨.new, [[0], [0, 0, 0, 1]], true⟩).1 ∧
    Transport.recvN 2 ⟨⟨[0, 0, 0, 0]⟩, [[1]], true⟩ =
      (List.replicate 2 (.error (outOfRange 0)), ⟨⟨[0, 0, 0, 0]⟩, [[1]], true⟩) := by
  obtain ⟨h1, -, h3, -⟩ := recv_malformed
  refine ⟨h1 _ _ ?_ rfl 2, h3 _ 0 ⟨?_, ?_, ?_⟩ 2⟩
  · simp [Transport.bytes]
  · simp
  · rfl
  · exact Or.inl rfl

end AntClient
