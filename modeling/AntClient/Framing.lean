/-
  `DataChannel` framing (`framing.rs`) and the receiving loop of the transport
  (`Transport::recv_frame` in `webrtc.rs`).

  A frame is a 4-byte big-endian length and the payload, cut into messages.  The
  reassembly buffer keeps what is left after a frame; `FrameBuf.recv` is the loop
  over the messages that have arrived.
-/
import AntClient.Protocol

namespace AntClient

open Bytes

/-- Maximum size of a single `DataChannel` message we send. -/
def maxDcMessageSize : ℕ := 16 * 1024

/-- Maximum size of one reassembled frame. -/
def maxFrameSize : ℕ := maxWireMessageSize + 64

/-- Encode one frame. -/
def encodeFrame (payload : Bytes) : Bytes := toBe 4 payload.length ++ payload

/-- `slice::chunks`: pieces of `n` bytes and a shorter last one. -/
def chunks (n : ℕ) (wire : Bytes) : List Bytes :=
  if wire = [] ∨ n = 0 then [] else wire.take n :: chunks n (wire.drop n)
termination_by wire.length
decreasing_by
  rename_i h
  have := List.length_pos_of_ne_nil fun hw => h (Or.inl hw)
  have := Nat.pos_of_ne_zero fun hn => h (Or.inr hn)
  rw [List.length_drop]
  omega

/-- Split an encoded frame into `DataChannel`-sized messages. -/
def splitMessages (wire : Bytes) : List Bytes := chunks maxDcMessageSize wire

/-- Reassembly buffer for incoming messages. -/
structure FrameBuf where
  buf : Bytes

/-- Create an empty buffer. -/
def FrameBuf.new : FrameBuf := ⟨[]⟩

/-- Append bytes; return the next complete frame if one finished.  A rejected
    length leaves the bytes in the buffer. -/
def FrameBuf.push (self : FrameBuf) (data : Bytes) : FrameBuf × Except String (Option Bytes) :=
  let buf := self.buf ++ data
  if buf.length < 4 then (⟨buf⟩, .ok none)
  else
    let len := beNat (buf.take 4)
    if len = 0 ∨ len > maxFrameSize then
      (⟨buf⟩, .error s!"declared frame length {len} out of range")
    else if buf.length < 4 + len then (⟨buf⟩, .ok none)
    else (⟨buf.drop (4 + len)⟩, .ok (some ((buf.drop 4).take len)))

/-- The loop of `recv_frame`: the buffer and the messages it leaves, and its
    result, `none` while it waits for a message. -/
def FrameBuf.recv (self : FrameBuf) :
    List Bytes → FrameBuf × List Bytes × Option (Except String Bytes)
  | [] =>
    match self.push [] with
    | (self, .error e) => (self, [], some (.error e))
    | (self, .ok (some frame)) => (self, [], some (.ok frame))
    | (self, .ok none) => (self, [], none)
  | raw :: rest =>
    match self.push [] with
    | (self, .error e) => (self, raw :: rest, some (.error e))
    | (self, .ok (some frame)) => (self, raw :: rest, some (.ok frame))
    | (self, .ok none) =>
      match self.push raw with
      | (self, .error e) => (self, rest, some (.error e))
      | (self, .ok (some frame)) => (self, rest, some (.ok frame))
      | (self, .ok none) => self.recv rest

/-! ## Sending -/

@[simp] theorem length_encodeFrame (payload : Bytes) :
    (encodeFrame payload).length = 4 + payload.length := by simp [encodeFrame]

theorem flatten_chunks {n : ℕ} (hn : n ≠ 0) (wire : Bytes) : (chunks n wire).flatten = wire := by
  induction wire using chunks.induct (n := n) with
  | case1 wire h =>
    rw [chunks, if_pos h]
    exact (h.resolve_right hn).symm
  | case2 wire h ih =>
    rw [chunks, if_neg h, List.flatten_cons, ih, List.take_append_drop]

theorem chunks_append {n : ℕ} {a rest : Bytes} (hn : n ≠ 0) (ha : a.length = n) :
    chunks n (a ++ rest) = a :: chunks n rest := by
  have hne : ¬ (a ++ rest = [] ∨ n = 0) := by
    rintro (h | h)
    · obtain ⟨rfl, -⟩ := List.append_eq_nil_iff.1 h
      exact hn ha.symm
    · exact hn h
  rw [chunks, if_neg hne, List.take_left' ha, List.drop_left' ha]

theorem chunks_short {n : ℕ} {wire : Bytes} (hpos : 0 < wire.length) (hn : wire.length ≤ n) :
    chunks n wire = [wire] := by
  have hne : ¬(wire = [] ∨ n = 0) := by
    rintro (rfl | rfl)
    · cases hpos
    · omega
  rw [chunks, if_neg hne, List.take_of_length_le hn, List.drop_eq_nil_of_le hn, chunks,
    if_pos (Or.inl rfl)]

theorem flatten_splitMessages (wire : Bytes) : (splitMessages wire).flatten = wire :=
  flatten_chunks (by decide) wire

/-! ## Receiving -/

/-- A payload that the receiving side accepts as one frame. -/
def IsFrame (payload : Bytes) : Prop := 0 < payload.length ∧ payload.length ≤ maxFrameSize

/-- The length prefix of a frame. -/
theorem declared_length {payload : Bytes} (h : IsFrame payload) (rest : Bytes) :
    beNat ((encodeFrame payload ++ rest).take 4) = payload.length := by
  have hl : payload.length < 256 ^ 4 := by
    have := h.2
    rw [maxFrameSize, maxWireMessageSize] at this
    omega
  rw [encodeFrame, List.append_assoc, List.take_left' (length_toBe 4 _), beNat_toBe_of_lt hl]

/-- A buffer that holds a frame yields it and keeps what follows. -/
theorem FrameBuf.push_frame {buf data payload rest : Bytes} (h : IsFrame payload)
    (he : buf ++ data = encodeFrame payload ++ rest) :
    FrameBuf.push ⟨buf⟩ data = (⟨rest⟩, .ok (some payload)) := by
  have hd := declared_length h rest
  have hd4 : (encodeFrame payload ++ rest).drop 4 = payload ++ rest := by
    rw [encodeFrame, List.append_assoc, List.drop_left' (length_toBe 4 _)]
  have h1 := h.1
  have h2 := h.2
  simp only [FrameBuf.push, he, hd, ← List.drop_drop, hd4, List.length_append,
    length_encodeFrame]
  rw [if_neg (by omega), if_neg (by omega), if_neg (by omega), List.take_left, List.drop_left]

/-- A buffer that holds less than a frame waits. -/
theorem FrameBuf.push_short {buf data more payload rest : Bytes} (h : IsFrame payload)
    (he : buf ++ data ++ more = encodeFrame payload ++ rest)
    (hs : (buf ++ data).length < 4 + payload.length) :
    FrameBuf.push ⟨buf⟩ data = (⟨buf ++ data⟩, .ok none) := by
  have h1 := h.1
  have h2 := h.2
  by_cases h4 : (buf ++ data).length < 4
  · simp only [FrameBuf.push, if_pos h4]
  · have ht : (buf ++ data ++ more).take 4 = (buf ++ data).take 4 :=
      List.take_append_of_le_length (by omega)
    have hd : beNat ((buf ++ data).take 4) = payload.length := by
      rw [← declared_length h rest, ← he, ht]
    simp only [FrameBuf.push, hd]
    rw [if_neg h4, if_neg (by omega), if_pos hs]

/-- **Reassembly**: from a buffer that holds a part of a frame, the messages that
    bring the rest yield exactly this frame, however they are cut; what follows
    the frame is still there. -/
theorem FrameBuf.recv_frame {payload rest : Bytes} (h : IsFrame payload) :
    ∀ {msgs : List Bytes} {buf : Bytes}, buf ++ msgs.flatten = encodeFrame payload ++ rest →
      ∃ buf' msgs', FrameBuf.recv ⟨buf⟩ msgs = (⟨buf'⟩, msgs', some (.ok payload)) ∧
        buf' ++ msgs'.flatten = rest
  | [], buf, he => by
    have he' : buf ++ [] = encodeFrame payload ++ rest := by simpa using he
    have hp := FrameBuf.push_frame h he'
    exact ⟨rest, [], by simp only [FrameBuf.recv, hp], by simp⟩
  | raw :: msgs, buf, he => by
    by_cases hb : buf.length < 4 + payload.length
    · have he' : buf ++ [] ++ (raw ++ msgs.flatten) = encodeFrame payload ++ rest := by
        simpa using he
      have hp := FrameBuf.push_short h he' (by simpa using hb)
      rw [List.append_nil] at hp
      have he'' : buf ++ raw ++ msgs.flatten = encodeFrame payload ++ rest := by simpa using he
      by_cases hr : (buf ++ raw).length < 4 + payload.length
      · have hq := FrameBuf.push_short h he'' hr
        obtain ⟨buf', msgs', h1, h2⟩ := FrameBuf.recv_frame h he''
        exact ⟨buf', msgs', by simp only [FrameBuf.recv, hp, hq, h1], h2⟩
      · obtain ⟨tail, ht⟩ : ∃ tail, buf ++ raw = encodeFrame payload ++ tail := by
          have hpre : encodeFrame payload <+: buf ++ raw :=
            List.prefix_of_prefix_length_le ⟨rest, he.symm⟩ ⟨msgs.flatten, by simp⟩
              (by rw [length_encodeFrame]; omega)
          exact ⟨_, hpre.choose_spec.symm⟩
        refine ⟨tail, msgs, by simp only [FrameBuf.recv, hp, FrameBuf.push_frame h ht], ?_⟩
        rw [ht, List.append_assoc] at he''
        exact List.append_cancel_left he''
    · obtain ⟨tail, ht⟩ : ∃ tail, buf = encodeFrame payload ++ tail := by
        have hpre : encodeFrame payload <+: buf :=
          List.prefix_of_prefix_length_le ⟨rest, he.symm⟩ ⟨_, rfl⟩
            (by rw [length_encodeFrame]; omega)
        exact ⟨_, hpre.choose_spec.symm⟩
      have ht' : buf ++ [] = encodeFrame payload ++ tail := by rw [List.append_nil, ht]
      have hp := FrameBuf.push_frame h ht'
      refine ⟨tail, raw :: msgs, by simp only [FrameBuf.recv, hp], ?_⟩
      rw [ht, List.append_assoc] at he
      exact List.append_cancel_left he

end AntClient
