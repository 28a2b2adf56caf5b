/-
  One honest peer suffices: `get_direct` (`lib.rs`) over peers that behave in any way.

  An attempt at a peer ends without a connection, or with the result of the GET's round
  trip.  `GetRun` are the attempts of one call, in order; `Serves` is what a peer must
  answer for its chunk to be returned.

  * `getFrom_run`: the peer loop makes these attempts, up to the first peer that serves
    the chunk.
  * `getDirect_oneHonest`: it succeeds if and only if some listed peer does so.
-/
import AntClient.Honest
import AntClient.Store

namespace AntClient

open Async Prog

variable (C : Crates)

/-! ## Behaviours -/

/-- What became of the attempt at a peer. -/
inductive Behaviour
  /-- no connection -/
  | refused (e : String)
  /-- the result of the round trip of the GET: a response, or a failed session -/
  | answered (answer : Except String Bytes)

/-- The peer answers with a success that echoes the address and carries `content`, which
    hashes to it. -/
inductive Behaviour.Serves (address : XorName) (content : Bytes) : Behaviour → Prop
  | intro {plaintext id} : ChunkMessage.decode C plaintext =
      .ok ⟨id, .getResponse (.success address content)⟩ → C.blake3 content = address →
      Serves address content (.answered (.ok plaintext))

/-- A peer that makes `get_direct` succeed. -/
def Behaviour.Good (address : XorName) (b : Behaviour) : Prop := ∃ content, b.Serves C address content

/-- The result of `get_verified` once the peer has answered. -/
def getResult (address : XorName) (answer : Except String Bytes) : Except String Bytes := do
  let plaintext ← answer
  let response ← ChunkMessage.decode C plaintext
  checkContent C address response.body

theorem getVerified_eq {σ : Type} (conn : NodeConnection) (address : XorName) :
    (conn.getVerified C address : Prog Net σ _) =
      .call (.nextSeq conn) fun seq =>
      .call (.roundTrip conn protoChunk (ChunkMessage.put ⟨seq.toUInt64, .getRequest ⟨address⟩⟩))
        fun answer => .ret (getResult C address answer) := by
  refine congrArg (Prog.call _) (funext fun seq => congrArg (Prog.call _) (funext fun answer => ?_))
  cases answer with
  | error e => rfl
  | ok plaintext => exact ret_bindE_ret _ _

/-- The checks of `get_verified` accept exactly what a peer must answer. -/
theorem getResult_ok {address : XorName} {answer : Except String Bytes} {content : Bytes} :
    getResult C address answer = .ok content ↔
      (Behaviour.answered answer).Serves C address content := by
  constructor
  · intro h
    simp only [getResult, bind_eq_ok] at h
    obtain ⟨plaintext, rfl, ⟨id, body⟩, hd, h⟩ := h
    obtain ⟨hb, hh⟩ := checkContent_ok C h
    dsimp only at hb
    exact .intro (hb ▸ hd) hh
  · intro h
    cases h with
    | intro hd hh =>
      show (ChunkMessage.decode C _ >>= _) = _
      rw [hd]
      show checkContent C address (.getResponse (.success address content)) = _
      simp [checkContent, hh]

/-! ## The attempts -/

/-- The attempt at `peer` behaves as `b`, with the events `tr`. -/
inductive Attempt (address : XorName) (peer : PeerConnectInfo) : Behaviour → List (Ev Net) → Prop
  | refused {s tr e s'} : Run (Any Cells) (connectionFor C peer) s tr (some (.error e)) s' →
      Attempt address peer (.refused e) tr
  | answered {s tr conn s' seq answer} :
      Run (Any Cells) (connectionFor C peer) s tr (some (.ok conn)) s' →
      Attempt address peer (.answered answer) (tr ++ [⟨.nextSeq conn, seq⟩,
        ⟨.roundTrip conn protoChunk (ChunkMessage.put ⟨UInt32.toUInt64 seq, .getRequest ⟨address⟩⟩),
          answer⟩])

/-- The attempts at the peers of a list, in order, up to the first that serves the chunk:
    how they behaved, their events, and the result. -/
inductive GetRun (address : XorName) :
    List PeerConnectInfo → List Behaviour → List (Ev Net) → Except String Bytes → Prop
  | nil {e} : GetRun address [] [] [] (.error e)
  | served {peer peers b tr content} : Attempt C address peer b tr → b.Serves C address content →
      GetRun address (peer :: peers) [b] tr (.ok content)
  | next {peer peers b bs tr tr' r} : Attempt C address peer b tr → ¬ b.Good C address →
      GetRun address peers bs tr' r → GetRun address (peer :: peers) (b :: bs) (tr ++ tr') r

/-- **The peer loop** makes the attempts. -/
theorem getFrom_run {address : XorName} {peers : List PeerConnectInfo} :
    ∀ (lastErr : String) {s s' : Cells} {tr : List (Ev Net)} {r : Except String Bytes},
      Run (Any Cells) (getFrom C address peers lastErr) s tr (some r) s' →
        ∃ bs, GetRun C address peers bs tr r := by
  induction peers with
  | nil =>
    intro lastErr s s' tr r h
    obtain ⟨rfl, rfl, -⟩ := Run.ret_some h
    exact ⟨[], .nil⟩
  | cons peer peers ih =>
    intro lastErr s s' tr r h
    obtain ⟨conn, tr₁, s₁, tr₂, rfl, h₁, h₂⟩ := Run.bind_some.1 h
    cases conn with
    | error e =>
      obtain ⟨bs, hbs⟩ := ih e h₂
      refine ⟨.refused e :: bs, .next (.refused h₁) ?_ hbs⟩
      rintro ⟨c, hc⟩
      cases hc
    | ok conn =>
      obtain ⟨result, tr₃, s₂, tr₄, rfl, h₃, h₄⟩ := Run.bind_some.1 h₂
      rw [getVerified_eq] at h₃
      obtain ⟨seq, s₃, tr₅, -, rfl, h₅⟩ := Run.call_some.1 h₃
      obtain ⟨answer, s₄, tr₆, -, rfl, h₆⟩ := Run.call_some.1 h₅
      obtain ⟨rfl, rfl, -⟩ := Run.ret_some h₆
      have hat : Attempt C address peer (.answered answer) (tr₁ ++ [⟨.nextSeq conn, seq⟩, _]) :=
        .answered h₁
      cases hr : getResult C address answer with
      | ok content =>
        rw [hr] at h₄
        obtain ⟨rfl, rfl, -⟩ := Run.ret_some h₄
        rw [List.append_nil]
        exact ⟨[.answered answer], .served hat ((getResult_ok C).1 hr)⟩
      | error e =>
        rw [hr] at h₄
        obtain ⟨bs, hbs⟩ := ih e h₄
        rw [← List.append_assoc]
        refine ⟨.answered answer :: bs, .next hat ?_ hbs⟩
        rintro ⟨c, hc⟩
        rw [← getResult_ok, hr] at hc
        cases hc

variable {C}

/-- What the attempts say of an assignment of behaviours to all peers of the list. -/
theorem GetRun.spec {address : XorName} {peers : List PeerConnectInfo} {bs : List Behaviour}
    {tr : List (Ev Net)} {r : Except String Bytes} (h : GetRun C address peers bs tr r) :
    ∀ {β : List Behaviour}, β.length = peers.length → bs <+: β →
      (∀ content, r = .ok content → C.blake3 content = address) ∧
      ((∃ content, r = .ok content) ↔ ∃ b ∈ β, b.Good C address) ∧
      ∀ i b, β[i]? = some b → b.Good C address → bs.length ≤ i + 1 := by
  induction h with
  | nil =>
    intro β hl _
    obtain rfl : β = [] := List.length_eq_zero_iff.1 hl
    refine ⟨?_, ?_, ?_⟩
    · simp
    · simp
    · simp
  | @served peer peers b tr content _ hb =>
    intro β _ hβ
    obtain ⟨post, rfl⟩ := hβ
    refine ⟨?_, ?_, ?_⟩
    · intro c hc
      cases hc
      cases hb
      assumption
    · constructor
      · intro _
        exact ⟨b, by simp, content, hb⟩
      · intro _
        exact ⟨content, rfl⟩
    · intro i b' _ _
      simp
  | @next peer peers b bs tr tr' r _ hb _ ih =>
    intro β hl hβ
    obtain ⟨post, rfl⟩ := hβ
    have hl' : (bs ++ post).length = peers.length := by simpa using hl
    obtain ⟨h1, h2, h3⟩ := ih hl' ⟨post, rfl⟩
    refine ⟨h1, ?_, ?_⟩
    · rw [h2]
      constructor
      · rintro ⟨b', hm, hg⟩
        exact ⟨b', List.mem_cons_of_mem _ hm, hg⟩
      · rintro ⟨b', hm, hg⟩
        rcases List.mem_cons.1 hm with rfl | hm
        · exact absurd hg hb
        · exact ⟨b', hm, hg⟩
    · intro i b' hi hg
      cases i with
      | zero =>
        simp at hi
        subst hi
        exact absurd hg hb
      | succ i =>
        have := h3 i b' (by simpa using hi) hg
        simp
        omega

/-! ## The fetch -/

theorem getDirect_run {self : WasmClient} {address : XorName} {I : Cells → Cells → Prop}
    {s s' : Cells} {tr : List (Ev Net)} {r : Except String Bytes}
    (h : Run I (self.getDirect C address) s tr (some r) s') :
    ∃ seq answer tr', tr = ⟨.nextSeq self.bootstrap, seq⟩ ::
        ⟨.roundTrip self.bootstrap protoDiscovery
          (DiscoveryMessage.put ⟨UInt32.toUInt64 seq, .closestPeersRequest ⟨address⟩⟩), answer⟩ :: tr' ∧
      ∀ peers, peersResult C answer = .ok peers → ∃ bs, GetRun C address peers bs tr' r := by
  have h₁ := h.any
  unfold WasmClient.getDirect at h₁
  rw [closestPeers_eq, call_bindE] at h₁
  obtain ⟨seq, s₁, tr₁, -, rfl, h₂⟩ := Run.call_some.1 h₁
  simp only [call_bindE] at h₂
  obtain ⟨answer, s₂, tr₂, -, rfl, h₃⟩ := Run.call_some.1 h₂
  refine ⟨seq, answer, tr₂, rfl, fun peers hp => ?_⟩
  rw [hp, ret_ok_bindE] at h₃
  cases peers with
  | nil =>
    obtain ⟨rfl, rfl, -⟩ := Run.ret_some h₃
    exact ⟨[], .nil⟩
  | cons peer peers => exact getFrom_run C "" h₃

/-- **One honest peer suffices**: for every peer list that discovery returned and every
    assignment of behaviours to its peers that the attempts of the call follow, the call
    returns content that hashes to the address if some listed peer serves it, and an error
    if the list is empty or none does; no peer after the first one that does is
    contacted. -/
theorem getDirect_oneHonest {self : WasmClient} {address : XorName} {I : Cells → Cells → Prop}
    {s s' : Cells} {tr : List (Ev Net)} {r : Except String Bytes}
    (h : Run I (self.getDirect C address) s tr (some r) s') :
    ∃ seq answer tr', tr = ⟨.nextSeq self.bootstrap, seq⟩ ::
        ⟨.roundTrip self.bootstrap protoDiscovery
          (DiscoveryMessage.put ⟨UInt32.toUInt64 seq, .closestPeersRequest ⟨address⟩⟩), answer⟩ :: tr' ∧
      ∀ peers, peersResult C answer = .ok peers →
        ∃ bs, GetRun C address peers bs tr' r ∧
          ∀ β : List Behaviour, β.length = peers.length → bs <+: β →
            ((∃ b ∈ β, b.Good C address) → ∃ content, r = .ok content ∧ C.blake3 content = address) ∧
            ((∃ e, r = .error e) ↔ peers = [] ∨ ∀ b ∈ β, ¬ b.Good C address) ∧
            ∀ i b, β[i]? = some b → b.Good C address → bs.length ≤ i + 1 := by
  obtain ⟨seq, answer, tr', rfl, hrun⟩ := getDirect_run h
  refine ⟨seq, answer, tr', rfl, fun peers hp => ?_⟩
  obtain ⟨bs, hbs⟩ := hrun peers hp
  refine ⟨bs, hbs, fun β hl hβ => ?_⟩
  obtain ⟨h1, h2, h3⟩ := hbs.spec hl hβ
  refine ⟨?_, ?_, h3⟩
  · intro hg
    obtain ⟨content, hr⟩ := h2.2 hg
    exact ⟨content, hr, h1 content hr⟩
  · constructor
    · rintro ⟨e, rfl⟩
      refine Or.inr fun b hb hg => ?_
      obtain ⟨content, hc⟩ := h2.2 ⟨b, hb, hg⟩
      cases hc
    · intro hn
      cases r with
      | error e => exact ⟨e, rfl⟩
      | ok content =>
        obtain ⟨b, hb, hg⟩ := h2.1 ⟨content, rfl⟩
        rcases hn with rfl | hn
        · obtain rfl : β = [] := List.length_eq_zero_iff.1 hl
          cases hb
        · exact absurd hg (hn b hb)

/-- A network that lists an impostor before the node: the attempts at both, and the
    chunk. -/
theorem getDirect_oneHonest_honest :
    ∃ tr r s' tr' bs, Run (Any Cells) (honestClient.getDirect .transparent (zeros 32)) .empty tr
        (some r) s' ∧
      GetRun .transparent (zeros 32) [⟨first32 [1], "", 0, zeros 32⟩, honestPeer] bs tr' r ∧
      ∀ β : List Behaviour, β.length = 2 → bs <+: β →
        (∃ b ∈ β, b.Good .transparent (zeros 32)) →
          ∃ content, r = .ok content ∧ first32 content = zeros 32 := by
  have hpeers : (DiscoveryMessage.put ⟨1, .closestPeersResponse
      ⟨[⟨first32 [1], "", 0, zeros 32⟩, honestPeer]⟩⟩).length < 2 ^ 32 :=
    length_peers_lt (by decide) (by simp)
  have hsafe : (honestClient.getDirect .transparent (zeros 32)).Safe (.answers (Honest
      [⟨first32 [1], "", 0, zeros 32⟩, honestPeer] (serving fun a => a.1)))
      fun r => r = .ok (zeros 32).1 :=
    getDirect_honest hpeers (by simp) (first32_val _) (by simp) rfl
  obtain ⟨tr, r, s', hr, hE, -⟩ := hsafe.exists_run (Honest.total _ _) .empty
  obtain ⟨seq, answer, tr', rfl, hall⟩ := getDirect_oneHonest hr
  have hanswer : answer = honest _ _ _ := hE ⟨_, answer⟩ (by simp)
  have hres : peersResult .transparent answer =
      .ok [⟨first32 [1], "", 0, zeros 32⟩, honestPeer] := by
    rw [hanswer]
    exact peersResult_put hpeers
  obtain ⟨bs, hbs, hβ⟩ := hall _ hres
  refine ⟨_, r, s', tr', bs, hr, hbs, fun β hl hp hg => ?_⟩
  exact (hβ β hl hp).1 hg

end AntClient
