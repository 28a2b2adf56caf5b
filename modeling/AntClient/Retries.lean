/-
  The PUT attempts of `store_one`.

  * `putPeers_log`: a complete PUT phase is given by the peers and the answers to the
    attempts at each.
  * `rejection_final_iff`: when a rejection is the last a peer hears of the chunk.
  * `broken_session_iff`: a peer whose session broke is not counted, as the attempts never
    open another one.
-/
import AntClient.Honest
import AntClient.StoreRun

namespace AntClient

open Async Prog

variable (C : Crates)

/-! ## Answers -/

/-- `PaymentRequired` or a protocol error. -/
def Rejects (answer : Except String Bytes) : Prop :=
  ∃ plaintext requestId r, answer = .ok plaintext ∧
    ChunkMessage.decode C plaintext = .ok ⟨requestId, .putResponse r⟩ ∧
    ((∃ message, r = .paymentRequired message) ∨ ∃ e, r = .error e)

/-- The answers to the last `n` attempts at a peer. -/
inductive Attempts : ℕ → List (Except String Bytes) → Prop
  | nil : Attempts 0 []
  | accepted {n answer} : putResult C answer = .ok true → Attempts (n + 1) [answer]
  | failed {n answer e answers} : putResult C answer = .error e → Attempts n answers →
      Attempts (n + 1) (answer :: answers)

/-- One of the answers accepts the chunk. -/
def accepts (answers : List (Except String Bytes)) : Bool :=
  answers.any fun answer => putResult C answer = .ok true

section
variable {C} {n : ℕ} {answer : Except String Bytes} {answers : List (Except String Bytes)}

theorem accepts_cons_ok (h : putResult C answer = .ok true) :
    accepts C (answer :: answers) = true := by
  rw [accepts, List.any_cons, h]
  rfl

theorem accepts_cons_error {e : String} (h : putResult C answer = .error e) :
    accepts C (answer :: answers) = accepts C answers := by
  rw [accepts, List.any_cons, h]
  rfl

theorem putResult_decode {plaintext : Bytes} {response : ChunkMessage}
    (h : ChunkMessage.decode C plaintext = .ok response) :
    putResult C (.ok plaintext) = putOfResponse response := by
  show (ChunkMessage.decode C plaintext >>= putOfResponse) = _
  rw [h]
  rfl

/-- A rejection is an error like any other. -/
theorem Rejects.fails (h : Rejects C answer) : ∃ e, putResult C answer = .error e := by
  obtain ⟨plaintext, requestId, r, rfl, hd, hr⟩ := h
  rw [putResult_decode hd]
  rcases hr with ⟨message, rfl⟩ | ⟨e, rfl⟩
  · exact ⟨_, rfl⟩
  · exact ⟨_, rfl⟩

theorem Attempts.ne_nil (h : Attempts C n answers) (hn : 0 < n) : answers ≠ [] := by
  cases h with
  | nil => omega
  | accepted => simp
  | failed => simp

/-- Only transport failures are tried again just if nothing else comes before the last
    attempt. -/
theorem Attempts.dropLast_iff (h : Attempts C n answers) :
    (∀ a ∈ answers.dropLast, ∃ e, a = .error e) ↔
      ∀ a ∈ answers.take (n - 1), putResult C a = .ok true ∨ ∃ e, a = .error e := by
  induction h with
  | nil => simp
  | @accepted n answer haccepted =>
    constructor
    · intro _ a ha
      obtain rfl := List.mem_singleton.1 (List.mem_of_mem_take ha)
      exact Or.inl haccepted
    · simp
  | @failed n answer e answers hfail h ih =>
    cases n with
    | zero =>
      cases h
      simp
    | succ n =>
      rw [List.dropLast_cons_of_ne_nil (h.ne_nil (by omega)), Nat.add_sub_cancel,
        List.take_succ_cons, List.forall_mem_cons, List.forall_mem_cons, ih, Nat.add_sub_cancel,
        hfail]
      simp

/-- An answer before the last one is no rejection, if it is a transport failure. -/
theorem pairwise_not_rejects (h : ∀ a ∈ answers.dropLast, ∃ e, a = .error e) :
    answers.Pairwise fun a _ => ¬ Rejects C a := by
  induction answers with
  | nil => exact .nil
  | cons answer answers ih =>
    cases answers with
    | nil => exact List.pairwise_singleton _ _
    | cons next answers =>
      rw [List.dropLast_cons_of_ne_nil (by simp), List.forall_mem_cons] at h
      refine List.pairwise_cons.2 ⟨?_, ih h.2⟩
      rintro _ _ ⟨plaintext, _, _, rfl, -⟩
      obtain ⟨⟨e, he⟩, -⟩ := h
      cases he

end

/-! ## The PUT phase -/

section
variable (address : XorName) (content proofBytes : Bytes)

/-- A PUT of the chunk, and its answer. -/
def putEvent (conn : NodeConnection) (answer : Except String Bytes) : Ev Net :=
  ⟨.roundTrip conn protoChunk (putRequest address content proofBytes).put, answer⟩

/-- The events of the attempts at each peer. -/
def putEvents (log : List (QuotedPeer × List (Except String Bytes))) : List (Ev Net) :=
  log.flatMap fun x => x.2.map (putEvent address content proofBytes x.1.conn)

/-- Once a peer has rejected the chunk, no PUT of it is sent to this peer. -/
def RejectionFinal (tr : List (Ev Net)) : Prop :=
  tr.Pairwise fun ev ev' => ∀ conn answer conn' answer',
    ev = putEvent address content proofBytes conn answer → Rejects C answer →
    ev' = putEvent address content proofBytes conn' answer' → conn'.peerId ≠ conn.peerId

end

section
variable {C} {σ : Type} {J : σ → Prop} {address : XorName} {content proofBytes : Bytes}

theorem putEvent_inj {conn conn' : NodeConnection} {answer answer' : Except String Bytes}
    (h : putEvent address content proofBytes conn answer =
      putEvent address content proofBytes conn' answer') : conn = conn' ∧ answer = answer' := by
  cases h
  exact ⟨rfl, rfl⟩

theorem attemptPut_attempts (conn : NodeConnection) (n : ℕ) (lastErr : String) :
    (attemptPut C conn address content proofBytes n lastErr).Traced J fun tr r =>
      ∃ answers, Attempts C n answers ∧
        tr = answers.map (putEvent address content proofBytes conn) ∧ r.1 = accepts C answers := by
  induction n generalizing lastErr with
  | zero => exact Traced.ret ⟨[], .nil, rfl, rfl⟩
  | succ n ih =>
    rw [attemptPut, putChunk_eq]
    refine Traced.call fun answer => ?_
    show Traced J _ (Prog.ret (putResult C answer) >>= _)
    cases h : putResult C answer with
    | ok b =>
      obtain ⟨rfl, -⟩ := putResult_ok h
      exact Traced.ret ⟨[answer], .accepted h, rfl, (accepts_cons_ok h).symm⟩
    | error e =>
      refine (ih e).mono fun tr r hr => ?_
      obtain ⟨answers, hanswers, rfl, hr⟩ := hr
      exact ⟨answer :: answers, .failed h hanswers, rfl, hr.trans (accepts_cons_error h).symm⟩

theorem putPeers_log (quoted : List QuotedPeer) (accepted : ℕ) (lastErr : String) :
    (putPeers C address content proofBytes quoted accepted lastErr).Traced J fun tr r =>
      ∃ log, log.map Prod.fst = quoted ∧ (∀ x ∈ log, Attempts C quoteAttempts x.2) ∧
        tr = putEvents address content proofBytes log ∧
        r.1 = accepted + log.countP fun x => accepts C x.2 := by
  induction quoted generalizing accepted lastErr with
  | nil => exact Traced.ret ⟨[], rfl, by simp, rfl, rfl⟩
  | cons q quoted ih =>
    refine (attemptPut_attempts q.conn quoteAttempts lastErr).bind fun tr r hr => ?_
    obtain ⟨answers, hanswers, rfl, hr⟩ := hr
    refine (ih _ r.2).mono fun tr' r' hr' => ?_
    obtain ⟨log, rfl, hlog, rfl, hcount⟩ := hr'
    refine ⟨(q, answers) :: log, rfl, List.forall_mem_cons.2 ⟨hanswers, hlog⟩, rfl, ?_⟩
    rw [hcount, List.countP_cons, hr]
    split
    · omega
    · rfl

theorem log_of_run {I : σ → σ → Prop} {quoted : List QuotedPeer} {accepted : ℕ}
    {lastErr : String} {s s' : σ} {tr : List (Ev Net)} {r : ℕ × String}
    (h : Run I (putPeers C address content proofBytes quoted accepted lastErr) s tr (some r) s') :
    ∃ log, log.map Prod.fst = quoted ∧ (∀ x ∈ log, Attempts C quoteAttempts x.2) ∧
      tr = putEvents address content proofBytes log ∧
      r.1 = accepted + log.countP fun x => accepts C x.2 :=
  (putPeers_log (J := fun _ => True) quoted accepted lastErr s tr r s' trivial
    (h.mono fun _ _ _ _ => trivial)).2

/-- Any answers are those of a run. -/
theorem Attempts.exists_run {I : σ → σ → Prop} (hI : ∀ s, I s s) {n : ℕ}
    {answers : List (Except String Bytes)} (h : Attempts C n answers) (conn : NodeConnection)
    (lastErr : String) (s : σ) :
    ∃ r, Run I (attemptPut C conn address content proofBytes n lastErr) s
      (answers.map (putEvent address content proofBytes conn)) (some r) s := by
  induction h generalizing lastErr with
  | nil => exact ⟨_, .ret⟩
  | accepted h =>
    refine ⟨(true, lastErr), ?_⟩
    rw [attemptPut, putChunk_eq]
    refine .call _ (hI s) ?_
    show Run I (Prog.ret (putResult C _) >>= _) s _ _ s
    rw [h]
    exact .ret
  | @failed n answer e answers h _ ih =>
    obtain ⟨r, hr⟩ := ih e
    refine ⟨r, ?_⟩
    rw [attemptPut, putChunk_eq]
    refine .call _ (hI s) ?_
    show Run I (Prog.ret (putResult C _) >>= _) s _ _ s
    rw [h]
    exact hr

theorem exists_run_putPeers {I : σ → σ → Prop} (hI : ∀ s, I s s)
    (log : List (QuotedPeer × List (Except String Bytes)))
    (h : ∀ x ∈ log, Attempts C quoteAttempts x.2) (accepted : ℕ) (lastErr : String) (s : σ) :
    ∃ r, Run I (putPeers C address content proofBytes (log.map Prod.fst) accepted lastErr) s
      (putEvents address content proofBytes log) (some r) s := by
  induction log generalizing accepted lastErr with
  | nil => exact ⟨_, .ret⟩
  | cons x log ih =>
    obtain ⟨hx, hlog⟩ := List.forall_mem_cons.1 h
    obtain ⟨r, hr⟩ := hx.exists_run hI x.1.conn lastErr s
    obtain ⟨r', hr'⟩ := ih hlog (if r.1 then accepted + 1 else accepted) r.2
    exact ⟨r', hr.seq hr'⟩

/-! ## Rejections -/

variable {log : List (QuotedPeer × List (Except String Bytes))}

/-- A rejection is final within the attempts at a peer and for the peers after it. -/
theorem rejectionFinal_putEvents : RejectionFinal C address content proofBytes
      (putEvents address content proofBytes log) ↔
    (∀ x ∈ log, x.2.Pairwise fun a _ => ¬ Rejects C a) ∧
      log.Pairwise fun x y => ∀ a ∈ x.2, ∀ _ ∈ y.2, Rejects C a →
        y.1.conn.peerId ≠ x.1.conn.peerId := by
  have hrel : ∀ (conn conn' : NodeConnection) (a a' : Except String Bytes),
      (∀ c answer c' answer',
        putEvent address content proofBytes conn a =
          putEvent address content proofBytes c answer → Rejects C answer →
        putEvent address content proofBytes conn' a' =
          putEvent address content proofBytes c' answer' →
        c'.peerId ≠ c.peerId) ↔ (Rejects C a → conn'.peerId ≠ conn.peerId) := by
    intro conn conn' a a'
    constructor
    · intro h hr
      exact h _ _ _ _ rfl hr rfl
    · intro h c answer c' answer' he hr he'
      obtain ⟨rfl, rfl⟩ := putEvent_inj he
      obtain ⟨rfl, rfl⟩ := putEvent_inj he'
      exact h hr
  rw [RejectionFinal, putEvents, List.pairwise_flatMap]
  simp only [List.pairwise_map, List.forall_mem_map, hrel]
  constructor
  · rintro ⟨hwithin, hafter⟩
    refine ⟨fun x hx => (hwithin x hx).imp fun h hr => h hr rfl, hafter.imp ?_⟩
    intro x y h a ha b hb hr
    exact h a ha b hb hr
  · rintro ⟨hwithin, hafter⟩
    refine ⟨fun x hx => (hwithin x hx).imp fun h hr => absurd hr h, hafter.imp ?_⟩
    intro x y h a ha b hb hr
    exact h a ha b hb hr

/-- **A rejection is final just if it comes last.** No peer that has rejected the chunk is
    sent it again, and only transport failures lead to another attempt, just if every
    answer before a peer's last attempt is an acceptance or a transport failure, and no
    peer that rejects the chunk is listed again. -/
theorem rejection_final_iff {I : σ → σ → Prop} {quoted : List QuotedPeer} {accepted : ℕ}
    {lastErr : String} {s s' : σ} {tr : List (Ev Net)} {r : ℕ × String}
    (h : Run I (putPeers C address content proofBytes quoted accepted lastErr) s tr (some r) s') :
    ∃ log : List (QuotedPeer × List (Except String Bytes)),
      log.map Prod.fst = quoted ∧ (∀ x ∈ log, Attempts C quoteAttempts x.2) ∧
      tr = putEvents address content proofBytes log ∧
      ((RejectionFinal C address content proofBytes tr ∧
          ∀ x ∈ log, ∀ a ∈ x.2.dropLast, ∃ e, a = .error e) ↔
        (∀ x ∈ log, ∀ a ∈ x.2.take (quoteAttempts - 1),
          putResult C a = .ok true ∨ ∃ e, a = .error e) ∧
        log.Pairwise fun x y => (∃ a ∈ x.2, Rejects C a) →
          y.1.conn.peerId ≠ x.1.conn.peerId) := by
  obtain ⟨log, hquoted, hlog, rfl, -⟩ := log_of_run h
  have hlast : (∀ x ∈ log, ∀ a ∈ x.2.dropLast, ∃ e, a = .error e) ↔
      ∀ x ∈ log, ∀ a ∈ x.2.take (quoteAttempts - 1),
        putResult C a = .ok true ∨ ∃ e, a = .error e :=
    forall₂_congr fun x hx => (hlog x hx).dropLast_iff
  have hlater : (log.Pairwise fun x y => ∀ a ∈ x.2, ∀ _ ∈ y.2, Rejects C a →
        y.1.conn.peerId ≠ x.1.conn.peerId) ↔
      log.Pairwise fun x y => (∃ a ∈ x.2, Rejects C a) → y.1.conn.peerId ≠ x.1.conn.peerId := by
    refine List.Pairwise.iff_of_mem fun {x y} _ hy => ?_
    obtain ⟨b, hb⟩ := List.exists_mem_of_ne_nil _ ((hlog y hy).ne_nil (by decide))
    constructor
    · rintro h ⟨a, ha, hr⟩
      exact h a ha b hb hr
    · intro h a ha _ _ hr
      exact h ⟨a, ha, hr⟩
  refine ⟨log, hquoted, hlog, rfl, ?_⟩
  rw [rejectionFinal_putEvents, hlater, ← hlast]
  constructor
  · rintro ⟨⟨-, hlater⟩, hlast⟩
    exact ⟨hlast, hlater⟩
  · rintro ⟨hlast, hlater⟩
    exact ⟨⟨fun x hx => pairwise_not_rejects (hlast x hx), hlater⟩, hlast⟩

end

/-! ## Runs -/

def putPeer : QuotedPeer := ⟨zeros 32, ⟨0, ⟨zeros 32⟩, zeros 32⟩, pinnedQuote, none⟩

/-- The answer of a peer to a PUT. -/
def putAnswer (response : ChunkPutResponse) : Except String Bytes :=
  .ok (ChunkMessage.put ⟨1, .putResponse response⟩)

theorem putResult_alreadyExists :
    putResult .transparent (putAnswer (.alreadyExists (first32 []))) = .ok true :=
  putResult_decode (ChunkMessage.decode_put _ (by decide))

theorem rejects_paymentRequired : Rejects .transparent (putAnswer (.paymentRequired "")) :=
  ⟨_, 1, .paymentRequired "", rfl, ChunkMessage.decode_put _ (by decide), .inl ⟨"", rfl⟩⟩

theorem rejection_final_blip :
    ∃ tr r,
      Run (Any Unit) (putPeers .transparent (zeros 32) [] [] [putPeer] 0 "") () tr (some r) () ∧
      tr.length = 2 ∧ RejectionFinal .transparent (zeros 32) [] [] tr := by
  have hanswers : Attempts .transparent quoteAttempts
      [.error "timeout", putAnswer (.alreadyExists (first32 []))] :=
    .failed rfl (.accepted putResult_alreadyExists)
  obtain ⟨r, hr⟩ := exists_run_putPeers (I := Any Unit) (fun _ => trivial) [(putPeer, _)]
    (List.forall_mem_singleton.2 hanswers) 0 "" ()
  obtain ⟨log, hquoted, -, htr, hiff⟩ := rejection_final_iff hr
  obtain ⟨⟨q, answers⟩, rfl, hq⟩ := List.map_eq_singleton_iff.1 hquoted
  obtain rfl : q = putPeer := hq
  have hevents : answers.map (putEvent (zeros 32) [] [] putPeer.conn) =
      [.error "timeout", putAnswer (.alreadyExists (first32 []))].map
        (putEvent (zeros 32) [] [] putPeer.conn) := by
    simpa [putEvents] using htr.symm
  obtain rfl := List.map_injective_iff.2 (fun _ _ h => (putEvent_inj h).2) hevents
  refine ⟨_, r, hr, rfl, (hiff.2 ⟨?_, List.pairwise_singleton _ _⟩).1⟩
  rintro _ h a ha
  obtain rfl := List.mem_singleton.1 h
  rcases List.mem_cons.1 ha with rfl | ha
  · exact Or.inr ⟨_, rfl⟩
  · obtain rfl := List.mem_singleton.1 ha
    exact Or.inl putResult_alreadyExists

/-- The first answer is already a rejection, yet the peer is sent the chunk three times. -/
theorem rejection_not_final :
    ∃ tr r,
      Run (Any Unit) (putPeers .transparent (zeros 32) [] [] [putPeer] 0 "") () tr (some r) () ∧
      tr.length = 3 ∧ ¬ RejectionFinal .transparent (zeros 32) [] [] tr := by
  obtain ⟨e, he⟩ := rejects_paymentRequired.fails
  have hanswers : Attempts .transparent quoteAttempts
      [putAnswer (.paymentRequired ""), putAnswer (.paymentRequired ""),
        putAnswer (.paymentRequired "")] :=
    .failed he (.failed he (.failed he .nil))
  obtain ⟨r, hr⟩ := exists_run_putPeers (I := Any Unit) (fun _ => trivial) [(putPeer, _)]
    (List.forall_mem_singleton.2 hanswers) 0 "" ()
  refine ⟨_, r, hr, rfl, fun hfinal => ?_⟩
  obtain ⟨hwithin, -⟩ := rejectionFinal_putEvents.1 hfinal
  have hpair := List.pairwise_cons.1 (hwithin _ (List.mem_singleton_self _))
  exact hpair.1 _ (List.mem_cons_self ..) rejects_paymentRequired

/-! ## Broken sessions -/

/-- The session broke at an attempt: this attempt and every one after it got no answer. -/
def Broke (answers : List (Except String Bytes)) : Prop :=
  ∃ before e after, answers = before ++ .error e :: after ∧ ∀ a ∈ after, ∃ e, a = .error e

section
variable (E : Ev Net → Prop) (address : XorName) (content proofBytes : Bytes)

/-- In the network `E`, a new session with the peer can be opened, and a PUT over it is
    accepted. -/
def Reopens (q : QuotedPeer) : Prop :=
  ∃ peer cells tr conn cells' answer, peer.peerId = q.peerId ∧ cells.pool[q.peerId]? = none ∧
    Run Eq (connectionFor C peer) cells tr (some (.ok conn)) cells' ∧ (∀ ev ∈ tr, E ev) ∧
    E (putEvent address content proofBytes conn answer) ∧ putResult C answer = .ok true

end

section
variable {C} {n : ℕ} {answers : List (Except String Bytes)} {σ : Type}
  {address : XorName} {content proofBytes : Bytes}

/-- Attempts end with the one that is accepted. -/
theorem Attempts.not_accepts (h : Attempts C n answers) (hb : Broke answers) :
    accepts C answers = false := by
  induction h with
  | nil => rfl
  | accepted haccepted =>
    obtain ⟨before, e, after, hanswers, -⟩ := hb
    cases before with
    | nil =>
      cases hanswers
      cases haccepted
    | cons _ before => simp at hanswers
  | @failed n answer e answers hfail h ih =>
    rw [accepts_cons_error hfail]
    obtain ⟨before, e', after, hanswers, hafter⟩ := hb
    cases before with
    | nil =>
      cases hanswers
      cases answers with
      | nil => rfl
      | cons a answers =>
        obtain ⟨⟨e'', rfl⟩, hrest⟩ := List.forall_mem_cons.1 hafter
        exact ih ⟨[], e'', answers, rfl, hrest⟩
    | cons _ before =>
      cases hanswers
      exact ih ⟨before, e', after, rfl, hafter⟩

theorem putEvents_not_opens (log : List (QuotedPeer × List (Except String Bytes))) :
    ∀ ev ∈ putEvents address content proofBytes log, ¬ ev.req.Opens := by
  intro ev hev
  obtain ⟨x, -, hx⟩ := List.mem_flatMap.1 hev
  obtain ⟨answer, -, rfl⟩ := List.mem_map.1 hx
  exact id

/-- **A broken session is not replaced.** The PUT phase opens no session and counts no peer
    whose session broke, so all peers that another session would reach are counted just if
    no session of such a peer breaks. -/
theorem broken_session_iff {I : σ → σ → Prop} {quoted : List QuotedPeer} {accepted : ℕ}
    {lastErr : String} {s s' : σ} {tr : List (Ev Net)} {r : ℕ × String}
    (h : Run I (putPeers C address content proofBytes quoted accepted lastErr) s tr (some r) s') :
    ∃ log : List (QuotedPeer × List (Except String Bytes)),
      log.map Prod.fst = quoted ∧ (∀ x ∈ log, Attempts C quoteAttempts x.2) ∧
      tr = putEvents address content proofBytes log ∧
      r.1 = accepted + log.countP (fun x => accepts C x.2) ∧
      (∀ ev ∈ tr, ¬ ev.req.Opens) ∧ (∀ x ∈ log, Broke x.2 → accepts C x.2 = false) ∧
      ∀ E : Ev Net → Prop,
        (∀ x ∈ log, Broke x.2 → Reopens C E address content proofBytes x.1 →
          accepts C x.2 = true) ↔
        ∀ x ∈ log, Broke x.2 → ¬ Reopens C E address content proofBytes x.1 := by
  obtain ⟨log, hquoted, hlog, rfl, hcount⟩ := log_of_run h
  have hbroke : ∀ x ∈ log, Broke x.2 → accepts C x.2 = false :=
    fun x hx => (hlog x hx).not_accepts
  refine ⟨log, hquoted, hlog, rfl, hcount, putEvents_not_opens log, hbroke, fun E => ?_⟩
  constructor
  · intro hcounted x hx hb hreopens
    have haccepts := hcounted x hx hb hreopens
    rw [hbroke x hx hb] at haccepts
    cases haccepts
  · intro hunreachable x hx hb hreopens
    exact absurd hreopens (hunreachable x hx hb)

end

/-- The answers of a network in which the transport `0` has broken, and the others work. -/
def brokenNet : ∀ e : NetReq, Net.Ans e
  | .transportConnect _ _ _ => .ok 1
  | .roundTrip conn _ _ =>
    if conn.transport = 0 then .error "channel closed" else putAnswer (.alreadyExists (first32 []))
  | e => honest [] id e

/-- A peer whose session is over the transport `0`. -/
def brokenPeer : QuotedPeer :=
  ⟨honestPeer.peerId, ⟨0, ⟨zeros 32⟩, honestPeer.peerId⟩, pinnedQuote, none⟩

/-- The answers to the attempts at it. -/
def brokenAnswers : List (Except String Bytes) :=
  List.replicate quoteAttempts (.error "channel closed")

theorem broke_brokenAnswers : Broke brokenAnswers :=
  ⟨[], "channel closed", List.replicate 2 (.error "channel closed"), rfl,
    fun _ ha => ⟨_, List.eq_of_mem_replicate ha⟩⟩

theorem brokenPeer_run : Run (Any Unit)
    (putPeers .transparent (zeros 32) [] [] [brokenPeer] 0 "") ()
      (putEvents (zeros 32) [] [] [(brokenPeer, brokenAnswers)]) (some (0, "channel closed")) () :=
  exec_run brokenNet (fun _ => trivial)
    (putPeers .transparent (zeros 32) [] [] [brokenPeer] 0 "") ()

theorem broken_session_brokenPeer : accepts .transparent brokenAnswers = false := by
  obtain ⟨log, hquoted, -, htr, -, -, hbroke, -⟩ := broken_session_iff brokenPeer_run
  obtain ⟨⟨q, answers⟩, rfl, rfl⟩ := List.map_eq_singleton_iff.1 hquoted
  have hevents : brokenAnswers.map (putEvent (zeros 32) [] [] brokenPeer.conn) =
      answers.map (putEvent (zeros 32) [] [] brokenPeer.conn) := by
    simpa [putEvents] using htr
  obtain rfl := List.map_injective_iff.2 (fun _ _ h => (putEvent_inj h).2) hevents
  exact hbroke _ (List.mem_singleton_self _) broke_brokenAnswers

theorem brokenPeer_reopens : Reopens .transparent (fun ev => ev.ans = brokenNet ev.req)
    (zeros 32) [] [] brokenPeer := by
  have hempty : Cells.empty.pool[honestPeer.peerId]? = none := by simp [Cells.empty]
  have hresult : ((connectionFor .transparent honestPeer).exec brokenNet Cells.empty).2.1 =
      .ok ⟨1, .fromSharedSecret .transparent (first32 honestAccept.ct.1), honestPeer.peerId⟩ := by
    rw [connectionFor, exec]
    dsimp only [id]
    rw [hempty]
    show ((bindE (bindE (.ret (ClientHandshake.finish _ _ _ _)) _) _).exec _ _).2.1 = _
    rw [finish_honest]
    · rfl
    · rintro p ⟨⟩
      rfl
  have hrun := exec_run brokenNet (I := Eq) (fun _ => rfl) (connectionFor .transparent honestPeer)
    Cells.empty
  rw [hresult] at hrun
  exact ⟨honestPeer, _, _, _, _, _, rfl, hempty, hrun, exec_answers _ _ _, rfl,
    putResult_alreadyExists⟩

/-- The peer is not counted, though a new session with it would have been enough. -/
theorem broken_session_not_replaced :
    Run (Any Unit) (putPeers .transparent (zeros 32) [] [] [brokenPeer] 0 "") ()
      (putEvents (zeros 32) [] [] [(brokenPeer, brokenAnswers)]) (some (0, "channel closed")) () ∧
    (∀ ev ∈ putEvents (zeros 32) [] [] [(brokenPeer, brokenAnswers)],
      ev.ans = brokenNet ev.req) ∧
    Broke brokenAnswers ∧
    Reopens .transparent (fun ev => ev.ans = brokenNet ev.req) (zeros 32) [] [] brokenPeer := by
  refine ⟨brokenPeer_run, ?_, broke_brokenAnswers, brokenPeer_reopens⟩
  exact exec_answers brokenNet
    (putPeers .transparent (zeros 32) [] [] [brokenPeer] 0 "" : Prog Net Unit _) ()

end AntClient
