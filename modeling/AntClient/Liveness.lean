/-
  A session goes on: no interleaving of calls of `round_trip` (`conn.rs`) gets stuck, and
  a call ends after a bounded number of steps for each message it reads.

  * `lockHeld`: a lock that is taken is held by a call under way.
  * `session_goes_on`: the steps of the calls are bounded by the calls and the messages, and
    what a call can be kept waiting by is the network only.
-/
import AntClient.Session
import Mathlib.Algebra.GroupWithZero.Nat

namespace AntClient

/-! ## Steps to go -/

/-- The steps that are left of a call, but for those that read messages. -/
def Pc.left : Pc → ℕ
  | .waiting => 8
  | .locked => 7
  | .numbered _ => 6
  | .sealed _ _ => 5
  | .polling _ => 4
  | .awaiting _ => 3
  | .received _ _ => 2
  | .leaving _ => 1
  | .done _ => 0

def Session.left (s : Session) : ℕ := (s.calls.map fun c => c.pc.left).sum

/-- A new call. -/
def Act.starts : Act → Bool
  | .start _ _ => true
  | _ => false

/-- A call reads a message. -/
def Act.reads : Act → Bool
  | .recv _ (some _) => true
  | _ => false

/-- A step of a call. -/
def Act.ofCall : Act → Bool
  | .start _ _ | .node _ _ _ => false
  | _ => true

variable {C : Crates} {cipher : SessionCipher} {i : ℕ} {tag : UInt8} {payload : Bytes} {k k' : Conn}
  {pc pc' : Pc} {a : Act} {frameBuf : FrameBuf} {acts : List Act} {s s' : Session}

theorem left_afterPush (seq : UInt32) (next : Pc) (r : Except String (Option Bytes)) :
    (afterPush seq next r).left ≤ max next.left 2 := by
  match r with
  | .error _ => exact le_max_of_le_right (by decide : 1 ≤ 2)
  | .ok (some _) => exact le_max_right _ _
  | .ok none => exact le_max_left _ _

/-- A step of a call brings it nearer to its end, but for the two steps that a message
    takes. -/
theorem CallStep.left (h : CallStep C cipher i tag payload k pc a k' pc') :
    a.starts = false ∧ a.ofCall = true ∧ pc'.left + 1 ≤ pc.left + if a.reads then 2 else 0 := by
  cases h with
  | @poll seq _ r _ =>
    have hp := left_afterPush seq (.awaiting seq) r
    refine ⟨rfl, rfl, ?_⟩
    simp [Pc.left, Act.reads] at hp ⊢
    omega
  | @recv seq _ _ r _ =>
    have hp := left_afterPush seq (.polling seq) r
    refine ⟨rfl, rfl, ?_⟩
    simp [Pc.left, Act.reads] at hp ⊢
    omega
  | _ => exact ⟨rfl, rfl, by simp [Pc.left, Act.reads]⟩

theorem sum_map_set {α : Type} {f : α → ℕ} {l : List α} {i : ℕ} {x y : α} (hi : l[i]? = some y) :
    ((l.set i x).map f).sum + f y = (l.map f).sum + f x := by
  induction l generalizing i with
  | nil => cases hi
  | cons z l ih =>
    cases i with
    | zero =>
      cases hi
      simp
      omega
    | succ i =>
      have := ih hi
      simp at this ⊢
      omega

/-- What a step of a session does to the steps that are left. -/
theorem Step.left (h : Step C cipher s a s') :
    (if a.ofCall then 1 else 0) + s'.left ≤
      s.left + ((if a.starts then 8 else 0) + if a.reads then 2 else 0) := by
  cases h with
  | start => simp [Session.left, Act.ofCall, Act.starts, Pc.left]
  | node => simp [Act.ofCall]
  | @call k calls i tag payload pc a k' pc' hi hs =>
    obtain ⟨hstart, hcall, hleft⟩ := hs.left
    have hsum := sum_map_set (f := fun c : Call => c.pc.left) (x := ⟨tag, payload, pc'⟩) hi
    simp only [Session.left, hstart, hcall, if_true, Bool.false_eq_true, if_false]
    dsimp only at hsum
    omega

/-- In a run the steps of calls are paid for by the steps left at its start, by new calls
    and by messages. -/
theorem run_left (h : Lts.Run (Step C cipher) s acts s') :
    acts.countP Act.ofCall + s'.left ≤
      s.left + (8 * acts.countP Act.starts + 2 * acts.countP Act.reads) := by
  refine h.inv (I := fun acts s' => acts.countP Act.ofCall + s'.left ≤
    s.left + (8 * acts.countP Act.starts + 2 * acts.countP Act.reads)) (by simp) ?_
  intro as t a u _ ih hst
  have hleft := hst.left
  simp only [List.countP_append, List.countP_singleton]
  split_ifs at hleft ⊢ <;> omega

/-! ## The lock -/

/-- A call that leaves the lock as it is still holds it, if it did. -/
theorem CallStep.holds (h : CallStep C cipher i tag payload k pc a k' pc') :
    (k.lock = none ∧ k'.lock = some i ∧ pc'.Holds) ∨ (k'.lock = k.lock ∧ pc'.Holds) ∨
      k'.lock = none := by
  have push : ∀ {seq : UInt32} {next : Pc} (r : Except String (Option Bytes)), next.Holds →
      (afterPush seq next r).Holds := by
    intro seq next r hn
    match r with
    | .error _ | .ok (some _) => trivial
    | .ok none => exact hn
  cases h with
  | lock hl => exact Or.inl ⟨hl, rfl, trivial⟩
  | ret => exact Or.inr (Or.inr rfl)
  | exhausted ht | number ht =>
    rcases Conn.takeSeq_cases ht with ⟨-, rfl, -⟩ | ⟨-, rfl, -⟩
    · exact Or.inr (Or.inl ⟨rfl, trivial⟩)
    · exact Or.inr (Or.inl ⟨rfl, trivial⟩)
  | poll => exact Or.inr (Or.inl ⟨rfl, push _ trivial⟩)
  | recv => exact Or.inr (Or.inl ⟨rfl, push _ trivial⟩)
  | _ => exact Or.inr (Or.inl ⟨rfl, trivial⟩)

/-- **A lock that is taken** is held by a call under way. -/
theorem lockHeld (h : SessionRun C cipher frameBuf acts s) :
    ∀ i, s.conn.lock = some i → ∃ c, s.calls[i]? = some c ∧ c.pc.Holds := by
  refine h.inv (I := fun _ s => ∀ i, s.conn.lock = some i → ∃ c, s.calls[i]? = some c ∧ c.pc.Holds)
    (by rintro i ⟨⟩) ?_
  intro as t a u _ ih hst j hj
  cases hst with
  | @start k calls tag payload =>
    obtain ⟨c, hc, hh⟩ := ih j hj
    have hlt : j < calls.length := (List.getElem?_eq_some_iff.1 hc).1
    exact ⟨c, (List.getElem?_append_left hlt).trans hc, hh⟩
  | node => exact ih j hj
  | @call k calls i tag payload pc _ k' pc' hi hs =>
    have hlt : i < calls.length := (List.getElem?_eq_some_iff.1 hi).1
    have hown : pc'.Holds → j = i → ∃ c, (calls.set i ⟨tag, payload, pc'⟩)[j]? = some c ∧ c.pc.Holds := by
      rintro hh rfl
      exact ⟨_, List.getElem?_set_self hlt, hh⟩
    rcases hs.holds with ⟨-, hl, hh⟩ | ⟨hl, hh⟩ | hl
    · exact hown hh (Option.some.inj (hj.symm.trans hl))
    · obtain ⟨c, hc, hch⟩ := ih j (hl ▸ hj)
      by_cases hij : j = i
      · exact hown hh hij
      · exact ⟨c, (List.getElem?_set_ne (Ne.symm hij)).trans hc, hch⟩
    · rw [hl] at hj
      cases hj

/-! ## What a call waits for -/

/-- The call has ended. -/
def Pc.Ended : Pc → Prop
  | .done _ => True
  | _ => False

theorem Pc.Ended.not_holds : ∀ {pc : Pc}, pc.Ended → ¬ pc.Holds
  | .done _, _ => id

/-- A call that holds the lock can take a step, whatever the state of the connection. -/
theorem Pc.Holds.step (C : Crates) (cipher : SessionCipher) (i : ℕ) (tag : UInt8)
    (payload : Bytes) (h : pc.Holds) (k : Conn) :
    (∃ seq, pc = .awaiting seq) ∨
      ∃ a k' pc', CallStep C cipher i tag payload k pc a k' pc' ∧ ∀ raw, a ≠ .recv i raw := by
  cases pc with
  | waiting | done => exact h.elim
  | awaiting seq => exact Or.inl ⟨seq, rfl⟩
  | locked =>
    rcases ht : k.takeSeq with ⟨k', e | seq⟩
    · exact Or.inr ⟨_, _, _, .exhausted ht, fun _ => Act.noConfusion⟩
    · exact Or.inr ⟨_, _, _, .number ht, fun _ => Act.noConfusion⟩
  | numbered seq =>
    cases hs : cipher.sealRequest C seq (tag :: payload) with
    | error e => exact Or.inr ⟨_, _, _, .sealFailed hs, fun _ => Act.noConfusion⟩
    | ok env => exact Or.inr ⟨_, _, _, .sealRequest hs, fun _ => Act.noConfusion⟩
  | «sealed» seq env => exact Or.inr ⟨_, _, _, .send, fun _ => Act.noConfusion⟩
  | polling seq => exact Or.inr ⟨_, _, _, .poll rfl, fun _ => Act.noConfusion⟩
  | received seq frame => exact Or.inr ⟨_, _, _, .check rfl, fun _ => Act.noConfusion⟩
  | leaving r => exact Or.inr ⟨_, _, _, .ret, fun _ => Act.noConfusion⟩

/-- While a call has not ended, some call can take a step, or the call that holds the lock
    waits for a message. -/
theorem step_or_awaiting (h : SessionRun C cipher frameBuf acts s) {c : Call} (hc : c ∈ s.calls)
    (hend : ¬ c.pc.Ended) :
    (∃ a s', Step C cipher s a s' ∧ a.ofCall = true ∧ ∀ i raw, a ≠ .recv i raw) ∨
      ∃ i d seq, s.conn.lock = some i ∧ s.calls[i]? = some d ∧ d.pc = .awaiting seq := by
  obtain ⟨k, calls⟩ := s
  cases hl : k.lock with
  | none =>
    -- the lock is free, and the call waits for it
    obtain ⟨j, hj⟩ := List.mem_iff_getElem?.1 hc
    obtain ⟨tag, payload, pc⟩ := c
    have hpc : pc = .waiting := by
      cases pc with
      | waiting => rfl
      | done => exact absurd trivial hend
      | _ => exact absurd (hl.symm.trans (exclusive h j _ hj trivial)) nofun
    subst hpc
    exact Or.inl ⟨_, _, .call hj (.lock hl), rfl, fun _ _ => Act.noConfusion⟩
  | some i =>
    obtain ⟨⟨tag, payload, pc⟩, hi, hh⟩ := lockHeld h i hl
    rcases hh.step C cipher i tag payload k with
      ⟨seq, hpc⟩ | ⟨a, k', pc', hs, hrecv⟩
    · exact Or.inr ⟨i, _, seq, rfl, hi, hpc⟩
    · refine Or.inl ⟨a, _, .call hi hs, hs.left.2.1, fun j raw ha => ?_⟩
      obtain rfl : j = i := by
        subst ha
        cases hs <;> rfl
      exact hrecv raw ha

/-- A call that waits for a message goes on with whatever arrives, and if the channel
    closes. -/
theorem awaiting_step (C : Crates) (cipher : SessionCipher) {i : ℕ} {d : Call} {seq : UInt32}
    (hi : s.calls[i]? = some d) (hd : d.pc = .awaiting seq) (raw : Option Bytes) :
    ∃ s', Step C cipher s (.recv i raw) s' := by
  obtain ⟨k, calls⟩ := s
  obtain ⟨tag, payload, pc⟩ := d
  subst hd
  cases raw with
  | none => exact ⟨_, .call hi .closed⟩
  | some raw => exact ⟨_, .call hi (.recv rfl)⟩

/-- When every call has ended, the lock is free. -/
theorem lock_free (h : SessionRun C cipher frameBuf acts s) (hall : ∀ c ∈ s.calls, c.pc.Ended) :
    s.conn.lock = none := by
  cases hl : s.conn.lock with
  | none => rfl
  | some i =>
    obtain ⟨c, hc, hh⟩ := lockHeld h i hl
    exact absurd hh (hall c (List.mem_of_getElem? hc)).not_holds

/-- **A session goes on**.  In every run the calls take at most 8 steps each and two for
    every message; when no call can take a step but by receiving, every call has ended or
    the one that holds the lock waits for a message; when none can even be told that the
    channel has closed, every call has ended; and then the lock is free. -/
theorem session_goes_on (h : SessionRun C cipher frameBuf acts s) :
    acts.countP Act.ofCall + s.left ≤ 8 * acts.countP Act.starts + 2 * acts.countP Act.reads ∧
    ((∀ a s', Step C cipher s a s' → a.ofCall = true → ∃ i raw, a = .recv i raw) →
      (∀ c ∈ s.calls, c.pc.Ended) ∨
        ∃ i d seq, s.conn.lock = some i ∧ s.calls[i]? = some d ∧ d.pc = .awaiting seq) ∧
    ((∀ a s', Step C cipher s a s' → a.ofCall = true → a.reads = true) →
      ∀ c ∈ s.calls, c.pc.Ended) ∧
    ((∀ c ∈ s.calls, c.pc.Ended) → s.conn.lock = none) := by
  refine ⟨?_, fun hstuck => ?_, fun hstuck c hc => ?_, fun hall => ?_⟩
  · simpa [Session.left, Session.fresh] using run_left h
  · by_contra hne
    rw [not_or] at hne
    obtain ⟨hend, hwait⟩ := hne
    push Not at hend
    obtain ⟨c, hc, hend⟩ := hend
    rcases step_or_awaiting h hc hend with ⟨a, s', hst, ha, hrecv⟩ | hw
    · obtain ⟨i, raw, rfl⟩ := hstuck a s' hst ha
      exact hrecv i raw rfl
    · exact hwait hw
  · by_contra hend
    rcases step_or_awaiting h hc hend with ⟨a, s', hst, ha, hrecv⟩ | ⟨i, d, seq, -, hi, hd⟩
    · have hr := hstuck a s' hst ha
      unfold Act.reads at hr
      split at hr
      · exact hrecv _ _ rfl
      · cases hr
    · obtain ⟨s', hst⟩ := awaiting_step C cipher hi hd none
      exact absurd (hstuck _ s' hst rfl) nofun
  · exact lock_free h hall

/-- The steps of the exchange: eight, as its message holds a whole frame. -/
theorem session_goes_on_exchange :
    exchange.countP Act.ofCall ≤ 8 * exchange.countP Act.starts + 2 * exchange.countP Act.reads :=
  (session_goes_on exchange_run).1

end AntClient
