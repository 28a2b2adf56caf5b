/-
  Turns: tasks on one thread, which give way at awaits only.

  * `Turns.Step` are the steps of a system of named calls.  A task that is not waiting goes
    on; a call is started, or an await answered, when every task waits.
  * `Turn` is the rely-guarantee triple for such systems.  The invariant relates the answered
    requests so far to the shared state; it holds after every access to the state and
    whenever the task waits, and a condition on the answers may depend on the state and on
    the task that waits.
  * `Turns.invariant`: what the triples say of a system in which every answer meets its
    condition.
-/
import AntClient.Lib.Lts
import AntClient.Lib.Tasks

namespace Async

/-! ## The scheduler -/

/-- The task waits for an answer, or has ended. -/
def Prog.Idle {S : Sig} {σ α : Type} : Prog S σ α → Prop
  | .ret _ | .call _ _ => True
  | .sync _ _ => False
  | .choose k => ∀ b, (k b).Idle

/-- The task has not ended. -/
def Prog.busy {S : Sig} {σ α : Type} : Prog S σ α → Bool
  | .ret _ => false
  | _ => true

namespace Turns

/-- The shared state, and the tasks with the names of their calls. -/
structure Conf (S : Sig) (σ α ι : Type) where
  state : σ
  tasks : List (ι × Prog S σ α)

inductive Act (S : Sig) (σ ι : Type)
  | spawn (x : ι)
  /-- an access of the `i`-th task to the shared state -/
  | access (i : ℕ) (f : σ → σ)
  | answer (i : ℕ) (ev : Ev S)
  | pick (i : ℕ) (b : Bool)

variable {S : Sig} {σ α ι : Type}

def Conf.Idle (c : Conf S σ α ι) : Prop := ∀ t ∈ c.tasks, t.2.Idle

/-- The answered requests. -/
def events : List (Act S σ ι) → List (Ev S) :=
  List.filterMap fun
    | .answer _ ev => some ev
    | _ => none

@[simp] theorem events_append (as bs : List (Act S σ ι)) :
    events (as ++ bs) = events as ++ events bs := List.filterMap_append

@[simp] theorem events_nil : events ([] : List (Act S σ ι)) = [] := rfl

/-- One step; `api` is what the calls do. -/
inductive Step (api : ι → Prog S σ α) : Conf S σ α ι → Act S σ ι → Conf S σ α ι → Prop
  | spawn {c : Conf S σ α ι} {x} : c.Idle → Step api c (.spawn x) ⟨c.state, c.tasks ++ [(x, api x)]⟩
  | access {c : Conf S σ α ι} {i x f k} : c.tasks[i]? = some (x, .sync f k) →
      Step api c (.access i f) ⟨f c.state, c.tasks.set i (x, k c.state)⟩
  | answer {c : Conf S σ α ι} {i x e k} (r : S.Ans e) : c.Idle →
      c.tasks[i]? = some (x, .call e k) →
      Step api c (.answer i ⟨e, r⟩) ⟨c.state, c.tasks.set i (x, k r)⟩
  | pick {c : Conf S σ α ι} {i x k} (b : Bool) : c.tasks[i]? = some (x, .choose k) →
      Step api c (.pick i b) ⟨c.state, c.tasks.set i (x, k b)⟩

end Turns

namespace Prog

variable {S T : Sig} {σ α β ι ε : Type}

/-! ## Triples -/

section
variable (I : List (Ev S) → σ → Prop) (A : S.Req → Prop)
  (ok : σ → Prog S σ α → Ev S → Prop) (Q : α → Prop)

/-- The task, on its turn after the events `tr` in the given state, keeps the invariant `I`,
    issues only requests in `A`, and returns only values that satisfy `Q`, as long as the
    answers meet the condition `ok`. -/
def Turn : List (Ev S) → Prog S σ α → σ → Prop
  | tr, .ret a, s => I tr s ∧ Q a
  | tr, .sync f k, s => I tr (f s) ∧ Turn tr (k s) (f s)
  | tr, .call e k, s => I tr s ∧ A e ∧ ∀ tr' s' (r : S.Ans e), I tr' s' →
      ok s' (.call e k) ⟨e, r⟩ → Turn (tr' ++ [⟨e, r⟩]) (k r) s'
  | tr, .choose k, s => ∀ b, Turn tr (k b) s

/-- The task may have a turn whenever the invariant holds. -/
def Ready (p : Prog S σ α) : Prop := ∀ tr s, I tr s → Turn I A ok Q tr p s

end

variable {I : List (Ev S) → σ → Prop} {A : S.Req → Prop}

/-- At the end of its turn the invariant holds, and the task is ready for the next one. -/
theorem Turn.ready {ok : σ → Prog S σ α → Ev S → Prop} {Q : α → Prop} {p : Prog S σ α} {tr s}
    (h : Turn I A ok Q tr p s) (hp : p.Idle) : I tr s ∧ Ready I A ok Q p := by
  induction p with
  | ret a => exact ⟨h.1, fun tr' s' hI => ⟨hI, h.2⟩⟩
  | sync f k => cases hp
  | call e k => exact ⟨h.1, fun tr' s' hI => ⟨hI, h.2⟩⟩
  | choose k ih =>
    exact ⟨(ih true (h true) (hp true)).1, fun tr' s' hI b => (ih b (h b) (hp b)).2 tr' s' hI⟩

theorem Ready.ret {ok : σ → Prog S σ α → Ev S → Prop} {Q : α → Prop} {a : α} (h : Q a) :
    Ready I A ok Q (.ret a) := fun _ _ hI => ⟨hI, h⟩

theorem Ready.sync {ok : σ → Prog S σ α → Ev S → Prop} {Q : α → Prop} {f : σ → σ}
    {k : σ → Prog S σ α} (h : ∀ tr s, I tr s → I tr (f s) ∧ Ready I A ok Q (k s)) :
    Ready I A ok Q (.sync f k) := by
  intro tr s hI
  obtain ⟨hf, hk⟩ := h tr s hI
  exact ⟨hf, hk tr _ hf⟩

/-- Sequential composition.  In the first task the condition on the answers does not
    depend on what follows. -/
theorem Turn.bind {A' : S.Req → Prop} {ok : σ → Ev S → Prop} {ok' : σ → Prog S σ β → Ev S → Prop}
    {Q : α → Prop} {R : β → Prop} {p : Prog S σ α} {g : α → Prog S σ β} (hA : ∀ e, A e → A' e)
    (hok : ∀ s e k r, A e → ok' s (.call e k) ⟨e, r⟩ → ok s ⟨e, r⟩) {tr s}
    (hp : Turn I A (fun s _ => ok s) Q tr p s) (hg : ∀ a, Q a → Ready I A' ok' R (g a)) :
    Turn I A' ok' R tr (p >>= g) s := by
  induction p generalizing tr s with
  | ret a => exact hg a hp.2 tr s hp.1
  | sync f k ih => exact ⟨hp.1, ih s hp.2⟩
  | call e k ih =>
    obtain ⟨hI, he, hk⟩ := hp
    exact ⟨hI, hA e he, fun tr' s' r hI' hr => ih r (hk tr' s' r hI' (hok s' e _ r he hr))⟩
  | choose k ih => exact fun b => ih b (hp b)

section
variable {ok : σ → Ev S → Prop} {Q Q' : α → Prop} {R : β → Prop}

theorem Turn.mono (hQ : ∀ a, Q a → Q' a) {p : Prog S σ α} {tr s}
    (h : Turn I A (fun s _ => ok s) Q tr p s) : Turn I A (fun s _ => ok s) Q' tr p s := by
  induction p generalizing tr s with
  | ret a => exact ⟨h.1, hQ a h.2⟩
  | sync f k ih => exact ⟨h.1, ih s h.2⟩
  | call e k ih => exact ⟨h.1, h.2.1, fun tr' s' r hI hr => ih r (h.2.2 tr' s' r hI hr)⟩
  | choose k ih => exact fun b => ih b (h b)

theorem Ready.bind {p : Prog S σ α} {g : α → Prog S σ β} (hp : Ready I A (fun s _ => ok s) Q p)
    (hg : ∀ a, Q a → Ready I A (fun s _ => ok s) R (g a)) :
    Ready I A (fun s _ => ok s) R (p >>= g) :=
  fun tr s hI => (hp tr s hI).bind (fun _ h => h) (fun _ _ _ _ _ h => h) hg

/-- If every answer that is allowed keeps the invariant, a request needs no more than that
    the task goes on. -/
theorem Ready.call (hev : ∀ tr s ev, I tr s → ok s ev → I (tr ++ [ev]) s) {e : S.Req}
    {k : S.Ans e → Prog S σ α} (he : A e) (hk : ∀ r, Ready I A (fun s _ => ok s) Q (k r)) :
    Ready I A (fun s _ => ok s) Q (.call e k) :=
  fun _ _ hI => ⟨hI, he, fun tr' s' r hI' hr => hk r _ _ (hev tr' s' _ hI' hr)⟩

/-! ### Concurrent tasks -/

theorem Turn.bothCall {e : S.Req} {k : S.Ans e → Prog S σ α}
    {p' : S.Ans e → Prog S σ β → Prog S σ (α × β)} (he : A e)
    (hk : ∀ tr s r, I tr s → ok s ⟨e, r⟩ → Turn I A (fun s _ => ok s) Q (tr ++ [⟨e, r⟩]) (k r) s)
    (hp : ∀ tr s r q, I tr s → ok s ⟨e, r⟩ → Ready I A (fun s _ => ok s) R q →
      Turn I A (fun s _ => ok s) (fun x => Q x.1 ∧ R x.2) (tr ++ [⟨e, r⟩]) (p' r q) s)
    {q : Prog S σ β} {tr s} (hq : Turn I A (fun s _ => ok s) R tr q s) :
    Turn I A (fun s _ => ok s) (fun x => Q x.1 ∧ R x.2) tr (Prog.bothCall e k p' q) s := by
  induction q generalizing tr s with
  | ret b =>
    refine ⟨hq.1, he, fun tr' s' r hI hr => ?_⟩
    exact (hk tr' s' r hI hr).bind (fun _ h => h) (fun _ _ _ _ _ h => h) fun a ha =>
      .ret ⟨ha, hq.2⟩
  | sync f k' ih => exact ⟨hq.1, ih s hq.2⟩
  | choose k' ih => exact fun c => ih c (hq c)
  | call e' k' ih =>
    intro c
    cases c with
    | true =>
      have hready : Ready I A (fun s _ => ok s) R (.call e' k') := fun _ _ hI => ⟨hI, hq.2⟩
      exact ⟨hq.1, he, fun tr' s' r hI hr => hp tr' s' r _ hI hr hready⟩
    | false => exact ⟨hq.1, hq.2.1, fun tr' s' r hI hr => ih r (hq.2.2 tr' s' r hI hr)⟩

theorem Turn.both {p : Prog S σ α} {q : Prog S σ β} {tr s}
    (hp : Turn I A (fun s _ => ok s) Q tr p s) (hq : Ready I A (fun s _ => ok s) R q) :
    Turn I A (fun s _ => ok s) (fun x => Q x.1 ∧ R x.2) tr (Prog.both p q) s := by
  induction p generalizing q tr s with
  | ret a =>
    exact (hq tr s hp.1).bind (fun _ h => h) (fun _ _ _ _ _ h => h) fun b hb => .ret ⟨hp.2, hb⟩
  | sync f k ih => exact ⟨hp.1, ih s hp.2 hq⟩
  | choose k ih => exact fun c => ih c (hp c) hq
  | call e k ih =>
    obtain ⟨hI, he, hk⟩ := hp
    exact Turn.bothCall he hk (fun tr' s' r q hI' hr hq => ih r (hk tr' s' r hI' hr) hq)
      (hq tr s hI)

theorem Ready.joined {f : ι → Prog S σ α} (is : List ι)
    (h : ∀ i, Ready I A (fun s _ => ok s) Q (f i)) :
    Ready I A (fun s _ => ok s) (fun _ => True) (Prog.joined f is) := by
  induction is with
  | nil => exact .ret trivial
  | cons i is ih =>
    have hboth : Ready I A (fun s _ => ok s) (fun x => Q x.1 ∧ True)
        (Prog.both (f i) (Prog.joined f is)) :=
      fun tr s hI => (h i tr s hI).both ih
    exact hboth.bind fun _ _ => .ret trivial

/-- Handlers. -/
theorem Ready.handle {F : (σ → σ) → Prop} (hF : ∀ f, F f → ∀ tr s, I tr s → I tr (f s))
    {h : ∀ e : T.Req, Prog S σ (T.Ans e)}
    (hh : ∀ e, Ready I A (fun s _ => ok s) (fun _ => True) (h e))
    {p : Prog T σ α} (hp : p.Accesses F) :
    Ready I A (fun s _ => ok s) (fun _ => True) (p.handle h) := by
  induction p with
  | ret a => exact .ret trivial
  | sync f k ih => exact .sync fun tr s hI => ⟨hF f hp.1 tr s hI, ih s (hp.2 s)⟩
  | call e k ih => exact (hh e).bind fun r _ => ih r (hp r)
  | choose k ih => exact fun tr s hI c => ih c (hp c) tr s hI

end

end Prog

/-! ## Systems -/

namespace Turns

variable {S : Sig} {σ α ι : Type} {api : ι → Prog S σ α}

/-- The answers meet the condition. -/
def Meets (ok : σ → Prog S σ α → Ev S → Prop) (c : Conf S σ α ι) : Act S σ ι → Prop
  | .answer i ev => ∀ x p, c.tasks[i]? = some (x, p) → ok c.state p ev
  | _ => True

section
variable {I : List (Ev S) → σ → Prop} {A : S.Req → Prop} {ok : σ → Prog S σ α → Ev S → Prop}
  {Q : α → Prop}

/-- The task `i` had the last turn. -/
structure OnTurn (I : List (Ev S) → σ → Prop) (A : S.Req → Prop)
    (ok : σ → Prog S σ α → Ev S → Prop) (Q : α → Prop) (tr : List (Ev S)) (c : Conf S σ α ι)
    (i : ℕ) : Prop where
  absent : c.tasks[i]? = none → I tr c.state
  turn : ∀ x p, c.tasks[i]? = some (x, p) → Prog.Turn I A ok Q tr p c.state
  others : ∀ j x p, j ≠ i → c.tasks[j]? = some (x, p) → p.Idle ∧ Prog.Ready I A ok Q p

theorem OnTurn.idle {tr : List (Ev S)} {c : Conf S σ α ι} {i : ℕ} (h : OnTurn I A ok Q tr c i)
    (hc : c.Idle) :
    I tr c.state ∧ ∀ x p (j : ℕ), c.tasks[j]? = some (x, p) → Prog.Ready I A ok Q p := by
  constructor
  · cases hi : c.tasks[i]? with
    | none => exact h.absent hi
    | some t => exact ((h.turn t.1 t.2 hi).ready (hc t (List.mem_of_getElem? hi))).1
  · intro x p j hj
    by_cases hji : j = i
    · subst hji
      exact ((h.turn x p hj).ready (hc _ (List.mem_of_getElem? hj))).2
    · exact (h.others j x p hji hj).2

/-- A call starts: its task has the turn. -/
theorem OnTurn.spawn {tr : List (Ev S)} {c : Conf S σ α ι} {i : ℕ} {x : ι} {p : Prog S σ α}
    (h : OnTurn I A ok Q tr c i) (hidle : c.Idle) (hp : Prog.Ready I A ok Q p) :
    OnTurn I A ok Q tr ⟨c.state, c.tasks ++ [(x, p)]⟩ c.tasks.length := by
  obtain ⟨hI, hready⟩ := h.idle hidle
  refine ⟨fun hn => by simp at hn, fun y q hq => ?_, fun j y q hj hq => ?_⟩
  · simp at hq
    obtain ⟨rfl, rfl⟩ := hq
    exact hp _ _ hI
  · dsimp only at hq
    rw [List.getElem?_append_left] at hq
    · exact ⟨hidle _ (List.mem_of_getElem? hq), hready y q j hq⟩
    · have hl := (List.getElem?_eq_some_iff.1 hq).1
      simp at hl
      omega

/-- The task on turn accesses the state. -/
theorem OnTurn.access {tr : List (Ev S)} {c : Conf S σ α ι} {i : ℕ} {x : ι} {f : σ → σ}
    {k : σ → Prog S σ α} (h : OnTurn I A ok Q tr c i) (hi : c.tasks[i]? = some (x, .sync f k)) :
    I tr (f c.state) ∧ OnTurn I A ok Q tr ⟨f c.state, c.tasks.set i (x, k c.state)⟩ i := by
  obtain ⟨hI, hturn⟩ := h.turn x _ hi
  refine ⟨hI, ⟨fun _ => hI, fun y p hp => ?_, fun j y p hne hp => ?_⟩⟩
  · rcases List.getElem?_set_cases hp with ⟨-, he⟩ | ⟨hne, -⟩
    · cases he
      exact hturn
    · exact absurd rfl hne
  · rcases List.getElem?_set_cases hp with ⟨he, -⟩ | ⟨-, hp⟩
    · exact absurd he hne
    · exact h.others j y p hne hp

/-- An await is answered: its task has the turn. -/
theorem OnTurn.answer {tr : List (Ev S)} {c : Conf S σ α ι} {i j : ℕ} {x : ι} {e : S.Req}
    {k : S.Ans e → Prog S σ α} {r : S.Ans e} (h : OnTurn I A ok Q tr c i) (hidle : c.Idle)
    (hj : c.tasks[j]? = some (x, .call e k)) (hr : ok c.state (.call e k) ⟨e, r⟩) :
    OnTurn I A ok Q (tr ++ [⟨e, r⟩]) ⟨c.state, c.tasks.set j (x, k r)⟩ j := by
  obtain ⟨hI, hready⟩ := h.idle hidle
  obtain ⟨-, -, hk⟩ := hready x _ j hj _ _ hI
  have hturn := hk _ _ r hI hr
  refine ⟨fun hn => ?_, fun y p hp => ?_, fun j' y p hne hp => ?_⟩
  · have hl := (List.getElem?_eq_some_iff.1 hj).1
    simp at hn
    omega
  · rcases List.getElem?_set_cases hp with ⟨-, he⟩ | ⟨hne, -⟩
    · cases he
      exact hturn
    · exact absurd rfl hne
  · rcases List.getElem?_set_cases hp with ⟨he, -⟩ | ⟨-, hp⟩
    · exact absurd he hne
    · exact ⟨hidle _ (List.mem_of_getElem? hp), hready y p j' hp⟩

/-- A choice of any task, on its turn or not. -/
theorem OnTurn.pick {tr : List (Ev S)} {c : Conf S σ α ι} {i j : ℕ} {x : ι} {k : Bool → Prog S σ α}
    (h : OnTurn I A ok Q tr c i) (hj : c.tasks[j]? = some (x, .choose k)) (b : Bool) :
    OnTurn I A ok Q tr ⟨c.state, c.tasks.set j (x, k b)⟩ i := by
  refine ⟨fun hn => h.absent ?_, fun y p hp => ?_, fun j' y p hne hp => ?_⟩
  · simp at hn ⊢
    exact hn
  · rcases List.getElem?_set_cases hp with ⟨rfl, he⟩ | ⟨-, hp⟩
    · cases he
      exact h.turn x _ hj b
    · exact h.turn y p hp
  · rcases List.getElem?_set_cases hp with ⟨rfl, he⟩ | ⟨-, hp⟩
    · cases he
      obtain ⟨hidle, hready⟩ := h.others _ x _ hne hj
      exact ⟨hidle b, fun tr' s' hI => hready tr' s' hI b⟩
    · exact h.others j' y p hne hp

/-- One step keeps the promises of the tasks. -/
theorem OnTurn.step (hapi : ∀ x, Prog.Ready I A ok Q (api x)) {as : List (Act S σ ι)}
    {c c' : Conf S σ α ι} {i : ℕ} {a : Act S σ ι} (h : OnTurn I A ok Q (events as) c i)
    (hst : Step api c a c') (hm : Meets ok c a) :
    ∃ i', OnTurn I A ok Q (events (as ++ [a])) c' i' ∧
      ∀ j f, a = .access j f → I (events (as ++ [a])) c'.state := by
  rw [events_append]
  cases hst with
  | @spawn x hidle =>
    rw [show events [Act.spawn x] = ([] : List (Ev S)) from rfl, List.append_nil]
    exact ⟨_, h.spawn hidle (hapi x), fun _ _ he => by cases he⟩
  | @access j x f k hj =>
    obtain rfl : j = i := by
      by_contra hji
      exact (h.others j x _ hji hj).1
    rw [show events [Act.access j f] = ([] : List (Ev S)) from rfl, List.append_nil]
    obtain ⟨hI, hturn⟩ := h.access hj
    exact ⟨j, hturn, fun _ _ _ => hI⟩
  | @answer j x e k r hidle hj =>
    exact ⟨j, h.answer hidle hj (hm x _ hj), fun _ _ he => by cases he⟩
  | @pick j x k b hj =>
    rw [show events [Act.pick j b] = ([] : List (Ev S)) from rfl, List.append_nil]
    exact ⟨i, h.pick hj b, fun _ _ he => by cases he⟩

/-- **The invariant rule**: in a run in which every answer meets the condition, the
    invariant holds after every access and whenever every task waits. -/
theorem invariant (hapi : ∀ x, Prog.Ready I A ok Q (api x)) {s : σ} (hs : I [] s)
    {as : List (Act S σ ι)} {c : Conf S σ α ι}
    (h : Lts.Run (fun c a c' => Step api c a c' ∧ Meets ok c a) ⟨s, []⟩ as c) :
    (c.Idle ∨ ∃ as' i f, as = as' ++ [.access i f]) → I (events as) c.state := by
  have hinv : (∃ i, OnTurn I A ok Q (events as) c i) ∧
      ∀ as' i f, as = as' ++ [.access i f] → I (events as) c.state := by
    refine h.inv (I := fun as c => (∃ i, OnTurn I A ok Q (events as) c i) ∧
      ∀ as' i f, as = as' ++ [.access i f] → I (events as) c.state) ?_ ?_
    · exact ⟨⟨0, ⟨fun _ => hs, by simp, by simp⟩⟩, by simp⟩
    · rintro as c a c' - ⟨⟨i, hi⟩, -⟩ ⟨hst, hm⟩
      obtain ⟨i', hi', hacc⟩ := hi.step hapi hst hm
      refine ⟨⟨i', hi'⟩, fun as' j f he => ?_⟩
      obtain ⟨-, ha⟩ := List.append_inj' he rfl
      exact hacc j f (List.singleton_inj.1 ha)
  rintro (hc | ⟨as', i, f, rfl⟩)
  · obtain ⟨i, hi⟩ := hinv.1
    exact (hi.idle hc).1
  · exact hinv.2 as' i f rfl

end

/-- Answers that are always allowed meet the condition. -/
theorem meets_of_events {ok : σ → Prog S σ α → Ev S → Prop} {c c' : Conf S σ α ι}
    {as : List (Act S σ ι)} (h : Lts.Run (Step api) c as c')
    (hok : ∀ ev ∈ events as, ∀ s p, ok s p ev) :
    Lts.Run (fun c a c' => Step api c a c' ∧ Meets ok c a) c as c' := by
  refine h.mono fun t a u ha hst => ⟨hst, ?_⟩
  cases a with
  | answer i ev => exact fun x p _ => hok ev (List.mem_filterMap.2 ⟨_, ha, rfl⟩) _ p
  | spawn x => trivial
  | access i f => trivial
  | pick i b => trivial

/-! ## Runs of one task -/

/-- While the other tasks wait, a run of the first part of a task is a run of the system, without
    calls that start. -/
theorem run_bind (api : ι → Prog S σ α) {c : Conf S σ α ι} {i : ℕ} {x : ι} {p : Prog S σ β}
    {g : β → Prog S σ α} {s' : σ} {tr : List (Ev S)} {b : β} (hi : c.tasks[i]? = some (x, p >>= g))
    (hothers : ∀ j t, j ≠ i → c.tasks[j]? = some t → t.2.Idle)
    (h : Prog.Run Eq p c.state tr (some b) s') :
    ∃ as, Lts.Run (Step api) c as ⟨s', c.tasks.set i (x, g b)⟩ ∧ events as = tr ∧
      ∀ y, .spawn y ∉ as := by
  generalize hs : c.state = s at h
  generalize ho : some b = o at h
  -- the configuration after a step of the task, and its other tasks
  have hset : ∀ {c : Conf S σ α ι} {q : Prog S σ α} (q' : Prog S σ α), c.tasks[i]? = some (x, q) →
      (∀ j t, j ≠ i → c.tasks[j]? = some t → t.2.Idle) →
      (c.tasks.set i (x, q'))[i]? = some (x, q') ∧
        ∀ j t, j ≠ i → (c.tasks.set i (x, q'))[j]? = some t → t.2.Idle := by
    intro c q q' hi hothers
    have hl := (List.getElem?_eq_some_iff.1 hi).1
    refine ⟨by simp [hl], fun j t hj ht => ?_⟩
    rcases List.getElem?_set_cases ht with ⟨he, -⟩ | ⟨-, ht⟩
    · exact absurd he hj
    · exact hothers j t hj ht
  induction h generalizing c with
  | @ret b' s =>
    cases ho
    refine ⟨[], ?_, rfl, by simp⟩
    have hi' : c.tasks[i]? = some (x, g b) := hi
    have hself : c.tasks.set i (x, g b) = c.tasks := by
      obtain ⟨hl, he⟩ := List.getElem?_eq_some_iff.1 hi'
      rw [← he, List.set_getElem_self]
    rw [hself, ← hs]
    exact .start
  | stop => cases ho
  | @sync f k s tr o s' _ ih =>
    subst hs
    obtain ⟨hi', hothers'⟩ := hset (k c.state >>= g) hi hothers
    obtain ⟨as, hrun, htr, hno⟩ :=
      ih (c := ⟨f c.state, c.tasks.set i (x, k c.state >>= g)⟩) hi' hothers' rfl ho
    rw [List.set_set] at hrun
    exact ⟨.access i f :: as, hrun.cons (.access hi), htr, by simp [hno]⟩
  | @call e k s s₁ tr o s' r hI _ ih =>
    subst hs hI
    have hidle : c.Idle := by
      intro t ht
      obtain ⟨j, hj⟩ := List.getElem?_of_mem ht
      by_cases hji : j = i
      · rw [hji, hi] at hj
        cases hj
        trivial
      · exact hothers j t hji hj
    obtain ⟨hi', hothers'⟩ := hset (k r >>= g) hi hothers
    obtain ⟨as, hrun, htr, hno⟩ :=
      ih (c := ⟨c.state, c.tasks.set i (x, k r >>= g)⟩) hi' hothers' rfl ho
    rw [List.set_set] at hrun
    exact ⟨.answer i ⟨e, r⟩ :: as, hrun.cons (.answer r hidle hi), congrArg (_ :: ·) htr,
      by simp [hno]⟩
  | @choose k s tr o s' b' _ ih =>
    subst hs
    obtain ⟨hi', hothers'⟩ := hset (k b' >>= g) hi hothers
    obtain ⟨as, hrun, htr, hno⟩ :=
      ih (c := ⟨c.state, c.tasks.set i (x, k b' >>= g)⟩) hi' hothers' rfl ho
    rw [List.set_set] at hrun
    exact ⟨.pick i b' :: as, hrun.cons (.pick b' hi), htr, by simp [hno]⟩

/-- So is a run of a whole task. -/
theorem run_task (api : ι → Prog S σ α) {c : Conf S σ α ι} {i : ℕ} {x : ι} {p : Prog S σ α} {s' : σ}
    {tr : List (Ev S)} {a : α} (hi : c.tasks[i]? = some (x, p))
    (hothers : ∀ j t, j ≠ i → c.tasks[j]? = some t → t.2.Idle)
    (h : Prog.Run Eq p c.state tr (some a) s') :
    ∃ as, Lts.Run (Step api) c as ⟨s', c.tasks.set i (x, .ret a)⟩ ∧ events as = tr ∧
      ∀ y, .spawn y ∉ as :=
  run_bind api (g := .ret) (by rw [Prog.bind_ret]; exact hi) hothers h

end Turns

end Async
