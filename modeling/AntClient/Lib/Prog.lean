/-
  Resumption programs: sequential code over a shared state that awaits answers
  from its environment.

  * `Prog S σ α` is the syntax of one asynchronous task.  Between two awaits it
    accesses the shared state `σ` atomically (`sync`); at an await it issues a
    request of the signature `S` and resumes with the environment's answer
    (`call`); `choose` is the scheduler's choice between two tasks that could
    both go on.
  * `Run I p s tr o s'` is a finite run of `p`: the answered requests are `tr`,
    the result is `o` (`none` if the run stopped before the end), and while the
    task waits, the other tasks may change the state by a step of `I`.
  * `Safe C Q p` is the rely-guarantee triple for a contract `C`: as long as the
    answers are those `C` allows and the other tasks keep its invariant, the task
    keeps it too, issues only requests that `C` allows, and returns only values
    that satisfy `Q`.
-/
import Mathlib.Data.List.Basic

namespace Async

/-- A signature of requests: what a task may ask, and what may be answered. -/
structure Sig where
  Req : Type
  Ans : Req → Type

/-- An answered request. -/
structure Ev (S : Sig) where
  req : S.Req
  ans : S.Ans req

/-- A task over the shared state `σ` that returns an `α`. -/
inductive Prog (S : Sig) (σ α : Type) where
  | ret (a : α)
  /-- an atomic access to the shared state -/
  | sync (f : σ → σ) (k : σ → Prog S σ α)
  /-- an await -/
  | call (e : S.Req) (k : S.Ans e → Prog S σ α)
  /-- a scheduler's choice -/
  | choose (k : Bool → Prog S σ α)

namespace Prog

variable {S : Sig} {σ α β γ ε : Type}

/-! ## The monad -/

def bind : Prog S σ α → (α → Prog S σ β) → Prog S σ β
  | .ret a, g => g a
  | .sync f k, g => .sync f fun s => (k s).bind g
  | .call e k, g => .call e fun r => (k r).bind g
  | .choose k, g => .choose fun b => (k b).bind g

instance : Monad (Prog S σ) where
  pure := .ret
  bind := bind

@[simp] theorem pure_eq (a : α) : (pure a : Prog S σ α) = .ret a := rfl

@[simp] theorem ret_bind (a : α) (g : α → Prog S σ β) : (.ret a : Prog S σ α) >>= g = g a := rfl

@[simp] theorem sync_bind (f : σ → σ) (k : σ → Prog S σ α) (g : α → Prog S σ β) :
    Prog.sync f k >>= g = .sync f fun s => k s >>= g := rfl

@[simp] theorem call_bind (e : S.Req) (k : S.Ans e → Prog S σ α) (g : α → Prog S σ β) :
    Prog.call e k >>= g = .call e fun r => k r >>= g := rfl

@[simp] theorem choose_bind (k : Bool → Prog S σ α) (g : α → Prog S σ β) :
    Prog.choose k >>= g = .choose fun b => k b >>= g := rfl

theorem bind_assoc (p : Prog S σ α) (f : α → Prog S σ β) (g : β → Prog S σ γ) :
    (p >>= f) >>= g = p >>= fun a => f a >>= g := by
  induction p with
  | ret a => rfl
  | sync h k ih => exact congrArg (Prog.sync h) (funext ih)
  | call e k ih => exact congrArg (Prog.call e) (funext ih)
  | choose k ih => exact congrArg Prog.choose (funext ih)

theorem bind_ret (p : Prog S σ α) : p >>= Prog.ret = p := by
  induction p with
  | ret a => rfl
  | sync h k ih => exact congrArg (Prog.sync h) (funext ih)
  | call e k ih => exact congrArg (Prog.call e) (funext ih)
  | choose k ih => exact congrArg Prog.choose (funext ih)

/-- Await the answer to `e`. -/
def ask (e : S.Req) : Prog S σ (S.Ans e) := .call e .ret

/-- Read the shared state. -/
def read : Prog S σ σ := .sync id .ret

/-! ## Fallible tasks

A task that may fail is a task that returns an `Except`; `bindE` is the `?`
operator. -/

/-- Go on with the value of a fallible task, or return its error. -/
def bindE (p : Prog S σ (Except ε α)) (g : α → Prog S σ (Except ε β)) : Prog S σ (Except ε β) :=
  p >>= fun
    | .ok a => g a
    | .error e => .ret (.error e)

@[simp] theorem ret_ok_bindE (a : α) (g : α → Prog S σ (Except ε β)) :
    bindE (.ret (.ok a)) g = g a := rfl

@[simp] theorem ret_error_bindE (e : ε) (g : α → Prog S σ (Except ε β)) :
    bindE (.ret (.error e)) g = .ret (.error e) := rfl

@[simp] theorem sync_bindE (f : σ → σ) (k : σ → Prog S σ (Except ε α))
    (g : α → Prog S σ (Except ε β)) : bindE (.sync f k) g = .sync f fun s => bindE (k s) g := rfl

@[simp] theorem call_bindE (e : S.Req) (k : S.Ans e → Prog S σ (Except ε α))
    (g : α → Prog S σ (Except ε β)) : bindE (.call e k) g = .call e fun r => bindE (k r) g := rfl

theorem bindE_ret (p : Prog S σ (Except ε α)) : bindE p (fun a => .ret (.ok a)) = p := by
  induction p with
  | ret r => cases r <;> rfl
  | sync f k ih => exact congrArg (Prog.sync f) (funext ih)
  | call e k ih => exact congrArg (Prog.call e) (funext ih)
  | choose k ih => exact congrArg Prog.choose (funext ih)

/-- Two steps that ask for nothing. -/
theorem ret_bindE_ret (r : Except ε α) (f : α → Except ε β) :
    bindE (.ret r : Prog S σ (Except ε α)) (fun a => .ret (f a)) = .ret (r >>= f) := by
  cases r <;> rfl

theorem bind_eq_ok {r : Except ε α} {f : α → Except ε β} {b : β} :
    (r >>= f) = .ok b ↔ ∃ a, r = .ok a ∧ f a = .ok b := by
  constructor
  · intro h
    cases r with
    | error e => cases h
    | ok a => exact ⟨a, rfl, h⟩
  · rintro ⟨a, rfl, h⟩
    exact h

theorem bindE_assoc (p : Prog S σ (Except ε α)) (f : α → Prog S σ (Except ε β))
    (g : β → Prog S σ (Except ε γ)) : bindE (bindE p f) g = bindE p fun a => bindE (f a) g := by
  refine (bind_assoc p _ _).trans (congrArg (p >>= ·) (funext fun r => ?_))
  cases r <;> rfl

/-- What follows a fallible task. -/
theorem bindE_bind (p : Prog S σ (Except ε α)) (f : α → Prog S σ (Except ε β))
    (g : Except ε β → Prog S σ γ) : bindE p f >>= g = p >>= fun
      | .ok a => f a >>= g
      | .error e => g (.error e) := by
  rw [bindE, bind_assoc]
  congr 1
  funext r
  cases r <;> rfl

/-! ## Runs -/

/-- The runs of a task.  `I` is what the other tasks may do to the shared state
    while this one waits. -/
inductive Run (I : σ → σ → Prop) : Prog S σ α → σ → List (Ev S) → Option α → σ → Prop
  | ret {a s} : Run I (.ret a) s [] (some a) s
  | stop {p s} : Run I p s [] none s
  | sync {f k s tr o s'} : Run I (k s) (f s) tr o s' → Run I (.sync f k) s tr o s'
  | call {e k s s₁ tr o s'} (r : S.Ans e) : I s s₁ → Run I (k r) s₁ tr o s' →
      Run I (.call e k) s (⟨e, r⟩ :: tr) o s'
  | choose {k s tr o s'} (b : Bool) : Run I (k b) s tr o s' → Run I (.choose k) s tr o s'

/-- Any interference at all. -/
abbrev Any (σ : Type) : σ → σ → Prop := fun _ _ => True

/-- Interference by tasks that keep the invariant `J`. -/
abbrev Keeping (J : σ → Prop) : σ → σ → Prop := fun s s' => J s → J s'

namespace Run
variable {I I' : σ → σ → Prop}

theorem mono (hI : ∀ s s', I s s' → I' s s') {p : Prog S σ α} {s tr o s'}
    (h : Run I p s tr o s') : Run I' p s tr o s' := by
  induction h with
  | ret => exact .ret
  | stop => exact .stop
  | sync _ ih => exact .sync ih
  | call r hi _ ih => exact .call r (hI _ _ hi) ih
  | choose b _ ih => exact .choose b ih

/-- A run under some interference is a run under any interference. -/
theorem any {p : Prog S σ α} {s tr o s'} (h : Run I p s tr o s') : Run (Any σ) p s tr o s' :=
  h.mono fun _ _ _ => trivial

theorem ret_iff {a : α} {s tr o s'} :
    Run I (.ret a : Prog S σ α) s tr o s' ↔ tr = [] ∧ s' = s ∧ (o = none ∨ o = some a) := by
  constructor
  · intro h; cases h with
    | ret => exact ⟨rfl, rfl, Or.inr rfl⟩
    | stop => exact ⟨rfl, rfl, Or.inl rfl⟩
  · rintro ⟨rfl, rfl, rfl | rfl⟩
    · exact .stop
    · exact .ret

theorem ret_some {a b : α} {s tr s'} (h : Run I (.ret a : Prog S σ α) s tr (some b) s') :
    b = a ∧ tr = [] ∧ s' = s := by
  cases h with
  | ret => exact ⟨rfl, rfl, rfl⟩

theorem sync_some {f : σ → σ} {k : σ → Prog S σ α} {s tr a s'} :
    Run I (.sync f k) s tr (some a) s' ↔ Run I (k s) (f s) tr (some a) s' :=
  ⟨fun h => by cases h with | sync h => exact h, .sync⟩

theorem call_some {e : S.Req} {k : S.Ans e → Prog S σ α} {s tr a s'} :
    Run I (.call e k) s tr (some a) s' ↔
      ∃ r s₁ tr', I s s₁ ∧ tr = ⟨e, r⟩ :: tr' ∧ Run I (k r) s₁ tr' (some a) s' := by
  constructor
  · intro h; cases h with
    | call r hi h => exact ⟨r, _, _, hi, rfl, h⟩
  · rintro ⟨r, s₁, tr', hi, rfl, h⟩; exact .call r hi h

/-- The runs of a sequential composition: stopped in the first part, or a
    complete run of the first part followed by a run of the second. -/
theorem bind_iff {p : Prog S σ α} {g : α → Prog S σ β} {s tr o s'} :
    Run I (p >>= g) s tr o s' ↔ (o = none ∧ Run I p s tr none s') ∨
      ∃ a tr₁ s₁ tr₂, tr = tr₁ ++ tr₂ ∧ Run I p s tr₁ (some a) s₁ ∧ Run I (g a) s₁ tr₂ o s' := by
  constructor
  · intro h
    induction p generalizing s tr with
    | ret a => exact Or.inr ⟨a, [], s, tr, rfl, .ret, h⟩
    | sync f k ih =>
      cases h with
      | stop => exact Or.inl ⟨rfl, .stop⟩
      | sync h =>
        rcases ih _ h with ⟨ho, h⟩ | ⟨a, tr₁, s₁, tr₂, rfl, h₁, h₂⟩
        · exact Or.inl ⟨ho, .sync h⟩
        · exact Or.inr ⟨a, tr₁, s₁, tr₂, rfl, .sync h₁, h₂⟩
    | call e k ih =>
      cases h with
      | stop => exact Or.inl ⟨rfl, .stop⟩
      | call r hi h =>
        rcases ih _ h with ⟨ho, h⟩ | ⟨a, tr₁, s₁, tr₂, rfl, h₁, h₂⟩
        · exact Or.inl ⟨ho, .call r hi h⟩
        · exact Or.inr ⟨a, _, s₁, tr₂, rfl, .call r hi h₁, h₂⟩
    | choose k ih =>
      cases h with
      | stop => exact Or.inl ⟨rfl, .stop⟩
      | choose b h =>
        rcases ih _ h with ⟨ho, h⟩ | ⟨a, tr₁, s₁, tr₂, rfl, h₁, h₂⟩
        · exact Or.inl ⟨ho, .choose b h⟩
        · exact Or.inr ⟨a, tr₁, s₁, tr₂, rfl, .choose b h₁, h₂⟩
  · rintro (⟨rfl, h⟩ | ⟨a, tr₁, s₁, tr₂, rfl, h₁, h₂⟩)
    · generalize ho : (none : Option α) = o at h
      induction h with
      | ret => cases ho
      | stop => exact .stop
      | sync _ ih => exact .sync (ih ho)
      | call r hi _ ih => exact .call r hi (ih ho)
      | choose b _ ih => exact .choose b (ih ho)
    · generalize ho : some a = o' at h₁
      induction h₁ with
      | ret => cases ho; exact h₂
      | stop => cases ho
      | sync _ ih => exact .sync (ih h₂ ho)
      | call r hi _ ih => exact .call r hi (ih h₂ ho)
      | choose b _ ih => exact .choose b (ih h₂ ho)

theorem bind_some {p : Prog S σ α} {g : α → Prog S σ β} {s tr b s'} :
    Run I (p >>= g) s tr (some b) s' ↔
      ∃ a tr₁ s₁ tr₂, tr = tr₁ ++ tr₂ ∧ Run I p s tr₁ (some a) s₁ ∧
        Run I (g a) s₁ tr₂ (some b) s' := by
  rw [bind_iff]; simp

theorem seq {p : Prog S σ α} {g : α → Prog S σ β} {s tr₁ a s₁ tr₂ o s'}
    (h : Run I p s tr₁ (some a) s₁) (hg : Run I (g a) s₁ tr₂ o s') :
    Run I (p >>= g) s (tr₁ ++ tr₂) o s' :=
  bind_iff.2 (Or.inr ⟨a, tr₁, s₁, tr₂, rfl, h, hg⟩)

/-- The runs of `p?` followed by `g`: stopped in `p`, `p` failed, or `p` returned
    a value and `g` went on. -/
theorem bindE_iff {p : Prog S σ (Except ε α)} {g : α → Prog S σ (Except ε β)} {s tr o s'} :
    Run I (bindE p g) s tr o s' ↔ (o = none ∧ Run I p s tr none s') ∨
      (∃ e, (o = none ∨ o = some (.error e)) ∧ Run I p s tr (some (.error e)) s') ∨
      ∃ a tr₁ s₁ tr₂, tr = tr₁ ++ tr₂ ∧ Run I p s tr₁ (some (.ok a)) s₁ ∧
        Run I (g a) s₁ tr₂ o s' := by
  unfold bindE
  rw [bind_iff]
  refine or_congr_right ⟨?_, ?_⟩
  · rintro ⟨e | a, tr₁, s₁, tr₂, rfl, h₁, h₂⟩
    · obtain ⟨rfl, rfl, ho⟩ := ret_iff.1 h₂
      exact Or.inl ⟨e, ho, by simpa using h₁⟩
    · exact Or.inr ⟨a, tr₁, s₁, tr₂, rfl, h₁, h₂⟩
  · rintro (⟨e, ho, h⟩ | ⟨a, tr₁, s₁, tr₂, rfl, h₁, h₂⟩)
    · exact ⟨.error e, tr, s', [], by simp, h, ret_iff.2 ⟨rfl, rfl, ho⟩⟩
    · exact ⟨.ok a, tr₁, s₁, tr₂, rfl, h₁, h₂⟩

theorem seqE {p : Prog S σ (Except ε α)} {g : α → Prog S σ (Except ε β)} {s tr₁ a s₁ tr₂ o s'}
    (h : Run I p s tr₁ (some (.ok a)) s₁) (hg : Run I (g a) s₁ tr₂ o s') :
    Run I (bindE p g) s (tr₁ ++ tr₂) o s' :=
  bindE_iff.2 (Or.inr (Or.inr ⟨a, tr₁, s₁, tr₂, rfl, h, hg⟩))

theorem bindE_ok {p : Prog S σ (Except ε α)} {g : α → Prog S σ (Except ε β)} {s tr b s'}
    (h : Run I (bindE p g) s tr (some (.ok b)) s') :
    ∃ a tr₁ s₁ tr₂, tr = tr₁ ++ tr₂ ∧ Run I p s tr₁ (some (.ok a)) s₁ ∧
      Run I (g a) s₁ tr₂ (some (.ok b)) s' := by
  rcases bindE_iff.1 h with ⟨ho, -⟩ | ⟨e, ho, -⟩ | h
  · cases ho
  · rcases ho with ho | ho <;> cases ho
  · exact h

end Run

/-! ## Execution -/

section
variable (answer : ∀ e, S.Ans e)

/-- Run a task alone, in an environment that answers as `answer` says: the events,
    the result and the final state. -/
def exec : Prog S σ α → σ → List (Ev S) × α × σ
  | .ret a, s => ([], a, s)
  | .sync f k, s => exec (k s) (f s)
  | .call e k, s => (⟨e, answer e⟩ :: (exec (k (answer e)) s).1, (exec (k (answer e)) s).2)
  | .choose k, s => exec (k true) s

/-- An execution is a run. -/
theorem exec_run {I : σ → σ → Prop} (hI : ∀ s, I s s) (p : Prog S σ α) (s : σ) :
    Run I p s (p.exec answer s).1 (some (p.exec answer s).2.1) (p.exec answer s).2.2 := by
  induction p generalizing s with
  | ret a => exact .ret
  | sync f k ih => exact .sync (ih s (f s))
  | call e k ih => exact .call _ (hI s) (ih _ s)
  | choose k ih => exact .choose true (ih true s)

theorem exec_answers (p : Prog S σ α) (s : σ) :
    ∀ ev ∈ (p.exec answer s).1, ev.ans = answer ev.req := by
  induction p generalizing s with
  | ret a => simp [exec]
  | sync f k ih => exact ih s (f s)
  | call e k ih => exact List.forall_mem_cons.2 ⟨rfl, ih _ s⟩
  | choose k ih => exact ih true s

end

theorem exec_bind (answer : ∀ e, S.Ans e) (p : Prog S σ α) (g : α → Prog S σ β) (s : σ) :
    (p >>= g).exec answer s =
      ((p.exec answer s).1 ++ ((g (p.exec answer s).2.1).exec answer (p.exec answer s).2.2).1,
        ((g (p.exec answer s).2.1).exec answer (p.exec answer s).2.2).2) := by
  induction p generalizing s with
  | ret a => rfl
  | sync f k ih => exact ih s (f s)
  | call e k ih =>
    show (_ :: ((k (answer e) >>= g).exec answer s).1, ((k (answer e) >>= g).exec answer s).2) = _
    rw [ih]
    rfl
  | choose k ih => exact ih true s

/-- In an environment that answers every request there is a complete run. -/
theorem Run.exists_of_total {I : σ → σ → Prop} (hI : ∀ s, I s s) {E : Ev S → Prop}
    (hE : ∀ e, ∃ r, E ⟨e, r⟩) (p : Prog S σ α) (s : σ) :
    ∃ tr a s', Run I p s tr (some a) s' ∧ ∀ ev ∈ tr, E ev := by
  choose answer hanswer using hE
  refine ⟨_, _, _, exec_run answer hI p s, fun ev hev => ?_⟩
  obtain ⟨e, r⟩ := ev
  obtain rfl : r = answer e := exec_answers answer p s _ hev
  exact hanswer e

/-! ## Safety triples -/

/-- A contract between a task and its environment. -/
structure Contract (S : Sig) (σ : Type) where
  /-- the invariant of the shared state, kept by everyone -/
  inv : σ → Prop
  /-- the requests the task may issue -/
  asks : S.Req → Prop
  /-- the answers the environment may give -/
  gets : ∀ e, S.Ans e → Prop

/-- The task keeps its side of the contract, and returns only values that satisfy
    `Q`. -/
def Safe (C : Contract S σ) (Q : α → Prop) : Prog S σ α → Prop
  | .ret a => Q a
  | .sync f k => ∀ s, C.inv s → C.inv (f s) ∧ (k s).Safe C Q
  | .call e k => C.asks e ∧ ∀ r, C.gets e r → (k r).Safe C Q
  | .choose k => ∀ b, (k b).Safe C Q

/-- Every access of the task to the shared state is one of `F`. -/
def Accesses (F : (σ → σ) → Prop) : Prog S σ α → Prop
  | .ret _ => True
  | .sync f k => F f ∧ ∀ s, Accesses F (k s)
  | .call _ k => ∀ r, Accesses F (k r)
  | .choose k => ∀ b, Accesses F (k b)

namespace Safe
variable {C : Contract S σ} {Q Q' : α → Prop}

theorem mono (hQ : ∀ a, Q a → Q' a) {p : Prog S σ α} (h : p.Safe C Q) : p.Safe C Q' := by
  induction p with
  | ret a => exact hQ a h
  | sync f k ih => exact fun s hs => ⟨(h s hs).1, ih s (h s hs).2⟩
  | call e k ih => exact ⟨h.1, fun r hr => ih r (h.2 r hr)⟩
  | choose k ih => exact fun b => ih b (h b)

theorem bind {R : β → Prop} {p : Prog S σ α} {g : α → Prog S σ β} (h : p.Safe C Q)
    (hg : ∀ a, Q a → (g a).Safe C R) : (p >>= g).Safe C R := by
  induction p with
  | ret a => exact hg a h
  | sync f k ih => exact fun s hs => ⟨(h s hs).1, ih s (h s hs).2⟩
  | call e k ih => exact ⟨h.1, fun r hr => ih r (h.2 r hr)⟩
  | choose k ih => exact fun b => ih b (h b)

theorem bindE {Q : Except ε α → Prop} {R : Except ε β → Prop} {p : Prog S σ (Except ε α)}
    {g : α → Prog S σ (Except ε β)} (h : p.Safe C Q) (hg : ∀ a, Q (.ok a) → (g a).Safe C R)
    (he : ∀ e, Q (.error e) → R (.error e)) : (Prog.bindE p g).Safe C R :=
  h.bind fun r hr => match r with
    | .ok a => hg a hr
    | .error e => he e hr

/-- A task that keeps to the requests `A` keeps a contract that allows only these. -/
theorem restrict {A : S.Req → Prop} {p : Prog S σ α} (h : p.Safe C Q)
    (hA : p.Safe { C with asks := A } fun _ => True) : p.Safe { C with asks := A } Q := by
  induction p with
  | ret a => exact h
  | sync f k ih => exact fun s hs => ⟨(h s hs).1, ih s (h s hs).2 (hA s hs).2⟩
  | call e k ih => exact ⟨hA.1, fun r hr => ih r (h.2 r hr) (hA.2 r hr)⟩
  | choose k ih => exact fun b => ih b (h b) (hA b)

/-- `Q` holds of the value, if there is one. -/
def IfOk (Q : α → Prop) (r : Except ε α) : Prop := ∀ a, r = .ok a → Q a

theorem bindE_ok {Q : α → Prop} {R : β → Prop} {p : Prog S σ (Except ε α)}
    {g : α → Prog S σ (Except ε β)} (h : p.Safe C (IfOk Q))
    (hg : ∀ a, Q a → (g a).Safe C (IfOk R)) : (Prog.bindE p g).Safe C (IfOk R) :=
  bindE h (fun a ha => hg a (ha a rfl)) fun _ _ _ he => by cases he

theorem ret_ok {Q : α → Prop} {a : α} (h : Q a) :
    (.ret (.ok a) : Prog S σ (Except ε α)).Safe C (IfOk Q) := by
  rintro b ⟨⟩
  exact h

theorem ret_error {Q : α → Prop} {e : ε} :
    (.ret (.error e) : Prog S σ (Except ε α)).Safe C (IfOk Q) := by
  rintro b ⟨⟩

/-- A contract that promises nothing is kept by every task. -/
theorem trivial (hi : ∀ s, C.inv s) (ha : ∀ e, C.asks e) (p : Prog S σ α) :
    p.Safe C fun _ => True := by
  induction p with
  | ret a => exact True.intro
  | sync f k ih => exact fun s _ => ⟨hi _, ih s⟩
  | call e k ih => exact ⟨ha e, fun r _ => ih r⟩
  | choose k ih => exact ih

/-- A task whose accesses keep the invariant is safe. -/
theorem of_accesses {F : (σ → σ) → Prop} (hF : ∀ f, F f → ∀ s, C.inv s → C.inv (f s))
    (ha : ∀ e, C.asks e) {p : Prog S σ α} (h : p.Accesses F) : p.Safe C fun _ => True := by
  induction p with
  | ret a => exact True.intro
  | sync f k ih => exact fun s hs => ⟨hF f h.1 s hs, ih s (h.2 s)⟩
  | call e k ih => exact ⟨ha e, fun r _ => ih r (h r)⟩
  | choose k ih => exact fun b => ih b (h b)

/-- **Soundness of the triples**: in a run from a state that satisfies the
    invariant, with interference that keeps it and with allowed answers only, the
    invariant holds at the end, the requests are allowed, and so is the result. -/
theorem run {p : Prog S σ α} {s tr o s'} (hr : Run (Keeping C.inv) p s tr o s')
    (h : p.Safe C Q) (hs : C.inv s) (ha : ∀ ev ∈ tr, C.gets ev.req ev.ans) :
    C.inv s' ∧ (∀ ev ∈ tr, C.asks ev.req) ∧ ∀ a, o = some a → Q a := by
  induction hr with
  | ret => exact ⟨hs, by simp, fun _ ha => by cases ha; exact h⟩
  | stop => exact ⟨hs, by simp, by simp⟩
  | sync _ ih => exact ih (h _ hs).2 (h _ hs).1 ha
  | call r hi _ ih =>
    obtain ⟨hr, ha⟩ := List.forall_mem_cons.1 ha
    obtain ⟨h1, h2, h3⟩ := ih (h.2 r hr) (hi hs) ha
    exact ⟨h1, List.forall_mem_cons.2 ⟨h.1, h2⟩, h3⟩
  | choose b _ ih => exact ih (h b) hs ha

/-- In an environment that answers as the contract says, the invariant and the
    result are as the triple says. -/
theorem exec {answer : ∀ e, S.Ans e} {p : Prog S σ α} (h : p.Safe C Q)
    (hg : ∀ e, C.gets e (answer e)) {s : σ} (hs : C.inv s) :
    C.inv (p.exec answer s).2.2 ∧ Q (p.exec answer s).2.1 := by
  have hr := exec_run answer (I := Keeping C.inv) (fun _ h => h) p s
  obtain ⟨h1, -, h3⟩ := run hr h hs fun ev hev => exec_answers answer p s ev hev ▸ hg ev.req
  exact ⟨h1, h3 _ rfl⟩

end Safe

/-- The contract that constrains the answers only: they are among the events `E`. -/
def Contract.answers (E : Ev S → Prop) : Contract S σ where
  inv _ := True
  asks _ := True
  gets e r := E ⟨e, r⟩

/-- In a run whose answers are among `E`, whatever the other tasks do, the result
    is as the triple says. -/
theorem Safe.run_answers {E : Ev S → Prop} {Q : α → Prop} {I : σ → σ → Prop} {p : Prog S σ α}
    {s tr a s'} (h : p.Safe (.answers E) Q) (hr : Run I p s tr (some a) s')
    (ha : ∀ ev ∈ tr, E ev) : Q a :=
  (Safe.run (hr.mono fun _ _ _ _ => True.intro) h True.intro ha).2.2 a rfl

/-- In an environment that answers every request there is a complete run, and its
    result is as the triple says. -/
theorem Safe.exists_run {E : Ev S → Prop} {Q : α → Prop} {p : Prog S σ α}
    (h : p.Safe (.answers E) Q) (hE : ∀ e, ∃ r, E ⟨e, r⟩) (s : σ) :
    ∃ tr a s', Run (Any σ) p s tr (some a) s' ∧ (∀ ev ∈ tr, E ev) ∧ Q a := by
  obtain ⟨tr, a, s', hr, ha⟩ := Run.exists_of_total (I := Any σ) (fun _ => True.intro) hE p s
  exact ⟨tr, a, s', hr, ha, h.run_answers hr ha⟩

end Prog

end Async
