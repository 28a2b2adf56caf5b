/-
  Combining tasks.

  * `both p q` runs two tasks concurrently, `joined f is` one task `f i` for each
    `i` of a list: between two awaits any task may go on, and the results come
    back in the order of the list.
  * `handle h p` implements the requests of `p` by tasks over another signature;
    `Run.handled` makes a run of the implementation of a run of `p` and of one
    run of a handler for each of its requests.
  * `Reach api init` are the configurations of a system in which tasks of `api`
    are started at any time and interleaved in any order; `Reach.safe` is the
    invariant rule for it.
-/
import AntClient.Lib.Prog
import Mathlib.Data.List.Induction

namespace Async

namespace Prog

variable {S T : Sig} {σ α β ι : Type}

/-! ## Concurrent composition -/

/-- `both` for a first task that awaits the answer to `e`; `p'` are its
    continuations, already combined with what follows. -/
def bothCall (e : S.Req) (k : S.Ans e → Prog S σ α)
    (p' : S.Ans e → Prog S σ β → Prog S σ (α × β)) : Prog S σ β → Prog S σ (α × β)
  | .ret b => .call e fun r => k r >>= fun a => .ret (a, b)
  | .sync f k' => .sync f fun s => bothCall e k p' (k' s)
  | .choose k' => .choose fun c => bothCall e k p' (k' c)
  | .call e' k' => .choose fun c =>
      if c then .call e fun r => p' r (.call e' k') else .call e' fun r => bothCall e k p' (k' r)

/-- Run two tasks concurrently. -/
def both : Prog S σ α → Prog S σ β → Prog S σ (α × β)
  | .ret a, q => q >>= fun b => .ret (a, b)
  | .sync f k, q => .sync f fun s => both (k s) q
  | .choose k, q => .choose fun c => both (k c) q
  | .call e k, q => bothCall e k (fun r => both (k r)) q

/-- Run the tasks `f i` concurrently and collect their results in order. -/
def joined (f : ι → Prog S σ α) : (is : List ι) → Prog S σ {as : List α // as.length = is.length}
  | [] => .ret ⟨[], rfl⟩
  | i :: is => both (f i) (joined f is) >>= fun x => .ret ⟨x.1 :: x.2.1, by simp [x.2.2]⟩

section
variable {C : Contract S σ} {Q : α → Prop} {R : β → Prop}

theorem Safe.bothCall {e : S.Req} {k : S.Ans e → Prog S σ α}
    {p' : S.Ans e → Prog S σ β → Prog S σ (α × β)} (he : C.asks e)
    (hk : ∀ r, C.gets e r → (k r).Safe C Q)
    (hp : ∀ r q, C.gets e r → q.Safe C R → (p' r q).Safe C fun x => Q x.1 ∧ R x.2)
    {q : Prog S σ β} (hq : q.Safe C R) :
    (Prog.bothCall e k p' q).Safe C fun x => Q x.1 ∧ R x.2 := by
  induction q with
  | ret b => exact ⟨he, fun r hr => (hk r hr).bind fun a ha => ⟨ha, hq⟩⟩
  | sync f k' ih => exact fun s hs => ⟨(hq s hs).1, ih s (hq s hs).2⟩
  | choose k' ih => exact fun c => ih c (hq c)
  | call e' k' ih =>
    intro c
    cases c with
    | true => exact ⟨he, fun r hr => hp r _ hr hq⟩
    | false => exact ⟨hq.1, fun r hr => ih r (hq.2 r hr)⟩

/-- Two safe tasks are safe together. -/
theorem Safe.both {p : Prog S σ α} {q : Prog S σ β} (hp : p.Safe C Q) (hq : q.Safe C R) :
    (Prog.both p q).Safe C fun x => Q x.1 ∧ R x.2 := by
  induction p generalizing q with
  | ret a => exact Safe.bind hq fun b hb => ⟨hp, hb⟩
  | sync f k ih => exact fun s hs => ⟨(hp s hs).1, ih s (hp s hs).2 hq⟩
  | choose k ih => exact fun c => ih c (hp c) hq
  | call e k ih => exact Safe.bothCall hp.1 hp.2 (fun r q hr hq => ih r (hp.2 r hr) hq) hq

theorem Safe.joined {f : ι → Prog S σ α} {Q : ι → α → Prop} : ∀ {is : List ι},
    (∀ i ∈ is, (f i).Safe C (Q i)) →
    (Prog.joined f is).Safe C fun as => List.Forall₂ Q is as.1
  | [], _ => .nil
  | i :: is, h => by
    have hi := h i List.mem_cons_self
    have his : (Prog.joined f is).Safe C fun as => List.Forall₂ Q is as.1 :=
      Safe.joined fun i' hi' => h i' (List.mem_cons_of_mem _ hi')
    exact (hi.both his).bind fun x hx => .cons hx.1 hx.2

end

/-! ## Handlers -/

/-- Implement the requests of a task by tasks over another signature. -/
def handle (h : ∀ e : T.Req, Prog S σ (T.Ans e)) : Prog T σ α → Prog S σ α
  | .ret a => .ret a
  | .sync f k => .sync f fun s => handle h (k s)
  | .choose k => .choose fun c => handle h (k c)
  | .call e k => h e >>= fun r => handle h (k r)

theorem handle_bind (h : ∀ e : T.Req, Prog S σ (T.Ans e)) (p : Prog T σ α)
    (g : α → Prog T σ β) : (p >>= g).handle h = p.handle h >>= fun a => (g a).handle h := by
  induction p with
  | ret a => rfl
  | sync f k ih => exact congrArg (Prog.sync f) (funext ih)
  | choose k ih => exact congrArg Prog.choose (funext ih)
  | call e k ih =>
    show (h e >>= fun r => handle h (k r >>= g)) = (h e >>= fun r => handle h (k r)) >>= _
    rw [bind_assoc]
    exact congrArg (h e >>= ·) (funext ih)

theorem handle_bindE {ε : Type} (h : ∀ e : T.Req, Prog S σ (T.Ans e)) (p : Prog T σ (Except ε α))
    (g : α → Prog T σ (Except ε β)) :
    (bindE p g).handle h = bindE (p.handle h) fun a => (g a).handle h := by
  refine (handle_bind h p _).trans (congrArg (p.handle h >>= ·) (funext fun r => ?_))
  cases r <;> rfl

theorem handle_ask (h : ∀ e : T.Req, Prog S σ (T.Ans e)) (e : T.Req) :
    (ask e).handle h = h e := by
  have hret : ∀ p : Prog S σ (T.Ans e), (p >>= fun r => .ret r) = p := by
    intro p
    induction p with
    | ret a => rfl
    | sync f k ih => exact congrArg (Prog.sync f) (funext ih)
    | choose k ih => exact congrArg Prog.choose (funext ih)
    | call e k ih => exact congrArg (Prog.call e) (funext ih)
  exact hret (h e)

/-- A run of a task, each of whose events a handler can bring about, by events of some kind. -/
theorem Run.handled {h : ∀ e : T.Req, Prog S σ (T.Ans e)} {p : Prog T σ α} {s H a s'}
    {P : Ev T → List (Ev S) → Prop} (hr : Run Eq p s H (some a) s')
    (hh : ∀ ev ∈ H, ∀ s, ∃ tr, Run Eq (h ev.req) s tr (some ev.ans) s ∧ P ev tr) :
    ∃ tr, Run Eq (p.handle h) s tr (some a) s' ∧
      ∀ ev ∈ H, ∃ pre tr' post, tr = pre ++ (tr' ++ post) ∧ P ev tr' := by
  generalize ho : some a = o at hr
  induction hr with
  | ret =>
    cases ho
    exact ⟨[], .ret, by simp⟩
  | stop => cases ho
  | sync _ ih =>
    obtain ⟨tr, hrun, hP⟩ := ih hh ho
    exact ⟨tr, .sync hrun, hP⟩
  | choose b _ ih =>
    obtain ⟨tr, hrun, hP⟩ := ih hh ho
    exact ⟨tr, .choose b hrun, hP⟩
  | call r hI _ ih =>
    subst hI
    obtain ⟨hev, hH⟩ := List.forall_mem_cons.1 hh
    obtain ⟨tr₁, hrun₁, hP₁⟩ := hev _
    obtain ⟨tr₂, hrun₂, hP₂⟩ := ih hH ho
    refine ⟨tr₁ ++ tr₂, hrun₁.seq hrun₂, List.forall_mem_cons.2 ⟨⟨[], tr₁, tr₂, rfl, hP₁⟩, ?_⟩⟩
    intro ev hev'
    obtain ⟨pre, tr', post, rfl, hP⟩ := hP₂ ev hev'
    exact ⟨tr₁ ++ pre, tr', post, (List.append_assoc _ _ _).symm, hP⟩

/-- A safe task with handlers that answer as its contract says is safe under the
    contract of the handlers. -/
theorem Safe.handle {C : Contract S σ} {D : Contract T σ} (hinv : D.inv = C.inv) {Q : α → Prop}
    {h : ∀ e : T.Req, Prog S σ (T.Ans e)} {p : Prog T σ α} (hp : p.Safe D Q)
    (hh : ∀ e, D.asks e → (h e).Safe C (D.gets e)) : (p.handle h).Safe C Q := by
  induction p with
  | ret a => exact hp
  | sync f k ih =>
    exact fun s hs => ⟨hinv ▸ (hp s (hinv ▸ hs)).1, ih s (hp s (hinv ▸ hs)).2⟩
  | choose k ih => exact fun c => ih c (hp c)
  | call e k ih => exact (hh e hp.1).bind fun r hr => ih r (hp.2 r hr)

/-! ## Systems of tasks -/

/-- The reachable configurations of a system: the shared state, the tasks started
    so far, and the answered requests.  A task of `api` may start at any time;
    any task may take its next step. -/
inductive Reach (api : Prog S σ Unit → Prop) (init : σ → Prop) :
    σ → List (Prog S σ Unit) → List (Ev S) → Prop
  | init {s} : init s → Reach api init s [] []
  | spawn {s ts tr p} : Reach api init s ts tr → api p → Reach api init s (ts ++ [p]) tr
  | sync {s ts tr i f k} : Reach api init s ts tr → ts[i]? = some (.sync f k) →
      Reach api init (f s) (ts.set i (k s)) tr
  | call {s ts tr i e k} : Reach api init s ts tr → ts[i]? = some (.call e k) → (r : S.Ans e) →
      Reach api init s (ts.set i (k r)) (tr ++ [⟨e, r⟩])
  | choose {s ts tr i k} : Reach api init s ts tr → ts[i]? = some (.choose k) → (c : Bool) →
      Reach api init s (ts.set i (k c)) tr

/-- A run of one task, while the others wait, is a run of the system. -/
theorem Reach.run_task {api : Prog S σ Unit → Prop} {init : σ → Prop} {p : Prog S σ Unit}
    {s s' : σ} {tr' : List (Ev S)} {o : Option Unit} (hrun : Run Eq p s tr' o s') {ts : List _}
    {tr : List (Ev S)} (h : Reach api init s ts tr) {i : ℕ} (hi : ts[i]? = some p) :
    ∃ q, Reach api init s' (ts.set i q) (tr ++ tr') := by
  have hset : ∀ {ts : List (Prog S σ Unit)} {p : Prog S σ Unit} (q), ts[i]? = some p →
      (ts.set i q)[i]? = some q := fun q hi => by simp [(List.getElem?_eq_some_iff.1 hi).1]
  induction hrun generalizing ts tr with
  | ret | stop =>
    obtain ⟨hl, -⟩ := List.getElem?_eq_some_iff.1 hi
    refine ⟨ts[i], ?_⟩
    rw [List.set_getElem_self hl, List.append_nil]
    exact h
  | sync _ ih =>
    obtain ⟨q, hq⟩ := ih (h.sync hi) (hset _ hi)
    rw [List.set_set] at hq
    exact ⟨q, hq⟩
  | choose b _ ih =>
    obtain ⟨q, hq⟩ := ih (h.choose hi b) (hset _ hi)
    rw [List.set_set] at hq
    exact ⟨q, hq⟩
  | call r hI _ ih =>
    subst hI
    obtain ⟨q, hq⟩ := ih (h.call hi r) (hset _ hi)
    rw [List.set_set, List.append_assoc] at hq
    exact ⟨q, hq⟩

/-- **The invariant rule**: if every task of the system is safe and the answers are
    allowed, the invariant holds in every reachable state, and every request ever issued is
    allowed; what the tasks still have to do is safe too. -/
theorem Reach.safe {api : Prog S σ Unit → Prop} {init : σ → Prop} {C : Contract S σ}
    (hinit : ∀ s, init s → C.inv s) (hapi : ∀ p, api p → p.Safe C fun _ => True)
    {s ts tr} (h : Reach api init s ts tr) (ha : ∀ ev ∈ tr, C.gets ev.req ev.ans) :
    C.inv s ∧ (∀ p ∈ ts, p.Safe C fun _ => True) ∧ ∀ ev ∈ tr, C.asks ev.req := by
  induction h with
  | init hs => exact ⟨hinit _ hs, by simp, by simp⟩
  | spawn _ hp ih =>
    have ih := ih ha
    refine ⟨ih.1, fun p hm => ?_, ih.2.2⟩
    rcases List.mem_append.1 hm with hm | hm
    · exact ih.2.1 p hm
    · exact List.mem_singleton.1 hm ▸ hapi _ hp
  | sync _ hi ih =>
    have ih := ih ha
    have hp := ih.2.1 _ (List.mem_of_getElem? hi) _ ih.1
    exact ⟨hp.1, fun p hm => (List.mem_or_eq_of_mem_set hm).elim (ih.2.1 p) (· ▸ hp.2), ih.2.2⟩
  | call _ hi r ih =>
    have ih := ih fun ev hev => ha ev (List.mem_append_left _ hev)
    have hr := ha ⟨_, r⟩ (List.mem_append_right _ List.mem_cons_self)
    have hp := ih.2.1 _ (List.mem_of_getElem? hi)
    refine ⟨ih.1, fun p hm => (List.mem_or_eq_of_mem_set hm).elim (ih.2.1 p) (· ▸ hp.2 r hr), ?_⟩
    intro ev hev
    rcases List.mem_append.1 hev with hev | hev
    · exact ih.2.2 ev hev
    · exact List.mem_singleton.1 hev ▸ hp.1
  | choose _ hi c ih =>
    have ih := ih ha
    have hp := ih.2.1 _ (List.mem_of_getElem? hi)
    exact ⟨ih.1, fun p hm => (List.mem_or_eq_of_mem_set hm).elim (ih.2.1 p) (· ▸ hp c), ih.2.2⟩

/-- **Requests and what came before them**: if the tasks are safe for the answers given so
    far, whatever these are, each request is one that those before it allow. -/
theorem Reach.asks_before {api : Prog S σ Unit → Prop} {init : σ → Prop}
    {K : (Ev S → Prop) → Contract S σ} (hinit : ∀ E s, init s → (K E).inv s)
    (hapi : ∀ E p, api p → p.Safe (K E) fun _ => True) (hgets : ∀ E e r, E ⟨e, r⟩ → (K E).gets e r)
    {s ts tr} (h : Reach api init s ts tr) :
    ∀ pre ev post, tr = pre ++ ev :: post → (K (· ∈ pre)).asks ev.req := by
  induction h with
  | init => simp
  | spawn _ _ ih | sync _ _ ih | choose _ _ _ ih => exact ih
  | @call s ts tr i e k h hi r ih =>
    intro pre ev post he
    induction post using List.reverseRecOn with
    | nil =>
      obtain ⟨rfl, hev⟩ := List.append_inj' he rfl
      obtain rfl := List.singleton_inj.1 hev
      have hsafe := h.safe (C := K (· ∈ tr)) (hinit _) (hapi _) fun ev hev => hgets _ _ _ hev
      exact (hsafe.2.1 _ (List.mem_of_getElem? hi)).1
    | append_singleton post last _ =>
      rw [← List.cons_append, ← List.append_assoc] at he
      exact ih pre ev post (List.append_inj' he rfl).1

end Prog

end Async
