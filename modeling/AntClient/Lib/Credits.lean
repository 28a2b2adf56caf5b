/-
  The work of a task: what its requests cost, and what the answers pay for.

  * `Affords T Q p n`: with `n` in hand the task `p` can pay for every request it makes,
    whatever is answered, and has `Q a` left when it returns `a`; an answer may bring
    credit.
  * `Affords.run`: in every run, what was spent is covered by what there was and by the
    credit of the answers.
-/
import AntClient.Lib.Tasks

namespace Async

/-- What a request costs, and what its answer brings. -/
structure Tariff (S : Sig) where
  cost : S.Req → ℕ
  credit : (e : S.Req) → S.Ans e → ℕ

variable {S T : Sig} {σ α β ι ε : Type}

namespace Tariff

/-- What the requests of a run cost. -/
def spent (V : Tariff S) : List (Ev S) → ℕ
  | [] => 0
  | ev :: tr => V.cost ev.req + spent V tr

/-- What the answers of a run have brought. -/
def earned (V : Tariff S) : List (Ev S) → ℕ
  | [] => 0
  | ev :: tr => V.credit ev.req ev.ans + earned V tr

end Tariff

namespace Prog

/-- The task pays for its requests and has the rest left. -/
def Affords (V : Tariff S) (Q : α → ℕ) : Prog S σ α → ℕ → Prop
  | .ret a, n => Q a ≤ n
  | .sync _ k, n => ∀ s, (k s).Affords V Q n
  | .choose k, n => ∀ b, (k b).Affords V Q n
  | .call e k, n => V.cost e ≤ n ∧ ∀ r, (k r).Affords V Q (n - V.cost e + V.credit e r)

variable {V : Tariff S} {Q Q' : α → ℕ} {R : β → ℕ} {m n n' : ℕ}

namespace Affords

theorem mono {p : Prog S σ α} (h : p.Affords V Q n) (hn : n ≤ n') (hQ : ∀ a, Q' a ≤ Q a) :
    p.Affords V Q' n' := by
  induction p generalizing n n' with
  | ret a => exact Nat.le_trans (hQ a) (Nat.le_trans h hn)
  | sync f k ih => exact fun s => ih s (h s) hn
  | choose k ih => exact fun b => ih b (h b) hn
  | call e k ih => exact ⟨Nat.le_trans h.1 hn, fun r => ih r (h.2 r) (by omega)⟩

/-- What is not needed is left. -/
theorem frame {p : Prog S σ α} (h : p.Affords V Q n) (m : ℕ) :
    p.Affords V (fun a => Q a + m) (n + m) := by
  induction p generalizing n with
  | ret a => exact Nat.add_le_add_right h m
  | sync f k ih => exact fun s => ih s (h s)
  | choose k ih => exact fun b => ih b (h b)
  | call e k ih =>
    refine ⟨Nat.le_trans h.1 (Nat.le_add_right n m), fun r => ?_⟩
    have he : n + m - V.cost e + V.credit e r = n - V.cost e + V.credit e r + m := by
      have := h.1
      omega
    rw [he]
    exact ih r (h.2 r)

/-- A task whose requests cost nothing. -/
theorem free (hV : ∀ e, V.cost e = 0) (p : Prog S σ α) : p.Affords V (fun _ => 0) n := by
  induction p generalizing n with
  | ret a => exact Nat.zero_le n
  | sync f k ih => exact fun s => ih s
  | choose k ih => exact fun b => ih b
  | call e k ih => exact ⟨(hV e).symm ▸ Nat.zero_le n, fun r => ih r⟩

theorem bind {p : Prog S σ α} {g : α → Prog S σ β} (hp : p.Affords V Q n)
    (hg : ∀ a, (g a).Affords V R (Q a)) : (p >>= g).Affords V R n := by
  induction p generalizing n with
  | ret a => exact (hg a).mono hp fun _ => Nat.le_refl _
  | sync f k ih => exact fun s => ih s (hp s)
  | choose k ih => exact fun b => ih b (hp b)
  | call e k ih => exact ⟨hp.1, fun r => ih r (hp.2 r)⟩

theorem bindE {Q : Except ε α → ℕ} {R : Except ε β → ℕ} {p : Prog S σ (Except ε α)}
    {g : α → Prog S σ (Except ε β)} (hp : p.Affords V Q n)
    (hg : ∀ a, (g a).Affords V R (Q (.ok a))) (he : ∀ e, R (.error e) ≤ Q (.error e)) :
    (bindE p g).Affords V R n := by
  refine hp.bind fun r => ?_
  cases r with
  | ok a => exact hg a
  | error e => exact he e

/-- A fallible task that leaves nothing, and goes on with what is left over. -/
theorem andThen {R : Except ε β → ℕ} {p : Prog S σ (Except ε α)} {g : α → Prog S σ (Except ε β)}
    (hp : p.Affords V (fun _ => 0) m) (hg : ∀ a, (g a).Affords V R n)
    (he : ∀ e, R (.error e) ≤ n) : (Prog.bindE p g).Affords V R (m + n) := by
  refine (hp.frame n).bindE (fun a => ?_) fun e => ?_
  · exact (hg a).mono (Nat.le_add_left n 0) fun _ => Nat.le_refl _
  · exact Nat.le_trans (he e) (Nat.le_add_left n 0)

theorem bothCall {e : S.Req} {k : S.Ans e → Prog S σ α}
    {p' : S.Ans e → Prog S σ β → Prog S σ (α × β)} (he : V.cost e ≤ m)
    (hk : ∀ r, (k r).Affords V Q (m - V.cost e + V.credit e r))
    (hp : ∀ r q n, q.Affords V R n →
      (p' r q).Affords V (fun x => Q x.1 + R x.2) (m - V.cost e + V.credit e r + n))
    {q : Prog S σ β} (hq : q.Affords V R n) :
    (Prog.bothCall e k p' q).Affords V (fun x => Q x.1 + R x.2) (m + n) := by
  have shift : ∀ r, m + n - V.cost e + V.credit e r = m - V.cost e + V.credit e r + n := by
    intro r
    omega
  induction q generalizing n with
  | ret b =>
    refine ⟨Nat.le_trans he (Nat.le_add_right m n), fun r => ?_⟩
    rw [shift r]
    exact ((hk r).frame n).bind fun a => Nat.add_le_add_left hq (Q a)
  | sync f k' ih => exact fun s => ih s (hq s) shift
  | choose k' ih => exact fun c => ih c (hq c) shift
  | call e' k' ih =>
    intro c
    cases c with
    | true =>
      refine ⟨Nat.le_trans he (Nat.le_add_right m n), fun r => ?_⟩
      rw [shift r]
      exact hp r _ n hq
    | false =>
      refine ⟨Nat.le_trans hq.1 (Nat.le_add_left n m), fun r => ?_⟩
      have hn := hq.1
      have he' : m + n - V.cost e' + V.credit e' r = m + (n - V.cost e' + V.credit e' r) := by omega
      rw [he']
      exact ih r (hq.2 r) fun r => by omega

/-- Two tasks that run concurrently pay together. -/
theorem both {p : Prog S σ α} {q : Prog S σ β} (hp : p.Affords V Q m) (hq : q.Affords V R n) :
    (Prog.both p q).Affords V (fun x => Q x.1 + R x.2) (m + n) := by
  induction p generalizing m n q with
  | ret a =>
    refine Affords.bind (hq.frame (Q a)) (fun b => ?_) |>.mono ?_ fun _ => Nat.le_refl _
    · exact Nat.le_of_eq (Nat.add_comm (Q a) (R b))
    · have : Q a ≤ m := hp
      omega
  | sync f k ih => exact fun s => ih s (hp s) hq
  | choose k ih => exact fun c => ih c (hp c) hq
  | call e k ih => exact bothCall hp.1 hp.2 (fun r q n hq => ih r (hp.2 r) hq) hq

/-- Tasks that run concurrently, each for the same price. -/
theorem joined {f : ι → Prog S σ α} : ∀ is : List ι,
    (∀ i ∈ is, (f i).Affords V (fun _ => m) n) →
      (Prog.joined f is).Affords V (fun _ => is.length * m) (is.length * n)
  | [], _ => Nat.le_of_eq ((Nat.zero_mul m).trans (Nat.zero_mul n).symm)
  | i :: is, h => by
    have hi := h i List.mem_cons_self
    have his := Affords.joined is fun i' hi' => h i' (List.mem_cons_of_mem _ hi')
    have hall : (Prog.joined f (i :: is)).Affords V (fun _ => m + is.length * m) (n + is.length * n) :=
      (hi.both his).bind fun x => Nat.le_refl _
    have hlen : ∀ k, (i :: is).length * k = k + is.length * k := by
      intro k
      rw [List.length_cons, Nat.add_mul, Nat.one_mul, Nat.add_comm]
    exact hall.mono (Nat.le_of_eq (hlen n).symm) fun _ => Nat.le_of_eq (hlen m)

/-- A handler that pays for its requests what they cost. -/
theorem handle {W : Tariff T} {h : ∀ e : T.Req, Prog S σ (T.Ans e)} {p : Prog T σ α}
    (hp : p.Affords W Q n) (hh : ∀ e, (h e).Affords V (W.credit e) (W.cost e)) :
    (p.handle h).Affords V Q n := by
  induction p generalizing n with
  | ret a => exact hp
  | sync f k ih => exact fun s => ih s (hp s)
  | choose k ih => exact fun b => ih b (hp b)
  | call e k ih =>
    have hframe := (hh e).frame (n - W.cost e)
    rw [Nat.add_sub_cancel' hp.1] at hframe
    refine hframe.bind fun r => ?_
    have hr := ih r (hp.2 r)
    rwa [Nat.add_comm] at hr

/-- **What a run spends** is covered by what there was and by the credit of the answers. -/
theorem run {I : σ → σ → Prop} {p : Prog S σ α} {s s' : σ} {tr : List (Ev S)} {o : Option α}
    (hr : Run I p s tr o s') (h : p.Affords V Q n) :
    V.spent tr + o.elim 0 Q ≤ n + V.earned tr := by
  induction hr generalizing n with
  | @ret a s =>
    have hret : Q a ≤ n := h
    simpa [Tariff.spent, Tariff.earned] using hret
  | stop => simp [Tariff.spent]
  | sync _ ih => exact ih (h _)
  | choose b _ ih => exact ih (h b)
  | @call e k s s₁ tr o s' r _ _ ih =>
    have hrest := ih (h.2 r)
    have hcost := h.1
    simp only [Tariff.spent, Tariff.earned] at hrest ⊢
    omega

end Affords

end Prog

end Async
