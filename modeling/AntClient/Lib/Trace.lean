/-
  Trace triples: what a task that runs to its end has asked and been answered.

  * `Traced J Q p`: from a state that satisfies the invariant `J`, among tasks that
    keep it, every complete run of `p` keeps `J`, and `Q` holds of its events and
    its result.  The rules follow the constructors of `Prog`.
  * `Run.extend`: a run that has stopped can go on to the end.
-/
import AntClient.Lib.Prog

namespace Async

namespace Prog

variable {S : Sig} {σ α β ε : Type}

def Traced (J : σ → Prop) (Q : List (Ev S) → α → Prop) (p : Prog S σ α) : Prop :=
  ∀ s tr a s', J s → Run (Keeping J) p s tr (some a) s' → J s' ∧ Q tr a

namespace Traced
variable {J : σ → Prop} {Q Q' : List (Ev S) → α → Prop}

theorem mono {p : Prog S σ α} (h : p.Traced J Q) (hQ : ∀ tr a, Q tr a → Q' tr a) :
    p.Traced J Q' := fun s tr a s' hs hr =>
  ⟨(h s tr a s' hs hr).1, hQ tr a (h s tr a s' hs hr).2⟩

theorem ret {a : α} (h : Q [] a) : (.ret a : Prog S σ α).Traced J Q := by
  intro s tr b s' hs hr
  obtain ⟨rfl, rfl, rfl⟩ := Run.ret_some hr
  exact ⟨hs, h⟩

theorem sync {f : σ → σ} {k : σ → Prog S σ α} (h : ∀ s, J s → J (f s) ∧ (k s).Traced J Q) :
    (Prog.sync f k).Traced J Q := by
  intro s tr a s' hs hr
  exact (h s hs).2 _ _ _ _ (h s hs).1 (Run.sync_some.1 hr)

theorem call {e : S.Req} {k : S.Ans e → Prog S σ α}
    (h : ∀ r, (k r).Traced J fun tr => Q (⟨e, r⟩ :: tr)) : (Prog.call e k).Traced J Q := by
  intro s tr a s' hs hr
  obtain ⟨r, s₁, tr', hi, rfl, hk⟩ := Run.call_some.1 hr
  exact h r _ _ _ _ (hi hs) hk

theorem bind {R : List (Ev S) → α → Prop} {Q : List (Ev S) → β → Prop} {p : Prog S σ α}
    {g : α → Prog S σ β} (h : p.Traced J R)
    (hg : ∀ tr a, R tr a → (g a).Traced J fun tr' => Q (tr ++ tr')) : (p >>= g).Traced J Q := by
  intro s tr b s' hs hr
  obtain ⟨a, tr₁, s₁, tr₂, rfl, h₁, h₂⟩ := Run.bind_some.1 hr
  obtain ⟨hs₁, hR⟩ := h _ _ _ _ hs h₁
  exact hg tr₁ a hR _ _ _ _ hs₁ h₂

theorem bindE {R : List (Ev S) → Except ε α → Prop} {Q : List (Ev S) → Except ε β → Prop}
    {p : Prog S σ (Except ε α)} {g : α → Prog S σ (Except ε β)} (h : p.Traced J R)
    (hg : ∀ tr a, R tr (.ok a) → (g a).Traced J fun tr' => Q (tr ++ tr'))
    (he : ∀ tr e, R tr (.error e) → Q tr (.error e)) : (Prog.bindE p g).Traced J Q := by
  refine h.bind fun tr r hR => ?_
  cases r with
  | ok a => exact hg tr a hR
  | error e => exact ret ((List.append_nil tr).symm ▸ he tr e hR)

/-- What a safety triple says of the events and the result. -/
theorem of_safe {R : α → Prop} {C : Contract S σ} {p : Prog S σ α}
    (hg : ∀ e r, C.gets e r) (h : p.Safe C R) :
    p.Traced C.inv fun tr a => (∀ ev ∈ tr, C.asks ev.req) ∧ R a := by
  intro s tr a s' hs hr
  obtain ⟨h1, h2, h3⟩ := Safe.run hr h hs fun ev _ => hg _ _
  exact ⟨h1, h2, h3 a rfl⟩

end Traced

/-- A run that has stopped can go on to the end. -/
theorem Run.extend {I : σ → σ → Prop} (hI : ∀ s, I s s) (hA : ∀ e, Nonempty (S.Ans e))
    {p : Prog S σ α} {s tr o s'} (h : Run I p s tr o s') :
    ∃ tr' a s'', Run I p s (tr ++ tr') (some a) s'' := by
  induction h with
  | @ret a s => exact ⟨[], a, s, .ret⟩
  | @stop p s =>
    obtain ⟨tr, a, s', hr, -⟩ := Run.exists_of_total hI (E := fun _ => True)
      (fun e => (hA e).elim fun r => ⟨r, trivial⟩) p s
    exact ⟨tr, a, s', hr⟩
  | sync _ ih =>
    obtain ⟨tr', a, s'', h⟩ := ih
    exact ⟨tr', a, s'', .sync h⟩
  | call r hi _ ih =>
    obtain ⟨tr', a, s'', h⟩ := ih
    exact ⟨tr', a, s'', .call r hi h⟩
  | choose b _ ih =>
    obtain ⟨tr', a, s'', h⟩ := ih
    exact ⟨tr', a, s'', .choose b h⟩

end Prog

end Async
