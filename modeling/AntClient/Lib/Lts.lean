/-
  Labelled transition systems.

  `Run step s as t` is a finite run from `s` to `t` whose actions are `as`, oldest
  first.  An invariant relates the actions so far to the state reached.
-/
import Mathlib.Data.List.Induction

/-- The entry that was set, or another one. -/
theorem List.getElem?_set_cases {α : Type} {l : List α} {i j : ℕ} {a b : α}
    (h : (l.set i a)[j]? = some b) : (j = i ∧ b = a) ∨ j ≠ i ∧ l[j]? = some b := by
  rw [List.getElem?_set] at h
  split at h
  · rename_i hij
    split at h
    · cases h
      exact Or.inl ⟨hij.symm, rfl⟩
    · cases h
  · rename_i hij
    exact Or.inr ⟨fun he => hij he.symm, h⟩

namespace Lts

variable {σ α : Type} {step : σ → α → σ → Prop}

inductive Run (step : σ → α → σ → Prop) (s : σ) : List α → σ → Prop
  | start : Run step s [] s
  | snoc {as t a u} : Run step s as t → step t a u → Run step s (as ++ [a]) u

namespace Run
variable {s t u : σ} {as bs : List α} {a : α}

/-- **The invariant rule**: what holds at the start and is preserved by every step
    of a run holds at its end. -/
theorem inv {I : List α → σ → Prop} (h : Run step s as t) (h0 : I [] s)
    (hs : ∀ {as t a u}, Run step s as t → I as t → step t a u → I (as ++ [a]) u) : I as t := by
  induction h with
  | start => exact h0
  | snoc hr hst ih => exact hs hr ih hst

theorem mono {step' : σ → α → σ → Prop} (h : Run step s as t)
    (hs : ∀ t a u, a ∈ as → step t a u → step' t a u) : Run step' s as t := by
  induction h with
  | start => exact .start
  | snoc _ hst ih =>
    exact (ih fun t a u ha => hs t a u (List.mem_append_left _ ha)).snoc
      (hs _ _ _ (List.mem_append_right _ List.mem_cons_self) hst)

theorem cons (hst : step s a t) (h : Run step t as u) : Run step s (a :: as) u := by
  induction h with
  | start => exact Run.start.snoc hst
  | snoc _ hst' ih => exact ih.snoc hst'

theorem append (h : Run step s as t) (h' : Run step t bs u) : Run step s (as ++ bs) u := by
  induction h' with
  | start => simpa using h
  | snoc _ hst ih => simpa using ih.snoc hst

/-- The step of a run that took a given action. -/
theorem split (h : Run step s (as ++ a :: bs) u) :
    ∃ t t', Run step s as t ∧ step t a t' ∧ Run step t' bs u := by
  generalize hl : as ++ a :: bs = l at h
  induction h generalizing bs with
  | start => simp at hl
  | snoc hr hst ih =>
    induction bs using List.reverseRecOn with
    | nil =>
      obtain ⟨rfl, hab⟩ := List.append_inj' hl rfl
      cases hab
      exact ⟨_, _, hr, hst, .start⟩
    | append_singleton bs b _ =>
      rw [← List.cons_append, ← List.append_assoc] at hl
      obtain ⟨hp, hb⟩ := List.append_inj' hl rfl
      cases hb
      obtain ⟨t, t', h1, h2, h3⟩ := ih hp
      exact ⟨t, t', h1, h2, h3.snoc hst⟩

end Run

end Lts
