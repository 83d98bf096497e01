/-
# Computations that may fail

A computation goes from a state to a result and the state that it leaves behind, which stays
as it is when the computation fails.

* `bind_eq_ok` : a computation after another one has a value exactly when both have;
* `Respects.bind` : what both of them guarantee, their sequence guarantees.
-/
import Mathlib.Logic.Basic

namespace Effects

variable {σ ε α β γ : Type}

/-- A computation with a state. -/
def Eff (σ ε α : Type) : Type := σ → Except ε α × σ

namespace Eff

/-- One computation after another; the second one runs if the first one has not failed. -/
protected def bind (m : Eff σ ε α) (f : α → Eff σ ε β) : Eff σ ε β := fun s =>
  match m s with
  | (.ok a, s') => f a s'
  | (.error e, s') => (.error e, s')

instance : Monad (Eff σ ε) where
  pure a := fun s => (.ok a, s)
  bind := Eff.bind

/-- A computation that leaves the state alone. -/
def lift (r : Except ε α) : Eff σ ε α := fun s => (r, s)

/-- A computation with its result changed. -/
def mapResult (f : Except ε α → Except ε β) (m : Eff σ ε α) : Eff σ ε β := fun s =>
  (f (m s).1, (m s).2)

end Eff

open Eff

/-! ## Values -/

theorem bind_of_ok {m : Eff σ ε α} {f : α → Eff σ ε β} {s s' : σ} {a : α}
    (h : m s = (.ok a, s')) : (m >>= f) s = f a s' := by
  change Eff.bind m f s = _
  rw [Eff.bind, h]

theorem bind_of_error {m : Eff σ ε α} {f : α → Eff σ ε β} {s s' : σ} {e : ε}
    (h : m s = (.error e, s')) : (m >>= f) s = (.error e, s') := by
  change Eff.bind m f s = _
  rw [Eff.bind, h]

theorem bind_eq_ok {m : Eff σ ε α} {f : α → Eff σ ε β} {s s'' : σ} {b : β} :
    (m >>= f) s = (.ok b, s'') ↔ ∃ a s', m s = (.ok a, s') ∧ f a s' = (.ok b, s'') := by
  constructor
  · intro h
    rcases hm : m s with ⟨r, s'⟩
    cases r with
    | error e =>
        rw [bind_of_error hm] at h
        cases h
    | ok a =>
        rw [bind_of_ok hm] at h
        exact ⟨a, s', rfl, h⟩
  · rintro ⟨a, s', hm, hf⟩
    rw [bind_of_ok hm, hf]

theorem pure_eq_ok {a b : α} {s s' : σ} :
    (pure a : Eff σ ε α) s = (.ok b, s') ↔ a = b ∧ s = s' := by
  change ((Except.ok a : Except ε α), s) = (.ok b, s') ↔ _
  simp

theorem lift_eq_ok {r : Except ε α} {b : α} {s s' : σ} :
    (lift r : Eff σ ε α) s = (.ok b, s') ↔ r = .ok b ∧ s = s' := by
  rw [lift, Prod.mk.injEq]

/-! ## What is guaranteed -/

/-- A bound on how computations change the state. -/
structure Guarantee (σ : Type) where
  Rel : σ → σ → Prop
  refl (s : σ) : Rel s s
  trans {s t u : σ} : Rel s t → Rel t u → Rel s u

namespace Guarantee

/-- What is seen of the state stays as it is. -/
def keeps (obs : σ → γ) : Guarantee σ where
  Rel s t := obs t = obs s
  refl _ := rfl
  trans h h' := h'.trans h

/-- A bound for a part of the state. -/
def comap {τ : Type} (G : Guarantee σ) (f : τ → σ) : Guarantee τ where
  Rel s t := G.Rel (f s) (f t)
  refl s := G.refl (f s)
  trans := G.trans

end Guarantee

/-- A computation changes the state within a bound, whatever state it begins in. -/
def Respects (G : Guarantee σ) (m : Eff σ ε α) : Prop := ∀ s, G.Rel s (m s).2

namespace Respects

variable {G : Guarantee σ}

/-- From one state, the second computation matters only where the first one has a value. -/
theorem bind_at {m : Eff σ ε α} {f : α → Eff σ ε β} {s : σ} (hm : G.Rel s (m s).2)
    (hf : ∀ a s', m s = (.ok a, s') → G.Rel s' (f a s').2) : G.Rel s ((m >>= f) s).2 := by
  rcases h : m s with ⟨r, s'⟩
  rw [h] at hm
  cases r with
  | error e =>
      rw [bind_of_error h]
      exact hm
  | ok a =>
      rw [bind_of_ok h]
      exact G.trans hm (hf a s' h)

theorem bind {m : Eff σ ε α} {f : α → Eff σ ε β} (hm : Respects G m) (hf : ∀ a, Respects G (f a)) :
    Respects G (m >>= f) := fun s => bind_at (hm s) fun a s' _ => hf a s'

theorem pure (a : α) : Respects G (pure a : Eff σ ε α) := fun s => G.refl s

theorem lift (r : Except ε α) : Respects G (lift r : Eff σ ε α) := fun s => G.refl s

theorem mapResult {m : Eff σ ε α} (f : Except ε α → Except ε β) (hm : Respects G m) :
    Respects G (m.mapResult f) := hm

end Respects

end Effects
