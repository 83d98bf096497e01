/-
# Runs that may halt

A run of a structured program ends in a result, faults at an operation without one, panics, or
is cut off after too many rounds of a loop.  A run that refines another one does whatever the
other one does where that does not panic, and the other one never faults.

* `Refines.bind` : refinement goes through sequencing;
* `Refines.loop` : **loops whose tests and bodies refine each other refine each other.**
-/
import Mathlib.Logic.Basic

namespace Refinement

/-- Why a run has no result. -/
inductive Halt where
  /-- an operation without a result -/
  | fault
  /-- a panic of the program -/
  | panic
  /-- too many rounds of a loop -/
  | cutoff
  deriving DecidableEq, Repr

/-- A computation that may halt. -/
abbrev Comp (α : Type) := Except Halt α

/-- A result that an operation may lack. -/
def orFault {α : Type} : Option α → Comp α
  | some a => .ok a
  | none => .error .fault

theorem bind_eq_ok {α β : Type} {c : Comp α} {f : α → Comp β} {b : β} (h : c.bind f = .ok b) :
    ∃ a, c = .ok a ∧ f a = .ok b := by
  cases c with
  | error e => cases h
  | ok a => exact ⟨a, rfl, h⟩

/-- How a statement ends: the next one follows, or the function returns. -/
inductive Ends (σ ρ : Type) where
  | next (s : σ)
  | ret (r : ρ)
  deriving DecidableEq, Repr

/-- One statement after another. -/
def andThen {σ τ ρ : Type} (c : Comp (Ends σ ρ)) (f : σ → Comp (Ends τ ρ)) : Comp (Ends τ ρ) :=
  match c with
  | .ok (.next s) => f s
  | .ok (.ret r) => .ok (.ret r)
  | .error h => .error h

/-- A loop of so many rounds at most. -/
def loop {σ ρ : Type} (test : σ → Comp Bool) (body post : σ → Comp (Ends σ ρ)) :
    Nat → σ → Comp (Ends σ ρ)
  | 0, _ => .error .cutoff
  | n + 1, s =>
      (test s).bind fun b =>
        if b then andThen (body s) fun s => andThen (post s) (loop test body post n)
        else .ok (.next s)

/-! ## Refinement -/

section

variable {α β γ δ : Type}

/-- The first run does not fault, and the second one does the same where the first one does not
panic. -/
def Refines (R : α → β → Prop) : Comp α → Comp β → Prop
  | .ok a, c => ∃ b, c = .ok b ∧ R a b
  | .error .cutoff, c => c = .error .cutoff
  | .error .panic, _ => True
  | .error .fault, _ => False

theorem Refines.ok {R : α → β → Prop} {a : α} {b : β} (h : R a b) : Refines R (.ok a) (.ok b) :=
  ⟨b, rfl, h⟩

theorem Refines.panic {R : α → β → Prop} (c : Comp β) : Refines R (.error .panic) c := trivial

theorem Refines.mono {R S : α → β → Prop} (hRS : ∀ a b, R a b → S a b) {c : Comp α} {d : Comp β}
    (h : Refines R c d) : Refines S c d := by
  rcases c with (_ | _ | _) | a
  · exact h
  · exact h
  · exact h
  · obtain ⟨b, hb, hR⟩ := h
    exact ⟨b, hb, hRS a b hR⟩

/-- What holds of every result of the first run may be added to the relation. -/
theorem Refines.and_left {R : α → β → Prop} {P : α → Prop} {c : Comp α} {d : Comp β}
    (h : Refines R c d) (hP : ∀ a, c = .ok a → P a) : Refines (fun a b => R a b ∧ P a) c d := by
  rcases c with (_ | _ | _) | a
  · exact h
  · exact h
  · exact h
  · obtain ⟨b, hb, hR⟩ := h
    exact ⟨b, hb, hR, hP a rfl⟩

theorem Refines.bind {R : α → β → Prop} {S : γ → δ → Prop} {c : Comp α} {d : Comp β}
    {f : α → Comp γ} {g : β → Comp δ} (h : Refines R c d)
    (hfg : ∀ a b, R a b → Refines S (f a) (g b)) : Refines S (c.bind f) (d.bind g) := by
  rcases c with (_ | _ | _) | a
  · exact h
  · exact trivial
  · rw [show d = .error .cutoff from h]
    rfl
  · obtain ⟨b, rfl, hR⟩ := h
    exact hfg a b hR

/-- The first run may go on to bring its result into another form. -/
theorem Refines.mapLeft {R : α → β → Prop} {S : γ → β → Prop} {c : Comp α} {d : Comp β} {g : α → γ}
    (h : Refines R c d) (hg : ∀ a b, R a b → S (g a) b) :
    Refines S (c.bind fun a => .ok (g a)) d := by
  rcases c with (_ | _ | _) | a
  · exact h
  · exact trivial
  · exact h
  · obtain ⟨b, rfl, hR⟩ := h
    exact ⟨b, rfl, hg a b hR⟩

/-- The second run may go on to bring its result into another form. -/
theorem Refines.mapRight {R : α → β → Prop} {S : α → γ → Prop} {c : Comp α} {d : Comp β} {g : β → γ}
    (h : Refines R c d) (hg : ∀ a b, R a b → S a (g b)) :
    Refines S c (d.bind fun b => .ok (g b)) := by
  rcases c with (_ | _ | _) | a
  · exact h
  · exact trivial
  · rw [show d = .error .cutoff from h]
    rfl
  · obtain ⟨b, rfl, hR⟩ := h
    exact ⟨g b, rfl, hg a b hR⟩

end

/-! ## Statements -/

section

variable {σ σ' τ τ' ρ ρ' : Type}

/-- The next statement follows the second of two only if it follows both. -/
theorem andThen_eq_next {c : Comp (Ends σ ρ)} {f : σ → Comp (Ends τ ρ)} {t : τ}
    (h : andThen c f = .ok (.next t)) : ∃ s, c = .ok (.next s) ∧ f s = .ok (.next t) := by
  rcases c with _ | s | r
  · cases h
  · exact ⟨s, rfl, h⟩
  · cases h

/-- Both end in the same way, in related states or with related results. -/
def Ends.Rel (S : σ → τ → Prop) (R : ρ → ρ' → Prop) : Ends σ ρ → Ends τ ρ' → Prop
  | .next s, .next t => S s t
  | .ret r, .ret r' => R r r'
  | _, _ => False

theorem Refines.andThen {S : σ → σ' → Prop} {T : τ → τ' → Prop} {R : ρ → ρ' → Prop}
    {c : Comp (Ends σ ρ)} {d : Comp (Ends σ' ρ')} {f : σ → Comp (Ends τ ρ)}
    {g : σ' → Comp (Ends τ' ρ')} (h : Refines (Ends.Rel S R) c d)
    (hfg : ∀ s t, S s t → Refines (Ends.Rel T R) (f s) (g t)) :
    Refines (Ends.Rel T R) (Refinement.andThen c f) (Refinement.andThen d g) := by
  rcases c with (_ | _ | _) | s | r
  · exact h
  · exact trivial
  · rw [show d = .error .cutoff from h]
    rfl
  · obtain ⟨t | r, rfl, hS⟩ := h
    · exact hfg s t hS
    · cases hS
  · obtain ⟨t | r', rfl, hR⟩ := h
    · cases hR
    · exact ⟨.ret r', rfl, hR⟩

/-- **Loops whose parts refine each other refine each other**, round by round. -/
theorem Refines.loop {S : σ → σ' → Prop} {R : ρ → ρ' → Prop} {test : σ → Comp Bool}
    {test' : σ' → Comp Bool} {body post : σ → Comp (Ends σ ρ)}
    {body' post' : σ' → Comp (Ends σ' ρ')}
    (htest : ∀ s t, S s t → Refines Eq (test s) (test' t))
    (hbody : ∀ s t, S s t → Refines (Ends.Rel S R) (body s) (body' t))
    (hpost : ∀ s t, S s t → Refines (Ends.Rel S R) (post s) (post' t)) (n : Nat) :
    ∀ s t, S s t → Refines (Ends.Rel S R) (Refinement.loop test body post n s)
      (Refinement.loop test' body' post' n t) := by
  induction n with
  | zero =>
      intro s t _
      rfl
  | succ n ih =>
      intro s t hS
      rw [Refinement.loop, Refinement.loop]
      refine (htest s t hS).bind ?_
      rintro b _ rfl
      cases b with
      | false => exact .ok (by exact hS)
      | true => exact (hbody s t hS).andThen fun s t hS => (hpost s t hS).andThen ih

end

end Refinement
