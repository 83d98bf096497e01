/-
# Courses of structured programs

The order in which a structured program may reach its items.  A `Course` keeps the shape
of a program (sequence, branch, loop, early end) and forgets what the items do; its runs
take every branch and repeat every loop freely, and may break off anywhere, so a run is an
initial part of some execution.

* `Rel.run` : courses of the same shape with related items have related runs;
* `Threads.run` : **along a run, every item is entered in a state that the item before it
  has left behind**, if this is so in every part of the course;
* `Exec.keeps` : **what every item keeps, an execution keeps.**
-/
import Mathlib.Data.List.Forall2

/-- A structured program over the items `α`. -/
inductive Course (α : Type) where
  | skip
  | item (a : α)
  /-- the program ends here -/
  | stop
  | seq (p q : Course α)
  | branch (p q : Course α)
  /-- `p`, and then either the end of the loop or `q` and the loop again -/
  | loop (p q : Course α)

namespace Course

variable {α β σ : Type}

/-- The items of a course, in the order in which they are written. -/
def items : Course α → List α
  | skip | stop => []
  | item a => [a]
  | seq p q | branch p q | loop p q => p.items ++ q.items

/-- Items one after the other. -/
def ofList : List α → Course α
  | [] => skip
  | a :: as => seq (item a) (ofList as)

@[simp] theorem items_ofList (as : List α) : (ofList as).items = as := by
  induction as with
  | nil => rfl
  | cons a as ih => rw [ofList, items, ih, items, List.singleton_append]

/-- The runs of a course with the items they reach; the flag says whether the run has come
to the end of the course. -/
inductive Run : Course α → List α → Bool → Prop where
  | cut {p : Course α} : Run p [] false
  | skip : Run skip [] true
  | item {a : α} : Run (item a) [a] true
  | seqCut {p q : Course α} {xs : List α} (hp : Run p xs false) : Run (seq p q) xs false
  | seq {p q : Course α} {xs ys : List α} {b : Bool} (hp : Run p xs true) (hq : Run q ys b) :
      Run (seq p q) (xs ++ ys) b
  | left {p q : Course α} {xs : List α} {b : Bool} (hp : Run p xs b) : Run (branch p q) xs b
  | right {p q : Course α} {xs : List α} {b : Bool} (hq : Run q xs b) : Run (branch p q) xs b
  | loopHead {p q : Course α} {xs : List α} {b : Bool} (hp : Run p xs b) : Run (loop p q) xs b
  | loopBody {p q : Course α} {xs ys : List α} (hp : Run p xs true) (hq : Run q ys false) :
      Run (loop p q) (xs ++ ys) false
  | loop {p q : Course α} {xs ys zs : List α} {b : Bool} (hp : Run p xs true)
      (hq : Run q ys true) (hl : Run (loop p q) zs b) : Run (loop p q) (xs ++ ys ++ zs) b

/-- A run reaches only items of the course. -/
theorem Run.mem_items {p : Course α} {xs : List α} {b : Bool} (h : Run p xs b) :
    ∀ a ∈ xs, a ∈ p.items := by
  induction h with
  | cut => simp
  | skip => simp
  | item => simp [items]
  | seqCut hp ih =>
      intro a ha
      exact List.mem_append_left _ (ih a ha)
  | seq hp hq ihp ihq =>
      intro a ha
      rw [items, List.mem_append]
      exact (List.mem_append.mp ha).imp (ihp a) (ihq a)
  | left hp ih =>
      intro a ha
      exact List.mem_append_left _ (ih a ha)
  | right hq ih =>
      intro a ha
      exact List.mem_append_right _ (ih a ha)
  | loopHead hp ih =>
      intro a ha
      exact List.mem_append_left _ (ih a ha)
  | loopBody hp hq ihp ihq =>
      intro a ha
      rw [items, List.mem_append]
      exact (List.mem_append.mp ha).imp (ihp a) (ihq a)
  | loop hp hq hl ihp ihq ihl =>
      intro a ha
      rcases List.mem_append.mp ha with ha | ha
      · rw [items, List.mem_append]
        exact (List.mem_append.mp ha).imp (ihp a) (ihq a)
      · exact ihl a ha

/-! ## Courses of the same shape -/

/-- The courses have the same shape and their items are related. -/
def Rel (R : α → β → Prop) : Course α → Course β → Prop
  | .skip, .skip => True
  | .item a, .item b => R a b
  | .stop, .stop => True
  | .seq p q, .seq p' q' => Rel R p p' ∧ Rel R q q'
  | .branch p q, .branch p' q' => Rel R p p' ∧ Rel R q q'
  | .loop p q, .loop p' q' => Rel R p p' ∧ Rel R q q'
  | _, _ => False

section

variable {R : α → β → Prop}

theorem Rel.items {p : Course α} {q : Course β} (h : Rel R p q) :
    List.Forall₂ R p.items q.items := by
  induction p generalizing q with
  | skip =>
      cases q with
      | skip => exact .nil
      | _ => cases h
  | item a =>
      cases q with
      | item b => exact .cons h .nil
      | _ => cases h
  | stop =>
      cases q with
      | stop => exact .nil
      | _ => cases h
  | seq p₁ p₂ ih₁ ih₂ =>
      cases q with
      | seq q₁ q₂ => exact List.rel_append (ih₁ h.1) (ih₂ h.2)
      | _ => cases h
  | branch p₁ p₂ ih₁ ih₂ =>
      cases q with
      | branch q₁ q₂ => exact List.rel_append (ih₁ h.1) (ih₂ h.2)
      | _ => cases h
  | loop p₁ p₂ ih₁ ih₂ =>
      cases q with
      | loop q₁ q₂ => exact List.rel_append (ih₁ h.1) (ih₂ h.2)
      | _ => cases h

/-- The relation, seen from the other side. -/
theorem Rel.symm {p : Course α} {q : Course β} (h : Rel R p q) : Rel (fun b a => R a b) q p := by
  induction p generalizing q with
  | skip =>
      cases q with
      | skip => trivial
      | _ => cases h
  | item a =>
      cases q with
      | item b => exact h
      | _ => cases h
  | stop =>
      cases q with
      | stop => trivial
      | _ => cases h
  | seq p₁ p₂ ih₁ ih₂ =>
      cases q with
      | seq q₁ q₂ => exact ⟨ih₁ h.1, ih₂ h.2⟩
      | _ => cases h
  | branch p₁ p₂ ih₁ ih₂ =>
      cases q with
      | branch q₁ q₂ => exact ⟨ih₁ h.1, ih₂ h.2⟩
      | _ => cases h
  | loop p₁ p₂ ih₁ ih₂ =>
      cases q with
      | loop q₁ q₂ => exact ⟨ih₁ h.1, ih₂ h.2⟩
      | _ => cases h

theorem rel_ofList {as : List α} {bs : List β} (h : List.Forall₂ R as bs) :
    Rel R (ofList as) (ofList bs) := by
  induction h with
  | nil => trivial
  | cons hab hrest ih => exact ⟨hab, ih⟩

/-- Every run of the second course is matched by a run of the first. -/
theorem Rel.run {p : Course α} {q : Course β} {ys : List β} {b : Bool} (h : Rel R p q)
    (hrun : Run q ys b) : ∃ xs, Run p xs b ∧ List.Forall₂ R xs ys := by
  induction hrun generalizing p with
  | cut => exact ⟨[], .cut, .nil⟩
  | skip =>
      cases p with
      | skip => exact ⟨[], .skip, .nil⟩
      | _ => cases h
  | @item y =>
      cases p with
      | item x => exact ⟨[x], .item, .cons h .nil⟩
      | _ => cases h
  | seqCut hp ih =>
      cases p with
      | seq p₁ p₂ =>
          obtain ⟨xs, hxs, hrel⟩ := ih h.1
          exact ⟨xs, .seqCut hxs, hrel⟩
      | _ => cases h
  | seq hp hq ihp ihq =>
      cases p with
      | seq p₁ p₂ =>
          obtain ⟨xs, hxs, hrel⟩ := ihp h.1
          obtain ⟨ys, hys, hrel'⟩ := ihq h.2
          exact ⟨xs ++ ys, .seq hxs hys, List.rel_append hrel hrel'⟩
      | _ => cases h
  | left hp ih =>
      cases p with
      | branch p₁ p₂ =>
          obtain ⟨xs, hxs, hrel⟩ := ih h.1
          exact ⟨xs, .left hxs, hrel⟩
      | _ => cases h
  | right hq ih =>
      cases p with
      | branch p₁ p₂ =>
          obtain ⟨xs, hxs, hrel⟩ := ih h.2
          exact ⟨xs, .right hxs, hrel⟩
      | _ => cases h
  | loopHead hp ih =>
      cases p with
      | loop p₁ p₂ =>
          obtain ⟨xs, hxs, hrel⟩ := ih h.1
          exact ⟨xs, .loopHead hxs, hrel⟩
      | _ => cases h
  | loopBody hp hq ihp ihq =>
      cases p with
      | loop p₁ p₂ =>
          obtain ⟨xs, hxs, hrel⟩ := ihp h.1
          obtain ⟨ys, hys, hrel'⟩ := ihq h.2
          exact ⟨xs ++ ys, .loopBody hxs hys, List.rel_append hrel hrel'⟩
      | _ => cases h
  | loop hp hq hl ihp ihq ihl =>
      cases p with
      | loop p₁ p₂ =>
          obtain ⟨xs, hxs, hrel⟩ := ihp h.1
          obtain ⟨ys, hys, hrel'⟩ := ihq h.2
          obtain ⟨zs, hzs, hrel''⟩ := @ihl (.loop p₁ p₂) h
          exact ⟨xs ++ ys ++ zs, .loop hxs hys hzs,
            List.rel_append (List.rel_append hrel hrel') hrel''⟩
      | _ => cases h

end

/-! ## Threading a state -/

section

variable (le : σ → σ → Prop) (enter leave : α → σ)

/-- The items follow each other from the state `s` to the state `t`: each is entered below
what has been left before. -/
def Chain : σ → List α → σ → Prop
  | s, [], t => le t s
  | s, a :: as, t => le (enter a) s ∧ Chain (leave a) as t

/-- The parts of a course fit together between the states `s` and `t`. -/
def Threads : Course α → σ → σ → Prop
  | .skip, s, t => le t s
  | .item a, s, t => le (enter a) s ∧ le t (leave a)
  | .stop, _, _ => True
  | .seq p q, s, t => ∃ u, Threads p s u ∧ Threads q u t
  | .branch p q, s, t => Threads p s t ∧ Threads q s t
  | .loop p q, s, t => ∃ u v, le u s ∧ Threads p u v ∧ Threads q v u ∧ le t v

end

section

variable {le : σ → σ → Prop} {enter leave : α → σ} {s t u : σ} {xs ys : List α}

/-- A chain from `s`, which need not end in a given state if it is cut off. -/
def Chains (le : σ → σ → Prop) (enter leave : α → σ) (s : σ) (xs : List α) (t : σ)
    (b : Bool) : Prop :=
  if b then Chain le enter leave s xs t else ∃ t, Chain le enter leave s xs t

theorem Chain.mono_left (htrans : ∀ {a b c}, le a b → le b c → le a c)
    (h : Chain le enter leave s xs t) (hs : le s u) : Chain le enter leave u xs t := by
  cases xs with
  | nil => exact htrans h hs
  | cons a as => exact ⟨htrans h.1 hs, h.2⟩

theorem Chain.mono_right (htrans : ∀ {a b c}, le a b → le b c → le a c)
    (h : Chain le enter leave s xs t) (ht : le u t) : Chain le enter leave s xs u := by
  induction xs generalizing s with
  | nil => exact htrans ht h
  | cons a as ih => exact ⟨h.1, ih h.2⟩

theorem Chain.append (htrans : ∀ {a b c}, le a b → le b c → le a c)
    (hx : Chain le enter leave s xs t) (hy : Chain le enter leave t ys u) :
    Chain le enter leave s (xs ++ ys) u := by
  induction xs generalizing s with
  | nil => exact hy.mono_left htrans hx
  | cons a as ih => exact ⟨hx.1, ih hx.2⟩

theorem Chains.append {b : Bool} (htrans : ∀ {a b c}, le a b → le b c → le a c)
    (hx : Chain le enter leave s xs t) (hy : Chains le enter leave t ys u b) :
    Chains le enter leave s (xs ++ ys) u b := by
  cases b with
  | true => exact Chain.append htrans hx hy
  | false =>
      obtain ⟨v, hv⟩ := hy
      exact ⟨v, Chain.append htrans hx hv⟩

theorem Chains.mono {b : Bool} {s' t' : σ} (htrans : ∀ {a b c}, le a b → le b c → le a c)
    (h : Chains le enter leave s xs t b) (hs : le s s') (ht : le t' t) :
    Chains le enter leave s' xs t' b := by
  cases b with
  | true => exact Chain.mono_right htrans (Chain.mono_left htrans h hs) ht
  | false =>
      obtain ⟨v, hv⟩ := h
      exact ⟨v, hv.mono_left htrans hs⟩

theorem Threads.mono_right {p : Course α} (htrans : ∀ {a b c}, le a b → le b c → le a c)
    (h : Threads le enter leave p s t) (ht : le u t) : Threads le enter leave p s u := by
  induction p generalizing s t with
  | skip => exact htrans ht h
  | item a => exact ⟨h.1, htrans ht h.2⟩
  | stop => trivial
  | seq p q ihp ihq =>
      obtain ⟨v, hp, hq⟩ := h
      exact ⟨v, hp, ihq hq ht⟩
  | branch p q ihp ihq => exact ⟨ihp h.1 ht, ihq h.2 ht⟩
  | loop p q ihp ihq =>
      obtain ⟨v, w, hv, hp, hq, hw⟩ := h
      exact ⟨v, w, hv, hp, hq, htrans ht hw⟩

theorem threads_ofList (hrefl : ∀ a, le a a) {as : List α}
    (h : Chain le enter leave s as t) : Threads le enter leave (ofList as) s t := by
  induction as generalizing s with
  | nil => exact h
  | cons a as ih => exact ⟨leave a, ⟨h.1, hrefl _⟩, ih h.2⟩

/-- **Along a run, every item is entered in a state that the item before it has left
behind.** -/
theorem Threads.run {p : Course α} {b : Bool} (hrefl : ∀ a, le a a)
    (htrans : ∀ {a b c}, le a b → le b c → le a c) (h : Threads le enter leave p s t)
    (hrun : Run p xs b) : Chains le enter leave s xs t b := by
  induction hrun generalizing s t with
  | cut => exact ⟨s, hrefl s⟩
  | skip => exact h
  | item => exact h
  | seqCut hp ih =>
      obtain ⟨u, hp, -⟩ := h
      have hx := ih hp
      exact hx
  | seq hp hq ihp ihq =>
      obtain ⟨u, hp, hq⟩ := h
      exact Chains.append htrans (ihp hp) (ihq hq)
  | left hp ih => exact ih h.1
  | right hq ih => exact ih h.2
  | loopHead hp ih =>
      obtain ⟨u, v, hu, hp, -, ht⟩ := h
      exact Chains.mono htrans (ih hp) hu ht
  | loopBody hp hq ihp ihq =>
      obtain ⟨u, v, hu, hp, hq, -⟩ := h
      have hy := ihq hq
      exact Chains.append htrans (Chain.mono_left htrans (ihp hp) hu) hy
  | loop hp hq hl ihp ihq ihl =>
      obtain ⟨u, v, hu, hp, hq, ht⟩ := h
      have hround : Chain le enter leave s _ u :=
        Chain.append htrans (Chain.mono_left htrans (ihp hp) hu) (ihq hq)
      -- one round of the loop leads back to the state at its head
      exact Chains.append htrans hround (ihl ⟨u, v, hrefl u, hp, hq, ht⟩)

end

/-! ## Executions -/

section

variable (step : α → σ → σ → Prop)

/-- The executions that come to the end of a course, with the states before and after; an
item leads from a state to any state that `step` allows. -/
inductive Exec : Course α → σ → σ → Prop where
  | skip {s : σ} : Exec skip s s
  | item {a : α} {s t : σ} (h : step a s t) : Exec (item a) s t
  | seq {p q : Course α} {s t u : σ} (hp : Exec p s t) (hq : Exec q t u) : Exec (seq p q) s u
  | left {p q : Course α} {s t : σ} (hp : Exec p s t) : Exec (branch p q) s t
  | right {p q : Course α} {s t : σ} (hq : Exec q s t) : Exec (branch p q) s t
  | loopEnd {p q : Course α} {s t : σ} (hp : Exec p s t) : Exec (loop p q) s t
  | loop {p q : Course α} {s t u v : σ} (hp : Exec p s t) (hq : Exec q t u)
      (hl : Exec (loop p q) u v) : Exec (loop p q) s v

end

/-- **What every item keeps, an execution keeps.** -/
theorem Exec.keeps {step : α → σ → σ → Prop} {f : σ → β} {p : Course α} {s t : σ}
    (hexec : Exec step p s t) (h : ∀ a ∈ p.items, ∀ s t, step a s t → f t = f s) : f t = f s := by
  induction hexec with
  | skip => rfl
  | item hstep => exact h _ (List.mem_singleton_self _) _ _ hstep
  | seq hp hq ihp ihq =>
      have hleft := ihp fun a ha => h a (List.mem_append_left _ ha)
      have hright := ihq fun a ha => h a (List.mem_append_right _ ha)
      rw [hright, hleft]
  | left hp ih => exact ih fun a ha => h a (List.mem_append_left _ ha)
  | right hq ih => exact ih fun a ha => h a (List.mem_append_right _ ha)
  | loopEnd hp ih => exact ih fun a ha => h a (List.mem_append_left _ ha)
  | loop hp hq hl ihp ihq ihl =>
      have hhead := ihp fun a ha => h a (List.mem_append_left _ ha)
      have hbody := ihq fun a ha => h a (List.mem_append_right _ ha)
      rw [ihl h, hbody, hhead]

end Course
