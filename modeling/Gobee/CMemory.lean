/-
# What an increment writes

The objects that C expressions designate and the effect of `++` and `--`, over a memory
that is any function from locations to values.  Nothing is said about addresses: a
`Machine` names the object of a variable, of a field, of an element and of a pointer
value in any way it likes, and gives the other operators any meaning.

* `exec` : the memory after an expression statement;
* `exec_post` : an increment writes the object of its operand and nothing else.

The two machines at the end tell expressions apart which reach different objects: the
counting machine numbers objects by the pointers and members followed on the way to them,
the tracing machine keeps the whole way.
-/
import Gobee.CExpr
import Mathlib.Logic.Function.Basic

namespace CSyntax

open CExpr

/-- What the operators that designate objects mean, and the value of any other
expression. -/
structure Machine (Loc Val : Type) where
  object : Text → Loc
  point : Val → Loc
  field : Loc → Text → Loc
  elem : Loc → Val → Loc
  /-- the object that many places behind an object -/
  skip : Loc → Val → Loc
  /-- where the value of an expression is kept that designates no object -/
  temp : CExpr Unit → Loc
  operate : CExpr Unit → (Loc → Val) → Val
  /-- the effect of `++` or `--` on a value -/
  bump : Text → Val → Val

namespace Machine

variable {Loc Val : Type} (M : Machine Loc Val)

/-- An object with its value. -/
def stored (mem : Loc → Val) (l : Loc) : Loc × Val := (l, mem l)

/-- A value that is computed. -/
def computed (mem : Loc → Val) (e : CExpr Unit) : Loc × Val := (M.temp e, M.operate e mem)

/-- **The object and the value of an expression.**  `ptr` tells which expressions have
pointer type: indexing one of these steps over whole objects. -/
def denote (ptr : CExpr Unit → Bool) (mem : Loc → Val) : CExpr Unit → Loc × Val
  | .leaf w tag => if isConstant w then M.computed mem (.leaf w tag) else stored mem (M.object w)
  | .paren e => denote ptr mem e
  | .unary op e =>
      if op = ['*'] then stored mem (M.point (denote ptr mem e).2)
      else M.computed mem (.unary op e)
  | .member b op f =>
      stored mem
        (M.field (if op = "->" then M.point (denote ptr mem b).2 else (denote ptr mem b).1) f)
  | .index b i =>
      stored mem (if ptr b then M.skip (M.point (denote ptr mem b).2) (denote ptr mem i).2
        else M.elem (denote ptr mem b).1 (denote ptr mem i).2)
  | .post e op => M.computed mem (.post e op)
  | .binary sp op l r => M.computed mem (.binary sp op l r)
  | .call f args => M.computed mem (.call f args)
  | .cast ty e => M.computed mem (.cast ty e)

variable {M} in
/-- An element of an array. -/
theorem denote_elem {ptr : CExpr Unit → Bool} {b : CExpr Unit} (h : ptr b = false)
    (mem : Loc → Val) (i : CExpr Unit) :
    M.denote ptr mem (.index b i) =
      stored mem (M.elem (M.denote ptr mem b).1 (M.denote ptr mem i).2) := by
  rw [denote, h]
  rfl

end Machine

namespace CExpr

mutual
/-- The operands of the increments in an expression, with their operators; `sizeof` does
not evaluate its operand. -/
def steps : CExpr Unit → List (CExpr Unit × Text)
  | .leaf _ _ => []
  | .paren e => steps e
  | .unary op e =>
      if op = "sizeof" then [] else steps e ++ (if op ∈ postfixOps then [(e, op)] else [])
  | .post e op => steps e ++ [(e, op)]
  | .binary _ _ l r => steps l ++ steps r
  | .index b i => steps b ++ steps i
  | .member b _ _ => steps b
  | .call f args => steps f ++ stepsArgs args
  | .cast _ e => steps e

/-- The increments in an argument list. -/
def stepsArgs : List (CExpr Unit) → List (CExpr Unit × Text)
  | [] => []
  | a :: rest => steps a ++ stepsArgs rest
end

end CExpr

namespace Machine

variable {Loc Val : Type} [DecidableEq Loc] (M : Machine Loc Val) (ptr : CExpr Unit → Bool)

/-- One increment. -/
def stepAt (mem : Loc → Val) (s : CExpr Unit × Text) : Loc → Val :=
  Function.update mem (M.denote ptr mem s.1).1 (M.bump s.2 (mem (M.denote ptr mem s.1).1))

/-- **The memory after an expression statement.** -/
def exec (c : CExpr Unit) (mem : Loc → Val) : Loc → Val := (steps c).foldl (M.stepAt ptr) mem

variable {M ptr}

/-- An increment writes the object of its operand and nothing else. -/
theorem exec_post {e : CExpr Unit} {op : Text} (h : steps e = []) (mem : Loc → Val) :
    M.exec ptr (.post e op) mem = M.stepAt ptr mem (e, op) := by
  unfold exec
  rw [steps, h]
  rfl

end Machine

/-! ## Telling objects apart -/

/-- The size of an expression, the arguments of calls aside: no object on the way to it is
farther away. -/
def size : CExpr Unit → Nat
  | .leaf _ _ => 0
  | .paren e | .unary _ e | .post e _ | .call e _ | .cast _ e => size e + 1
  | .member e _ _ => size e + 2
  | .binary _ _ l r | .index l r => size l + size r + 1

/-- **The counting machine**: an object is numbered by the pointers and the members followed
to reach it, a computed value by its size. -/
def counting : Machine Nat Nat where
  object := fun _ => 0
  point := fun v => v + 1
  field := fun l _ => l + 1
  elem := fun l v => l + v
  skip := fun _ _ => 0
  temp := size
  operate := fun e _ => size e
  bump := fun _ v => v + 1

section

variable (ptr : CExpr Unit → Bool)

/-- Objects of the counting machine hold their numbers. -/
theorem counting_snd (e : CExpr Unit) :
    (counting.denote ptr id e).2 = (counting.denote ptr id e).1 := by
  cases e with
  | leaf w tag =>
      rw [Machine.denote]
      split <;> rfl
  | paren e =>
      rw [Machine.denote]
      exact counting_snd e
  | unary op e =>
      rw [Machine.denote]
      split <;> rfl
  | _ => rfl

/-- The number of an object. -/
def count (e : CExpr Unit) : Nat := (counting.denote ptr id e).1

theorem denote_counting (e : CExpr Unit) :
    counting.denote ptr id e = (count ptr e, count ptr e) :=
  Prod.ext rfl (counting_snd ptr e)

theorem count_leaf (w : Text) (tag : Unit) : count ptr (.leaf w tag) = 0 := by
  unfold count
  rw [Machine.denote]
  split <;> rfl

theorem count_paren (e : CExpr Unit) : count ptr (.paren e) = count ptr e := rfl

theorem count_star (e : CExpr Unit) : count ptr (.unary ['*'] e) = count ptr e + 1 := by
  show (counting.denote ptr id e).2 + 1 = _
  rw [denote_counting]

theorem count_unary {op : Text} (h : op ≠ ['*']) (e : CExpr Unit) :
    count ptr (.unary op e) = size e + 1 := by
  unfold count
  rw [Machine.denote, if_neg h]
  rfl

theorem count_member (b : CExpr Unit) (op f : Text) :
    count ptr (.member b op f) = (if op = "->" then count ptr b + 1 else count ptr b) + 1 := by
  show (if op = "->" then (counting.denote ptr id b).2 + 1 else (counting.denote ptr id b).1) + 1 =
    _
  rw [denote_counting]

theorem count_index (b i : CExpr Unit) :
    count ptr (.index b i) = if ptr b then 0 else count ptr b + count ptr i := by
  show (if ptr b then 0 else (counting.denote ptr id b).1 + (counting.denote ptr id i).2) = _
  rw [denote_counting, denote_counting]

/-- An object is not farther away than its expression is large. -/
theorem count_le_size : ∀ e : CExpr Unit, count ptr e ≤ size e
  | .leaf w tag => (count_leaf ptr w tag).le
  | .paren e => by
      have he := count_le_size e
      rw [count_paren, size]
      omega
  | .unary op e => by
      have he := count_le_size e
      by_cases hop : op = ['*']
      · subst hop
        rw [count_star, size]
        omega
      · rw [count_unary ptr hop, size]
  | .member b op f => by
      have hb := count_le_size b
      rw [count_member, size]
      split <;> omega
  | .index b i => by
      have hb := count_le_size b
      have hi := count_le_size i
      rw [count_index, size]
      split <;> omega
  | .post e op => le_refl _
  | .binary sp op l r => le_refl _
  | .call f args => le_refl _
  | .cast ty e => le_refl _

end

/-! ## Ways to objects -/

/-- The way an object is reached. -/
inductive Way where
  | object (w : Text)
  | point (p : Way)
  | field (l : Way) (f : Text)
  | elem (l i : Way)
  | skip (l i : Way)
  | temp (e : CExpr Unit)

/-- **The tracing machine**: every object is the way to it. -/
def tracing : Machine Way Way where
  object := .object
  point := .point
  field := .field
  elem := .elem
  skip := .skip
  temp := .temp
  operate := fun e _ => .temp e
  bump := fun _ v => .point v

/-- Objects of the tracing machine hold their ways. -/
theorem tracing_snd (ptr : CExpr Unit → Bool) (e : CExpr Unit) :
    (tracing.denote ptr id e).2 = (tracing.denote ptr id e).1 := by
  cases e with
  | leaf w tag =>
      rw [Machine.denote]
      split <;> rfl
  | paren e =>
      rw [Machine.denote]
      exact tracing_snd ptr e
  | unary op e =>
      rw [Machine.denote]
      split <;> rfl
  | _ => rfl

/-- Different words are different ways. -/
theorem tracing_leaf_inj {ptr : CExpr Unit → Bool} {w w' : Text}
    (h : (tracing.denote ptr id (.leaf w ())).1 = (tracing.denote ptr id (.leaf w' ())).1) :
    w = w' := by
  rw [Machine.denote, Machine.denote] at h
  split at h <;> split at h
  · injection h with h
    injection h
  · cases h
  · cases h
  · injection h

/-- No value is its own successor. -/
theorem bump_tracing_ne (op : Text) (l : Way) : tracing.bump op l ≠ l := by
  intro h
  have hsize := congrArg sizeOf (show Way.point l = l from h)
  simp only [Way.point.sizeOf_spec] at hsize
  omega

end CSyntax
