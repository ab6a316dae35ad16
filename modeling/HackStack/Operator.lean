set_option autoImplicit false

/-! # Operators

The nine arithmetic and logical commands, classified by how they use the stack: a unary operator
rewrites the top, a binary one replaces the two topmost words by its result, and a comparison
replaces them by a truth value.
-/

namespace HackStack

inductive UnaryOperator
  | neg
  | not
  deriving DecidableEq, Repr

inductive BinaryOperator
  | add
  | sub
  | and
  | or
  deriving DecidableEq, Repr

inductive Comparison
  | eq
  | gt
  | lt
  deriving DecidableEq, Repr

inductive Operator
  | unary (operator : UnaryOperator)
  | binary (operator : BinaryOperator)
  | comparison (operator : Comparison)
  deriving DecidableEq, Repr

namespace Operator

/-- All operators. -/
def all : List Operator :=
  [.binary .add, .binary .sub, .unary .neg, .comparison .eq, .comparison .gt, .comparison .lt,
    .binary .and, .binary .or, .unary .not]

/-- The word that names the operator in a program. -/
def keyword : Operator → String
  | .unary .neg => "neg"
  | .unary .not => "not"
  | .binary .add => "add"
  | .binary .sub => "sub"
  | .binary .and => "and"
  | .binary .or => "or"
  | .comparison .eq => "eq"
  | .comparison .gt => "gt"
  | .comparison .lt => "lt"

/-- The operator that a word names. -/
def ofKeyword? (word : String) : Option Operator :=
  all.find? fun operator => operator.keyword == word

@[simp] theorem mem_all (operator : Operator) : operator ∈ all := by
  rcases operator with operator | operator | operator <;> cases operator <;> decide

@[simp] theorem ofKeyword?_keyword (operator : Operator) :
    ofKeyword? operator.keyword = some operator := by
  rcases operator with operator | operator | operator <;> cases operator <;> decide

theorem ofKeyword?_eq_some_iff {word : String} {operator : Operator} :
    ofKeyword? word = some operator ↔ word = operator.keyword := by
  constructor
  · intro h
    have hfound := List.find?_some h
    simpa using (beq_iff_eq.1 hfound).symm
  · intro h
    subst h
    exact ofKeyword?_keyword operator

end Operator

end HackStack
