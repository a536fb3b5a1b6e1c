import RegisterVm.Value.Basic

/-!
# Expressions

Trees of constants, sums, definitions of variables, their uses and assignments,
and blocks. Every expression has a value: a definition and an assignment have
the value that they store, a block that of its last expression. A tree can also
hold nodes of a kind that nobody knows here; only the name of the kind is kept.
-/

namespace RegisterVm

inductive Expr where
  | constant (v : Value)
  | add (left right : Expr)
  | define (name : String) (value : Expr)
  | var (name : String)
  | assign (name : String) (value : Expr)
  | block (body : List Expr)
  | other (kind : String)
  deriving Repr, Inhabited

namespace Expr

mutual

def text : Expr → String
  | .constant v => v.text
  | .add l r => "(" ++ l.text ++ " + " ++ r.text ++ ")"
  | .define name e => "let " ++ name ++ " = " ++ e.text
  | .var name => name
  | .assign name e => name ++ " = " ++ e.text
  | .block body => "\x7b " ++ "; ".intercalate (texts body) ++ " \x7d"
  | .other _ => "?"

def texts : List Expr → List String
  | [] => []
  | e :: es => e.text :: texts es

end

mutual

/-- The names that assignments in the tree store to, in order and with
repeats. -/
def assigned : Expr → List String
  | .constant _ => []
  | .add l r => l.assigned ++ r.assigned
  | .define _ e => e.assigned
  | .var _ => []
  | .assign name e => name :: e.assigned
  | .block body => assignedAll body
  | .other _ => []

def assignedAll : List Expr → List String
  | [] => []
  | e :: es => e.assigned ++ assignedAll es

end

/-- The assigned names in ascending order, each once. -/
def assignedNames (e : Expr) : List String :=
  e.assigned.eraseDups.mergeSort fun a b => a ≤ b

/-- A leaf has its value somewhere already: no code computes it. -/
def isLeaf : Expr → Bool
  | .constant _ => true
  | .var _ => true
  | _ => false

mutual

/-- Equality node by node, where constants are compared as values. -/
def equals : Expr → Expr → Bool
  | .constant v, .constant w => v.equals w
  | .add l r, .add l' r' => l.equals l' && r.equals r'
  | .define n e, .define n' e' => n == n' && e.equals e'
  | .var n, .var n' => n == n'
  | .assign n e, .assign n' e' => n == n' && e.equals e'
  | .block es, .block es' => equalsAll es es'
  | .other k, .other k' => k == k'
  | _, _ => false

def equalsAll : List Expr → List Expr → Bool
  | [], [] => true
  | e :: es, e' :: es' => e.equals e' && equalsAll es es'
  | _, _ => false

end

end Expr

end RegisterVm
