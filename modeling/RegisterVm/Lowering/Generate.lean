import RegisterVm.Expr
import RegisterVm.Lowering.Context

/-!
# Code for expressions

Lowering is driven by the destination. An expression that computes something
writes it straight to the destination; a constant or a variable only says where
its value already is. So a value is copied only where it has to stand in a
particular register, in a definition or an assignment, or where it would be
overwritten.

A sum keeps its left operand safe while the right one is computed: a computed
left operand stays in a temporary of its own, a variable that the right side
assigns to is copied to one, and if the left operand is the destination itself
the right side gets another place.
-/

namespace RegisterVm.Lowering

/-- Code that brings the value at `l` to `dst`, unless it is there. -/
def materialize (l dst : Location) : Lower Unit :=
  if l.kind = .constant then emit .loadConstant [dst, l]
  else if l = dst then pure ()
  else emit .move [dst, l]

/-- Whether the code of `later` stores to the variable at `l`. -/
def overwrites (c : Context) (later : Expr) (l : Location) :
    Except Error Bool :=
  if l.kind = .localVar then
    match signedGet? c.locals l.index with
    | some name => .ok (later.assigned.contains name)
    | none => .error (.noName l.index)
  else .ok false

/-- The left operand of a sum: a computed one goes to a temporary, which is free
again afterwards. -/
def leftOperand (l : Expr) (left : Lower Location) : Lower Location :=
  if l.isLeaf then left else withTemporary fun t => withDestination (some t) left

/-- Runs `body` with a place where the value at `l` is safe from the code of
`later`. A value in the temporary that would be taken next keeps it. -/
def withSafe (later : Expr) (l : Location) (body : Location → Lower Location) :
    Lower Location := fun c =>
  if l = c.nextTemporary then withTemporary (fun _ => body l) c
  else match overwrites c later l with
    | .error e => .error e c
    | .ok false => body l c
    | .ok true =>
        withTemporary (fun t => do
          emit .move [t, l]
          body t) c

/-- Code that puts the sum of `left` and the value of `right` at `dst`. -/
def sumInto (dst left : Location) (right : Lower Location) :
    Lower Location := do
  let r ← right
  emit .add [dst, left, r]
  return dst

/-- The same with a place for the right value, which must not be computed over
the left one. -/
def addRight (dst left : Location) (r : Expr) (right : Lower Location) :
    Lower Location :=
  if left = dst ∧ !r.isLeaf then
    withTemporary fun t => sumInto dst left (withDestination (some t) right)
  else sumInto dst left (withDestination (some dst) right)

/-- The code of a sum at `dst`, from that of its two sides. -/
def addInto (dst : Location) (l r : Expr) (left right : Lower Location) :
    Lower Location := do
  let a ← leftOperand l left
  withSafe r a fun a => addRight dst a r right

/-- Code that stores the value of an expression at `dst`. -/
def storeAt (dst : Location) (value : Lower Location) : Lower Unit :=
  withDestination (some dst) do
    let l ← value
    materialize l dst

mutual

/-- Code for an expression. The answer is where its value is afterwards. -/
def generate : Expr → Lower Location
  | .constant v => addConstant v
  | .var name => lookup name
  | .add l r =>
      atDestination fun dst => addInto dst l r (generate l) (generate r)
  | .define name e => do
      let dst ← reserve name
      storeAt dst (generate e)
      declare name dst.index
      return dst
  | .assign name e => do
      let dst ← lookup name
      storeAt dst (generate e)
      return dst
  | .block body => generateBlock body
  | .other kind => reject (.unknownNode kind)

/-- Code for a block: only the last expression is wanted at the destination. -/
def generateBlock : List Expr → Lower Location
  | [] => reject .emptyBlock
  | [e] => generate e
  | e :: es => do
      let _ ← withDestination none (generate e)
      generateBlock es

end

end RegisterVm.Lowering
