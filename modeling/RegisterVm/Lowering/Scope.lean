import RegisterVm.Lowering.Assembly

/-!
# Scopes by hand

A workbench is a context whose scopes are entered and left one at a time, the
latest first. Leaving a scope does what the end of `withTemporary` and
`withDestination` does.
-/

namespace RegisterVm.Lowering

/-- An open scope. That of a destination knows the destination before it. -/
inductive Scope where
  | temporary
  | destination (saved : Option Location)
  deriving DecidableEq, Repr

structure Workbench where
  context : Context := {}
  scopes : List Scope := []

namespace Workbench

def enterTemporary (w : Workbench) : Location × Workbench :=
  (w.context.nextTemporary,
    { context := w.context.take, scopes := .temporary :: w.scopes })

def enterDestination (w : Workbench) (d : Option Location) : Workbench where
  context := w.context.aim d
  scopes := .destination w.context.destination :: w.scopes

/-- Leaves the latest scope, if one is open. -/
def leave? (w : Workbench) : Option Workbench :=
  match w.scopes with
  | [] => none
  | .temporary :: rest => some { context := w.context.release, scopes := rest }
  | .destination saved :: rest =>
      some { context := w.context.aim saved, scopes := rest }

/-- Does a step of lowering in the context at hand. -/
def perform {α : Type} (w : Workbench) (step : Lower α) :
    Except Error α × Workbench :=
  match step w.context with
  | .ok a c => (.ok a, { w with context := c })
  | .error e c => (.error e, { w with context := c })

end Workbench

end RegisterVm.Lowering
