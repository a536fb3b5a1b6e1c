import RegisterVm.Operand

/-!
# Locations

Where a value lives while code is made: in a local, in a temporary or among the
constants. Temporaries get their registers only when the number of locals is
known, so a location is turned into an operand last.
-/

namespace RegisterVm.Lowering

/-- The kind of a place. A kind that is none of the three has only its name. -/
inductive Kind where
  | localVar
  | temporary
  | constant
  | other (name : String)
  deriving DecidableEq, Repr

def Kind.text : Kind → String
  | .localVar => "local"
  | .temporary => "temp"
  | .constant => "constant"
  | .other name => name

structure Location where
  kind : Kind
  index : Int
  deriving DecidableEq, Repr

namespace Location

def localVar (index : Int) : Location := ⟨.localVar, index⟩

def temporary (index : Int) : Location := ⟨.temporary, index⟩

def constant (index : Int) : Location := ⟨.constant, index⟩

def text (l : Location) : String := s!"{l.kind.text}[{l.index}]"

end Location

end RegisterVm.Lowering
