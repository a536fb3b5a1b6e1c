/-!
# Diagnostics

What an error tells its reader: a message and, where they help, what was
received and expected, the context and a suggestion. Errors form a small family,
in which every type error is a runtime error.
-/

namespace RegisterVm

structure Diagnostic where
  message : String
  context : Option String := none
  expected : Option String := none
  received : Option String := none
  suggestion : Option String := none
  deriving DecidableEq, Repr

namespace Diagnostic

/-- A labelled line, or nothing for a part that is absent or empty. -/
def part (label : String) : Option String → List String
  | none => []
  | some s => if s.isEmpty then [] else [label ++ ": " ++ s]

/-- The message and the other parts, each on a line of its own. -/
def text (d : Diagnostic) : String :=
  "\n".intercalate <|
    ("Error: " ++ d.message)
      :: (part "Received" d.received ++ part "Expected" d.expected
        ++ part "Context" d.context ++ part "Suggestion" d.suggestion)

/-- The family of errors. -/
inductive Family where
  | general
  | compile
  | runtime
  | type
  deriving DecidableEq, Repr

/-- The families that an error belongs to, from the narrowest to the widest. -/
def Family.ancestry : Family → List Family
  | .general => [.general]
  | .compile => [.compile, .general]
  | .runtime => [.runtime, .general]
  | .type => [.type, .runtime, .general]

end Diagnostic

end RegisterVm
