import RegisterVm.Stepper.Transcript

/-!
# The command line

Steps the demonstration program as the options say.
-/

namespace RegisterVm.Stepper

/-- How the stepper is called. -/
def usage : String := "usage: register-vm [-h] [--steps N] [--compact]"

end RegisterVm.Stepper

open RegisterVm.Stepper

def main (args : List String) : IO UInt32 := do
  match Options.ofArgs args with
  | .error .help =>
      IO.println usage
      return 0
  | .error .usage =>
      IO.eprintln usage
      return 2
  | .ok options =>
      match transcript options demo with
      | .error e =>
          IO.eprintln e.message
          return 1
      | .ok t =>
          IO.print t.output
          IO.eprint t.errors
          return UInt32.ofNat t.exitCode
