import RegisterVm.Program
import RegisterVm.Proofs.Independence

/-!
# The check accepts what lowering makes

A frame that lowering makes is valid, so it makes no difference to a program
whether its frame is checked. Compiling it is the same as lowering it
(`compile_eq`), and its value is what a fresh machine for the frame comes to
(`evaluate_eq`). A program can fail in lowering or in a step, never by a defect
of its frame.
-/

namespace RegisterVm

theorem Lowering.lower_valid {e : Expr} {f : Frame} (h : lower e = .ok f) :
    f.Valid := by
  obtain ⟨c, l, hc⟩ := lower_compiled h
  exact hc.assembled.valid

namespace Program

/-- The value of a frame if it is not checked: nil stands for a result that is
missing. -/
def valueOf (f : Frame) : Except Error Value :=
  ((Machine.start f).verdict.mapError .step).map fun v => v.getD .nil

theorem evaluateFrame_of_valid {f : Frame} (hf : f.Valid) (validate : Bool) :
    evaluateFrame f validate = valueOf f := by
  rw [evaluateFrame, Machine.create_of_valid hf, valueOf, Machine.verdict]
  simp only [ofDefect, Except.mapError, Bind.bind, Except.bind]
  cases (Machine.start f).run.failure with
  | some err => rfl
  | none =>
      dsimp only
      cases (Machine.start f).run.machine.result with
      | ok v => rfl
      | error fault => rfl

theorem compile_eq (e : Expr) (validate : Bool) :
    compile e validate = ofLowering (Lowering.lower e) := by
  rw [compile]
  cases hlower : Lowering.lower e with
  | error err => rfl
  | ok f =>
      show ofDefect (f.checked validate) = .ok f
      rw [Frame.checked_of_valid (Lowering.lower_valid hlower)]
      rfl

theorem evaluate_eq (e : Expr) (validate : Bool) :
    evaluate e validate = ofLowering (Lowering.lower e) >>= valueOf := by
  rw [evaluate, compile_eq]
  cases hlower : Lowering.lower e with
  | error err => rfl
  | ok f => exact evaluateFrame_of_valid (Lowering.lower_valid hlower) validate

theorem valueOf_ne_defect (f : Frame) (d : Frame.Defect) :
    valueOf f ≠ .error (.defect d) := by
  rw [valueOf]
  cases (Machine.start f).verdict with
  | ok v => exact nofun
  | error err => exact nofun

/-- The check finds nothing wrong with a frame that lowering makes. So whether
frames are checked or not, compiling and evaluating a tree give the same, and
none of them fails by a defect. -/
theorem check_accepts_lowered (e : Expr) :
    (∀ f, Lowering.lower e = .ok f → f.Valid ∧ f.defect? = none)
      ∧ (∀ validate, compile e validate = ofLowering (Lowering.lower e))
      ∧ evaluate e true = evaluate e false
      ∧ ∀ validate d, compile e validate ≠ .error (.defect d)
        ∧ evaluate e validate ≠ .error (.defect d) := by
  refine ⟨fun f hf => ?_, compile_eq e, ?_, fun validate d => ?_⟩
  · have hvalid := Lowering.lower_valid hf
    exact ⟨hvalid, Frame.defect?_eq_none_iff.mpr hvalid⟩
  · rw [evaluate_eq, evaluate_eq]
  · rw [compile_eq, evaluate_eq]
    cases Lowering.lower e with
    | error err => exact ⟨nofun, nofun⟩
    | ok f => exact ⟨nofun, valueOf_ne_defect f d⟩

end Program

end RegisterVm
