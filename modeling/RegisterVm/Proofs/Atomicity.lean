import RegisterVm.Proofs.Progress

/-!
# A step happens as a whole or not at all

A step that runs writes the register that the first operand names, and goes on
to the next instruction. A step that fails changes no register, in whatever
order its operands would have failed: the sources are read and looked at before
the destination is written, and the write itself is refused or complete.

What a failed step does change is the place and the status, and this depends on
how far it came. Nothing changes if the machine was faulted before, or if the
opcode field holds the number of an opcode; the machine is faulted in its place
if the opcode is unknown or its operands are too many or too few; and it is
faulted at the next place if an operand fails.

Which steps fail is decided by the instruction at hand alone, but for sums,
which also look at what their operands hold (`step_fails_iff`).
-/

namespace RegisterVm

theorem Opcode.ofNumber?_eq_some_iff {n : Int} {op : Opcode} :
    ofNumber? n = some op ↔ n = op.number := by
  constructor
  · intro h
    have hnumber := List.find?_some h
    rw [beq_iff_eq] at hnumber
    exact hnumber.symm
  · rintro rfl
    cases op <;> rfl

theorem Instruction.Valid.head?_nonneg {f : Frame} {instr : Instruction}
    (h : instr.Valid f) {dst : Int} (hdst : instr.args.head? = some dst) :
    0 ≤ dst := by
  cases h with
  | move hin | loadConstant hin | add hin =>
      cases hdst
      exact (Operand.registerInBounds_iff.mp hin).1

namespace Machine

variable {m m' : Machine}

/-! ## Steps that run -/

/-- An instruction that runs is the one at hand; its step writes the register of
the first operand. -/
theorem step_executed {event : Event} (h : m.step = (.executed event, m')) :
    ∃ (dst : Nat) (v : Value), m.status ≠ .faulted
      ∧ m.frame.code[m.pc]? = some event.instruction
      ∧ event.args.head? = some (dst : Int)
      ∧ event.pc = m.pc ∧ event.registers = m'.registers
      ∧ m' = { m with registers := m.registers.set dst v, pc := m.pc + 1 } := by
  have hvalid : ∀ instr, m.frame.code[m.pc]? = some instr →
      instr.Valid m.frame := by
    intro instr hc
    by_contra hbad
    obtain ⟨err, m₁, hfail, -⟩ := step_of_invalid hc hbad
    rw [h] at hfail
    cases hfail
  have hstep := m.step_effect
  rw [h] at hstep
  cases hstep with
  | @wrote op args dst v hs hc hdst =>
      obtain ⟨k, rfl⟩ :=
        Int.eq_ofNat_of_zero_le ((hvalid _ hc).head?_nonneg hdst)
      exact ⟨k, v, hs, hc, hdst, rfl, rfl, rfl⟩

/-! ## Steps that fail -/

theorem registers_of_failed {err : StepError} (h : m.step = (.failed err, m')) :
    m'.registers = m.registers := by
  have hstep := m.step_effect
  rw [h] at hstep
  cases hstep <;> rfl

section Fetched

variable (hs : m.status ≠ .faulted)

include hs

/-- At the end of the code there is nothing to fail. -/
theorem fetched_of_failed {err : StepError} (h : m.step = (.failed err, m')) :
    ∃ instr, m.frame.code[m.pc]? = some instr := by
  cases hc : m.frame.code[m.pc]? with
  | none =>
      rw [step, if_neg hs, hc] at h
      cases h
  | some instr => exact ⟨instr, rfl⟩

theorem step_of_numbered {op : Opcode} {args : List Int}
    (hc : m.frame.code[m.pc]? = some ⟨.number op.number, args⟩) :
    m.step = (.failed (.tag (.noOperandCount (.number op.number))), m) := by
  have hsel : (OpTag.number op.number).selects? = some op :=
    Opcode.ofNumber?_eq_some_iff.mpr rfl
  rw [step_of_fetch hs hc]
  simp only [stepAt, hsel, Option.isSome_some, if_true]

theorem step_of_unknown {tag : OpTag} {args : List Int}
    (hc : m.frame.code[m.pc]? = some ⟨tag, args⟩)
    (htag : ∀ op : Opcode, tag ≠ .opcode op ∧ tag ≠ .number op.number) :
    m.step = m.fail (.unimplemented tag) := by
  rw [step_of_fetch hs hc]
  cases tag with
  | opcode op => exact absurd rfl (htag op).1
  | word s => rfl
  | number n =>
      have hsel : (OpTag.number n).selects? = none := by
        cases hop : Opcode.ofNumber? n with
        | none => exact hop
        | some op =>
            exact absurd (congrArg OpTag.number
              (Opcode.ofNumber?_eq_some_iff.mp hop)) (htag op).2
      simp only [stepAt, hsel, Option.isSome_none, Bool.false_eq_true, if_false]

/-- The instruction at hand fails if it is not valid, whatever the registers
hold, or if it is a sum with an operand that is no number. -/
theorem step_fails_iff {instr : Instruction}
    (hc : m.frame.code[m.pc]? = some instr) :
    (∃ err, m.step.1 = .failed err)
      ↔ ¬ instr.Valid m.frame ∨ m.AddsNonNumber := by
  by_cases hvalid : instr.Valid m.frame
  · have hadv : m.Advance m.step := by
      refine step_advance hs fun instr' hc' => ?_
      rw [hc] at hc'
      cases hc'
      exact hvalid
    rw [hadv.failed_iff, or_iff_right (not_not.mpr hvalid)]
  · obtain ⟨err, m', hfail, -⟩ := step_of_invalid hc hvalid
    exact iff_of_true ⟨err, congrArg Prod.fst hfail⟩ (.inl hvalid)

variable {op : Opcode} {args : List Int}
    (hc : m.frame.code[m.pc]? = some ⟨.opcode op, args⟩)

include hc

theorem step_of_malformed (hlen : args.length ≠ op.operandCount) :
    m.step = m.fail (.malformed m.pc op args) := by
  rw [step_of_fetch hs hc]
  simp only [stepAt, Action.ofOpcode?_eq_none_iff.mpr hlen]

/-- With as many operands as its opcode takes, an instruction can fail only at
one of them. -/
theorem step_failed_at_operand (hlen : args.length = op.operandCount)
    {err : StepError} (h : m.step = (.failed err, m')) :
    m' = { m with pc := m.pc + 1, status := .faulted }
      ∧ ∃ fault, err = .fault fault ∧ fault.atOperand = true := by
  rw [step_of_fetch hs hc] at h
  simp only [stepAt] at h
  split at h
  · exact absurd hlen (Action.ofOpcode?_eq_none_iff.mp ‹_›)
  · rename_i action ha
    rcases m.perform_cases action with ⟨v, hperf⟩ | ⟨fault, hperf, hfault⟩
    · rw [hperf] at h
      cases h
    · rw [hperf] at h
      cases h
      exact ⟨rfl, fault, rfl, hfault⟩

end Fetched

/-! ## Every step of every run -/

theorem Progress.running {f : Frame} {past : List Outcome}
    (h : Progress f past m) (hs : m.status ≠ .faulted) {instr : Instruction}
    (hc : m.frame.code[m.pc]? = some instr) : m.status = .running := by
  have hhalted := h.not_halted hc
  cases hstatus : m.status with
  | running => rfl
  | halted => exact absurd hstatus hhalted
  | faulted => exact absurd hstatus hs

/-- Whatever frame a machine runs and whatever was done to it: a step that runs
changes no register but that of the first operand, goes on to the next
instruction and leaves the machine running. A step that fails changes no
register. It changes nothing at all if the machine was faulted or the opcode
field holds the number of an opcode. Else the machine is faulted, in its place
if the opcode is unknown or has a wrong number of operands, and at the next
place if an operand fails.

A step does fail if the machine was faulted, and the instruction at hand fails
if and only if it is not valid or a sum with an operand that is no number. -/
theorem step_atomic (f : Frame) (calls : List Call) :
    ∃ m, m = (start f).afterAll calls
      ∧ (∀ event m', m.step = (.executed event, m') →
        ∃ instr dst, f.code[m.pc]? = some instr ∧ instr.args.head? = some dst
          ∧ m'.registers.length = m.registers.length
          ∧ (∀ i : Nat, (i : Int) ≠ dst → m'.registers[i]? = m.registers[i]?)
          ∧ m'.pc = m.pc + 1 ∧ m'.status = .running)
      ∧ (∀ err m', m.step = (.failed err, m') →
        m'.registers = m.registers
          ∧ (m.status = .faulted → m' = m)
          ∧ (m.status ≠ .faulted → ∃ tag args, f.code[m.pc]? = some ⟨tag, args⟩
            ∧ (∀ op : Opcode, tag = .number op.number → m' = m)
            ∧ ((∀ op : Opcode, tag ≠ .opcode op ∧ tag ≠ .number op.number) →
              m' = { m with status := .faulted })
            ∧ (∀ op, tag = .opcode op → args.length ≠ op.operandCount →
              m' = { m with status := .faulted })
            ∧ (∀ op, tag = .opcode op → args.length = op.operandCount →
              m' = { m with pc := m.pc + 1, status := .faulted }
                ∧ ∃ fault, err = .fault fault ∧ fault.atOperand = true)))
      ∧ (m.status = .faulted → m.step = (.failed (.fault .afterFault), m))
      ∧ ∀ tag args, m.status ≠ .faulted → f.code[m.pc]? = some ⟨tag, args⟩ →
        (∀ op : Opcode, tag = .number op.number →
          m.step = (.failed (.tag (.noOperandCount tag)), m))
        ∧ ((∀ op : Opcode, tag ≠ .opcode op ∧ tag ≠ .number op.number) →
          m.step = m.fail (.unimplemented tag))
        ∧ (∀ op, tag = .opcode op → args.length ≠ op.operandCount →
          m.step = m.fail (.malformed m.pc op args))
        ∧ ((∃ err, m.step.1 = .failed err)
          ↔ ¬ Instruction.Valid f ⟨tag, args⟩ ∨ m.AddsNonNumber) := by
  have hprogress := (Progress.start f).afterAll calls
  generalize (start f).afterAll calls = m at hprogress
  have hframe := hprogress.frame
  refine ⟨m, rfl, fun event m' h => ?_, fun err m' h => ?_, step_of_faulted,
    fun tag args hs hc => ?_⟩
  · obtain ⟨dst, v, hs, hc, hdst, -, -, rfl⟩ := step_executed h
    have hrunning := hprogress.running hs hc
    refine ⟨event.instruction, dst, hframe ▸ hc, hdst, List.length_set, ?_, rfl,
      hrunning⟩
    intro i hi
    exact List.getElem?_set_ne fun heq => hi (congrArg Nat.cast heq.symm)
  · refine ⟨registers_of_failed h, fun hs => ?_, fun hs => ?_⟩
    · rw [step_of_faulted hs] at h
      cases h
      rfl
    · obtain ⟨⟨tag, args⟩, hc⟩ := fetched_of_failed hs h
      refine ⟨tag, args, hframe ▸ hc, ?_, ?_, ?_, ?_⟩
      · rintro op rfl
        rw [step_of_numbered hs hc] at h
        cases h
        rfl
      · intro htag
        rw [step_of_unknown hs hc htag] at h
        cases h
        rfl
      · rintro op rfl hlen
        rw [step_of_malformed hs hc hlen] at h
        cases h
        rfl
      · rintro op rfl hlen
        exact step_failed_at_operand hs hc hlen h
  · rw [← hframe] at hc ⊢
    refine ⟨?_, step_of_unknown hs hc, ?_, step_fails_iff hs hc⟩
    · rintro op rfl
      exact step_of_numbered hs hc
    · rintro op rfl hlen
      exact step_of_malformed hs hc hlen

/-- A sum into its own left operand, whose right operand is nil: the left one
keeps its value. -/
example :
    (start {
      size := 2
      constants := [.number .nan]
      locals := []
      code := [.loadConstant 0 (-1), .add 0 0 1] }
    |>.afterAll [.step, .step]).registers = [.number .nan, .nil] := by
  decide

end Machine

end RegisterVm
