import Mathlib.Data.Nat.Find
import RegisterVm.Proofs.Rejection

/-!
# How far a machine gets

Nothing is asked of the frame here. `Machine.Effect` says what one step can do
to any machine: be refused because the machine is dead, come to the end, write
one register, or fail, and a failure is at the opcode field, at the number of
operands, or at an operand. Only the last one moves on to the next instruction.

So the place of a machine counts the instructions that it executed
(`Machine.Progress`), whatever steps and writes are made in whatever order, and
it comes to the end after as many as there are, if nothing stops it before.
-/

namespace RegisterVm

/-! ## What a step can do -/

/-- A fault at an operand: it cannot be read, cannot be written, or is no
number. -/
def Fault.atOperand : Fault → Bool
  | .noRegister .. | .noConstant .. | .notNumber .. => true
  | _ => false

namespace Action

/-- The register that an action writes. -/
def dst : Action → Int
  | .move dst _ => dst
  | .loadConstant dst _ => dst
  | .add dst _ _ => dst

theorem head?_of_ofOpcode? {op : Opcode} {args : List Int} {action : Action}
    (h : ofOpcode? op args = some action) : args.head? = some action.dst := by
  rw [ofOpcode?.eq_def] at h
  split at h <;> cases h <;> rfl

/-- An opcode is decoded with exactly as many operands as it takes. -/
theorem ofOpcode?_eq_none_iff {op : Opcode} {args : List Int} :
    ofOpcode? op args = none ↔ args.length ≠ op.operandCount := by
  constructor
  · intro h hlen
    cases op with
    | move =>
        obtain ⟨dst, src, rfl⟩ := List.length_eq_two.mp hlen
        cases h
    | loadConstant =>
        obtain ⟨dst, k, rfl⟩ := List.length_eq_two.mp hlen
        cases h
    | add =>
        obtain ⟨dst, lhs, rhs, rfl⟩ := List.length_eq_three.mp hlen
        cases h
  · intro hlen
    rw [ofOpcode?.eq_def]
    split
    · exact absurd rfl hlen
    · exact absurd rfl hlen
    · exact absurd rfl hlen
    · rfl

end Action

namespace Machine

section Accesses

variable {m m' : Machine} {f : Fault}

theorem register_error {index : Int} (h : m.register index = .error f) :
    f.atOperand = true := by
  rw [register] at h
  split at h <;> cases h
  rfl

theorem constant_error {ref : Int} (h : m.constant ref = .error f) :
    f.atOperand = true := by
  rw [constant] at h
  split at h <;> cases h
  rfl

theorem value_error {ref : Int} (h : m.value ref = .error f) :
    f.atOperand = true := by
  rw [value] at h
  split at h
  · exact constant_error h
  · exact register_error h

theorem number_error {ref : Int} (h : m.number ref = .error f) :
    f.atOperand = true := by
  cases hv : m.value ref with
  | error f' =>
      rw [number, hv] at h
      cases h
      exact value_error hv
  | ok v =>
      rw [number, hv] at h
      cases v <;> cases h <;> rfl

theorem setRegister_error {index : Int} {v : Value}
    (h : m.setRegister index v = .error f) :
    f.atOperand = true := by
  rw [setRegister] at h
  split at h <;> cases h
  rfl

theorem setRegister_ok {index : Int} {v : Value}
    (h : m.setRegister index v = .ok m') :
    m' = { m with registers := m.registers.set index.toNat v } := by
  rw [setRegister_of_inBounds (inBounds_of_setRegister h)] at h
  cases h
  rfl

/-- An action that succeeds writes its register and nothing else; one that fails
does so at an operand. -/
theorem perform_cases (m : Machine) (action : Action) :
    (∃ v, m.perform action
      = .ok { m with registers := m.registers.set action.dst.toNat v })
      ∨ ∃ f, m.perform action = .error f ∧ f.atOperand = true := by
  have hset : ∀ v, (∃ w, m.setRegister action.dst v
        = .ok { m with registers := m.registers.set action.dst.toNat w })
      ∨ ∃ f, m.setRegister action.dst v = .error f ∧ f.atOperand = true := by
    intro v
    cases h : m.setRegister action.dst v with
    | ok m' => exact Or.inl ⟨v, by rw [setRegister_ok h]⟩
    | error f => exact Or.inr ⟨f, rfl, setRegister_error h⟩
  cases action with
  | move dst src =>
      rw [perform]
      cases h : m.value src with
      | ok v => exact hset v
      | error f => exact Or.inr ⟨f, rfl, value_error h⟩
  | loadConstant dst k =>
      rw [perform]
      cases h : m.constant k with
      | ok v => exact hset v
      | error f => exact Or.inr ⟨f, rfl, constant_error h⟩
  | add dst lhs rhs =>
      rw [perform]
      cases hx : m.number lhs with
      | error f => exact Or.inr ⟨f, rfl, number_error hx⟩
      | ok x =>
          cases hy : m.number rhs with
          | error f => exact Or.inr ⟨f, rfl, number_error hy⟩
          | ok y => exact hset (.number (x.add y))

end Accesses

/-- What a step can do, whatever the frame. -/
inductive Effect (m : Machine) : Outcome × Machine → Prop where
  | dead (hs : m.status = .faulted) : Effect m (.failed (.fault .afterFault), m)
  | ended (hs : m.status ≠ .faulted) (hc : m.frame.code[m.pc]? = none) :
      Effect m (.ended, { m with status := .halted })
  | wrote {op : Opcode} {args : List Int} {dst : Int} {v : Value}
      (hs : m.status ≠ .faulted)
      (hc : m.frame.code[m.pc]? = some ⟨.opcode op, args⟩)
      (hdst : args.head? = some dst) :
      Effect m (m.wrote op args dst v)
  | untagged {tag : OpTag} {args : List Int} (hs : m.status ≠ .faulted)
      (hc : m.frame.code[m.pc]? = some ⟨tag, args⟩)
      (htag : ∀ op, tag ≠ .opcode op)
      (hsel : tag.selects? ≠ none) :
      Effect m (.failed (.tag (.noOperandCount tag)), m)
  | unknown {tag : OpTag} {args : List Int} (hs : m.status ≠ .faulted)
      (hc : m.frame.code[m.pc]? = some ⟨tag, args⟩) (hsel : tag.selects? = none) :
      Effect m (m.fail (.unimplemented tag))
  | malformed {op : Opcode} {args : List Int} (hs : m.status ≠ .faulted)
      (hc : m.frame.code[m.pc]? = some ⟨.opcode op, args⟩)
      (hlen : args.length ≠ op.operandCount) :
      Effect m (m.fail (.malformed m.pc op args))
  | operand {op : Opcode} {args : List Int} {f : Fault}
      (hs : m.status ≠ .faulted)
      (hc : m.frame.code[m.pc]? = some ⟨.opcode op, args⟩)
      (hf : f.atOperand = true) :
      Effect m ({ m with pc := m.pc + 1 }.fail f)

theorem step_effect (m : Machine) : m.Effect m.step := by
  by_cases hs : m.status = .faulted
  · rw [step_of_faulted hs]
    exact .dead hs
  cases hc : m.frame.code[m.pc]? with
  | none =>
      rw [step, if_neg hs, hc]
      exact .ended hs hc
  | some instr =>
      obtain ⟨tag, args⟩ := instr
      rw [step_of_fetch hs hc]
      cases tag with
      | opcode op =>
          simp only [stepAt]
          split
          · exact .malformed hs hc (Action.ofOpcode?_eq_none_iff.mp ‹_›)
          · rename_i action ha
            rcases m.perform_cases action with ⟨v, hperf⟩ | ⟨f, hperf, hf⟩
            · rw [hperf]
              exact .wrote hs hc (Action.head?_of_ofOpcode? ha)
            · rw [hperf]
              exact .operand hs hc hf
      | number n =>
          simp only [stepAt]
          split
          · rename_i hsel
            exact .untagged hs hc (fun _ h => by cases h) fun hnone => by
              rw [hnone] at hsel
              cases hsel
          · rename_i hsel
            exact .unknown hs hc (by simpa using hsel)
      | word s => exact .unknown hs hc rfl

end Machine

/-! ## The steps among some calls -/

namespace Outcome

/-- The step executed an instruction. -/
def ran : Outcome → Bool
  | .executed _ => true
  | _ => false

/-- The step failed at an operand. -/
def failedAtOperand : Outcome → Bool
  | .failed (.fault f) => f.atOperand
  | _ => false

end Outcome

namespace Machine

/-- What is heard of a call: of a step how it went, of a write nothing. -/
def heard (m : Machine) : Call → List Outcome
  | .step => [m.step.1]
  | .set .. => []

/-- How the steps among some calls went, in order. -/
def outcomes : Machine → List Call → List Outcome
  | _, [] => []
  | m, call :: calls => m.heard call ++ (m.after call).outcomes calls

theorem outcomes_concat (m : Machine) (calls : List Call) (call : Call) :
    m.outcomes (calls ++ [call])
      = m.outcomes calls ++ (m.afterAll calls).heard call := by
  induction calls generalizing m with
  | nil => simp [outcomes, afterAll]
  | cons c cs ih =>
      rw [List.cons_append, outcomes, outcomes, ih, List.append_assoc]
      rfl

/-- A machine that has run `f` so far, where its steps went as in `past`. -/
structure Progress (f : Frame) (past : List Outcome) (m : Machine) : Prop where
  frame : m.frame = f
  length : m.registers.length = f.size.toNat
  pc_le : m.pc ≤ f.code.length
  pc_eq : m.pc = past.countP Outcome.ran
    + if past.any Outcome.failedAtOperand then 1 else 0
  halted_iff : m.status = .halted ↔ .ended ∈ past
  at_end : m.status = .halted → m.pc = f.code.length
  dead : past.any Outcome.failedAtOperand = true → m.status = .faulted

namespace Progress

variable {f : Frame} {past : List Outcome} {m : Machine}

theorem start (f : Frame) : Progress f [] (Machine.start f) where
  frame := rfl
  length := by simp [Machine.start]
  pc_le := Nat.zero_le _
  pc_eq := rfl
  halted_iff := by simp [Machine.start]
  at_end h := by cases h
  dead h := by cases h

variable (h : Progress f past m)

include h

theorem none_failed (hs : m.status ≠ .faulted) :
    past.any Outcome.failedAtOperand = false :=
  Bool.eq_false_iff.mpr fun hany => hs (h.dead hany)

/-- Where there is an instruction, the machine has not come to the end. -/
theorem not_halted {instr : Instruction}
    (hc : m.frame.code[m.pc]? = some instr) :
    m.status ≠ .halted := by
  intro hs
  have hlt := (List.getElem?_eq_some_iff.mp hc).1
  rw [h.frame, h.at_end hs] at hlt
  exact Nat.lt_irrefl _ hlt

theorem step_halted (hs : m.status = .halted) : m.step = (.ended, m) := by
  have hend : m.frame.code[m.pc]? = none := by
    rw [h.frame, h.at_end hs]
    exact List.getElem?_eq_none (Nat.le_refl _)
  rw [Machine.step, if_neg (by simp [hs]), hend]
  cases m
  cases hs
  rfl

/-- A failure that is not at an operand counts for nothing. -/
theorem fail {err : StepError}
    (herr : (Outcome.failed err).failedAtOperand = false) :
    Progress f (past ++ [.failed err]) m where
  frame := h.frame
  length := h.length
  pc_le := h.pc_le
  pc_eq := by simpa [herr, Outcome.ran] using h.pc_eq
  halted_iff := by simpa using h.halted_iff
  at_end := h.at_end
  dead := by simpa [herr] using h.dead

theorem faulted (hs : m.status ≠ .halted) :
    Progress f past { m with status := .faulted } where
  frame := h.frame
  length := h.length
  pc_le := h.pc_le
  pc_eq := h.pc_eq
  halted_iff := by
    rw [← h.halted_iff]
    simpa using hs
  at_end hs' := by cases hs'
  dead _ := rfl

theorem ended (hs : m.status ≠ .faulted) (hc : m.frame.code[m.pc]? = none) :
    Progress f (past ++ [.ended]) { m with status := .halted } where
  frame := h.frame
  length := h.length
  pc_le := h.pc_le
  pc_eq := by simpa [Outcome.ran, Outcome.failedAtOperand] using h.pc_eq
  halted_iff := by simp
  at_end _ := by
    rw [h.frame, List.getElem?_eq_none_iff] at hc
    exact Nat.le_antisymm h.pc_le hc
  dead hany := by
    rw [List.any_append, h.none_failed hs] at hany
    cases hany

/-- After an instruction that writes a register the machine is at the next
one. -/
theorem wrote (hs : m.status ≠ .faulted) {instr : Instruction}
    (hc : m.frame.code[m.pc]? = some instr) (op : Opcode) (args : List Int)
    (dst : Int) (v : Value) :
    Progress f (past ++ [(m.wrote op args dst v).1])
      (m.wrote op args dst v).2 where
  frame := h.frame
  length := by simpa [Machine.wrote] using h.length
  pc_le := by
    rw [h.frame] at hc
    exact (List.getElem?_eq_some_iff.mp hc).1
  pc_eq := by
    have hpc := h.pc_eq
    simp only [h.none_failed hs] at hpc
    simp [Machine.wrote, Outcome.ran, Outcome.failedAtOperand,
      h.none_failed hs, hpc]
  halted_iff := by simpa [Machine.wrote] using h.halted_iff
  at_end hs' := absurd hs' (h.not_halted hc)
  dead hany := by
    simp [Machine.wrote, Outcome.failedAtOperand, h.none_failed hs] at hany

theorem operand (hs : m.status ≠ .faulted) {instr : Instruction}
    (hc : m.frame.code[m.pc]? = some instr) {fault : Fault}
    (hf : fault.atOperand = true) :
    Progress f (past ++ [.failed (.fault fault)])
      { m with pc := m.pc + 1, status := .faulted } where
  frame := h.frame
  length := h.length
  pc_le := by
    rw [h.frame] at hc
    exact (List.getElem?_eq_some_iff.mp hc).1
  pc_eq := by
    have hpc := h.pc_eq
    simp only [h.none_failed hs] at hpc
    simp [Outcome.ran, Outcome.failedAtOperand, hf, hpc]
  halted_iff := by
    have hend := h.halted_iff.not.mp (h.not_halted hc)
    simpa using hend
  at_end hs' := by cases hs'
  dead _ := rfl

theorem step : Progress f (past ++ [m.step.1]) m.step.2 := by
  have hstep := m.step_effect
  generalize m.step = r at hstep ⊢
  cases hstep with
  | dead hs => exact h.fail rfl
  | ended hs hc => exact h.ended hs hc
  | wrote hs hc hdst => exact h.wrote hs hc _ _ _ _
  | untagged hs hc htag hsel => exact h.fail rfl
  | unknown hs hc hsel => exact (h.fail rfl).faulted (h.not_halted hc)
  | malformed hs hc hlen => exact (h.fail rfl).faulted (h.not_halted hc)
  | operand hs hc hf => exact h.operand hs hc hf

theorem after (call : Call) :
    Progress f (past ++ m.heard call) (m.after call) := by
  cases call with
  | step => exact h.step
  | set index v =>
      obtain ⟨registers, hlength, hset⟩ := m.after_set index v
      rw [hset, heard, List.append_nil]
      exact ⟨h.frame, hlength.trans h.length, h.pc_le, h.pc_eq, h.halted_iff,
        h.at_end, h.dead⟩

theorem afterAll (calls : List Call) :
    Progress f (past ++ m.outcomes calls) (m.afterAll calls) := by
  induction calls using List.reverseRecOn with
  | nil =>
      rw [outcomes, List.append_nil]
      exact h
  | append_singleton calls call ih =>
      rw [afterAll_concat, outcomes_concat, ← List.append_assoc]
      exact ih.after call

end Progress

/-! ## No way back -/

theorem faulted_afterAll {m : Machine} (hs : m.status = .faulted)
    (calls : List Call) :
    (m.afterAll calls).status = .faulted := by
  induction calls using List.reverseRecOn with
  | nil => exact hs
  | append_singleton calls call ih =>
      rw [afterAll_concat]
      cases call with
      | step => rw [after, step_of_faulted ih]; exact ih
      | set index v =>
          obtain ⟨registers, -, hset⟩ := (m.afterAll calls).after_set index v
          rw [hset]
          exact ih

theorem Progress.halted_afterAll {f : Frame} {past : List Outcome} {m : Machine}
    (h : Progress f past m) (hs : m.status = .halted) (calls : List Call) :
    (m.afterAll calls).status = .halted :=
  (h.afterAll calls).halted_iff.mpr (List.mem_append_left _ (h.halted_iff.mp hs))

/-! ## Stepping on and on -/

/-- The machine after `k` steps. -/
def stepped (m : Machine) (k : Nat) : Machine :=
  m.afterAll (List.replicate k .step)

theorem stepped_succ (m : Machine) (k : Nat) :
    m.stepped (k + 1) = (m.stepped k).step.2 := by
  rw [stepped, List.replicate_succ', afterAll_concat]
  rfl

theorem pc_of_ran {m : Machine} (h : m.step.1.ran = true) :
    m.step.2.pc = m.pc + 1 := by
  have hstep := m.step_effect
  generalize m.step = r at hstep h
  cases hstep with
  | wrote => rfl
  | _ => cases h

theorem pc_stepped {m : Machine} {k : Nat}
    (h : ∀ j < k, (m.stepped j).step.1.ran = true) :
    (m.stepped k).pc = m.pc + k := by
  induction k with
  | zero => rfl
  | succ k ih =>
      rw [stepped_succ, pc_of_ran (h k (Nat.lt_succ_self k)), ih fun j hj =>
        h j (by omega)]
      rfl

/-- Whoever steps as long as instructions run stops in time: each of them is
further on in the code. -/
theorem Progress.stops {f : Frame} {past : List Outcome} {m : Machine}
    (h : Progress f past m) :
    ∃ k, m.pc + k ≤ f.code.length ∧ (∀ j < k, (m.stepped j).step.1.ran = true)
      ∧ (m.stepped k).step.1.ran = false := by
  have hle : ∀ {k}, (∀ j < k, (m.stepped j).step.1.ran = true) →
      m.pc + k ≤ f.code.length := by
    intro k hk
    rw [← pc_stepped hk]
    exact (h.afterAll _).pc_le
  have hex : ∃ k, (m.stepped k).step.1.ran = false := by
    by_contra hall
    have := hle (k := f.code.length + 1)
      fun j _ => by simpa using not_exists.mp hall j
    omega
  have hbefore : ∀ j < Nat.find hex, (m.stepped j).step.1.ran = true :=
    fun j hj => by
    simpa using Nat.find_min hex hj
  exact ⟨Nat.find hex, hle hbefore, hbefore, Nat.find_spec hex⟩

/-! ## The invariant of every run -/

/-- Whatever frame a machine runs and whatever is done to it, its place is the
number of instructions that it executed, and one more once it failed at an
operand. It has halted if and only if a step has come to the end of the code,
after all of its instructions. Halted and faulted machines stay as they are, and
whoever steps as long as instructions run, from a fresh machine or a later one,
comes to an end within the code. -/
theorem progress_afterAll (f : Frame) (calls : List Call) :
    ∃ m past executed, m = (start f).afterAll calls
      ∧ past = (start f).outcomes calls
      ∧ executed = past.countP Outcome.ran
      ∧ m.pc ≤ f.code.length
      ∧ (past.any Outcome.failedAtOperand = false → m.pc = executed)
      ∧ (past.any Outcome.failedAtOperand = true → m.pc = executed + 1)
      ∧ (m.status = .halted ↔ .ended ∈ past)
      ∧ (m.status = .halted → m.pc = f.code.length ∧ executed = f.code.length)
      ∧ (m.status = .halted →
        ∀ more, (m.afterAll more).step = (.ended, m.afterAll more))
      ∧ (m.status = .faulted →
        ∀ more, ∃ err, (m.afterAll more).step = (.failed err, m.afterAll more))
      ∧ m.registers.length = f.size.toNat
      ∧ ∃ k, m.pc + k ≤ f.code.length ∧ (∀ j < k, (m.stepped j).step.1.ran = true)
        ∧ (m.stepped k).step.1.ran = false := by
  have h := (Progress.start f).afterAll calls
  rw [List.nil_append] at h
  refine ⟨_, _, _, rfl, rfl, rfl, h.pc_le, ?_, ?_, h.halted_iff, ?_, ?_, ?_,
    h.length, h.stops⟩
  · intro hnone
    simpa [hnone] using h.pc_eq
  · intro hany
    simpa [hany] using h.pc_eq
  · intro hs
    have hnone := h.none_failed (by simp [hs])
    refine ⟨h.at_end hs, ?_⟩
    rw [← h.at_end hs]
    simpa [hnone] using h.pc_eq.symm
  · intro hs more
    exact (h.afterAll more).step_halted (h.halted_afterAll hs more)
  · intro hs more
    exact ⟨_, step_of_faulted (faulted_afterAll hs more)⟩

end Machine

end RegisterVm
