import Mathlib.Data.List.Basic
import RegisterVm.Machine.Step
import RegisterVm.Proofs.Evaluation

/-!
# Valid frames and what their instructions do

`Frame.defect?` finds the first defect of a frame by running through it;
`Frame.Valid` says what it means to have none, and the two agree
(`defect?_eq_none_iff`).

A valid instruction can always read and write its operands. So a step on it is
given by one equation per opcode, over the total reading `Machine.look`, and
only a sum can fail.
-/

namespace RegisterVm

/-! ## Operands -/

namespace Operand

theorem registerInBounds_iff {ref size : Int} :
    registerInBounds ref size = true ↔ 0 ≤ ref ∧ ref < size := by
  simp [registerInBounds]

theorem constantInBounds_iff {ref : Int} {count : Nat} :
    constantInBounds ref count = true ↔ ref < 0 ∧ -ref ≤ count := by
  simp only [constantInBounds, Bool.and_eq_true, decide_eq_true_eq]
  unfold constantIndex
  omega

end Operand

theorem Frame.refInBounds_iff {f : Frame} {ref : Int} :
    f.refInBounds ref = true ↔ Operand.registerInBounds ref f.size = true
      ∨ Operand.constantInBounds ref f.constants.length = true := by
  rw [Operand.registerInBounds_iff, Operand.constantInBounds_iff,
    Frame.refInBounds, Operand.inBounds, Operand.isConstant]
  split
  · rename_i hneg
    rw [decide_eq_true_eq] at hneg
    rw [Operand.constantInBounds_iff]
    omega
  · rename_i hneg
    rw [decide_eq_true_eq] at hneg
    rw [Operand.registerInBounds_iff]
    omega

/-! ## Validity -/

/-- An instruction whose operands are as many as its opcode takes and name what
there is. -/
inductive Instruction.Valid (f : Frame) : Instruction → Prop where
  | move {dst src : Int} (hdst : Operand.registerInBounds dst f.size = true)
      (hsrc : f.refInBounds src = true) : Valid f (.move dst src)
  | loadConstant {dst k : Int}
      (hdst : Operand.registerInBounds dst f.size = true)
      (hk : Operand.constantInBounds k f.constants.length = true) :
      Valid f (.loadConstant dst k)
  | add {dst lhs rhs : Int} (hdst : Operand.registerInBounds dst f.size = true)
      (hlhs : f.refInBounds lhs = true) (hrhs : f.refInBounds rhs = true) :
      Valid f (.add dst lhs rhs)

namespace Frame

structure Valid (f : Frame) : Prop where
  size : (f.locals.length : Int) ≤ f.size
  inputs : 0 ≤ f.inputs
  outputs : 0 ≤ f.outputs
  code : ∀ instr ∈ f.code, instr.Valid f
  result : ∀ ref, f.result = some ref → f.refInBounds ref = true

theorem shapeDefect?_eq_none_iff {f : Frame} :
    f.shapeDefect? = none
      ↔ (f.locals.length : Int) ≤ f.size ∧ 0 ≤ f.inputs ∧ 0 ≤ f.outputs := by
  rw [shapeDefect?]
  split
  · simp only [reduceCtorEq, false_iff]; omega
  · split
    · simp only [reduceCtorEq, false_iff]; omega
    · simp only [true_iff]; omega

theorem operandDefect?_eq_none_iff {f : Frame} {i : Nat} {op : Opcode}
    {dst : Int} {sources : List Int} :
    f.operandDefect? i op (dst :: sources) = none ↔
      Operand.registerInBounds dst f.size = true
        ∧ (∀ src ∈ sources, f.refInBounds src = true)
        ∧ (op = .loadConstant →
          ∀ src ∈ sources, Operand.isConstant src = true) := by
  rw [operandDefect?]
  split
  · rename_i hdst
    simp only [reduceCtorEq, false_iff]
    rintro ⟨h, -⟩
    simp [h] at hdst
  · rename_i hdst
    have hdst' : Operand.registerInBounds dst f.size = true := by
      simpa using hdst
    split
    · rename_i src hfind
      simp only [reduceCtorEq, false_iff]
      rintro ⟨-, h, -⟩
      have hbad := List.find?_some hfind
      simp [h src (List.mem_of_find?_eq_some hfind)] at hbad
    · rename_i hfind
      have hsrc : ∀ src ∈ sources, f.refInBounds src = true := by
        simpa using List.find?_eq_none.mp hfind
      by_cases hop : op = .loadConstant
      · simpa [hop, hdst'] using fun _ => hsrc
      · simpa [hop, hdst'] using hsrc

theorem instructionDefect?_eq_none_iff {f : Frame} {i : Nat}
    {instr : Instruction} :
    f.instructionDefect? i instr = none ↔ instr.Valid f := by
  obtain ⟨tag, args⟩ := instr
  constructor
  · intro h
    cases tag with
    | number n => cases h
    | word s => cases h
    | opcode op =>
        simp only [instructionDefect?] at h
        split at h
        · rename_i hlen
          cases op with
          | move =>
              obtain ⟨dst, src, rfl⟩ := List.length_eq_two.mp hlen
              obtain ⟨hdst, hsrc, -⟩ := operandDefect?_eq_none_iff.mp h
              exact .move hdst (hsrc src (by simp))
          | loadConstant =>
              obtain ⟨dst, k, rfl⟩ := List.length_eq_two.mp hlen
              obtain ⟨hdst, hsrc, hk⟩ := operandDefect?_eq_none_iff.mp h
              refine .loadConstant hdst ?_
              have hneg : k < 0 := by
                simpa [Operand.isConstant] using hk rfl k (by simp)
              rcases refInBounds_iff.mp (hsrc k (by simp)) with hreg | hconst
              · have := Operand.registerInBounds_iff.mp hreg
                omega
              · exact hconst
          | add =>
              obtain ⟨dst, lhs, rhs, rfl⟩ := List.length_eq_three.mp hlen
              obtain ⟨hdst, hsrc, -⟩ := operandDefect?_eq_none_iff.mp h
              exact .add hdst (hsrc lhs (by simp)) (hsrc rhs (by simp))
        · cases h
  · intro h
    cases h with
    | move hdst hsrc =>
        exact operandDefect?_eq_none_iff.mpr
          ⟨hdst, by simpa using hsrc, fun h => by cases h⟩
    | @loadConstant dst k hdst hk =>
        have hneg := (Operand.constantInBounds_iff.mp hk).1
        exact operandDefect?_eq_none_iff.mpr
          ⟨hdst, by simpa using refInBounds_iff.mpr (Or.inr hk),
            fun _ => by simpa [Operand.isConstant] using hneg⟩
    | add hdst hlhs hrhs =>
        exact operandDefect?_eq_none_iff.mpr
          ⟨hdst, by simpa using ⟨hlhs, hrhs⟩, fun h => by cases h⟩

theorem codeDefect?_eq_none_iff {f : Frame} :
    f.codeDefect? = none ↔ ∀ instr ∈ f.code, instr.Valid f := by
  rw [codeDefect?, List.findSome?_eq_none_iff]
  constructor
  · intro h instr hmem
    obtain ⟨i, hi⟩ := List.mem_iff_getElem?.mp hmem
    exact instructionDefect?_eq_none_iff.mp
      (h (instr, i) (List.mem_zipIdx_iff_getElem?.mpr hi))
  · rintro h ⟨instr, i⟩ hmem
    have hi := List.mem_zipIdx_iff_getElem?.mp hmem
    exact instructionDefect?_eq_none_iff.mpr (h instr (List.mem_of_getElem? hi))

theorem resultDefect?_eq_none_iff {f : Frame} :
    f.resultDefect? = none ↔ ∀ ref, f.result = some ref →
      f.refInBounds ref = true := by
  rw [resultDefect?]
  cases f.result with
  | none => simp
  | some ref => simp

/-- The check finds no defect in exactly the valid frames. -/
theorem defect?_eq_none_iff {f : Frame} : f.defect? = none ↔ f.Valid := by
  rw [defect?, Option.or_eq_none_iff, Option.or_eq_none_iff,
    shapeDefect?_eq_none_iff, codeDefect?_eq_none_iff, resultDefect?_eq_none_iff]
  constructor
  · rintro ⟨⟨hsize, hin, hout⟩, hcode, hresult⟩
    exact ⟨hsize, hin, hout, hcode, hresult⟩
  · rintro ⟨hsize, hin, hout, hcode, hresult⟩
    exact ⟨⟨hsize, hin, hout⟩, hcode, hresult⟩

theorem checked_of_valid {f : Frame} (hf : f.Valid) (validate : Bool) :
    f.checked validate = .ok f := by
  rw [checked, defect?_eq_none_iff.mpr hf, ite_self]

end Frame

/-! ## Reading -/

namespace Machine

/-- A valid frame gets a machine, whether it is checked or not. -/
theorem create_of_valid {f : Frame} (hf : f.Valid) (validate : Bool) :
    create f validate = .ok (start f) := by
  rw [create, Frame.checked_of_valid hf]
  rfl

/-- The value of an operand, nil if there is none. -/
def look (m : Machine) (ref : Int) : Value :=
  if Operand.isConstant ref then
    m.frame.constants.getD (Operand.constantIndex ref).toNat .nil
  else m.registers.getD ref.toNat .nil

theorem value_of_inBounds {m : Machine} {ref : Int}
    (h : m.frame.refInBounds ref = true) :
    m.value ref = .ok (m.look ref) := by
  rw [Frame.refInBounds, Operand.inBounds] at h
  rw [value, look]
  split
  · rename_i hneg
    rw [if_pos hneg] at h
    rw [constant, if_pos h]
  · rename_i hneg
    rw [if_neg hneg] at h
    rw [register, if_pos h]

theorem constant_of_inBounds {m : Machine} {k : Int}
    (h : Operand.constantInBounds k m.frame.constants.length = true) :
    m.constant k = .ok (m.look k) := by
  have hneg : Operand.isConstant k = true := by
    simpa [Operand.isConstant] using (Operand.constantInBounds_iff.mp h).1
  rw [constant, if_pos h, look, if_pos hneg]

theorem setRegister_of_inBounds {m : Machine} {dst : Int}
    (h : Operand.registerInBounds dst m.frame.size = true) (v : Value) :
    m.setRegister dst v
      = .ok { m with registers := m.registers.set dst.toNat v } := by
  rw [setRegister, if_pos h]

theorem number_of_inBounds {m : Machine} {ref : Int}
    (h : m.frame.refInBounds ref = true) :
    m.number ref = match m.look ref with
      | .number x => .ok x
      | v => .error (.notNumber ref v) := by
  rw [number, value_of_inBounds h]
  rfl

/-! ## Steps on valid instructions -/

/-- A step that wrote `v` to `dst`. -/
def wrote (m : Machine) (op : Opcode) (args : List Int) (dst : Int) (v : Value) :
    Outcome × Machine :=
  (.executed ⟨m.pc, op, args, m.registers.set dst.toNat v⟩,
    { m with registers := m.registers.set dst.toNat v, pc := m.pc + 1 })

/-- A step at a sum whose operand `ref` is `v`, no number. -/
def refused (m : Machine) (ref : Int) (v : Value) : Outcome × Machine :=
  (.failed (.fault (.notNumber ref v)),
    { m with pc := m.pc + 1, status := .faulted })

section Steps

variable {m : Machine} (hs : m.status ≠ .faulted)

include hs

theorem step_of_fetch {instr : Instruction}
    (hc : m.frame.code[m.pc]? = some instr) :
    m.step = m.stepAt instr.tag instr.args := by
  rw [step, if_neg hs, hc]

theorem step_move {dst src : Int}
    (hc : m.frame.code[m.pc]? = some (.move dst src))
    (hdst : Operand.registerInBounds dst m.frame.size = true)
    (hsrc : m.frame.refInBounds src = true) :
    m.step = m.wrote .move [dst, src] dst (m.look src) := by
  have hperf : m.perform (.move dst src)
      = .ok { m with registers := m.registers.set dst.toNat (m.look src) } := by
    rw [perform, value_of_inBounds hsrc]
    exact setRegister_of_inBounds hdst _
  rw [step_of_fetch hs hc]
  simp only [Instruction.move, stepAt, Action.ofOpcode?, hperf]
  rfl

theorem step_loadConstant {dst k : Int}
    (hc : m.frame.code[m.pc]? = some (.loadConstant dst k))
    (hdst : Operand.registerInBounds dst m.frame.size = true)
    (hk : Operand.constantInBounds k m.frame.constants.length = true) :
    m.step = m.wrote .loadConstant [dst, k] dst (m.look k) := by
  have hperf : m.perform (.loadConstant dst k)
      = .ok { m with registers := m.registers.set dst.toNat (m.look k) } := by
    rw [perform, constant_of_inBounds hk]
    exact setRegister_of_inBounds hdst _
  rw [step_of_fetch hs hc]
  simp only [Instruction.loadConstant, stepAt, Action.ofOpcode?, hperf]
  rfl

/-- A sum writes the sum of its operands, or blames the first one that is no
number. -/
theorem step_add {dst lhs rhs : Int}
    (hc : m.frame.code[m.pc]? = some (.add dst lhs rhs))
    (hdst : Operand.registerInBounds dst m.frame.size = true)
    (hlhs : m.frame.refInBounds lhs = true)
    (hrhs : m.frame.refInBounds rhs = true) :
    m.step = match m.look lhs, m.look rhs with
      | .number x, .number y =>
          m.wrote .add [dst, lhs, rhs] dst (.number (x.add y))
      | .number _, v => m.refused rhs v
      | v, _ => m.refused lhs v := by
  have hset := setRegister_of_inBounds (m := m) hdst
  rw [step_of_fetch hs hc]
  simp only [Instruction.add, stepAt, Action.ofOpcode?, perform]
  rw [number_of_inBounds hlhs, number_of_inBounds hrhs]
  cases m.look lhs <;> cases m.look rhs <;>
    simp only [bind, Except.bind, hset, fail, wrote, refused]

end Steps

end Machine

end RegisterVm
