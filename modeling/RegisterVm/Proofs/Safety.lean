import Mathlib.Data.List.Induction
import RegisterVm.Proofs.Validity

/-!
# Valid frames are safe

Where the instruction at hand is valid, a step can do three things
(`Machine.Advance`): come to the end, write a register, or be refused at a sum
with an operand that is no number. That decides everything a machine for a valid
frame can do, also if somebody writes its registers between the steps:
`Machine.afterAll` is the machine after any sequence of steps and writes.
-/

namespace RegisterVm

namespace Machine

/-! ## A step on a valid instruction -/

/-- The instruction at hand is a sum with an operand that is no number. -/
def AddsNonNumber (m : Machine) : Prop :=
  ∃ dst lhs rhs, m.frame.code[m.pc]? = some (.add dst lhs rhs)
    ∧ ∃ ref, (ref = lhs ∨ ref = rhs) ∧ ∃ v, m.value ref = .ok v
      ∧ ∀ x, v ≠ .number x

theorem not_addsNonNumber {m : Machine}
    (h : ∀ dst lhs rhs, m.frame.code[m.pc]? ≠ some (.add dst lhs rhs)) :
    ¬ m.AddsNonNumber := by
  rintro ⟨dst, lhs, rhs, hc, -⟩
  exact h dst lhs rhs hc

theorem addsNonNumber_iff {m : Machine} {dst lhs rhs : Int}
    (hc : m.frame.code[m.pc]? = some (.add dst lhs rhs))
    (hlhs : m.frame.refInBounds lhs = true)
    (hrhs : m.frame.refInBounds rhs = true) :
    m.AddsNonNumber
      ↔ (∀ x, m.look lhs ≠ .number x) ∨ ∀ x, m.look rhs ≠ .number x := by
  constructor
  · rintro ⟨dst', lhs', rhs', hc', ref, href, v, hv, hne⟩
    rw [hc] at hc'
    cases hc'
    rcases href with rfl | rfl
    · rw [value_of_inBounds hlhs] at hv
      cases hv
      exact Or.inl hne
    · rw [value_of_inBounds hrhs] at hv
      cases hv
      exact Or.inr hne
  · rintro (hne | hne)
    · exact ⟨dst, lhs, rhs, hc, lhs, Or.inl rfl, _, value_of_inBounds hlhs, hne⟩
    · exact ⟨dst, lhs, rhs, hc, rhs, Or.inr rfl, _, value_of_inBounds hrhs, hne⟩

/-- What a step can do where the instruction at hand is valid. -/
inductive Advance (m : Machine) : Outcome × Machine → Prop where
  | ended (hc : m.frame.code[m.pc]? = none) :
      Advance m (.ended, { m with status := .halted })
  | wrote {op : Opcode} {args : List Int} {dst : Int} {v : Value}
      (hc : m.frame.code[m.pc]? ≠ none)
      (hadd : ¬ m.AddsNonNumber) : Advance m (m.wrote op args dst v)
  | refused {ref : Int} {v : Value} (hadd : m.AddsNonNumber) :
      Advance m (m.refused ref v)

theorem Advance.failed_iff {m : Machine} {r : Outcome × Machine}
    (h : m.Advance r) : (∃ err, r.1 = .failed err) ↔ m.AddsNonNumber := by
  cases h with
  | ended hc =>
      refine iff_of_false (by simp) (not_addsNonNumber fun _ _ _ h => ?_)
      rw [hc] at h
      cases h
  | wrote hc hadd => exact iff_of_false (by simp [Machine.wrote]) hadd
  | refused hadd => exact iff_of_true ⟨_, rfl⟩ hadd

theorem step_advance {m : Machine} (hs : m.status ≠ .faulted)
    (hv : ∀ instr, m.frame.code[m.pc]? = some instr → instr.Valid m.frame) :
    m.Advance m.step := by
  cases hc : m.frame.code[m.pc]? with
  | none =>
      rw [step, if_neg hs, hc]
      exact .ended hc
  | some instr =>
      have hsome : m.frame.code[m.pc]? ≠ none := by simp [hc]
      cases hv instr hc with
      | move hdst hsrc =>
          rw [step_move hs hc hdst hsrc]
          exact .wrote hsome
            (not_addsNonNumber fun _ _ _ h => by rw [hc] at h; cases h)
      | loadConstant hdst hk =>
          rw [step_loadConstant hs hc hdst hk]
          exact .wrote hsome
            (not_addsNonNumber fun _ _ _ h => by rw [hc] at h; cases h)
      | @add dst lhs rhs hdst hlhs hrhs =>
          have hadd := addsNonNumber_iff hc hlhs hrhs
          rw [step_add hs hc hdst hlhs hrhs]
          cases hl : m.look lhs with
          | number x =>
              cases hr : m.look rhs with
              | number y => exact .wrote hsome (by simp [hadd, hl, hr])
              | _ => exact .refused (by simp [hadd, hr])
          | _ => exact .refused (by simp [hadd, hl])

end Machine

/-! ## Steps and writes in any order -/

/-- What can be done to a machine from outside. -/
inductive Call where
  | step
  | set (index : Int) (v : Value)

namespace Machine

/-- The machine after a call. A write out of bounds changes nothing. -/
def after (m : Machine) : Call → Machine
  | .step => m.step.2
  | .set index v => (m.setRegister index v).toOption.getD m

def afterAll (m : Machine) (calls : List Call) : Machine := calls.foldl after m

theorem afterAll_concat (m : Machine) (calls : List Call) (call : Call) :
    m.afterAll (calls ++ [call]) = (m.afterAll calls).after call := by
  rw [afterAll, List.foldl_append]
  rfl

theorem after_set (m : Machine) (index : Int) (v : Value) :
    ∃ registers : List Value, registers.length = m.registers.length
      ∧ m.after (.set index v) = { m with registers := registers } := by
  rw [after, setRegister]
  split
  · exact ⟨_, List.length_set .., rfl⟩
  · exact ⟨_, rfl, rfl⟩

theorem step_of_faulted {m : Machine} (hs : m.status = .faulted) :
    m.step = (.failed (.fault .afterFault), m) := by
  rw [step, if_pos hs]

/-- A machine that runs `f`, with as many registers as `f` declares. -/
structure Runs (f : Frame) (m : Machine) : Prop where
  frame : m.frame = f
  length : (m.registers.length : Int) = f.size

namespace Runs

variable {f : Frame} (hf : f.Valid)

include hf

theorem start : Runs f (Machine.start f) where
  frame := rfl
  length := by
    have := hf.size
    simp only [Machine.start, List.length_replicate]
    omega

variable {m : Machine} (h : Runs f m)

include h

theorem step_advance (hs : m.status ≠ .faulted) : m.Advance m.step := by
  refine Machine.step_advance hs fun instr hc => ?_
  rw [h.frame] at hc ⊢
  exact hf.code instr (List.mem_of_getElem? hc)

theorem step : Runs f m.step.2 := by
  by_cases hs : m.status = .faulted
  · rw [step_of_faulted hs]
    exact h
  · have hadv := h.step_advance hf hs
    generalize m.step = r at hadv
    cases hadv with
    | ended hc => exact ⟨h.frame, h.length⟩
    | wrote hc hadd => exact ⟨h.frame, by simpa [wrote] using h.length⟩
    | refused hadd => exact ⟨h.frame, h.length⟩

theorem after (call : Call) : Runs f (m.after call) := by
  cases call with
  | step => exact h.step hf
  | set index v =>
      obtain ⟨registers, hlength, hset⟩ := m.after_set index v
      rw [hset]
      exact ⟨h.frame, by rw [← h.length, hlength]⟩

/-- Every sequence of steps and writes leaves the register file whole. -/
theorem afterAll (calls : List Call) : Runs f (m.afterAll calls) := by
  induction calls using List.reverseRecOn with
  | nil => exact h
  | append_singleton calls call ih =>
      rw [afterAll_concat]
      exact ih.after hf call

/-- A call makes a machine faulted only as a step at a sum with an operand that
is no number. -/
theorem faulted_after_iff (call : Call) : (m.after call).status = .faulted ↔
    m.status = .faulted
      ∨ call = .step
        ∧ ∃ ref v, m.step.1 = .failed (.fault (.notNumber ref v)) := by
  cases call with
  | set index v =>
      obtain ⟨registers, -, hset⟩ := m.after_set index v
      rw [hset]
      simp
  | step =>
      by_cases hs : m.status = .faulted
      · simp [Machine.after, step_of_faulted hs, hs]
      · have hadv := h.step_advance hf hs
        rw [Machine.after]
        generalize m.step = r at hadv
        cases hadv with
        | ended hc => simp [hs]
        | wrote hc hadd => simp [hs, wrote]
        | refused hadd => simp [refused]

/-- A machine is faulted if and only if one of the steps so far was refused. -/
theorem faulted_afterAll_iff (hs : m.status ≠ .faulted) (calls : List Call) :
    (m.afterAll calls).status = .faulted
      ↔ ∃ before rest ref v, calls = before ++ .step :: rest
      ∧ (m.afterAll before).step.1 = .failed (.fault (.notNumber ref v)) := by
  induction calls using List.reverseRecOn with
  | nil => simp [Machine.afterAll, hs]
  | append_singleton calls call ih =>
      rw [afterAll_concat, (h.afterAll hf calls).faulted_after_iff hf, ih]
      constructor
      · rintro (⟨before, rest, ref, v, rfl, hfail⟩ | ⟨rfl, ref, v, hfail⟩)
        · exact ⟨before, rest ++ [call], ref, v, by simp, hfail⟩
        · exact ⟨calls, [], ref, v, rfl, hfail⟩
      · rintro ⟨before, rest, ref, v, heq, hfail⟩
        rcases List.eq_nil_or_concat rest with rfl | ⟨rest, last, rfl⟩
        · obtain ⟨rfl, hcall⟩ := List.append_inj' heq rfl
          exact Or.inr ⟨List.head_eq_of_cons_eq hcall, ref, v, hfail⟩
        · have heq' : calls ++ [call] = (before ++ .step :: rest) ++ [last] := by
            simpa using heq
          obtain ⟨rfl, -⟩ := List.append_inj' heq' rfl
          exact Or.inl ⟨before, rest, ref, v, rfl, hfail⟩

theorem step_failed (hs : m.status ≠ .faulted) {err : StepError}
    (herr : m.step.1 = .failed err) :
    ∃ ref v, err = .fault (.notNumber ref v) := by
  have hadv := h.step_advance hf hs
  generalize m.step = r at hadv herr
  cases hadv with
  | ended hc => cases herr
  | wrote hc hadd => cases herr
  | refused hadd =>
      cases herr
      exact ⟨_, _, rfl⟩

theorem step_failed_iff (hs : m.status ≠ .faulted) :
    (∃ err, m.step.1 = .failed err) ↔ m.AddsNonNumber :=
  (h.step_advance hf hs).failed_iff

theorem result_ok : ∃ r, m.result = .ok r := by
  rw [result, h.frame]
  cases hres : f.result with
  | none => exact ⟨none, rfl⟩
  | some ref =>
      have hin : m.frame.refInBounds ref = true := by
        rw [h.frame]
        exact hf.result ref hres
      exact ⟨some (m.look ref), by simp [value_of_inBounds hin, Except.map]⟩

end Runs

/-- A machine for a frame without defects is safe whatever is done to it. Its
registers stay as many as the frame declares, a write in bounds and the result
never fail, and a step fails only at a sum with an operand that is no number, or
after it did. -/
theorem safe_of_checked {f : Frame} (h : f.defect? = none) (validate : Bool)
    (calls : List Call) :
    ∃ m₀ m, create f validate = .ok m₀ ∧ m = m₀.afterAll calls
      ∧ (m.registers.length : Int) = f.size
      ∧ (m.status ≠ .faulted → ∀ err, m.step.1 = .failed err →
        ∃ ref v, err = .fault (.notNumber ref v))
      ∧ (m.status ≠ .faulted → ((∃ err, m.step.1 = .failed err) ↔ m.AddsNonNumber))
      ∧ (m.status = .faulted → m.step.1 = .failed (.fault .afterFault))
      ∧ (m.status = .faulted ↔ ∃ before rest ref v, calls = before ++ .step :: rest
        ∧ (m₀.afterAll before).step.1 = .failed (.fault (.notNumber ref v)))
      ∧ (∀ index v, Operand.registerInBounds index f.size = true →
        ∃ m', m.setRegister index v = .ok m')
      ∧ ∃ r, m.result = .ok r := by
  have hf := Frame.defect?_eq_none_iff.mp h
  have hstart := Runs.start hf
  have hruns := hstart.afterAll hf calls
  refine ⟨start f, _, create_of_valid hf validate, rfl, hruns.length,
    fun hs err => hruns.step_failed hf hs, hruns.step_failed_iff hf, ?_,
    hstart.faulted_afterAll_iff hf (by simp [start]) calls, ?_,
    hruns.result_ok hf⟩
  · intro hs
    rw [step_of_faulted hs]
  · intro index v hindex
    rw [← hruns.frame] at hindex
    exact ⟨_, setRegister_of_inBounds hindex v⟩

/-- A sum of a register with itself. -/
def doubling : Frame where
  size := 1
  constants := [.number (.infinite false)]
  locals := ["x"]
  code := [.loadConstant 0 (-1), .add 0 0 0]
  result := some 0

/-- A write between the two steps takes the number away. -/
theorem safe_of_checked_doubling :
    ∃ m, m = (start doubling).afterAll [.step, .set 0 .nil, .step]
    ∧ (m.registers.length : Int) = 1 ∧ m.status = .faulted
    ∧ m.step.1 = .failed (.fault .afterFault) := by
  obtain ⟨m₀, m, hm₀, rfl, hlength, -, -, hdead, -⟩ :=
    safe_of_checked (f := doubling) (by decide) false [.step, .set 0 .nil, .step]
  cases hm₀
  exact ⟨_, rfl, hlength, by decide, hdead (by decide)⟩

end Machine

end RegisterVm
