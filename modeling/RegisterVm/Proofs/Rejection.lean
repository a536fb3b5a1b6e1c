import RegisterVm.Proofs.Safety

/-!
# Frames that are rejected do not run

Checking a frame is not only enough for it to be safe, it asks for nothing more
than a run does. An instruction that executes is valid (`valid_of_perform`), so
the first invalid one stops the machine, if nothing stops it before: the
instructions up to there are valid, and those stop only at a sum
(`runFor_until`). A frame whose only defect is its result runs, but has no
result in the end.
-/

namespace RegisterVm

namespace Frame

/-! ## The place of a defect -/

theorem operandDefect?_index {f : Frame} {i : Nat} {op : Opcode}
    {args : List Int} {d : Defect} (h : f.operandDefect? i op args = some d) :
    d.index? = some i := by
  cases args with
  | nil => cases h
  | cons dst sources =>
      rw [operandDefect?] at h
      split at h
      · cases h
        rfl
      · split at h
        · cases h
          rfl
        · split at h
          · obtain ⟨src, -, rfl⟩ := Option.map_eq_some_iff.mp h
            rfl
          · cases h

theorem instructionDefect?_index {f : Frame} {i : Nat} {instr : Instruction}
    {d : Defect} (h : f.instructionDefect? i instr = some d) :
    d.index? = some i := by
  rw [instructionDefect?] at h
  split at h
  · split at h
    · exact operandDefect?_index h
    · cases h
      rfl
  · cases h
    rfl

theorem resultDefect?_eq_some {f : Frame} {d : Defect}
    (h : f.resultDefect? = some d) :
    d.index? = none ∧ ∃ ref, f.result = some ref
      ∧ ¬ (f.refInBounds ref = true) := by
  rw [resultDefect?] at h
  split at h
  · rename_i ref hres
    split at h
    · cases h
    · rename_i hbad
      cases h
      exact ⟨rfl, ref, hres, hbad⟩
  · cases h

/-- A defect in the code has a place, that of the first invalid instruction. -/
theorem codeDefect?_eq_some {f : Frame} {d : Defect}
    (h : f.codeDefect? = some d) :
    ∃ i instr, d.index? = some i ∧ f.code[i]? = some instr ∧ ¬ instr.Valid f
      ∧ ∀ j instr, j < i → f.code[j]? = some instr → instr.Valid f := by
  rw [codeDefect?] at h
  obtain ⟨before, ⟨instr, i⟩, rest, hsplit, hdefect, hnone⟩ :=
    List.findSome?_eq_some_iff.mp h
  have hat : ∀ j : Nat, (before ++ (instr, i) :: rest)[j]?
      = (f.code[j]?).map fun a => (a, j) := by
    intro j
    rw [← hsplit, List.getElem?_zipIdx, Nat.zero_add]
  -- the place of the defect is the number of instructions before it
  have hi := hat before.length
  rw [List.getElem?_append_right (Nat.le_refl _), Nat.sub_self,
    List.getElem?_cons_zero] at hi
  obtain ⟨instr', hc, heq⟩ := Option.map_eq_some_iff.mp hi.symm
  cases heq
  refine ⟨before.length, instr, instructionDefect?_index hdefect, hc, ?_, ?_⟩
  · intro hvalid
    have hvalid' :=
      instructionDefect?_eq_none_iff (i := before.length).mpr hvalid
    cases hdefect.symm.trans hvalid'
  · intro j instr' hj hc'
    have hbefore := hat j
    rw [List.getElem?_append_left hj, hc', Option.map_some] at hbefore
    exact instructionDefect?_eq_none_iff.mp
      (hnone _ (List.mem_of_getElem? hbefore))

section SaneShape

variable {f : Frame} (hsize : (f.locals.length : Int) ≤ f.size)
    (hin : 0 ≤ f.inputs)
  (hout : 0 ≤ f.outputs) {d : Defect} (hd : f.defect? = some d)

include hsize hin hout hd

/-- A frame of a sane shape is rejected for its code, or else for its result. -/
theorem defect?_eq_some :
    f.codeDefect? = some d
      ∨ f.codeDefect? = none ∧ f.resultDefect? = some d := by
  rw [defect?, shapeDefect?_eq_none_iff.mpr ⟨hsize, hin, hout⟩,
    Option.none_or] at hd
  exact Option.or_eq_some_iff.mp hd

theorem invalid_of_index {i : Nat} (hi : d.index? = some i) :
    ∃ instr, f.code[i]? = some instr ∧ ¬ instr.Valid f
      ∧ ∀ j instr, j < i → f.code[j]? = some instr → instr.Valid f := by
  rcases defect?_eq_some hsize hin hout hd with hcode | ⟨-, hres⟩
  · obtain ⟨i', instr, hi', hc, hbad, hv⟩ := codeDefect?_eq_some hcode
    rw [hi'] at hi
    cases hi
    exact ⟨instr, hc, hbad, hv⟩
  · rw [(resultDefect?_eq_some hres).1] at hi
    cases hi

theorem invalid_of_no_index (hi : d.index? = none) :
    (∀ instr ∈ f.code, instr.Valid f)
    ∧ ∃ ref, f.result = some ref ∧ ¬ (f.refInBounds ref = true) := by
  rcases defect?_eq_some hsize hin hout hd with hcode | ⟨hcode, hres⟩
  · obtain ⟨i', -, hi', -⟩ := codeDefect?_eq_some hcode
    rw [hi'] at hi
    cases hi
  · exact ⟨codeDefect?_eq_none_iff.mp hcode, (resultDefect?_eq_some hres).2⟩

end SaneShape

end Frame

namespace Machine

/-! ## Instructions that execute are valid -/

variable {m m' : Machine}

theorem inBounds_of_value {ref : Int} {v : Value} (h : m.value ref = .ok v) :
    m.frame.refInBounds ref = true := by
  rw [Frame.refInBounds, Operand.inBounds]
  rw [value, constant, register] at h
  split
  · rename_i hneg
    rw [if_pos hneg] at h
    by_contra hbad
    rw [if_neg hbad] at h
    cases h
  · rename_i hneg
    rw [if_neg hneg] at h
    by_contra hbad
    rw [if_neg hbad] at h
    cases h

theorem inBounds_of_number {ref : Int} {x : Binary64}
    (h : m.number ref = .ok x) :
    m.frame.refInBounds ref = true := by
  cases hv : m.value ref with
  | error fault =>
      rw [number, hv] at h
      cases h
  | ok v => exact inBounds_of_value hv

theorem inBounds_of_constant {k : Int} {v : Value} (h : m.constant k = .ok v) :
    Operand.constantInBounds k m.frame.constants.length = true := by
  by_contra hbad
  rw [constant, if_neg hbad] at h
  cases h

theorem inBounds_of_setRegister {dst : Int} {v : Value}
    (h : m.setRegister dst v = .ok m') :
    Operand.registerInBounds dst m.frame.size = true := by
  by_contra hbad
  rw [setRegister, if_neg hbad] at h
  cases h

/-- An opcode that can be run on its operands is valid on them. -/
theorem valid_of_perform {op : Opcode} {args : List Int} {action : Action}
    (ha : Action.ofOpcode? op args = some action)
    (h : m.perform action = .ok m') :
    Instruction.Valid m.frame ⟨.opcode op, args⟩ := by
  rw [Action.ofOpcode?.eq_def] at ha
  split at ha
  · rename_i dst src
    cases ha
    cases hv : m.value src with
    | error fault =>
        rw [perform, hv] at h
        cases h
    | ok v =>
        rw [perform, hv] at h
        exact .move (inBounds_of_setRegister h) (inBounds_of_value hv)
  · rename_i dst k
    cases ha
    cases hv : m.constant k with
    | error fault =>
        rw [perform, hv] at h
        cases h
    | ok v =>
        rw [perform, hv] at h
        exact .loadConstant (inBounds_of_setRegister h) (inBounds_of_constant hv)
  · rename_i dst lhs rhs
    cases ha
    cases hx : m.number lhs with
    | error fault =>
        rw [perform, hx] at h
        cases h
    | ok x =>
        cases hy : m.number rhs with
        | error fault =>
            rw [perform, hx, hy] at h
            cases h
        | ok y =>
            rw [perform, hx, hy] at h
            exact .add (inBounds_of_setRegister h) (inBounds_of_number hx)
              (inBounds_of_number hy)
  · cases ha

/-- An instruction that is not valid fails and changes no register, whatever
they hold. -/
theorem step_of_invalid {instr : Instruction}
    (hc : m.frame.code[m.pc]? = some instr) (hbad : ¬ instr.Valid m.frame) :
    ∃ err m', m.step = (.failed err, m') ∧ m'.registers = m.registers := by
  by_cases hs : m.status = .faulted
  · exact ⟨_, m, step_of_faulted hs, rfl⟩
  · obtain ⟨tag, args⟩ := instr
    rw [step_of_fetch hs hc]
    cases tag with
    | opcode op =>
        simp only [stepAt]
        split
        · exact ⟨_, _, rfl, rfl⟩
        · rename_i action ha
          split
          · rename_i m' hperf
            exact absurd (valid_of_perform ha hperf) hbad
          · exact ⟨_, _, rfl, rfl⟩
    | number n =>
        simp only [stepAt]
        split
        · exact ⟨_, _, rfl, rfl⟩
        · exact ⟨_, _, rfl, rfl⟩
    | word s => exact ⟨_, _, rfl, rfl⟩

theorem value_of_not_inBounds {ref : Int}
    (h : ¬ (m.frame.refInBounds ref = true)) :
    ∃ fault, m.value ref = .error fault ∧ fault.family = .runtime := by
  rw [Frame.refInBounds, Operand.inBounds] at h
  rw [value]
  split
  · rename_i hneg
    rw [if_pos hneg] at h
    exact ⟨_, if_neg h, rfl⟩
  · rename_i hneg
    rw [if_neg hneg] at h
    exact ⟨_, if_neg h, rfl⟩

/-! ## Runs up to an instruction -/

/-- If the instructions before the one at `i` are valid, a run is refused at a
sum before `i`, or goes on from `i` after it executed all of them in order. -/
theorem runFor_until {f : Frame} {i : Nat} (hi : i ≤ f.code.length)
    (hv : ∀ j instr, j < i → f.code[j]? = some instr → instr.Valid f) (n : Nat)
    {k : Nat} {m : Machine} (hm : m.frame = f) (hs : m.status ≠ .faulted)
    (hk : m.pc + k = i) :
    (∃ j, j < k ∧ (m.runFor (n + k)).events.map Event.pc = List.range' m.pc j
        ∧ ∃ ref v, (m.runFor (n + k)).failure = some (.fault (.notNumber ref v)))
      ∨ ∃ (m' : Machine) (events : List Event), m'.frame = f ∧ m'.pc = i
        ∧ m'.status ≠ .faulted
        ∧ events.map Event.pc = List.range' m.pc k
        ∧ m.runFor (n + k)
          = ⟨events ++ (m'.runFor n).events, (m'.runFor n).machine,
            (m'.runFor n).failure⟩ := by
  induction k generalizing m with
  | zero => exact Or.inr ⟨m, [], hm, hk, hs, rfl, rfl⟩
  | succ k ih =>
      have hadv := step_advance hs fun instr hc => by
        rw [hm] at hc ⊢
        exact hv m.pc instr (by omega) hc
      rw [← Nat.add_assoc, runFor]
      generalize m.step = r at hadv
      cases hadv with
      | ended hc =>
          rw [hm, List.getElem?_eq_none_iff] at hc
          omega
      | refused hadd => exact Or.inl ⟨0, Nat.succ_pos k, rfl, _, _, rfl⟩
      | @wrote op args dst v hc hadd =>
          have hnext : (m.wrote op args dst v).2.pc + k = i := by
            simp only [wrote]
            omega
          rcases ih (m := (m.wrote op args dst v).2) hm hs hnext with
            ⟨j, hj, hevents, hfail⟩ | ⟨m', events, hm', hpc, hs', hevents, hrun⟩
          · refine Or.inl ⟨j + 1, by omega, ?_, hfail⟩
            simp only [wrote] at hevents ⊢
            rw [List.map_cons, hevents, List.range'_succ]
          · refine Or.inr ⟨m', ⟨m.pc, op, args, m.registers.set dst.toNat v⟩
              :: events, hm', hpc, hs', ?_, ?_⟩
            · rw [List.map_cons, hevents, List.range'_succ]
              rfl
            · simp only [wrote] at hrun ⊢
              rw [hrun, List.cons_append]

/-- A run stops at the first invalid instruction, or before it at a sum. -/
theorem run_of_invalid {f : Frame} {i : Nat} {instr : Instruction}
    (hc : f.code[i]? = some instr) (hbad : ¬ instr.Valid f)
    (hv : ∀ j instr, j < i → f.code[j]? = some instr → instr.Valid f) :
    ∃ k err, k ≤ i ∧ (start f).run.events.map Event.pc = List.range k
      ∧ (start f).run.failure = some err
      ∧ (k < i → ∃ ref v, err = .fault (.notNumber ref v)) := by
  have hlt := (List.getElem?_eq_some_iff.mp hc).1
  have hfuel : f.code.length + 1 = f.code.length - i + 1 + i := by omega
  rw [run, show (start f).frame.code.length + 1
    = f.code.length - i + 1 + i from hfuel]
  rcases runFor_until (Nat.le_of_lt hlt) hv (f.code.length - i + 1)
    (m := start f) rfl (by simp [start]) (Nat.zero_add i) with
    ⟨j, hj, hevents, ref, v, hfail⟩ | ⟨m, events, hm, hpc, -, hevents, hrun⟩
  · refine ⟨j, _, Nat.le_of_lt hj, ?_, hfail, fun _ => ⟨ref, v, rfl⟩⟩
    rw [hevents, List.range_eq_range']
    rfl
  · rw [← hm, ← hpc] at hc
    rw [← hm] at hbad
    obtain ⟨err, m', hstep, -⟩ := step_of_invalid hc hbad
    have hlast : m.runFor (f.code.length - i + 1) = ⟨[], m', some err⟩ := by
      rw [runFor, hstep]
    rw [hrun, hlast]
    refine ⟨i, err, Nat.le_refl i, ?_, rfl, fun h => absurd h (Nat.lt_irrefl i)⟩
    rw [List.append_nil, hevents, List.range_eq_range']
    rfl

/-- A run of valid code stops at a sum or comes to the end. -/
theorem run_of_valid_code {f : Frame} (hv : ∀ instr ∈ f.code, instr.Valid f) :
    (∃ ref v, (start f).run.failure = some (.fault (.notNumber ref v)))
      ∨ (start f).run.failure = none ∧ (start f).run.machine.status = .halted
        ∧ (start f).run.machine.frame = f := by
  rw [run, show (start f).frame.code.length + 1
    = 1 + f.code.length from Nat.add_comm _ _]
  rcases runFor_until (Nat.le_refl f.code.length)
    (fun _ _ _ hc => hv _ (List.mem_of_getElem? hc)) 1 (m := start f) rfl
    (by simp [start]) (Nat.zero_add _) with
    ⟨-, -, -, ref, v, hfail⟩ | ⟨m, events, hm, hpc, hs, -, hrun⟩
  · exact Or.inl ⟨ref, v, hfail⟩
  · have hend : m.frame.code[m.pc]? = none := by
      rw [hm, hpc]
      exact List.getElem?_eq_none (Nat.le_refl _)
    have hstep : m.step = (.ended, { m with status := .halted }) := by
      rw [step, if_neg hs, hend]
    have hlast : m.runFor 1 = ⟨[], { m with status := .halted }, none⟩ := by
      rw [runFor, hstep]
    rw [hrun, hlast]
    exact Or.inr ⟨rfl, rfl, hm⟩

/-- A run of valid code with no valid result stops at a sum, or has no result at
the end. -/
theorem run_of_bad_result {f : Frame} (hv : ∀ instr ∈ f.code, instr.Valid f)
    {ref : Int} (hres : f.result = some ref)
    (hbad : ¬ (f.refInBounds ref = true)) :
    (∃ ref v, (start f).run.failure = some (.fault (.notNumber ref v)))
      ∨ (start f).run.failure = none ∧ (start f).run.machine.status = .halted
        ∧ ∃ fault, (start f).run.machine.result = .error fault
          ∧ fault.family = .runtime := by
  rcases run_of_valid_code hv with hfail | ⟨hfail, hstatus, hframe⟩
  · exact Or.inl hfail
  · rw [← hframe] at hbad hres
    obtain ⟨fault, hvalue, hfamily⟩ := value_of_not_inBounds hbad
    refine Or.inr ⟨hfail, hstatus, fault, ?_, hfamily⟩
    rw [result, hres]
    simp only [hvalue]
    rfl

/-! ## Rejected frames -/

/-- A frame of a sane shape that is rejected does not run to a result. If the
defect is in an instruction, an unchecked machine gets no further than there,
and the instruction fails whatever the registers hold. If it is not, the machine
halts without a result, unless a sum stops it. -/
theorem stops_of_rejected {f : Frame} (hsize : (f.locals.length : Int) ≤ f.size)
    (hin : 0 ≤ f.inputs) (hout : 0 ≤ f.outputs) {m : Machine}
    (hm : create f false = .ok m) :
    (∀ d i, f.defect? = some d → d.index? = some i →
      (∃ k err, k ≤ i ∧ m.run.events.map Event.pc = List.range k
        ∧ m.run.failure = some err
        ∧ (k < i → ∃ ref v, err = .fault (.notNumber ref v)))
      ∧ ∀ m₁ : Machine, m₁.frame = f → m₁.pc = i →
        ∃ err m₂, m₁.step = (.failed err, m₂) ∧ m₂.registers = m₁.registers)
    ∧ (∀ d, f.defect? = some d → d.index? = none →
      (∃ ref v, m.run.failure = some (.fault (.notNumber ref v)))
      ∨ m.run.failure = none ∧ m.run.machine.status = .halted
        ∧ ∃ fault, m.run.machine.result = .error fault ∧ fault.family = .runtime)
    ∧ (m.run.failure = none → (∃ v, m.run.machine.result = .ok v) →
      f.defect? = none) := by
  cases hm
  refine ⟨?_, ?_, ?_⟩
  · intro d i hd hi
    obtain ⟨instr, hc, hbad, hv⟩ := Frame.invalid_of_index hsize hin hout hd hi
    refine ⟨run_of_invalid hc hbad hv, fun m₁ hm₁ hpc => ?_⟩
    subst hm₁ hpc
    exact step_of_invalid hc hbad
  · intro d hd hi
    obtain ⟨hv, ref, hres, hbad⟩ :=
      Frame.invalid_of_no_index hsize hin hout hd hi
    exact run_of_bad_result hv hres hbad
  · rintro hnone ⟨v, hresult⟩
    by_contra hdefect
    obtain ⟨d, hd⟩ := Option.ne_none_iff_exists'.mp hdefect
    cases hi : d.index? with
    | some i =>
        obtain ⟨instr, hc, hbad, hv⟩ :=
          Frame.invalid_of_index hsize hin hout hd hi
        obtain ⟨-, err, -, -, hfail, -⟩ := run_of_invalid hc hbad hv
        rw [hnone] at hfail
        cases hfail
    | none =>
        obtain ⟨hv, ref, hres, hbad⟩ :=
          Frame.invalid_of_no_index hsize hin hout hd hi
        rcases run_of_bad_result hv hres hbad with ⟨_, _, hfail⟩
          | ⟨-, -, fault, herr, -⟩
        · rw [hnone] at hfail
          cases hfail
        · rw [hresult] at herr
          cases herr

/-- A frame with a tag that is the number of an opcode, after a sum that
runs. -/
def taggedByNumber : Frame where
  size := 1
  constants := [.number .nan]
  locals := ["x"]
  code := [.add 0 (-1) (-1), ⟨.number 1, [0, 0]⟩]

theorem stops_of_rejected_taggedByNumber :
    (start taggedByNumber).run.failure = some (.tag (.noOperandCount (.number 1)))
      ∧ ∀ registers, ∃ err m,
        (Machine.mk taggedByNumber registers 1 .running).step = (.failed err, m)
        ∧ m.registers = registers :=
  ⟨by decide, fun registers =>
    ((stops_of_rejected (f := taggedByNumber) (by decide) (by decide)
      (by decide) rfl).1 (.notOpcode 1 (.number 1)) 1 (by decide) rfl).2
      _ rfl rfl⟩

end Machine

end RegisterVm
