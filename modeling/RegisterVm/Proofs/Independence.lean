import RegisterVm.Proofs.Assignment
import RegisterVm.Proofs.Progress

/-!
# Runs do not depend on what the registers held

Two machines for one frame are *alike* if they are at the same place in the same
state, and hold the same in every register that was written so far. If the frame
reads only registers that were written, like machines take like steps
(`Alike.step`). At the end of a frame that writes all its registers, they are
the same machine.

A compiled frame is of this kind, so a run of it can start with anything in the
registers.
-/

namespace RegisterVm

/-- An outcome without the registers that it shows. -/
def Outcome.bare : Outcome → Outcome
  | .executed e => .executed { e with registers := [] }
  | outcome => outcome

namespace Machine

/-- What a machine comes to: its result at the end of the code, or the error
that stops it. -/
def verdict (m : Machine) : Except StepError (Option Value) :=
  match m.run.failure with
  | some err => .error err
  | none => m.run.machine.result.mapError .fault

/-- A machine whose registers hold something at the start. -/
def startWith (f : Frame) (registers : List Value) : Machine :=
  { start f with registers := registers }

/-! ## Machines that are alike -/

/-- Machines for `f` that differ at most in registers that the first `k`
instructions do not write, of which all were executed. -/
structure Alike (f : Frame) (k : Nat) (m m' : Machine) : Prop where
  frame : m.frame = f
  frame' : m'.frame = f
  pc : m'.pc = m.pc
  status : m'.status = m.status
  length : m.registers.length = f.size.toNat
  length' : m'.registers.length = f.size.toNat
  executed : m.status ≠ .faulted → m.pc = k
  ended : m.status = .halted → f.code.length ≤ k
  same : ∀ r ∈ writtenBy (f.code.take k), m'.look r = m.look r

theorem Alike.start (f : Frame) {registers : List Value}
    (h : registers.length = f.size.toNat) :
    Alike f 0 (Machine.start f) (startWith f registers) where
  frame := rfl
  frame' := rfl
  pc := rfl
  status := rfl
  length := List.length_replicate
  length' := h
  executed _ := rfl
  ended hs := by cases hs
  same r hr := by cases hr

/-- What was alike in two register files is alike after the same write to both,
and so is what was written. -/
theorem look_set {m m' : Machine} (hframe : m'.frame = m.frame)
    (hlength : m'.registers.length = m.registers.length) {r dst : Int}
    (hsame : r = dst ∨ m'.look r = m.look r) (v : Value) (n n' : Nat) :
    look { m' with registers := m'.registers.set dst.toNat v, pc := n' } r
      = look { m with registers := m.registers.set dst.toNat v, pc := n } r := by
  simp only [look] at hsame ⊢
  rw [hframe] at hsame ⊢
  split
  · rfl
  · rename_i hpos
    simp only [if_neg hpos, List.getD_eq_getElem?_getD] at hsame ⊢
    rw [List.getElem?_set, List.getElem?_set, hlength]
    split
    · rfl
    · rename_i hne
      exact hsame.resolve_left fun heq => hne (heq ▸ rfl)

namespace Alike

variable {f : Frame} {k : Nat} {m m' : Machine} (h : Alike f k m m')

include h

/-- The same write to both. -/
theorem wrote (hs : m.status ≠ .faulted) {instr : Instruction}
    (hc : f.code[k]? = some instr) {dst : Int} (hdst : instr.dst? = some dst)
    (op : Opcode) (args : List Int) (v : Value) :
    (m'.wrote op args dst v).1.bare = (m.wrote op args dst v).1.bare
      ∧ Alike f (k + 1) (m.wrote op args dst v).2 (m'.wrote op args dst v).2 := by
  refine ⟨by simp only [Machine.wrote, Outcome.bare, h.pc], h.frame, h.frame',
    ?_, h.status, ?_, ?_, ?_, ?_, ?_⟩
  · simp only [Machine.wrote, h.pc]
  · simpa [Machine.wrote] using h.length
  · simpa [Machine.wrote] using h.length'
  · intro _
    simp only [Machine.wrote, h.executed hs]
  · exact fun hs' => Nat.le_succ_of_le (h.ended hs')
  · intro r hr
    refine look_set (h.frame'.trans h.frame.symm)
      (h.length'.trans h.length.symm) ?_ v _ _
    rw [List.take_add_one, hc, writtenBy, List.filterMap_append, ← writtenBy] at hr
    rcases List.mem_append.mp hr with hr | hr
    · exact Or.inr (h.same r hr)
    · exact Or.inl (by simpa [hdst] using hr)

theorem refused (ref : Int) (v : Value) :
    (m'.refused ref v).1.bare = (m.refused ref v).1.bare
      ∧ Alike f k (m.refused ref v).2 (m'.refused ref v).2 :=
  ⟨rfl, h.frame, h.frame', by simp only [Machine.refused, h.pc], rfl, h.length,
    h.length', fun hs => absurd rfl hs, fun hs => (by cases hs), h.same⟩

variable (hf : f.Valid) (hreads : f.ReadsWritten)

include hreads in
/-- The instruction at hand finds the same in its operands. -/
theorem look_source {instr : Instruction} (hc : f.code[k]? = some instr)
    {ref : Int} (hmem : ref ∈ instr.sources) : m'.look ref = m.look ref := by
  by_cases href : 0 ≤ ref
  · exact h.same ref (hreads k instr ref hc hmem href)
  · have hneg : Operand.isConstant ref = true := by
      simp only [Operand.isConstant, decide_eq_true_eq]
      omega
    rw [look, look, if_pos hneg, if_pos hneg, h.frame, h.frame']

include hf hreads

/-- Machines that are alike take like steps. -/
theorem step :
    m'.step.1.bare = m.step.1.bare ∧ ∃ k', Alike f k' m.step.2 m'.step.2 := by
  by_cases hs : m.status = .faulted
  · rw [step_of_faulted hs, step_of_faulted (h.status.trans hs)]
    exact ⟨rfl, k, h⟩
  have hs' : m'.status ≠ .faulted := by rw [h.status]; exact hs
  have hk := h.executed hs
  cases hc : f.code[k]? with
  | none =>
      have hend : m.step = (.ended, { m with status := .halted }) := by
        rw [Machine.step, if_neg hs, h.frame, hk, hc]
      have hend' : m'.step = (.ended, { m' with status := .halted }) := by
        rw [Machine.step, if_neg hs', h.frame', h.pc, hk, hc]
      rw [hend, hend']
      exact ⟨rfl, k, h.frame, h.frame', h.pc, rfl, h.length, h.length',
        fun _ => hk, fun _ => List.getElem?_eq_none_iff.mp hc, h.same⟩
  | some instr =>
      have hat : m.frame.code[m.pc]? = some instr := by rw [h.frame, hk, hc]
      have hat' : m'.frame.code[m'.pc]? = some instr := by
        rw [h.frame', h.pc, hk, hc]
      have hvalid := hf.code instr (List.mem_of_getElem? hc)
      have hlook : ∀ ref ∈ instr.sources, m'.look ref = m.look ref :=
        fun ref hmem => h.look_source hreads hc hmem
      cases hvalid with
      | @move dst src hdst hsrc =>
          rw [step_move hs hat (h.frame.symm ▸ hdst) (h.frame.symm ▸ hsrc),
            step_move hs' hat' (h.frame'.symm ▸ hdst) (h.frame'.symm ▸ hsrc),
            hlook src (by simp [Instruction.sources, Instruction.move])]
          obtain ⟨hbare, hnext⟩ :=
            h.wrote hs hc rfl .move [dst, src] (m.look src)
          exact ⟨hbare, _, hnext⟩
      | @loadConstant dst j hdst hj =>
          rw [step_loadConstant hs hat (h.frame.symm ▸ hdst) (h.frame.symm ▸ hj),
            step_loadConstant hs' hat' (h.frame'.symm ▸ hdst)
              (h.frame'.symm ▸ hj),
            hlook j (by simp [Instruction.sources, Instruction.loadConstant])]
          obtain ⟨hbare, hnext⟩ :=
            h.wrote hs hc rfl .loadConstant [dst, j] (m.look j)
          exact ⟨hbare, _, hnext⟩
      | @add dst lhs rhs hdst hlhs hrhs =>
          rw [step_add hs hat (h.frame.symm ▸ hdst) (h.frame.symm ▸ hlhs)
            (h.frame.symm ▸ hrhs), step_add hs' hat' (h.frame'.symm ▸ hdst)
              (h.frame'.symm ▸ hlhs) (h.frame'.symm ▸ hrhs),
            hlook lhs (by simp [Instruction.sources, Instruction.add]),
            hlook rhs (by simp [Instruction.sources, Instruction.add])]
          have hwrote := h.wrote hs hc rfl .add [dst, lhs, rhs]
          cases m.look lhs with
          | number x =>
              cases m.look rhs with
              | number y => exact ⟨(hwrote _).1, _, (hwrote _).2⟩
              | _ => exact ⟨(h.refused rhs _).1, _, (h.refused rhs _).2⟩
          | _ => exact ⟨(h.refused lhs _).1, _, (h.refused lhs _).2⟩

theorem stepped (n : Nat) : ∃ k', Alike f k' (m.stepped n) (m'.stepped n) := by
  induction n with
  | zero => exact ⟨k, h⟩
  | succ n ih =>
      obtain ⟨k₁, h₁⟩ := ih
      rw [stepped_succ, stepped_succ]
      exact (h₁.step hf hreads).2

/-- Machines that are alike run to the same end. -/
theorem runFor (n : Nat) : (m'.runFor n).failure = (m.runFor n).failure
    ∧ ∃ k', Alike f k' (m.runFor n).machine (m'.runFor n).machine := by
  induction n generalizing m m' k with
  | zero => exact ⟨rfl, k, h⟩
  | succ n ih =>
      obtain ⟨hbare, k₁, hnext⟩ := h.step hf hreads
      rw [Machine.runFor, Machine.runFor]
      generalize m.step = r at hbare hnext ⊢
      generalize m'.step = r' at hbare hnext ⊢
      obtain ⟨outcome, m₁⟩ := r
      obtain ⟨outcome', m₁'⟩ := r'
      cases outcome with
      | executed e =>
          cases outcome' with
          | executed e' => exact ih hnext
          | ended => cases hbare
          | failed err => cases hbare
      | ended =>
          cases outcome' with
          | executed e' => cases hbare
          | ended => exact ⟨rfl, k₁, hnext⟩
          | failed err => cases hbare
      | failed err =>
          cases outcome' with
          | executed e' => cases hbare
          | ended => cases hbare
          | failed err' =>
              cases hbare
              exact ⟨rfl, k₁, hnext⟩

omit hf hreads in
/-- At the end of code that writes all registers, nothing is left to differ. -/
theorem eq_of_halted (hall : f.WritesAll)
    (hs : m.status = .halted) : m' = m := by
  have hregs : m'.registers = m.registers := by
    refine List.ext_getElem (h.length'.trans h.length.symm) fun i hi' hi => ?_
    have hlt : (i : Int) < f.size := by
      have := h.length
      omega
    have hsame := h.same i (by
      rw [List.take_of_length_le (h.ended hs)]
      exact hall i (by omega) hlt)
    have hneg : ¬ (Operand.isConstant (i : Int) = true) := by
      simp [Operand.isConstant]
    simpa [look, hneg, hi, hi'] using hsame
  have hframe : m'.frame = m.frame := h.frame'.trans h.frame.symm
  have hpc := h.pc
  have hstatus := h.status
  cases m
  cases m'
  dsimp only at hregs hframe hpc hstatus
  subst hregs hframe hpc hstatus
  rfl

end Alike

/-- A run of valid code that writes all registers, and none of them later than
it reads it, does not depend on what they hold at the start. -/
theorem run_startWith {f : Frame} (hf : f.Valid) (hreads : f.ReadsWritten)
    (hall : f.WritesAll) {registers : List Value}
    (hlength : registers.length = f.size.toNat) :
    (startWith f registers).run.failure = (start f).run.failure
      ∧ ((start f).run.machine.status = .halted →
        (startWith f registers).run.machine = (start f).run.machine) := by
  obtain ⟨hfail, k, hend⟩ :=
    (Alike.start f hlength).runFor hf hreads (f.code.length + 1)
  exact ⟨hfail, hend.eq_of_halted hall⟩

theorem verdict_startWith {f : Frame} (hf : f.Valid) (hreads : f.ReadsWritten)
    (hall : f.WritesAll) {registers : List Value}
    (hlength : registers.length = f.size.toNat) :
    (startWith f registers).verdict = (start f).verdict := by
  obtain ⟨hfail, hend⟩ := run_startWith hf hreads hall hlength
  rw [verdict, verdict, hfail]
  rcases run_of_valid_code hf.code with ⟨ref, v, hstop⟩ | ⟨-, hhalted, -⟩
  · rw [hstop]
  · rw [hend hhalted]

end Machine

namespace Lowering

/-! ## Compiled frames -/

/-- Every register of a compiled frame is written, and none is read before it
is. So what the registers hold at the start makes no difference: every step has
the same outcome, the run has the same result, and if it comes to the end of the
code, the machine is the same with all its registers. -/
theorem lower_definitely_assigned {e : Expr} {f : Frame} (h : lower e = .ok f) :
    (∀ r, 0 ≤ r → r < f.size → ∃ instr ∈ f.code, instr.dst? = some r)
    ∧ (∀ (i : Nat) (instr : Instruction) (ref : Int), f.code[i]? = some instr →
      ref ∈ instr.sources → 0 ≤ ref → ∃ j < i, ∃ earlier : Instruction,
        f.code[j]? = some earlier ∧ earlier.dst? = some ref)
    ∧ (∀ ref, f.result = some ref → 0 ≤ ref →
      ∃ instr ∈ f.code, instr.dst? = some ref)
    ∧ ∀ registers : List Value, registers.length = f.size.toNat →
      (∀ n, ((Machine.startWith f registers).stepped n).step.1.bare
        = ((Machine.start f).stepped n).step.1.bare)
      ∧ (Machine.startWith f registers).verdict = (Machine.start f).verdict
      ∧ ((Machine.start f).run.machine.status = .halted →
        (Machine.startWith f registers).run.machine
          = (Machine.start f).run.machine) := by
  obtain ⟨c, l, hc⟩ := lower_compiled h
  have hvalid := hc.assembled.valid
  refine ⟨?_, ?_, ?_, ?_⟩
  · exact fun r hr hlt => List.mem_filterMap.mp (hc.writesAll r hr hlt)
  · intro i instr ref hi hmem href
    obtain ⟨earlier, hearlier, hdst⟩ :=
      List.mem_filterMap.mp (hc.readsWritten i instr ref hi hmem href)
    obtain ⟨j, hj, rfl⟩ := List.mem_take_iff_getElem.mp hearlier
    exact ⟨j, by omega, _, List.getElem?_eq_getElem (by omega), hdst⟩
  · exact fun ref hres href =>
      List.mem_filterMap.mp (hc.result_mem_writtenBy hres href)
  · intro registers hlength
    refine ⟨fun n => ?_, ?_, ?_⟩
    · obtain ⟨k, hn⟩ :=
        (Machine.Alike.start f hlength).stepped hvalid hc.readsWritten n
      exact (hn.step hvalid hc.readsWritten).1
    · exact Machine.verdict_startWith hvalid hc.readsWritten hc.writesAll hlength
    · exact (Machine.run_startWith hvalid hc.readsWritten hc.writesAll hlength).2

/-- A sum of sums, `x := (∞ + ∞) + (∞ + ∞)`, whose left side is in a temporary
while the right one is computed. -/
def sumOfSums : Expr :=
  .define "x" (.add
    (.add (.constant (.number (.infinite false)))
      (.constant (.number (.infinite false))))
    (.add (.constant (.number (.infinite false)))
      (.constant (.number (.infinite false)))))

theorem lower_definitely_assigned_sumOfSums :
    ∃ f, lower sumOfSums = .ok f ∧ f.size = 2
    ∧ (∃ instr ∈ f.code, instr.dst? = some 1)
    ∧ (Machine.startWith f [.nil, .boolean true]).verdict
      = .ok (some (.number (.infinite false))) := by
  have hlower : lower sumOfSums = .ok
      { size := 2
        constants := [.number (.infinite false)]
        locals := ["x"]
        code := [.add 1 (-1) (-1), .add 0 (-1) (-1), .add 0 1 0]
        result := some 0 } := by with_unfolding_all rfl
  obtain ⟨hwritten, -, -, hsame⟩ := lower_definitely_assigned hlower
  refine ⟨_, hlower, rfl, hwritten 1 (by decide) (by decide), ?_⟩
  rw [(hsame [.nil, .boolean true] rfl).2.1]
  with_unfolding_all rfl

end Lowering

end RegisterVm
