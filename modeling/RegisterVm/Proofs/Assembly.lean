import RegisterVm.Lowering.Assembly
import RegisterVm.Proofs.Execution
import RegisterVm.Proofs.Sequence
import RegisterVm.Proofs.Validity

/-!
# Frames do what the code over locations does

A frame puts every local and every temporary in a register of its own
(`Seats.inj`), and that register exists (`Seats.bounds`). So the frame is valid,
and a machine whose registers hold a store follows the code over locations step
by step (`step_of_exec`) and to its end (`runFor_of_exec`).
-/

namespace RegisterVm.Lowering

/-! ## Seats -/

namespace Context

/-- The operand of a location in the frame of `c`. -/
def operand (c : Context) (l : Location) : Except Error Int :=
  resolve l c.locals.length c.places

/-- `ref` is the register of a local or a temporary. -/
structure Seats (c : Context) (l : Location) (ref : Int) : Prop where
  isRegister : c.tables.IsRegister l
  operand : c.operand l = .ok ref

/-- `ref` is the operand of a place that has a value. -/
structure Names (c : Context) (l : Location) (ref : Int) : Prop where
  isValue : c.tables.IsRegister l ∨ c.tables.IsConstant l
  operand : c.operand l = .ok ref

theorem operand_local (c : Context) (k : Nat) :
    c.operand (.localVar k) = .ok k := by
  show ofOperand (Operand.ofRegister k) = _
  rw [Operand.ofRegister, if_neg (by omega)]
  rfl

theorem operand_constant (c : Context) (i : Nat) :
    c.operand (.constant i) = .ok (-i - 1) := by
  show ofOperand (Operand.ofConstant i) = _
  rw [Operand.ofConstant, if_neg (by omega)]
  rfl

theorem of_lookup_places {c : Context} {t p : Int}
    (h : c.places.lookup t = some p) :
    ∃ i : Nat, p = i ∧ c.usedInOrder[i]? = some t := by
  have hmem : ∀ {ps : List (Int × Int)}, ps.lookup t = some p → (t, p) ∈ ps := by
    intro ps hps
    obtain ⟨l₁, l₂, rfl, -⟩ := List.lookup_eq_some_iff.mp hps
    simp
  obtain ⟨⟨t', i⟩, hi, heq⟩ := List.mem_map.mp (hmem h)
  cases heq
  exact ⟨i, rfl, List.mem_zipIdx_iff_getElem?.mp hi⟩

theorem operand_temporary {c : Context} {t ref : Int}
    (h : c.operand (.temporary t) = .ok ref) :
    ∃ i : Nat, c.usedInOrder[i]? = some t ∧ ref = c.locals.length + i := by
  simp only [operand, resolve, Location.temporary] at h
  split at h
  · rename_i place hplace
    obtain ⟨i, rfl, hi⟩ := of_lookup_places hplace
    refine ⟨i, hi, ?_⟩
    have hpos : ¬ ((c.locals.length : Int) + i < 0) := by omega
    rw [ofOperand, Operand.ofRegister, if_neg hpos] at h
    cases h
    rfl
  · cases h

/-- Locals have the first registers, temporaries those after them. -/
theorem Seats.cases {c : Context} {l : Location} {ref : Int}
    (h : c.Seats l ref) :
    (∃ k : Nat, k < c.locals.length ∧ l = .localVar k ∧ ref = k)
      ∨ ∃ t i : Nat, c.usedInOrder[i]? = some (t : Int) ∧ l = .temporary t
        ∧ ref = c.locals.length + i := by
  obtain ⟨⟨k, hk, rfl⟩ | ⟨t, rfl⟩, hop⟩ := h
  · rw [operand_local] at hop
    cases hop
    exact Or.inl ⟨k, hk, rfl, rfl⟩
  · obtain ⟨i, hi, rfl⟩ := operand_temporary hop
    exact Or.inr ⟨t, i, hi, rfl, rfl⟩

theorem Seats.local {c : Context} {k : Nat} (hk : k < c.locals.length) :
    c.Seats (.localVar k) k :=
  ⟨Or.inl ⟨k, hk, rfl⟩, c.operand_local k⟩

/-- No two places share a register. -/
theorem Seats.inj {c : Context} {l l' : Location} {ref : Int} (h : c.Seats l ref)
    (h' : c.Seats l' ref) : l = l' := by
  rcases h.cases with ⟨k, hk, rfl, rfl⟩ | ⟨t, i, hi, rfl, rfl⟩
  · rcases h'.cases with ⟨k', hk', rfl, heq⟩ | ⟨t', i', hi', rfl, heq⟩
    · rw [heq]
    · omega
  · rcases h'.cases with ⟨k', hk', rfl, heq⟩ | ⟨t', i', hi', rfl, heq⟩
    · omega
    · obtain rfl : i = i' := by omega
      rw [hi] at hi'
      rw [Option.some.inj hi']

theorem Seats.bounds {c : Context} {l : Location} {ref : Int}
    (h : c.Seats l ref) :
    0 ≤ ref ∧ ref < c.locals.length + c.used.length := by
  rcases h.cases with ⟨k, hk, rfl, rfl⟩ | ⟨t, i, hi, rfl, rfl⟩
  · omega
  · have hlt := (List.getElem?_eq_some_iff.mp hi).1
    rw [usedInOrder, List.length_mergeSort] at hlt
    omega

end Context

/-! ## Assembled frames -/

/-- An instruction over locations, and the same one over operands. -/
inductive Assembles (c : Context) : Pending → Instruction → Prop where
  | move {dst src : Location} {r s : Int} (hdst : c.Seats dst r)
      (hsrc : c.Seats src s) :
      Assembles c ⟨.move, [dst, src]⟩ (.move r s)
  | loadConstant {dst : Location} {r : Int} {i : Nat} (hdst : c.Seats dst r)
      (hi : i < c.constants.length) :
      Assembles c ⟨.loadConstant, [dst, .constant i]⟩ (.loadConstant r (-i - 1))
  | add {dst a b : Location} {r s t : Int} (hdst : c.Seats dst r)
      (ha : c.Names a s)
      (hb : c.Names b t) : Assembles c ⟨.add, [dst, a, b]⟩ (.add r s t)

theorem Pending.Fits.assembles {c : Context} {p : Pending} (h : p.Fits c.tables)
    {args : List Int}
    (hargs : List.Forall₂ (fun l ref => c.operand l = .ok ref) p.operands args) :
    Assembles c p ⟨.opcode p.op, args⟩ := by
  cases h with
  | move hdst hsrc =>
      obtain _ | ⟨h₁, _ | ⟨h₂, _ | _⟩⟩ := hargs
      exact .move ⟨hdst, h₁⟩ ⟨hsrc, h₂⟩
  | loadConstant hdst hk =>
      obtain ⟨i, hi, rfl⟩ := hk
      obtain _ | ⟨h₁, _ | ⟨h₂, _ | _⟩⟩ := hargs
      rw [Context.operand_constant] at h₂
      cases h₂
      exact .loadConstant ⟨hdst, h₁⟩ hi
  | add hdst ha hb =>
      obtain _ | ⟨h₁, _ | ⟨h₂, _ | ⟨h₃, _ | _⟩⟩⟩ := hargs
      exact .add ⟨hdst, h₁⟩ ⟨ha, h₂⟩ ⟨hb, h₃⟩

/-- `f` is the frame of `c` with its result at `l`. -/
structure Assembled (c : Context) (l : Location) (f : Frame) : Prop where
  inputs : f.inputs = 0
  outputs : f.outputs = 0
  size : f.size = c.locals.length + c.used.length
  constants : f.constants = c.constants
  locals : f.locals = c.locals
  code : List.Forall₂ (Assembles c) c.code f.code
  result : ∃ ref, c.Names l ref ∧ f.result = some ref

theorem Context.frame_assembled {c : Context} {l : Location} {f : Frame}
    (h : c.frame l = .ok f) (hcode : ∀ p ∈ c.code, p.Fits c.tables)
    (hl : c.tables.IsRegister l ∨ c.tables.IsConstant l) : Assembled c l f := by
  obtain ⟨code, hmap, h⟩ := ok_of_bind h
  obtain ⟨ref, hop, h⟩ := ok_of_bind h
  cases h
  refine ⟨rfl, rfl, rfl, rfl, rfl, ?_, ref, ⟨hl, hop⟩, rfl⟩
  refine List.Forall₂.imp ?_
    ((List.forall₂_and_left ..).mpr ⟨hcode, mapM_ok_iff.mp hmap⟩)
  rintro p instr ⟨hfits, hok⟩
  obtain ⟨args, hargs, hok⟩ := ok_of_bind hok
  cases hok
  exact hfits.assembles (mapM_ok_iff.mp hargs)

namespace Assembled

variable {c : Context} {l : Location} {f : Frame} (hf : Assembled c l f)

include hf

theorem seat_inBounds {l' : Location} {ref : Int} (h : c.Seats l' ref) :
    Operand.registerInBounds ref f.size = true := by
  rw [Operand.registerInBounds_iff, hf.size]
  exact h.bounds

theorem constant_inBounds {i : Nat} (hi : i < c.constants.length) :
    Operand.constantInBounds (-i - 1) f.constants.length = true := by
  rw [Operand.constantInBounds_iff, hf.constants]
  omega

theorem name_inBounds {l' : Location} {ref : Int} (h : c.Names l' ref) :
    f.refInBounds ref = true := by
  rw [Frame.refInBounds_iff]
  obtain ⟨hreg | ⟨i, hi, rfl⟩, hop⟩ := h
  · exact Or.inl (hf.seat_inBounds ⟨hreg, hop⟩)
  · rw [Context.operand_constant] at hop
    cases hop
    exact Or.inr (hf.constant_inBounds hi)

theorem instruction_valid {p : Pending} {instr : Instruction}
    (h : Assembles c p instr) :
    instr.Valid f := by
  cases h with
  | move hdst hsrc =>
      exact .move (hf.seat_inBounds hdst)
        (hf.name_inBounds ⟨Or.inl hsrc.1, hsrc.2⟩)
  | loadConstant hdst hi =>
      exact .loadConstant (hf.seat_inBounds hdst) (hf.constant_inBounds hi)
  | add hdst ha hb =>
      exact .add (hf.seat_inBounds hdst) (hf.name_inBounds ha)
        (hf.name_inBounds hb)

theorem exists_pending {instr : Instruction} (hmem : instr ∈ f.code) :
    ∃ p ∈ c.code, Assembles c p instr := by
  obtain ⟨i, hi, rfl⟩ := List.getElem_of_mem hmem
  have hlt : i < c.code.length := by rw [hf.code.length_eq]; exact hi
  exact ⟨_, List.getElem_mem hlt, hf.code.get hlt hi⟩

theorem valid : f.Valid where
  size := by rw [hf.size, hf.locals]; omega
  inputs := Int.le_of_eq hf.inputs.symm
  outputs := Int.le_of_eq hf.outputs.symm
  code := by
    intro instr hmem
    obtain ⟨p, -, hp⟩ := hf.exists_pending hmem
    exact hf.instruction_valid hp
  result := by
    obtain ⟨ref, hname, hres⟩ := hf.result
    intro ref' hres'
    rw [hres] at hres'
    cases hres'
    exact hf.name_inBounds hname

end Assembled

/-! ## Running -/

/-- Registers that hold the contents of a store. -/
def Holds (c : Context) (registers : List Value) (σ : Store) : Prop :=
  ∀ {l ref}, c.Seats l ref → registers[ref.toNat]? = some (σ l)

theorem Holds.set {c : Context} {registers : List Value} {σ : Store}
    (h : Holds c registers σ) {dst : Location} {r : Int} (hdst : c.Seats dst r)
    (v : Value) :
    Holds c (registers.set r.toNat v) (σ.set dst v) := by
  intro l ref hl
  by_cases heq : l = dst
  · subst heq
    obtain rfl : r = ref := Except.ok.inj (hdst.operand.symm.trans hl.operand)
    have hlt := (List.getElem?_eq_some_iff.mp (h hl)).1
    rw [List.getElem?_set_self hlt, σ.set_self]
  · have hne : r.toNat ≠ ref.toNat := by
      intro hnat
      have hr := hdst.bounds
      have href := hl.bounds
      obtain rfl : r = ref := by omega
      exact heq (hl.inj hdst)
    rw [List.getElem?_set_ne hne, σ.set_of_ne heq, h hl]

theorem Holds.look {c : Context} {m : Machine} {σ : Store}
    (hholds : Holds c m.registers σ) {l : Location} {ref : Int}
    (h : c.Seats l ref) : m.look ref = σ.read c.constants l := by
  have hneg : ¬ (Operand.isConstant ref = true) := by
    have := h.bounds
    simp only [Operand.isConstant, decide_eq_true_eq]
    omega
  rw [Machine.look, if_neg hneg, List.getD_eq_getElem?_getD, hholds h,
    Store.read_of_isRegister h.isRegister]
  rfl

/-- How a run of `f` that ends in `m` ends if the code over locations ends in
that way. -/
inductive Ends (c : Context) (f : Frame) (m : Machine)
    (failure : Option StepError) :
    Halt → Prop where
  | halted {σ : Store} (hframe : m.frame = f) (hstatus : m.status = .halted)
      (hfailure : failure = none) (hholds : Holds c m.registers σ) :
      Ends c f m failure (.done σ)
  | faulted {v : Value} {σ : Store} {ref : Int} (hframe : m.frame = f)
      (hstatus : m.status = .faulted)
      (hfailure : failure = some (.fault (.notNumber ref v)))
      (hholds : Holds c m.registers σ) :
      Ends c f m failure (.stuck v σ)

namespace Assembled

variable {c : Context} {l : Location} {f : Frame} (hf : Assembled c l f)

include hf

theorem holds_start : Holds c (Machine.start f).registers Store.blank := by
  intro l ref hl
  have hlt : ref.toNat < f.size.toNat := by
    have := hl.bounds
    rw [hf.size]
    omega
  simp [Machine.start, Store.blank, hlt]

variable {m : Machine} (hm : m.frame = f) {σ : Store}
    (hholds : Holds c m.registers σ)

include hm hholds

omit hholds in
theorem look_constant (i : Nat) (σ : Store) :
    m.look (-i - 1) = σ.read c.constants (.constant i) := by
  have hneg : Operand.isConstant (-i - 1) = true := by
    simp only [Operand.isConstant, decide_eq_true_eq]
    omega
  have hidx : (Operand.constantIndex (-i - 1)).toNat = i := by
    unfold Operand.constantIndex
    omega
  rw [Machine.look, if_pos hneg, hidx, hm, hf.constants]
  rfl

theorem look_name {l' : Location} {ref : Int} (h : c.Names l' ref) :
    m.look ref = σ.read c.constants l' := by
  obtain ⟨hreg | ⟨i, hi, rfl⟩, hop⟩ := h
  · exact hholds.look ⟨hreg, hop⟩
  · rw [Context.operand_constant] at hop
    cases hop
    exact hf.look_constant hm i σ

/-- A machine that holds a store takes the step that the code over locations
takes. -/
theorem step_of_exec (hs : m.status ≠ .faulted) {p : Pending}
    {instr : Instruction} (hc : f.code[m.pc]? = some instr)
    (hp : Assembles c p instr) :
    match p.exec c.constants σ with
    | .ok σ' => ∃ event registers, Holds c registers σ'
        ∧ m.step
          = (.executed event, { m with registers := registers, pc := m.pc + 1 })
    | .error v => ∃ ref, m.step = m.refused ref v := by
  subst hm
  cases hp with
  | move hdst hsrc =>
      have hname : c.Names _ _ := ⟨Or.inl hsrc.isRegister, hsrc.operand⟩
      rw [Machine.step_move hs hc (hf.seat_inBounds hdst) (hf.name_inBounds hname),
        hf.look_name rfl hholds hname]
      exact ⟨_, _, hholds.set hdst _, rfl⟩
  | loadConstant hdst hi =>
      rw [Machine.step_loadConstant hs hc (hf.seat_inBounds hdst)
        (hf.constant_inBounds hi), hf.look_constant rfl _ σ]
      exact ⟨_, _, hholds.set hdst _, rfl⟩
  | @add dst a b r s t hdst ha hb =>
      rw [Machine.step_add hs hc (hf.seat_inBounds hdst) (hf.name_inBounds ha)
        (hf.name_inBounds hb), hf.look_name rfl hholds ha,
        hf.look_name rfl hholds hb]
      simp only [Pending.exec]
      cases σ.read c.constants a with
      | number x =>
          cases σ.read c.constants b with
          | number y => exact ⟨_, _, hholds.set hdst _, rfl⟩
          | _ => exact ⟨t, rfl⟩
      | _ => exact ⟨s, rfl⟩

/-- A machine that holds a store and is about to run the rest of the code ends
as the rest does. -/
theorem runFor_of_exec (hs : m.status ≠ .faulted) {rest : List Pending}
    (hrest : List.Forall₂ (Assembles c) rest (f.code.drop m.pc)) :
    Ends c f (m.runFor (rest.length + 1)).machine
      (m.runFor (rest.length + 1)).failure (exec c.constants rest σ) := by
  induction rest generalizing m σ with
  | nil =>
      have hend : m.frame.code[m.pc]? = none := by
        rw [hm, List.getElem?_eq_none_iff]
        exact List.drop_eq_nil_iff.mp (List.forall₂_nil_left_iff.mp hrest)
      have hstep : m.step = (.ended, { m with status := .halted }) := by
        rw [Machine.step, if_neg hs, hend]
      rw [Machine.runFor, hstep]
      exact .halted hm rfl rfl hholds
  | cons p ps ih =>
      obtain ⟨instr, instrs, hp, hps, hdrop⟩ :=
        List.forall₂_cons_left_iff.mp hrest
      have hc : f.code[m.pc]? = some instr := by
        rw [← List.head?_drop, hdrop]
        rfl
      have hnext : f.code.drop (m.pc + 1) = instrs := by
        rw [← List.tail_drop, hdrop]
        rfl
      have hstep := hf.step_of_exec hm hholds hs hc hp
      rw [exec, List.length_cons, Machine.runFor]
      cases hexec : p.exec c.constants σ with
      | error v =>
          rw [hexec] at hstep
          obtain ⟨ref, hstep⟩ := hstep
          rw [hstep]
          exact .faulted hm rfl rfl hholds
      | ok σ' =>
          rw [hexec] at hstep
          obtain ⟨event, registers, hholds', hstep⟩ := hstep
          rw [hstep]
          refine ih (m := { m with registers := registers, pc := m.pc + 1 }) hm
            hholds' hs ?_
          rw [hnext]
          exact hps

omit hm hholds in
/-- A run of an assembled frame ends as its code over locations does. -/
theorem run_ends :
    Ends c f (Machine.start f).run.machine (Machine.start f).run.failure
      (exec c.constants c.code Store.blank) := by
  have hrun := hf.runFor_of_exec (m := Machine.start f) rfl hf.holds_start
    (by simp [Machine.start])
    hf.code
  rwa [hf.code.length_eq] at hrun

end Assembled

end RegisterVm.Lowering
