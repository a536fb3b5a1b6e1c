import Mathlib.Data.List.Nodup
import RegisterVm.Proofs.Assembly
import RegisterVm.Proofs.Realization

/-!
# The correctness of lowering

The frame of a tree does what the evaluation of the tree does. If the evaluation
has a value, the machine halts with that value as its result, and each local
holds what its name is bound to. If the evaluation stops at a sum, the machine
faults on the same value, and a local that does not hold what its name is bound
to is the target of a definition or an assignment in progress.
-/

namespace RegisterVm.Lowering

/-- `f` is the frame of the tree `e`, with its code over locations in `c` and
its result at `l`. -/
structure Compiled (e : Expr) (c : Context) (l : Location) (f : Frame) :
    Prop where
  lowers : Lowers e none 0 {} l c.code c.tables
  used : c.used = Context.usedBy [] c.code
  assembled : Assembled c l f

theorem lower_compiled {e : Expr} {f : Frame} (h : lower e = .ok f) :
    ∃ c l, Compiled e c l f := by
  rw [lower] at h
  split at h
  · rename_i l c hgen
    obtain ⟨code, T, hlow, rfl⟩ := generate_lowers e hgen
    obtain ⟨hT, -⟩ := hlow.grows Tables.Sound.empty
    have hvalue := (hlow.answer Tables.Sound.empty).isValue hT T.aims_none
    have hfits := hlow.fits Tables.Sound.empty (Tables.aims_none _)
    exact ⟨Context.empty.extend code T, l, hlow, rfl,
      Context.frame_assembled h hfits hvalue⟩
  · cases h

namespace Compiled

variable {e : Expr} {c : Context} {l : Location} {f : Frame}
    (hc : Compiled e c l f)

include hc

theorem sound : c.tables.Sound := (hc.lowers.grows Tables.Sound.empty).1

theorem grows : Tables.Grows {} c.tables :=
  (hc.lowers.grows Tables.Sound.empty).2

/-- The pool of the frame shares the constants of the tree. -/
theorem shared_constants :
    Value.shared c.constants = Value.shared e.constants := by
  have hpool : c.constants = Value.distinct e.constants := hc.lowers.constants_eq
  funext v
  rw [hpool, Value.shared_distinct]

theorem realizes : Realizes c.constants none {} c.tables Store.blank l
    (exec c.constants c.code Store.blank) e.outcome := by
  have hagree : Agrees {} Store.blank Env.empty none :=
    ⟨fun _ => rfl, fun h => by cases h⟩
  have hreal := hc.lowers.realizes Tables.Sound.empty (Tables.aims_none _)
    (List.prefix_refl c.constants) hagree
  rwa [hc.shared_constants] at hreal

/-- The run ends as the code over locations does, which ends as the evaluation
does. -/
theorem run_realizes :
    ∃ halt, Ends c f (Machine.start f).run.machine
      (Machine.start f).run.failure halt
    ∧ Realizes c.constants none {} c.tables Store.blank l halt e.outcome :=
  ⟨_, hc.assembled.run_ends, hc.realizes⟩

theorem mem_locals_iff {x : String} :
    x ∈ f.locals ↔ ∃ k : Nat, c.tables.locals[k]? = some x := by
  rw [hc.assembled.locals]
  exact List.mem_iff_getElem?

/-- A name bound where the evaluation ends is a local that holds its value. -/
theorem local_of_bound {σ : Store} {env : Env}
    (hagree : Agrees c.tables σ env none) {x : String} {w : Value}
    (hx : env x = some w) :
    ∃ k : Nat, c.tables.locals[k]? = some x ∧ σ (.localVar k) = w := by
  cases hvis : c.tables.visible.lookup x with
  | none =>
      rw [hagree.unbound hvis] at hx
      cases hx
  | some r =>
      obtain ⟨v, hv, hval⟩ := hagree.bound hvis
      obtain ⟨k, rfl, hk⟩ := hc.sound.named hvis
      obtain rfl : v = w := Option.some.inj (hv.symm.trans hx)
      exact ⟨k, hk, hval (by simp)⟩

/-- The locals are the names bound where the evaluation ends. -/
theorem mem_locals_iff_bound {σ : Store} {env : Env}
    (hagree : Agrees c.tables σ env none) (x : String) :
    x ∈ f.locals ↔ (env x).isSome := by
  rw [hc.mem_locals_iff]
  constructor
  · rintro ⟨k, hk⟩
    obtain ⟨v, hv, -⟩ := hagree.bound (hc.grows.new hk (Nat.zero_le k))
    rw [hv]
    rfl
  · intro hx
    obtain ⟨w, hw⟩ := Option.isSome_iff_exists.mp hx
    obtain ⟨k, hk, -⟩ := hc.local_of_bound hagree hw
    exact ⟨k, hk⟩

variable {m : Machine} (hm : m.frame = f) {σ : Store}
    (hholds : Holds c m.registers σ)

include hm hholds

theorem register_local {x : String} {k : Nat}
    (hk : c.tables.locals[k]? = some x) :
    m.register (f.locals.idxOf x) = .ok (σ (.localVar k)) := by
  obtain ⟨hlt, hget⟩ := List.getElem?_eq_some_iff.mp hk
  have hidx : f.locals.idxOf x = k := by
    rw [hc.assembled.locals, ← hget]
    exact hc.sound.nodup.idxOf_getElem k hlt
  have hseat := Context.Seats.local (c := c) hlt
  rw [hidx, Machine.register, hm, if_pos (hc.assembled.seat_inBounds hseat),
    List.getD_eq_getElem?_getD, hholds hseat]
  rfl

theorem result_eq : m.result = .ok (some (σ.read c.constants l)) := by
  obtain ⟨ref, hname, hres⟩ := hc.assembled.result
  have hin : m.frame.refInBounds ref = true := by
    rw [hm]
    exact hc.assembled.name_inBounds hname
  rw [Machine.result, hm, hres]
  simp only [Machine.value_of_inBounds hin, hc.assembled.look_name hm hholds hname]
  rfl

end Compiled

/-! ## Values and faults -/

/-- The machine of a compiled tree does what the evaluation of the tree does. -/
theorem lower_run_outcome {e : Expr} {f : Frame} (h : lower e = .ok f)
    (validate : Bool) :
    ∃ m, Machine.create f validate = .ok m ∧
      match e.outcome with
      | .ok (v, env) =>
          m.run.failure = none ∧ m.run.machine.status = .halted
            ∧ m.run.machine.result = .ok (some v)
            ∧ (∀ x, x ∈ f.locals ↔ (env x).isSome)
            ∧ ∀ x w, env x = some w →
              m.run.machine.register (f.locals.idxOf x) = .ok w
      | .error (.notNumber s) =>
          ∃ ref, m.run.failure = some (.fault (.notNumber ref s.value))
            ∧ m.run.machine.status = .faulted
            ∧ (Fault.notNumber ref s.value).diagnostic.received
              = some s.value.typeName
      | .error _ => False := by
  obtain ⟨c, l, hc⟩ := lower_compiled h
  refine ⟨Machine.start f, Machine.create_of_valid hc.assembled.valid validate, ?_⟩
  obtain ⟨halt, hends, hreal⟩ := hc.run_realizes
  generalize e.outcome = outcome at hreal ⊢
  cases hreal with
  | value hagree =>
      cases hends with
      | halted hframe hstatus hfailure hholds =>
          refine ⟨hfailure, hstatus, hc.result_eq hframe hholds,
            hc.mem_locals_iff_bound hagree, ?_⟩
          intro x w hx
          obtain ⟨k, hk, rfl⟩ := hc.local_of_bound hagree hx
          exact hc.register_local hframe hholds hk
  | stop hstop =>
      cases hends with
      | faulted hframe hstatus hfailure hholds =>
          exact ⟨_, hfailure, hstatus, rfl⟩

/-- A sum whose right side assigns to the variable on its left,
`y := x + (x = -∞)` after `x := ∞`. -/
def readBeforeAssigned : Expr :=
  .block [.define "x" (.constant (.number (.infinite false))),
    .define "y"
      (.add (.var "x") (.assign "x" (.constant (.number (.infinite true)))))]

theorem lower_run_outcome_readBeforeAssigned :
    ∃ f m, lower readBeforeAssigned = .ok f
    ∧ Machine.create f true = .ok m ∧ m.run.failure = none
    ∧ m.run.machine.result = .ok (some (.number .nan))
    ∧ m.run.machine.register (f.locals.idxOf "x")
      = .ok (.number (.infinite true)) := by
  have hlower : lower readBeforeAssigned = .ok
      { size := 3
        constants := [.number (.infinite false), .number (.infinite true)]
        locals := ["x", "y"]
        code :=
          [.loadConstant 0 (-1), .move 2 0, .loadConstant 0 (-2), .add 1 2 0]
        result := some 1 } := by with_unfolding_all rfl
  obtain ⟨m, hm, hfailure, -, hresult, -, hlocals⟩ :=
    lower_run_outcome hlower true
  exact ⟨_, m, hlower, hm, hfailure, hresult, hlocals "x" _ rfl⟩

/-- A machine of a compiled tree that faults on a value does so where the
evaluation stops. The locals hold what their names are bound to there, but for
the targets of assignments in progress, and a local that is not bound yet is nil
unless it is being defined. -/
theorem lower_locals_at_fault {e : Expr} {f : Frame} (h : lower e = .ok f)
    {validate : Bool} {m : Machine} (hm : Machine.create f validate = .ok m)
    {ref : Int} {v : Value}
    (hfault : m.run.failure = some (.fault (.notNumber ref v))) :
    ∃ s, e.outcome = .error (.notNumber s) ∧ s.value = v
      ∧ (∀ x w, s.env x = some w → x ∈ f.locals
        ∧ (x ∉ s.assigning → m.run.machine.register (f.locals.idxOf x) = .ok w))
      ∧ ∀ x ∈ f.locals, s.env x = none → x ∉ s.defining →
        m.run.machine.register (f.locals.idxOf x) = .ok .nil := by
  obtain ⟨c, l, hc⟩ := lower_compiled h
  rw [Machine.create_of_valid hc.assembled.valid] at hm
  cases hm
  obtain ⟨halt, hends, hreal⟩ := hc.run_realizes
  generalize e.outcome = outcome at hreal ⊢
  cases hreal with
  | value hagree =>
      cases hends with
      | halted hframe hstatus hfailure hholds =>
          rw [hfailure] at hfault
          cases hfault
  | @stop σ' s hstop =>
      cases hends with
      | faulted hframe hstatus hfailure hholds =>
          rw [hfailure] at hfault
          cases hfault
          refine ⟨s, rfl, rfl, ?_, ?_⟩
          · intro x w hx
            obtain ⟨k, hk, -, hval⟩ := hstop.held hx
            refine ⟨hc.mem_locals_iff.mpr ⟨k, hk⟩, fun hassign => ?_⟩
            rw [hc.register_local hframe hholds hk, hval hassign (by simp)]
          · intro x hx hnone hdef
            obtain ⟨k, hk⟩ := hc.mem_locals_iff.mp hx
            rw [hc.register_local hframe hholds hk,
              hstop.untouched hk (Nat.zero_le k) hnone hdef]
            rfl

/-- A sum that fails in an assignment after a partial sum went to its target,
`x = n + (x + -∞)`. -/
def failsWhileAssigning : Expr :=
  .block [.define "x" (.constant (.number (.infinite false))),
    .define "n" (.constant (.boolean true)),
    .assign "x" (.add (.var "n")
      (.add (.var "x") (.constant (.number (.infinite true)))))]

def failsWhileAssigningFrame : Frame where
  size := 2
  constants :=
    [.number (.infinite false), .boolean true, .number (.infinite true)]
  locals := ["x", "n"]
  code := [.loadConstant 0 (-1), .loadConstant 1 (-2), .add 0 0 (-3), .add 0 1 0]
  result := some 0

theorem lower_locals_at_fault_failsWhileAssigning : ∃ s m,
    failsWhileAssigning.outcome = .error (.notNumber s) ∧ s.assigning = ["x"]
    ∧ s.env "x" = some (.number (.infinite false))
    ∧ Machine.create failsWhileAssigningFrame true = .ok m
    ∧ m.run.machine.register 0 = .ok (.number .nan)
    ∧ m.run.machine.register 1 = .ok (.boolean true) := by
  have hlower : lower failsWhileAssigning = .ok failsWhileAssigningFrame := by
    with_unfolding_all rfl
  have hcreate : Machine.create failsWhileAssigningFrame true
      = .ok (Machine.start failsWhileAssigningFrame) := by
    with_unfolding_all rfl
  have hfault : (Machine.start failsWhileAssigningFrame).run.failure
      = some (.fault (.notNumber 1 (.boolean true))) := by
    decide +kernel
  obtain ⟨s, hs, -, hlocals, -⟩ := lower_locals_at_fault hlower hcreate hfault
  have hx : (Machine.start failsWhileAssigningFrame).run.machine.register 0
      = .ok (.number .nan) := by
    with_unfolding_all rfl
  cases hs
  exact ⟨_, _, rfl, rfl, rfl, hcreate, hx, (hlocals "n" _ rfl).2 (by simp)⟩

end RegisterVm.Lowering
