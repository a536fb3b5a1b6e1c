import Mathlib.Data.List.Forall2
import RegisterVm.Proofs.Scoping

/-!
# Lowering sees names and constants through equality only

Two trees of one shape are lowered side by side. Names and constants of the one
stand for those of the other, in such a way that two of them are equal here if
and only if they are equal there (`Correspondence`). Then the two runs stay in
step: the contexts have the same code, the same temporaries and the same
destination at every point, and their tables correspond entry by entry. An
action that keeps such contexts in step with another one is `Parallel` to it;
every step of lowering is, and so is lowering itself (`generate_parallel`).

So corresponding trees have frames with the same code (`lower_corresponds`), or
are rejected for corresponding reasons.
-/

namespace RegisterVm

/-- What the names and constants of a tree stand for in another one: equal names
for equal names and unequal ones for unequal ones, and likewise for constants as
the pool compares them. -/
structure Correspondence where
  name : String → String → Prop
  constant : Value → Value → Prop
  name_eq_iff : ∀ {x x' y y'}, name x x' → name y y' → (x = y ↔ x' = y')
  equals_eq : ∀ {v v' w w'}, constant v v' → constant w w' →
    v.equals w = v'.equals w'

/-! ## Trees -/

mutual

/-- Trees of the same shape with corresponding names and constants. -/
inductive Expr.Corresponds (R : Correspondence) : Expr → Expr → Prop where
  | constant {v v' : Value} (hv : R.constant v v') :
      Expr.Corresponds R (.constant v) (.constant v')
  | add {l l' r r' : Expr} (hl : Expr.Corresponds R l l')
      (hr : Expr.Corresponds R r r') :
      Expr.Corresponds R (.add l r) (.add l' r')
  | define {x x' : String} {e e' : Expr} (hx : R.name x x')
      (h : Expr.Corresponds R e e') :
      Expr.Corresponds R (.define x e) (.define x' e')
  | var {x x' : String} (hx : R.name x x') :
      Expr.Corresponds R (.var x) (.var x')
  | assign {x x' : String} {e e' : Expr} (hx : R.name x x')
      (h : Expr.Corresponds R e e') :
      Expr.Corresponds R (.assign x e) (.assign x' e')
  | block {es es' : List Expr} (h : Expr.CorrespondAll R es es') :
      Expr.Corresponds R (.block es) (.block es')
  | other (kind : String) : Expr.Corresponds R (.other kind) (.other kind)

inductive Expr.CorrespondAll (R : Correspondence) :
    List Expr → List Expr → Prop where
  | nil : Expr.CorrespondAll R [] []
  | cons {e e' : Expr} {es es' : List Expr} (h : Expr.Corresponds R e e')
      (hs : Expr.CorrespondAll R es es') :
      Expr.CorrespondAll R (e :: es) (e' :: es')

end

namespace Expr

variable {R : Correspondence}

theorem Corresponds.isLeaf_eq {e e' : Expr} (h : Corresponds R e e') :
    e.isLeaf = e'.isLeaf := by
  cases h <;> rfl

mutual

theorem Corresponds.assigned : ∀ {e e' : Expr}, Corresponds R e e' →
    List.Forall₂ R.name e.assigned e'.assigned
  | _, _, .constant _ => by
      rw [Expr.assigned, Expr.assigned]
      exact .nil
  | _, _, .add hl hr => by
      rw [Expr.assigned, Expr.assigned]
      exact List.rel_append hl.assigned hr.assigned
  | _, _, .define _ h => by
      rw [Expr.assigned, Expr.assigned]
      exact h.assigned
  | _, _, .var _ => by
      rw [Expr.assigned, Expr.assigned]
      exact .nil
  | _, _, .assign hx h => by
      rw [Expr.assigned, Expr.assigned]
      exact .cons hx h.assigned
  | _, _, .block h => by
      rw [Expr.assigned, Expr.assigned]
      exact h.assignedAll
  | _, _, .other _ => by
      rw [Expr.assigned]
      exact .nil

theorem CorrespondAll.assignedAll :
    ∀ {es es' : List Expr}, CorrespondAll R es es' →
    List.Forall₂ R.name (assignedAll es) (assignedAll es')
  | _, _, .nil => by
      rw [Expr.assignedAll]
      exact .nil
  | _, _, .cons h hs => by
      rw [Expr.assignedAll, Expr.assignedAll]
      exact List.rel_append h.assigned hs.assignedAll

end

end Expr

/-! ## Lists of names and of constants -/

namespace Correspondence

variable (R : Correspondence)

theorem mem_iff {x x' : String} (hx : R.name x x') {xs xs' : List String}
    (h : List.Forall₂ R.name xs xs') : x ∈ xs ↔ x' ∈ xs' := by
  induction h with
  | nil => simp
  | cons hy hys ih => rw [List.mem_cons, List.mem_cons, R.name_eq_iff hx hy, ih]

theorem contains_eq {x x' : String} (hx : R.name x x') {xs xs' : List String}
    (h : List.Forall₂ R.name xs xs') : xs.contains x = xs'.contains x' := by
  rw [Bool.eq_iff_iff, List.contains_iff_mem, List.contains_iff_mem]
  exact R.mem_iff hx h

theorem position?_eq {v v' : Value} (hv : R.constant v v') {vs vs' : List Value}
    (h : List.Forall₂ R.constant vs vs') :
    Value.position? vs v = Value.position? vs' v' := by
  unfold Value.position?
  induction h with
  | nil => rfl
  | cons hw hws ih =>
      rw [List.findIdx?_cons, List.findIdx?_cons, R.equals_eq hw hv, ih]

/-- Entries of corresponding names at the same register. -/
def Entry (p p' : String × Int) : Prop := R.name p.1 p'.1 ∧ p.2 = p'.2

theorem lookup_eq {x x' : String} (hx : R.name x x')
    {vs vs' : List (String × Int)} (h : List.Forall₂ R.Entry vs vs') :
    vs.lookup x = vs'.lookup x' := by
  induction h with
  | nil => rfl
  | @cons p p' _ _ hp hps ih =>
      have hkey : (x == p.1) = (x' == p'.1) := by
        rw [Bool.eq_iff_iff, beq_iff_eq, beq_iff_eq]
        exact R.name_eq_iff hx hp.1
      rw [List.lookup_cons, List.lookup_cons, hkey, hp.2, ih]

theorem entries_names {vs vs' : List (String × Int)}
    (h : List.Forall₂ R.Entry vs vs') :
    List.Forall₂ R.name (vs.map Prod.fst) (vs'.map Prod.fst) := by
  induction h with
  | nil => exact .nil
  | cons hp hps ih => exact .cons hp.1 ih

end Correspondence

theorem signedGet?_forall₂ {α β : Type} {r : α → β → Prop} {xs : List α}
    {ys : List β} (h : List.Forall₂ r xs ys) (i : Int) :
    Option.Rel r (signedGet? xs i) (signedGet? ys i) := by
  have hget : ∀ k : Nat, Option.Rel r xs[k]? ys[k]? := by
    induction h with
    | nil => exact fun k => .none
    | cons hx hxs ih =>
        intro k
        cases k with
        | zero => exact .some hx
        | succ k => exact ih k
  rw [signedGet?, signedGet?, h.length_eq]
  split
  · exact hget _
  · split
    · exact hget _
    · exact .none

/-- Frames that differ in the names of the locals and in the constants alone. -/
structure Frame.Corresponds (R : Correspondence) (f f' : Frame) : Prop where
  inputs : f.inputs = f'.inputs
  outputs : f.outputs = f'.outputs
  size : f.size = f'.size
  constants : List.Forall₂ R.constant f.constants f'.constants
  locals : List.Forall₂ R.name f.locals f'.locals
  code : f.code = f'.code
  result : f.result = f'.result

namespace Lowering

/-! ## Contexts -/

variable {R : Correspondence}

structure Tables.Corresponds (R : Correspondence) (T T' : Tables) : Prop where
  constants : List.Forall₂ R.constant T.constants T'.constants
  locals : List.Forall₂ R.name T.locals T'.locals
  visible : List.Forall₂ R.Entry T.visible T'.visible

theorem Tables.Corresponds.declare {T T' : Tables} (h : T.Corresponds R T')
    {x x' : String} (hx : R.name x x') (register : Int) :
    (T.declare x register).Corresponds R (T'.declare x' register) where
  constants := h.constants
  locals := h.locals
  visible := by
    simp only [Tables.declare]
    rw [R.contains_eq hx (R.entries_names h.visible)]
    split
    · refine List.rel_map ?_ h.visible
      rintro ⟨y, s⟩ ⟨y', s'⟩ ⟨hy, rfl⟩
      by_cases heq : y = x
      · have heq' : y' = x' := (R.name_eq_iff hy hx).mp heq
        simp only [if_pos heq, if_pos heq']
        exact ⟨hy, rfl⟩
      · have heq' : y' ≠ x' := fun h => heq ((R.name_eq_iff hy hx).mpr h)
        simp only [if_neg heq, if_neg heq']
        exact ⟨hy, rfl⟩
    · exact List.rel_append h.visible (.cons ⟨hx, rfl⟩ .nil)

/-- Contexts in step: they differ in the names and constants of their tables
alone. -/
structure Context.Corresponds (R : Correspondence) (c c' : Context) : Prop where
  tables : c.tables.Corresponds R c'.tables
  code : c.code = c'.code
  taken : c.taken = c'.taken
  used : c.used = c'.used
  destination : c.destination = c'.destination

theorem Context.Corresponds.empty :
    Context.Corresponds R Context.empty Context.empty :=
  ⟨⟨.nil, .nil, .nil⟩, rfl, rfl, rfl, rfl⟩

theorem Context.Corresponds.nextTemporary_eq {c c' : Context}
    (h : c.Corresponds R c') :
    c.nextTemporary = c'.nextTemporary := by
  rw [Context.nextTemporary, Context.nextTemporary, h.taken]

theorem Context.Corresponds.overwrites_eq {c c' : Context}
    (h : c.Corresponds R c') {later later' : Expr}
    (hlater : later.Corresponds R later') (l : Location) :
    overwrites c later l = overwrites c' later' l := by
  rw [overwrites, overwrites]
  have hname : Option.Rel R.name (signedGet? c.locals l.index)
      (signedGet? c'.locals l.index) :=
    signedGet?_forall₂ h.tables.locals l.index
  generalize signedGet? c.locals l.index = found,
    signedGet? c'.locals l.index = found' at hname ⊢
  cases hname with
  | none => rfl
  | some hx => simp only [R.contains_eq hx hlater.assigned]

/-! ## Rejections and results -/

inductive Rejection.Corresponds (R : Correspondence) :
    Rejection → Rejection → Prop where
  | alreadyDefined {x x' : String} {locals locals' : List String}
      (hx : R.name x x')
      (hlocals : List.Forall₂ R.name locals locals') :
      Corresponds R (.alreadyDefined x locals) (.alreadyDefined x' locals')
  | notDefined {x x' : String} {visible visible' : List String}
      (hx : R.name x x')
      (hvisible : List.Forall₂ R.name visible visible') :
      Corresponds R (.notDefined x visible) (.notDefined x' visible')
  | unknownNode (kind : String) :
      Corresponds R (.unknownNode kind) (.unknownNode kind)
  | emptyBlock : Corresponds R .emptyBlock .emptyBlock

inductive Error.Corresponds (R : Correspondence) : Error → Error → Prop where
  | rejected {r r' : Rejection} (h : r.Corresponds R r') :
      Corresponds R (.rejected r) (.rejected r')
  | noName (register : Int) : Corresponds R (.noName register) (.noName register)

/-- The same answer in contexts that are in step, or corresponding errors. -/
inductive InStep {α : Type} (R : Correspondence) :
    EStateM.Result Error Context α → EStateM.Result Error Context α → Prop where
  | ok {a : α} {c c' : Context} (h : c.Corresponds R c') :
      InStep R (.ok a c) (.ok a c')
  | error {err err' : Error} {c c' : Context} (h : err.Corresponds R err') :
      InStep R (.error err c) (.error err' c')

/-- The two actions keep contexts in step. -/
def Parallel {α : Type} (R : Correspondence) (x y : Lower α) : Prop :=
  ∀ c c', c.Corresponds R c' → InStep R (x c) (y c')

namespace Parallel

variable {α β : Type}

theorem pure (a : α) : Parallel R (Pure.pure a : Lower α) (Pure.pure a) :=
  fun _ _ h => .ok h

theorem bind {x y : Lower α} {f g : α → Lower β} (hx : Parallel R x y)
    (hf : ∀ a, Parallel R (f a) (g a)) : Parallel R (x >>= f) (y >>= g) := by
  intro c c' h
  have hfirst := hx c c' h
  simp only [Bind.bind, EStateM.bind]
  generalize x c = first, y c' = first' at hfirst ⊢
  cases hfirst with
  | ok h' => exact hf _ _ _ h'
  | error herr => exact .error herr

theorem reject {r r' : Rejection} (hr : r.Corresponds R r') :
    Parallel R (Lowering.reject r : Lower α) (Lowering.reject r') :=
  fun _ _ _ => .error (.rejected hr)

/-! ## Scopes and code -/

theorem withTemporary {body body' : Location → Lower α}
    (h : ∀ t, Parallel R (body t) (body' t)) :
    Parallel R (Lowering.withTemporary body) (Lowering.withTemporary body') := by
  intro c c' hc
  have htake : c.take.Corresponds R c'.take :=
    ⟨hc.tables, hc.code, congrArg (· + 1) hc.taken, hc.used, hc.destination⟩
  have hbody := h c.nextTemporary _ _ htake
  rw [Lowering.withTemporary, Lowering.withTemporary, ← hc.nextTemporary_eq]
  generalize body c.nextTemporary c.take = result,
    body' c.nextTemporary c'.take = result' at hbody ⊢
  cases hbody with
  | ok h' =>
      exact .ok
        ⟨h'.tables, h'.code, congrArg (· - 1) h'.taken, h'.used, h'.destination⟩
  | error herr => exact .error herr

theorem withDestination {body body' : Lower α} (h : Parallel R body body')
    (d : Option Location) :
    Parallel R (Lowering.withDestination d body)
      (Lowering.withDestination d body') := by
  intro c c' hc
  have haim : (c.aim d).Corresponds R (c'.aim d) :=
    ⟨hc.tables, hc.code, hc.taken, hc.used, rfl⟩
  have hbody := h _ _ haim
  rw [Lowering.withDestination, Lowering.withDestination]
  generalize body (c.aim d) = result, body' (c'.aim d) = result' at hbody ⊢
  cases hbody with
  | ok h' => exact .ok ⟨h'.tables, h'.code, h'.taken, h'.used, hc.destination⟩
  | error herr => exact .error herr

theorem atDestination {body body' : Location → Lower α}
    (h : ∀ dst, Parallel R (body dst) (body' dst)) :
    Parallel R (Lowering.atDestination body) (Lowering.atDestination body') := by
  intro c c' hc
  rw [Lowering.atDestination, Lowering.atDestination, ← hc.destination]
  split
  · exact h _ c c' hc
  · exact withTemporary (fun t => (h t).withDestination (some t)) c c' hc

theorem emit (op : Opcode) (operands : List Location) :
    Parallel R (Lowering.emit op operands) (Lowering.emit op operands) := by
  intro c c' hc
  refine .ok ⟨hc.tables, ?_, hc.taken, ?_, hc.destination⟩
  · rw [Context.emit, Context.emit, hc.code]
  · rw [Context.emit, Context.emit, hc.used]

theorem materialize (l dst : Location) :
    Parallel R (Lowering.materialize l dst) (Lowering.materialize l dst) := by
  rw [Lowering.materialize]
  split
  · exact emit _ _
  · split
    · exact pure ()
    · exact emit _ _

theorem storeAt {value value' : Lower Location} (h : Parallel R value value')
    (dst : Location) :
    Parallel R (Lowering.storeAt dst value) (Lowering.storeAt dst value') :=
  (h.bind fun l => materialize l dst).withDestination (some dst)

theorem sumInto {right right' : Lower Location} (h : Parallel R right right')
    (dst left : Location) :
    Parallel R (Lowering.sumInto dst left right)
      (Lowering.sumInto dst left right') :=
  h.bind fun r => (emit .add [dst, left, r]).bind fun _ => pure dst

/-! ## Sums -/

section Sums

variable {l l' r r' : Expr} {left left' right right' : Lower Location}

theorem leftOperand (hl : l.Corresponds R l') (h : Parallel R left left') :
    Parallel R (Lowering.leftOperand l left) (Lowering.leftOperand l' left') := by
  rw [Lowering.leftOperand, Lowering.leftOperand, ← hl.isLeaf_eq]
  split
  · exact h
  · exact withTemporary fun t => h.withDestination (some t)

theorem addRight (hr : r.Corresponds R r') (h : Parallel R right right')
    (dst a : Location) :
    Parallel R (Lowering.addRight dst a r right)
      (Lowering.addRight dst a r' right') := by
  rw [Lowering.addRight, Lowering.addRight, ← hr.isLeaf_eq]
  split
  · exact withTemporary fun t => (h.withDestination (some t)).sumInto dst a
  · exact (h.withDestination (some dst)).sumInto dst a

theorem withSafe (hr : r.Corresponds R r')
    {body body' : Location → Lower Location}
    (h : ∀ a, Parallel R (body a) (body' a)) (a : Location) :
    Parallel R (Lowering.withSafe r a body) (Lowering.withSafe r' a body') := by
  intro c c' hc
  rw [Lowering.withSafe, Lowering.withSafe, ← hc.nextTemporary_eq,
    ← hc.overwrites_eq hr]
  split
  · exact withTemporary (fun _ => h a) c c' hc
  · cases hover : overwrites c r a with
    | error err =>
        -- only a local without a name makes this fail, and no name is in the
        -- error
        rw [overwrites] at hover
        split at hover
        · split at hover <;> cases hover
          exact .error (.noName _)
        · cases hover
    | ok overwritten =>
        cases overwritten with
        | false => exact h a c c' hc
        | true =>
            exact withTemporary (fun t => (emit _ _).bind fun _ => h t) c c' hc

theorem addInto (hl : l.Corresponds R l') (hr : r.Corresponds R r')
    (hleft : Parallel R left left') (hright : Parallel R right right')
    (dst : Location) :
    Parallel R (Lowering.addInto dst l r left right)
      (Lowering.addInto dst l' r' left' right') :=
  (leftOperand hl hleft).bind fun a =>
    withSafe hr (fun a' => addRight hr hright dst a') a

end Sums

/-! ## Constants and names -/

theorem addConstant {v v' : Value} (hv : R.constant v v') :
    Parallel R (Lowering.addConstant v) (Lowering.addConstant v') := by
  intro c c' hc
  have hconstants : List.Forall₂ R.constant c.constants c'.constants :=
    hc.tables.constants
  rw [Lowering.addConstant, Lowering.addConstant, ← R.position?_eq hv hconstants]
  split
  · exact .ok hc
  · rw [hconstants.length_eq]
    refine .ok ⟨⟨?_, hc.tables.locals, hc.tables.visible⟩, hc.code, hc.taken,
      hc.used, hc.destination⟩
    exact List.rel_append hconstants (.cons hv .nil)

variable {x x' : String}

theorem reserve (hx : R.name x x') :
    Parallel R (Lowering.reserve x) (Lowering.reserve x') := by
  intro c c' hc
  have hlocals : List.Forall₂ R.name c.locals c'.locals := hc.tables.locals
  rw [Lowering.reserve, Lowering.reserve, ← R.contains_eq hx hlocals]
  split
  · exact reject (.alreadyDefined hx hlocals) c c' hc
  · rw [hlocals.length_eq]
    refine .ok ⟨⟨hc.tables.constants, ?_, hc.tables.visible⟩, hc.code, hc.taken,
      hc.used, hc.destination⟩
    exact List.rel_append hlocals (.cons hx .nil)

theorem lookup (hx : R.name x x') :
    Parallel R (Lowering.lookup x) (Lowering.lookup x') := by
  intro c c' hc
  have hvisible : List.Forall₂ R.Entry c.visible c'.visible := hc.tables.visible
  rw [Lowering.lookup, Lowering.lookup, ← R.lookup_eq hx hvisible]
  split
  · exact .ok hc
  · exact reject (.notDefined hx (R.entries_names hvisible)) c c' hc

theorem declare (hx : R.name x x') (register : Int) :
    Parallel R (Lowering.declare x register) (Lowering.declare x' register) :=
  fun _ _ hc => .ok
    ⟨hc.tables.declare hx register, hc.code, hc.taken, hc.used, hc.destination⟩

end Parallel

/-! ## Every tree -/

mutual

/-- Corresponding trees are lowered in step. -/
theorem generate_parallel :
    ∀ {e e' : Expr}, e.Corresponds R e' → Parallel R (generate e) (generate e')
  | _, _, .constant hv => by
      rw [generate, generate]
      exact .addConstant hv
  | _, _, .var hx => by
      rw [generate, generate]
      exact .lookup hx
  | _, _, .add hl hr => by
      rw [generate, generate]
      exact .atDestination fun dst =>
        .addInto hl hr (generate_parallel hl) (generate_parallel hr) dst
  | _, _, .define hx h => by
      rw [generate, generate]
      exact (Parallel.reserve hx).bind fun dst =>
        ((generate_parallel h).storeAt dst).bind fun _ =>
        (Parallel.declare hx dst.index).bind fun _ => .pure dst
  | _, _, .assign hx h => by
      rw [generate, generate]
      exact (Parallel.lookup hx).bind fun dst =>
        ((generate_parallel h).storeAt dst).bind fun _ => .pure dst
  | _, _, .block h => by
      rw [generate, generate]
      exact generateBlock_parallel h
  | _, _, .other kind => by
      rw [generate]
      exact .reject (.unknownNode kind)

theorem generateBlock_parallel :
    ∀ {es es' : List Expr}, Expr.CorrespondAll R es es' →
    Parallel R (generateBlock es) (generateBlock es')
  | _, _, .nil => by
      rw [generateBlock]
      exact .reject .emptyBlock
  | _, _, .cons h .nil => by
      rw [generateBlock, generateBlock]
      exact generate_parallel h
  | _, _, .cons h (.cons h' hs) => by
      rw [generateBlock_cons _ (List.cons_ne_nil _ _),
        generateBlock_cons _ (List.cons_ne_nil _ _)]
      exact ((generate_parallel h).withDestination none).bind fun _ =>
        generateBlock_parallel (.cons h' hs)

end

/-! ## Frames -/

theorem Context.frame_tables {c : Context} {l : Location} {f : Frame}
    (h : c.frame l = .ok f) :
    f.constants = c.constants ∧ f.locals = c.locals := by
  obtain ⟨code, -, h⟩ := ok_of_bind h
  obtain ⟨ref, -, h⟩ := ok_of_bind h
  cases h
  exact ⟨rfl, rfl⟩

theorem Context.Corresponds.frame_eq {c c' : Context} (h : c.Corresponds R c')
    {l : Location} {f : Frame} (hf : c.frame l = .ok f) :
    c'.frame l
      = .ok { f with constants := c'.constants, locals := c'.locals } := by
  have hlength : c.locals.length = c'.locals.length := h.tables.locals.length_eq
  have hplaces : c.places = c'.places := by
    rw [Context.places, Context.places, Context.usedInOrder,
      Context.usedInOrder, h.used]
  obtain ⟨code, hcode, hf⟩ := ok_of_bind hf
  obtain ⟨ref, href, hf⟩ := ok_of_bind hf
  cases hf
  rw [h.code, hlength, hplaces] at hcode
  rw [hlength, hplaces] at href
  rw [Context.frame, hcode, href, hlength, h.used]
  rfl

/-- Corresponding trees have frames that differ in the names of the locals and
in the constants alone, or are rejected for corresponding reasons. -/
theorem lower_corresponds {e e' : Expr} (h : e.Corresponds R e') :
    (∃ f f', lower e = .ok f ∧ lower e' = .ok f' ∧ f.Corresponds R f')
      ∨ ∃ r r', lower e = .error (.rejected r) ∧ lower e' = .error (.rejected r')
        ∧ r.Corresponds R r' := by
  have hstep := generate_parallel h Context.empty Context.empty .empty
  cases hgen : generate e Context.empty with
  | ok l c =>
      rw [hgen] at hstep
      generalize hgen' : generate e' Context.empty = result' at hstep
      cases hstep with
      | @ok _ _ c' hc =>
          obtain ⟨f, hf⟩ := lower_of_generate hgen
          have hframe : c.frame l = .ok f := by rwa [lower, hgen] at hf
          have hf' : lower e' = .ok
              { f with constants := c'.constants, locals := c'.locals } := by
            rw [lower, hgen']
            exact hc.frame_eq hframe
          obtain ⟨hconstants, hlocals⟩ := Context.frame_tables hframe
          refine Or.inl ⟨f, _, hf, hf', rfl, rfl, rfl, ?_, ?_, rfl, rfl⟩
          · rw [hconstants]
            exact hc.tables.constants
          · rw [hlocals]
            exact hc.tables.locals
  | error err c =>
      have herror : lower e = .error err := by rw [lower, hgen]
      rcases lower_cases e with ⟨f, hf⟩ | ⟨r, hr⟩
      · rw [herror] at hf
        cases hf
      · rw [herror] at hr
        cases hr
        rw [hgen] at hstep
        generalize hgen' : generate e' Context.empty = result' at hstep
        cases hstep with
        | error herr =>
            cases herr with
            | rejected hr =>
                exact Or.inr ⟨_, _, herror, by rw [lower, hgen'], hr⟩

end Lowering

end RegisterVm
