import RegisterVm.Proofs.Acceptance
import RegisterVm.Proofs.Rounding

/-!
# Sharing constants shows in the sign of a zero at most

A frame keeps equal constants once, and the two zeros are equal. So a compiled
tree may go on with one zero where the tree itself has the other. From there the
two evaluations stay together: *resembling* values are the same or both zeros, a
sum of resembling numbers resembles the other sum, and what is no number
resembles only itself. The relation is carried through the environment by one
induction over the tree (`Expr.evaluate_resembles`).
-/

namespace RegisterVm

/-! ## Resembling values -/

/-- The same number, or two zeros. -/
def Binary64.Resembles (x y : Binary64) : Prop :=
  x = y ∨ x.isZero = true ∧ y.isZero = true

theorem Binary64.Resembles.add {x x' y y' : Binary64} (hx : x.Resembles x')
    (hy : y.Resembles y') :
    (x.add y).Resembles (x'.add y') := by
  rcases hx with rfl | ⟨hx, hx'⟩
  · rcases hy with rfl | ⟨hy, hy'⟩
    · exact Or.inl rfl
    · cases hzero : x.isZero with
      | true => exact Or.inr ⟨isZero_add hzero hy, isZero_add hzero hy'⟩
      | false =>
          exact Or.inl
            ((add_of_isZero hzero hy).trans (add_of_isZero hzero hy').symm)
  · rcases hy with rfl | ⟨hy, hy'⟩
    · cases hzero : y.isZero with
      | true => exact Or.inr ⟨isZero_add hx hzero, isZero_add hx' hzero⟩
      | false =>
          rw [add_comm x, add_comm x']
          exact Or.inl
            ((add_of_isZero hzero hx).trans (add_of_isZero hzero hx').symm)
    · exact Or.inr ⟨isZero_add hx hy, isZero_add hx' hy'⟩

namespace Value

def isZero : Value → Bool
  | .number x => x.isZero
  | _ => false

/-- The same value, or two zeros. -/
def Resembles (v w : Value) : Prop := v = w ∨ v.isZero = true ∧ w.isZero = true

theorem Resembles.refl (v : Value) : v.Resembles v := Or.inl rfl

theorem resembles_number_iff {x : Binary64} {w : Value} :
    (Value.number x).Resembles w ↔ ∃ y, w = .number y ∧ x.Resembles y := by
  constructor
  · rintro (rfl | ⟨hx, hw⟩)
    · exact ⟨x, rfl, Or.inl rfl⟩
    · cases w with
      | number y => exact ⟨y, rfl, Or.inr ⟨hx, hw⟩⟩
      | nil | boolean => cases hw
  · rintro ⟨y, rfl, rfl | hzeros⟩
    · exact Or.inl rfl
    · exact Or.inr hzeros

/-- What is no number resembles only itself. -/
theorem Resembles.eq_of_not_number {v w : Value} (h : v.Resembles w)
    (hv : ∀ x, v ≠ .number x) : w = v := by
  rcases h with rfl | ⟨hzero, -⟩
  · rfl
  · cases v with
    | number x => exact absurd rfl (hv x)
    | nil | boolean => cases hzero

theorem resembles_of_equals {v w : Value} (h : v.equals w = true) :
    v.Resembles w := by
  cases v with
  | nil =>
      cases w with
      | nil => exact .refl _
      | boolean | number => cases h
  | boolean a =>
      cases w with
      | boolean b => exact Or.inl (congrArg boolean (beq_iff_eq.mp h))
      | nil | number => cases h
  | number x =>
      cases w with
      | number y =>
          exact resembles_number_iff.mpr
            ⟨y, rfl, Binary64.eq_or_isZero_of_equals h⟩
      | nil | boolean => cases h

/-- Sharing replaces a constant by one that resembles it. -/
theorem shared_resembles (cs : List Value) (c : Value) :
    (shared cs c).Resembles c := by
  rw [shared]
  cases hfind : cs.find? (·.equals c) with
  | none => exact .refl c
  | some u =>
      have hequals : u.equals c = true := by simpa using List.find?_some hfind
      exact resembles_of_equals hequals

theorem Resembles.typeName_eq {v w : Value} (h : v.Resembles w) :
    v.typeName = w.typeName := by
  cases v with
  | number x =>
      obtain ⟨y, rfl, -⟩ := resembles_number_iff.mp h
      rfl
  | nil | boolean => rw [h.eq_of_not_number nofun]

/-- A zero is written without its sign. -/
theorem Resembles.text_eq {v w : Value} (h : v.Resembles w) :
    v.text = w.text := by
  rcases h with rfl | ⟨hv, hw⟩
  · rfl
  · cases v with
    | number x =>
        cases w with
        | number y =>
            obtain ⟨a, rfl⟩ := Binary64.isZero_iff.mp hv
            obtain ⟨b, rfl⟩ := Binary64.isZero_iff.mp hw
            rw [text, text, numberText, numberText, Binary64.toInt?_zero,
              Binary64.toInt?_zero]
        | nil | boolean => cases hw
    | nil | boolean => cases hv

/-- Resembling operands have resembling sums, or the same one of them is no
number. -/
theorem Resembles.sum {v v' w w' : Value} (hv : v.Resembles v')
    (hw : w.Resembles w') :
    (∃ u u', v.sum w = .ok u ∧ v'.sum w' = .ok u' ∧ u.Resembles u')
      ∨ ∃ u, v.sum w = .error u ∧ v'.sum w' = .error u := by
  cases v with
  | number x =>
      obtain ⟨x', rfl, hx⟩ := resembles_number_iff.mp hv
      cases w with
      | number y =>
          obtain ⟨y', rfl, hy⟩ := resembles_number_iff.mp hw
          exact Or.inl
            ⟨_, _, rfl, rfl, resembles_number_iff.mpr ⟨_, rfl, hx.add hy⟩⟩
      | nil | boolean =>
          rw [hw.eq_of_not_number nofun]
          exact Or.inr ⟨_, rfl, rfl⟩
  | nil | boolean =>
      rw [hv.eq_of_not_number nofun]
      exact Or.inr ⟨_, rfl, rfl⟩

end Value

/-! ## Resembling evaluations -/

/-- The same names are bound, to resembling values. -/
def Env.Resembles (env env' : Env) : Prop :=
  ∀ x, Option.Rel Value.Resembles (env x) (env' x)

theorem Env.Resembles.bind {env env' : Env} (h : env.Resembles env')
    (x : String) {v v' : Value} (hv : v.Resembles v') :
    (env.bind x v).Resembles (env'.bind x v') := by
  intro y
  by_cases hy : y = x
  · subst hy
    rw [bind_self, bind_self]
    exact .some hv
  · rw [bind_of_ne env hy, bind_of_ne env' hy]
    exact h y

theorem Env.Resembles.isSome_eq {env env' : Env} (h : env.Resembles env')
    (x : String) :
    (env x).isSome = (env' x).isSome := by
  have hx := h x
  generalize env x = bound, env' x = bound' at hx ⊢
  cases hx with
  | some hv => rfl
  | none => rfl

/-- The same failure. A sum fails on the same value. -/
inductive Failure.Resembles : Failure → Failure → Prop where
  | unbound (x : String) : Resembles (.unbound x) (.unbound x)
  | emptyBlock : Resembles .emptyBlock .emptyBlock
  | unknownNode (kind : String) :
      Resembles (.unknownNode kind) (.unknownNode kind)
  | notNumber {s s' : Stop} (hvalue : s.value = s'.value) :
      Resembles (.notNumber s) (.notNumber s')

theorem Failure.Resembles.whileDefining {f f' : Failure} (h : f.Resembles f')
    (x : String) :
    (f.whileDefining x).Resembles (f'.whileDefining x) := by
  cases h with
  | unbound y => exact .unbound y
  | emptyBlock => exact .emptyBlock
  | unknownNode kind => exact .unknownNode kind
  | notNumber hvalue => exact .notNumber hvalue

theorem Failure.Resembles.whileAssigning {f f' : Failure} (h : f.Resembles f')
    (x : String) :
    (f.whileAssigning x).Resembles (f'.whileAssigning x) := by
  cases h with
  | unbound y => exact .unbound y
  | emptyBlock => exact .emptyBlock
  | unknownNode kind => exact .unknownNode kind
  | notNumber hvalue => exact .notNumber hvalue

namespace Expr

inductive OutcomesResemble :
    Except Failure (Value × Env) → Except Failure (Value × Env) → Prop where
  | value {v v' : Value} {env env' : Env} (hv : v.Resembles v')
      (henv : env.Resembles env') :
      OutcomesResemble (.ok (v, env)) (.ok (v', env'))
  | failure {f f' : Failure} (h : f.Resembles f') :
      OutcomesResemble (.error f) (.error f')

mutual

/-- Evaluations in which constants stand for resembling values stay together. -/
theorem evaluate_resembles {denote denote' : Value → Value}
    (hdenote : ∀ c, (denote c).Resembles (denote' c)) :
    ∀ (e : Expr) {env env' : Env}, env.Resembles env' →
      OutcomesResemble (e.evaluate denote env) (e.evaluate denote' env')
  | .constant c, env, env', henv => by
      rw [evaluate, evaluate]
      exact .value (hdenote c) henv
  | .var x, env, env', henv => by
      rw [evaluate, evaluate]
      have hx := henv x
      generalize env x = bound, env' x = bound' at hx ⊢
      cases hx with
      | some hv => exact .value hv henv
      | none => exact .failure (.unbound x)
  | .add l r, env, env', henv => by
      rw [evaluate, evaluate]
      have hl := evaluate_resembles hdenote l henv
      generalize l.evaluate denote env = left, l.evaluate denote' env'
        = left' at hl ⊢
      cases hl with
      | failure hf => exact .failure hf
      | @value a a' env₁ env₁' ha henv₁ =>
          have hr := evaluate_resembles hdenote r henv₁
          dsimp only
          generalize r.evaluate denote env₁ = right, r.evaluate denote' env₁'
            = right' at hr ⊢
          cases hr with
          | failure hf => exact .failure hf
          | @value b b' env₂ env₂' hb henv₂ =>
              dsimp only
              rcases ha.sum hb with ⟨u, u', hu, hu', hsum⟩ | ⟨u, hu, hu'⟩
              · rw [hu, hu']
                exact .value hsum henv₂
              · rw [hu, hu']
                exact .failure (.notNumber rfl)
  | .define x e, env, env', henv => by
      rw [evaluate, evaluate]
      have he := evaluate_resembles hdenote e henv
      generalize e.evaluate denote env = inner, e.evaluate denote' env'
        = inner' at he ⊢
      cases he with
      | failure hf => exact .failure (hf.whileDefining x)
      | value hv henv₁ => exact .value hv (henv₁.bind x hv)
  | .assign x e, env, env', henv => by
      rw [evaluate, evaluate]
      have he := evaluate_resembles hdenote e henv
      generalize e.evaluate denote env = inner, e.evaluate denote' env'
        = inner' at he ⊢
      cases he with
      | failure hf => exact .failure (hf.whileAssigning x)
      | @value v v' env₁ env₁' hv henv₁ =>
          dsimp only
          rw [← henv₁.isSome_eq]
          split
          · exact .value hv (henv₁.bind x hv)
          · exact .failure (.unbound x)
  | .block body, env, env', henv => by
      rw [evaluate, evaluate]
      exact evaluateBlock_resembles hdenote body henv
  | .other kind, env, env', henv => by
      rw [evaluate, evaluate]
      exact .failure (.unknownNode kind)

theorem evaluateBlock_resembles {denote denote' : Value → Value}
    (hdenote : ∀ c, (denote c).Resembles (denote' c)) :
    ∀ (body : List Expr) {env env' : Env}, env.Resembles env' →
      OutcomesResemble (evaluateBlock denote body env)
        (evaluateBlock denote' body env')
  | [], env, env', henv => by
      rw [evaluateBlock, evaluateBlock]
      exact .failure .emptyBlock
  | [e], env, env', henv => by
      rw [evaluateBlock, evaluateBlock]
      exact evaluate_resembles hdenote e henv
  | e :: e' :: es, env, env', henv => by
      have he := evaluate_resembles hdenote e henv
      rw [evaluateBlock, evaluateBlock]
      · generalize e.evaluate denote env = first, e.evaluate denote' env'
          = first' at he ⊢
        cases he with
        | failure hf => exact .failure hf
        | value hv henv₁ =>
            exact evaluateBlock_resembles hdenote (e' :: es) henv₁
      · exact fun h => List.cons_ne_nil _ _ h
      · exact fun h => List.cons_ne_nil _ _ h

end

/-- The evaluation of a tree with its constants shared resembles the plain
one. -/
theorem outcome_resembles (e : Expr) :
    OutcomesResemble e.outcome (e.evaluate id Env.empty) :=
  evaluate_resembles (Value.shared_resembles e.constants) e fun _ => .none

end Expr

/-! ## Programs -/

namespace Program

theorem lower_of_compile {e : Expr} {f : Frame} {validate : Bool}
    (h : compile e validate = .ok f) :
    Lowering.lower e = .ok f := by
  rw [compile_eq] at h
  cases hlower : Lowering.lower e with
  | error err =>
      rw [hlower] at h
      cases h
  | ok g =>
      rw [hlower] at h
      cases h
      rfl

/-- What a program comes to is what the evaluation of its tree comes to. -/
theorem evaluate_of_lower {e : Expr} {f : Frame} (h : Lowering.lower e = .ok f)
    (validate : Bool) :
    (∃ v env, e.outcome = .ok (v, env) ∧ evaluate e validate = .ok v)
      ∨ ∃ s ref, e.outcome = .error (.notNumber s)
        ∧ evaluate e validate
          = .error (.step (.fault (.notNumber ref s.value))) := by
  have hvalue : evaluate e validate = valueOf f := by
    rw [evaluate_eq, h]
    rfl
  rw [hvalue, valueOf, Machine.verdict]
  obtain ⟨c, l, hc⟩ := Lowering.lower_compiled h
  obtain ⟨halt, hends, hreal⟩ := hc.run_realizes
  generalize e.outcome = outcome at hreal ⊢
  cases hreal with
  | value hagree =>
      cases hends with
      | halted hframe hstatus hfailure hholds =>
          rw [hfailure]
          dsimp only
          rw [hc.result_eq hframe hholds]
          exact Or.inl ⟨_, _, rfl, rfl⟩
  | stop hstop =>
      cases hends with
      | faulted hframe hstatus hfailure hholds =>
          rw [hfailure]
          exact Or.inr ⟨_, _, rfl, rfl⟩

/-- A program and the plain evaluation of its tree, in which every constant
stands for itself, come to the same value or to two zeros, which have the same
type and text; or both fail at a sum, on the same value. -/
theorem evaluate_resembles_plain {e : Expr} {f : Frame} {validate : Bool}
    (h : compile e validate = .ok f) :
    (∃ v w env, evaluate e validate = .ok v
      ∧ e.evaluate id Env.empty = .ok (w, env)
        ∧ (v = w ∨ v.isZero = true ∧ w.isZero = true) ∧ v.typeName = w.typeName
        ∧ v.text = w.text)
      ∨ ∃ ref v s, evaluate e validate
        = .error (.step (.fault (.notNumber ref v)))
        ∧ e.evaluate id Env.empty = .error (.notNumber s) ∧ v = s.value := by
  have hresembles := e.outcome_resembles
  rcases evaluate_of_lower (lower_of_compile h) validate
    with ⟨v, env, hout, heval⟩ | ⟨s, ref, hout, heval⟩
  · rw [hout] at hresembles
    generalize e.evaluate id Env.empty = plain at hresembles ⊢
    cases hresembles with
    | value hv henv =>
        exact Or.inl ⟨_, _, _, heval, rfl, hv, hv.typeName_eq, hv.text_eq⟩
  · rw [hout] at hresembles
    generalize e.evaluate id Env.empty = plain at hresembles ⊢
    cases hresembles with
    | failure hf =>
        cases hf with
        | notNumber hvalue => exact Or.inr ⟨ref, _, _, heval, rfl, hvalue⟩

/-- The zeros of the sum `0 + 0` are shared with the `-0` before it. -/
def sumOfSharedZeros : Expr :=
  .block [.define "x" (.constant (.number (.zero true))),
    .add (.constant (.number (.zero false))) (.constant (.number (.zero false)))]

theorem evaluate_resembles_plain_sumOfSharedZeros :
    ∃ f v w env, compile sumOfSharedZeros true = .ok f
    ∧ evaluate sumOfSharedZeros true = .ok v ∧ v = .number (.zero true)
    ∧ sumOfSharedZeros.evaluate id Env.empty = .ok (w, env)
    ∧ w = .number (.zero false)
    ∧ v.text = w.text := by
  have hcompile : compile sumOfSharedZeros true = .ok
      { size := 2
        constants := [.number (.zero true)]
        locals := ["x"]
        code := [.loadConstant 0 (-1), .add 1 (-1) (-1)]
        result := some 1 } := by with_unfolding_all rfl
  have heval : evaluate sumOfSharedZeros true = .ok (.number (.zero true)) := by
    with_unfolding_all rfl
  rcases evaluate_resembles_plain hcompile with ⟨v, w, env, hv, hw, -, -, htext⟩
    | ⟨ref, v, s, hv, -, -⟩
  · obtain rfl : v = .number (.zero true) := by
      rw [heval] at hv
      cases hv
      rfl
    cases hw
    exact ⟨_, _, _, _, hcompile, heval, rfl, rfl, rfl, htext⟩
  · rw [heval] at hv
    cases hv

end Program

end RegisterVm
