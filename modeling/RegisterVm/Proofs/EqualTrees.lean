import RegisterVm.Proofs.Correspondence

/-!
# Equal trees, equal frames

Trees are equal if they are so node by node, where constants are compared as
values: a zero may stand against the other one, and a tree with a NaN equals
nothing, not even itself. The pools of two such trees are searched for different
values, but with the same answer, since equality of values is symmetric and
transitive. So equal trees correspond, by equality of names and of constants,
and their frames are equal.
-/

namespace RegisterVm

/-- Whether two values are equal does not change if each is replaced by an equal
one. -/
theorem Value.equals_congr {u u' v v' : Value} (hu : u.equals u' = true)
    (hv : v.equals v' = true) :
    u.equals v = u'.equals v' := by
  rw [Bool.eq_iff_iff]
  constructor
  · intro h
    exact equals_trans (equals_symm hu) (equals_trans h hv)
  · intro h
    exact equals_trans hu (equals_trans h (equals_symm hv))

/-- The same names, and constants that are equal. -/
def Correspondence.equality : Correspondence where
  name := Eq
  constant v w := v.equals w = true
  name_eq_iff := by
    rintro x _ y _ rfl rfl
    rfl
  equals_eq := Value.equals_congr

theorem Correspondence.equality_names {xs ys : List String}
    (h : List.Forall₂ equality.name xs ys) : xs = ys :=
  List.forall₂_eq_eq_eq ▸ h

/-! ## Trees -/

namespace Expr

mutual

theorem corresponds_of_equals :
    ∀ {a b : Expr}, a.equals b = true → a.Corresponds .equality b
  | .constant v, b, h => by
      cases b with
      | constant w =>
          rw [equals] at h
          exact .constant h
      | _ => simp [equals] at h
  | .add l r, b, h => by
      cases b with
      | add l' r' =>
          rw [equals, Bool.and_eq_true] at h
          exact .add (corresponds_of_equals h.1) (corresponds_of_equals h.2)
      | _ => simp [equals] at h
  | .define x e, b, h => by
      cases b with
      | define x' e' =>
          rw [equals, Bool.and_eq_true, beq_iff_eq] at h
          exact .define h.1 (corresponds_of_equals h.2)
      | _ => simp [equals] at h
  | .var x, b, h => by
      cases b with
      | var x' =>
          rw [equals, beq_iff_eq] at h
          exact .var h
      | _ => simp [equals] at h
  | .assign x e, b, h => by
      cases b with
      | assign x' e' =>
          rw [equals, Bool.and_eq_true, beq_iff_eq] at h
          exact .assign h.1 (corresponds_of_equals h.2)
      | _ => simp [equals] at h
  | .block es, b, h => by
      cases b with
      | block es' =>
          rw [equals] at h
          exact .block (correspondAll_of_equalsAll h)
      | _ => simp [equals] at h
  | .other kind, b, h => by
      cases b with
      | other kind' =>
          rw [equals, beq_iff_eq] at h
          rw [h]
          exact .other kind'
      | _ => simp [equals] at h

theorem correspondAll_of_equalsAll :
    ∀ {as bs : List Expr}, equalsAll as bs = true →
    CorrespondAll .equality as bs
  | [], [], _ => .nil
  | a :: as, b :: bs, h => by
      rw [equalsAll, Bool.and_eq_true] at h
      exact .cons (corresponds_of_equals h.1) (correspondAll_of_equalsAll h.2)
  | [], _ :: _, h | _ :: _, [], h => by simp [equalsAll] at h

end

end Expr

/-! ## Frames and rejections -/

theorem Frame.Corresponds.equals_eq {f g : Frame}
    (h : f.Corresponds .equality g) : f.equals g = true := by
  simp only [Frame.equals, Bool.and_eq_true, beq_iff_eq, List.all_eq_true]
  refine ⟨⟨⟨⟨⟨⟨⟨h.inputs, h.outputs⟩, h.size⟩, h.constants.length_eq⟩, ?_⟩, ?_⟩,
    h.code⟩, h.result⟩
  · rintro ⟨v, w⟩ hmem
    exact List.forall₂_zip h.constants hmem
  · exact Correspondence.equality_names h.locals

namespace Lowering

/-- A rejection looks at names alone, so the same names give the same one. -/
theorem Rejection.Corresponds.eq {r r' : Rejection}
    (h : r.Corresponds .equality r') : r = r' := by
  cases h with
  | alreadyDefined hx hlocals =>
      obtain rfl := hx
      rw [Correspondence.equality_names hlocals]
  | notDefined hx hvisible =>
      obtain rfl := hx
      rw [Correspondence.equality_names hvisible]
  | unknownNode kind => rfl
  | emptyBlock => rfl

/-- Equal trees have equal frames, which differ in the sign of zeros among their
constants at most, or they are rejected for the same reason. -/
theorem lower_equals {a b : Expr} (h : a.equals b = true) :
    (∃ f g, lower a = .ok f ∧ lower b = .ok g ∧ f.equals g = true
        ∧ f.size = g.size ∧ f.locals = g.locals ∧ f.code = g.code
        ∧ f.result = g.result
        ∧ List.Forall₂ (fun v w => v.equals w = true) f.constants g.constants)
      ∨ ∃ r, lower a = .error (.rejected r)
        ∧ lower b = .error (.rejected r) := by
  rcases lower_corresponds (Expr.corresponds_of_equals h)
    with ⟨f, g, hf, hg, hfg⟩ | ⟨r, r', hr, hr', hrr'⟩
  · have hlocals := Correspondence.equality_names hfg.locals
    exact Or.inl ⟨f, g, hf, hg, hfg.equals_eq, hfg.size, hlocals, hfg.code,
      hfg.result, hfg.constants⟩
  · obtain rfl := hrr'.eq
    exact Or.inr ⟨r, hr, hr'⟩

/-- `x := z` and `y := x + w`, for two zeros. -/
def sumOfZeros (z w : Bool) : Expr :=
  .block [.define "x" (.constant (.number (.zero z))),
    .define "y" (.add (.var "x") (.constant (.number (.zero w))))]

/-- The pool keeps the zero that comes first. -/
theorem lower_equals_sumOfZeros :
    (sumOfZeros false true).equals (sumOfZeros true false) = true
    ∧ ∃ f g, lower (sumOfZeros false true) = .ok f
      ∧ lower (sumOfZeros true false) = .ok g
      ∧ f.constants = [.number (.zero false)]
      ∧ g.constants = [.number (.zero true)]
      ∧ f.code = g.code ∧ f.equals g = true := by
  have hlower : ∀ z w, lower (sumOfZeros z w) = .ok
      { size := 2
        constants := [.number (.zero z)]
        locals := ["x", "y"]
        code := [.loadConstant 0 (-1), .add 1 0 (-1)]
        result := some 1 } := by
    intro z w
    cases z <;> cases w <;> with_unfolding_all rfl
  have hequal : (sumOfZeros false true).equals (sumOfZeros true false)
      = true := by decide
  rcases lower_equals hequal with ⟨f, g, hf, hg, hfg, -, -, hcode, -⟩
    | ⟨r, hr, -⟩
  · rw [hlower] at hf hg
    cases hf
    cases hg
    exact ⟨hequal, _, _, hlower _ _, hlower _ _, rfl, rfl, hcode, hfg⟩
  · rw [hlower] at hr
    cases hr

end Lowering

end RegisterVm
