import RegisterVm.Expr

/-!
# The meaning of a tree

A tree is evaluated from left to right over an environment of names. A
definition binds its name once its value is there, an assignment updates it, a
block has the value of its last expression, and a sum wants two numbers: both
operands are evaluated first, then the left one is looked at before the right
one.

What a constant stands for is a parameter. Compiled code keeps equal constants
once, so there a constant stands for the first one of the tree that equals it
(`Value.shared`); `Expr.outcome` is the evaluation in that sense.

An evaluation that fails at a sum says in which state: the environment, and the
definitions and assignments whose values were being computed.
-/

namespace RegisterVm

/-! ## Environments -/

/-- The values of the names that are bound. -/
abbrev Env := String → Option Value

namespace Env

def empty : Env := fun _ => none

def bind (env : Env) (x : String) (v : Value) : Env :=
  fun y => if y = x then some v else env y

@[simp] theorem bind_self (env : Env) (x : String) (v : Value) :
    env.bind x v x = some v :=
  if_pos rfl

theorem bind_of_ne (env : Env) {x y : String} (h : y ≠ x) (v : Value) :
    env.bind x v y = env y :=
  if_neg h

theorem bind_isSome (env : Env) {x y : String} (v : Value) (h : (env y).isSome) :
    (env.bind x v y).isSome := by
  by_cases hy : y = x
  · rw [hy, bind_self]; rfl
  · rwa [bind_of_ne env hy]

end Env

/-! ## Evaluation -/

/-- The sum of two numbers, or the first of the two values that is none. -/
def Value.sum : Value → Value → Except Value Value
  | .number x, .number y => .ok (.number (x.add y))
  | .number _, w => .error w
  | v, _ => .error v

/-- The first of some constants that equals `c`; `c` itself if there is none, as
for a NaN. -/
def Value.shared (cs : List Value) (c : Value) : Value :=
  (cs.find? (·.equals c)).getD c

/-- The state in which a sum fails: the operand that is no number, the
environment, and the names whose assignments and definitions are in progress,
from the innermost one outwards. -/
structure Stop where
  value : Value
  env : Env
  assigning : List String := []
  defining : List String := []

inductive Failure where
  | unbound (name : String)
  | emptyBlock
  | unknownNode (kind : String)
  | notNumber (s : Stop)

namespace Failure

/-- The failure, seen from an assignment in whose value it happened. -/
def whileAssigning (x : String) : Failure → Failure
  | .notNumber s => .notNumber { s with assigning := x :: s.assigning }
  | f => f

/-- The failure, seen from a definition in whose value it happened. -/
def whileDefining (x : String) : Failure → Failure
  | .notNumber s => .notNumber { s with defining := x :: s.defining }
  | f => f

end Failure

namespace Expr

mutual

/-- The value of a tree and the environment after it, if a constant `c` stands
for `denote c`. -/
def evaluate (denote : Value → Value) :
    Expr → Env → Except Failure (Value × Env)
  | .constant c, env => .ok (denote c, env)
  | .var x, env =>
      match env x with
      | some v => .ok (v, env)
      | none => .error (.unbound x)
  | .add l r, env =>
      match l.evaluate denote env with
      | .error f => .error f
      | .ok (a, env₁) =>
          match r.evaluate denote env₁ with
          | .error f => .error f
          | .ok (b, env₂) =>
              match a.sum b with
              | .ok v => .ok (v, env₂)
              | .error v => .error (.notNumber { value := v, env := env₂ })
  | .define x e, env =>
      match e.evaluate denote env with
      | .error f => .error (f.whileDefining x)
      | .ok (v, env₁) => .ok (v, env₁.bind x v)
  | .assign x e, env =>
      match e.evaluate denote env with
      | .error f => .error (f.whileAssigning x)
      | .ok (v, env₁) =>
          if (env₁ x).isSome then .ok (v, env₁.bind x v) else .error (.unbound x)
  | .block body, env => evaluateBlock denote body env
  | .other kind, _ => .error (.unknownNode kind)

def evaluateBlock (denote : Value → Value) :
    List Expr → Env → Except Failure (Value × Env)
  | [], _ => .error .emptyBlock
  | [e], env => e.evaluate denote env
  | e :: es, env =>
      match e.evaluate denote env with
      | .error f => .error f
      | .ok (_, env₁) => evaluateBlock denote es env₁

end

mutual

/-- The constants of a tree from left to right, with repeats. -/
def constants : Expr → List Value
  | .constant v => [v]
  | .add l r => l.constants ++ r.constants
  | .define _ e => e.constants
  | .var _ => []
  | .assign _ e => e.constants
  | .block body => constantsAll body
  | .other _ => []

def constantsAll : List Expr → List Value
  | [] => []
  | e :: es => e.constants ++ constantsAll es

end

/-- The evaluation of a whole tree, with its constants shared. -/
def outcome (e : Expr) : Except Failure (Value × Env) :=
  e.evaluate (Value.shared e.constants) Env.empty

/-! ## Evaluation never unbinds a name -/

/-- Every name bound in `env` is bound where the evaluation ends, also if it
fails at a sum. -/
def Keeps (env : Env) : Except Failure (Value × Env) → Prop
  | .ok (_, env') => ∀ x, (env x).isSome → (env' x).isSome
  | .error (.notNumber s) => ∀ x, (env x).isSome → (s.env x).isSome
  | .error _ => True

theorem Keeps.trans {env env₁ : Env} {v : Value}
    {result : Except Failure (Value × Env)} (h : Keeps env (.ok (v, env₁)))
    (h' : Keeps env₁ result) : Keeps env result := by
  match result, h' with
  | .ok (_, env₂), h' => exact fun x hx => h' x (h x hx)
  | .error (.notNumber s), h' => exact fun x hx => h' x (h x hx)
  | .error (.unbound _), _ | .error .emptyBlock, _ | .error (.unknownNode _), _ =>
      trivial

theorem Keeps.whileDefining {env : Env} {f : Failure} (h : Keeps env (.error f))
    (x : String) :
    Keeps env (.error (f.whileDefining x)) := by
  cases f <;> exact h

theorem Keeps.whileAssigning {env : Env} {f : Failure}
    (h : Keeps env (.error f)) (x : String) :
    Keeps env (.error (f.whileAssigning x)) := by
  cases f <;> exact h

mutual

theorem evaluate_keeps (denote : Value → Value) :
    ∀ (e : Expr) (env : Env), Keeps env (e.evaluate denote env)
  | .constant c, env => fun _ h => h
  | .var x, env => by
      rw [evaluate]
      split
      · exact fun _ h => h
      · trivial
  | .add l r, env => by
      have hl := evaluate_keeps denote l env
      rw [evaluate]
      split
      · rename_i f hf
        rwa [hf] at hl
      · rename_i a env₁ h₁
        rw [h₁] at hl
        have hr := evaluate_keeps denote r env₁
        split
        · rename_i f hf
          rw [hf] at hr
          exact hl.trans hr
        · rename_i b env₂ h₂
          rw [h₂] at hr
          split
          · exact fun x hx => hr x (hl x hx)
          · exact fun x hx => hr x (hl x hx)
  | .define x e, env => by
      have he := evaluate_keeps denote e env
      rw [evaluate]
      split
      · rename_i f hf
        rw [hf] at he
        exact he.whileDefining x
      · rename_i v env₁ h₁
        rw [h₁] at he
        exact fun y hy => env₁.bind_isSome v (he y hy)
  | .assign x e, env => by
      have he := evaluate_keeps denote e env
      rw [evaluate]
      split
      · rename_i f hf
        rw [hf] at he
        exact he.whileAssigning x
      · rename_i v env₁ h₁
        rw [h₁] at he
        split
        · exact fun y hy => env₁.bind_isSome v (he y hy)
        · trivial
  | .block body, env => by
      rw [evaluate]
      exact evaluateBlock_keeps denote body env
  | .other kind, env => trivial

theorem evaluateBlock_keeps (denote : Value → Value) :
    ∀ (body : List Expr) (env : Env), Keeps env (evaluateBlock denote body env)
  | [], env => trivial
  | [e], env => by
      rw [evaluateBlock]
      exact evaluate_keeps denote e env
  | e :: e' :: es, env => by
      have he := evaluate_keeps denote e env
      rw [evaluateBlock]
      · split
        · rename_i f hf
          rwa [hf] at he
        · rename_i v env₁ h₁
          rw [h₁] at he
          exact he.trans (evaluateBlock_keeps denote (e' :: es) env₁)
      · exact fun h => List.cons_ne_nil _ _ h

end

end Expr

/-! ## Equal constants and the pool

Equality of values is symmetric and transitive, but not reflexive: a NaN equals
nothing. That is enough for the pool: a value that an earlier one of the pool
equals is never the first to equal anything. -/

theorem Binary64.equals_symm {x y : Binary64} (h : x.equals y = true) :
    y.equals x = true := by
  cases x <;> cases y <;> simp_all [Binary64.equals]
  grind

theorem Binary64.equals_trans {x y z : Binary64} (h : x.equals y = true)
    (h' : y.equals z = true) :
    x.equals z = true := by
  cases x <;> cases y <;> cases z <;> simp_all [Binary64.equals]
  grind

namespace Value

theorem equals_symm {u v : Value} (h : u.equals v = true) :
    v.equals u = true := by
  cases u <;> cases v <;> simp_all [Value.equals]
  exact Binary64.equals_symm h

theorem equals_trans {u v w : Value} (h : u.equals v = true)
    (h' : v.equals w = true) :
    u.equals w = true := by
  cases u <;> cases v <;> cases w <;> simp_all [Value.equals]
  exact Binary64.equals_trans h h'

/-- Only a value that equals nothing is unequal to itself. -/
theorem equals_self_of_equals {u v : Value} (h : u.equals v = true) :
    v.equals v = true :=
  equals_trans (equals_symm h) h

/-- Leaving out what the pool has an equal of does not change the first value
that equals `c`. -/
theorem find?_foldl_addDistinct (c : Value) (vs pool : List Value) :
    (vs.foldl addDistinct pool).find? (·.equals c)
      = (pool ++ vs).find? (·.equals c) := by
  induction vs generalizing pool with
  | nil => simp
  | cons v vs ih =>
      rw [List.foldl_cons, ih, addDistinct]
      split
      · rename_i hpos
        obtain ⟨u, hu, huv⟩ : ∃ u ∈ pool, u.equals v = true := by
          simpa [position?, List.findIdx?_isSome] using hpos
        rw [List.find?_append, List.find?_append, List.find?_cons]
        split
        · rename_i hvc
          have hsome : (pool.find? (·.equals c)).isSome := by
            rw [List.find?_isSome]
            exact ⟨u, hu, equals_trans huv hvc⟩
          obtain ⟨w, hw⟩ := Option.isSome_iff_exists.mp hsome
          rw [hw]
          rfl
        · rfl
      · rw [List.append_assoc, List.singleton_append]

theorem shared_distinct (vs : List Value) (c : Value) :
    shared (distinct vs) c = shared vs c := by
  rw [shared, shared, distinct, find?_foldl_addDistinct, List.nil_append]

end Value

end RegisterVm
