import Mathlib.Logic.Relation
import RegisterVm.Proofs.Scoping

/-!
# Blocks leave no trace in the code

A block in the body of another one can be spliced into it, and a block of one
expression is that expression. Both change which operands of a sum are leaves,
and so which temporaries lowering takes on the way. But a leaf looks at neither
the destination nor the temporaries, and what was taken for it is given back
before anything is emitted. So lowering is the same action before and after such
a step, in every context (`generate_unnested`).

`Expr.flatten` takes all these steps at once: it is reached by them, and none of
them applies to what it gives.
-/

namespace RegisterVm

namespace Expr

/-! ## Steps that take a block away -/

/-- One block less, anywhere in the tree: a block of one expression is replaced
by it, or a non-empty block is spliced into the block that it is an element
of. -/
inductive Unnests : Expr → Expr → Prop where
  | single (e : Expr) : Unnests (.block [e]) e
  | splice (pre post : List Expr) {inner : List Expr} (hne : inner ≠ []) :
      Unnests (.block (pre ++ .block inner :: post))
        (.block (pre ++ (inner ++ post)))
  | addLeft {l l' : Expr} (h : Unnests l l') (r : Expr) :
      Unnests (.add l r) (.add l' r)
  | addRight (l : Expr) {r r' : Expr} (h : Unnests r r') :
      Unnests (.add l r) (.add l r')
  | define (x : String) {e e' : Expr} (h : Unnests e e') :
      Unnests (.define x e) (.define x e')
  | assign (x : String) {e e' : Expr} (h : Unnests e e') :
      Unnests (.assign x e) (.assign x e')
  | element (pre post : List Expr) {e e' : Expr} (h : Unnests e e') :
      Unnests (.block (pre ++ e :: post)) (.block (pre ++ e' :: post))

theorem assignedAll_append (es es' : List Expr) :
    assignedAll (es ++ es') = assignedAll es ++ assignedAll es' := by
  induction es with
  | nil => simp [assignedAll]
  | cons e es ih => simp [assignedAll, ih]

theorem Unnests.assigned_eq {e e' : Expr} (h : Unnests e e') :
    e'.assigned = e.assigned := by
  induction h with
  | single e => simp [assigned, assignedAll]
  | splice pre post hne => simp [assigned, assignedAll, assignedAll_append]
  | addLeft h r ih | addRight l h ih => rw [assigned, assigned, ih]
  | define x h ih | assign x h ih => rw [assigned, assigned, ih]
  | element pre post h ih =>
      simp [assigned, assignedAll, assignedAll_append, ih]

/-! ## All steps at once -/

/-- A block that can be spliced into another one. -/
def isNest : Expr → Bool
  | .block (_ :: _) => true
  | _ => false

/-- The expressions that stand for `e` in the body of a block. -/
def items : Expr → List Expr
  | .block (e :: es) => e :: es
  | e => [e]

/-- A block, unless it would have a single expression. -/
def ofItems : List Expr → Expr
  | [e] => e
  | es => .block es

mutual

def flatten : Expr → Expr
  | .constant v => .constant v
  | .add l r => .add l.flatten r.flatten
  | .define x e => .define x e.flatten
  | .var x => .var x
  | .assign x e => .assign x e.flatten
  | .block body => ofItems (flattenAll body)
  | .other kind => .other kind

def flattenAll : List Expr → List Expr
  | [] => []
  | e :: es => e.flatten.items ++ flattenAll es

end

/-! ## Flattening takes steps -/

open Relation (ReflTransGen)

theorem unnests_items (pre post : List Expr) (e : Expr) :
    ReflTransGen Unnests (.block (pre ++ e :: post))
      (.block (pre ++ (e.items ++ post))) := by
  rw [items.eq_def]
  split
  · exact .single (.splice pre post (List.cons_ne_nil _ _))
  · exact .refl

theorem unnests_ofItems (es : List Expr) :
    ReflTransGen Unnests (.block es) (ofItems es) := by
  rw [ofItems.eq_def]
  split
  · exact .single (.single _)
  · exact .refl

mutual

theorem unnests_flatten : ∀ e : Expr, ReflTransGen Unnests e e.flatten
  | .constant v => by rw [flatten]
  | .add l r => by
      rw [flatten]
      have hl : ReflTransGen Unnests (.add l r) (.add l.flatten r) :=
        (unnests_flatten l).lift (Expr.add · r) fun _ _ h => .addLeft h r
      exact hl.trans ((unnests_flatten r).lift (Expr.add l.flatten) fun _ _ h =>
        .addRight _ h)
  | .define x e => by
      rw [flatten]
      exact (unnests_flatten e).lift (Expr.define x) fun _ _ h => .define x h
  | .var x => by rw [flatten]
  | .assign x e => by
      rw [flatten]
      exact (unnests_flatten e).lift (Expr.assign x) fun _ _ h => .assign x h
  | .block body => by
      rw [flatten]
      exact (unnests_flattenAll body []).trans (unnests_ofItems _)
  | .other kind => by rw [flatten]

/-- The elements of a body are flattened one after the other, behind those that
are. -/
theorem unnests_flattenAll : ∀ (body pre : List Expr),
    ReflTransGen Unnests (.block (pre ++ body)) (.block (pre ++ flattenAll body))
  | [], pre => by rw [flattenAll]
  | e :: es, pre => by
      have helement : ReflTransGen Unnests (.block (pre ++ e :: es))
          (.block (pre ++ e.flatten :: es)) :=
        (unnests_flatten e).lift (fun e' => Expr.block (pre ++ e' :: es))
          fun _ _ h => .element pre es h
      have hrest := unnests_flattenAll es (pre ++ e.flatten.items)
      rw [List.append_assoc, List.append_assoc] at hrest
      rw [flattenAll]
      exact (helement.trans (unnests_items pre es e.flatten)).trans hrest

end

/-! ## No step is left -/

/-- Trees with no block of one expression and no block to splice. -/
inductive Flat : Expr → Prop where
  | constant (v : Value) : Flat (.constant v)
  | add {l r : Expr} (hl : Flat l) (hr : Flat r) : Flat (.add l r)
  | define (x : String) {e : Expr} (h : Flat e) : Flat (.define x e)
  | var (x : String) : Flat (.var x)
  | assign (x : String) {e : Expr} (h : Flat e) : Flat (.assign x e)
  | block {body : List Expr} (hlength : body.length ≠ 1)
      (hflat : ∀ e ∈ body, Flat e)
      (hnest : ∀ e ∈ body, e.isNest = false) : Flat (.block body)
  | other (kind : String) : Flat (.other kind)

theorem Flat.not_unnests {e e' : Expr} (h : Flat e) : ¬ Unnests e e' := by
  intro hstep
  induction hstep with
  | single e =>
      cases h with
      | block hlength => exact hlength rfl
  | @splice pre post inner hne =>
      cases h with
      | block hlength hflat hnest =>
          have hinner := hnest (.block inner) (by simp)
          cases inner with
          | nil => exact hne rfl
          | cons e es => cases hinner
  | addLeft hstep r ih =>
      cases h with
      | add hl hr => exact ih hl
  | addRight l hstep ih =>
      cases h with
      | add hl hr => exact ih hr
  | define x hstep ih =>
      cases h with
      | define _ he => exact ih he
  | assign x hstep ih =>
      cases h with
      | assign _ he => exact ih he
  | element pre post hstep ih =>
      cases h with
      | block hlength hflat hnest => exact ih (hflat _ (by simp))

/-- The expressions that stand for a flat one in a body are flat, and no blocks
to splice. -/
theorem Flat.of_mem_items {e i : Expr} (h : Flat e) (hi : i ∈ e.items) :
    Flat i ∧ i.isNest = false := by
  rw [items.eq_def] at hi
  split at hi
  · cases h with
    | block hlength hflat hnest => exact ⟨hflat i hi, hnest i hi⟩
  · rename_i hnot
    obtain rfl := List.mem_singleton.mp hi
    refine ⟨h, ?_⟩
    rw [isNest.eq_def]
    split
    · exact absurd rfl (hnot _ _)
    · rfl

theorem flat_ofItems {es : List Expr} (h : ∀ e ∈ es, Flat e ∧ e.isNest = false) :
    Flat (ofItems es) := by
  rw [ofItems.eq_def]
  split
  · rename_i e
    exact (h e (List.mem_singleton_self e)).1
  · rename_i hnot
    refine .block (fun hlength => ?_) (fun e he => (h e he).1)
      fun e he => (h e he).2
    obtain ⟨e, rfl⟩ := List.length_eq_one_iff.mp hlength
    exact hnot e rfl

mutual

theorem flat_flatten : ∀ e : Expr, Flat e.flatten
  | .constant v => by
      rw [flatten]
      exact .constant v
  | .add l r => by
      rw [flatten]
      exact .add (flat_flatten l) (flat_flatten r)
  | .define x e => by
      rw [flatten]
      exact .define x (flat_flatten e)
  | .var x => by
      rw [flatten]
      exact .var x
  | .assign x e => by
      rw [flatten]
      exact .assign x (flat_flatten e)
  | .block body => by
      rw [flatten]
      exact flat_ofItems (flat_flattenAll body)
  | .other kind => by
      rw [flatten]
      exact .other kind

theorem flat_flattenAll :
    ∀ (body : List Expr), ∀ e ∈ flattenAll body, Flat e ∧ e.isNest = false
  | [], e, h => by
      rw [flattenAll] at h
      cases h
  | e₁ :: es, e, h => by
      rw [flattenAll, List.mem_append] at h
      rcases h with h | h
      · exact (flat_flatten e₁).of_mem_items h
      · exact flat_flattenAll es e h

end

end Expr

namespace Lowering

/-! ## Actions that look at no scope -/

section Scopes

variable {α β : Type}

/-- The same result with other scopes in its context. -/
def rescope (n : Nat) (d : Option Location) :
    EStateM.Result Error Context α → EStateM.Result Error Context α
  | .ok a c => .ok a { c with taken := n, destination := d }
  | .error e c => .error e { c with taken := n, destination := d }

/-- The action looks at neither the temporaries taken nor the destination, and
leaves them as they are. -/
def Unscoped (x : Lower α) : Prop :=
  ∀ c n d, x { c with taken := n, destination := d } = rescope n d (x c)

namespace Unscoped

theorem withTemporary {x : Lower α} (h : Unscoped x) :
    (Lowering.withTemporary fun _ => x) = x := by
  funext c
  have hin : x c.take = rescope (c.taken + 1) c.destination (x c) := h c _ _
  have hout : x c = rescope c.taken c.destination (x c) := h c _ _
  rw [Lowering.withTemporary, hin]
  cases hx : x c with
  | ok a c' =>
      rw [hx] at hout
      exact hout.symm
  | error err c' =>
      rw [hx] at hout
      exact hout.symm

theorem withDestination {x : Lower α} (h : Unscoped x) (d : Option Location) :
    Lowering.withDestination d x = x := by
  funext c
  have hin : x (c.aim d) = rescope c.taken d (x c) := h c _ _
  have hout : x c = rescope c.taken c.destination (x c) := h c _ _
  rw [Lowering.withDestination, hin]
  cases hx : x c with
  | ok a c' =>
      rw [hx] at hout
      exact hout.symm
  | error err c' =>
      rw [hx] at hout
      exact hout.symm

theorem bind {x : Lower α} {f : α → Lower β} (hx : Unscoped x)
    (hf : ∀ a, Unscoped (f a)) :
    Unscoped (x >>= f) := by
  intro c n d
  simp only [Bind.bind, EStateM.bind]
  rw [hx c n d]
  cases x c with
  | ok a c' => exact hf a c' n d
  | error err c' => rfl

theorem sumInto {right : Lower Location} (h : Unscoped right)
    (dst left : Location) :
    Unscoped (Lowering.sumInto dst left right) :=
  h.bind fun _ => bind (fun _ _ _ => rfl) fun _ _ _ _ => rfl

theorem leaf {e : Expr} (he : e.isLeaf = true) : Unscoped (generate e) := by
  intro c n d
  cases e with
  | constant v =>
      rw [generate]
      cases hpos : Value.position? c.constants v with
      | some i => simp [addConstant, rescope, hpos]
      | none => simp [addConstant, rescope, hpos]
  | var x =>
      rw [generate]
      cases hlook : c.visible.lookup x with
      | some register => simp [lookup, rescope, hlook]
      | none => simp [lookup, reject, rescope, Context.visibleNames, hlook]
  | add | define | assign | block | other => cases he

end Unscoped

end Scopes

/-! ## Sums do not see leaves -/

theorem leftOperand_generate (l : Expr) :
    leftOperand l (generate l) = withTemporary fun t =>
      withDestination (some t) (generate l) := by
  rw [leftOperand]
  split
  · have hleaf := Unscoped.leaf ‹l.isLeaf = true›
    simp only [hleaf.withDestination, hleaf.withTemporary]
  · rfl

theorem addRight_generate (dst left : Location) (r : Expr) :
    addRight dst left r (generate r)
    = if left = dst then withTemporary fun t =>
      sumInto dst left (withDestination (some t) (generate r))
      else sumInto dst left (withDestination (some dst) (generate r)) := by
  rw [addRight]
  by_cases hleft : left = dst
  · cases hleaf : r.isLeaf with
    | true =>
        have hr := Unscoped.leaf hleaf
        simp only [hleft, hr.withDestination, (hr.sumInto dst dst).withTemporary]
        simp
    | false => simp [hleft]
  · simp [hleft]

theorem withSafe_congr {later later' : Expr}
    (h : later'.assigned = later.assigned) :
    withSafe later' = withSafe later := by
  funext l body c
  simp only [withSafe, overwrites, h]

/-- A sum depends on the code of its sides and on what the right one assigns
to. -/
theorem generate_add_congr {l l' r r' : Expr} (hl : generate l' = generate l)
    (hr : generate r' = generate r) (hassigned : r'.assigned = r.assigned) :
    generate (.add l' r') = generate (.add l r) := by
  rw [generate, generate]
  simp only [addInto, leftOperand_generate, addRight_generate,
    withSafe_congr hassigned]
  rw [hl, hr]

/-! ## Blocks in blocks -/

theorem generateBlock_append_congr (pre : List Expr) {post post' : List Expr}
    (hne : post ≠ []) (hne' : post' ≠ [])
    (h : generateBlock post' = generateBlock post) :
    generateBlock (pre ++ post') = generateBlock (pre ++ post) := by
  induction pre with
  | nil => exact h
  | cons e es ih =>
      rw [List.cons_append, List.cons_append,
        generateBlock_cons e (by simp [hne']),
        generateBlock_cons e (by simp [hne]), ih]

/-- The destination of the second action alone can be changed if the first one
has its own. -/
theorem withDestination_bind {α β : Type} (d d' : Option Location) (x : Lower α)
    (f : α → Lower β) :
    withDestination d (withDestination d' x >>= f)
      = (withDestination d' x >>= fun a => withDestination d (f a)) := by
  funext c
  have haim : (c.aim d).aim d' = c.aim d' := rfl
  simp only [withDestination, Bind.bind, EStateM.bind, haim]
  cases x (c.aim d') with
  | ok a c' => rfl
  | error err c' => rfl

theorem generateBlock_append {inner post : List Expr} (hinner : inner ≠ [])
    (hpost : post ≠ []) :
    (withDestination none (generateBlock inner) >>= fun _ => generateBlock post)
      = generateBlock (inner ++ post) := by
  induction inner with
  | nil => exact absurd rfl hinner
  | cons e es ih =>
      cases es with
      | nil =>
          rw [generateBlock]
          exact (generateBlock_cons e hpost).symm
      | cons e' es =>
          have hne := List.cons_ne_nil e' es
          rw [generateBlock_cons e hne, withDestination_bind, bind_assoc, ih hne]
          exact (generateBlock_cons e (by simp)).symm

theorem generateBlock_splice {inner : List Expr} (hinner : inner ≠ [])
    (post : List Expr) :
    generateBlock (inner ++ post) = generateBlock (.block inner :: post) := by
  by_cases hpost : post = []
  · rw [hpost, List.append_nil, generateBlock, generate]
  · rw [generateBlock_cons _ hpost, generate, generateBlock_append hinner hpost]

theorem generateBlock_cons_congr {e e' : Expr} (h : generate e' = generate e)
    (post : List Expr) :
    generateBlock (e' :: post) = generateBlock (e :: post) := by
  by_cases hpost : post = []
  · rw [hpost, generateBlock, generateBlock, h]
  · rw [generateBlock_cons _ hpost, generateBlock_cons _ hpost, h]

/-! ## Every step -/

/-- Lowering is the same action after a step, whatever the context. -/
theorem generate_unnested {e e' : Expr} (h : e.Unnests e') :
    generate e' = generate e := by
  induction h with
  | single e => rw [generate, generateBlock]
  | splice pre post hne =>
      rw [generate, generate]
      refine generateBlock_append_congr pre (List.cons_ne_nil _ _)
        (by simp [hne]) ?_
      exact generateBlock_splice hne post
  | addLeft h r ih => exact generate_add_congr ih rfl rfl
  | addRight l h ih => exact generate_add_congr rfl ih h.assigned_eq
  | define x h ih | assign x h ih => rw [generate, generate, ih]
  | element pre post h ih =>
      rw [generate, generate]
      refine generateBlock_append_congr pre (List.cons_ne_nil _ _)
        (List.cons_ne_nil _ _) ?_
      exact generateBlock_cons_congr ih post

theorem lower_unnested {e e' : Expr}
    (h : Relation.ReflTransGen Expr.Unnests e e') :
    lower e' = lower e := by
  induction h with
  | refl => rfl
  | tail _ hstep ih => rw [← ih, lower, lower, generate_unnested hstep]

/-- A tree and the same one with its blocks flattened, as far as that goes, have
the same frame, or are rejected for the same reason. -/
theorem lower_flatten (e : Expr) :
    Relation.ReflTransGen Expr.Unnests e e.flatten
      ∧ (∀ e', ¬ Expr.Unnests e.flatten e')
      ∧ ((∃ f, lower e = .ok f ∧ lower e.flatten = .ok f)
        ∨ ∃ r, lower e = .error (.rejected r)
          ∧ lower e.flatten = .error (.rejected r)) := by
  have hsteps := e.unnests_flatten
  refine ⟨hsteps, fun e' => e.flat_flatten.not_unnests, ?_⟩
  rw [lower_unnested hsteps]
  rcases lower_cases e with ⟨f, hf⟩ | ⟨r, hr⟩
  · exact Or.inl ⟨f, hf, hf⟩
  · exact Or.inr ⟨r, hr, hr⟩

example :
    (Expr.block [.block [.define "x" (.block [.constant .nil])],
      .block [.block []], .var "x"]).flatten
    = .block [.define "x" (.constant .nil), .block [], .var "x"] := by
  rfl

end Lowering

end RegisterVm
