import RegisterVm.Proofs.Correspondence

/-!
# Other names, the same code

If variables are renamed so that the names of a tree stay apart, old and new
names correspond. So the renamed tree has the same frame but for the names of
the locals, which are renamed with it. What the renaming does to other names is
of no matter.
-/

namespace RegisterVm

namespace Expr

mutual

/-- The names in definitions, uses and assignments, in order and with
repeats. -/
def names : Expr → List String
  | .constant _ => []
  | .add l r => l.names ++ r.names
  | .define x e => x :: e.names
  | .var x => [x]
  | .assign x e => x :: e.names
  | .block body => namesAll body
  | .other _ => []

def namesAll : List Expr → List String
  | [] => []
  | e :: es => e.names ++ namesAll es

end

mutual

def rename (g : String → String) : Expr → Expr
  | .constant v => .constant v
  | .add l r => .add (l.rename g) (r.rename g)
  | .define x e => .define (g x) (e.rename g)
  | .var x => .var (g x)
  | .assign x e => .assign (g x) (e.rename g)
  | .block body => .block (renameAll g body)
  | .other kind => .other kind

def renameAll (g : String → String) : List Expr → List Expr
  | [] => []
  | e :: es => e.rename g :: renameAll g es

end

end Expr

/-- Names from a list correspond to what a renaming makes of them, if it keeps
them apart. -/
def Correspondence.ofRenaming (g : String → String) (xs : List String)
    (hg : ∀ x ∈ xs, ∀ y ∈ xs, g x = g y → x = y) : Correspondence where
  name x x' := x ∈ xs ∧ x' = g x
  constant := Eq
  name_eq_iff := by
    rintro x _ y _ ⟨hx, rfl⟩ ⟨hy, rfl⟩
    exact ⟨congrArg g, hg x hx y hy⟩
  equals_eq := by
    rintro v _ w _ rfl rfl
    rfl

namespace Expr

variable {g : String → String} {xs : List String}
    {hg : ∀ x ∈ xs, ∀ y ∈ xs, g x = g y → x = y}

mutual

theorem corresponds_rename : ∀ e : Expr, e.names ⊆ xs →
    e.Corresponds (.ofRenaming g xs hg) (e.rename g)
  | .constant v, _ => by
      rw [rename]
      exact .constant rfl
  | .add l r, h => by
      rw [names, List.append_subset] at h
      rw [rename]
      exact .add (corresponds_rename l h.1) (corresponds_rename r h.2)
  | .define x e, h => by
      rw [names, List.cons_subset] at h
      rw [rename]
      exact .define ⟨h.1, rfl⟩ (corresponds_rename e h.2)
  | .var x, h => by
      rw [names, List.cons_subset] at h
      rw [rename]
      exact .var ⟨h.1, rfl⟩
  | .assign x e, h => by
      rw [names, List.cons_subset] at h
      rw [rename]
      exact .assign ⟨h.1, rfl⟩ (corresponds_rename e h.2)
  | .block body, h => by
      rw [names] at h
      rw [rename]
      exact .block (correspondAll_rename body h)
  | .other kind, _ => by
      rw [rename]
      exact .other kind

theorem correspondAll_rename : ∀ es : List Expr, namesAll es ⊆ xs →
    CorrespondAll (.ofRenaming g xs hg) es (renameAll g es)
  | [], _ => by
      rw [renameAll]
      exact .nil
  | e :: es, h => by
      rw [namesAll, List.append_subset] at h
      rw [renameAll]
      exact .cons (corresponds_rename e h.1) (correspondAll_rename es h.2)

end

end Expr

/-- The frame that corresponds to another one by a renaming is that frame with
its locals renamed. -/
theorem Frame.Corresponds.eq_rename {g : String → String} {xs : List String}
    {hg : ∀ x ∈ xs, ∀ y ∈ xs, g x = g y → x = y} {f f' : Frame}
    (h : f.Corresponds (.ofRenaming g xs hg) f') :
    f' = { f with locals := f.locals.map g } := by
  have hconstants : f.constants = f'.constants :=
    List.forall₂_eq_eq_eq ▸ h.constants
  have hlocals : f'.locals = f.locals.map g := by
    have hnames := h.locals
    generalize f.locals = ys, f'.locals = ys' at hnames ⊢
    induction hnames with
    | nil => rfl
    | cons hx hxs ih => rw [hx.2, ih, List.map_cons]
  obtain ⟨hinputs, houtputs, hsize, -, -, hcode, hresult⟩ := h
  cases f'
  simp only at hinputs houtputs hsize hconstants hlocals hcode hresult
  subst hinputs houtputs hsize hconstants hlocals hcode hresult
  rfl

namespace Lowering

/-- A tree has a frame if and only if the tree with other names for its
variables has one, as long as these are kept apart; and then it is the same
frame with its locals renamed. -/
theorem lower_rename {e : Expr} {g : String → String}
    (hg : ∀ x ∈ e.names, ∀ y ∈ e.names, g x = g y → x = y) :
    ((∃ f, lower e = .ok f) ↔ ∃ f', lower (e.rename g) = .ok f')
      ∧ ∀ f, lower e = .ok f →
        lower (e.rename g) = .ok { f with locals := f.locals.map g } := by
  have hcorresponds := @Expr.corresponds_rename g e.names hg e fun _ hx => hx
  rcases lower_corresponds hcorresponds with ⟨f, f', hf, hf', hframes⟩
    | ⟨r, r', hr, hr', -⟩
  · refine ⟨iff_of_true ⟨f, hf⟩ ⟨f', hf'⟩, fun f₀ hf₀ => ?_⟩
    rw [hf] at hf₀
    cases hf₀
    rw [hf', hframes.eq_rename]
  · refine ⟨iff_of_false (fun ⟨f, hf⟩ => ?_) fun ⟨f', hf'⟩ => ?_, fun f hf => ?_⟩
    · rw [hr] at hf
      cases hf
    · rw [hr'] at hf'
      cases hf'
    · rw [hr] at hf
      cases hf

/-- `x` becomes `y`, and all other names the empty one. -/
def renamedToY (x : String) : String := if x = "x" then "y" else ""

theorem lower_rename_readBeforeAssigned :
    ∃ f, lower readBeforeAssigned = .ok f ∧ f.locals = ["x", "y"]
    ∧ lower (readBeforeAssigned.rename renamedToY)
      = .ok { f with locals := ["y", ""] } := by
  have hlower : lower readBeforeAssigned = .ok
      { size := 3
        constants := [.number (.infinite false), .number (.infinite true)]
        locals := ["x", "y"]
        code :=
          [.loadConstant 0 (-1), .move 2 0, .loadConstant 0 (-2), .add 1 2 0]
        result := some 1 } := by with_unfolding_all rfl
  have hnames : readBeforeAssigned.names = ["x", "y", "x", "x"] := by
    with_unfolding_all rfl
  have hg : ∀ x ∈ readBeforeAssigned.names, ∀ y ∈ readBeforeAssigned.names,
      renamedToY x = renamedToY y → x = y := by
    rw [hnames]
    decide
  exact ⟨_, hlower, rfl, (lower_rename hg).2 _ hlower⟩

end Lowering

end RegisterVm
