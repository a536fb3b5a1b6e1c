import RegisterVm.Lowering.Generate

/-!
# Derivations of lowering

`generate` threads one context through the tree. Here the same is said by rules:
`Lowers e d n T l code T'` holds if lowering `e` towards the destination `d`,
with `n` temporaries taken and the tables `T`, appends `code`, leaves the tables
`T'` and answers with the location `l`.

What is scoped in the context, the destination and the temporaries taken, is a
parameter of a derivation and never changes in it; what only grows, the code, is
collected by `++`. A leaf looks at neither, so the rule for a sum need not ask
whether its operands are leaves.

The bridge is `generate_lowers`: whatever `generate` answers has a derivation,
and its context differs from the one before by exactly the code and the tables
of that derivation.
-/

namespace RegisterVm.Lowering

/-! ## Tables -/

/-- What lowering knows of the tree so far. -/
structure Tables where
  constants : List Value := []
  locals : List String := []
  visible : List (String × Int) := []

namespace Tables

/-- The place that a constant has, or gets, in the pool. -/
def place (T : Tables) (v : Value) : Nat :=
  (Value.position? T.constants v).getD T.constants.length

def pool (T : Tables) (v : Value) : Tables :=
  { T with constants := Value.addDistinct T.constants v }

def reserve (T : Tables) (name : String) : Tables :=
  { T with locals := T.locals ++ [name] }

/-- Makes a name visible at a register; a visible name keeps its place. -/
def declare (T : Tables) (name : String) (register : Int) : Tables :=
  { T with visible :=
      if (T.visible.map Prod.fst).contains name then
        T.visible.map fun (n, r) => if n = name then (n, register) else (n, r)
      else T.visible ++ [(name, register)] }

/-- The code of `later` stores to the local at `l`. -/
def Overwrites (T : Tables) (later : Expr) (l : Location) : Prop :=
  l.kind = .localVar ∧ ∃ name, signedGet? T.locals l.index = some name
    ∧ name ∈ later.assigned

end Tables

/-! ## The rules -/

/-- The code that `materialize` emits. -/
def copyCode (l dst : Location) : List Pending :=
  if l.kind = .constant then [⟨.loadConstant, [dst, l]⟩]
  else if l = dst then []
  else [⟨.move, [dst, l]⟩]

/-- `Kept later n T a a' m code`: a left operand at `a` is safe from the code of
`later` at `a'`, once `code` has run and with `m` temporaries taken. -/
inductive Kept (later : Expr) (n : Nat) (T : Tables) :
    Location → Location → Nat → List Pending → Prop where
  | held : Kept later n T (.temporary n) (.temporary n) (n + 1) []
  | inPlace {a : Location} (hne : a ≠ .temporary n)
      (hsafe : ¬T.Overwrites later a) :
      Kept later n T a a n []
  | copied {a : Location} (h : T.Overwrites later a) :
      Kept later n T a (.temporary n) (n + 1) [⟨.move, [.temporary n, a]⟩]

/-- Where the right operand of a sum at `dst` is wanted, and how many
temporaries are taken then: not over the left operand, which is at `left`. -/
def rightScope (left dst : Location) (n : Nat) : Location × Nat :=
  if left = dst then (.temporary n, n + 1) else (dst, n)

inductive Lowers :
    Expr → Option Location → Nat → Tables → Location → List Pending → Tables →
      Prop where
  | constant {v d n T} :
      Lowers (.constant v) d n T (.constant (T.place v)) [] (T.pool v)
  | var {x d n T r} (hx : T.visible.lookup x = some r) :
      Lowers (.var x) d n T (.localVar r) [] T
  | anywhere {l r} {n : Nat} {T a code T'}
      (h : Lowers (.add l r) (some (.temporary n)) (n + 1) T a code T') :
      Lowers (.add l r) none n T a code T'
  | add {l r dst} {n : Nat} {T a code₁ T₁ a' m code₂ b code₃ T₂}
      (hl : Lowers l (some (.temporary n)) (n + 1) T a code₁ T₁)
      (hk : Kept r n T₁ a a' m code₂)
      (hr : Lowers r (some (rightScope a' dst m).1) (rightScope a' dst m).2 T₁ b
        code₃ T₂) :
      Lowers (.add l r) (some dst) n T dst
        (code₁ ++ code₂ ++ code₃ ++ [⟨.add, [dst, a', b]⟩]) T₂
  | define {x e d n T a code T₁} (hx : x ∉ T.locals)
      (h : Lowers e (some (.localVar T.locals.length)) n (T.reserve x) a code T₁) :
      Lowers (.define x e) d n T (.localVar T.locals.length)
        (code ++ copyCode a (.localVar T.locals.length))
        (T₁.declare x T.locals.length)
  | assign {x e d n T r a code T₁} (hx : T.visible.lookup x = some r)
      (h : Lowers e (some (.localVar r)) n T a code T₁) :
      Lowers (.assign x e) d n T (.localVar r)
        (code ++ copyCode a (.localVar r)) T₁
  | last {e d n T a code T₁} (h : Lowers e d n T a code T₁) :
      Lowers (.block [e]) d n T a code T₁
  | next {e e' es d n T a code T₁ b code' T₂} (h : Lowers e none n T a code T₁)
      (hs : Lowers (.block (e' :: es)) d n T₁ b code' T₂) :
      Lowers (.block (e :: e' :: es)) d n T b (code ++ code') T₂

/-- A leaf is lowered alike towards every destination. -/
theorem Lowers.of_isLeaf {e : Expr} {d n T l code T'}
    (h : Lowers e d n T l code T') (hleaf : e.isLeaf = true)
    (d' : Option Location) (n' : Nat) :
    Lowers e d' n' T l code T' := by
  cases h with
  | constant => exact .constant
  | var hx => exact .var hx
  | anywhere | add | define | assign | last | next => cases hleaf

/-! ## Contexts as tables, code and scopes -/

namespace Context

def tables (c : Context) : Tables where
  constants := c.constants
  locals := c.locals
  visible := c.visible

/-- The temporaries in use after more code. -/
def usedBy (used : List Int) (code : List Pending) : List Int :=
  code.foldl (fun us p => noteUsed us p.operands) used

/-- The context after more code, with other tables. -/
def extend (c : Context) (code : List Pending) (T : Tables) : Context :=
  { c with
    constants := T.constants
    locals := T.locals
    visible := T.visible
    code := c.code ++ code
    used := usedBy c.used code }

@[simp] theorem extend_tables (c : Context) (code : List Pending) (T : Tables) :
    (c.extend code T).tables = T := rfl

@[simp] theorem extend_taken (c : Context) (code : List Pending) (T : Tables) :
    (c.extend code T).taken = c.taken := rfl

@[simp] theorem extend_extend (c : Context) (code code' : List Pending)
    (T T' : Tables) :
    (c.extend code T).extend code' T' = c.extend (code ++ code') T' := by
  simp [extend, usedBy, List.foldl_append]

theorem extend_nil (c : Context) (T : Tables) :
    c.extend [] T = { c with
      constants := T.constants
      locals := T.locals
      visible := T.visible } := by
  simp [extend, usedBy]

theorem extend_self (c : Context) : c.extend [] c.tables = c := by
  simp [extend_nil, tables]

theorem release_take_extend (c : Context) (code : List Pending) (T : Tables) :
    (c.take.extend code T).release = c.extend code T := by
  simp [take, release, extend]

theorem aim_aim_extend (c : Context) (d : Option Location) (code : List Pending)
    (T : Tables) :
    ((c.aim d).extend code T).aim c.destination = c.extend code T := rfl

end Context

/-! ## The steps of lowering, when they succeed -/

section Steps

variable {α β : Type} {c c' : Context}

theorem bind_ok {x : Lower α} {f : α → Lower β} {b : β}
    (h : (x >>= f) c = .ok b c') :
    ∃ a c₁, x c = .ok a c₁ ∧ f a c₁ = .ok b c' := by
  simp only [bind, EStateM.bind] at h
  split at h
  · exact ⟨_, _, ‹_›, h⟩
  · cases h

theorem pure_ok {a b : α} (h : (pure a : Lower α) c = .ok b c') :
    b = a ∧ c' = c := by
  cases h
  exact ⟨rfl, rfl⟩

theorem withTemporary_ok {body : Location → Lower α} {a : α}
    (h : withTemporary body c = .ok a c') :
    ∃ c₁, body c.nextTemporary c.take = .ok a c₁ ∧ c' = c₁.release := by
  simp only [withTemporary] at h
  split at h
  · cases h
    exact ⟨_, ‹_›, rfl⟩
  · cases h

theorem withDestination_ok {d : Option Location} {body : Lower α} {a : α}
    (h : withDestination d body c = .ok a c') :
    ∃ c₁, body (c.aim d) = .ok a c₁ ∧ c' = c₁.aim c.destination := by
  simp only [withDestination] at h
  split at h
  · cases h
    exact ⟨_, ‹_›, rfl⟩
  · cases h

theorem addConstant_ok {v : Value} {l : Location}
    (h : addConstant v c = .ok l c') :
    l = .constant (c.tables.place v) ∧ c' = c.extend [] (c.tables.pool v) := by
  simp only [addConstant] at h
  simp only [Tables.place, Tables.pool, Value.addDistinct, Context.tables,
    Context.extend_nil]
  split at h <;> cases h <;> simp [*]

theorem reserve_ok {x : String} {l : Location} (h : reserve x c = .ok l c') :
    x ∉ c.locals ∧ l = .localVar c.locals.length
      ∧ c' = c.extend [] (c.tables.reserve x) := by
  simp only [reserve, reject] at h
  split at h
  · cases h
  · cases h
    exact ⟨by simpa using ‹¬c.locals.contains x = true›, rfl,
      by simp [Context.extend_nil, Tables.reserve, Context.tables]⟩

theorem lookup_ok {x : String} {l : Location} (h : lookup x c = .ok l c') :
    ∃ r, c.visible.lookup x = some r ∧ l = .localVar r ∧ c' = c := by
  simp only [lookup, reject] at h
  split at h
  · cases h
    exact ⟨_, ‹_›, rfl, rfl⟩
  · cases h

theorem materialize_ok {l dst : Location} {u : Unit}
    (h : materialize l dst c = .ok u c') :
    c' = c.extend (copyCode l dst) c.tables := by
  simp only [materialize] at h
  rw [copyCode]
  split at h
  · rw [if_pos ‹_›]
    cases h
    rfl
  · rw [if_neg ‹_›]
    split at h
    · rw [if_pos ‹_›]
      obtain ⟨-, rfl⟩ := pure_ok h
      exact c'.extend_self.symm
    · rw [if_neg ‹_›]
      cases h
      rfl

theorem overwrites_iff {later : Expr} {l : Location} {b : Bool}
    (h : overwrites c later l = .ok b) :
    b = true ↔ c.tables.Overwrites later l := by
  simp only [overwrites] at h
  simp only [Tables.Overwrites, Context.tables]
  split at h
  · split at h <;> cases h
    simp [*]
  · cases h
    simp [*]

end Steps

/-! ## The bridge -/

/-- An action that extends the context by what some derivation says. -/
def Derives (action : Lower Location) (e : Expr) : Prop :=
  ∀ {c l c'}, action c = .ok l c' → ∃ code T,
    Lowers e c.destination c.taken c.tables l code T ∧ c' = c.extend code T

theorem storeAt_ok {e : Expr} {value : Lower Location} (hval : Derives value e)
    {dst : Location} {u : Unit} {c c' : Context}
    (h : storeAt dst value c = .ok u c') :
    ∃ l code T, Lowers e (some dst) c.taken c.tables l code T
      ∧ c' = c.extend (code ++ copyCode l dst) T := by
  obtain ⟨c₂, hbody, rfl⟩ := withDestination_ok h
  obtain ⟨l, c₁, hv, hm⟩ := bind_ok hbody
  obtain ⟨code, T, hlow, rfl⟩ := hval hv
  obtain rfl := materialize_ok hm
  exact ⟨l, code, T, hlow, by
    rw [Context.extend_tables, Context.extend_extend, Context.aim_aim_extend]⟩

theorem leftOperand_ok {e : Expr} {left : Lower Location}
    (hleft : Derives left e) {l : Location} {c c' : Context}
    (h : leftOperand e left c = .ok l c') :
    ∃ code T, Lowers e (some c.nextTemporary) (c.taken + 1) c.tables l code T
      ∧ c' = c.extend code T := by
  simp only [leftOperand] at h
  split at h
  · obtain ⟨code, T, hlow, rfl⟩ := hleft h
    exact ⟨code, T, hlow.of_isLeaf ‹_› _ _, rfl⟩
  · obtain ⟨c₂, hbody, rfl⟩ := withTemporary_ok h
    obtain ⟨c₁, hv, rfl⟩ := withDestination_ok hbody
    obtain ⟨code, T, hlow, rfl⟩ := hleft hv
    exact ⟨code, T, hlow, c.release_take_extend code T⟩

theorem sumInto_ok {dst left l : Location} {right : Lower Location}
    {c c' : Context} (h : sumInto dst left right c = .ok l c') :
    ∃ b c₁, right c = .ok b c₁ ∧ l = dst
      ∧ c' = c₁.extend [⟨.add, [dst, left, b]⟩] c₁.tables := by
  obtain ⟨b, c₁, hr, hrest⟩ := bind_ok h
  obtain ⟨_, c₂, he, hp⟩ := bind_ok hrest
  obtain ⟨rfl, rfl⟩ := pure_ok hp
  cases he
  exact ⟨b, c₁, hr, rfl, rfl⟩

theorem addRight_ok {e : Expr} {right : Lower Location}
    (hright : Derives right e) {dst left l : Location} {c c' : Context}
    (h : addRight dst left e right c = .ok l c') :
    ∃ b code T, Lowers e (some (rightScope left dst c.taken).1)
      (rightScope left dst c.taken).2
        c.tables b code T
      ∧ l = dst ∧ c' = c.extend (code ++ [⟨.add, [dst, left, b]⟩]) T := by
  simp only [addRight] at h
  split at h
  · rename_i hcond
    obtain ⟨c₃, hbody, rfl⟩ := withTemporary_ok h
    obtain ⟨b, c₂, hr, rfl, rfl⟩ := sumInto_ok hbody
    obtain ⟨c₁, hv, rfl⟩ := withDestination_ok hr
    obtain ⟨code, T, hlow, rfl⟩ := hright hv
    refine ⟨b, code, T, ?_, rfl, ?_⟩
    · rw [rightScope, if_pos hcond.1]
      exact hlow
    · rw [Context.aim_aim_extend, Context.extend_tables, Context.extend_extend,
        Context.release_take_extend]
  · rename_i hcond
    obtain ⟨b, c₂, hr, rfl, rfl⟩ := sumInto_ok h
    obtain ⟨c₁, hv, rfl⟩ := withDestination_ok hr
    obtain ⟨code, T, hlow, rfl⟩ := hright hv
    refine ⟨b, code, T, ?_, rfl, ?_⟩
    · rw [rightScope]
      split
      -- a leaf may stand over the left operand: it has no code
      · exact hlow.of_isLeaf (by simpa [*] using hcond) _ _
      · exact hlow
    · rw [Context.aim_aim_extend, Context.extend_tables, Context.extend_extend]

theorem withSafe_ok {later : Expr} {a l : Location}
    {body : Location → Lower Location} {c c' : Context}
    (h : withSafe later a body c = .ok l c') :
    ∃ a' m code c₁, Kept later c.taken c.tables a a' m code
      ∧ body a' { c.extend code c.tables with taken := m } = .ok l c₁
      ∧ c' = { c₁ with taken := c₁.taken - (m - c.taken) } := by
  simp only [withSafe] at h
  split at h
  · rename_i ha
    obtain ⟨c₁, hbody, rfl⟩ := withTemporary_ok h
    subst ha
    exact ⟨_, _, _, c₁, .held, by rw [c.extend_self]; exact hbody,
      by simp [Context.release]⟩
  · rename_i ha
    split at h
    · cases h
    · rename_i how
      refine ⟨a, c.taken, [], c', .inPlace ha ?_,
        by rw [c.extend_self]; exact h, by simp⟩
      exact fun hover => Bool.noConfusion ((overwrites_iff how).mpr hover)
    · rename_i how
      obtain ⟨c₂, hbody, rfl⟩ := withTemporary_ok h
      obtain ⟨_, c₁, he, hbody⟩ := bind_ok hbody
      cases he
      exact ⟨_, _, _, c₂, .copied ((overwrites_iff how).mp rfl), hbody,
        by simp [Context.release]⟩

theorem addInto_ok {l r : Expr} {left right : Lower Location}
    (hleft : Derives left l) (hright : Derives right r) {dst a : Location}
    {c c' : Context} (h : addInto dst l r left right c = .ok a c') :
    ∃ code T, Lowers (.add l r) (some dst) c.taken c.tables a code T
      ∧ c' = c.extend code T := by
  obtain ⟨a₁, c₁, hl, hrest⟩ := bind_ok h
  obtain ⟨code₁, T₁, hlow₁, rfl⟩ := leftOperand_ok hleft hl
  obtain ⟨a', m, code₂, c₂, hk, hbody, rfl⟩ := withSafe_ok hrest
  obtain ⟨b, code₃, T₂, hlow₂, rfl, rfl⟩ := addRight_ok hright hbody
  refine ⟨_, T₂, .add hlow₁ hk hlow₂, ?_⟩
  have hm : c.taken ≤ m := by cases hk <;> simp
  simp only [Context.extend, Context.usedBy, List.foldl_append, List.append_assoc]
  congr 1
  exact Nat.sub_sub_self hm

theorem atDestination_ok {l r : Expr} {left right : Lower Location}
    (hleft : Derives left l) (hright : Derives right r) :
    Derives (atDestination fun dst => addInto dst l r left right) (.add l r) := by
  intro c a c' h
  simp only [atDestination] at h
  split at h
  · rename_i dst hdst
    rw [hdst]
    exact addInto_ok hleft hright h
  · rename_i hnone
    obtain ⟨c₂, hbody, rfl⟩ := withTemporary_ok h
    obtain ⟨c₁, hadd, rfl⟩ := withDestination_ok hbody
    obtain ⟨code, T, hlow, rfl⟩ := addInto_ok hleft hright hadd
    rw [hnone]
    exact ⟨code, T, .anywhere hlow, c.release_take_extend code T⟩

theorem generateBlock_cons (e : Expr) {es : List Expr} (hne : es ≠ []) :
    generateBlock (e :: es)
      = (withDestination none (generate e) >>= fun _ => generateBlock es) := by
  rw [generateBlock]
  exact hne

mutual

/-- Whatever `generate` answers has a derivation. -/
theorem generate_lowers : ∀ e : Expr, Derives (generate e) e
  | .constant v, c, l, c', h => by
      rw [generate] at h
      obtain ⟨rfl, rfl⟩ := addConstant_ok h
      exact ⟨[], _, .constant, rfl⟩
  | .var x, c, l, c', h => by
      rw [generate] at h
      obtain ⟨r, hx, rfl, rfl⟩ := lookup_ok h
      exact ⟨[], c'.tables, .var hx, c'.extend_self.symm⟩
  | .add l r, c, a, c', h => by
      rw [generate] at h
      exact atDestination_ok (generate_lowers l) (generate_lowers r) h
  | .define x e, c, l, c', h => by
      rw [generate] at h
      obtain ⟨dst, c₁, hres, hrest⟩ := bind_ok h
      obtain ⟨hx, rfl, rfl⟩ := reserve_ok hres
      obtain ⟨_, c₂, hst, hrest⟩ := bind_ok hrest
      obtain ⟨a, code, T, hlow, rfl⟩ := storeAt_ok (generate_lowers e) hst
      obtain ⟨_, c₃, hdecl, hpure⟩ := bind_ok hrest
      obtain ⟨rfl, rfl⟩ := pure_ok hpure
      cases hdecl
      exact ⟨_, _, .define hx hlow, by rw [Context.extend_extend]; rfl⟩
  | .assign x e, c, l, c', h => by
      rw [generate] at h
      obtain ⟨dst, c₁, hlook, hrest⟩ := bind_ok h
      obtain ⟨r, hx, rfl, rfl⟩ := lookup_ok hlook
      obtain ⟨_, c₂, hst, hpure⟩ := bind_ok hrest
      obtain ⟨a, code, T, hlow, rfl⟩ := storeAt_ok (generate_lowers e) hst
      obtain ⟨rfl, rfl⟩ := pure_ok hpure
      exact ⟨_, T, .assign hx hlow, rfl⟩
  | .block body, c, l, c', h => by
      rw [generate] at h
      exact generateBlock_lowers body h
  | .other kind, c, l, c', h => by
      rw [generate] at h
      cases h

theorem generateBlock_lowers :
    ∀ body : List Expr, Derives (generateBlock body) (.block body)
  | [], c, l, c', h => by
      rw [generateBlock] at h
      cases h
  | [e], c, l, c', h => by
      rw [generateBlock] at h
      obtain ⟨code, T, hlow, rfl⟩ := generate_lowers e h
      exact ⟨code, T, .last hlow, rfl⟩
  | e :: e' :: es, c, l, c', h => by
      rw [generateBlock_cons e (List.cons_ne_nil e' es)] at h
      obtain ⟨a, c₁, hfirst, hrest⟩ := bind_ok h
      obtain ⟨c₂, hbody, rfl⟩ := withDestination_ok hfirst
      obtain ⟨code, T, hlow, rfl⟩ := generate_lowers e hbody
      obtain ⟨code', T', hlow', rfl⟩ := generateBlock_lowers (e' :: es) hrest
      exact ⟨code ++ code', T', .next hlow hlow', by
        rw [Context.aim_aim_extend, Context.extend_extend]⟩

end
end RegisterVm.Lowering
