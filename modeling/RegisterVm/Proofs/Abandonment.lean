import RegisterVm.Proofs.Footprint

/-!
# Derivations of lowering that fails

Lowering that fails leaves what it did so far: code that was emitted, constants
that were pooled, locals that were reserved. `Abandons e d n T code T'` says
this by rules, as `Lowers` does for lowering that succeeds: towards the
destination `d`, with `n` temporaries taken and the tables `T`, lowering `e`
fails after it has appended `code` and with the tables `T'`. All that comes
before the failure has derivations by `Lowers`; on the way out of the failure
nothing is done but to leave scopes.

`generate_abandons` is the bridge. The facts about it are those about `Lowers`,
less what holds only at the end: tables keep what they have (`Abandons.keeps`),
and code stays within its footprint (`Abandons.footprint`).
-/

namespace RegisterVm.Lowering

/-! ## The rules -/

/-- Lowering fails when it enters the node. -/
def Tables.Offends (T : Tables) : Expr → Prop
  | .var x => T.visible.lookup x = none
  | .assign x _ => T.visible.lookup x = none
  | .define x _ => x ∈ T.locals
  | .block [] => True
  | .other _ => True
  | _ => False

inductive Abandons :
    Expr → Option Location → Nat → Tables → List Pending → Tables → Prop where
  | entering {e d n T} (h : T.Offends e) : Abandons e d n T [] T
  | anywhere {l r} {n : Nat} {T code T'}
      (h : Abandons (.add l r) (some (.temporary n)) (n + 1) T code T') :
      Abandons (.add l r) none n T code T'
  | left {l r dst} {n : Nat} {T code T'}
      (h : Abandons l (some (.temporary n)) (n + 1) T code T') :
      Abandons (.add l r) (some dst) n T code T'
  -- not from sound tables, which name every local
  | unnamed {l r dst} {n : Nat} {T a code T'}
      (hl : Lowers l (some (.temporary n)) (n + 1) T a code T')
      (ha : a.kind = .localVar) (hname : signedGet? T'.locals a.index = none) :
      Abandons (.add l r) (some dst) n T code T'
  | right {l r dst} {n : Nat} {T a code₁ T₁ a' m code₂ code₃ T₂}
      (hl : Lowers l (some (.temporary n)) (n + 1) T a code₁ T₁)
      (hk : Kept r n T₁ a a' m code₂)
      (hr : Abandons r (some (rightScope a' dst m).1) (rightScope a' dst m).2 T₁
        code₃ T₂) :
      Abandons (.add l r) (some dst) n T (code₁ ++ code₂ ++ code₃) T₂
  | define {x e d n T code T₁} (hx : x ∉ T.locals)
      (h : Abandons e (some (.localVar T.locals.length)) n (T.reserve x) code T₁) :
      Abandons (.define x e) d n T code T₁
  | assign {x e d n T r code T₁} (hx : T.visible.lookup x = some r)
      (h : Abandons e (some (.localVar r)) n T code T₁) :
      Abandons (.assign x e) d n T code T₁
  | last {e d n T code T₁} (h : Abandons e d n T code T₁) :
      Abandons (.block [e]) d n T code T₁
  | first {e e' es d n T code T₁} (h : Abandons e none n T code T₁) :
      Abandons (.block (e :: e' :: es)) d n T code T₁
  | next {e e' es d n T a code T₁ code' T₂} (h : Lowers e none n T a code T₁)
      (hs : Abandons (.block (e' :: es)) d n T₁ code' T₂) :
      Abandons (.block (e :: e' :: es)) d n T (code ++ code') T₂

/-- A leaf fails alike towards every destination. -/
theorem Abandons.of_isLeaf {e : Expr} {d n T code T'}
    (h : Abandons e d n T code T') (hleaf : e.isLeaf = true)
    (d' : Option Location) (n' : Nat) : Abandons e d' n' T code T' := by
  cases h with
  | entering h => exact .entering h
  | anywhere | left | unnamed | right | define | assign | last | first | next =>
      cases hleaf

/-! ## The steps of lowering, when they fail -/

section Steps

variable {α β : Type} {c c' : Context} {err : Error}

theorem bind_error {x : Lower α} {f : α → Lower β}
    (h : (x >>= f) c = .error err c') :
    x c = .error err c' ∨ ∃ a c₁, x c = .ok a c₁ ∧ f a c₁ = .error err c' := by
  simp only [bind, EStateM.bind] at h
  split at h
  · exact .inr ⟨_, _, ‹_›, h⟩
  · cases h
    exact .inl ‹_›

theorem withTemporary_error {body : Location → Lower α}
    (h : withTemporary body c = .error err c') :
    ∃ c₁, body c.nextTemporary c.take = .error err c₁ ∧ c' = c₁.release := by
  simp only [withTemporary] at h
  split at h
  · cases h
  · cases h
    exact ⟨_, ‹_›, rfl⟩

theorem withDestination_error {d : Option Location} {body : Lower α}
    (h : withDestination d body c = .error err c') :
    ∃ c₁, body (c.aim d) = .error err c₁ ∧ c' = c₁.aim c.destination := by
  simp only [withDestination] at h
  split at h
  · cases h
  · cases h
    exact ⟨_, ‹_›, rfl⟩

theorem reserve_error {x : String} (h : reserve x c = .error err c') :
    x ∈ c.locals ∧ c' = c := by
  simp only [reserve, reject] at h
  split at h
  · cases h
    exact ⟨by simpa using ‹c.locals.contains x = true›, rfl⟩
  · cases h

theorem lookup_error {x : String} (h : lookup x c = .error err c') :
    c.visible.lookup x = none ∧ c' = c := by
  simp only [lookup, reject] at h
  split at h
  · cases h
  · cases h
    exact ⟨‹_›, rfl⟩

/-- Copying a value cannot fail. -/
theorem materialize_ne_error {l dst : Location} :
    materialize l dst c ≠ .error err c' := by
  intro h
  simp only [materialize] at h
  split at h
  · cases h
  · split at h <;> cases h

theorem overwrites_error {later : Expr} {l : Location}
    (h : overwrites c later l = .error err) :
    l.kind = .localVar ∧ signedGet? c.locals l.index = none := by
  simp only [overwrites] at h
  split at h
  · split at h
    · cases h
    · exact ⟨‹_›, ‹_›⟩
  · cases h

end Steps

/-! ## The bridge -/

/-- An action that extends the context by what some failed derivation says, if
it fails. -/
def Breaks (action : Lower Location) (e : Expr) : Prop :=
  ∀ {c err c'}, action c = .error err c' → ∃ code T,
    Abandons e c.destination c.taken c.tables code T ∧ c' = c.extend code T

theorem storeAt_error {e : Expr} {value : Lower Location}
    (hval : Breaks value e) {dst : Location} {c c' : Context} {err : Error}
    (h : storeAt dst value c = .error err c') :
    ∃ code T, Abandons e (some dst) c.taken c.tables code T
      ∧ c' = c.extend code T := by
  obtain ⟨c₂, hbody, rfl⟩ := withDestination_error h
  rcases bind_error hbody with hv | ⟨l, c₁, -, hm⟩
  · obtain ⟨code, T, habandons, rfl⟩ := hval hv
    exact ⟨code, T, habandons, c.aim_aim_extend _ code T⟩
  · exact absurd hm materialize_ne_error

theorem leftOperand_error {e : Expr} {left : Lower Location}
    (hleft : Breaks left e) {c c' : Context} {err : Error}
    (h : leftOperand e left c = .error err c') :
    ∃ code T, Abandons e (some c.nextTemporary) (c.taken + 1) c.tables code T
      ∧ c' = c.extend code T := by
  simp only [leftOperand] at h
  split at h
  · obtain ⟨code, T, habandons, rfl⟩ := hleft h
    exact ⟨code, T, habandons.of_isLeaf ‹_› _ _, rfl⟩
  · obtain ⟨c₂, hbody, rfl⟩ := withTemporary_error h
    obtain ⟨c₁, hv, rfl⟩ := withDestination_error hbody
    obtain ⟨code, T, habandons, rfl⟩ := hleft hv
    exact ⟨code, T, habandons, c.release_take_extend code T⟩

theorem sumInto_error {dst left : Location} {right : Lower Location}
    {c c' : Context} {err : Error}
    (h : sumInto dst left right c = .error err c') :
    right c = .error err c' := by
  rcases bind_error h with hr | ⟨b, c₁, -, hrest⟩
  · exact hr
  · cases hrest

theorem addRight_error {e : Expr} {right : Lower Location}
    (hright : Breaks right e) {dst left : Location} {c c' : Context}
    {err : Error} (h : addRight dst left e right c = .error err c') :
    ∃ code T, Abandons e (some (rightScope left dst c.taken).1)
      (rightScope left dst c.taken).2 c.tables code T
      ∧ c' = c.extend code T := by
  simp only [addRight] at h
  split at h
  · rename_i hcond
    obtain ⟨c₂, hbody, rfl⟩ := withTemporary_error h
    obtain ⟨c₁, hv, rfl⟩ := withDestination_error (sumInto_error hbody)
    obtain ⟨code, T, habandons, rfl⟩ := hright hv
    refine ⟨code, T, ?_, c.release_take_extend code T⟩
    rw [rightScope, if_pos hcond.1]
    exact habandons
  · rename_i hcond
    obtain ⟨c₁, hv, rfl⟩ := withDestination_error (sumInto_error h)
    obtain ⟨code, T, habandons, rfl⟩ := hright hv
    refine ⟨code, T, ?_, c.aim_aim_extend _ code T⟩
    rw [rightScope]
    split
    -- a leaf may stand over the left operand, as where lowering succeeds
    · exact habandons.of_isLeaf (by simpa [*] using hcond) _ _
    · exact habandons

theorem withSafe_error {later : Expr} {a : Location}
    {body : Location → Lower Location} {c c' : Context} {err : Error}
    (h : withSafe later a body c = .error err c') :
    (a.kind = .localVar ∧ signedGet? c.locals a.index = none ∧ c' = c)
      ∨ ∃ a' m code c₁, Kept later c.taken c.tables a a' m code
        ∧ body a' { c.extend code c.tables with taken := m } = .error err c₁
        ∧ c' = { c₁ with taken := c₁.taken - (m - c.taken) } := by
  simp only [withSafe] at h
  split at h
  · rename_i ha
    obtain ⟨c₁, hbody, rfl⟩ := withTemporary_error h
    subst ha
    exact .inr ⟨_, _, _, c₁, .held, by rw [c.extend_self]; exact hbody,
      by simp [Context.release]⟩
  · rename_i ha
    split at h
    · rename_i how
      cases h
      obtain ⟨hkind, hname⟩ := overwrites_error how
      exact .inl ⟨hkind, hname, rfl⟩
    · rename_i how
      refine .inr ⟨a, c.taken, [], c', .inPlace ha ?_,
        by rw [c.extend_self]; exact h, by simp⟩
      exact fun hover => Bool.noConfusion ((overwrites_iff how).mpr hover)
    · rename_i how
      obtain ⟨c₂, hbody, rfl⟩ := withTemporary_error h
      rcases bind_error hbody with he | ⟨_, c₁, he, hbody⟩
      · cases he
      · cases he
        exact .inr ⟨_, _, _, c₂, .copied ((overwrites_iff how).mp rfl), hbody,
          by simp [Context.release]⟩

theorem addInto_error {l r : Expr} {left right : Lower Location}
    (hleft : Derives left l) (hleft' : Breaks left l) (hright : Breaks right r)
    {dst : Location} {c c' : Context} {err : Error}
    (h : addInto dst l r left right c = .error err c') :
    ∃ code T, Abandons (.add l r) (some dst) c.taken c.tables code T
      ∧ c' = c.extend code T := by
  rcases bind_error h with hl | ⟨a, c₁, hl, hrest⟩
  · obtain ⟨code, T, habandons, rfl⟩ := leftOperand_error hleft' hl
    exact ⟨code, T, .left habandons, rfl⟩
  · obtain ⟨code₁, T₁, hlow, rfl⟩ := leftOperand_ok hleft hl
    rcases withSafe_error hrest with ⟨hkind, hname, rfl⟩
      | ⟨a', m, code₂, c₂, hk, hbody, rfl⟩
    · exact ⟨code₁, T₁, .unnamed hlow hkind hname, rfl⟩
    · obtain ⟨code₃, T₂, habandons, rfl⟩ := addRight_error hright hbody
      refine ⟨_, T₂, .right hlow hk habandons, ?_⟩
      -- what was taken to keep the left operand is given back
      have hm : c.taken ≤ m := by cases hk <;> simp
      simp only [Context.extend, Context.usedBy, List.foldl_append,
        List.append_assoc]
      congr 1
      exact Nat.sub_sub_self hm

theorem atDestination_error {l r : Expr} {left right : Lower Location}
    (hleft : Derives left l) (hleft' : Breaks left l) (hright : Breaks right r) :
    Breaks (atDestination fun dst => addInto dst l r left right) (.add l r) := by
  intro c err c' h
  simp only [atDestination] at h
  split at h
  · rename_i dst hdst
    rw [hdst]
    exact addInto_error hleft hleft' hright h
  · rename_i hnone
    obtain ⟨c₂, hbody, rfl⟩ := withTemporary_error h
    obtain ⟨c₁, hadd, rfl⟩ := withDestination_error hbody
    obtain ⟨code, T, habandons, rfl⟩ := addInto_error hleft hleft' hright hadd
    rw [hnone]
    exact ⟨code, T, .anywhere habandons, c.release_take_extend code T⟩

mutual

/-- Wherever `generate` fails there is a derivation of the failure. -/
theorem generate_abandons : ∀ e : Expr, Breaks (generate e) e
  | .constant v, c, err, c', h => by
      rw [generate, addConstant] at h
      split at h <;> cases h
  | .var x, c, err, c', h => by
      rw [generate] at h
      obtain ⟨hx, rfl⟩ := lookup_error h
      exact ⟨[], _, .entering hx, c'.extend_self.symm⟩
  | .add l r, c, err, c', h => by
      rw [generate] at h
      exact atDestination_error (generate_lowers l) (generate_abandons l)
        (generate_abandons r) h
  | .define x e, c, err, c', h => by
      rw [generate] at h
      rcases bind_error h with hres | ⟨dst, c₁, hres, hrest⟩
      · obtain ⟨hx, rfl⟩ := reserve_error hres
        exact ⟨[], _, .entering hx, c'.extend_self.symm⟩
      · obtain ⟨hx, rfl, rfl⟩ := reserve_ok hres
        rcases bind_error hrest with hst | ⟨_, c₂, -, hrest⟩
        · obtain ⟨code, T, habandons, rfl⟩ :=
            storeAt_error (generate_abandons e) hst
          exact ⟨code, T, .define hx habandons, by rw [Context.extend_extend]; rfl⟩
        · cases hrest
  | .assign x e, c, err, c', h => by
      rw [generate] at h
      rcases bind_error h with hlook | ⟨dst, c₁, hlook, hrest⟩
      · obtain ⟨hx, rfl⟩ := lookup_error hlook
        exact ⟨[], _, .entering hx, c'.extend_self.symm⟩
      · obtain ⟨r, hx, rfl, rfl⟩ := lookup_ok hlook
        rcases bind_error hrest with hst | ⟨_, c₂, -, hrest⟩
        · obtain ⟨code, T, habandons, rfl⟩ :=
            storeAt_error (generate_abandons e) hst
          exact ⟨code, T, .assign hx habandons, rfl⟩
        · cases hrest
  | .block body, c, err, c', h => by
      rw [generate] at h
      exact generateBlock_abandons body h
  | .other kind, c, err, c', h => by
      rw [generate] at h
      cases h
      exact ⟨[], _, .entering trivial, c.extend_self.symm⟩

theorem generateBlock_abandons :
    ∀ body : List Expr, Breaks (generateBlock body) (.block body)
  | [], c, err, c', h => by
      rw [generateBlock] at h
      cases h
      exact ⟨[], _, .entering trivial, c.extend_self.symm⟩
  | [e], c, err, c', h => by
      rw [generateBlock] at h
      obtain ⟨code, T, habandons, rfl⟩ := generate_abandons e h
      exact ⟨code, T, .last habandons, rfl⟩
  | e :: e' :: es, c, err, c', h => by
      rw [generateBlock_cons e (List.cons_ne_nil e' es)] at h
      rcases bind_error h with hfirst | ⟨a, c₁, hfirst, hrest⟩
      · obtain ⟨c₁, hbody, rfl⟩ := withDestination_error hfirst
        obtain ⟨code, T, habandons, rfl⟩ := generate_abandons e hbody
        exact ⟨code, T, .first habandons, c.aim_aim_extend _ code T⟩
      · obtain ⟨c₂, hbody, rfl⟩ := withDestination_ok hfirst
        obtain ⟨code, T, hlow, rfl⟩ := generate_lowers e hbody
        obtain ⟨code', T', habandons, rfl⟩ :=
          generateBlock_abandons (e' :: es) hrest
        exact ⟨code ++ code', T', .next hlow habandons,
          by rw [Context.aim_aim_extend, Context.extend_extend]⟩

end

/-! ## Tables -/

/-- What is in the tables stays. A local that is reserved need not become
visible. -/
structure Tables.Keeps (T T' : Tables) : Prop where
  locals : T.locals <+: T'.locals
  constants : T.constants <+: T'.constants
  visible : ∀ {x r}, T.visible.lookup x = some r → T'.visible.lookup x = some r

theorem Tables.Grows.kept {T T' : Tables} (h : T.Grows T') : T.Keeps T' :=
  ⟨h.locals, h.constants, h.keeps⟩

theorem Tables.Keeps.refl (T : Tables) : T.Keeps T := (Grows.refl T).kept

theorem Tables.Keeps.trans {T T₁ T₂ : Tables} (h : T.Keeps T₁)
    (h' : T₁.Keeps T₂) : T.Keeps T₂ where
  locals := h.locals.trans h'.locals
  constants := h.constants.trans h'.constants
  visible hx := h'.visible (h.visible hx)

theorem Tables.keeps_reserve (T : Tables) (x : String) :
    T.Keeps (T.reserve x) where
  locals := List.prefix_append _ _
  constants := List.prefix_refl _
  visible hx := hx

theorem Abandons.keeps {e : Expr} {d n T code T'} (h : Abandons e d n T code T')
    (hT : T.Sound) :
    T'.Sound ∧ T.Keeps T' := by
  induction h with
  | entering => exact ⟨hT, .refl _⟩
  | anywhere h ih => exact ih hT
  | left h ih => exact ih hT
  | unnamed hl =>
      obtain ⟨hT₁, hg⟩ := hl.grows hT
      exact ⟨hT₁, hg.kept⟩
  | right hl hk hr ihr =>
      obtain ⟨hT₁, hg⟩ := hl.grows hT
      obtain ⟨hT₂, hk₂⟩ := ihr hT₁
      exact ⟨hT₂, hg.kept.trans hk₂⟩
  | @define x e d n T code T₁ hx h ih =>
      obtain ⟨hT₁, hk⟩ := ih (hT.reserve hx)
      exact ⟨hT₁, (T.keeps_reserve x).trans hk⟩
  | assign hx h ih => exact ih hT
  | last h ih => exact ih hT
  | first h ih => exact ih hT
  | next h hs ihs =>
      obtain ⟨hT₁, hg⟩ := h.grows hT
      obtain ⟨hT₂, hk₂⟩ := ihs hT₁
      exact ⟨hT₂, hg.kept.trans hk₂⟩

/-! ## What is written -/

theorem Abandons.footprint {e : Expr} {d n T code T'}
    (h : Abandons e d n T code T') (hT : T.Sound) :
    ∀ dst ∈ destinations code, Footprint e.assigned d n T T' dst := by
  induction h with
  | entering => intro t ht; cases ht
  | anywhere h ih => exact fun t ht => (ih hT t ht).of_anywhere
  | left h ih => exact fun t ht => (ih hT t ht).of_left (List.prefix_refl _)
  | unnamed hl =>
      exact fun t ht => (hl.footprint hT t ht).of_left (List.prefix_refl _)
  | right hl hk hr ihr =>
      obtain ⟨hT₁, hg⟩ := hl.grows hT
      obtain ⟨-, hk₂⟩ := hr.keeps hT₁
      obtain ⟨hm, hkept⟩ := hk.dst
      intro t ht
      simp only [destinations_append, List.mem_append] at ht
      rcases ht with (ht | ht) | ht
      · exact (hl.footprint hT t ht).of_left hk₂.locals
      · obtain rfl := hkept t ht
        exact .temporary (Nat.le_refl _)
      · exact (ihr hT₁ t ht).of_right hm hg.length_le
  | @define x e d n T code T₁ hx h ih =>
      obtain ⟨-, hk⟩ := h.keeps (hT.reserve hx)
      have hlt : T.locals.length < T₁.locals.length := by
        have hle := hk.locals.length_le
        simp only [Tables.reserve, List.length_append,
          List.length_singleton] at hle
        omega
      exact fun t ht =>
        (ih (hT.reserve hx) t ht).of_define hlt (List.prefix_refl _)
  | assign hx h ih =>
      obtain ⟨hT₁, hk⟩ := h.keeps hT
      obtain ⟨k, rfl, hname⟩ := hT₁.named (hk.visible hx)
      exact fun t ht => (ih hT t ht).of_assign hname
  | last h ih => exact fun t ht => (ih hT t ht).of_last
  | first h ih => exact fun t ht => (ih hT t ht).of_first (List.prefix_refl _)
  | next h hs ihs =>
      obtain ⟨hT₁, hg⟩ := h.grows hT
      obtain ⟨-, hk₂⟩ := hs.keeps hT₁
      intro t ht
      rw [destinations_append, List.mem_append] at ht
      rcases ht with ht | ht
      · exact (h.footprint hT t ht).of_first hk₂.locals
      · exact (ihs hT₁ t ht).of_next hg.length_le

end RegisterVm.Lowering
