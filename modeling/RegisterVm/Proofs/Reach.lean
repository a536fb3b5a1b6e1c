import Mathlib.Data.List.Nodup
import RegisterVm.Proofs.Abandonment

/-!
# Contexts that lowering comes to

`Calls e c e' c'` says that lowering `e` in the context `c` comes to lower its
part `e'` in the context `c'`, whatever comes of it there: one rule for each
place where `generate` goes on with a part. These are all such places: lowering
cannot tell `generate` from anything that agrees with it on the calls
(`layer_of_calls`). A context is *reached* from a tree if some chain of calls
leads to it.

The tables of a reached context are in order (`Reached.orderly`): no local has
two registers, no name is visible twice, and a visible name is the local of its
register.
-/

namespace RegisterVm.Lowering

/-! ## Calls -/

/-- The context for the right operand of a sum at `dst`, whose left operand is
at `left`. -/
def rightContext (dst left : Location) (r : Expr) (c : Context) : Context :=
  if left = dst ∧ !r.isLeaf then c.take.aim (some c.nextTemporary)
  else c.aim (some dst)

inductive Calls : Expr → Context → Expr → Context → Prop where
  | anywhere {l r c e' c'} (hd : c.destination = none)
      (h : Calls (.add l r) (c.take.aim (some c.nextTemporary)) e' c') :
      Calls (.add l r) c e' c'
  | leaf {l r c dst} (hd : c.destination = some dst) (hl : l.isLeaf = true) :
      Calls (.add l r) c l c
  | left {l r c dst} (hd : c.destination = some dst) (hl : l.isLeaf = false) :
      Calls (.add l r) c l (c.take.aim (some c.nextTemporary))
  | right {l r c dst a c₁ a' m code} (hd : c.destination = some dst)
      (hl : leftOperand l (generate l) c = .ok a c₁)
      (hk : Kept r c₁.taken c₁.tables a a' m code) :
      Calls (.add l r) c r
        (rightContext dst a' r { c₁.extend code c₁.tables with taken := m })
  | define {x e c dst c₁} (h : reserve x c = .ok dst c₁) :
      Calls (.define x e) c e (c₁.aim (some dst))
  | assign {x e c dst c₁} (h : lookup x c = .ok dst c₁) :
      Calls (.assign x e) c e (c₁.aim (some dst))
  | last {e c} : Calls (.block [e]) c e c
  | first {e e' es c} : Calls (.block (e :: e' :: es)) c e (c.aim none)
  | next {e e' es c a c₁ e'' c''}
      (h : withDestination none (generate e) c = .ok a c₁)
      (hs : Calls (.block (e' :: es)) c₁ e'' c'') :
      Calls (.block (e :: e' :: es)) c e'' c''

/-- Lowering `root` from the start comes to lower `e` in the context `c`. -/
inductive Reached (root : Expr) : Expr → Context → Prop where
  | start : Reached root root Context.empty
  | call {e c e' c'} (h : Reached root e c) (hcall : Calls e c e' c') :
      Reached root e' c'

/-! ## No call is missing -/

def layerBlock (self : Expr → Lower Location) : List Expr → Lower Location
  | [] => reject .emptyBlock
  | [e] => self e
  | e :: es => do
      let _ ← withDestination none (self e)
      layerBlock self es

/-- Lowering of a node, with `self` in the place of lowering its parts. -/
def layer (self : Expr → Lower Location) : Expr → Lower Location
  | .constant v => addConstant v
  | .var name => lookup name
  | .add l r => atDestination fun dst => addInto dst l r (self l) (self r)
  | .define name e => do
      let dst ← reserve name
      storeAt dst (self e)
      declare name dst.index
      return dst
  | .assign name e => do
      let dst ← lookup name
      storeAt dst (self e)
      return dst
  | .block body => layerBlock self body
  | .other kind => reject (.unknownNode kind)

section Agreement

variable {α β : Type} {c : Context}

theorem bind_congr_at {x x' : Lower α} {f f' : α → Lower β} (hx : x c = x' c)
    (hf : ∀ a c₁, x' c = .ok a c₁ → f a c₁ = f' a c₁) :
    (x >>= f) c = (x' >>= f') c := by
  simp only [bind, EStateM.bind, hx]
  cases hx' : x' c with
  | ok a c₁ => exact hf a c₁ hx'
  | error err c₁ => rfl

theorem withTemporary_congr_at {body body' : Location → Lower α}
    (h : body c.nextTemporary c.take = body' c.nextTemporary c.take) :
    withTemporary body c = withTemporary body' c := by
  rw [withTemporary, withTemporary, h]

theorem withDestination_congr_at {d : Option Location} {body body' : Lower α}
    (h : body (c.aim d) = body' (c.aim d)) :
    withDestination d body c = withDestination d body' c := by
  rw [withDestination, withDestination, h]

theorem storeAt_congr_at {dst : Location} {value value' : Lower Location}
    (h : value (c.aim (some dst)) = value' (c.aim (some dst))) :
    storeAt dst value c = storeAt dst value' c :=
  withDestination_congr_at (bind_congr_at h fun _ _ _ => rfl)

theorem sumInto_congr_at {dst left : Location} {right right' : Lower Location}
    (h : right c = right' c) :
    sumInto dst left right c = sumInto dst left right' c :=
  bind_congr_at h fun _ _ _ => rfl

theorem addRight_congr_at {dst left : Location} {r : Expr}
    {right right' : Lower Location}
    (h : right (rightContext dst left r c) = right' (rightContext dst left r c)) :
    addRight dst left r right c = addRight dst left r right' c := by
  rw [rightContext] at h
  rw [addRight, addRight]
  split
  · rw [if_pos ‹_›] at h
    exact withTemporary_congr_at (sumInto_congr_at (withDestination_congr_at h))
  · rw [if_neg ‹_›] at h
    exact sumInto_congr_at (withDestination_congr_at h)

theorem withSafe_congr_at {later : Expr} {a : Location}
    {body body' : Location → Lower Location}
    (h : ∀ a' m code, Kept later c.taken c.tables a a' m code →
      body a' { c.extend code c.tables with taken := m }
        = body' a' { c.extend code c.tables with taken := m }) :
    withSafe later a body c = withSafe later a body' c := by
  rw [withSafe, withSafe]
  split
  · rename_i ha
    subst ha
    have hheld := h _ _ _ .held
    rw [c.extend_self] at hheld
    exact withTemporary_congr_at hheld
  · rename_i ha
    split
    · rfl
    · rename_i how
      have hkept := h _ _ _ (.inPlace ha fun hover =>
        Bool.noConfusion ((overwrites_iff how).mpr hover))
      rw [c.extend_self] at hkept
      exact hkept
    · rename_i how
      exact withTemporary_congr_at
        (h _ _ _ (.copied ((overwrites_iff how).mp rfl)))

end Agreement

variable {self : Expr → Lower Location}

theorem addInto_of_calls {l r : Expr} {c : Context} {dst : Location}
    (hd : c.destination = some dst)
    (h : ∀ e' c', Calls (.add l r) c e' c' → self e' c' = generate e' c') :
    addInto dst l r (self l) (self r) c
      = addInto dst l r (generate l) (generate r) c := by
  refine bind_congr_at ?_ ?_
  · rw [leftOperand, leftOperand]
    split
    · exact h l c (.leaf hd ‹_›)
    · exact withTemporary_congr_at (withDestination_congr_at
        (h _ _ (.left hd (by simpa using ‹¬l.isLeaf = true›))))
  · intro a c₁ hl
    refine withSafe_congr_at fun a' m code hk => addRight_congr_at ?_
    exact h _ _ (.right hd hl hk)

theorem atDestination_of_calls {l r : Expr} {c : Context}
    (h : ∀ e' c', Calls (.add l r) c e' c' → self e' c' = generate e' c') :
    atDestination (fun dst => addInto dst l r (self l) (self r)) c
      = atDestination
        (fun dst => addInto dst l r (generate l) (generate r)) c := by
  rw [atDestination, atDestination]
  split
  · rename_i dst hd
    exact addInto_of_calls hd h
  · rename_i hd
    refine withTemporary_congr_at
      (withDestination_congr_at (addInto_of_calls rfl ?_))
    exact fun e' c' hcall => h e' c' (.anywhere hd hcall)

theorem layerBlock_of_calls {body : List Expr} {c : Context}
    (h : ∀ e' c', Calls (.block body) c e' c' → self e' c' = generate e' c') :
    layerBlock self body c = generateBlock body c := by
  induction body generalizing c with
  | nil => rfl
  | cons e es ih =>
      cases es with
      | nil =>
          rw [layerBlock, generateBlock]
          exact h e c .last
      | cons e' es =>
          rw [generateBlock_cons e (List.cons_ne_nil e' es), layerBlock]
          · refine bind_congr_at (withDestination_congr_at (h e _ .first)) ?_
            intro a c₁ hfirst
            exact ih fun e'' c'' hcall => h e'' c'' (.next hfirst hcall)
          · exact List.cons_ne_nil e' es

/-- Lowering looks at `generate` only at its calls. -/
theorem layer_of_calls {e : Expr} {c : Context}
    (h : ∀ e' c', Calls e c e' c' → self e' c' = generate e' c') :
    layer self e c = generate e c := by
  cases e with
  | constant v => rw [layer, generate]
  | var x => rw [layer, generate]
  | add l r =>
      rw [layer, generate]
      exact atDestination_of_calls h
  | define x e =>
      rw [layer, generate]
      refine bind_congr_at rfl fun dst c₁ hres =>
        bind_congr_at (storeAt_congr_at ?_) fun _ _ _ => rfl
      exact h _ _ (.define hres)
  | assign x e =>
      rw [layer, generate]
      refine bind_congr_at rfl fun dst c₁ hlook =>
        bind_congr_at (storeAt_congr_at ?_) fun _ _ _ => rfl
      exact h _ _ (.assign hlook)
  | block body =>
      rw [layer, generate]
      exact layerBlock_of_calls h
  | other kind => rw [layer, generate]

theorem layer_generate : layer generate = generate :=
  funext fun _ => funext fun _ => layer_of_calls fun _ _ _ => rfl

/-! ## Tables in order -/

structure Tables.Orderly (T : Tables) : Prop where
  sound : T.Sound
  /-- No name is visible twice. -/
  distinct : (T.visible.map Prod.fst).Nodup

theorem Tables.distinct_declare {T : Tables}
    (h : (T.visible.map Prod.fst).Nodup) (x : String) (r : Int) :
    ((T.declare x r).visible.map Prod.fst).Nodup := by
  rw [Tables.declare]
  split
  -- a name that is visible gets another register in its place
  · rw [List.map_map, List.map_congr_left (g := Prod.fst)]
    · exact h
    · rintro ⟨n, s⟩ -
      simp only [Function.comp_apply]
      split <;> rfl
  · rename_i hnew
    rw [List.map_append, List.nodup_append]
    refine ⟨h, List.nodup_singleton x, ?_⟩
    rintro y hy z hz rfl
    obtain rfl := List.mem_singleton.mp hz
    exact hnew (List.contains_iff_mem.mpr hy)

theorem Lowers.orderly {e : Expr} {d n T l code T'}
    (h : Lowers e d n T l code T') (hT : T.Orderly) :
    T'.Orderly := by
  refine ⟨(h.grows hT.sound).1, ?_⟩
  replace hT := hT.distinct
  induction h with
  | constant => exact hT
  | var hx => exact hT
  | anywhere h ih => exact ih hT
  | add hl hk hr ihl ihr => exact ihr (ihl hT)
  | define hx h ih => exact Tables.distinct_declare (ih hT) _ _
  | assign hx h ih => exact ih hT
  | last h ih => exact ih hT
  | next h hs ih ihs => exact ihs (ih hT)

theorem Abandons.orderly {e : Expr} {d n T code T'}
    (h : Abandons e d n T code T') (hT : T.Orderly) :
    T'.Orderly := by
  induction h with
  | entering => exact hT
  | anywhere h ih => exact ih hT
  | left h ih => exact ih hT
  | unnamed hl => exact hl.orderly hT
  | right hl hk hr ihr => exact ihr (hl.orderly hT)
  -- the local is reserved, but its name is not visible yet
  | define hx h ih => exact ih ⟨hT.sound.reserve hx, hT.distinct⟩
  | assign hx h ih => exact ih hT
  | last h ih => exact ih hT
  | first h ih => exact ih hT
  | next h hs ihs => exact ihs (h.orderly hT)

theorem rightContext_tables (dst left : Location) (r : Expr) (c : Context) :
    (rightContext dst left r c).tables = c.tables := by
  rw [rightContext]
  split <;> rfl

theorem Calls.orderly {e e' : Expr} {c c' : Context} (h : Calls e c e' c')
    (hc : c.tables.Orderly) :
    c'.tables.Orderly := by
  induction h with
  | anywhere hd h ih => exact ih hc
  | leaf hd hl => exact hc
  | left hd hl => exact hc
  | right hd hl hk =>
      obtain ⟨code, T, hlow, rfl⟩ := leftOperand_ok (generate_lowers _) hl
      rw [rightContext_tables]
      exact hlow.orderly hc
  | define h =>
      obtain ⟨hx, rfl, rfl⟩ := reserve_ok h
      exact ⟨hc.sound.reserve hx, hc.distinct⟩
  | assign h =>
      obtain ⟨r, -, rfl, rfl⟩ := lookup_ok h
      exact hc
  | last => exact hc
  | first => exact hc
  | next h hs ihs =>
      obtain ⟨c₁, hfirst, rfl⟩ := withDestination_ok h
      obtain ⟨code, T, hlow, rfl⟩ := generate_lowers _ hfirst
      exact ihs (hlow.orderly hc)

theorem Reached.orderly {root e : Expr} {c : Context} (h : Reached root e c) :
    c.tables.Orderly := by
  induction h with
  | start => exact ⟨Tables.Sound.empty, List.nodup_nil⟩
  | call h hcall ih => exact hcall.orderly ih

end RegisterVm.Lowering
