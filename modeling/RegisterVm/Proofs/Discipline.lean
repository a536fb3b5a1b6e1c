import RegisterVm.Proofs.Assignment
import RegisterVm.Proofs.Reach

/-!
# What lowering leaves behind

Lowering may end well or fail anywhere in a tree, in scopes that are nested and
of which some are left early. Either way the context that is left extends the
one before (`generate_after`): temporaries and destination are what they were,
what was there stays, and the new code writes only what is its own. So the code
of one part cannot disturb what another part keeps in a temporary or reads in
place.
-/

namespace RegisterVm.Lowering

/-- The context in which lowering ends, also if it fails. -/
def Context.after {α : Type} : EStateM.Result Error Context α → Context
  | .ok _ c => c
  | .error _ c => c

theorem generate_after (e : Expr) {c : Context} (hc : c.tables.Orderly) :
    ∃ code T, Context.after (generate e c) = c.extend code T ∧ T.Orderly
      ∧ c.tables.Keeps T
      ∧ ∀ dst ∈ destinations code,
        Footprint e.assigned c.destination c.taken c.tables T dst := by
  cases hgen : generate e c with
  | ok l c' =>
      obtain ⟨code, T, hlow, rfl⟩ := generate_lowers e hgen
      exact ⟨code, T, rfl, hlow.orderly hc, (hlow.grows hc.sound).2.kept,
        hlow.footprint hc.sound⟩
  | error err c' =>
      obtain ⟨code, T, habandons, rfl⟩ := generate_abandons e hgen
      exact ⟨code, T, rfl, habandons.orderly hc, (habandons.keeps hc.sound).2,
        habandons.footprint hc.sound⟩

/-! ## Where code writes -/

/-- The code that lowering emits in a reached context, also if it fails, writes
only the destination, temporaries that are free at entry, locals that it
reserves and locals that the tree assigns to. If lowering succeeds, the value is
at the destination, among the constants, in a local that is visible then, or,
only if there is no destination, in the first free temporary. -/
theorem generate_footprint {root site : Expr} {c : Context}
    (h : Reached root site c) (e : Expr) :
    ∃ code, (Context.after (generate e c)).code = c.code ++ code
      ∧ (∀ dst ∈ destinations code,
        Footprint e.assigned c.destination c.taken c.tables
          (Context.after (generate e c)).tables dst)
      ∧ ∀ l c', generate e c = .ok l c' →
        Answer c.destination c.taken c'.tables l := by
  obtain ⟨code, T, hafter, -, -, hwrites⟩ := generate_after e h.orderly
  refine ⟨code, by rw [hafter]; rfl, by rw [hafter]; exact hwrites, ?_⟩
  intro l c' hgen
  obtain ⟨code', T', hlow, rfl⟩ := generate_lowers e hgen
  exact hlow.answer h.orderly.sound

/-- The context behind the definition `x := nil`. -/
def pastDefinition : Context where
  constants := [.nil]
  code := [⟨.loadConstant, [.localVar 0, .constant 0]⟩]
  locals := ["x"]
  visible := [("x", 0)]

theorem reached_pastDefinition (e : Expr) :
    Reached (.block [.define "x" (.constant .nil), e]) e pastDefinition :=
  .call .start (.next (by with_unfolding_all rfl) .last)

/-- The code of `x + (x := nil)` saves the left operand, assigns and adds. -/
theorem generate_footprint_saved :
    ∃ c, generate (.add (.var "x") (.assign "x" (.constant .nil))) pastDefinition
      = .ok (.temporary 0) c
    ∧ (∀ dst ∈ [Location.temporary 1, .localVar 0, .temporary 0],
      Footprint ["x"] none 0 pastDefinition.tables c.tables dst)
    ∧ Answer none 0 c.tables (.temporary 0) := by
  obtain ⟨code, hcode, hwrites, hanswer⟩ := generate_footprint
    (reached_pastDefinition (.constant .nil))
    (.add (.var "x") (.assign "x" (.constant .nil)))
  have hgen : generate (.add (.var "x") (.assign "x" (.constant .nil)))
      pastDefinition = .ok (.temporary 0) { pastDefinition with
        code := pastDefinition.code ++ [⟨.move, [.temporary 1, .localVar 0]⟩,
          ⟨.loadConstant, [.localVar 0, .constant 0]⟩,
          ⟨.add, [.temporary 0, .temporary 1, .localVar 0]⟩]
        used := [1, 0] } := by
    with_unfolding_all rfl
  rw [hgen] at hcode hwrites
  obtain rfl := List.append_cancel_left hcode
  exact ⟨_, hgen, hwrites, hanswer _ _ hgen⟩

/-! ## What stays -/

namespace Tables.Orderly

variable {T : Tables} (hT : T.Orderly)

include hT

theorem lookup_of_mem {x : String} {r : Int} (h : (x, r) ∈ T.visible) :
    T.visible.lookup x = some r := by
  obtain ⟨before, rest, hsplit⟩ := List.append_of_mem h
  have hdistinct := hT.distinct
  rw [hsplit, List.map_append, List.nodup_append] at hdistinct
  refine List.lookup_eq_some_iff.mpr ⟨before, rest, hsplit, ?_⟩
  intro p hp
  have hne : p.1 ≠ x :=
    hdistinct.2.2 p.1 (List.mem_map_of_mem hp) x List.mem_cons_self
  simpa using hne.symm

theorem register_bounds {p : String × Int} (h : p ∈ T.visible) :
    0 ≤ p.2 ∧ p.2 < T.locals.length := by
  obtain ⟨k, hk, hname⟩ := hT.sound.named (hT.lookup_of_mem h)
  have hlt := (List.getElem?_eq_some_iff.mp hname).1
  rw [hk]
  omega

/-- Names at one register are one name. -/
theorem registers_nodup : (T.visible.map Prod.snd).Nodup := by
  refine List.Nodup.map_on ?_ (.of_map Prod.fst hT.distinct)
  rintro ⟨x, r⟩ hx ⟨y, s⟩ hy hrs
  obtain rfl : r = s := hrs
  obtain ⟨j, rfl, hj⟩ := hT.sound.named (hT.lookup_of_mem hx)
  obtain ⟨k, hjk, hk⟩ := hT.sound.named (hT.lookup_of_mem hy)
  obtain rfl := Int.ofNat.inj hjk
  rw [Option.some.inj (hj.symm.trans hk)]

end Tables.Orderly

/-- What lowering keeps of a context. -/
structure Context.Continues (c c' : Context) : Prop where
  taken : c'.taken = c.taken
  destination : c'.destination = c.destination
  constants : c.constants <+: c'.constants
  locals : c.locals <+: c'.locals
  /-- The temporaries of the new code, and no others, join those in use. -/
  code : ∃ code, c'.code = c.code ++ code
    ∧ ∀ t, t ∈ c'.used ↔ t ∈ c.used ∨ ∃ p ∈ code, .temporary t ∈ p.operands
  visible : ∀ x r, c.visible.lookup x = some r → c'.visible.lookup x = some r
  registers : (c'.visible.map Prod.snd).Nodup
  bounds : ∀ p ∈ c'.visible, 0 ≤ p.2 ∧ p.2 < c'.locals.length

/-- Lowering in a reached context gives back temporaries and destination, and
keeps constants, code, locals and visible names with their registers, however it
ends. -/
theorem generate_continues {root site : Expr} {c : Context}
    (h : Reached root site c) (e : Expr) :
    c.Continues (Context.after (generate e c)) := by
  obtain ⟨code, T, hafter, horder, hkeeps, -⟩ := generate_after e h.orderly
  rw [hafter]
  exact {
    taken := rfl
    destination := rfl
    constants := hkeeps.constants
    locals := hkeeps.locals
    code := ⟨code, rfl, fun _ => Context.mem_usedBy⟩
    visible := fun _ _ hx => hkeeps.visible hx
    registers := horder.registers_nodup
    bounds := fun _ hp => horder.register_bounds hp }

/-- `(x + x) + (x := x + y)` fails at `y`, in the scopes of two temporaries and
after one sum. -/
theorem generate_continues_undefined :
    ∃ err c, generate (.add (.add (.var "x") (.var "x"))
      (.assign "x" (.add (.var "x") (.var "y")))) pastDefinition = .error err c
    ∧ c.code.length = 2 ∧ c.used = [1] ∧ pastDefinition.Continues c := by
  have hcontinues := generate_continues (reached_pastDefinition (.constant .nil))
    (.add (.add (.var "x") (.var "x")) (.assign "x" (.add (.var "x") (.var "y"))))
  exact ⟨_, _, by with_unfolding_all rfl, rfl, rfl, hcontinues⟩

end RegisterVm.Lowering
