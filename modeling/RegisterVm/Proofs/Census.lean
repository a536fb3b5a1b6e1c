import RegisterVm.Proofs.Compilation

/-!
# Every instruction has its reason

How many instructions of each kind a frame has can be read off the tree. A sum
is one `add`. A definition or an assignment needs an instruction of its own only
if its value is somewhere else: one that *ends* in a constant, or in another
variable. A sum needs one more if its left side ends in a variable that the
right side assigns to.

What an expression ends in says where its value is (`Lowers.endsAt`): a constant
is in the pool, a sum at the destination, and a variable in its register, which
it shares with no other one. So where lowering compares locations it compares
names.
-/

namespace RegisterVm

namespace Expr

/-! ## What an expression ends in -/

mutual

/-- The expression whose value is that of the whole: blocks are followed to
their last element. -/
def ending : Expr → Expr
  | .constant v => .constant v
  | .add l r => .add l r
  | .define x e => .define x e
  | .var x => .var x
  | .assign x e => .assign x e
  | .block body => endingOf body
  | .other kind => .other kind

def endingOf : List Expr → Expr
  | [] => .block []
  | [e] => e.ending
  | _ :: es => endingOf es

end

def isConstant : Expr → Bool
  | .constant _ => true
  | _ => false

/-- The variable that holds the value of a use, a definition or an
assignment. -/
def holder? : Expr → Option String
  | .var x => some x
  | .define x _ => some x
  | .assign x _ => some x
  | _ => none

theorem holder?_of_isConstant {e : Expr} (h : e.isConstant = true) :
    e.holder? = none := by
  cases e with
  | constant v => rfl
  | _ => cases h

/-! ## Nodes and what they need -/

mutual

/-- All nodes of a tree, each before its parts. -/
def nodes : Expr → List Expr
  | .constant v => [.constant v]
  | .add l r => .add l r :: (l.nodes ++ r.nodes)
  | .define x e => .define x e :: e.nodes
  | .var x => [.var x]
  | .assign x e => .assign x e :: e.nodes
  | .block body => .block body :: nodesAll body
  | .other kind => [.other kind]

def nodesAll : List Expr → List Expr
  | [] => []
  | e :: es => e.nodes ++ nodesAll es

end

@[simp] def isSum : Expr → Bool
  | .add _ _ => true
  | _ => false

/-- A definition or an assignment whose value ends in a constant. -/
@[simp] def storesConstant : Expr → Bool
  | .define _ e => e.ending.isConstant
  | .assign _ e => e.ending.isConstant
  | _ => false

/-- A definition or an assignment whose value ends in another variable. -/
@[simp] def storesVariable : Expr → Bool
  | .define x e => e.ending.holder?.any (· != x)
  | .assign x e => e.ending.holder?.any (· != x)
  | _ => false

/-- A sum whose left side ends in a variable that the right side assigns to. -/
@[simp] def savesLeft : Expr → Bool
  | .add l r => l.ending.holder?.any (· ∈ r.assignedNames)
  | _ => false

/-- Whether a node needs an instruction of its own with the given opcode. -/
@[simp] def needs : Opcode → Expr → Bool
  | .add, node => node.isSum
  | .loadConstant, node => node.storesConstant
  | .move, node => node.storesVariable || node.savesLeft

theorem needs_assign (op : Opcode) (x : String) (e : Expr) :
    (assign x e).needs op = (define x e).needs op := by
  cases op <;> rfl

/-- A block needs no instruction of its own. -/
theorem countP_nodes_block (op : Opcode) (body : List Expr) :
    (block body).nodes.countP (needs op) = (nodesAll body).countP (needs op) := by
  have hblock : (block body).needs op = false := by cases op <;> rfl
  rw [nodes, List.countP_cons, hblock]
  rfl

theorem mem_assignedNames {e : Expr} {x : String} :
    x ∈ e.assignedNames ↔ x ∈ e.assigned := by
  rw [assignedNames, List.mem_mergeSort, List.mem_eraseDups]

/-- No node stores a variable and saves one. -/
theorem countP_needs_move (nodes : List Expr) :
    nodes.countP (needs .move)
      = nodes.countP storesVariable + nodes.countP savesLeft := by
  induction nodes with
  | nil => rfl
  | cons node nodes ih =>
      have hnode : (if node.needs .move = true then 1 else 0)
          = (if node.storesVariable = true then 1 else 0)
            + if node.savesLeft = true then 1 else 0 := by
        cases node with
        | add l r => exact (Nat.zero_add _).symm
        | define x e | assign x e =>
            rw [needs, savesLeft, Bool.or_false]
            · rfl
            · exact nofun
        | _ => rfl
      rw [List.countP_cons, List.countP_cons, List.countP_cons, ih, hnode]
      omega

end Expr

namespace Lowering

/-! ## Where the value is -/

/-- Where the value of an expression that ends in `e` is, if it was wanted at
`d`. -/
inductive EndsAt (d : Option Location) (T : Tables) :
    Expr → Location → Prop where
  | constant (v : Value) (i : Nat) : EndsAt d T (.constant v) (.constant i)
  | sum {l r : Expr} {a : Location} (ha : ∀ dst, d = some dst → a = dst) :
      EndsAt d T (.add l r) a
  | held {e : Expr} {x : String} {k : Nat} (hx : e.holder? = some x)
      (hk : T.locals[k]? = some x) :
      EndsAt d T e (.localVar k)

theorem Lowers.endsAt {e : Expr} {d n T l code T'}
    (h : Lowers e d n T l code T') (hT : T.Sound) :
    EndsAt d T' e.ending l := by
  induction h with
  | constant =>
      rw [Expr.ending]
      exact .constant _ _
  | var hx =>
      rw [Expr.ending]
      obtain ⟨k, rfl, hk⟩ := hT.named hx
      exact .held rfl hk
  | anywhere h ih =>
      rw [Expr.ending]
      exact .sum fun _ hnone => by cases hnone
  | add hl hk hr ihl ihr =>
      rw [Expr.ending]
      exact .sum fun _ hdst => Option.some.inj hdst
  | define hx h ih =>
      rw [Expr.ending]
      exact .held rfl (h.grows (hT.reserve hx)).2.reserved
  | assign hx h ih =>
      rw [Expr.ending]
      obtain ⟨k, rfl, hk⟩ := hT.named hx
      exact .held rfl ((h.grows hT).2.local_mono hk)
  | last h ih =>
      rw [Expr.ending, Expr.endingOf]
      exact ih hT
  | next h hs ih ihs =>
      have hrest := ihs (h.grows hT).1
      rw [Expr.ending] at hrest
      rw [Expr.ending, Expr.endingOf]
      · exact hrest
      · exact fun h => List.cons_ne_nil _ _ h

/-- A value is brought to its variable if it ends in a constant or in another
variable. -/
theorem EndsAt.copyCode_eq {T : Tables} {x : String} {k : Nat} {e : Expr}
    {a : Location} (h : EndsAt (some (.localVar k)) T e a) (hT : T.Sound)
    (hk : T.locals[k]? = some x) :
    copyCode a (.localVar k)
      = if e.isConstant then [⟨.loadConstant, [.localVar k, a]⟩]
        else if e.holder?.any (· != x) then [⟨.move, [.localVar k, a]⟩]
        else [] := by
  cases h with
  | constant v i => rfl
  | sum ha =>
      -- the sum was wanted in the register of the variable, so it is there
      obtain rfl := ha _ rfl
      simp [copyCode, Location.localVar, Expr.isConstant, Expr.holder?]
  | @held e y j hy hj =>
      have hconstant : e.isConstant = false := by
        rw [Bool.eq_false_iff]
        intro h
        rw [Expr.holder?_of_isConstant h] at hy
        cases hy
      have hkind : (Location.localVar j).kind ≠ .constant := by
        simp [Location.localVar]
      rw [copyCode, if_neg hkind, hconstant, hy]
      -- the locations are those of two locals, which are the same if and only
      -- if the names are
      by_cases hyx : y = x
      · subst hyx
        obtain rfl := hT.local_inj hj hk
        simp
      · simp [hyx, T.localVar_ne hk hj hyx]

/-- A left operand is copied if it ends in a variable that the right one assigns
to. -/
theorem EndsAt.kept_eq {n m : Nat} {T : Tables} {l r : Expr} {a a' : Location}
    {code : List Pending} (h : EndsAt (some (.temporary n)) T l a)
    (hk : Kept r n T a a' m code) :
    code = if l.holder?.any (· ∈ r.assignedNames) then
      [⟨.move, [.temporary n, a]⟩] else [] := by
  have hover : ∀ {x : String} {k : Nat}, T.locals[k]? = some x →
      (T.Overwrites r (.localVar k) ↔ x ∈ r.assigned) := by
    intro x k hx
    simp [Tables.Overwrites, Location.localVar, signedGet?_natCast, hx]
  cases h with
  | constant v i =>
      cases hk with
      | inPlace => rfl
      | copied hover => cases hover.1
  | sum ha =>
      obtain rfl := ha _ rfl
      cases hk with
      | held => rfl
      | inPlace hne => exact absurd rfl hne
      | copied hover => cases hover.1
  | held hx hk' =>
      cases hk with
      | inPlace hne hsafe =>
          have hmem := mt (hover hk').mpr hsafe
          simp [hx, Expr.mem_assignedNames, hmem]
      | copied h =>
          have hmem := (hover hk').mp h
          simp [hx, Expr.mem_assignedNames, hmem]

/-! ## Counting -/

/-- How many instructions have the opcode. -/
def countOf (op : Opcode) (code : List Pending) : Nat := code.countP (·.op = op)

theorem countOf_append (op : Opcode) (code code' : List Pending) :
    countOf op (code ++ code') = countOf op code + countOf op code' :=
  List.countP_append

theorem EndsAt.countOf_copyCode {T : Tables} {x : String} {k : Nat} {e : Expr}
    {a : Location} (h : EndsAt (some (.localVar k)) T e.ending a) (hT : T.Sound)
    (hk : T.locals[k]? = some x) (op : Opcode) :
    countOf op (copyCode a (.localVar k))
      = if (Expr.define x e).needs op = true then 1 else 0 := by
  rw [h.copyCode_eq hT hk]
  cases hconstant : e.ending.isConstant with
  | true =>
      have hnone := Expr.holder?_of_isConstant hconstant
      cases op <;> simp [countOf, hconstant, hnone]
  | false =>
      cases hother : e.ending.holder?.any (· != x) <;> cases op
        <;> simp [countOf, hconstant, hother]

theorem EndsAt.countOf_kept {n m : Nat} {T : Tables} {l r : Expr}
    {a a' : Location} {code : List Pending}
    (h : EndsAt (some (.temporary n)) T l.ending a)
    (hk : Kept r n T a a' m code) (op : Opcode) (operands : List Location) :
    countOf op code + countOf op [⟨.add, operands⟩]
      = if (Expr.add l r).needs op = true then 1 else 0 := by
  rw [h.kept_eq hk]
  cases hsaved : l.ending.holder?.any (· ∈ r.assignedNames) <;> cases op
    <;> simp [countOf, hsaved]

/-- Lowering emits what the nodes of the tree need. -/
theorem Lowers.countOf_eq {e : Expr} {d n T l code T'}
    (h : Lowers e d n T l code T') (hT : T.Sound) (op : Opcode) :
    countOf op code = e.nodes.countP (Expr.needs op) := by
  induction h with
  | constant => cases op <;> simp [Expr.nodes, countOf]
  | var hx => cases op <;> simp [Expr.nodes, countOf]
  | anywhere h ih => exact ih hT
  | @add l r dst n T a code₁ T₁ a' m code₂ b code₃ T₂ hl hk hr ihl ihr =>
      -- what is not the code of a side is the copy of the left one and the
      -- `add`
      have hkept := (hl.endsAt hT).countOf_kept hk op [dst, a', b]
      rw [Expr.nodes, List.countP_cons, List.countP_append, ← ihl hT,
        ← ihr (hl.grows hT).1, ← hkept]
      simp only [countOf_append]
      omega
  | define hx h ih =>
      obtain ⟨hT₁, hg⟩ := h.grows (hT.reserve hx)
      have hcopy :=
        (h.endsAt (hT.reserve hx)).countOf_copyCode hT₁ hg.reserved op
      rw [Expr.nodes, List.countP_cons, countOf_append, ih (hT.reserve hx), hcopy]
  | assign hx h ih =>
      obtain ⟨hT₁, hg⟩ := h.grows hT
      obtain ⟨k, rfl, hk⟩ := hT.named hx
      have hcopy := (h.endsAt hT).countOf_copyCode hT₁ (hg.local_mono hk) op
      rw [Expr.nodes, List.countP_cons, countOf_append, ih hT, hcopy,
        Expr.needs_assign]
  | last h ih =>
      rw [Expr.countP_nodes_block, Expr.nodesAll, Expr.nodesAll,
        List.append_nil, ih hT]
  | next h hs ih ihs =>
      have hrest := ihs (h.grows hT).1
      rw [Expr.countP_nodes_block] at hrest
      rw [Expr.countP_nodes_block, Expr.nodesAll, List.countP_append,
        countOf_append, ih hT, hrest]

/-! ## Moves go somewhere else -/

theorem move_mem_copyCode {a dst dst' src : Location}
    (h : ⟨.move, [dst', src]⟩ ∈ copyCode a dst) :
    src ≠ dst' := by
  rw [copyCode] at h
  split at h
  · simp at h
  · split at h
    · cases h
    · rename_i hne
      simp only [List.mem_singleton, Pending.mk.injEq, List.cons.injEq,
        true_and, and_true] at h
      obtain ⟨rfl, rfl⟩ := h
      exact hne

theorem Lowers.moves_apart {e : Expr} {d n T l code T'}
    (h : Lowers e d n T l code T') :
    ∀ dst src, ⟨.move, [dst, src]⟩ ∈ code → src ≠ dst := by
  induction h with
  | constant | var => exact fun _ _ h => by cases h
  | anywhere h ih => exact ih
  | add hl hk hr ihl ihr =>
      intro dst' src h
      simp only [List.mem_append] at h
      rcases h with ((h | h) | h) | h
      · exact ihl dst' src h
      · cases hk with
        | held | inPlace => cases h
        | copied hover =>
            simp only [List.mem_singleton, Pending.mk.injEq, List.cons.injEq,
              true_and, and_true] at h
            obtain ⟨rfl, rfl⟩ := h
            rintro rfl
            cases hover.1
      · exact ihr dst' src h
      · simp at h
  | define hx h ih | assign hx h ih =>
      intro dst' src hmem
      rcases List.mem_append.mp hmem with hmem | hmem
      · exact ih dst' src hmem
      · exact move_mem_copyCode hmem
  | last h ih => exact ih
  | next h hs ih ihs =>
      intro dst' src hmem
      rcases List.mem_append.mp hmem with hmem | hmem
      · exact ih dst' src hmem
      · exact ihs dst' src hmem

end Lowering

/-! ## Frames -/

/-- How many instructions of the frame have the opcode. -/
def Frame.count (f : Frame) (op : Opcode) : Nat :=
  f.code.countP (·.tag = .opcode op)

namespace Lowering

theorem Assembles.tag_eq {c : Context} {p : Pending} {instr : Instruction}
    (h : Assembles c p instr) :
    instr.tag = .opcode p.op := by
  cases h <;> rfl

theorem Assembled.count_eq {c : Context} {l : Location} {f : Frame}
    (hf : Assembled c l f) (op : Opcode) : f.count op = countOf op c.code := by
  have hcode := hf.code
  rw [Frame.count, countOf]
  generalize c.code = code, f.code = instrs at hcode ⊢
  induction hcode with
  | nil => rfl
  | cons hp hps ih =>
      simp only [List.countP_cons, ih, hp.tag_eq, OpTag.opcode.injEq]

theorem Compiled.move_apart {e : Expr} {c : Context} {l : Location} {f : Frame}
    (hc : Compiled e c l f) {instr : Instruction} (hmem : instr ∈ f.code)
    (hmove : instr.tag = .opcode .move) :
    ∃ dst src, instr = .move dst src ∧ 0 ≤ src ∧ src < f.size ∧ src ≠ dst := by
  obtain ⟨p, hp, hassembles⟩ := hc.assembled.exists_pending hmem
  cases hassembles with
  | @move dst src r s hdst hsrc =>
      have hne : src ≠ dst := hc.lowers.moves_apart dst src hp
      have hbounds := hsrc.bounds
      rw [← hc.assembled.size] at hbounds
      refine ⟨r, s, rfl, hbounds.1, hbounds.2, ?_⟩
      rintro rfl
      exact hne (hsrc.inj hdst)
  | loadConstant hdst hi => cases hmove
  | add hdst ha hb => cases hmove

/-- A frame has an `add` for every sum, a load for every constant that is
stored, and a move for every variable that is stored in another one and for
every left side that is saved from the right one. No move has the register that
it reads as its destination. -/
theorem lower_census {e : Expr} {f : Frame} (h : lower e = .ok f) :
    f.count .add = e.nodes.countP Expr.isSum
      ∧ f.count .loadConstant = e.nodes.countP Expr.storesConstant
      ∧ f.count .move
        = e.nodes.countP Expr.storesVariable + e.nodes.countP Expr.savesLeft
      ∧ ∀ instr ∈ f.code, instr.tag = .opcode .move →
        ∃ dst src, instr = .move dst src ∧ 0 ≤ src ∧ src < f.size
          ∧ src ≠ dst := by
  obtain ⟨c, l, hc⟩ := lower_compiled h
  have hcount : ∀ op, f.count op = e.nodes.countP (Expr.needs op) := by
    intro op
    rw [hc.assembled.count_eq, hc.lowers.countOf_eq Tables.Sound.empty]
  refine ⟨hcount .add, hcount .loadConstant, ?_, fun instr => hc.move_apart⟩
  rw [hcount, Expr.countP_needs_move]

/-- A copy of a variable, `x := nil` and `y := x`, and then a sum
`z := y + (y = x)` whose right side assigns to the variable on its left. -/
def copiedAndSaved : Expr :=
  .block [.define "x" (.constant .nil), .define "y" (.var "x"),
    .define "z"
      (.add (.var "y") (.assign "y" (.block [.constant .nil, .var "x"])))]

theorem lower_census_copiedAndSaved :
    ∃ f, lower copiedAndSaved = .ok f ∧ f.count .add = 1
    ∧ f.count .loadConstant = 1 ∧ f.count .move = 3 := by
  have hlower : lower copiedAndSaved = .ok
      { size := 4
        constants := [.nil]
        locals := ["x", "y", "z"]
        code :=
          [.loadConstant 0 (-1), .move 1 0, .move 3 1, .move 1 0, .add 2 3 1]
        result := some 2 } := by with_unfolding_all rfl
  obtain ⟨hadd, hload, hmove, -⟩ := lower_census hlower
  exact ⟨_, hlower, hadd.trans rfl, hload.trans rfl,
    hmove.trans (by with_unfolding_all rfl)⟩

end Lowering

end RegisterVm
