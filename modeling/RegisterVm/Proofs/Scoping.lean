import RegisterVm.Proofs.Assignment
import RegisterVm.Proofs.Traversal

/-!
# Which trees have code

Lowering goes through a tree in the order of its visits, and what it knows of
names is what the visits say: the locals are the definitions that were entered,
the visible names those that were left (`Tracks`). So it fails at the first
offence on the way, with the rejection that this offence calls for, and at
nothing else (`generate_follows`). Once all code is there, all its locations
have operands, and the frame can be made.

Hence a tree has a frame if and only if it is scoped.
-/

namespace RegisterVm.Lowering

/-! ## Names in the tables -/

namespace Tables

theorem mem_names_iff {visible : List (String × Int)} {x : String} :
    x ∈ visible.map Prod.fst ↔ (visible.lookup x).isSome := by
  rw [List.lookup_isSome_iff, List.mem_map]
  exact exists_congr fun p => and_congr_right fun _ => by rw [beq_iff_eq, eq_comm]

/-- While its value is lowered, the name of a definition is not visible. -/
theorem Grows.unseen {T T₁ : Tables} {x : String} (h : (T.reserve x).Grows T₁)
    (hT : T.Sound) (hx : x ∉ T.locals) (hT₁ : T₁.Sound) :
    T₁.visible.lookup x = none := by
  cases hvis : T₁.visible.lookup x with
  | none => rfl
  | some r =>
      obtain ⟨k, rfl, hk⟩ := hT₁.named hvis
      obtain rfl := hT₁.local_inj hk h.reserved
      rcases h.old hvis with hold | hnew
      · obtain ⟨j, -, hj⟩ := hT.named hold
        exact absurd (List.mem_of_getElem? hj) hx
      · simp only [reserve, List.length_append, List.length_singleton] at hnew
        omega

end Tables

/-! ## Following the visits -/

/-- The tables that some visits lead to. -/
structure Tracks (before : List Visit) (T : Tables) : Prop where
  sound : T.Sound
  locals : T.locals = begun before
  visible : T.visible.map Prod.fst = completed before

/-- What comes of lowering if it goes on with the visits `vs`: tables that they
lead to, or the first offence. -/
inductive Judged {α : Type} (before vs : List Visit) :
    EStateM.Result Error Context α → Prop where
  | ok {a : α} {c : Context} (hnone : firstOffence before vs = none)
      (htracks : Tracks (before ++ vs) c.tables) : Judged before vs (.ok a c)
  | rejected {r : Rejection} {c : Context}
      (hsome : firstOffence before vs = some r) :
      Judged before vs (.error (.rejected r) c)

/-- The action goes on with the visits `vs`, wherever it starts. -/
def Follows {α : Type} (action : Lower α) (vs : List Visit) : Prop :=
  ∀ before c, Tracks before c.tables → Judged before vs (action c)

/-- A visit that neither enters nor leaves a definition changes no names. -/
theorem Tracks.concat {before : List Visit} {T : Tables} (h : Tracks before T)
    {v : Visit} (hbegins : v.begins? = none) (hcompletes : v.completes? = none) :
    Tracks (before ++ [v]) T where
  sound := h.sound
  locals := by simpa [begun, hbegins] using h.locals
  visible := by simpa [completed, hcompletes] using h.visible

/-- Lowering goes on after a step that was right. -/
theorem Judged.bind {α β : Type} {before vs ws : List Visit} {c : Context}
    {x : Lower α} {f : α → Lower β} (hx : Judged before vs (x c))
    (hf : ∀ a c', x c = .ok a c' → Tracks (before ++ vs) c'.tables →
      Judged (before ++ vs) ws (f a c')) :
    Judged before (vs ++ ws) ((x >>= f) c) := by
  simp only [Bind.bind, EStateM.bind]
  generalize x c = first at hx hf ⊢
  cases hx with
  | rejected hsome => exact .rejected (by rw [firstOffence_append, hsome]; rfl)
  | @ok a c' hnone ht =>
      have hrest := hf a c' rfl ht
      dsimp only
      generalize f a c' = rest at hrest ⊢
      cases hrest with
      | ok hnone' ht' =>
          exact .ok (by rw [firstOffence_append, hnone, hnone']; rfl)
            (by simpa using ht')
      | rejected hsome =>
          exact .rejected (by rw [firstOffence_append, hnone, hsome]; rfl)

/-- A visit at which nothing happens. -/
structure Silent (v : Visit) : Prop where
  offence : ∀ before, v.offence? before = none
  begins : v.begins? = none
  completes : v.completes? = none

namespace Follows

variable {α β : Type} {vs ws : List Visit}

theorem pure (a : α) : Follows (Pure.pure a : Lower α) [] := by
  intro before c ht
  exact .ok rfl (by simpa using ht)

theorem bind {x : Lower α} {f : α → Lower β} (hx : Follows x vs)
    (hf : ∀ a, Follows (f a) ws) :
    Follows (x >>= f) (vs ++ ws) := by
  intro before c ht
  exact (hx before c ht).bind fun a c' _ ht' => hf a _ c' ht'

theorem enter {action : Lower α} (h : Follows action vs) {v : Visit}
    (hv : Silent v) :
    Follows action (v :: vs) := by
  intro before c ht
  have hrest := h _ c (ht.concat hv.begins hv.completes)
  have hfirst : firstOffence before (v :: vs)
      = firstOffence (before ++ [v]) vs := by
    rw [firstOffence, hv.offence]
    rfl
  generalize action c = result at hrest ⊢
  cases hrest with
  | ok hnone ht' => exact .ok (hfirst.trans hnone) (by simpa using ht')
  | rejected hsome => exact .rejected (hfirst.trans hsome)

theorem leave {action : Lower α} (h : Follows action vs) {v : Visit}
    (hv : Silent v) :
    Follows action (vs ++ [v]) := by
  intro before c ht
  have hparts := h before c ht
  have hfirst : firstOffence before (vs ++ [v]) = firstOffence before vs := by
    rw [firstOffence_append, firstOffence, hv.offence]
    simp [firstOffence]
  generalize action c = result at hparts ⊢
  cases hparts with
  | ok hnone ht' =>
      exact .ok (hfirst.trans hnone)
        (by simpa using ht'.concat hv.begins hv.completes)
  | rejected hsome => exact .rejected (hfirst.trans hsome)

theorem around {action : Lower α} (h : Follows action vs) {node : Expr}
    (henter : Silent (.enter node)) (hleave : Silent (.leave node)) :
    Follows action (node.around vs) :=
  (h.leave hleave).enter henter

/-- At an offence lowering ends. -/
theorem reject {node : Expr} {r : Rejection}
    (h : ∀ before, node.offence? before = some r) (parts : List Visit) :
    Follows (Lowering.reject r : Lower α) (node.around parts) := by
  intro before c ht
  exact .rejected (by rw [Expr.around, firstOffence, Visit.offence?, h]; rfl)

/-! ## Scopes and code -/

theorem withTemporary {body : Location → Lower α}
    (h : ∀ t, Follows (body t) vs) :
    Follows (Lowering.withTemporary body) vs := by
  intro before c ht
  have hbody := h c.nextTemporary before c.take ht
  rw [Lowering.withTemporary]
  generalize body c.nextTemporary c.take = result at hbody ⊢
  cases hbody with
  | ok hnone ht' => exact .ok hnone ht'
  | rejected hsome => exact .rejected hsome

theorem withDestination {body : Lower α} (h : Follows body vs)
    (d : Option Location) :
    Follows (Lowering.withDestination d body) vs := by
  intro before c ht
  have hbody := h before (c.aim d) ht
  rw [Lowering.withDestination]
  generalize body (c.aim d) = result at hbody ⊢
  cases hbody with
  | ok hnone ht' => exact .ok hnone ht'
  | rejected hsome => exact .rejected hsome

theorem atDestination {body : Location → Lower α}
    (h : ∀ dst, Follows (body dst) vs) :
    Follows (Lowering.atDestination body) vs := by
  intro before c ht
  rw [Lowering.atDestination]
  split
  · exact h _ before c ht
  · exact withTemporary (fun t => (h t).withDestination (some t)) before c ht

theorem emit (op : Opcode) (operands : List Location) :
    Follows (Lowering.emit op operands) [] := by
  intro before c ht
  refine .ok rfl ?_
  rw [List.append_nil]
  exact ht

theorem materialize (l dst : Location) :
    Follows (Lowering.materialize l dst) [] := by
  rw [Lowering.materialize]
  split
  · exact emit _ _
  · split
    · exact pure ()
    · exact emit _ _

theorem storeAt {value : Lower Location} (h : Follows value vs)
    (dst : Location) :
    Follows (Lowering.storeAt dst value) vs := by
  have hstore := h.bind fun l => materialize l dst
  rw [List.append_nil] at hstore
  exact hstore.withDestination (some dst)

theorem sumInto {right : Lower Location} (h : Follows right vs)
    (dst left : Location) :
    Follows (Lowering.sumInto dst left right) vs := by
  have hsum := h.bind fun r => (emit .add [dst, left, r]).bind fun _ => pure dst
  simp only [List.append_nil] at hsum
  exact hsum

theorem addRight {right : Lower Location} (h : Follows right vs)
    (dst left : Location) (r : Expr) :
    Follows (Lowering.addRight dst left r right) vs := by
  rw [Lowering.addRight]
  split
  · exact withTemporary fun t => (h.withDestination (some t)).sumInto dst left
  · exact (h.withDestination (some dst)).sumInto dst left

theorem leftOperand {left : Lower Location} (h : Follows left vs) (l : Expr) :
    Follows (Lowering.leftOperand l left) vs := by
  rw [Lowering.leftOperand]
  split
  · exact h
  · exact withTemporary fun t => h.withDestination (some t)

/-! ## Constants and names -/

theorem addConstant (v : Value) : Follows (Lowering.addConstant v) [] := by
  intro before c ht
  cases hadd : Lowering.addConstant v c with
  | error err c' =>
      rw [Lowering.addConstant] at hadd
      split at hadd <;> cases hadd
  | ok l c' =>
      obtain ⟨-, rfl⟩ := addConstant_ok hadd
      refine .ok rfl ?_
      rw [List.append_nil]
      exact ⟨ht.sound.pool v, ht.locals, ht.visible⟩

/-- A name is looked up at a node that uses it. -/
theorem lookup {node : Expr} {x : String} (hx : node.uses? = some x) :
    Follows (Lowering.lookup x) [.enter node] := by
  intro before c ht
  have hoffence : firstOffence before [.enter node]
      = if x ∈ completed before then none else
        some (.notDefined x (completed before)) := by
    cases node <;> cases hx <;> simp [firstOffence, Visit.offence?, Expr.offence?]
  cases hlook : c.visible.lookup x with
  | some r =>
      have hmem : x ∈ completed before := by
        rw [← ht.visible, Tables.mem_names_iff]
        exact Option.isSome_of_eq_some hlook
      have hok : Lowering.lookup x c = .ok (.localVar r) c := by
        rw [Lowering.lookup, hlook]
      rw [hok]
      refine .ok (hoffence.trans (if_pos hmem)) (ht.concat ?_ rfl)
      cases node <;> cases hx <;> rfl
  | none =>
      have hmem : x ∉ completed before := by
        rw [← ht.visible, Tables.mem_names_iff, Context.tables, hlook]
        simp
      have hrej : Lowering.lookup x c
          = .error (.rejected (.notDefined x (completed before))) c := by
        rw [Lowering.lookup, hlook, ← ht.visible]
        rfl
      rw [hrej]
      exact .rejected (hoffence.trans (if_neg hmem))

theorem reserve (x : String) (e : Expr) :
    Follows (Lowering.reserve x) [.enter (.define x e)] := by
  intro before c ht
  have hlocals : c.locals = begun before := ht.locals
  have hoffence : firstOffence before [.enter (.define x e)]
      = if x ∈ begun before then some (.alreadyDefined x (begun before)) else
        none := by
    simp [firstOffence, Visit.offence?, Expr.offence?]
  rw [Lowering.reserve]
  split
  · rename_i hmem
    rw [hlocals] at hmem ⊢
    exact .rejected (hoffence.trans (if_pos (List.contains_iff_mem.mp hmem)))
  · rename_i hmem
    have hx : x ∉ c.locals := by simpa using hmem
    refine .ok (hoffence.trans (if_neg (hlocals ▸ hx)))
      ⟨ht.sound.reserve hx, ?_, ?_⟩
    · rw [begun_append, ← hlocals]
      rfl
    · rw [completed_append, ← ht.visible]
      simp [Context.tables, completed, Visit.completes?]

end Follows

/-! ## The cases with a condition -/

/-- A definition is visible once it is left. -/
theorem Tracks.declare {before : List Visit} {T : Tables} (h : Tracks before T)
    {x : String} {k : Nat} (hk : T.locals[k]? = some x)
    (hx : T.visible.lookup x = none) (e : Expr) :
    Tracks (before ++ [.leave (.define x e)]) (T.declare x k) where
  sound := h.sound.declare hk
  locals := by
    rw [begun_append, ← h.locals]
    simp [Tables.declare, begun, Visit.begins?]
  visible := by
    have hnew : x ∉ T.visible.map Prod.fst := by
      rw [Tables.mem_names_iff, hx]
      simp
    rw [completed_append, ← h.visible, Tables.declare,
      if_neg (by simpa using hnew)]
    simp [completed, Visit.completes?]

theorem Follows.define {e : Expr} {vs : List Visit}
    (h : Follows (generate e) vs) (x : String) :
    Follows (generate (.define x e)) ((Expr.define x e).around vs) := by
  intro before c ht
  rw [generate]
  show Judged before ([.enter (.define x e)] ++ (vs ++ [.leave (.define x e)])) _
  refine Judged.bind (Follows.reserve x e before c ht) ?_
  intro dst c₁ hres ht₁
  obtain ⟨hx, rfl, rfl⟩ := reserve_ok hres
  refine Judged.bind (h.storeAt _ _ _ ht₁) ?_
  intro _ c₂ hstore ht₂
  obtain ⟨a, code, T, hlow, rfl⟩ := storeAt_ok (generate_lowers e) hstore
  have hgrows : (c.tables.reserve x).Grows T := (hlow.grows ht₁.sound).2
  exact .ok rfl
    (ht₂.declare hgrows.reserved (hgrows.unseen ht.sound hx ht₂.sound) e)

/-- A local in a register has a name. -/
theorem overwrites_total {c : Context} {l : Location}
    (hl : c.tables.IsRegister l ∨ c.tables.IsConstant l) (later : Expr) :
    ∃ b, overwrites c later l = .ok b := by
  rcases hl with (⟨k, hk, rfl⟩ | ⟨k, rfl⟩) | ⟨i, -, rfl⟩
  · refine ⟨later.assigned.contains c.locals[k], ?_⟩
    have hname : signedGet? c.locals k = some c.locals[k] := by
      rw [signedGet?_natCast]
      exact List.getElem?_eq_getElem hk
    simp [overwrites, Location.localVar, hname]
  · exact ⟨false, rfl⟩
  · exact ⟨false, rfl⟩

theorem Judged.withSafe {before vs : List Visit} {c : Context}
    (ht : Tracks before c.tables) {l : Location}
    (hl : c.tables.IsRegister l ∨ c.tables.IsConstant l)
    {body : Location → Lower Location} (h : ∀ a, Follows (body a) vs)
    (later : Expr) :
    Judged before vs (withSafe later l body c) := by
  rw [Lowering.withSafe]
  split
  · exact Follows.withTemporary (fun _ => h l) before c ht
  · obtain ⟨b, hb⟩ := overwrites_total hl later
    rw [hb]
    cases b with
    | false => exact h l before c ht
    | true =>
        exact Follows.withTemporary
          (fun t => (Follows.emit _ _).bind fun _ => h t) before c ht

theorem Follows.addInto {l r : Expr} {vs ws : List Visit}
    (hl : Follows (generate l) vs) (hr : Follows (generate r) ws)
    (dst : Location) :
    Follows (addInto dst l r (generate l) (generate r)) (vs ++ ws) := by
  intro before c ht
  refine Judged.bind (hl.leftOperand l before c ht) ?_
  intro a c₁ hleft ht₁
  obtain ⟨code, T, hlow, rfl⟩ := leftOperand_ok (generate_lowers l) hleft
  have hvalue : T.IsRegister a ∨ T.IsConstant a :=
    (hlow.answer ht.sound).isValue ht₁.sound (T.isRegister_temporary c.taken).aims
  exact .withSafe ht₁ hvalue (fun a' => hr.addRight dst a' r) r

/-! ## Every tree -/

mutual

/-- Lowering follows the way through the tree, and fails at the first
offence. -/
theorem generate_follows : ∀ e : Expr, Follows (generate e) e.visits
  | .constant v => by
      rw [generate, Expr.visits]
      exact (Follows.addConstant v).around ⟨fun _ => rfl, rfl, rfl⟩
        ⟨fun _ => rfl, rfl, rfl⟩
  | .var x => by
      rw [generate, Expr.visits]
      exact (@Follows.lookup (.var x) x rfl).leave ⟨fun _ => rfl, rfl, rfl⟩
  | .add l r => by
      rw [generate, Expr.visits]
      have hsum := Follows.atDestination fun dst =>
        (generate_follows l).addInto (generate_follows r) dst
      exact hsum.around ⟨fun _ => rfl, rfl, rfl⟩ ⟨fun _ => rfl, rfl, rfl⟩
  | .define x e => by
      rw [Expr.visits]
      exact (generate_follows e).define x
  | .assign x e => by
      rw [generate, Expr.visits]
      have hstore := fun dst => ((generate_follows e).storeAt dst).bind fun _ =>
        Follows.pure dst
      simp only [List.append_nil] at hstore
      exact ((@Follows.lookup (.assign x e) x rfl).bind hstore).leave
        ⟨fun _ => rfl, rfl, rfl⟩
  | .block [] => by
      rw [generate, generateBlock, Expr.visits]
      exact .reject (fun _ => rfl) _
  | .block (e :: es) => by
      rw [generate, Expr.visits]
      have hbody := generateBlock_follows (e :: es) (List.cons_ne_nil e es)
      exact hbody.around ⟨fun _ => rfl, rfl, rfl⟩ ⟨fun _ => rfl, rfl, rfl⟩
  | .other kind => by
      rw [generate, Expr.visits]
      exact .reject (fun _ => rfl) _

theorem generateBlock_follows : ∀ body : List Expr, body ≠ [] →
    Follows (generateBlock body) (Expr.visitsAll body)
  | [], h => absurd rfl h
  | [e], _ => by
      rw [generateBlock, Expr.visitsAll, Expr.visitsAll, List.append_nil]
      exact generate_follows e
  | e :: e' :: es, _ => by
      rw [generateBlock_cons e (List.cons_ne_nil e' es), Expr.visitsAll]
      exact ((generate_follows e).withDestination none).bind fun _ =>
        generateBlock_follows (e' :: es) (List.cons_ne_nil e' es)

end

/-! ## Every location has an operand -/

namespace Context

theorem exists_operand {c : Context} {l : Location}
    (hl : c.tables.IsRegister l ∨ c.tables.IsConstant l)
    (hused : ∀ t, l = .temporary t → t ∈ c.used) :
    ∃ ref, c.operand l = .ok ref := by
  rcases hl with (⟨k, -, rfl⟩ | ⟨k, rfl⟩) | ⟨i, -, rfl⟩
  · exact ⟨_, c.operand_local k⟩
  · obtain ⟨i, -, hop⟩ := operand_of_mem_used (hused k rfl)
    exact ⟨_, hop⟩
  · exact ⟨_, c.operand_constant i⟩

theorem exists_frame {c : Context} {l : Location}
    (hfits : ∀ p ∈ c.code, p.Fits c.tables)
    (hused : ∀ p ∈ c.code, ∀ t, .temporary t ∈ p.operands → t ∈ c.used)
    (hl : ∃ ref, c.operand l = .ok ref) : ∃ f, c.frame l = .ok f := by
  obtain ⟨code, hcode⟩ : ∃ code, c.code.mapM (fun p => do
      let args ← p.operands.mapM fun l' => c.operand l'
      return Instruction.mk (.opcode p.op) args) = .ok code := by
    refine exists_mapM_ok fun p hp => ?_
    obtain ⟨args, hargs⟩ := exists_mapM_ok fun l' hl' =>
      exists_operand ((hfits p hp).operand hl') fun t ht =>
        hused p hp t (ht ▸ hl')
    exact ⟨⟨.opcode p.op, args⟩, by rw [hargs]; rfl⟩
  obtain ⟨ref, href⟩ := hl
  simp only [operand] at hcode href
  rw [frame, hcode, href]
  exact ⟨_, rfl⟩

end Context

/-- Code that was generated can be put in a frame. -/
theorem lower_of_generate {e : Expr} {l : Location} {c : Context}
    (h : generate e Context.empty = .ok l c) : ∃ f, lower e = .ok f := by
  obtain ⟨code, T, hlow, rfl⟩ := generate_lowers e h
  obtain ⟨hT, -⟩ := hlow.grows Tables.Sound.empty
  have hmentioned : ∀ p ∈ code, ∀ t, .temporary t ∈ p.operands →
      t ∈ Context.usedBy [] code :=
    fun p hp t ht => Context.mem_usedBy.mpr (Or.inr ⟨p, hp, ht⟩)
  have hvalue := (hlow.answer Tables.Sound.empty).isValue hT T.aims_none
  have hassigns : Assigns [] code T l := hlow.assigns fun _ _ hx => by cases hx
  -- a result in a temporary was written there
  have hresult : ∀ t, l = .temporary t → t ∈ Context.usedBy [] code := by
    rintro t rfl
    have hdst := hassigns.answer (by simp [Location.temporary])
    obtain ⟨p, hp, hhead⟩ := List.mem_filterMap.mp hdst
    exact hmentioned p hp t (List.mem_of_mem_head? hhead)
  rw [lower, h]
  refine Context.exists_frame
    (hlow.fits Tables.Sound.empty (Tables.aims_none _)) hmentioned ?_
  exact Context.exists_operand hvalue hresult

theorem lower_eq_rejected {e : Expr} {r : Rejection}
    (h : firstOffence [] e.visits = some r) :
    lower e = .error (.rejected r) := by
  have hjudged :=
    generate_follows e [] Context.empty ⟨Tables.Sound.empty, rfl, rfl⟩
  rw [lower]
  generalize generate e Context.empty = result at hjudged ⊢
  cases hjudged with
  | ok hnone =>
      rw [hnone] at h
      cases h
  | rejected hsome =>
      obtain rfl := Option.some.inj (hsome.symm.trans h)
      rfl

theorem lower_of_scoped {e : Expr} (h : e.Scoped) : ∃ f, lower e = .ok f := by
  have hjudged :=
    generate_follows e [] Context.empty ⟨Tables.Sound.empty, rfl, rfl⟩
  cases hgen : generate e Context.empty with
  | ok l c => exact lower_of_generate hgen
  | error err c =>
      rw [hgen] at hjudged
      cases hjudged with
      | rejected hsome =>
          rw [h.firstOffence_eq_none] at hsome
          cases hsome

/-- Lowering makes a frame or rejects the tree. -/
theorem lower_cases (e : Expr) :
    (∃ f, lower e = .ok f) ∨ ∃ r, lower e = .error (.rejected r) := by
  cases hfirst : firstOffence [] e.visits with
  | none => exact Or.inl (lower_of_scoped (Expr.scoped_iff.mpr hfirst))
  | some r => exact Or.inr ⟨r, lower_eq_rejected hfirst⟩

/-- A tree has a frame if and only if it is scoped. Any other one is rejected,
at the first node on the way through it that is entered wrongly and for what is
wrong there. -/
theorem lower_ok_iff_scoped (e : Expr) :
    ((∃ f, lower e = .ok f) ↔ e.Scoped)
      ∧ (¬ e.Scoped →
        ∃ before node after r, e.visits = before ++ .enter node :: after
        ∧ node.offence? before = some r
        ∧ (∀ before' node' after', before = before' ++ .enter node' :: after' →
          node'.offence? before' = none)
        ∧ lower e = .error (.rejected r)) := by
  cases hfirst : firstOffence [] e.visits with
  | none =>
      have hscoped := Expr.scoped_iff.mpr hfirst
      exact ⟨iff_of_true (lower_of_scoped hscoped) hscoped, fun h =>
        absurd hscoped h⟩
  | some r =>
      have hrejected := lower_eq_rejected hfirst
      have hunscoped : ¬ e.Scoped := by
        rw [Expr.scoped_iff, hfirst]
        exact Option.some_ne_none r
      refine ⟨iff_of_false (fun ⟨f, hf⟩ => ?_) hunscoped, fun _ => ?_⟩
      · rw [hrejected] at hf
        cases hf
      · obtain ⟨before, v, after, hsplit, hv, hbefore⟩ :=
          firstOffence_eq_some hfirst
        cases v with
        | leave node => cases hv
        | enter node =>
            refine ⟨before, node, after, r, hsplit, hv, ?_, hrejected⟩
            intro before' node' after' hearlier
            exact firstOffence_eq_none_iff.mp hbefore before' (.enter node')
              after' hearlier

/-- A definition in progress takes its name: `x := (x := nil)`. -/
example : lower (.define "x" (.define "x" (.constant .nil)))
    = .error (.rejected (.alreadyDefined "x" ["x"])) := by
  with_unfolding_all rfl

end RegisterVm.Lowering
