import RegisterVm.Proofs.Execution

/-!
# Code does what the evaluation does

`Lowers.realizes` is the heart of the correctness of lowering: started in a
store that agrees with an environment, the code of a tree does what the
evaluation of the tree does. If the evaluation has a value, so has the location
of the answer, and the store agrees with the new environment, except at the
destination. If it stops at a sum, the code is stuck on the same value, and the
locals are those of the environment in which the sum fails.

The exception at the destination is what makes the induction go through. A sum
computes its right operand straight into the destination, so a local that waits
for its new value can hold a partial sum. It is written only as the last thing
that the code of a tree does, though: at entry of every tree the agreement has
no exception.
-/

namespace RegisterVm.Lowering

/-! ## Constants -/

theorem Tables.read_place {T : Tables} {v : Value} {pool : List Value}
    (hpool : (T.pool v).constants <+: pool) (σ : Store) :
    σ.read pool (.constant (T.place v)) = Value.shared pool v := by
  obtain ⟨rest, rfl⟩ := hpool
  show (_ : List Value).getD (T.place v) .nil = _
  rw [Tables.place, Tables.pool, Value.addDistinct, Value.shared]
  cases hpos : Value.position? T.constants v with
  | some i =>
      obtain ⟨hlt, heq, hfirst⟩ := List.findIdx?_eq_some_iff_getElem.mp hpos
      have hfind : T.constants.find? (·.equals v) = some T.constants[i] :=
        List.find?_eq_some_iff_getElem.mpr
          ⟨heq, i, hlt, rfl, fun j hj => by simpa using hfirst j hj⟩
      simp [List.find?_append, hfind, List.getElem?_append_left hlt, hlt]
  | none =>
      have hnone : T.constants.find? (·.equals v) = none := by
        simpa [Value.position?, List.findIdx?_eq_none_iff] using hpos
      -- nothing equals a value that is unequal to itself, so then the rest has
      -- no equal either
      have hrest : v.equals v = false → rest.find? (·.equals v) = none := by
        intro hv
        rw [List.find?_eq_none]
        intro w _ hw
        rw [Value.equals_self_of_equals hw] at hv
        cases hv
      cases hv : v.equals v with
      | true => simp [List.find?_append, hnone, hv]
      | false => simp [List.find?_append, hnone, hv, hrest hv]

/-! ## Agreement -/

/-- The names bound in `env` are the visible ones, and their locals hold their
values, except at `d`. -/
structure Agrees (T : Tables) (σ : Store) (env : Env) (d : Option Location) :
    Prop where
  unbound : ∀ {x}, T.visible.lookup x = none → env x = none
  bound : ∀ {x r}, T.visible.lookup x = some r →
    ∃ v, env x = some v ∧ (d ≠ some (.localVar r) → σ (.localVar r) = v)

/-- A store whose visible locals are the same agrees as well. -/
theorem Agrees.congr {T : Tables} {σ σ' : Store} {env : Env}
    {d d' : Option Location} (h : Agrees T σ env d)
    (hσ : ∀ {x r}, T.visible.lookup x = some r → d' ≠ some (.localVar r) →
      d ≠ some (.localVar r)
        ∧ σ' (.localVar r) = σ (.localVar r)) : Agrees T σ' env d' where
  unbound := h.unbound
  bound hx := by
    obtain ⟨v, hv, hval⟩ := h.bound hx
    refine ⟨v, hv, fun hd => ?_⟩
    obtain ⟨hd', heq⟩ := hσ hx hd
    rw [heq, hval hd']

theorem Agrees.weaken {T : Tables} {σ : Store} {env : Env}
    (h : Agrees T σ env none) (d : Option Location) : Agrees T σ env d :=
  h.congr fun _ _ => ⟨by simp, rfl⟩

/-- An agreement has no exception if the destination is a temporary. -/
theorem Agrees.of_temporary {T : Tables} {σ : Store} {env : Env} {k : Int}
    (h : Agrees T σ env (some (.temporary k))) : Agrees T σ env none :=
  h.congr fun _ _ => ⟨by simp [Location.temporary, Location.localVar], rfl⟩

/-- A local that has got its value agrees with the environment that binds its
name to it. -/
theorem Agrees.bind {T T' : Tables} {σ σ' : Store} {env : Env} {x : String}
    {j : Nat} (h : Agrees T σ env (some (.localVar j))) (hT : T.Sound)
    (hj : T.locals[j]? = some x) (hlook : ∀ y, T'.visible.lookup y
      = if y = x then some (j : Int) else T.visible.lookup y)
    (hσ : ∀ l, l ≠ .localVar j → σ' l = σ l) (d : Option Location) :
    Agrees T' σ' (env.bind x (σ' (.localVar j))) d where
  unbound := by
    intro y hy
    rw [hlook] at hy
    split at hy
    · cases hy
    · rename_i hne
      rw [env.bind_of_ne hne]
      exact h.unbound hy
  bound := by
    intro y r hy
    rw [hlook] at hy
    split at hy
    · subst_vars
      obtain rfl := Option.some.inj hy
      exact ⟨_, env.bind_self _ _, fun _ => rfl⟩
    · rename_i hne
      obtain ⟨v, hv, hval⟩ := h.bound hy
      obtain ⟨k, rfl, hk⟩ := hT.named hy
      have hother := Tables.localVar_ne hj hk hne
      refine ⟨v, by rw [env.bind_of_ne hne]; exact hv, fun _ => ?_⟩
      rw [hσ _ hother]
      exact hval fun heq => hother (Option.some.inj heq).symm

/-- What is left of the locals when a sum fails in the code between `T` and
`T'`. A bound name is a local, and holds its value unless it is being assigned
to or waits at the destination. A local reserved since that is neither bound nor
being defined is as it was. -/
structure StopsAt (T T' : Tables) (d : Option Location) (σ σ' : Store)
    (s : Stop) : Prop where
  held : ∀ {x w}, s.env x = some w → ∃ k : Nat, T'.locals[k]? = some x
    ∧ (T.visible.lookup x = some (k : Int) ∨ T.locals.length ≤ k)
    ∧ (x ∉ s.assigning → d ≠ some (.localVar k) → σ' (.localVar k) = w)
  untouched : ∀ {x k}, T'.locals[k]? = some x → T.locals.length ≤ k →
    s.env x = none →
    x ∉ s.defining → σ' (.localVar k) = σ (.localVar k)

/-- The end of code matches the end of an evaluation. -/
inductive Realizes (pool : List Value) (d : Option Location) (T T' : Tables)
    (σ : Store) (l : Location) :
    Halt → Except Failure (Value × Env) → Prop where
  | value {σ' : Store} {env : Env} (hagree : Agrees T' σ' env d) :
      Realizes pool d T T' σ l (.done σ') (.ok (σ'.read pool l, env))
  | stop {σ' : Store} {s : Stop} (hstop : StopsAt T T' d σ σ' s) :
      Realizes pool d T T' σ l (.stuck s.value σ') (.error (.notNumber s))

/-! ## One part of the code after another -/

/-- No code writes a local that is not reserved by its end. -/
theorem Lowers.unreserved {e : Expr} {d n T l code T'}
    (h : Lowers e d n T l code T') (hT : T.Sound) (hd : T.Aims d)
    (pool : List Value) (σ : Store) {k : Nat} (hk : T'.locals.length ≤ k) :
    (exec pool code σ).store (.localVar k) = σ (.localVar k) := by
  refine exec_unchanged fun hmem => ?_
  have hg := (h.grows hT).2.length_le
  generalize hl : Location.localVar (k : Int) = l at hmem
  cases h.footprint hT _ hmem with
  | destination hdst =>
      rcases hd _ hdst with ⟨j, hj, rfl⟩ | ⟨j, rfl⟩
      · have := Location.localVar_inj hl
        omega
      · cases hl
  | temporary => cases hl
  | reserved hle hlt =>
      have := Location.localVar_inj hl
      omega
  | assigned hj hx =>
      have := (List.getElem?_eq_some_iff.mp hj).1
      have := Location.localVar_inj hl
      omega

/-- A stop in the first of two parts. -/
theorem StopsAt.first {T T₁ T₂ : Tables} {d₁ d : Option Location} {σ σ' : Store}
    {s : Stop} (h : StopsAt T T₁ d₁ σ σ' s) (hg : T₁.Grows T₂)
    (hd : ∀ k : Nat, d₁ = some (.localVar k) → d = d₁)
    (hσ : ∀ k : Nat, T₁.locals.length ≤ k → σ' (.localVar k) = σ (.localVar k)) :
    StopsAt T T₂ d σ σ' s where
  held hx := by
    obtain ⟨k, hk, hvis, hval⟩ := h.held hx
    exact ⟨k, hg.local_mono hk, hvis, fun ha hne => hval ha fun heq =>
      hne ((hd k heq).trans heq)⟩
  untouched := by
    intro x k hk hle hnone hdef
    by_cases hlt : k < T₁.locals.length
    · exact h.untouched (hg.local_of_lt hk hlt) hle hnone hdef
    · exact hσ k (by omega)

/-- A stop in the second of two parts: what the first one reserved is bound by
then. -/
theorem StopsAt.second {T T₁ T₂ : Tables} {d₁ d : Option Location}
    {σ σ₁ σ' : Store} {s : Stop} {env₁ : Env} {d₀ : Option Location}
    (h : StopsAt T₁ T₂ d₁ σ₁ σ' s) (hg : T.Grows T₁) (hg₂ : T₁.Grows T₂)
    (hd : ∀ k : Nat, d₁ = some (.localVar k) → d = d₁)
    (hagree : Agrees T₁ σ₁ env₁ d₀)
    (hkeeps : ∀ x, (env₁ x).isSome → (s.env x).isSome)
    (hσ : ∀ k : Nat, T₁.locals.length ≤ k → σ₁ (.localVar k) = σ (.localVar k)) :
    StopsAt T T₂ d σ σ' s where
  held hx := by
    obtain ⟨k, hk, hvis, hval⟩ := h.held hx
    refine ⟨k, hk, ?_, fun ha hne => hval ha fun heq =>
      hne ((hd k heq).trans heq)⟩
    rcases hvis with hvis | hle
    · exact (hg.old hvis).imp id fun hle => by omega
    · exact Or.inr (Nat.le_trans hg.length_le hle)
  untouched := by
    intro x k hk hle hnone hdef
    by_cases hlt : k < T₁.locals.length
    · have hvis := hg.new (hg₂.local_of_lt hk hlt) hle
      obtain ⟨v, hv, -⟩ := hagree.bound hvis
      have := hkeeps x (by rw [hv]; rfl)
      rw [hnone] at this
      cases this
    · rw [h.untouched hk (by omega) hnone hdef, hσ k (by omega)]

/-- A stop at a sum itself, once both operands are there. -/
theorem Agrees.stopsAt {T T' : Tables} {σ σ' : Store} {env : Env}
    {d' d : Option Location} (h : Agrees T' σ' env d') (hT' : T'.Sound)
    (hg : T.Grows T') (hd : ∀ k : Nat, d' = some (.localVar k) → d = d')
    (v : Value) :
    StopsAt T T' d σ σ' { value := v, env := env } where
  held := by
    intro x w hx
    cases hlook : T'.visible.lookup x with
    | none => cases (h.unbound hlook).symm.trans hx
    | some r =>
        obtain ⟨u, hu, hval⟩ := h.bound hlook
        obtain ⟨k, rfl, hk⟩ := hT'.named hlook
        obtain rfl : u = w := Option.some.inj (hu.symm.trans hx)
        refine ⟨k, hk, (hg.old hlook).imp id fun hle => by omega, fun _ hne =>
          hval fun heq => ?_⟩
        exact hne ((hd k heq).trans heq)
  untouched := by
    intro x k hk hle hnone _
    obtain ⟨u, hu, -⟩ := h.bound (hg.new hk hle)
    cases hu.symm.trans hnone

/-! ## The operands of a sum -/

theorem rightScope_ne {left : Location} {m : Nat} (h : left ≠ .temporary m)
    (dst : Location) :
    some (rightScope left dst m).1 ≠ some left := by
  rw [rightScope]
  split
  · exact fun heq => h (Option.some.inj heq).symm
  · exact fun heq => ‹¬left = dst› (Option.some.inj heq).symm

/-- The code that keeps a left operand has its value at the new place, and
touches one temporary. -/
theorem Kept.exec {later : Expr} {n m : Nat} {T : Tables} {a a' : Location}
    {code : List Pending} (h : Kept later n T a a' m code) (pool : List Value)
    (σ : Store) :
    ∃ σ', Lowering.exec pool code σ = .done σ' ∧ σ'.read pool a' = σ.read pool a
      ∧ ∀ l, l ≠ .temporary n → σ' l = σ l := by
  cases h with
  | held => exact ⟨σ, rfl, rfl, fun _ _ => rfl⟩
  | inPlace => exact ⟨σ, rfl, rfl, fun _ _ => rfl⟩
  | copied => exact ⟨_, rfl, σ.set_self _ _, fun l hl => σ.set_of_ne hl _⟩

/-- A temporary that is taken is out of reach for the right operand. -/
theorem taken_safe (names : List String) (n : Nat) (T T' : Tables)
    (dst : Location) :
    ¬Footprint names (some (rightScope (.temporary n) dst (n + 1)).1)
      (rightScope (.temporary n) dst (n + 1)).2 T T' (.temporary n) := by
  have hne : Location.temporary (n : Int) ≠ .temporary ((n + 1 : Nat) : Int) := by
    simp only [Location.temporary, ne_eq, Location.mk.injEq, true_and]
    omega
  intro hf
  generalize hl : Location.temporary (n : Int) = l at hf
  cases hf with
  | destination h =>
      subst hl
      exact rightScope_ne hne dst h
  | @temporary k h =>
      have hle := Nat.le_trans (le_rightScope (.temporary k) dst (n + 1)) h
      simp only [Location.temporary, Location.mk.injEq, true_and] at hl
      omega
  | reserved => cases hl
  | assigned => cases hl

/-- The place where a left operand is kept is out of reach for the right
operand. -/
theorem Kept.safe {later : Expr} {n m : Nat} {T T' : Tables} {a a' : Location}
    {code : List Pending} (h : Kept later n T a a' m code)
    (ha : Answer (some (.temporary n)) (n + 1) T a) (hT : T.Sound)
    (hg : T.Grows T') (dst : Location) :
    ¬Footprint later.assigned (some (rightScope a' dst m).1)
      (rightScope a' dst m).2 T T' a' := by
  cases h with
  | held => exact taken_safe _ _ _ _ _
  | copied => exact taken_safe _ _ _ _ _
  | inPlace hne hsafe =>
      have hdst := rightScope_ne hne dst
      generalize rightScope a dst n = scope at hdst
      intro hf
      cases ha with
      | destination h => exact hne (Option.some.inj h).symm
      | temporary h => cases h
      | constant hi =>
          generalize hl : Location.constant _ = l at hf hdst
          cases hf with
          | destination h => exact hdst h
          | temporary => cases hl
          | reserved => cases hl
          | assigned => cases hl
      | visible hx =>
          obtain ⟨j, rfl, hj⟩ := hT.named hx
          have hlt := (List.getElem?_eq_some_iff.mp hj).1
          generalize hl : Location.localVar (j : Int) = l at hf hdst
          cases hf with
          | destination h => exact hdst h
          | temporary => cases hl
          | reserved hle _ =>
              have := Location.localVar_inj hl
              omega
          | @assigned k y hk hy =>
              obtain rfl := Location.localVar_inj hl
              exact hsafe ⟨rfl, y,
                by rw [← hg.local_of_lt hk hlt]; exact signedGet?_natCast _ _, hy⟩

theorem realizes_add {l r : Expr} {dst : Location} {n : Nat} {T T₁ T₂ : Tables}
    {a a' b : Location} {m : Nat} {code₁ code₂ code₃ : List Pending}
    {pool : List Value} {σ : Store} {env : Env}
    (hl : Lowers l (some (.temporary n)) (n + 1) T a code₁ T₁)
    (hk : Kept r n T₁ a a' m code₂) (hr : Lowers r
      (some (rightScope a' dst m).1) (rightScope a' dst m).2 T₁ b code₃ T₂)
    (hT : T.Sound) (hdst : T.IsRegister dst)
    (ihl : Realizes pool (some (.temporary n)) T T₁ σ a (exec pool code₁ σ)
      (l.evaluate (Value.shared pool) env))
    (ihr : ∀ {σ env}, Agrees T₁ σ env none →
      Realizes pool (some (rightScope a' dst m).1) T₁ T₂ σ b (exec pool code₃ σ)
        (r.evaluate (Value.shared pool) env)) :
    Realizes pool (some dst) T T₂ σ dst
      (exec pool (code₁ ++ code₂ ++ code₃ ++ [⟨.add, [dst, a', b]⟩]) σ)
      ((Expr.add l r).evaluate (Value.shared pool) env) := by
  obtain ⟨hT₁, hg₁⟩ := hl.grows hT
  obtain ⟨hT₂, hg₂⟩ := hr.grows hT₁
  have hunres₁ : ∀ k : Nat, T₁.locals.length ≤ k →
      (exec pool code₁ σ).store (.localVar k) = σ (.localVar k) := fun k =>
    hl.unreserved hT (T.isRegister_temporary n).aims pool σ
  have hrd : ∀ k : Nat,
      some (rightScope a' dst m).1 = some (Location.localVar k) →
      some dst = some (rightScope a' dst m).1 := by
    intro k hk
    rw [rightScope] at hk ⊢
    split at hk
    · cases hk
    · rw [if_neg ‹_›]
  rw [Expr.evaluate]
  generalize hx₁ : exec pool code₁ σ = halt₁ at ihl hunres₁
  generalize l.evaluate (Value.shared pool) env = result₁ at ihl
  cases ihl with
  | stop hstop =>
      rw [List.append_assoc, List.append_assoc, exec_append_stuck hx₁]
      exact .stop (hstop.first hg₂ (fun k h => by cases h) hunres₁)
  | @value σ₁ env₁ hagree₁ =>
      dsimp only
      obtain ⟨σ₂, hx₂, hread₂, hsame₂⟩ := hk.exec pool σ₁
      have hlocal₂ : ∀ k : Int, σ₂ (.localVar k) = σ₁ (.localVar k) :=
        fun k => hsame₂ _ (by simp [Location.localVar, Location.temporary])
      have hagree₂ : Agrees T₁ σ₂ env₁ none :=
        hagree₁.of_temporary.congr fun _ h => ⟨h, hlocal₂ _⟩
      have hright := ihr hagree₂
      have hkeeps := Expr.evaluate_keeps (Value.shared pool) r env₁
      have hleft : (exec pool code₃ σ₂).store.read pool a' = σ₁.read pool a := by
        rw [← hread₂]
        refine Store.read_congr (exec_unchanged fun hmem => ?_)
        exact hk.safe (hl.answer hT) hT₁ hg₂ dst (hr.footprint hT₁ _ hmem)
      have hx₁₂ : exec pool (code₁ ++ code₂) σ = .done σ₂ :=
        (exec_append_done hx₁).trans hx₂
      generalize hx₃ : exec pool code₃ σ₂ = halt₃ at hright hleft
      generalize r.evaluate (Value.shared pool) env₁ = result₂ at hright hkeeps
      cases hright with
      | stop hstop =>
          rw [List.append_assoc, exec_append_done hx₁₂, exec_append_stuck hx₃]
          refine .stop (hstop.second hg₁ hg₂ hrd hagree₂ hkeeps fun k hk => ?_)
          rw [hlocal₂]
          exact hunres₁ k hk
      | @value σ₃ env₂ hagree₃ =>
          rw [exec_append_done ((exec_append_done hx₁₂).trans hx₃)]
          rw [exec_add, show σ₃.read pool a' = σ₁.read pool a from hleft]
          dsimp only
          cases (σ₁.read pool a).sum (σ₃.read pool b) with
          | ok v =>
              have hv : (σ₃.set dst v).read pool dst = v := by
                rw [Store.read_of_isRegister hdst, Store.set_self]
              have hagree₄ : Agrees T₂ (σ₃.set dst v) env₂ (some dst) := by
                refine hagree₃.congr fun hx hne => ⟨fun heq => ?_,
                  σ₃.set_of_ne (fun heq => hne (congrArg some heq.symm)) v⟩
                obtain ⟨k, rfl, -⟩ := hT₂.named hx
                exact hne ((hrd k heq).trans heq)
              have hval :
                  Realizes pool (some dst) T T₂ σ dst (.done (σ₃.set dst v))
                    (.ok ((σ₃.set dst v).read pool dst, env₂)) := .value hagree₄
              rwa [hv] at hval
          | error v => exact .stop (hagree₃.stopsAt hT₂ (hg₁.trans hg₂) hrd v)

/-! ## Every tree -/

/-- A value that nobody asked for anywhere: its temporary is no exception to the
agreement. -/
theorem Realizes.of_temporary {pool : List Value} {k : Int} {T T' : Tables}
    {σ : Store} {l : Location} {halt : Halt}
    {result : Except Failure (Value × Env)}
    (h : Realizes pool (some (.temporary k)) T T' σ l halt result) :
    Realizes pool none T T' σ l halt result := by
  cases h with
  | value hagree => exact .value hagree.of_temporary
  | stop hstop =>
      refine .stop ⟨fun hx => ?_, hstop.untouched⟩
      obtain ⟨k, hk, hvis, hval⟩ := hstop.held hx
      exact ⟨k, hk, hvis, fun ha _ => hval ha fun h => by cases h⟩

theorem realizes_define {x : String} {e : Expr} {d : Option Location}
    {T T₁ : Tables} {a : Location} {code : List Pending} {pool : List Value}
    {σ : Store} {env : Env} (hT : T.Sound) (hx : x ∉ T.locals) (hT₁ : T₁.Sound)
    (hg : (T.reserve x).Grows T₁) (ih : Realizes pool
      (some (.localVar T.locals.length)) (T.reserve x) T₁ σ a (exec pool code σ)
        (e.evaluate (Value.shared pool) env)) :
    Realizes pool d T (T₁.declare x T.locals.length) σ (.localVar T.locals.length)
      (exec pool (code ++ copyCode a (.localVar T.locals.length)) σ)
      ((Expr.define x e).evaluate (Value.shared pool) env) := by
  have hreg := Tables.isRegister_local hg.reserved
  rw [Expr.evaluate]
  generalize hrun : exec pool code σ = halt at ih
  generalize e.evaluate (Value.shared pool) env = result at ih
  cases ih with
  | @value σ₁ env₁ hagree =>
      obtain ⟨σ₂, hcopy, hval, hsame⟩ := exec_copyCode hreg pool a σ₁
      rw [exec_append_done hrun, hcopy]
      dsimp only
      rw [← hval]
      exact .value
        (hagree.bind hT₁ hg.reserved (fun y => T₁.lookup_declare x y _) hsame d)
  | @stop σ₁ s hstop =>
      rw [exec_append_stuck hrun]
      refine Realizes.stop (s := { s with defining := x :: s.defining })
        ⟨fun {y w} hy => ?_, ?_⟩
      · obtain ⟨k, hk, hvis, hval⟩ := hstop.held hy
        -- the name being defined is reserved, but neither visible nor new to
        -- its own initializer
        have hne : y ≠ x := by
          rintro rfl
          obtain rfl := hT₁.local_inj hk hg.reserved
          rcases hvis with hvis | hle
          · obtain ⟨j, -, hj⟩ := hT.named hvis
            exact hx (List.mem_of_getElem? hj)
          · simp only [Tables.reserve, List.length_append,
              List.length_singleton] at hle
            omega
        refine ⟨k, hk, hvis.imp id fun hle => ?_, fun ha _ =>
          hval ha fun heq => ?_⟩
        · simp only [Tables.reserve, List.length_append,
            List.length_singleton] at hle
          omega
        · exact Tables.localVar_ne hg.reserved hk hne (Option.some.inj heq).symm
      · intro y k hk hle hnone hdef
        have hne : y ≠ x := fun heq => hdef (heq ▸ List.mem_cons_self ..)
        refine hstop.untouched hk ?_ hnone fun hmem =>
          hdef (List.mem_cons_of_mem _ hmem)
        have hkne : k ≠ T.locals.length := fun heq => by
          subst heq
          exact hne (Option.some.inj (hk.symm.trans hg.reserved))
        simp only [Tables.reserve, List.length_append, List.length_singleton]
        omega

theorem realizes_assign {x : String} {r : Int} {e : Expr} {d : Option Location}
    {T T₁ : Tables} {a : Location} {code : List Pending} {pool : List Value}
    {σ : Store} {env : Env} (hx : T.visible.lookup x = some r) (hT₁ : T₁.Sound)
    (hg : T.Grows T₁)
    (ih : Realizes pool (some (.localVar r)) T T₁ σ a (exec pool code σ)
      (e.evaluate (Value.shared pool) env)) :
    Realizes pool d T T₁ σ (.localVar r)
      (exec pool (code ++ copyCode a (.localVar r)) σ)
        ((Expr.assign x e).evaluate (Value.shared pool) env) := by
  have hx₁ := hg.keeps hx
  obtain ⟨j, rfl, hj⟩ := hT₁.named hx₁
  have hreg := Tables.isRegister_local hj
  rw [Expr.evaluate]
  generalize hrun : exec pool code σ = halt at ih
  generalize e.evaluate (Value.shared pool) env = result at ih
  cases ih with
  | @value σ₁ env₁ hagree =>
      obtain ⟨σ₂, hcopy, hval, hsame⟩ := exec_copyCode hreg pool a σ₁
      obtain ⟨u, hu, -⟩ := hagree.bound hx₁
      rw [exec_append_done hrun, hcopy]
      dsimp only
      rw [hu, Option.isSome_some, if_pos rfl, ← hval]
      refine .value (hagree.bind hT₁ hj (fun y => ?_) hsame d)
      split
      · subst_vars
        exact hx₁
      · rfl
  | @stop σ₁ s hstop =>
      rw [exec_append_stuck hrun]
      refine Realizes.stop (s := { s with assigning := x :: s.assigning })
        ⟨fun {y w} hy => ?_, hstop.untouched⟩
      obtain ⟨k, hk, hvis, hval⟩ := hstop.held hy
      refine ⟨k, hk, hvis, fun ha _ =>
        hval (fun hmem => ha (List.mem_cons_of_mem _ hmem)) ?_⟩
      have hne : y ≠ x := fun heq => ha (heq ▸ List.mem_cons_self ..)
      exact fun heq => Tables.localVar_ne hj hk hne (Option.some.inj heq).symm

/-- **Lowering is correct over stores.** -/
theorem Lowers.realizes {e : Expr} {d n T l code T'}
    (h : Lowers e d n T l code T') (hT : T.Sound) (hd : T.Aims d)
    {pool : List Value} (hpool : T'.constants <+: pool) {σ : Store} {env : Env}
    (hagree : Agrees T σ env none) :
    Realizes pool d T T' σ l (exec pool code σ)
      (e.evaluate (Value.shared pool) env) := by
  induction h generalizing σ env with
  | @constant v d n T =>
      have hval : Realizes pool d T (T.pool v) σ (.constant (T.place v)) (.done σ)
          (.ok (σ.read pool (.constant (T.place v)), env)) :=
        .value ⟨hagree.unbound, (hagree.weaken d).bound⟩
      rw [Tables.read_place hpool] at hval
      exact hval
  | @var x d n T r hx =>
      obtain ⟨v, hv, hval⟩ := hagree.bound hx
      rw [Expr.evaluate, hv, ← hval (by simp)]
      exact .value (hagree.weaken d)
  | @anywhere _ _ n T _ _ _ h ih =>
      exact (ih hT (T.isRegister_temporary n).aims hpool hagree).of_temporary
  | @add l r dst n T a code₁ T₁ a' m code₂ b code₃ T₂ hl hk hr ihl ihr =>
      obtain ⟨hT₁, hg₁⟩ := hl.grows hT
      obtain ⟨hT₂, hg₂⟩ := hr.grows hT₁
      have hdst := hd dst rfl
      have hright := Tables.isRegister_rightScope (hg₁.isRegister hdst) a' m
      exact realizes_add hl hk hr hT hdst
        (ihl hT (T.isRegister_temporary n).aims (hg₂.constants.trans hpool) hagree)
        (ihr hT₁ hright.aims hpool)
  | @define x e d n T a code T₁ hx h ih =>
      obtain ⟨hT₁, hg⟩ := h.grows (hT.reserve hx)
      have hlocal : (T.reserve x).IsRegister (.localVar T.locals.length) :=
        Or.inl ⟨_, by simp [Tables.reserve], rfl⟩
      exact realizes_define hT hx hT₁ hg
        (ih (hT.reserve hx) hlocal.aims hpool ⟨hagree.unbound, hagree.bound⟩)
  | @assign x e d n T r a code T₁ hx h ih =>
      obtain ⟨hT₁, hg⟩ := h.grows hT
      obtain ⟨k, rfl, hk⟩ := hT.named hx
      exact realizes_assign hx hT₁ hg
        (ih hT (Tables.isRegister_local hk).aims hpool hagree)
  | last h ih =>
      rw [Expr.evaluate, Expr.evaluateBlock]
      exact ih hT hd hpool hagree
  | @next e e' es d n T a code T₁ b code' T₂ h hs ih ihs =>
      obtain ⟨hT₁, hg₁⟩ := h.grows hT
      obtain ⟨-, hg₂⟩ := hs.grows hT₁
      have hunres : ∀ k : Nat, T₁.locals.length ≤ k →
          (exec pool code σ).store (.localVar k) = σ (.localVar k) := fun k =>
        h.unreserved hT T.aims_none pool σ
      have hfirst := ih hT T.aims_none (hg₂.constants.trans hpool) hagree
      rw [Expr.evaluate, Expr.evaluateBlock]
      · generalize hrun : exec pool code σ = halt at hfirst hunres
        generalize e.evaluate (Value.shared pool) env = result at hfirst
        cases hfirst with
        | stop hstop =>
            rw [exec_append_stuck hrun]
            exact .stop (hstop.first hg₂ (fun k h => by cases h) hunres)
        | @value σ₁ env₁ hagree₁ =>
            rw [exec_append_done hrun]
            have hrest := ihs hT₁ (hg₁.aims hd) hpool hagree₁
            have hkeeps :=
              Expr.evaluate_keeps (Value.shared pool) (.block (e' :: es)) env₁
            rw [Expr.evaluate] at hrest hkeeps
            generalize exec pool code' σ₁ = halt at hrest
            dsimp only
            generalize Expr.evaluateBlock (Value.shared pool) (e' :: es) env₁
              = result at hrest hkeeps
            cases hrest with
            | value hagree₂ => exact .value hagree₂
            | stop hstop =>
                exact .stop
                  (hstop.second hg₁ hg₂ (fun _ _ => rfl) hagree₁ hkeeps hunres)
      · exact fun h => List.cons_ne_nil _ _ h

end RegisterVm.Lowering
