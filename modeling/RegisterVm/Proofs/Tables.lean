import RegisterVm.Proofs.Derivation
import RegisterVm.Proofs.Evaluation

/-!
# The tables only grow

Two facts about every derivation from sound tables. The tables stay *sound*: no
local has two registers, and a visible name is the local of its register. And
they *grow*: locals and constants are appended to, a visible name keeps its
register, and the locals that a derivation reserves are all visible at its end.
While a definition is in progress its own local is reserved and not yet visible;
this is the one way in which the two lists differ.

`Lowers.grows` has the induction. What the pool and the list of locals grow to
is said by `Lowers.constants_eq`.
-/

namespace RegisterVm

theorem signedGet?_natCast {α : Type} (xs : List α) (k : Nat) :
    signedGet? xs (k : Int) = xs[k]? := by
  simp [signedGet?]

namespace Lowering

theorem Location.localVar_inj {j k : Nat}
    (h : Location.localVar j = .localVar k) : j = k := by
  simp only [Location.localVar, Location.mk.injEq, true_and] at h
  omega

theorem lookup_map_key (vs : List (String × Int)) (x y : String) (r : Int) :
    (vs.map fun (n, s) => if n = x then (n, r) else (n, s)).lookup y
      = if y = x then (vs.lookup x).map fun _ => r else vs.lookup y := by
  induction vs with
  | nil => simp
  | cons v vs ih =>
      obtain ⟨n, s⟩ := v
      rw [List.map_cons]
      by_cases hn : n = x
      · subst hn
        by_cases hy : y = n
        · simp [hy]
        · simpa [hy, List.lookup_cons, beq_false_of_ne hy] using ih
      · by_cases hy : y = x
        · subst hy
          simpa [hn, List.lookup_cons, beq_false_of_ne (Ne.symm hn)] using ih
        · simp only [hn, hy, if_false, List.lookup_cons] at ih ⊢
          rw [ih]

namespace Tables

theorem lookup_declare (T : Tables) (x y : String) (r : Int) :
    (T.declare x r).visible.lookup y = if y = x then some r else
      T.visible.lookup y := by
  by_cases hx : (T.visible.map Prod.fst).contains x = true
  · have hsome : (T.visible.lookup x).isSome := by
      obtain ⟨⟨n, s⟩, hmem, rfl⟩ := List.mem_map.mp (List.contains_iff_mem.mp hx)
      exact List.lookup_isSome_iff.mpr ⟨(n, s), hmem, by simp⟩
    obtain ⟨s, hs⟩ := Option.isSome_iff_exists.mp hsome
    simp only [declare, hx, if_true]
    rw [lookup_map_key, hs, Option.map_some]
  · have hnone : T.visible.lookup x = none := by
      rw [List.lookup_eq_none_iff]
      rintro ⟨n, s⟩ hmem
      simp only [List.contains_iff_mem, List.mem_map, not_exists, not_and] at hx
      simpa using fun h : x = n => hx (n, s) hmem h.symm
    simp only [declare, hx]
    by_cases hy : y = x
    · simp [hy, List.lookup_append, hnone]
    · simp [hy, List.lookup_append, List.lookup_cons, beq_false_of_ne hy]

/-- Two names are at two registers. -/
theorem localVar_ne {T : Tables} {x y : String} {j k : Nat}
    (hj : T.locals[j]? = some x) (hk : T.locals[k]? = some y) (hne : y ≠ x) :
    Location.localVar k ≠ .localVar j := by
  intro heq
  obtain rfl := Location.localVar_inj heq
  exact hne (Option.some.inj (hk.symm.trans hj))

/-! ## Soundness -/

structure Sound (T : Tables) : Prop where
  nodup : T.locals.Nodup
  named : ∀ {x r}, T.visible.lookup x = some r →
    ∃ k : Nat, r = k ∧ T.locals[k]? = some x

theorem Sound.empty : Sound {} := ⟨List.nodup_nil, fun h => by cases h⟩

/-- A name has one place among the locals. -/
theorem Sound.local_inj {T : Tables} (hT : T.Sound) {x : String} {j k : Nat}
    (hj : T.locals[j]? = some x) (hk : T.locals[k]? = some x) : j = k := by
  obtain ⟨hlt, -⟩ := List.getElem?_eq_some_iff.mp hj
  exact List.getElem?_inj hlt hT.nodup |>.mp (hj.trans hk.symm)

theorem Sound.pool {T : Tables} (hT : T.Sound) (v : Value) : (T.pool v).Sound :=
  ⟨hT.nodup, hT.named⟩

theorem Sound.reserve {T : Tables} (hT : T.Sound) {x : String}
    (hx : x ∉ T.locals) :
    (T.reserve x).Sound where
  nodup := by
    rw [Tables.reserve, List.nodup_append]
    refine ⟨hT.nodup, by simp, ?_⟩
    rintro y hy z hz rfl
    exact hx (List.mem_singleton.mp hz ▸ hy)
  named h := by
    obtain ⟨k, rfl, hk⟩ := hT.named h
    exact ⟨k, rfl, by
      rw [Tables.reserve,
        List.getElem?_append_left (List.getElem?_eq_some_iff.mp hk).1]
      exact hk⟩

theorem Sound.declare {T : Tables} (hT : T.Sound) {x : String} {k : Nat}
    (hk : T.locals[k]? = some x) : (T.declare x k).Sound where
  nodup := hT.nodup
  named := by
    intro y r h
    rw [lookup_declare] at h
    split at h
    · subst_vars
      obtain rfl := Option.some.inj h
      exact ⟨k, rfl, hk⟩
    · exact hT.named h

/-! ## Growth -/

structure Grows (T T' : Tables) : Prop where
  locals : T.locals <+: T'.locals
  constants : T.constants <+: T'.constants
  keeps : ∀ {x r}, T.visible.lookup x = some r → T'.visible.lookup x = some r
  /-- A name that is not visible before is a local reserved since. -/
  old : ∀ {x r}, T'.visible.lookup x = some r →
    T.visible.lookup x = some r ∨ (T.locals.length : Int) ≤ r
  /-- The locals reserved since are visible. -/
  new : ∀ {x k}, T'.locals[k]? = some x → T.locals.length ≤ k →
    T'.visible.lookup x = some (k : Int)

theorem Grows.length_le {T T' : Tables} (h : T.Grows T') :
    T.locals.length ≤ T'.locals.length :=
  h.locals.length_le

theorem Grows.local_mono {T T' : Tables} (h : T.Grows T') {x : String} {k : Nat}
    (hk : T.locals[k]? = some x) : T'.locals[k]? = some x := by
  obtain ⟨rest, hrest⟩ := h.locals
  rw [← hrest, List.getElem?_append_left (List.getElem?_eq_some_iff.mp hk).1]
  exact hk

theorem Grows.local_of_lt {T T' : Tables} (h : T.Grows T') {x : String} {k : Nat}
    (hk : T'.locals[k]? = some x) (hlt : k < T.locals.length) :
    T.locals[k]? = some x := by
  obtain ⟨rest, hrest⟩ := h.locals
  rw [← hrest, List.getElem?_append_left hlt] at hk
  exact hk

theorem Grows.refl (T : Tables) : T.Grows T where
  locals := List.prefix_refl _
  constants := List.prefix_refl _
  keeps h := h
  old h := Or.inl h
  new hk hle := absurd (List.getElem?_eq_some_iff.mp hk).1 (Nat.not_lt.mpr hle)

theorem Grows.trans {T T₁ T₂ : Tables} (h : T.Grows T₁) (h' : T₁.Grows T₂) :
    T.Grows T₂ where
  locals := h.locals.trans h'.locals
  constants := h.constants.trans h'.constants
  keeps hx := h'.keeps (h.keeps hx)
  old hx := by
    have hle := h.length_le
    rcases h'.old hx with hx₁ | hr
    · exact h.old hx₁
    · exact Or.inr (by omega)
  new := by
    intro x k hk hle
    by_cases hlt : k < T₁.locals.length
    · exact h'.keeps (h.new (h'.local_of_lt hk hlt) hle)
    · exact h'.new hk (by omega)

theorem Grows.pool (T : Tables) (v : Value) : T.Grows (T.pool v) where
  locals := List.prefix_refl _
  constants := by
    simp only [Tables.pool, Value.addDistinct]
    split
    · exact List.prefix_refl _
    · exact List.prefix_append _ _
  keeps h := h
  old h := Or.inl h
  new hk hle := absurd (List.getElem?_eq_some_iff.mp hk).1 (Nat.not_lt.mpr hle)

/-- A reserved local is found at its register for good. -/
theorem Grows.reserved {T T₁ : Tables} {x : String}
    (h : (T.reserve x).Grows T₁) :
    T₁.locals[T.locals.length]? = some x :=
  h.local_mono (by simp [reserve])

theorem Grows.define {T T₁ : Tables} {x : String} (hT : T.Sound)
    (hx : x ∉ T.locals) (hT₁ : T₁.Sound) (h : (T.reserve x).Grows T₁) :
    T.Grows (T₁.declare x T.locals.length) where
  locals := (List.prefix_append _ _).trans h.locals
  constants := h.constants
  keeps := by
    intro y r hy
    obtain ⟨k, -, hk⟩ := hT.named hy
    have hne : y ≠ x := fun heq => hx (heq ▸ List.mem_of_getElem? hk)
    rw [lookup_declare, if_neg hne]
    exact h.keeps hy
  old := by
    intro y r hy
    rw [lookup_declare] at hy
    split at hy
    · obtain rfl := Option.some.inj hy
      exact Or.inr (Int.le_refl _)
    · refine (h.old hy).imp id fun hr => ?_
      simp only [reserve, List.length_append, List.length_singleton] at hr
      omega
  new := by
    intro y k hk hle
    have hk₁ : T₁.locals[k]? = some y := hk
    rw [lookup_declare]
    by_cases heq : y = x
    · subst heq
      rw [if_pos rfl, hT₁.local_inj hk₁ h.reserved]
    · have hkne : k ≠ T.locals.length := fun hkl => by
        rw [hkl, h.reserved] at hk₁
        exact heq (Option.some.inj hk₁).symm
      rw [if_neg heq]
      exact h.new hk₁
        (by simp only [reserve, List.length_append, List.length_singleton]; omega)

end Tables

/-! ## Every derivation -/

theorem Lowers.grows {e : Expr} {d n T l code T'} (h : Lowers e d n T l code T')
    (hT : T.Sound) :
    T'.Sound ∧ T.Grows T' := by
  induction h with
  | constant => exact ⟨hT.pool _, .pool _ _⟩
  | var hx => exact ⟨hT, .refl _⟩
  | anywhere h ih => exact ih hT
  | add hl hk hr ihl ihr =>
      obtain ⟨hT₁, hg₁⟩ := ihl hT
      obtain ⟨hT₂, hg₂⟩ := ihr hT₁
      exact ⟨hT₂, hg₁.trans hg₂⟩
  | define hx h ih =>
      obtain ⟨hT₁, hg⟩ := ih (hT.reserve hx)
      exact ⟨hT₁.declare hg.reserved, .define hT hx hT₁ hg⟩
  | assign hx h ih => exact ih hT
  | last h ih => exact ih hT
  | next h hs ih ihs =>
      obtain ⟨hT₁, hg₁⟩ := ih hT
      obtain ⟨hT₂, hg₂⟩ := ihs hT₁
      exact ⟨hT₂, hg₁.trans hg₂⟩

/-- The pool takes in the constants of the tree from left to right. -/
theorem Lowers.constants_eq {e : Expr} {d n T l code T'}
    (h : Lowers e d n T l code T') :
    T'.constants = e.constants.foldl Value.addDistinct T.constants := by
  induction h with
  | constant => simp [Expr.constants, Tables.pool]
  | var hx => simp [Expr.constants]
  | anywhere h ih => exact ih
  | add hl hk hr ihl ihr => rw [Expr.constants, List.foldl_append, ← ihl, ihr]
  | define hx h ih => rw [Expr.constants]; exact ih
  | assign hx h ih => rw [Expr.constants]; exact ih
  | last h ih => simpa [Expr.constants, Expr.constantsAll] using ih
  | next h hs ih ihs =>
      rw [Expr.constants, Expr.constantsAll, List.foldl_append, ← ih]
      simpa only [Expr.constants] using ihs

end Lowering

end RegisterVm
