import Mathlib.Data.List.Induction
import RegisterVm.Proofs.Correspondence

/-!
# What a frame keeps of its tree

The constants of a frame are those of its tree from left to right, *sifted*: a
constant is dropped if one that was kept before equals it. A NaN equals nothing,
so every NaN is kept. The locals are the definitions of the tree in the order in
which they are entered, so that a definition comes before those in its value.

Both tables are filled by many steps of lowering, but each of them goes through
the tree from left to right.
-/

namespace RegisterVm

/-! ## Sifting -/

namespace Value

/-- `Sifted vs kept`: this is kept of `vs` if every value is dropped that one
kept before equals. -/
inductive Sifted : List Value → List Value → Prop where
  | nil : Sifted [] []
  | keep {vs kept : List Value} {v : Value} (h : Sifted vs kept)
      (hnew : ∀ k ∈ kept, k.equals v = false) :
      Sifted (vs ++ [v]) (kept ++ [v])
  | drop {vs kept : List Value} {k v : Value} (h : Sifted vs kept)
      (hk : k ∈ kept)
      (heq : k.equals v = true) : Sifted (vs ++ [v]) kept

theorem addDistinct_of_new {pool : List Value} {v : Value}
    (h : ∀ k ∈ pool, k.equals v = false) :
    addDistinct pool v = pool ++ [v] := by
  have hnone : position? pool v = none := List.findIdx?_eq_none_iff.mpr h
  rw [addDistinct, hnone]
  rfl

theorem addDistinct_of_mem {pool : List Value} {k v : Value} (hk : k ∈ pool)
    (heq : k.equals v = true) :
    addDistinct pool v = pool := by
  have hsome : (position? pool v).isSome = true := by
    rw [position?, List.findIdx?_isSome, List.any_eq_true]
    exact ⟨k, hk, heq⟩
  rw [addDistinct, if_pos hsome]

theorem distinct_concat (vs : List Value) (v : Value) :
    distinct (vs ++ [v]) = addDistinct (distinct vs) v := by
  rw [distinct, List.foldl_append]
  rfl

theorem sifted_distinct (vs : List Value) : Sifted vs (distinct vs) := by
  induction vs using List.reverseRecOn with
  | nil => exact .nil
  | append_singleton vs v ih =>
      rw [distinct_concat]
      by_cases h : ∃ k ∈ distinct vs, k.equals v = true
      · obtain ⟨k, hk, heq⟩ := h
        rw [addDistinct_of_mem hk heq]
        exact ih.drop hk heq
      · have hnew : ∀ k ∈ distinct vs, k.equals v = false := by simpa using h
        rw [addDistinct_of_new hnew]
        exact ih.keep hnew

namespace Sifted

variable {vs kept : List Value}

/-- There is one way to sift. -/
theorem eq_distinct (h : Sifted vs kept) : kept = distinct vs := by
  induction h with
  | nil => rfl
  | keep h hnew ih =>
      subst ih
      rw [distinct_concat, addDistinct_of_new hnew]
  | drop h hk heq ih =>
      subst ih
      rw [distinct_concat, addDistinct_of_mem hk heq]

theorem sublist (h : Sifted vs kept) : kept.Sublist vs := by
  induction h with
  | nil => exact .slnil
  | keep h hnew ih => exact ih.append (.refl _)
  | drop h hk heq ih => exact ih.trans (List.sublist_append_left _ _)

theorem pairwise (h : Sifted vs kept) :
    kept.Pairwise fun u v => u.equals v = false := by
  induction h with
  | nil => exact .nil
  | @keep vs kept v h hnew ih =>
      refine List.pairwise_append.mpr ⟨ih, List.pairwise_singleton _ v, ?_⟩
      intro k hk w hw
      rw [List.mem_singleton.mp hw]
      exact hnew k hk
  | drop h hk heq ih => exact ih

/-- A value that does not equal itself is kept each time, since nothing else
equals it either. -/
theorem count_eq (h : Sifted vs kept) {u : Value} (hu : u.equals u = false) :
    kept.count u = vs.count u := by
  induction h with
  | nil => rfl
  | keep h hnew ih => rw [List.count_append, List.count_append, ih]
  | @drop vs kept k v h hk heq ih =>
      have hne : v ≠ u := by
        rintro rfl
        rw [equals_self_of_equals heq] at hu
        cases hu
      rw [List.count_append, ih, List.count_singleton, beq_false_of_ne hne]
      rfl

end Sifted

end Value

/-! ## The tables of a frame -/

namespace Lowering

theorem generate_of_lower {e : Expr} {f : Frame} (h : lower e = .ok f) :
    ∃ l c, generate e Context.empty = .ok l c ∧ f.constants = c.constants
      ∧ f.locals = c.locals := by
  rw [lower] at h
  split at h
  · rename_i l c hgen
    obtain ⟨hconstants, hlocals⟩ := Context.frame_tables h
    exact ⟨l, c, hgen, hconstants, hlocals⟩
  · cases h

theorem generate_constants {e : Expr} {l : Location} {c : Context}
    (h : generate e Context.empty = .ok l c) :
    c.constants = Value.distinct e.constants := by
  obtain ⟨code, T, hlow, rfl⟩ := generate_lowers e h
  exact hlow.constants_eq

theorem generate_tracks {e : Expr} {l : Location} {c : Context}
    (h : generate e Context.empty = .ok l c) : Tracks e.visits c.tables := by
  have hjudged :=
    generate_follows e [] Context.empty ⟨Tables.Sound.empty, rfl, rfl⟩
  rw [h] at hjudged
  cases hjudged with
  | ok hnone htracks => exact htracks

/-- The constants of a frame are those of the tree, sifted: no two of them are
equal, none is from elsewhere, and no NaN is missing. The locals are the names
of the definitions in the order in which these are entered, each once. -/
theorem lower_tables {e : Expr} {f : Frame} (h : lower e = .ok f) :
    (∀ kept, Value.Sifted e.constants kept ↔ kept = f.constants)
      ∧ f.constants.Pairwise (fun u v => u.equals v = false)
      ∧ f.constants.Sublist e.constants
      ∧ f.constants.count (.number .nan) = e.constants.count (.number .nan)
      ∧ f.locals = begun e.visits
      ∧ f.locals.Nodup := by
  obtain ⟨l, c, hgen, hconstants, hlocals⟩ := generate_of_lower h
  have htracks := generate_tracks hgen
  have hpool : f.constants = Value.distinct e.constants :=
    hconstants.trans (generate_constants hgen)
  have hsifted : Value.Sifted e.constants f.constants := by
    rw [hpool]
    exact Value.sifted_distinct e.constants
  refine ⟨fun kept => ⟨fun hkept => ?_, fun hkept => hkept ▸ hsifted⟩,
    hsifted.pairwise, hsifted.sublist, hsifted.count_eq rfl,
    hlocals.trans htracks.locals, ?_⟩
  · rw [hpool]
    exact hkept.eq_distinct
  · rw [hlocals]
    exact htracks.sound.nodup

/-- A definition in the value of another one, then constants that the pool has:
`x := { y := 0; NaN }`, `y = -0` and `z := NaN`. -/
def definesInside : Expr :=
  .block [
    .define "x" (.block [.define "y" (.constant (.number (.zero false))),
      .constant (.number .nan)]),
    .assign "y" (.constant (.number (.zero true))),
    .define "z" (.constant (.number .nan))]

theorem lower_tables_definesInside :
    ∃ f, lower definesInside = .ok f ∧ f.locals = ["x", "y", "z"]
    ∧ f.constants = [.number (.zero false), .number .nan, .number .nan]
    ∧ Value.Sifted [.number (.zero false), .number .nan, .number (.zero true),
      .number .nan] f.constants := by
  have hlower : lower definesInside = .ok
      { size := 3
        constants := [.number (.zero false), .number .nan, .number .nan]
        locals := ["x", "y", "z"]
        code := [.loadConstant 1 (-1), .loadConstant 0 (-2),
          .loadConstant 1 (-1), .loadConstant 2 (-3)]
        result := some 2 } := by with_unfolding_all rfl
  obtain ⟨hsifted, -, -, -, hlocals, -⟩ := lower_tables hlower
  exact ⟨_, hlower, hlocals.trans (by with_unfolding_all rfl), rfl,
    (hsifted _).mpr rfl⟩

end Lowering

end RegisterVm
