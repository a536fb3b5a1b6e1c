import Mathlib.Data.List.Induction
import Mathlib.Data.List.Nodup
import RegisterVm.Expr
import RegisterVm.Lowering.Context

/-!
# The way through a tree

A tree is gone through from left to right, and every node of it is visited
twice: it is *entered* before its parts and *left* after them. What is wrong
with a tree shows when a node is entered, and depends on the visits before: a
definition must not have the name of one that was entered, also if that is still
in progress, and a variable can be used or assigned to once a definition of it
was left. Empty blocks and nodes of an unknown kind are always wrong.

`firstOffence` is the first thing wrong on the way. That there is none is the
same as four conditions on the whole tree (`Expr.scoped_iff`).
-/

namespace RegisterVm

open Lowering (Rejection)

/-! ## Visits -/

inductive Visit where
  | enter (node : Expr)
  | leave (node : Expr)

namespace Visit

/-- The name of a definition that is entered. -/
def begins? : Visit → Option String
  | .enter (.define x _) => some x
  | _ => none

/-- The name of a definition that is left. -/
def completes? : Visit → Option String
  | .leave (.define x _) => some x
  | _ => none

end Visit

/-- The names of the definitions that were entered, in order. -/
def begun (visits : List Visit) : List String := visits.filterMap Visit.begins?

/-- The names of the definitions that were left, in order. -/
def completed (visits : List Visit) : List String :=
  visits.filterMap Visit.completes?

@[simp] theorem begun_append (vs ws : List Visit) :
    begun (vs ++ ws) = begun vs ++ begun ws :=
  List.filterMap_append

@[simp] theorem completed_append (vs ws : List Visit) :
    completed (vs ++ ws) = completed vs ++ completed ws :=
  List.filterMap_append

namespace Expr

/-- The visits of a node, given those of its parts. -/
def around (node : Expr) (parts : List Visit) : List Visit :=
  .enter node :: (parts ++ [.leave node])

mutual

/-- The way through a tree. -/
def visits : Expr → List Visit
  | .constant v => around (.constant v) []
  | .add l r => around (.add l r) (l.visits ++ r.visits)
  | .define x e => around (.define x e) e.visits
  | .var x => around (.var x) []
  | .assign x e => around (.assign x e) e.visits
  | .block body => around (.block body) (visitsAll body)
  | .other kind => around (.other kind) []

def visitsAll : List Expr → List Visit
  | [] => []
  | e :: es => e.visits ++ visitsAll es

end

/-- The variable that a node uses or assigns to. -/
def uses? : Expr → Option String
  | .var x => some x
  | .assign x _ => some x
  | _ => none

/-! ## Offences -/

/-- What is wrong with a node that is entered after some visits. -/
def offence? (before : List Visit) : Expr → Option Rejection
  | .define x _ =>
      if x ∈ begun before then some (.alreadyDefined x (begun before)) else none
  | .var x =>
      if x ∈ completed before then none
      else some (.notDefined x (completed before))
  | .assign x _ =>
      if x ∈ completed before then none
      else some (.notDefined x (completed before))
  | .block [] => some .emptyBlock
  | .other kind => some (.unknownNode kind)
  | _ => none

end Expr

/-- What is wrong at a visit, which can only be so when a node is entered. -/
def Visit.offence? (before : List Visit) : Visit → Option Rejection
  | .enter node => node.offence? before
  | .leave _ => none

/-- The first thing wrong on a way that goes on after some visits. -/
def firstOffence (before : List Visit) : List Visit → Option Rejection
  | [] => none
  | v :: vs => (v.offence? before).or (firstOffence (before ++ [v]) vs)

theorem firstOffence_append (before vs ws : List Visit) :
    firstOffence before (vs ++ ws)
      = (firstOffence before vs).or (firstOffence (before ++ vs) ws) := by
  induction vs generalizing before with
  | nil => simp [firstOffence]
  | cons v vs ih =>
      rw [List.cons_append, firstOffence, firstOffence, ih, Option.or_assoc,
        List.append_assoc]
      rfl

theorem firstOffence_eq_none_iff {before vs : List Visit} :
    firstOffence before vs = none ↔
    ∀ p v q, vs = p ++ v :: q → v.offence? (before ++ p) = none := by
  constructor
  · rintro h p v q rfl
    rw [firstOffence_append, Option.or_eq_none_iff, firstOffence,
      Option.or_eq_none_iff] at h
    exact h.2.1
  · intro h
    induction vs using List.reverseRecOn with
    | nil => rfl
    | append_singleton vs v ih =>
        rw [firstOffence_append, ih fun p w q hvs =>
          h p w (q ++ [v]) (by simp [hvs])]
        simpa [firstOffence] using h vs v [] rfl

/-- The first offence is at a visit with none before. -/
theorem firstOffence_eq_some {before vs : List Visit} {r : Rejection}
    (h : firstOffence before vs = some r) :
    ∃ p v q, vs = p ++ v :: q ∧ v.offence? (before ++ p) = some r
      ∧ firstOffence before p = none := by
  induction vs generalizing before with
  | nil => cases h
  | cons v vs ih =>
      rw [firstOffence, Option.or_eq_some_iff] at h
      rcases h with hv | ⟨hv, h⟩
      · exact ⟨[], v, vs, rfl, by simpa using hv, rfl⟩
      · obtain ⟨p, w, q, rfl, hw, hp⟩ := ih h
        refine ⟨v :: p, w, q, rfl, by simpa using hw, ?_⟩
        rw [firstOffence, hv, hp]
        rfl

/-! ## Scoped trees -/

/-- No block is empty, no node is of an unknown kind, no two definitions have
one name, and a variable is used or assigned to only after a definition of it
was left. -/
structure Expr.Scoped (e : Expr) : Prop where
  nonempty : .enter (.block []) ∉ e.visits
  known : ∀ kind, .enter (.other kind) ∉ e.visits
  distinct : (begun e.visits).Nodup
  defined : ∀ p node q x, e.visits = p ++ .enter node :: q →
    node.uses? = some x → x ∈ completed p

theorem nodup_begun {vs : List Visit}
    (h : ∀ p v q x, vs = p ++ v :: q → v.begins? = some x → x ∉ begun p) :
    (begun vs).Nodup := by
  induction vs using List.reverseRecOn with
  | nil => exact List.nodup_nil
  | append_singleton vs v ih =>
      have hvs := ih fun p w q x hsplit => h p w (q ++ [v]) x (by simp [hsplit])
      rw [begun_append]
      cases hv : v.begins? with
      | none => simpa [begun, hv] using hvs
      | some x =>
          have hx := h vs v [] x rfl hv
          have hsingle : begun [v] = [x] := by simp [begun, hv]
          rw [hsingle]
          refine List.nodup_append.mpr ⟨hvs, List.nodup_singleton x, ?_⟩
          rintro y hy z hz rfl
          exact hx (List.mem_singleton.mp hz ▸ hy)

namespace Expr

theorem Scoped.firstOffence_eq_none {e : Expr} (h : e.Scoped) :
    firstOffence [] e.visits = none := by
  rw [firstOffence_eq_none_iff]
  intro p v q hsplit
  have hmem : v ∈ e.visits := by simp [hsplit]
  cases v with
  | leave node => rfl
  | enter node =>
      rw [List.nil_append, Visit.offence?]
      cases node with
      | constant v => rfl
      | add l r => rfl
      | define x e' =>
          have hnodup := h.distinct
          rw [hsplit, begun_append] at hnodup
          have hx : x ∉ begun p := fun hx =>
            (List.nodup_append.mp hnodup).2.2 x hx x (List.mem_cons_self ..) rfl
          rw [offence?, if_neg hx]
      | var x => rw [offence?, if_pos (h.defined p _ q x hsplit rfl)]
      | assign x e' => rw [offence?, if_pos (h.defined p _ q x hsplit rfl)]
      | block body =>
          cases body with
          | nil => exact absurd hmem h.nonempty
          | cons e' es => rfl
      | other kind => exact absurd hmem (h.known kind)

theorem scoped_of_firstOffence {e : Expr} (h : firstOffence [] e.visits = none) :
    e.Scoped := by
  have hnone : ∀ p node q, e.visits = p ++ .enter node :: q →
      node.offence? p = none :=
    fun p node q hsplit => firstOffence_eq_none_iff.mp h p (.enter node) q hsplit
  have hentered : ∀ node, .enter node ∈ e.visits →
      ∃ p, node.offence? p = none := by
    intro node hmem
    obtain ⟨p, q, hsplit⟩ := List.append_of_mem hmem
    exact ⟨p, hnone p node q hsplit⟩
  refine ⟨fun hmem => ?_, fun kind hmem => ?_, nodup_begun ?_, ?_⟩
  · obtain ⟨p, hp⟩ := hentered _ hmem
    cases hp
  · obtain ⟨p, hp⟩ := hentered _ hmem
    cases hp
  · rintro p v q x hsplit hv hx
    rw [Visit.begins?.eq_def] at hv
    split at hv
    · rename_i y e'
      cases hv
      have hp := hnone p _ q hsplit
      rw [offence?, if_pos hx] at hp
      cases hp
    · cases hv
  · intro p node q x hsplit hx
    by_contra hundefined
    have hp := hnone p node q hsplit
    rw [uses?.eq_def] at hx
    split at hx
    · cases hx
      rw [offence?, if_neg hundefined] at hp
      cases hp
    · cases hx
      rw [offence?, if_neg hundefined] at hp
      cases hp
    · cases hx

/-- A tree is scoped if and only if nothing is wrong on the way through it. -/
theorem scoped_iff {e : Expr} : e.Scoped ↔ firstOffence [] e.visits = none :=
  ⟨Scoped.firstOffence_eq_none, scoped_of_firstOffence⟩

end Expr

end RegisterVm
