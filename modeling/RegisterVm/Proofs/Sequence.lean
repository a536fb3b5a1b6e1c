import Mathlib.Data.List.Forall2

/-!
# Computations in sequence

What `>>=` and `mapM` do where a computation may fail: the whole succeeds if
each part does, with the results in order, and otherwise it fails as the first
part that fails. Frames are put together and listings are written in this way.
-/

namespace RegisterVm

variable {α β ε : Type}

theorem ok_of_bind {x : Except ε α} {g : α → Except ε β} {b : β}
    (h : x >>= g = .ok b) : ∃ a, x = .ok a ∧ g a = .ok b := by
  cases x with
  | error err => cases h
  | ok a => exact ⟨a, rfl, h⟩

section Traversal

variable {g : α → Except ε β} {xs : List α}

theorem mapM_ok_iff {ys : List β} :
    xs.mapM g = .ok ys ↔ List.Forall₂ (fun x y => g x = .ok y) xs ys := by
  constructor
  · intro h
    induction xs generalizing ys with
    | nil =>
        cases h
        exact .nil
    | cons x xs ih =>
        rw [List.mapM_cons] at h
        obtain ⟨y, hy, h⟩ := ok_of_bind h
        obtain ⟨ys, hys, h⟩ := ok_of_bind h
        cases h
        exact .cons hy (ih hys)
  · intro h
    induction h with
    | nil => rfl
    | cons hy _ ih =>
        rw [List.mapM_cons, hy, ih]
        rfl

theorem exists_mapM_ok (h : ∀ x ∈ xs, ∃ y, g x = .ok y) :
    ∃ ys, xs.mapM g = .ok ys := by
  induction xs with
  | nil => exact ⟨[], rfl⟩
  | cons x xs ih =>
      obtain ⟨y, hy⟩ := h x List.mem_cons_self
      obtain ⟨ys, hys⟩ := ih fun x' hx' => h x' (List.mem_cons_of_mem x hx')
      exact ⟨y :: ys, mapM_ok_iff.mpr (.cons hy (mapM_ok_iff.mp hys))⟩

theorem mapM_eq_ok_map {k : α → β} (h : ∀ x ∈ xs, g x = .ok (k x)) :
    xs.mapM g = .ok (xs.map k) := by
  rw [mapM_ok_iff, List.forall₂_map_right_iff, List.forall₂_same]
  exact h

/-- What comes after the first part that fails does not matter. -/
theorem mapM_error_of_first {x : α} {err : ε} (after : List α)
    (hxs : ∀ x' ∈ xs, ∃ y, g x' = .ok y) (hx : g x = .error err) :
    (xs ++ x :: after).mapM g = .error err := by
  obtain ⟨ys, hys⟩ := exists_mapM_ok hxs
  rw [List.mapM_append, hys, List.mapM_cons, hx]
  rfl

end Traversal

end RegisterVm
