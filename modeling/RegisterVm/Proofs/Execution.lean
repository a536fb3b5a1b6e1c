import RegisterVm.Proofs.Footprint

/-!
# Code over locations

Before anything is known of registers, code runs over a *store*, which has a
value for every local and every temporary; constants come from a pool.
Instructions have only one way to go wrong here, an operand of a sum that is no
number. Code changes what it writes and nothing else, also when it gets stuck
(`exec_unchanged`).
-/

namespace RegisterVm.Lowering

/-! ## Stores -/

/-- The contents of locals and temporaries. -/
abbrev Store := Location → Value

namespace Store

def blank : Store := fun _ => .nil

def set (σ : Store) (l : Location) (v : Value) : Store :=
  fun l' => if l' = l then v else σ l'

@[simp] theorem set_self (σ : Store) (l : Location) (v : Value) :
    σ.set l v l = v := if_pos rfl

theorem set_of_ne (σ : Store) {l l' : Location} (h : l' ≠ l) (v : Value) :
    σ.set l v l' = σ l' :=
  if_neg h

/-- The value at a location. -/
def read (σ : Store) (pool : List Value) (l : Location) : Value :=
  if l.kind = .constant then pool.getD l.index.toNat .nil else σ l

theorem read_of_isRegister {T : Tables} {l : Location} (hl : T.IsRegister l)
    (σ : Store) (pool : List Value) : σ.read pool l = σ l := by
  rcases hl with ⟨k, -, rfl⟩ | ⟨k, rfl⟩ <;> rfl

theorem read_congr {σ σ' : Store} {pool : List Value} {l : Location}
    (h : σ' l = σ l) :
    σ'.read pool l = σ.read pool l := by
  rw [read, read, h]

end Store

/-! ## Running -/

/-- An instruction: the store after it, or an operand that is no number. -/
def Pending.exec (pool : List Value) (σ : Store) : Pending → Except Value Store
  | ⟨.move, [dst, src]⟩ => .ok (σ.set dst (σ.read pool src))
  | ⟨.loadConstant, [dst, k]⟩ => .ok (σ.set dst (σ.read pool k))
  | ⟨.add, [dst, a, b]⟩ =>
      match (σ.read pool a).sum (σ.read pool b) with
      | .ok v => .ok (σ.set dst v)
      | .error v => .error v
  | _ => .ok σ

/-- How code ends: at its end, or before a sum with an operand that is no
number. -/
inductive Halt where
  | done (σ : Store)
  | stuck (v : Value) (σ : Store)

def Halt.store : Halt → Store
  | .done σ => σ
  | .stuck _ σ => σ

def exec (pool : List Value) : List Pending → Store → Halt
  | [], σ => .done σ
  | p :: ps, σ =>
      match p.exec pool σ with
      | .ok σ' => exec pool ps σ'
      | .error v => .stuck v σ

theorem exec_add (pool : List Value) (dst a b : Location) (σ : Store) :
    exec pool [⟨.add, [dst, a, b]⟩] σ =
      match (σ.read pool a).sum (σ.read pool b) with
      | .ok v => .done (σ.set dst v)
      | .error v => .stuck v σ := by
  simp only [exec, Pending.exec]
  cases (σ.read pool a).sum (σ.read pool b) <;> rfl

theorem exec_append_done {pool : List Value} {code code' : List Pending}
    {σ σ' : Store} (h : exec pool code σ = .done σ') :
    exec pool (code ++ code') σ = exec pool code' σ' := by
  induction code generalizing σ with
  | nil =>
      rw [exec] at h
      cases h
      rfl
  | cons p ps ih =>
      rw [exec] at h
      rw [List.cons_append, exec]
      split at h
      · exact ih h
      · cases h

theorem exec_append_stuck {pool : List Value} {code code' : List Pending}
    {σ σ' : Store} {v : Value} (h : exec pool code σ = .stuck v σ') :
    exec pool (code ++ code') σ = .stuck v σ' := by
  induction code generalizing σ with
  | nil => cases h
  | cons p ps ih =>
      rw [exec] at h
      rw [List.cons_append, exec]
      split at h
      · exact ih h
      · exact h

theorem Pending.exec_unchanged {pool : List Value} {σ σ' : Store} {p : Pending}
    (h : p.exec pool σ = .ok σ') {l : Location} (hl : p.dst? ≠ some l) :
    σ' l = σ l := by
  have hset : ∀ {dst : Location} {v : Value}, some dst ≠ some l →
      (σ.set dst v) l = σ l :=
    fun hne => σ.set_of_ne (fun heq => hne (congrArg some heq.symm)) _
  unfold Pending.exec at h
  split at h
  · cases h; exact hset hl
  · cases h; exact hset hl
  · split at h
    · cases h; exact hset hl
    · cases h
  · cases h; rfl

/-- Code changes what it writes and nothing else, however it ends. -/
theorem exec_unchanged {pool : List Value} {code : List Pending} {σ : Store}
    {l : Location} (hl : l ∉ destinations code) :
    (exec pool code σ).store l = σ l := by
  induction code generalizing σ with
  | nil => rfl
  | cons p ps ih =>
      have hp : p.dst? ≠ some l := fun h =>
        hl (List.mem_filterMap.mpr ⟨p, List.mem_cons_self .., h⟩)
      have hps : l ∉ destinations ps := fun h => by
        obtain ⟨q, hq, hql⟩ := List.mem_filterMap.mp h
        exact hl (List.mem_filterMap.mpr ⟨q, List.mem_cons_of_mem _ hq, hql⟩)
      rw [exec]
      split
      · rename_i σ' hstep
        rw [ih hps, Pending.exec_unchanged hstep hp]
      · rfl

/-- A location that `copyCode` copies to holds the value afterwards. -/
theorem exec_copyCode {T : Tables} {dst : Location} (hdst : T.IsRegister dst)
    (pool : List Value) (l : Location) (σ : Store) :
    ∃ σ', exec pool (copyCode l dst) σ = .done σ' ∧ σ' dst = σ.read pool l
      ∧ ∀ l', l' ≠ dst → σ' l' = σ l' := by
  have hset : ∀ v, ∀ l', l' ≠ dst → (σ.set dst v) l' = σ l' := fun v l' h =>
    σ.set_of_ne h v
  rw [copyCode]
  split
  · exact ⟨_, rfl, σ.set_self dst _, hset _⟩
  · split
    · subst_vars
      exact ⟨σ, rfl, (Store.read_of_isRegister hdst σ pool).symm, fun _ _ => rfl⟩
    · exact ⟨_, rfl, σ.set_self dst _, hset _⟩

end RegisterVm.Lowering
