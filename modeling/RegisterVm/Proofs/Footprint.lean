import RegisterVm.Proofs.Tables

/-!
# Where code reads and writes

Three facts about the code of a derivation, each by one induction over it:

- `Lowers.answer`: the value is at the destination, in the pool, or in a visible
  local, and in a temporary only if nobody asked for it anywhere.
- `Lowers.footprint`: the code writes the destination, temporaries that are free
  at entry, locals that it reserves, and locals that the tree assigns to. This
  is what lets a sum read its left operand in place.
- `Lowers.fits`: every operand has its role, and names a local or a constant
  that there is.
-/

namespace RegisterVm.Lowering

/-! ## Where the value is -/

inductive Answer (d : Option Location) (n : Nat) (T : Tables) :
    Location → Prop where
  | destination {l : Location} (h : d = some l) : Answer d n T l
  | constant {i : Nat} (h : i < T.constants.length) : Answer d n T (.constant i)
  | visible {x : String} {r : Int} (h : T.visible.lookup x = some r) :
      Answer d n T (.localVar r)
  | temporary (h : d = none) : Answer d n T (.temporary n)

theorem Tables.place_lt (T : Tables) (v : Value) :
    T.place v < (T.pool v).constants.length := by
  rw [Tables.place, Tables.pool, Value.addDistinct]
  cases hpos : Value.position? T.constants v with
  | none => simp
  | some i =>
      obtain ⟨hlt, -⟩ := List.findIdx?_eq_some_iff_getElem.mp hpos
      simpa using hlt

theorem Lowers.answer {e : Expr} {d n T l code T'}
    (h : Lowers e d n T l code T') (hT : T.Sound) :
    Answer d n T' l := by
  induction h with
  | constant => exact .constant (Tables.place_lt _ _)
  | var hx => exact .visible hx
  | anywhere h ih =>
      cases ih hT with
      | destination hl => cases hl; exact .temporary rfl
      | constant hi => exact .constant hi
      | visible hx => exact .visible hx
      | temporary hnone => cases hnone
  | add hl hk hr ihl ihr => exact .destination rfl
  | define hx h ih => exact .visible (by rw [Tables.lookup_declare, if_pos rfl])
  | assign hx h ih => exact .visible ((h.grows hT).2.keeps hx)
  | last h ih => exact ih hT
  | next h hs ih ihs => exact ihs (h.grows hT).1

/-! ## What is written -/

def Pending.dst? (p : Pending) : Option Location := p.operands.head?

/-- The locations that code writes. -/
def destinations (code : List Pending) : List Location :=
  code.filterMap Pending.dst?

@[simp] theorem destinations_nil : destinations [] = [] := rfl

@[simp] theorem destinations_cons (op : Opcode) (dst : Location)
    (srcs : List Location) (code : List Pending) :
    destinations (⟨op, dst :: srcs⟩ :: code) = dst :: destinations code := rfl

@[simp] theorem destinations_append (code code' : List Pending) :
    destinations (code ++ code') = destinations code ++ destinations code' :=
  List.filterMap_append

theorem mem_destinations_copyCode {l dst l' : Location}
    (h : l' ∈ destinations (copyCode l dst)) :
    l' = dst := by
  rw [copyCode] at h
  split at h
  · simpa using h
  · split at h
    · cases h
    · simpa using h

/-- What code may write: the destination, temporaries from `n` on, locals
reserved between `T` and `T'`, and locals with one of the given names. -/
inductive Footprint (names : List String) (d : Option Location) (n : Nat)
    (T T' : Tables) :
    Location → Prop where
  | destination {l : Location} (h : d = some l) : Footprint names d n T T' l
  | temporary {k : Nat} (h : n ≤ k) : Footprint names d n T T' (.temporary k)
  | reserved {k : Nat} (hle : T.locals.length ≤ k) (hlt : k < T'.locals.length) :
      Footprint names d n T T' (.localVar k)
  | assigned {k : Nat} {x : String} (hk : T'.locals[k]? = some x)
      (hx : x ∈ names) :
      Footprint names d n T T' (.localVar k)

/-- The footprint of a part is within that of the whole. -/
theorem Footprint.widen {names₁ names : List String} {d₁ d : Option Location}
    {n₁ n : Nat} {T₁ T T₁' T' : Tables} {l : Location}
    (h : Footprint names₁ d₁ n₁ T₁ T₁' l)
    (hd : ∀ dst, d₁ = some dst → Footprint names d n T T' dst) (hn : n ≤ n₁)
    (hT : T.locals.length ≤ T₁.locals.length) (hT' : T₁'.locals <+: T'.locals)
    (hnames : names₁ ⊆ names) : Footprint names d n T T' l := by
  cases h with
  | destination h => exact hd _ h
  | temporary h => exact .temporary (Nat.le_trans hn h)
  | reserved hle hlt =>
      exact .reserved (Nat.le_trans hT hle) (Nat.lt_of_lt_of_le hlt hT'.length_le)
  | assigned hk hx =>
      obtain ⟨rest, hrest⟩ := hT'
      refine .assigned ?_ (hnames hx)
      rw [← hrest, List.getElem?_append_left (List.getElem?_eq_some_iff.mp hk).1]
      exact hk

/-- A left operand is kept by a copy at most, in the next temporary. -/
theorem Kept.dst {later : Expr} {n m : Nat} {T : Tables} {a a' : Location}
    {code : List Pending} (h : Kept later n T a a' m code) :
    n ≤ m ∧ ∀ l ∈ destinations code, l = .temporary n := by
  cases h <;> simp

theorem rightScope_dst {left dst : Location} {m : Nat} {names : List String}
    {n : Nat} {T T' : Tables} (hm : n ≤ m) :
    ∀ l, some (rightScope left dst m).1 = some l →
      Footprint names (some dst) n T T' l := by
  intro l hl
  rw [rightScope] at hl
  split at hl
  · cases hl; exact .temporary hm
  · exact .destination hl

theorem le_rightScope (left dst : Location) (m : Nat) :
    m ≤ (rightScope left dst m).2 := by
  rw [rightScope]; split <;> simp

/-! ### Parts of an expression

What the code of a part may write is within what the code of the whole may, with
the destination and the temporaries that the part is given. -/

namespace Footprint

variable {n : Nat} {T T₁ T' : Tables} {t : Location}

theorem of_anywhere {names : List String}
    (h : Footprint names (some (.temporary n)) (n + 1) T T' t) :
    Footprint names none n T T' t := by
  refine h.widen ?_ (by omega) (Nat.le_refl _) (List.prefix_refl _) (fun _ h => h)
  intro dst hdst
  cases hdst
  exact .temporary (Nat.le_refl _)

theorem of_left {l r : Expr} {dst : Location}
    (h : Footprint l.assigned (some (.temporary n)) (n + 1) T T₁ t)
    (hT' : T₁.locals <+: T'.locals) :
    Footprint (Expr.add l r).assigned (some dst) n T T' t := by
  refine h.widen ?_ (by omega) (Nat.le_refl _) hT'
    (by rw [Expr.assigned]; exact List.subset_append_left _ _)
  intro dst' hdst'
  cases hdst'
  exact .temporary (Nat.le_refl _)

theorem of_right {l r : Expr} {left dst : Location} {m : Nat}
    (h : Footprint r.assigned (some (rightScope left dst m).1)
      (rightScope left dst m).2 T₁ T' t) (hm : n ≤ m)
    (hT : T.locals.length ≤ T₁.locals.length) :
    Footprint (Expr.add l r).assigned (some dst) n T T' t :=
  h.widen (rightScope_dst hm) (Nat.le_trans hm (le_rightScope _ _ _)) hT
    (List.prefix_refl _)
    (by rw [Expr.assigned]; exact List.subset_append_right _ _)

/-- A definition writes its own local. -/
theorem of_define {x : String} {e : Expr} {d : Option Location}
    (h : Footprint e.assigned (some (.localVar T.locals.length)) n
      (T.reserve x) T₁ t)
    (hlt : T.locals.length < T₁.locals.length) (hT' : T₁.locals <+: T'.locals) :
    Footprint (Expr.define x e).assigned d n T T' t := by
  refine h.widen ?_ (Nat.le_refl _) (by simp [Tables.reserve]) hT'
    (by rw [Expr.assigned]; exact fun _ h => h)
  intro dst hdst
  cases hdst
  exact .reserved (Nat.le_refl _) (Nat.lt_of_lt_of_le hlt hT'.length_le)

/-- An assignment writes the local with its name. -/
theorem of_assign {x : String} {e : Expr} {d : Option Location} {k : Nat}
    (h : Footprint e.assigned (some (.localVar k)) n T T' t)
    (hk : T'.locals[k]? = some x) :
    Footprint (Expr.assign x e).assigned d n T T' t := by
  refine h.widen ?_ (Nat.le_refl _) (Nat.le_refl _) (List.prefix_refl _)
    (by rw [Expr.assigned]; exact List.subset_cons_self _ _)
  intro dst hdst
  cases hdst
  exact .assigned hk (by simp [Expr.assigned])

theorem of_last {e : Expr} {d : Option Location}
    (h : Footprint e.assigned d n T T' t) :
    Footprint (Expr.block [e]).assigned d n T T' t :=
  h.widen (fun _ => .destination) (Nat.le_refl _) (Nat.le_refl _)
    (List.prefix_refl _) (by simp [Expr.assigned, Expr.assignedAll])

theorem of_first {e : Expr} {es : List Expr} {d : Option Location}
    (h : Footprint e.assigned none n T T₁ t) (hT' : T₁.locals <+: T'.locals) :
    Footprint (Expr.block (e :: es)).assigned d n T T' t :=
  h.widen (fun _ h => by cases h) (Nat.le_refl _) (Nat.le_refl _) hT'
    (by simp [Expr.assigned, Expr.assignedAll])

theorem of_next {e : Expr} {es : List Expr} {d : Option Location}
    (h : Footprint (Expr.block es).assigned d n T₁ T' t)
    (hT : T.locals.length ≤ T₁.locals.length) :
    Footprint (Expr.block (e :: es)).assigned d n T T' t :=
  h.widen (fun _ => .destination) (Nat.le_refl _) hT (List.prefix_refl _)
    (by simp [Expr.assigned, Expr.assignedAll])

end Footprint

theorem Lowers.footprint {e : Expr} {d n T l code T'}
    (h : Lowers e d n T l code T') (hT : T.Sound) :
    ∀ dst ∈ destinations code, Footprint e.assigned d n T T' dst := by
  induction h with
  | constant => intro dst hdst; cases hdst
  | var hx => intro dst hdst; cases hdst
  | anywhere h ih =>
      intro dst hdst
      exact (ih hT dst hdst).of_anywhere
  | @add l r dst n T a code₁ T₁ a' m code₂ b code₃ T₂ hl hk hr ihl ihr =>
      obtain ⟨hT₁, hg₁⟩ := hl.grows hT
      obtain ⟨-, hg₂⟩ := hr.grows hT₁
      obtain ⟨hm, hkept⟩ := hk.dst
      intro t ht
      simp only [destinations_append, List.mem_append] at ht
      rcases ht with ((ht | ht) | ht) | ht
      · exact (ihl hT t ht).of_left hg₂.locals
      · obtain rfl := hkept t ht
        exact .temporary (Nat.le_refl _)
      · exact (ihr hT₁ t ht).of_right hm hg₁.length_le
      · obtain rfl := List.mem_singleton.mp ht
        exact .destination rfl
  | @define x e d n T a code T₁ hx h ih =>
      obtain ⟨-, hg⟩ := h.grows (hT.reserve hx)
      have hlt : T.locals.length < T₁.locals.length :=
        (List.getElem?_eq_some_iff.mp hg.reserved).1
      intro t ht
      simp only [destinations_append, List.mem_append] at ht
      rcases ht with ht | ht
      · exact (ih (hT.reserve hx) t ht).of_define hlt (List.prefix_refl _)
      · rw [mem_destinations_copyCode ht]
        exact .reserved (Nat.le_refl _) hlt
  | @assign x e d n T r a code T₁ hx h ih =>
      obtain ⟨hT₁, hg⟩ := h.grows hT
      obtain ⟨k, rfl, hk⟩ := hT₁.named (hg.keeps hx)
      intro t ht
      simp only [destinations_append, List.mem_append] at ht
      rcases ht with ht | ht
      · exact (ih hT t ht).of_assign hk
      · rw [mem_destinations_copyCode ht]
        exact .assigned hk (by simp [Expr.assigned])
  | last h ih =>
      intro t ht
      exact (ih hT t ht).of_last
  | next h hs ih ihs =>
      obtain ⟨hT₁, hg₁⟩ := h.grows hT
      obtain ⟨-, hg₂⟩ := hs.grows hT₁
      intro t ht
      rw [destinations_append, List.mem_append] at ht
      rcases ht with ht | ht
      · exact (ih hT t ht).of_first hg₂.locals
      · exact (ihs hT₁ t ht).of_next hg₁.length_le

/-! ## Operands in their roles -/

namespace Tables

def IsRegister (T : Tables) (l : Location) : Prop :=
  (∃ k : Nat, k < T.locals.length ∧ l = .localVar k)
    ∨ ∃ k : Nat, l = .temporary k

def IsConstant (T : Tables) (l : Location) : Prop :=
  ∃ i : Nat, i < T.constants.length ∧ l = .constant i

theorem isRegister_local {T : Tables} {x : String} {k : Nat}
    (hk : T.locals[k]? = some x) :
    T.IsRegister (.localVar k) :=
  Or.inl ⟨k, (List.getElem?_eq_some_iff.mp hk).1, rfl⟩

theorem isRegister_temporary (T : Tables) (k : Nat) :
    T.IsRegister (.temporary k) := Or.inr ⟨k, rfl⟩

theorem isRegister_rightScope {T : Tables} {dst : Location}
    (hdst : T.IsRegister dst) (left : Location) (n : Nat) :
    T.IsRegister (rightScope left dst n).1 := by
  rw [rightScope]
  split
  · exact T.isRegister_temporary n
  · exact hdst

/-- The destination, if there is one, is a register. -/
def Aims (T : Tables) (d : Option Location) : Prop :=
  ∀ dst, d = some dst → T.IsRegister dst

theorem aims_none (T : Tables) : T.Aims none := fun _ h => by cases h

theorem IsRegister.aims {T : Tables} {dst : Location} (h : T.IsRegister dst) :
    T.Aims (some dst) := by
  intro dst' hdst'
  cases hdst'
  exact h

theorem Grows.isRegister {T T' : Tables} (h : T.Grows T') {l : Location}
    (hl : T.IsRegister l) :
    T'.IsRegister l := by
  rcases hl with ⟨k, hk, rfl⟩ | ⟨k, rfl⟩
  · exact Or.inl ⟨k, Nat.lt_of_lt_of_le hk h.length_le, rfl⟩
  · exact Or.inr ⟨k, rfl⟩

theorem Grows.aims {T T' : Tables} (h : T.Grows T') {d : Option Location}
    (hd : T.Aims d) :
    T'.Aims d :=
  fun dst hdst => h.isRegister (hd dst hdst)

theorem Grows.isConstant {T T' : Tables} (h : T.Grows T') {l : Location}
    (hl : T.IsConstant l) :
    T'.IsConstant l := by
  obtain ⟨i, hi, rfl⟩ := hl
  exact ⟨i, Nat.lt_of_lt_of_le hi h.constants.length_le, rfl⟩

end Tables

/-- An instruction with operands in their roles. -/
inductive Pending.Fits (T : Tables) : Pending → Prop where
  | move {dst src : Location} (hdst : T.IsRegister dst)
      (hsrc : T.IsRegister src) :
      Fits T ⟨.move, [dst, src]⟩
  | loadConstant {dst k : Location} (hdst : T.IsRegister dst)
      (hk : T.IsConstant k) :
      Fits T ⟨.loadConstant, [dst, k]⟩
  | add {dst a b : Location} (hdst : T.IsRegister dst)
      (ha : T.IsRegister a ∨ T.IsConstant a)
      (hb : T.IsRegister b ∨ T.IsConstant b) : Fits T ⟨.add, [dst, a, b]⟩

theorem Pending.Fits.mono {T T' : Tables} (h : T.Grows T') {p : Pending}
    (hp : p.Fits T) :
    p.Fits T' := by
  cases hp with
  | move hdst hsrc => exact .move (h.isRegister hdst) (h.isRegister hsrc)
  | loadConstant hdst hk =>
      exact .loadConstant (h.isRegister hdst) (h.isConstant hk)
  | add hdst ha hb =>
      exact .add (h.isRegister hdst) (ha.imp h.isRegister h.isConstant)
        (hb.imp h.isRegister h.isConstant)

theorem Answer.isValue {d : Option Location} {n : Nat} {T : Tables}
    {l : Location} (h : Answer d n T l) (hT : T.Sound) (hd : T.Aims d) :
    T.IsRegister l ∨ T.IsConstant l := by
  cases h with
  | destination h => exact Or.inl (hd _ h)
  | constant h => exact Or.inr ⟨_, h, rfl⟩
  | visible h =>
      obtain ⟨k, rfl, hk⟩ := hT.named h
      exact Or.inl (Tables.isRegister_local hk)
  | temporary => exact Or.inl (T.isRegister_temporary n)

theorem fits_copyCode {T : Tables} {l dst : Location} (hdst : T.IsRegister dst)
    (hl : T.IsRegister l ∨ T.IsConstant l) :
    ∀ p ∈ copyCode l dst, p.Fits T := by
  intro p hp
  rw [copyCode] at hp
  split at hp
  · rename_i hkind
    obtain rfl := List.mem_singleton.mp hp
    rcases hl with (⟨k, -, rfl⟩ | ⟨k, rfl⟩) | hk
    · cases hkind
    · cases hkind
    · exact .loadConstant hdst hk
  · rename_i hkind
    split at hp
    · cases hp
    · obtain rfl := List.mem_singleton.mp hp
      rcases hl with hl | ⟨k, -, rfl⟩
      · exact .move hdst hl
      · exact absurd rfl hkind

theorem Lowers.fits {e : Expr} {d n T l code T'} (h : Lowers e d n T l code T')
    (hT : T.Sound) (hd : T.Aims d) : ∀ p ∈ code, p.Fits T' := by
  induction h with
  | constant => intro p hp; cases hp
  | var hx => intro p hp; cases hp
  | @anywhere _ _ n T _ _ _ h ih => exact ih hT (T.isRegister_temporary n).aims
  | @add l r dst n T a code₁ T₁ a' m code₂ b code₃ T₂ hl hk hr ihl ihr =>
      obtain ⟨hT₁, hg₁⟩ := hl.grows hT
      obtain ⟨hT₂, hg₂⟩ := hr.grows hT₁
      have hdst : T₁.IsRegister dst := hg₁.isRegister (hd dst rfl)
      have hright : T₁.Aims (some (rightScope a' dst m).1) :=
        (Tables.isRegister_rightScope hdst a' m).aims
      have ha : T₁.IsRegister a ∨ T₁.IsConstant a :=
        (hl.answer hT).isValue hT₁ (T₁.isRegister_temporary n).aims
      have ha' : T₁.IsRegister a' ∨ T₁.IsConstant a' := by
        cases hk with
        | held => exact Or.inl (T₁.isRegister_temporary n)
        | inPlace => exact ha
        | copied => exact Or.inl (T₁.isRegister_temporary n)
      have hb : T₂.IsRegister b ∨ T₂.IsConstant b :=
        (hr.answer hT₁).isValue hT₂ (hg₂.aims hright)
      intro p hp
      simp only [List.mem_append] at hp
      rcases hp with ((hp | hp) | hp) | hp
      · exact (ihl hT (T.isRegister_temporary n).aims p hp).mono hg₂
      · cases hk with
        | held => cases hp
        | inPlace => cases hp
        | copied h =>
            obtain rfl := List.mem_singleton.mp hp
            refine Pending.Fits.mono hg₂ (.move (T₁.isRegister_temporary n) ?_)
            refine ha.resolve_right ?_
            rintro ⟨i, -, rfl⟩
            cases h.1
      · exact ihr hT₁ hright p hp
      · obtain rfl := List.mem_singleton.mp hp
        exact .add (hg₂.isRegister hdst)
          (ha'.imp hg₂.isRegister hg₂.isConstant) hb
  | @define x e d n T a code T₁ hx h ih =>
      have hT₀ := hT.reserve hx
      obtain ⟨hT₁, hg⟩ := h.grows hT₀
      have hlocal : (T.reserve x).IsRegister (.localVar T.locals.length) :=
        Or.inl ⟨_, by simp [Tables.reserve], rfl⟩
      intro p hp
      rcases List.mem_append.mp hp with hp | hp
      · cases ih hT₀ hlocal.aims p hp with
        | move hdst hsrc => exact .move hdst hsrc
        | loadConstant hdst hk => exact .loadConstant hdst hk
        | add hdst ha hb => exact .add hdst ha hb
      · have ha := (h.answer hT₀).isValue hT₁ (hg.aims hlocal.aims)
        exact fits_copyCode (T := T₁.declare x T.locals.length)
          (hg.isRegister hlocal) ha p hp
  | @assign x e d n T r a code T₁ hx h ih =>
      obtain ⟨hT₁, hg⟩ := h.grows hT
      obtain ⟨k, rfl, hk⟩ := hT.named hx
      have hlocal : T.IsRegister (.localVar k) := Tables.isRegister_local hk
      intro p hp
      rcases List.mem_append.mp hp with hp | hp
      · exact ih hT hlocal.aims p hp
      · have ha := (h.answer hT).isValue hT₁ (hg.aims hlocal.aims)
        exact fits_copyCode (hg.isRegister hlocal) ha p hp
  | last h ih => exact ih hT hd
  | @next _ _ _ _ _ T _ _ _ _ _ _ h hs ih ihs =>
      obtain ⟨hT₁, hg₁⟩ := h.grows hT
      obtain ⟨-, hg₂⟩ := hs.grows hT₁
      intro p hp
      rcases List.mem_append.mp hp with hp | hp
      · exact (ih hT T.aims_none p hp).mono hg₂
      · exact ihs hT₁ (hg₁.aims hd) p hp

end RegisterVm.Lowering
