import RegisterVm.Proofs.Compilation

/-!
# Registers are written before they are read

Along the code of a derivation every visible local is written, and so is the
place of every answer (`Lowers.assigns`): a definition makes its name visible
only after its value was copied or computed to its register, and a sum answers
with the register that it has just written. So no instruction reads a register
that none before it writes.

In the frame the registers are those of the locals, all of which are visible at
the end, and of the temporaries that the code mentions. Hence each of them is
written (`Compiled.writesAll`), and the register file has no gap.
-/

namespace RegisterVm.Lowering

/-! ## Code over locations -/

def Pending.sources (p : Pending) : List Location := p.operands.tail

/-- The value at `l` is a constant, or in one of the places in `W`. -/
def Available (W : List Location) (l : Location) : Prop :=
  l.kind ≠ .constant → l ∈ W

theorem Available.mono {W W' : List Location} (hW : W ⊆ W') {l : Location}
    (h : Available W l) :
    Available W' l :=
  fun hl => hW (h hl)

/-- The code reads what was written before, by itself or as one of the places in
`W`. -/
def ReadsWritten (W : List Location) : List Pending → Prop
  | [] => True
  | p :: ps =>
      (∀ l ∈ p.sources, Available W l) ∧ ReadsWritten (W ++ destinations [p]) ps

theorem readsWritten_append {W : List Location} {code code' : List Pending} :
    ReadsWritten W (code ++ code') ↔
      ReadsWritten W code ∧ ReadsWritten (W ++ destinations code) code' := by
  induction code generalizing W with
  | nil => simp [ReadsWritten]
  | cons p ps ih =>
      have hdst : destinations (p :: ps) = destinations [p] ++ destinations ps :=
        destinations_append [p] ps
      rw [List.cons_append, ReadsWritten, ReadsWritten, ih, hdst,
        List.append_assoc, and_assoc]

theorem ReadsWritten.at {W : List Location} {code : List Pending}
    (h : ReadsWritten W code) {i : Nat} {p : Pending} (hp : code[i]? = some p) :
    ∀ l ∈ p.sources, Available (W ++ destinations (code.take i)) l := by
  obtain ⟨hlt, rfl⟩ := List.getElem?_eq_some_iff.mp hp
  rw [← List.take_append_drop i code, readsWritten_append,
    List.drop_eq_getElem_cons hlt] at h
  exact h.2.1

/-- All visible locals are among the places in `W`. -/
def Tables.Written (T : Tables) (W : List Location) : Prop :=
  ∀ x r, T.visible.lookup x = some r → .localVar r ∈ W

theorem Tables.Written.mono {T : Tables} {W W' : List Location}
    (h : T.Written W) (hW : W ⊆ W') :
    T.Written W' :=
  fun x r hx => hW (h x r hx)

/-- If the places in `W` are written before the code, it reads only what was
written, and after it all visible locals and the place of the answer are
written. -/
structure Assigns (W : List Location) (code : List Pending) (T : Tables)
    (l : Location) : Prop where
  reads : ReadsWritten W code
  visible : T.Written (W ++ destinations code)
  answer : Available (W ++ destinations code) l

/-- Without code nothing changes. -/
theorem Assigns.nil {W : List Location} {T : Tables} (hW : T.Written W)
    {l : Location} (hl : Available W l) : Assigns W [] T l :=
  ⟨trivial, hW.mono (List.subset_append_left _ _),
    hl.mono (List.subset_append_left _ _)⟩

theorem Assigns.after {W : List Location} {code code' : List Pending}
    {T : Tables} {l : Location} (h : Assigns (W ++ destinations code) code' T l)
    (hcode : ReadsWritten W code) :
    Assigns W (code ++ code') T l where
  reads := readsWritten_append.mpr ⟨hcode, h.reads⟩
  visible := by
    rw [destinations_append, ← List.append_assoc]
    exact h.visible
  answer := by
    rw [destinations_append, ← List.append_assoc]
    exact h.answer

/-- A value that is copied to `dst` is there afterwards, also if it was there
before. -/
theorem Assigns.copy {W : List Location} {code : List Pending} {T : Tables}
    {l : Location} (h : Assigns W code T l) (dst : Location) :
    Assigns (W ++ destinations code) (copyCode l dst) T dst := by
  have hvis :=
    h.visible.mono (List.subset_append_left _ (destinations (copyCode l dst)))
  rw [copyCode] at hvis ⊢
  split at hvis
  · rename_i hconst
    rw [if_pos hconst]
    refine ⟨⟨fun l' hl' => ?_, trivial⟩, hvis, fun _ => by simp⟩
    obtain rfl := List.mem_singleton.mp hl'
    exact fun hne => absurd hconst hne
  · rename_i hconst
    rw [if_neg hconst]
    split at hvis
    · rename_i heq
      rw [if_pos heq, ← heq]
      exact .nil h.visible h.answer
    · rename_i heq
      rw [if_neg heq]
      refine ⟨⟨fun l' hl' => ?_, trivial⟩, hvis, fun _ => by simp⟩
      obtain rfl := List.mem_singleton.mp hl'
      exact h.answer

theorem Kept.assigns {later : Expr} {n m : Nat} {T : Tables} {a a' : Location}
    {code : List Pending} (h : Kept later n T a a' m code) {W : List Location}
    (hW : T.Written W) (ha : Available W a) :
    Assigns W code T a' := by
  cases h with
  | held => exact .nil hW ha
  | inPlace => exact .nil hW ha
  | copied =>
      refine ⟨⟨by simpa [Pending.sources] using ha, trivial⟩, hW.mono ?_,
        fun _ => by simp⟩
      exact List.subset_append_left _ _

theorem Lowers.assigns {e : Expr} {d n T l code T'}
    (h : Lowers e d n T l code T') {W : List Location} (hW : T.Written W) :
    Assigns W code T' l := by
  induction h generalizing W with
  | @constant v d n T =>
      have hpool : (T.pool v).Written W := hW
      exact .nil hpool fun h => absurd rfl h
  | var hx => exact .nil hW fun _ => hW _ _ hx
  | anywhere h ih => exact ih hW
  | @add l r dst n T a code₁ T₁ a' m code₂ b code₃ T₂ hl hk hr ihl ihr =>
      have hleft := ihl hW
      have hkept := (hk.assigns hleft.visible hleft.answer).after hleft.reads
      have hright := (ihr hkept.visible).after hkept.reads
      have hsrc : ∀ l ∈ [a', b],
          Available (W ++ destinations (code₁ ++ code₂ ++ code₃)) l := by
        intro l hl
        rcases List.mem_pair.mp hl with rfl | rfl
        · rw [destinations_append, ← List.append_assoc]
          exact hkept.answer.mono (List.subset_append_left _ _)
        · exact hright.answer
      have hsum : Assigns (W ++ destinations (code₁ ++ code₂ ++ code₃))
          [⟨.add, [dst, a', b]⟩] T₂ dst :=
        ⟨⟨hsrc, trivial⟩, hright.visible.mono (List.subset_append_left _ _),
          fun _ => by simp⟩
      exact hsum.after hright.reads
  | @define x e d n T a code T₁ hx h ih =>
      have hval := ih (W := W) hW
      have hcopy := (hval.copy (.localVar T.locals.length)).after hval.reads
      refine ⟨hcopy.reads, fun y r hy => ?_, hcopy.answer⟩
      rw [Tables.lookup_declare] at hy
      split at hy
      · cases hy
        exact hcopy.answer (by simp [Location.localVar])
      · exact hcopy.visible y r hy
  | @assign x e d n T r a code T₁ hx h ih =>
      have hval := ih hW
      exact (hval.copy (.localVar r)).after hval.reads
  | last h ih => exact ih hW
  | next h hs ih ihs =>
      have hfirst := ih hW
      exact (ihs hfirst.visible).after hfirst.reads

/-! ## The temporaries in use -/

theorem Location.eq_temporary_iff {l : Location} {t : Int} :
    l = .temporary t ↔ l.kind = .temporary ∧ l.index = t := by
  cases l
  simp [Location.temporary]

namespace Context

/-- The temporaries in use are those that the code mentions. -/
theorem mem_noteUsed {used : List Int} {operands : List Location} {t : Int} :
    t ∈ noteUsed used operands ↔ t ∈ used ∨ .temporary t ∈ operands := by
  induction operands generalizing used with
  | nil => simp [noteUsed]
  | cons l ls ih =>
      rw [noteUsed, List.foldl_cons, ← noteUsed, ih, List.mem_cons,
        eq_comm (a := Location.temporary t), Location.eq_temporary_iff]
      split
      · rename_i hnew
        simp only [List.mem_append, List.mem_singleton, hnew.1, true_and,
          eq_comm (a := t), or_assoc]
      · rename_i hold
        have hmem : l.kind = .temporary → l.index ∈ used := by simpa using hold
        constructor
        · exact Or.imp_right Or.inr
        · rintro (h | ⟨hkind, rfl⟩ | h)
          · exact Or.inl h
          · exact Or.inl (hmem hkind)
          · exact Or.inr h

theorem nodup_noteUsed {used : List Int} (h : used.Nodup)
    (operands : List Location) :
    (noteUsed used operands).Nodup := by
  induction operands generalizing used with
  | nil => exact h
  | cons l ls ih =>
      rw [noteUsed, List.foldl_cons, ← noteUsed]
      refine ih ?_
      split
      · rename_i hnew
        have hne : l.index ∉ used := by simpa using hnew.2
        refine List.nodup_append.mpr ⟨h, by simp, ?_⟩
        rintro a ha b hb rfl
        exact hne (List.mem_singleton.mp hb ▸ ha)
      · exact h

theorem mem_usedBy {used : List Int} {code : List Pending} {t : Int} :
    t ∈ usedBy used code ↔ t ∈ used ∨ ∃ p ∈ code, .temporary t ∈ p.operands := by
  induction code generalizing used with
  | nil => simp [usedBy]
  | cons p ps ih =>
      rw [usedBy, List.foldl_cons, ← usedBy, ih, mem_noteUsed, or_assoc]
      simp

theorem nodup_usedBy {used : List Int} (h : used.Nodup) (code : List Pending) :
    (usedBy used code).Nodup := by
  induction code generalizing used with
  | nil => exact h
  | cons p ps ih =>
      rw [usedBy, List.foldl_cons, ← usedBy]
      exact ih (nodup_noteUsed h p.operands)

theorem mem_usedInOrder {c : Context} {t : Int} :
    t ∈ c.usedInOrder ↔ t ∈ c.used :=
  List.mem_mergeSort

theorem nodup_usedInOrder {c : Context} (h : c.used.Nodup) :
    c.usedInOrder.Nodup :=
  (List.mergeSort_perm c.used _).nodup_iff.mpr h

/-- A temporary in use has a register after the locals. -/
theorem operand_of_mem_used {c : Context} {t : Int} (h : t ∈ c.used) :
    ∃ i : Nat, c.usedInOrder[i]? = some t
      ∧ c.operand (.temporary t) = .ok (c.locals.length + i) := by
  obtain ⟨j, hj⟩ := List.mem_iff_getElem?.mp (mem_usedInOrder.mpr h)
  have hsome : (c.places.lookup t).isSome := by
    rw [List.lookup_isSome_iff]
    exact ⟨(t, j), List.mem_map.mpr
      ⟨(t, j), List.mem_zipIdx_iff_getElem?.mpr hj, rfl⟩, by simp⟩
  obtain ⟨p, hp⟩ := Option.isSome_iff_exists.mp hsome
  obtain ⟨i, rfl, hi⟩ := of_lookup_places hp
  refine ⟨i, hi, ?_⟩
  simp only [operand, resolve, Location.temporary, hp]
  rw [Operand.ofRegister, if_neg (by omega)]
  rfl

end Context

end RegisterVm.Lowering

namespace RegisterVm

/-! ## Frames -/

namespace Instruction

/-- The register that an instruction writes, by its first operand. -/
def dst? (instr : Instruction) : Option Int := instr.args.head?

def sources (instr : Instruction) : List Int := instr.args.tail

end Instruction

/-- The registers that some instructions write, in order and with repeats. -/
def writtenBy (code : List Instruction) : List Int :=
  code.filterMap Instruction.dst?

/-- Every register of the frame is written by some instruction. -/
def Frame.WritesAll (f : Frame) : Prop :=
  ∀ r, 0 ≤ r → r < f.size → r ∈ writtenBy f.code

/-- No instruction of the frame reads a register that none before it writes. -/
def Frame.ReadsWritten (f : Frame) : Prop :=
  ∀ (i : Nat) (instr : Instruction) (ref : Int), f.code[i]? = some instr →
    ref ∈ instr.sources → 0 ≤ ref → ref ∈ writtenBy (f.code.take i)

namespace Lowering

theorem Tables.IsRegister.kind_ne {T : Tables} {l : Location}
    (h : T.IsRegister l) :
    l.kind ≠ .constant := by
  rcases h with ⟨k, -, rfl⟩ | ⟨k, rfl⟩
    <;> simp [Location.localVar, Location.temporary]

theorem Context.Names.seats {c : Context} {l : Location} {ref : Int}
    (h : c.Names l ref) (href : 0 ≤ ref) : c.Seats l ref := by
  obtain ⟨hreg | ⟨i, -, rfl⟩, hop⟩ := h
  · exact ⟨hreg, hop⟩
  · rw [Context.operand_constant] at hop
    cases hop
    omega

theorem Assembles.dst {c : Context} {p : Pending} {instr : Instruction}
    (h : Assembles c p instr) :
    ∃ l r, p.dst? = some l ∧ instr.dst? = some r ∧ c.Seats l r := by
  cases h with
  | move hdst hsrc => exact ⟨_, _, rfl, rfl, hdst⟩
  | loadConstant hdst hi => exact ⟨_, _, rfl, rfl, hdst⟩
  | add hdst ha hb => exact ⟨_, _, rfl, rfl, hdst⟩

/-- A register that an instruction reads is that of a source of the instruction
over locations. -/
theorem Assembles.source {c : Context} {p : Pending} {instr : Instruction}
    (h : Assembles c p instr) {ref : Int} (hmem : ref ∈ instr.sources)
    (href : 0 ≤ ref) : ∃ l ∈ p.sources, c.Seats l ref := by
  cases h with
  | move hdst hsrc =>
      obtain rfl := List.mem_singleton.mp hmem
      exact ⟨_, List.mem_cons_self .., hsrc⟩
  | loadConstant hdst hi =>
      obtain rfl := List.mem_singleton.mp hmem
      omega
  | add hdst ha hb =>
      rcases List.mem_pair.mp hmem with rfl | rfl
      · exact ⟨_, List.mem_cons_self .., ha.seats href⟩
      · exact ⟨_, List.mem_cons_of_mem _ (List.mem_cons_self ..), hb.seats href⟩

theorem Pending.Fits.operand {T : Tables} {p : Pending} (h : p.Fits T)
    {l : Location} (hl : l ∈ p.operands) : T.IsRegister l ∨ T.IsConstant l := by
  cases h with
  | move hdst hsrc =>
      rcases List.mem_pair.mp hl with rfl | rfl
      · exact Or.inl hdst
      · exact Or.inl hsrc
  | loadConstant hdst hk =>
      rcases List.mem_pair.mp hl with rfl | rfl
      · exact Or.inl hdst
      · exact Or.inr hk
  | add hdst ha hb =>
      rcases List.mem_cons.mp hl with rfl | hl
      · exact Or.inl hdst
      · rcases List.mem_pair.mp hl with rfl | rfl
        · exact ha
        · exact hb

theorem mem_writtenBy {c : Context} {code : List Pending}
    {code' : List Instruction} (h : List.Forall₂ (Assembles c) code code')
    {l : Location} (hl : l ∈ destinations code) {ref : Int}
    (hseat : c.Seats l ref) : ref ∈ writtenBy code' := by
  induction h with
  | nil => cases hl
  | @cons p instr ps instrs hp hps ih =>
      obtain ⟨dst, r, hdst, hr, hseat'⟩ := hp.dst
      have hwritten : writtenBy (instr :: instrs) = r :: writtenBy instrs :=
        List.filterMap_cons_some hr
      have hdests : destinations (p :: ps) = dst :: destinations ps :=
        List.filterMap_cons_some hdst
      rw [hdests, List.mem_cons] at hl
      rw [hwritten, List.mem_cons]
      rcases hl with rfl | hl
      · exact Or.inl (Except.ok.inj (hseat.operand.symm.trans hseat'.operand))
      · exact Or.inr (ih hl)

namespace Compiled

variable {e : Expr} {c : Context} {l : Location} {f : Frame}
    (hc : Compiled e c l f)

include hc

theorem assigns : Assigns [] c.code c.tables l :=
  hc.lowers.assigns fun _ _ h => by cases h

/-- What the code reads or writes it also writes. -/
theorem mem_destinations {p : Pending} (hp : p ∈ c.code) {l' : Location}
    (hl : l' ∈ p.operands) (hkind : l'.kind ≠ .constant) :
    l' ∈ destinations c.code := by
  obtain ⟨op, operands⟩ := p
  cases operands with
  | nil => cases hl
  | cons dst srcs =>
      rcases List.mem_cons.mp hl with rfl | hl
      · exact List.mem_filterMap.mpr ⟨_, hp, rfl⟩
      · obtain ⟨i, hi⟩ := List.mem_iff_getElem?.mp hp
        have hbefore := hc.assigns.reads.at hi l' hl hkind
        exact ((List.take_sublist i c.code).filterMap _).subset hbefore

/-- Every register belongs to a local or a temporary that the code writes. -/
theorem seats_of_lt {r : Int} (hr : 0 ≤ r) (hlt : r < f.size) :
    ∃ l' ∈ destinations c.code, c.Seats l' r := by
  obtain ⟨k, rfl⟩ := Int.eq_ofNat_of_zero_le hr
  by_cases hk : k < c.locals.length
  · have hvis := hc.grows.new (List.getElem?_eq_getElem hk) (Nat.zero_le k)
    exact ⟨_, hc.assigns.visible _ _ hvis, .local hk⟩
  · rw [hc.assembled.size] at hlt
    have hi : k - c.locals.length < c.usedInOrder.length := by
      rw [Context.usedInOrder, List.length_mergeSort]
      omega
    have ht : c.usedInOrder[k - c.locals.length] ∈ c.used :=
      Context.mem_usedInOrder.mp (List.getElem_mem hi)
    obtain ⟨j, hj, hop⟩ := Context.operand_of_mem_used ht
    -- a temporary in use has one place among them
    have hnodup : c.usedInOrder.Nodup := by
      refine Context.nodup_usedInOrder ?_
      rw [hc.used]
      exact Context.nodup_usedBy List.nodup_nil c.code
    obtain rfl : k - c.locals.length = j :=
      (List.getElem?_inj hi hnodup).mp
        ((List.getElem?_eq_getElem hi).trans hj.symm)
    generalize c.usedInOrder[k - c.locals.length] = t at ht hop
    rw [hc.used, Context.mem_usedBy] at ht
    obtain ⟨p, hp, hmem⟩ := ht.resolve_left (List.not_mem_nil)
    have hdst := hc.mem_destinations hp hmem (by simp [Location.temporary])
    have hfits := hc.lowers.fits Tables.Sound.empty (Tables.aims_none _) p hp
    refine ⟨_, hdst, (hfits.operand hmem).resolve_right ?_, ?_⟩
    · rintro ⟨i, -, heq⟩
      cases heq
    · rw [hop]
      congr 1
      omega

/-- The register file has no gap. -/
theorem writesAll : f.WritesAll := by
  intro r hr hlt
  obtain ⟨l', hdst, hseat⟩ := hc.seats_of_lt hr hlt
  exact mem_writtenBy hc.assembled.code hdst hseat

/-- A register that an instruction reads is written by one before it. -/
theorem readsWritten : f.ReadsWritten := by
  intro i instr ref hi hmem href
  obtain ⟨hlt, rfl⟩ := List.getElem?_eq_some_iff.mp hi
  have hlt' : i < c.code.length := by rw [hc.assembled.code.length_eq]; exact hlt
  have hp : Assembles c c.code[i] f.code[i] := hc.assembled.code.get hlt' hlt
  obtain ⟨l', hl', hseat⟩ := hp.source hmem href
  have hdst := hc.assigns.reads.at (List.getElem?_eq_getElem hlt') l' hl'
    hseat.isRegister.kind_ne
  exact mem_writtenBy (List.forall₂_take i hc.assembled.code) hdst hseat

/-- The register of the result is written. -/
theorem result_mem_writtenBy {ref : Int} (hres : f.result = some ref)
    (href : 0 ≤ ref) :
    ref ∈ writtenBy f.code := by
  obtain ⟨ref', hname, hres'⟩ := hc.assembled.result
  obtain rfl : ref = ref' := Option.some.inj (hres.symm.trans hres')
  have hseat := hname.seats href
  exact mem_writtenBy hc.assembled.code
    (hc.assigns.answer hseat.isRegister.kind_ne) hseat

end Compiled

end Lowering

end RegisterVm
