import RegisterVm.Proofs.Sequence
import RegisterVm.Proofs.Validity
import RegisterVm.Stepper.Listing

/-!
# When an explained listing fails

An operand never makes an explained listing fail, whatever its size and sign: a
reference to a constant that is not there is shown bare, and a register has a
name from zero up, also beyond the locals (`operandText_shown`). What is looked
up is always there, so only two things go wrong with an instruction
(`Unexplained`): it has no mnemonic, or it lacks an operand that its opcode
takes.

The lines are made in order, so the first such instruction decides the error,
and without one every instruction has its line.
-/

namespace RegisterVm.Stepper

/-! ## Operands -/

/-- How an operand is shown, by what there is to look up. -/
inductive Shown (f : Frame) (ref : Int) : String → Prop where
  | constant {v : Value} (hneg : ref < 0)
      (hv : signedGet? f.constants (Operand.constantIndex ref) = some v) :
      Shown f ref s!"{Operand.text ref} ({v.text})"
  | noConstant (hneg : ref < 0)
      (hlen : f.constants.length ≤ Operand.constantIndex ref) :
      Shown f ref (Operand.text ref)
  | register {name : String} (hnonneg : 0 ≤ ref)
      (hname : f.registerName ref = .ok name) :
      Shown f ref s!"{Operand.text ref} ({name})"

theorem operandText_shown (f : Frame) (ref : Int) :
    Shown f ref (operandText f ref) := by
  rw [operandText]
  split
  · rename_i hconst
    have hneg : ref < 0 := by simpa [Operand.isConstant] using hconst
    have hindex : 0 ≤ Operand.constantIndex ref := by
      rw [Operand.constantIndex]
      omega
    split
    · rename_i v hv
      exact .constant hneg (by rw [signedGet?, if_pos hindex]; exact hv)
    · rename_i hnone
      have hlen := List.getElem?_eq_none_iff.mp hnone
      exact .noConstant hneg (by omega)
  · rename_i hconst
    have hnonneg : 0 ≤ ref := by simpa [Operand.isConstant] using hconst
    exact .register hnonneg (by rw [Frame.registerName, if_pos hnonneg])

/-! ## Instructions -/

/-- Why an instruction has no line. -/
inductive Unexplained : Instruction → ListingError → Prop where
  | raw {instr : Instruction} (h : ∀ op, instr.tag ≠ .opcode op) :
      Unexplained instr (.noText (.noMnemonic instr.tag))
  | short {instr : Instruction} {op : Opcode} (htag : instr.tag = .opcode op)
      (hshort : instr.args.length < op.operandCount) :
      Unexplained instr (.missing (.operand instr.args.length))

/-- What stands before the remark in a line. -/
def lineStart (i : Nat) (op : Opcode) (args : List Int) : String :=
  Text.flushRight 6 (toString i) ++ ": " ++ Text.flushLeft 24 (op.render args)

/-- The line of an instruction, in which operands beyond those of its opcode are
not explained. -/
inductive Explained (f : Frame) (i : Nat) : Instruction → String → Prop where
  | copy {op : Opcode} {dst src : Int} {more : List Int} {d s : String}
      (hop : op = .move ∨ op = .loadConstant)
      (hd : Shown f dst d) (hs : Shown f src s) :
      Explained f i ⟨.opcode op, dst :: src :: more⟩
        (lineStart i op (dst :: src :: more) ++ s!"  ; {d} <- {s}")
  | sum {dst lhs rhs : Int} {more : List Int} {d a b : String}
      (hd : Shown f dst d) (ha : Shown f lhs a)
      (hb : Shown f rhs b) :
      Explained f i ⟨.opcode .add, dst :: lhs :: rhs :: more⟩
        (lineStart i .add (dst :: lhs :: rhs :: more) ++ s!"  ; {d} <- {a} + {b}")

theorem exists_operands {args : List Int} (h : 2 ≤ args.length) :
    ∃ a b more, args = a :: b :: more := by
  rcases args with _ | ⟨a, _ | ⟨b, more⟩⟩
  · cases h
  · exact absurd h (Nat.lt_irrefl 1)
  · exact ⟨a, b, more, rfl⟩

/-- Operands are missing from the end, so the first one missing is known by how
many there are. -/
theorem remark_short {op : Opcode} {args : List Int}
    (h : args.length < op.operandCount) (f : Frame) :
    remark f ⟨.opcode op, args⟩ = .error (.operand args.length) := by
  rcases args with _ | ⟨a, _ | ⟨b, _ | ⟨c, more⟩⟩⟩
  · cases op <;> rfl
  · cases op <;> rfl
  · cases op with
    | move | loadConstant => exact absurd h (Nat.lt_irrefl 2)
    | add => rfl
  · have hmost : op.operandCount ≤ 3 := by cases op <;> decide
    simp only [List.length_cons] at h
    omega

theorem line_of_unexplained {instr : Instruction} {err : ListingError}
    (h : Unexplained instr err) (f : Frame) (i : Nat) :
    line f instr i = .error err := by
  obtain ⟨tag, args⟩ := instr
  cases h with
  | raw h =>
      cases tag with
      | opcode op => exact absurd rfl (h op)
      | number n => rfl
      | word s => rfl
  | short htag hshort =>
      obtain rfl := htag
      rw [line, remark_short hshort]
      rfl

theorem line_of_explained {instr : Instruction}
    (h : ∀ err, ¬Unexplained instr err) (f : Frame) (i : Nat) :
    ∃ s, line f instr i = .ok s ∧ Explained f i instr s := by
  obtain ⟨tag, args⟩ := instr
  cases tag with
  | number n => exact absurd (.raw (by simp)) (h _)
  | word s => exact absurd (.raw (by simp)) (h _)
  | opcode op =>
      have hlen : op.operandCount ≤ args.length :=
        Nat.not_lt.mp fun hshort => h _ (.short rfl hshort)
      have hshown := operandText_shown f
      cases op with
      | move =>
          obtain ⟨dst, src, more, rfl⟩ := exists_operands hlen
          exact ⟨_, rfl, .copy (.inl rfl) (hshown dst) (hshown src)⟩
      | loadConstant =>
          obtain ⟨dst, src, more, rfl⟩ := exists_operands hlen
          exact ⟨_, rfl, .copy (.inr rfl) (hshown dst) (hshown src)⟩
      | add =>
          obtain ⟨dst, lhs, rest, rfl⟩ :=
            exists_operands (Nat.le_of_succ_le hlen)
          have hthird : 0 < rest.length :=
            Nat.lt_of_succ_lt_succ (Nat.lt_of_succ_lt_succ hlen)
          obtain ⟨rhs, more, rfl⟩ := List.exists_cons_of_length_pos hthird
          exact ⟨_, rfl, .sum (hshown dst) (hshown lhs) (hshown rhs)⟩

/-! ## Whole listings -/

theorem explained_or_first (code : List Instruction) :
    (∀ instr ∈ code, ∀ err, ¬Unexplained instr err)
      ∨ ∃ before instr after err, code = before ++ instr :: after
        ∧ (∀ instr' ∈ before, ∀ err', ¬Unexplained instr' err')
        ∧ Unexplained instr err := by
  induction code with
  | nil => exact .inl (List.forall_mem_nil _)
  | cons instr code ih =>
      by_cases hinstr : ∃ err, Unexplained instr err
      · obtain ⟨err, herr⟩ := hinstr
        exact .inr ⟨[], instr, code, err, rfl, List.forall_mem_nil _, herr⟩
      · have hfirst : ∀ err, ¬Unexplained instr err := not_exists.mp hinstr
        rcases ih with hall | ⟨before, bad, after, err, rfl, hbefore, hbad⟩
        · exact .inl (List.forall_mem_cons.mpr ⟨hfirst, hall⟩)
        · exact .inr ⟨instr :: before, bad, after, err, rfl,
            List.forall_mem_cons.mpr ⟨hfirst, hbefore⟩, hbad⟩

theorem listing_eq_bind (f : Frame) : listing f
    = (f.code.zipIdx.mapM fun p => line f p.1 p.2) >>= fun code =>
      .ok (header f ++ code) := rfl

theorem listing_of_first {f : Frame} {before after : List Instruction}
    {instr : Instruction} {err : ListingError}
    (hcode : f.code = before ++ instr :: after)
    (hbefore : ∀ instr' ∈ before, ∀ err', ¬Unexplained instr' err')
    (h : Unexplained instr err) : listing f = .error err := by
  have hlines : f.code.zipIdx.mapM (fun p => line f p.1 p.2) = .error err := by
    rw [hcode, List.zipIdx_append, List.zipIdx_cons]
    refine mapM_error_of_first _ ?_ (line_of_unexplained h f _)
    rintro ⟨instr', i⟩ hmem
    obtain ⟨s, hs, -⟩ :=
      line_of_explained (hbefore instr' (List.fst_mem_of_mem_zipIdx hmem)) f i
    exact ⟨s, hs⟩
  rw [listing_eq_bind, hlines]
  rfl

theorem listing_of_explained {f : Frame}
    (h : ∀ instr ∈ f.code, ∀ err, ¬Unexplained instr err) :
    ∃ lines, listing f = .ok (header f ++ lines) ∧ lines.length = f.code.length
      ∧ ∀ i instr, f.code[i]? = some instr →
        ∃ s, lines[i]? = some s ∧ Explained f i instr s := by
  obtain ⟨lines, hlines⟩ : ∃ lines, f.code.zipIdx.mapM (fun p => line f p.1 p.2)
      = .ok lines := by
    refine exists_mapM_ok ?_
    rintro ⟨instr, i⟩ hmem
    obtain ⟨s, hs, -⟩ :=
      line_of_explained (h instr (List.fst_mem_of_mem_zipIdx hmem)) f i
    exact ⟨s, hs⟩
  obtain ⟨hlength, hline⟩ := List.forall₂_iff_get.mp (mapM_ok_iff.mp hlines)
  rw [List.length_zipIdx] at hlength
  refine ⟨lines, by rw [listing_eq_bind, hlines]; rfl, hlength.symm, ?_⟩
  intro i instr hi
  obtain ⟨hlt, rfl⟩ := List.getElem?_eq_some_iff.mp hi
  have hlt' : i < lines.length := hlength ▸ hlt
  obtain ⟨s, hs, hexplained⟩ :=
    line_of_explained (h f.code[i] (List.getElem_mem hlt)) f i
  have hget := hline i (by rw [List.length_zipIdx]; exact hlt) hlt'
  simp only [List.get_eq_getElem, List.getElem_zipIdx, Nat.zero_add, hs] at hget
  exact ⟨s, by rw [List.getElem?_eq_getElem hlt', ← Except.ok.inj hget],
    hexplained⟩

theorem explained_of_valid {f : Frame} {instr : Instruction} (h : instr.Valid f)
    (err : ListingError) :
    ¬Unexplained instr err := by
  intro hbad
  cases hbad with
  | raw hraw => cases h <;> exact hraw _ rfl
  | short htag hshort =>
      cases h <;> cases htag <;> exact absurd hshort (Nat.lt_irrefl _)

/-- An explained listing fails if and only if some instruction has no mnemonic
or lacks an operand that its opcode takes, whatever the size of the frame and
the operands are. The first such instruction decides the error. Otherwise the
listing has five lines at its head and then the lines of the instructions in
order. It never fails for a frame without defects. -/
theorem listing_outcome (f : Frame) :
    ((∃ err, listing f = .error err)
      ↔ ∃ instr ∈ f.code, ∃ err, Unexplained instr err)
    ∧ (∀ before instr after err, f.code = before ++ instr :: after →
      (∀ instr' ∈ before, ∀ err', ¬Unexplained instr' err') →
        Unexplained instr err → listing f = .error err)
    ∧ ((∀ instr ∈ f.code, ∀ err, ¬Unexplained instr err) →
      ∃ lines, listing f = .ok (header f ++ lines) ∧ (header f).length = 5
        ∧ lines.length = f.code.length
        ∧ ∀ i instr, f.code[i]? = some instr →
          ∃ s, lines[i]? = some s ∧ Explained f i instr s)
    ∧ (f.defect? = none → ∃ lines, listing f = .ok lines) := by
  refine ⟨⟨?_, ?_⟩, fun _ _ _ _ => listing_of_first, fun hall => ?_,
    fun hnone => ?_⟩
  · rintro ⟨err, herr⟩
    rcases explained_or_first f.code with hall
      | ⟨before, instr, after, err', hcode, -, hbad⟩
    · obtain ⟨lines, hok, -⟩ := listing_of_explained hall
      rw [hok] at herr
      cases herr
    · exact ⟨instr, by simp [hcode], err', hbad⟩
  · rintro ⟨instr, hmem, err, hbad⟩
    rcases explained_or_first f.code with hall
      | ⟨before, instr', after, err', hcode, hbefore, hbad'⟩
    · exact absurd hbad (hall instr hmem err)
    · exact ⟨err', listing_of_first hcode hbefore hbad'⟩
  · obtain ⟨lines, hok, hlength, hlines⟩ := listing_of_explained hall
    exact ⟨lines, hok, rfl, hlength, hlines⟩
  · have hvalid := (Frame.defect?_eq_none_iff.mp hnone).code
    obtain ⟨lines, hok, -⟩ := listing_of_explained fun instr hmem =>
      explained_of_valid (hvalid instr hmem)
    exact ⟨_, hok⟩

end RegisterVm.Stepper
