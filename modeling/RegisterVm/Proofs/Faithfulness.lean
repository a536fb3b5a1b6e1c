import Mathlib
import RegisterVm.Frame.Listing
import RegisterVm.Proofs.ReadBack
import RegisterVm.Proofs.Sequence

/-!
# Listings are faithful

Two frames with the same listing are the same frame, as far as a listing shows
it. The text is taken apart in the way it is put together, and at each place one
kind of character or line tells where a part ends (`cut_inj`): a newline ends a
line, a line that is indented less ends a section, a space ends an opcode or the
size, a comma ends an operand. No index has to be read: the lines of a section
stand in order, so lines at the same place begin alike.

What a local is called cannot confuse this, since its name stands behind the
indentation and the register of its line.
-/

namespace RegisterVm

/-- Two rows that go on with something else fall apart at the same place. -/
theorem cut_inj {α : Type} {P : α → Prop} {xs ys zs ws : List α}
    (hxs : ∀ x ∈ xs, P x) (hys : ∀ y ∈ ys, P y) (hzs : ∀ z ∈ zs.head?, ¬P z)
    (hws : ∀ w ∈ ws.head?, ¬P w) (h : xs ++ zs = ys ++ ws) :
    xs = ys ∧ zs = ws := by
  induction xs generalizing ys with
  | nil =>
      cases ys with
      | nil => exact ⟨rfl, h⟩
      | cons y ys =>
          obtain rfl : zs = y :: (ys ++ ws) := h
          exact absurd (hys y List.mem_cons_self) (hzs y rfl)
  | cons x xs ih =>
      cases ys with
      | nil =>
          obtain rfl : x :: (xs ++ zs) = ws := h
          exact absurd (hxs x List.mem_cons_self) (hws x rfl)
      | cons y ys =>
          obtain ⟨rfl, hrest⟩ := List.cons.inj h
          obtain ⟨rfl, htail⟩ := ih (fun x' hx' =>
            hxs x' (List.mem_cons_of_mem _ hx')) (fun y' hy' =>
              hys y' (List.mem_cons_of_mem _ hy')) hrest
          exact ⟨rfl, htail⟩

/-! ## Integers -/

namespace Text

theorem ne_of_isNumeralChar {c x : Char} (hc : isNumeralChar c = true)
    (hx : isNumeralChar x = false) : c ≠ x := by
  rintro rfl
  rw [hc] at hx
  cases hx

theorem isNumeralChar_withSign {neg : Bool} {cs : List Char}
    (h : ∀ c ∈ cs, isNumeralChar c = true) :
    ∀ c ∈ (withSign neg cs).toList, isNumeralChar c = true := by
  intro c hc
  rw [withSign, String.toList_ofList] at hc
  cases neg with
  | false => exact h c hc
  | true =>
      rcases List.mem_cons.mp hc with rfl | hc
      · rfl
      · exact h c hc

theorem isNumeralChar_toString_int (n : ℤ) :
    ∀ c ∈ (toString n).toList, isNumeralChar c = true := by
  rw [Value.toString_int]
  exact isNumeralChar_withSign (allDigits_toDigits _).isNumeralChar

/-- An integer ends before a character that is in no numeral. -/
theorem toString_int_append_inj {m n : ℤ} {zs ws : List Char}
    (hzs : ∀ z ∈ zs.head?, isNumeralChar z = false)
    (hws : ∀ w ∈ ws.head?, isNumeralChar w = false)
    (h : (toString m).toList ++ zs = (toString n).toList ++ ws) :
    m = n ∧ zs = ws := by
  obtain ⟨htext, hrest⟩ := cut_inj (P := fun c => isNumeralChar c = true)
    (isNumeralChar_toString_int m) (isNumeralChar_toString_int n)
    (fun z hz => by simp [hzs z hz]) (fun w hw => by simp [hws w hw]) h
  exact ⟨Int.repr_injective (String.toList_inj.mp htext), hrest⟩

/-! ## Lines -/

def OneLine (s : String) : Prop := '\n' ∉ s.toList

instance (s : String) : Decidable (OneLine s) :=
  inferInstanceAs (Decidable (_ ∉ _))

theorem oneLine_of_isNumeralChar {s : String}
    (h : ∀ c ∈ s.toList, isNumeralChar c = true) : OneLine s :=
  fun hc => ne_of_isNumeralChar (h _ hc) (by decide) rfl

theorem oneLine_toString_int (n : ℤ) : OneLine (toString n) :=
  oneLine_of_isNumeralChar (isNumeralChar_toString_int n)

theorem oneLine_toString_nat (n : Nat) : OneLine (toString n) :=
  oneLine_toString_int n

theorem OneLine.append {s t : String} (hs : OneLine s) (ht : OneLine t) :
    OneLine (s ++ t) := by
  rw [OneLine, String.toList_append, List.mem_append, not_or]
  exact ⟨hs, ht⟩

/-- Lines are told apart by the newlines between them. -/
theorem lines_inj {ls ls' : List String} (hls : ∀ l ∈ ls, OneLine l)
    (hls' : ∀ l ∈ ls', OneLine l) (hne : ls ≠ []) (hne' : ls' ≠ [])
    (h : lines ls = lines ls') : ls = ls' := by
  have hsplit : ∀ {ks : List String}, (∀ k ∈ ks, OneLine k) → ks ≠ [] →
      (lines ks).toList.splitOn '\n' = ks.map String.toList := by
    intro ks hks hne
    rw [lines, String.toList_intercalate]
    refine List.splitOn_intercalate '\n' ?_ (by simpa using hne)
    intro cs hcs
    obtain ⟨k, hk, rfl⟩ := List.mem_map.mp hcs
    exact hks k hk
  have hchars := (hsplit hls hne).symm.trans
    ((congrArg (fun s => s.toList.splitOn '\n') h).trans (hsplit hls' hne'))
  exact (List.map_injective_iff.mpr fun _ _ => String.toList_inj.mp) hchars

end Text

/-! ## Instructions -/

namespace Instruction

open Text

/-- The operands behind the first, each with the comma before it. -/
def moreOperands (args : List ℤ) : List Char :=
  args.flatMap fun a => ',' :: ' ' :: (toString a).toList

theorem toList_operands (a : ℤ) (args : List ℤ) :
    (", ".intercalate ((a :: args).map toString)).toList
      = (toString a).toList ++ moreOperands args := by
  induction args generalizing a with
  | nil => simp [moreOperands]
  | cons b args ih =>
      rw [List.map_cons, List.map_cons, String.intercalate_cons_cons,
        ← List.map_cons, String.toList_append, ih]
      simp [moreOperands]

theorem head?_moreOperands (args : List ℤ) :
    ∀ c ∈ (moreOperands args).head?, isNumeralChar c = false := by
  cases args with
  | nil => intro c hc; cases hc
  | cons a args => rintro c ⟨⟩; decide

theorem moreOperands_inj {args args' : List ℤ}
    (h : moreOperands args = moreOperands args') : args = args' := by
  induction args generalizing args' with
  | nil =>
      cases args' with
      | nil => rfl
      | cons => cases h
  | cons a args ih =>
      cases args' with
      | nil => cases h
      | cons a' args' =>
          have htail : (toString a).toList ++ moreOperands args
              = (toString a').toList ++ moreOperands args' :=
            (List.cons.inj (List.cons.inj h).2).2
          obtain ⟨rfl, hrest⟩ := toString_int_append_inj
            (head?_moreOperands args) (head?_moreOperands args') htail
          rw [ih hrest]

/-- What stands behind a mnemonic. -/
def operandPart : List ℤ → List Char
  | [] => []
  | a :: args => ' ' :: ((toString a).toList ++ moreOperands args)

theorem toList_render (op : Opcode) (args : List ℤ) :
    (op.render args).toList = op.mnemonic.toList ++ operandPart args := by
  cases args with
  | nil => simp [Opcode.render, operandPart]
  | cons a args =>
      rw [Opcode.render, List.isEmpty_cons, if_neg Bool.false_ne_true,
        String.toList_append, String.toList_append, toList_operands,
        operandPart, List.append_assoc]
      rfl

theorem operandPart_inj {args args' : List ℤ}
    (h : operandPart args = operandPart args') : args = args' := by
  cases args with
  | nil =>
      cases args' with
      | nil => rfl
      | cons => cases h
  | cons a args =>
      cases args' with
      | nil => cases h
      | cons a' args' =>
          obtain ⟨rfl, hrest⟩ := toString_int_append_inj
            (head?_moreOperands args) (head?_moreOperands args')
            (List.cons.inj h).2
          rw [moreOperands_inj hrest]

theorem render_inj {op op' : Opcode} {args args' : List ℤ}
    (h : op.render args = op'.render args') :
    op = op' ∧ args = args' := by
  have hword : ∀ op : Opcode, ∀ c ∈ op.mnemonic.toList, c ≠ ' ' := by
    intro op
    cases op <;> exact List.all_iff_forall_prop.mp (by decide)
  have hspace : ∀ args, ∀ c ∈ (operandPart args).head?, ¬c ≠ ' ' := by
    intro args
    cases args with
    | nil => intro c hc; cases hc
    | cons => rintro c ⟨⟩; simp
  rw [← String.toList_inj, toList_render, toList_render] at h
  obtain ⟨hop, hargs⟩ :=
    cut_inj (hword op) (hword op') (hspace args) (hspace args') h
  refine ⟨?_, operandPart_inj hargs⟩
  cases op <;> cases op' <;> first | rfl | exact absurd hop (by decide)

theorem oneLine_render (op : Opcode) (args : List ℤ) :
    OneLine (op.render args) := by
  have hmore : ∀ args, '\n' ∉ moreOperands args := by
    intro args hmem
    obtain ⟨a, -, hc⟩ := List.mem_flatMap.mp hmem
    simp only [List.mem_cons, Char.reduceEq, false_or] at hc
    exact oneLine_toString_int a hc
  rw [OneLine, toList_render, List.mem_append, not_or]
  refine ⟨by cases op <;> decide, ?_⟩
  cases args with
  | nil => exact List.not_mem_nil
  | cons a args =>
      simp only [operandPart, List.mem_cons, List.mem_append, Char.reduceEq,
        false_or, not_or]
      exact ⟨oneLine_toString_int a, hmore args⟩

/-- The text of an instruction, if it has one. -/
def shown (instr : Instruction) : String :=
  match instr.tag with
  | .opcode op => op.render instr.args
  | _ => ""

theorem oneLine_shown (instr : Instruction) : OneLine instr.shown := by
  rw [shown]
  split
  · exact oneLine_render _ _
  · decide

theorem shown_inj {instr instr' : Instruction}
    (hop : ∃ op, instr.tag = .opcode op) (hop' : ∃ op, instr'.tag = .opcode op)
    (h : instr.shown = instr'.shown) : instr = instr' := by
  obtain ⟨tag, args⟩ := instr
  obtain ⟨tag', args'⟩ := instr'
  obtain ⟨op, rfl⟩ : ∃ op, tag = .opcode op := hop
  obtain ⟨op', rfl⟩ : ∃ op', tag' = .opcode op' := hop'
  obtain ⟨rfl, rfl⟩ := render_inj h
  rfl

end Instruction

/-! ## Values -/

namespace Value

open Text

theorem oneLine_text (v : Value) : OneLine v.text := by
  cases v with
  | nil => decide
  | boolean b => cases b <;> decide
  | number x =>
      rw [text, numberText]
      cases hint : x.toInt? with
      | some n => exact oneLine_toString_int n
      | none =>
          cases x with
          | nan => decide
          | infinite neg => cases neg <;> decide
          | finite neg r =>
              exact oneLine_of_isNumeralChar
                (isNumeralChar_withSign (spells_write numberLayout
                  (shortest_digits_ne_zero hint)).chars)

end Value

/-! ## Lines of a frame -/

namespace Frame

open Text

def Indented (s : String) : Prop := [' ', ' ', ' '] <+: s.toList

instance (s : String) : Decidable (Indented s) :=
  inferInstanceAs (Decidable (_ <+: _))

theorem Indented.append {s : String} (h : Indented s) (t : String) :
    Indented (s ++ t) := by
  rw [Indented, String.toList_append]
  exact h.trans (List.prefix_append _ _)

/-! ### Rows of lines -/

theorem forall_mem_enumerate {α : Type} {line : α → Nat → String}
    {Q : String → Prop} {xs : List α} (h : ∀ x ∈ xs, ∀ i, Q (line x i)) :
    ∀ l ∈ enumerate line xs, Q l := by
  intro l hl
  obtain ⟨⟨x, i⟩, hmem, rfl⟩ := List.mem_map.mp hl
  exact h x (List.fst_mem_of_mem_zipIdx hmem) i

/-- Elements at the same place have the same line, so rows with the same lines
agree in what a line shows. -/
theorem map_eq_of_enumerate {α β : Type} {line : α → Nat → String} {key : α → β}
    {xs ys : List α}
    (hkey : ∀ x ∈ xs, ∀ y ∈ ys, ∀ i, line x i = line y i → key x = key y)
    (h : enumerate line xs = enumerate line ys) : xs.map key = ys.map key := by
  rw [enumerate, enumerate] at h
  -- the numbers go up along the row, so the induction is for rows from any
  -- number on
  generalize 0 = start at h
  induction xs generalizing ys start with
  | nil =>
      cases ys with
      | nil => rfl
      | cons => cases h
  | cons x xs ih =>
      cases ys with
      | nil => cases h
      | cons y ys =>
          obtain ⟨hline, hrest⟩ := List.cons.inj h
          rw [List.map_cons, List.map_cons,
            hkey x List.mem_cons_self y List.mem_cons_self start hline,
            ih (fun x' hx' y' hy' => hkey x' (List.mem_cons_of_mem _ hx') y'
              (List.mem_cons_of_mem _ hy')) _ hrest]

/-! ### Each kind of line -/

theorem oneLine_place (i : Nat) : OneLine (place i) := by
  rw [OneLine, place, flushRight, String.toList_ofList, List.leftpad,
    List.mem_append, List.mem_replicate, not_or]
  exact ⟨fun h => absurd h.2 (by decide), oneLine_toString_nat i⟩

def codeLine (instr : Instruction) (i : Nat) : String :=
  s!"    {place i}: {instr.shown}"

/-- Constants, locals and instructions have their lines in one form. -/
theorem oneLine_row {label mark text : String} (hlabel : OneLine label)
    (hmark : OneLine mark) (htext : OneLine text) :
    OneLine (label ++ mark ++ ": " ++ text) :=
  ((hlabel.append hmark).append (by decide)).append htext

theorem indented_row {label : String} (hlabel : Indented label)
    (mark text : String) :
    Indented (label ++ mark ++ ": " ++ text) :=
  ((hlabel.append mark).append ": ").append text

theorem constantLine_inj {v w : Value} {i : Nat}
    (h : constantLine v i = constantLine w i) : v.text = w.text :=
  (String.append_right_inj _).mp h

theorem localLine_inj {name name' : String} {i : Nat}
    (h : localLine name i = localLine name' i) : name = name' :=
  (String.append_right_inj _).mp h

theorem codeLine_inj {instr instr' : Instruction} {i : Nat}
    (h : codeLine instr i = codeLine instr' i) :
    instr.shown = instr'.shown :=
  (String.append_right_inj _).mp h

theorem oneLine_sizeLine (f : Frame) : OneLine f.sizeLine := by
  have hwords : OneLine "  Size: " ∧ OneLine " (" ∧ OneLine " locals, "
      ∧ OneLine " temporaries)" := by decide
  have hsize := (hwords.1.append (oneLine_toString_int f.size)).append hwords.2.1
  have hlocals :=
    (hsize.append (oneLine_toString_nat f.locals.length)).append hwords.2.2.1
  exact (hlocals.append (oneLine_toString_int f.temporaryCount)).append
    hwords.2.2.2

/-- The size of a frame ends at the word behind it. -/
theorem size_inj {label next a b c d a' c' : String} {m n : ℤ}
    (hnext : ∀ rest, ∀ x ∈ (next ++ rest).toList.head?, isNumeralChar x = false)
    (h : label ++ toString m ++ next ++ a ++ b ++ c ++ d
      = label ++ toString n ++ next ++ a' ++ b ++ c' ++ d) :
    m = n := by
  simp only [String.append_assoc, String.append_right_inj] at h
  rw [← String.toList_inj, String.toList_append,
    String.toList_append (s := toString n)] at h
  exact (toString_int_append_inj (hnext _) (hnext _) h).1

theorem sizeLine_inj {f g : Frame} (h : f.sizeLine = g.sizeLine) :
    f.size = g.size := by
  refine size_inj ?_ h
  intro rest x hx
  rw [String.toList_append] at hx
  cases hx
  decide

theorem operandText_inj {ref ref' : ℤ}
    (h : Operand.text ref = Operand.text ref') : ref = ref' := by
  have hletter : ∀ {a b : String}, "k" ++ a ≠ "r" ++ b := by
    intro a b heq
    rw [← String.toList_inj, String.toList_append, String.toList_append] at heq
    exact absurd (List.cons.inj heq).1 (by decide)
  rw [Operand.text, Operand.text] at h
  split at h <;> split at h
  · have hindex := Int.repr_injective ((String.append_right_inj "k").mp h)
    simp only [Operand.constantIndex] at hindex
    omega
  · exact absurd h hletter
  · exact absurd h.symm hletter
  · exact Int.repr_injective ((String.append_right_inj "r").mp h)

theorem resultLine_inj {result result' : Option ℤ}
    (h : resultLine result = resultLine result') :
    result = result' := by
  cases result with
  | none =>
      cases result' with
      | none => rfl
      | some => cases h
  | some ref =>
      cases result' with
      | none => cases h
      | some ref' =>
          have htext : Operand.text ref = Operand.text ref' :=
            (String.append_right_inj _).mp (List.cons.inj h).1
          rw [operandText_inj htext]

theorem oneLine_resultLine (result : Option ℤ) :
    ∀ l ∈ resultLine result, OneLine l := by
  cases result with
  | none => intro l hl; cases hl
  | some ref =>
      intro l hl
      obtain rfl := List.mem_singleton.mp hl
      have hwords : OneLine "  Result: " ∧ OneLine "k" ∧ OneLine "r" := by decide
      refine hwords.1.append ?_
      rw [Operand.text]
      split
      · exact hwords.2.1.append (oneLine_toString_int _)
      · exact hwords.2.2.append (oneLine_toString_int _)

theorem not_indented_resultLine (result : Option ℤ) :
    ∀ l ∈ (resultLine result).head?, ¬Indented l := by
  cases result with
  | none => intro l hl; cases hl
  | some ref =>
      rintro l ⟨⟩ h
      obtain ⟨rest, hrest⟩ := h
      rw [String.toList_append] at hrest
      cases hrest

/-! ### The whole text -/

/-- The lines of a listing. -/
def page (f : Frame) : List String :=
  ["KestrelFunctionFrame", f.sizeLine, "  Constants:"]
    ++ enumerate constantLine f.constants
    ++ "  Locals:" :: enumerate localLine f.locals
    ++ "  Instructions:" :: enumerate codeLine f.code
    ++ resultLine f.result

theorem page_ne_nil (f : Frame) : f.page ≠ [] := List.cons_ne_nil _ _

theorem listing_eq {f : Frame}
    (hf : ∀ instr ∈ f.code, ∃ op, instr.tag = .opcode op) :
    f.listing = .ok (Text.lines f.page) := by
  have hcode : f.instructionLines = .ok (enumerate codeLine f.code) := by
    refine mapM_eq_ok_map ?_
    rintro ⟨instr, i⟩ hmem
    obtain ⟨op, hop⟩ := hf instr (List.fst_mem_of_mem_zipIdx hmem)
    simp only [instructionLine, Instruction.text, codeLine, Instruction.shown, hop]
    rfl
  rw [listing, hcode]
  rfl

theorem oneLine_page {f : Frame} (hlocals : ∀ name ∈ f.locals, OneLine name) :
    ∀ l ∈ f.page, OneLine l := by
  have hwords : OneLine "KestrelFunctionFrame" ∧ OneLine "  Constants:"
      ∧ OneLine "  Locals:"
      ∧ OneLine "  Instructions:" ∧ OneLine "    k" ∧ OneLine "    r"
        ∧ OneLine "    " := by decide
  obtain ⟨htitle, hconstants, hnames, hcode, hk, hr, hindent⟩ := hwords
  intro l hl
  simp only [page, List.mem_append, List.mem_cons, List.not_mem_nil,
    or_false] at hl
  rcases hl with ((((rfl | rfl | rfl) | hl) | rfl | hl) | rfl | hl) | hl
  · exact htitle
  · exact f.oneLine_sizeLine
  · exact hconstants
  · exact forall_mem_enumerate (fun v _ i =>
      oneLine_row hk (oneLine_toString_nat i) v.oneLine_text) l hl
  · exact hnames
  · exact forall_mem_enumerate (fun name hname i =>
      oneLine_row hr (oneLine_toString_nat i) (hlocals name hname)) l hl
  · exact hcode
  · exact forall_mem_enumerate (fun instr _ i =>
      oneLine_row hindent (oneLine_place i) instr.oneLine_shown) l hl
  · exact oneLine_resultLine f.result l hl

/-- The sections of a page end where the indentation does. -/
theorem page_inj {f g : Frame} (h : f.page = g.page) :
    f.sizeLine = g.sizeLine
      ∧ enumerate constantLine f.constants = enumerate constantLine g.constants
      ∧ enumerate localLine f.locals = enumerate localLine g.locals
      ∧ enumerate codeLine f.code = enumerate codeLine g.code
      ∧ resultLine f.result = resultLine g.result := by
  have hheads : ¬Indented "  Locals:" ∧ ¬Indented "  Instructions:" := by decide
  have hindents : Indented "    k" ∧ Indented "    r"
      ∧ Indented "    " := by decide
  have hconstants : ∀ f : Frame, ∀ l ∈ enumerate constantLine f.constants,
      Indented l :=
    fun f => forall_mem_enumerate fun v _ i => indented_row hindents.1 _ _
  have hlocals : ∀ f : Frame, ∀ l ∈ enumerate localLine f.locals, Indented l :=
    fun f => forall_mem_enumerate fun name _ i => indented_row hindents.2.1 _ _
  have hcode : ∀ f : Frame, ∀ l ∈ enumerate codeLine f.code, Indented l :=
    fun f => forall_mem_enumerate fun instr _ i => indented_row hindents.2.2 _ _
  have hhead : ∀ {head : String}, ¬Indented head →
      ∀ rest : List String, ∀ l ∈ (head :: rest).head?, ¬Indented l := by
    rintro head hhead rest l ⟨⟩
    exact hhead
  simp only [page, List.cons_append, List.nil_append, List.append_assoc,
    List.cons.injEq, true_and] at h
  obtain ⟨hsize, hrest⟩ := h
  -- a local may be called like a header, but the line it has is indented
  obtain ⟨hc, hrest⟩ := cut_inj (hconstants f) (hconstants g) (hhead hheads.1 _)
    (hhead hheads.1 _) hrest
  obtain ⟨hl, hrest⟩ := cut_inj (hlocals f) (hlocals g) (hhead hheads.2 _)
    (hhead hheads.2 _) (List.cons.inj hrest).2
  obtain ⟨hi, hr⟩ := cut_inj (hcode f) (hcode g) (not_indented_resultLine _)
    (not_indented_resultLine _) (List.cons.inj hrest).2
  exact ⟨hsize, hc, hl, hi, hr⟩

/-- Two frames of real instructions, without newlines in the names of their
locals, have the same listing only if they have the same size, locals,
instructions and result, and as many constants with the same texts. -/
theorem listing_faithful {f g : Frame}
    (hf : ∀ instr ∈ f.code, ∃ op, instr.tag = .opcode op)
    (hg : ∀ instr ∈ g.code, ∃ op, instr.tag = .opcode op)
    (hfl : ∀ name ∈ f.locals, '\n' ∉ name.toList)
    (hgl : ∀ name ∈ g.locals, '\n' ∉ name.toList) (h : f.listing = g.listing) :
    f.size = g.size ∧ f.locals = g.locals ∧ f.code = g.code ∧ f.result = g.result
      ∧ f.constants.length = g.constants.length
      ∧ f.constants.map Value.text = g.constants.map Value.text := by
  rw [listing_eq hf, listing_eq hg] at h
  have hpage : f.page = g.page :=
    lines_inj (oneLine_page hfl) (oneLine_page hgl) f.page_ne_nil g.page_ne_nil
      (Except.ok.inj h)
  obtain ⟨hsize, hconstants, hlocals, hcode, hresult⟩ := page_inj hpage
  have htexts : f.constants.map Value.text = g.constants.map Value.text := by
    refine map_eq_of_enumerate ?_ hconstants
    intro v _ w _ i hline
    exact constantLine_inj hline
  have hnames : f.locals.map id = g.locals.map id := by
    refine map_eq_of_enumerate ?_ hlocals
    intro name _ name' _ i hline
    exact localLine_inj hline
  have hinstrs : f.code.map id = g.code.map id := by
    refine map_eq_of_enumerate ?_ hcode
    intro instr hmem instr' hmem' i hline
    exact Instruction.shown_inj (hf instr hmem) (hg instr' hmem')
      (codeLine_inj hline)
  rw [List.map_id, List.map_id] at hnames hinstrs
  exact ⟨sizeLine_inj hsize, hnames, hinstrs, resultLine_inj hresult,
    by simpa using congrArg List.length htexts, htexts⟩

/-- A frame with a zero of either sign, and locals that are called like a header
and like an instruction. -/
def masked (neg : Bool) : Frame where
  size := 3
  constants := [.number (.zero neg), .nil]
  locals := ["  Instructions:", "0: MOVE 0, 0"]
  code := [.add 0 (-1) 1, ⟨.opcode .move, []⟩,
    .loadConstant 2 (-1000000000000000000000000000000)]
  result := some (-2)

/-- Frames that differ in the sign of a zero have the same listing, and the same
code. -/
theorem listing_faithful_masked :
    masked false ≠ masked true ∧ (masked false).listing = (masked true).listing
    ∧ (masked false).code = (masked true).code
    ∧ (masked false).constants.map Value.text
      = (masked true).constants.map Value.text := by
  have hreal : ∀ neg, ∀ instr ∈ (masked neg).code,
      ∃ op, instr.tag = .opcode op := by
    simp [masked, Instruction.add, Instruction.loadConstant]
  have hnames : ∀ neg, ∀ name ∈ (masked neg).locals, '\n' ∉ name.toList := by
    intro neg
    cases neg <;> exact List.all_iff_forall_prop.mp (by decide)
  have hzero : (Value.number (.zero false)).text
      = (Value.number (.zero true)).text := by decide +kernel
  have hlisting : (masked false).listing = (masked true).listing := by
    rw [listing_eq (hreal false), listing_eq (hreal true)]
    simp only [page, masked, enumerate, List.zipIdx_cons, List.map_cons,
      constantLine, hzero]
    rfl
  obtain ⟨-, -, hcode, -, -, htexts⟩ :=
    listing_faithful (hreal false) (hreal true) (hnames false)
      (hnames true) hlisting
  exact ⟨by decide, hlisting, hcode, htexts⟩

end Frame

end RegisterVm
