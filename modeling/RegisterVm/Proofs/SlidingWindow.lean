import Mathlib.Data.List.DropRight
import RegisterVm.Watch.Window

/-!
# The window slides over the lines of the steps

Whatever a window is told, what it shows depends on the steps since it was last
cleared (`sinceClear`) and on nothing before them: it counts all of them, shows
the latest of their lines, as many as its limit allows, and is clipped as soon
as a line is gone.

A step whose instruction has no text has no line to come in, but a full window
has dropped its oldest line for it by then. So after such a step one line less
is shown (`room`). Only numbers and words in the place of an opcode have no
text; the steps that a machine runs always have a line.
-/

namespace RegisterVm.Watch.Window

/-! ## Calls -/

/-- What is done to a window: it is told of a step, or cleared. -/
inductive Call where
  | step (pc : Int) (instr : Instruction) (registers : List Value)
  | clear

namespace Call

def isStep : Call → Bool
  | .step .. => true
  | .clear => false

/-- What comes of writing the line of a step. -/
def line? : Call → Option (Except TagError String)
  | .step pc instr registers => some (line pc instr registers)
  | .clear => none

end Call

/-- Whether a call fails, and the window after it. -/
def answer (w : Window) : Call → Except WindowError Unit × Window
  | .step pc instr registers => w.record (line pc instr registers)
  | .clear => (.ok (), w.clear)

def afterAll (w : Window) (calls : List Call) : Window :=
  calls.foldl (fun w c => (w.answer c).2) w

/-- What came of writing the lines of the steps since the window was last
cleared. -/
def sinceClear (calls : List Call) : List (Except TagError String) :=
  (calls.rtakeWhile Call.isStep).filterMap Call.line?

/-- The lines among what came of writing them. -/
def written (steps : List (Except TagError String)) : List String :=
  steps.filterMap Except.toOption

/-- How many lines are shown at most: one less than the limit if the latest step
has no line. -/
def room (limit : Int) (steps : List (Except TagError String)) : Nat :=
  match steps.getLast? with
  | some (.error _) => limit.toNat - 1
  | _ => limit.toNat

theorem afterAll_concat (w : Window) (calls : List Call) (c : Call) :
    w.afterAll (calls ++ [c]) = ((w.afterAll calls).answer c).2 := by
  simp [afterAll]

theorem sinceClear_clear (calls : List Call) :
    sinceClear (calls ++ [.clear]) = [] := by
  rw [sinceClear, List.rtakeWhile_concat_neg _ _ _ (by simp [Call.isStep])]
  rfl

theorem sinceClear_step (calls : List Call) (pc : Int) (instr : Instruction)
    (registers : List Value) :
    sinceClear (calls ++ [.step pc instr registers])
      = sinceClear calls ++ [line pc instr registers] := by
  rw [sinceClear, List.rtakeWhile_concat_pos _ _ _ rfl, List.filterMap_append]
  rfl

theorem written_concat_ok (steps : List (Except TagError String)) (l : String) :
    written (steps ++ [.ok l]) = written steps ++ [l] := by
  simp [written, Except.toOption]

theorem written_concat_error (steps : List (Except TagError String))
    (e : TagError) :
    written (steps ++ [.error e]) = written steps := by
  simp [written, Except.toOption]

theorem written_map_ok (ls : List String) : written (ls.map .ok) = ls := by
  rw [written, List.filterMap_map]
  exact List.filterMap_some

theorem room_concat_ok (limit : Int) (steps : List (Except TagError String))
    (l : String) :
    room limit (steps ++ [.ok l]) = limit.toNat := by
  simp [room]

theorem room_concat_error (limit : Int) (steps : List (Except TagError String))
    (e : TagError) :
    room limit (steps ++ [.error e]) = limit.toNat - 1 := by
  simp [room]

theorem room_map_ok (limit : Int) (ls : List String) :
    room limit (ls.map .ok) = limit.toNat := by
  rcases List.eq_nil_or_concat' ls with rfl | ⟨ls, l, rfl⟩
  · rfl
  · rw [List.map_append]
    exact room_concat_ok limit _ l

theorem room_cases (limit : Int) (steps : List (Except TagError String)) :
    room limit steps = limit.toNat ∨ room limit steps = limit.toNat - 1 := by
  unfold room
  split
  · exact Or.inr rfl
  · exact Or.inl rfl

/-! ## One step -/

/-- A window of this limit that was told of these steps. -/
structure Slides (limit : Int) (steps : List (Except TagError String))
    (w : Window) : Prop where
  limit_eq : w.limit = limit
  lines : w.lines = (written steps).rtake (room limit steps)
  total : w.total = steps.length
  clipped : w.clipped = true ↔ room limit steps < (written steps).length

/-- What comes of a step for a window with room: the step fails only if its line
does. -/
def outcome : Except TagError String → Except WindowError Unit
  | .ok _ => .ok ()
  | .error e => .error (.noLine e)

theorem record_of_makeRoom {w roomy : Window}
    (h : makeRoom { w with total := w.total + 1 } = .ok roomy)
    (l : Except TagError String) :
    w.record l
      = (outcome l, { roomy with lines := roomy.lines ++ written [l] }) := by
  cases l with
  | ok l =>
      simp only [Window.record, h]
      rfl
  | error e =>
      have hnone : written [.error e] = [] := written_concat_error [] e
      simp only [Window.record, h, hnone, List.append_nil]
      rfl

theorem makeRoom_of_lt {w : Window} (h : w.lines.length < w.limit) :
    w.makeRoom = .ok w := by
  rw [makeRoom, if_neg (by omega)]

theorem makeRoom_of_full {w : Window} {l : String} {rest : List String}
    (hlines : w.lines = l :: rest) (h : w.limit ≤ w.lines.length) :
    w.makeRoom = .ok { w with lines := rest, clipped := true } := by
  rw [makeRoom, if_pos h, hlines]

namespace Slides

variable {limit : Int} {steps : List (Except TagError String)} {w : Window}

theorem length_lines (h : Slides limit steps w) :
    w.lines.length = min (written steps).length (room limit steps) := by
  rw [h.lines, List.rtake, List.length_drop]
  omega

/-- A window that is not full drops nothing. Either all lines fit, or the latest
step had none. -/
theorem record_of_lt (h : Slides limit steps w) (hlimit : 1 ≤ limit)
    (hlt : w.lines.length < w.limit) (l : Except TagError String) :
    (w.record l).1 = outcome l ∧ Slides limit (steps ++ [l]) (w.record l).2 := by
  have hlength := h.length_lines
  have hcases := room_cases limit steps
  rw [h.limit_eq] at hlt
  have hshown : (written steps).length - room limit steps
      = (written steps).length + 1 - limit.toNat := by omega
  rw [record_of_makeRoom (makeRoom_of_lt (by rw [h.limit_eq]; exact hlt))]
  refine ⟨rfl, h.limit_eq, ?_, by simp [h.total], ?_⟩
  · cases l with
    | ok l =>
        rw [written_concat_ok, room_concat_ok, List.rtake, List.length_append,
          List.length_singleton, List.drop_append_of_le_length (by omega),
          ← hshown]
        exact congrArg (· ++ [l]) h.lines
    | error e =>
        rw [written_concat_error, room_concat_error, List.rtake,
          show (written steps).length - (limit.toNat - 1)
            = (written steps).length - room limit steps by omega]
        exact (List.append_nil _).trans h.lines
  · rw [h.clipped]
    cases l with
    | ok l =>
        rw [written_concat_ok, room_concat_ok, List.length_append,
          List.length_singleton]
        omega
    | error e =>
        rw [written_concat_error, room_concat_error]
        omega

/-- A full window drops its oldest line. -/
theorem record_of_full (h : Slides limit steps w) (hlimit : 1 ≤ limit)
    (hfull : w.limit ≤ w.lines.length) (l : Except TagError String) :
    (w.record l).1 = outcome l ∧ Slides limit (steps ++ [l]) (w.record l).2 := by
  have hlength := h.length_lines
  have hcases := room_cases limit steps
  rw [h.limit_eq] at hfull
  have hroom : room limit steps = limit.toNat := by omega
  have hcut := h.lines
  rw [List.rtake, hroom, List.drop_eq_getElem_cons (by omega)] at hcut
  rw [record_of_makeRoom (makeRoom_of_full hcut (by rw [h.limit_eq]; exact hfull))]
  refine ⟨rfl, h.limit_eq, ?_, by simp [h.total], ?_⟩
  · cases l with
    | ok l =>
        rw [written_concat_ok, room_concat_ok, List.rtake, List.length_append,
          List.length_singleton, List.drop_append_of_le_length (by omega),
          show (written steps).length + 1 - limit.toNat
            = (written steps).length - limit.toNat + 1 by omega]
        rfl
    | error e =>
        rw [written_concat_error, room_concat_error, List.rtake,
          show (written steps).length - (limit.toNat - 1)
            = (written steps).length - limit.toNat + 1 by omega]
        exact List.append_nil _
  · refine iff_of_true rfl ?_
    cases l with
    | ok l =>
        rw [written_concat_ok, room_concat_ok, List.length_append,
          List.length_singleton]
        omega
    | error e =>
        rw [written_concat_error, room_concat_error]
        omega

theorem record (h : Slides limit steps w) (hlimit : 1 ≤ limit)
    (l : Except TagError String) :
    (w.record l).1 = outcome l ∧ Slides limit (steps ++ [l]) (w.record l).2 := by
  by_cases hlt : w.lines.length < w.limit
  · exact h.record_of_lt hlimit hlt l
  · exact h.record_of_full hlimit (by omega) l

end Slides

theorem slides_empty (limit : Int) : Slides limit [] { limit := limit } where
  limit_eq := rfl
  lines := (List.rtake_nil _).symm
  total := rfl
  clipped := by simp [written]

/-! ## All calls -/

theorem slides_afterAll {limit : Int} (hlimit : 1 ≤ limit) (calls : List Call) :
    Slides limit (sinceClear calls)
      (({ limit := limit } : Window).afterAll calls) := by
  induction calls using List.reverseRecOn with
  | nil => exact slides_empty limit
  | append_singleton calls c ih =>
      rw [afterAll_concat]
      cases c with
      | step pc instr registers =>
          rw [sinceClear_step]
          exact (ih.record hlimit _).2
      | clear =>
          rw [sinceClear_clear, answer, clear, ih.limit_eq]
          exact slides_empty limit

/-- A window without room keeps nothing but the count. -/
theorem afterAll_of_no_room {limit : Int} (hlimit : limit ≤ 0)
    (calls : List Call) :
    ({ limit := limit } : Window).afterAll calls
      = { limit := limit, total := (sinceClear calls).length } := by
  induction calls using List.reverseRecOn with
  | nil => rfl
  | append_singleton calls c ih =>
      rw [afterAll_concat, ih]
      cases c with
      | step pc instr registers =>
          rw [sinceClear_step, List.length_append, List.length_singleton]
          simp [answer, Window.record, makeRoom, hlimit]
      | clear =>
          rw [sinceClear_clear]
          rfl

/-- A window that has room counts the steps since it was last cleared. If all of
them have a line, the window shows the latest lines, as many as its limit
allows, and is clipped if there are more; in general a latest step without a
line leaves room for one less. A step then fails only if it has no line. A
window without room fails on every step, and counts it all the same. -/
theorem afterAll_slides (limit : Int) (calls : List Call) :
    ∃ w steps, w = ({ limit := limit } : Window).afterAll calls
      ∧ steps = sinceClear calls
      ∧ w.total = steps.length
      ∧ (1 ≤ limit →
        (∀ ls : List String, steps = ls.map .ok →
          w.lines = ls.rtake (min ls.length limit.toNat) ∧ w.total = ls.length
          ∧ (w.clipped = true ↔ limit < ls.length))
        ∧ w.lines = (written steps).rtake (room limit steps)
        ∧ (w.clipped = true ↔ room limit steps < (written steps).length)
        ∧ ∀ pc instr registers,
          (w.answer (.step pc instr registers)).1
            = outcome (line pc instr registers))
      ∧ (limit ≤ 0 → w.lines = [] ∧ w.clipped = false
        ∧ ∀ pc instr registers, (w.answer (.step pc instr registers)).1
          = .error .nothingToDrop) := by
  refine ⟨_, _, rfl, rfl, ?_, fun hlimit => ?_, fun hlimit => ?_⟩
  · by_cases hlimit : 1 ≤ limit
    · exact (slides_afterAll hlimit calls).total
    · rw [afterAll_of_no_room (by omega)]
  · have hslides := slides_afterAll hlimit calls
    refine ⟨fun ls hls => ?_, hslides.lines, hslides.clipped,
      fun pc instr registers => (hslides.record hlimit _).1⟩
    have hlines := hslides.lines
    have htotal := hslides.total
    have hclipped := hslides.clipped
    rw [hls, written_map_ok, room_map_ok] at hlines hclipped
    rw [hls, List.length_map] at htotal
    refine ⟨?_, htotal, hclipped.trans (by omega)⟩
    rw [hlines, List.rtake, List.rtake]
    congr 1
    omega
  · rw [afterAll_of_no_room hlimit]
    refine ⟨rfl, rfl, fun pc instr registers => ?_⟩
    simp [answer, Window.record, makeRoom, hlimit]

/-- Of two steps after a clear, a window for one line shows the second. -/
theorem afterAll_slides_twoForOne : ∃ w, w = ({ limit := 1 } : Window).afterAll
      [.step 0 (.move 0 0) [], .clear, .step 1 (.move 0 0) [],
        .step 2 (.move 0 0) []]
    ∧ w.lines = [lineOf 2 (Opcode.move.render [0, 0]) []] ∧ w.total = 2
    ∧ w.clipped = true := by
  obtain ⟨w, steps, rfl, rfl, -, hroomy, -⟩ := afterAll_slides 1
    [.step 0 (.move 0 0) [], .clear, .step 1 (.move 0 0) [],
      .step 2 (.move 0 0) []]
  obtain ⟨hwritten, -⟩ := hroomy (by decide)
  obtain ⟨hlines, htotal, hclipped⟩ := hwritten
    [lineOf 1 (Opcode.move.render [0, 0]) [],
      lineOf 2 (Opcode.move.render [0, 0]) []] rfl
  exact ⟨_, rfl, hlines, htotal, hclipped.mpr (by decide)⟩

end RegisterVm.Watch.Window
