/-!
# Matching blocks

How alike two texts are is measured by the runs of characters that they share.
The longest common run is a block; what stands before it in both texts, and what
stands after it, is searched again in the same way. In a long text the
characters that are too frequent to be telling do not take part in the search
for the longest run, but a run that was found extends over them.

Main facts: a block lies inside both texts (`longestMatch_bounds`), which is why
the search ends.
-/

namespace RegisterVm.Likeness

/-- A run of `size` characters that starts at `left` in one text and at `right`
in the other. -/
structure Block where
  left : Nat
  right : Nat
  size : Nat
  deriving DecidableEq, Repr

/-! ## The longest common run -/

/-- The lengths of the runs that start with `x` in one text and at each place of
the other. `below` holds the same for the text after `x`. -/
def runRow (counts : Char → Bool) (x : Char) : List Char → List Nat → List Nat
  | [], _ => []
  | y :: ys, below =>
      (if x = y then if counts y then below.tail.headD 0 + 1 else 0 else 0)
        :: runRow counts x ys below.tail

/-- The place and the size of the greatest entry, the first of several. -/
def firstMax : List Nat → Nat × Nat
  | [] => (0, 0)
  | n :: ns =>
      let (place, m) := firstMax ns
      if m ≤ n then (0, n) else (place + 1, m)

/-- The longest run of characters that count, together with the run lengths at
the start of the first text. Of several longest runs it is the first in the
first text, and of those the first in the second. -/
def longestRun (counts : Char → Bool) (b : List Char) :
    List Char → Block × List Nat
  | [] => (⟨0, 0, 0⟩, [])
  | x :: a =>
      let (best, below) := longestRun counts b a
      let row := runRow counts x b below
      let (place, size) := firstMax row
      if best.size ≤ size then (⟨0, place, size⟩, row)
      else (⟨best.left + 1, best.right, best.size⟩, row)

/-! ## Extension -/

/-- How many characters two texts share at their start. -/
def sharedStart : List Char → List Char → Nat
  | x :: a, y :: b => if x = y then sharedStart a b + 1 else 0
  | _, _ => 0

/-- The run made as long as equal characters on both sides allow. -/
def extend (a b : List Char) (m : Block) : Block :=
  let before := sharedStart (a.take m.left).reverse (b.take m.right).reverse
  let after := sharedStart (a.drop (m.left + m.size)) (b.drop (m.right + m.size))
  ⟨m.left - before, m.right - before, before + m.size + after⟩

def longestMatch (counts : Char → Bool) (a b : List Char) : Block :=
  extend a b (longestRun counts b a).1

/-! ## Bounds -/

theorem sharedStart_le_left (a b : List Char) : sharedStart a b ≤ a.length := by
  induction a generalizing b with
  | nil => simp [sharedStart]
  | cons x a ih =>
    cases b with
    | nil => simp [sharedStart]
    | cons y b =>
      unfold sharedStart
      have := ih b
      split <;> simp only [List.length_cons] <;> omega

theorem firstMax_mem {ns : List Nat} (h : ns ≠ []) :
    ns[(firstMax ns).1]? = some (firstMax ns).2 := by
  induction ns with
  | nil => exact absurd rfl h
  | cons n ns ih =>
    unfold firstMax
    by_cases hm : (firstMax ns).2 ≤ n
    · simp [hm]
    · have hns : ns ≠ [] := by
        rintro rfl
        exact hm (Nat.zero_le n)
      simpa [hm] using ih hns

/-- The run lengths at the start of a text are bounded by what is left of the
text. -/
theorem longestRun_row_le (counts : Char → Bool) (b a : List Char) :
    ∀ n ∈ (longestRun counts b a).2, n ≤ a.length := by
  induction a with
  | nil => simp [longestRun]
  | cons x a ih =>
    have row_le : ∀ (ys : List Char) (below : List Nat),
        (∀ n ∈ below, n ≤ a.length) →
        ∀ n ∈ runRow counts x ys below, n ≤ a.length + 1 := by
      intro ys
      induction ys with
      | nil => simp [runRow]
      | cons y ys ih =>
        intro below hb n hn
        have htail : ∀ n ∈ below.tail, n ≤ a.length := fun n h =>
          hb n (List.mem_of_mem_tail h)
        simp only [runRow, List.mem_cons] at hn
        rcases hn with rfl | hn
        · have : below.tail.headD 0 ≤ a.length := by
            cases ht : below.tail with
            | nil => simp
            | cons m ms => exact htail m (by simp [ht])
          split
          · split <;> omega
          · omega
        · exact ih below.tail htail n hn
    intro n hn
    have hn' : n ∈ runRow counts x b (longestRun counts b a).2 := by
      simp only [longestRun] at hn
      split at hn <;> exact hn
    exact row_le b _ ih n hn'

theorem longestRun_left_le (counts : Char → Bool) (b a : List Char) :
    (longestRun counts b a).1.left + (longestRun counts b a).1.size
      ≤ a.length := by
  induction a with
  | nil => simp [longestRun]
  | cons x a ih =>
    have hrow := longestRun_row_le counts b (x :: a)
    simp only [longestRun] at hrow ⊢
    split
    · next hle =>
      simp only [hle, if_true] at hrow
      simp only [Nat.zero_add]
      by_cases hr : runRow counts x b (longestRun counts b a).2 = []
      · simp [hr, firstMax]
      · exact hrow _ (List.mem_of_getElem? (firstMax_mem hr))
    · simp only [List.length_cons]
      omega

/-- A match lies inside the first text. -/
theorem longestMatch_bounds (counts : Char → Bool) (a b : List Char) :
    (longestMatch counts a b).left + (longestMatch counts a b).size
      ≤ a.length := by
  have h := longestRun_left_le counts b a
  have hb := sharedStart_le_left (a.take (longestRun counts b a).1.left).reverse
    (b.take (longestRun counts b a).1.right).reverse
  have ha := sharedStart_le_left
    (a.drop ((longestRun counts b a).1.left + (longestRun counts b a).1.size))
    (b.drop ((longestRun counts b a).1.right + (longestRun counts b a).1.size))
  simp only [List.length_reverse, List.length_take, List.length_drop] at hb ha
  simp only [longestMatch, extend]
  omega

/-! ## All blocks -/

def Block.shift (i j : Nat) (m : Block) : Block :=
  ⟨m.left + i, m.right + j, m.size⟩

/-- The blocks of two texts, from left to right. -/
def blocks (counts : Char → Bool) (a b : List Char) : List Block :=
  let m := longestMatch counts a b
  if _h : m.size = 0 then []
  else
    blocks counts (a.take m.left) (b.take m.right)
      ++ m :: (blocks counts (a.drop (m.left + m.size))
        (b.drop (m.right + m.size))).map
          (Block.shift (m.left + m.size) (m.right + m.size))
termination_by a.length
decreasing_by
  all_goals
    have hb := longestMatch_bounds counts a b
    have hs : (longestMatch counts a b).size ≠ 0 := _h
    simp only [List.length_take, List.length_drop]
    omega

end RegisterVm.Likeness
