import RegisterVm.Likeness.Blocks

/-!
# The longest common run

The rows of run lengths hold, for every pair of places, how far two texts run
together from there on characters that count (`sharedRun`). So the run that is
selected is a longest one, and of several the first in the first text and then
in the second (`FirstLongest`).

Its extension is a match: the two texts are cut at the same characters (`Cut`).
In a text compared with itself the selected run stands at one place in both,
because a run further left on either side would have come first; extended, it is
the whole text (`longestMatch_self`).
-/

namespace RegisterVm.Likeness

/-! ## Run lengths -/

/-- How far two texts run together from their starts, on characters that
count. -/
def sharedRun (counts : Char → Bool) : List Char → List Char → Nat
  | x :: a, y :: b =>
      if x = y then if counts y then sharedRun counts a b + 1 else 0 else 0
  | _, _ => 0

theorem take_sharedRun (counts : Char → Bool) (a b : List Char) :
    a.take (sharedRun counts a b) = b.take (sharedRun counts a b) := by
  induction a generalizing b with
  | nil => simp [sharedRun]
  | cons x a ih =>
      cases b with
      | nil => simp [sharedRun]
      | cons y b =>
          unfold sharedRun
          split
          · rename_i hxy
            split
            · rw [List.take_succ_cons, List.take_succ_cons, ih b, hxy]
            · rfl
          · rfl

theorem sharedRun_le (counts : Char → Bool) (a b : List Char) :
    sharedRun counts a b ≤ a.length := by
  induction a generalizing b with
  | nil => simp [sharedRun]
  | cons x a ih =>
      cases b with
      | nil => simp [sharedRun]
      | cons y b =>
          have hrest := ih b
          unfold sharedRun
          split
          · split <;> simp only [List.length_cons] <;> omega
          · exact Nat.zero_le _

/-- A text runs with itself at least as far as with another one. -/
theorem sharedRun_le_self (counts : Char → Bool) (a b : List Char) :
    sharedRun counts a b ≤ sharedRun counts a a
      ∧ sharedRun counts a b ≤ sharedRun counts b b := by
  induction a generalizing b with
  | nil => simp [sharedRun]
  | cons x a ih =>
      cases b with
      | nil => simp [sharedRun]
      | cons y b =>
          have hrest := ih b
          by_cases hxy : x = y
          · subst hxy
            by_cases hc : counts x = true
            · simp only [sharedRun, hc, if_true]
              omega
            · simp [sharedRun, hc]
          · simp [sharedRun, hxy]

theorem runRow_getD {counts : Char → Bool} {x : Char} {a b : List Char}
    {below : List Nat} (h : ∀ j, below.getD j 0 = sharedRun counts a (b.drop j))
    (j : Nat) :
    (runRow counts x b below).getD j 0
      = sharedRun counts (x :: a) (b.drop j) := by
  induction b generalizing below j with
  | nil => simp [runRow, sharedRun]
  | cons y b ih =>
      have htail : ∀ j, below.tail.getD j 0 = sharedRun counts a (b.drop j) := by
        intro j
        have hnext := h (j + 1)
        cases below <;> simpa using hnext
      cases j with
      | zero =>
          have hhead : below.tail.headD 0 = sharedRun counts a b := by
            have hfirst := htail 0
            cases hbelow : below.tail with
            | nil => simpa [hbelow] using hfirst
            | cons n ns => simpa [hbelow] using hfirst
          rw [runRow, hhead]
          rfl
      | succ j => exact ih htail j

/-- The row of a text holds how far it runs together with each place of the
other one. -/
theorem longestRun_row (counts : Char → Bool) (b a : List Char) (j : Nat) :
    (longestRun counts b a).2.getD j 0 = sharedRun counts a (b.drop j) := by
  induction a generalizing j with
  | nil => simp [longestRun, sharedRun]
  | cons x a ih =>
      have hrow : (longestRun counts b (x :: a)).2
          = runRow counts x b (longestRun counts b a).2 := by
        simp only [longestRun]
        split <;> rfl
      rw [hrow]
      exact runRow_getD ih j

/-! ## The selected run -/

/-- The greatest entry stands at its place, and all entries before it are
smaller. -/
theorem firstMax_spec (ns : List Nat) :
    ns.getD (firstMax ns).1 0 = (firstMax ns).2
    ∧ (∀ j, ns.getD j 0 ≤ (firstMax ns).2) ∧ ∀ j < (firstMax ns).1,
      ns.getD j 0 < (firstMax ns).2 := by
  induction ns with
  | nil => simp [firstMax]
  | cons n ns ih =>
      obtain ⟨hat, hmax, hfirst⟩ := ih
      unfold firstMax
      by_cases hle : (firstMax ns).2 ≤ n
      · simp only [hle, if_true]
        refine ⟨rfl, fun j => ?_, by simp⟩
        cases j with
        | zero => exact Nat.le_refl n
        | succ j => exact Nat.le_trans (hmax j) hle
      · simp only [hle, if_false]
        refine ⟨hat, fun j => ?_, fun j hj => ?_⟩
        · cases j with
          | zero => exact Nat.le_of_not_le hle
          | succ j => exact hmax j
        · cases j with
          | zero => exact Nat.not_le.mp hle
          | succ j => exact hfirst j (by omega)

/-- A longest common run: of several, the first in the first text, and of those
the first in the second. -/
structure FirstLongest (counts : Char → Bool) (a b : List Char) (m : Block) :
    Prop where
  size_eq : sharedRun counts (a.drop m.left) (b.drop m.right) = m.size
  longest : ∀ i j, sharedRun counts (a.drop i) (b.drop j) ≤ m.size
  first : ∀ i j, sharedRun counts (a.drop i) (b.drop j) = m.size →
    m.left < i ∨ m.left = i ∧ m.right ≤ j

theorem longestRun_firstLongest (counts : Char → Bool) (b a : List Char) :
    FirstLongest counts a b (longestRun counts b a).1 := by
  induction a with
  | nil =>
      refine ⟨by simp [longestRun, sharedRun], by simp [longestRun, sharedRun],
        fun i j _ => ?_⟩
      rcases Nat.eq_zero_or_pos i with rfl | hi
      · exact Or.inr ⟨rfl, Nat.zero_le j⟩
      · exact Or.inl hi
  | cons x a ih =>
      obtain ⟨hat, hmax, hbefore⟩ :=
        firstMax_spec (runRow counts x b (longestRun counts b a).2)
      simp only [runRow_getD (longestRun_row counts b a)] at hat hmax hbefore
      simp only [longestRun]
      split
      · rename_i hle
        refine ⟨hat, fun i j => ?_, fun i j htie => ?_⟩
        · cases i with
          | zero => exact hmax j
          | succ i => exact Nat.le_trans (ih.longest i j) hle
        · cases i with
          | zero =>
              refine Or.inr ⟨rfl, Nat.not_lt.mp fun hlt => ?_⟩
              exact absurd htie (Nat.ne_of_lt (hbefore j hlt))
          | succ i => exact Or.inl (Nat.succ_pos i)
      · rename_i hlt
        refine ⟨ih.size_eq, fun i j => ?_, fun i j htie => ?_⟩
        · cases i with
          | zero => exact Nat.le_trans (hmax j) (Nat.le_of_not_le hlt)
          | succ i => exact ih.longest i j
        · cases i with
          | zero =>
              have hsmall := hmax j
              simp only [List.drop_zero] at htie
              omega
          | succ i =>
              have hfirst := ih.first i j htie
              simp only
              omega

/-- In a text compared with itself the selected run stands at one place. -/
theorem FirstLongest.left_eq_right {counts : Char → Bool} {a : List Char}
    {m : Block} (h : FirstLongest counts a a m) : m.left = m.right := by
  obtain ⟨hself, hself'⟩ :=
    sharedRun_le_self counts (a.drop m.left) (a.drop m.right)
  rw [h.size_eq] at hself hself'
  have hleft := h.first m.left m.left (Nat.le_antisymm (h.longest _ _) hself)
  have hright := h.first m.right m.right (Nat.le_antisymm (h.longest _ _) hself')
  omega

/-! ## Cuts -/

/-- Two texts with a run that they share, each cut into what stands before it,
the run, and what stands after it. -/
inductive Cut : List Char → List Char → Block → Prop where
  | intro (p q u s t : List Char) :
      Cut (p ++ u ++ s) (q ++ u ++ t) ⟨p.length, q.length, u.length⟩

theorem FirstLongest.cut {counts : Char → Bool} {a b : List Char} {m : Block}
    (h : FirstLongest counts a b m) :
    Cut a b m := by
  obtain ⟨left, right, size⟩ := m
  have hsize : sharedRun counts (a.drop left) (b.drop right) = size := h.size_eq
  by_cases hzero : size = 0
  · -- nothing is shared anywhere, so the first place is the start of both texts
    have hstart :=
      h.first 0 0 (Nat.le_antisymm (h.longest 0 0) (by simp [hzero]))
    simp only at hstart
    obtain rfl : left = 0 := by omega
    obtain rfl : right = 0 := by omega
    subst hzero
    exact .intro [] [] [] a b
  · have htake := take_sharedRun counts (a.drop left) (b.drop right)
    have hlen := sharedRun_le counts (a.drop left) (b.drop right)
    have hlen' := congrArg List.length htake
    simp only [hsize, List.length_take, List.length_drop] at htake hlen hlen'
    have hcut := Cut.intro (a.take left) (b.take right)
      ((a.drop left).take size) (a.drop (left + size)) (b.drop (right + size))
    have ha : a.take left ++ (a.drop left).take size ++ a.drop (left + size)
        = a := by
      rw [List.append_assoc, ← List.drop_drop, List.take_append_drop,
        List.take_append_drop]
    have hb : b.take right ++ (a.drop left).take size ++ b.drop (right + size)
        = b := by
      rw [htake, List.append_assoc, ← List.drop_drop, List.take_append_drop,
        List.take_append_drop]
    have hblock : (⟨(a.take left).length, (b.take right).length,
        ((a.drop left).take size).length⟩ : Block)
        = ⟨left, right, size⟩ := by
      simp only [List.length_take, List.length_drop, Block.mk.injEq]
      omega
    rwa [ha, hb, hblock] at hcut

theorem exists_sharedStart (a b : List Char) :
    ∃ w a' b', a = w ++ a' ∧ b = w ++ b' ∧ w.length = sharedStart a b := by
  induction a generalizing b with
  | nil => exact ⟨[], [], b, rfl, rfl, by simp [sharedStart]⟩
  | cons x a ih =>
      cases b with
      | nil => exact ⟨[], x :: a, [], rfl, rfl, by simp [sharedStart]⟩
      | cons y b =>
          unfold sharedStart
          split
          · rename_i hxy
            subst hxy
            obtain ⟨w, a', b', rfl, rfl, hw⟩ := ih b
            exact ⟨x :: w, a', b', rfl, rfl, by rw [List.length_cons, hw]⟩
          · exact ⟨[], x :: a, y :: b, rfl, rfl, rfl⟩

theorem extend_append (p q u s t : List Char) :
    extend (p ++ u ++ s) (q ++ u ++ t) ⟨p.length, q.length, u.length⟩
      = ⟨p.length - sharedStart p.reverse q.reverse,
        q.length - sharedStart p.reverse q.reverse,
        sharedStart p.reverse q.reverse + u.length + sharedStart s t⟩ := by
  have hafter : ∀ r v : List Char, (r ++ u ++ v).drop (r.length + u.length)
      = v := by
    intro r v
    rw [← List.length_append, List.drop_left]
  have hbefore : ∀ r v : List Char, (r ++ u ++ v).take r.length = r := by
    intro r v
    rw [List.append_assoc, List.take_left]
  simp only [extend, hafter, hbefore]

/-- A run that is extended on both sides is still shared. -/
theorem Cut.extend {a b : List Char} {m : Block} (h : Cut a b m) :
    Cut a b (Likeness.extend a b m) := by
  obtain ⟨p, q, u, s, t⟩ := h
  obtain ⟨w, p', q', hp, hq, hw⟩ := exists_sharedStart p.reverse q.reverse
  obtain ⟨v, s', t', hs, ht, hv⟩ := exists_sharedStart s t
  have hp' : p = p'.reverse ++ w.reverse := by
    rw [← List.reverse_append, ← hp, List.reverse_reverse]
  have hq' : q = q'.reverse ++ w.reverse := by
    rw [← List.reverse_append, ← hq, List.reverse_reverse]
  have hlength := congrArg List.length hp'
  have hlength' := congrArg List.length hq'
  simp only [List.length_append, List.length_reverse] at hlength hlength'
  have hcut := Cut.intro p'.reverse q'.reverse (w.reverse ++ u ++ v) s' t'
  rw [extend_append, ← hw, ← hv, hlength, hlength', Nat.add_sub_cancel,
    Nat.add_sub_cancel, hp', hq', hs, ht]
  simpa [Nat.add_assoc] using hcut

theorem longestMatch_cut (counts : Char → Bool) (a b : List Char) :
    Cut a b (longestMatch counts a b) :=
  (longestRun_firstLongest counts b a).cut.extend

/-! ## A text and itself -/

theorem sharedStart_self (a : List Char) : sharedStart a a = a.length := by
  induction a with
  | nil => rfl
  | cons x a ih => rw [sharedStart, if_pos rfl, ih, List.length_cons]

/-- A text is its own longest match, whatever characters count. -/
theorem longestMatch_self (counts : Char → Bool) (a : List Char) :
    longestMatch counts a a = ⟨0, 0, a.length⟩ := by
  have hplace := (longestRun_firstLongest counts a a).left_eq_right
  have hbound := longestRun_left_le counts a a
  rw [longestMatch, extend, ← hplace, sharedStart_self, sharedStart_self,
    List.length_reverse, List.length_take, List.length_drop]
  simp only [Block.mk.injEq]
  omega

end RegisterVm.Likeness
