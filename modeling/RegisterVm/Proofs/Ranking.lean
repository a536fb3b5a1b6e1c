import Mathlib.Algebra.Order.Field.Basic
import Mathlib.Algebra.Order.Ring.Rat
import Mathlib.Data.List.Sort
import Mathlib.Data.Prod.Lex
import Mathlib.Data.String.Basic
import Mathlib.Tactic.Linarith
import RegisterVm.Likeness.Suggestion

/-!
# Suggestions are the best names

The likeness of a name is a rational number, and names are ranked by it and then
by their code points (`rank`). This ranking is a linear order, in which no two
names are equal. So the ranking of some names is *the* descending list of those
that are alike enough (`ranking_eq`), whatever order they came in, and the
suggestions are a first part of it.
-/

namespace RegisterVm.Likeness

/-! ## The order of names -/

/-- The share of characters that stand in matching blocks. -/
def likeness (target name : String) : ℚ :=
  2 * matched target.toList name.toList / (name.length + target.length : ℕ)

def codePoints (s : String) : List ℕ := s.toList.map Char.toNat

/-- What a name is ranked by: its likeness first, then its code points. -/
def rank (target name : String) : ℚ ×ₗ List ℕ :=
  toLex (likeness target name, codePoints name)

/-- A name is suggested from this likeness on. -/
def threshold : ℚ := 3 / 5

/-- The names that are like enough to the target, with repeats. -/
def alike (target : String) (names : List String) : List String :=
  names.filter fun name => threshold ≤ likeness target name

theorem codePoints_inj {s t : String} :
    codePoints s = codePoints t ↔ s = t := by
  rw [codePoints, codePoints, List.map_inj_right fun _ _ => Char.toNat_inj.mp,
    String.toList_inj]

theorem map_toNat_lt_iff {cs ds : List Char} :
    cs.map Char.toNat < ds.map Char.toNat ↔ cs < ds := by
  induction cs generalizing ds with
  | nil => cases ds <;> simp
  | cons c cs ih =>
      cases ds with
      | nil => simp
      | cons d ds =>
          rw [List.map_cons, List.map_cons, List.cons_lt_cons_iff,
            List.cons_lt_cons_iff, ih, Char.toNat_inj]
          rfl

/-- Texts are compared by their code points. -/
theorem codePoints_le_iff {s t : String} :
    codePoints s ≤ codePoints t ↔ s ≤ t := by
  rw [← not_lt, ← not_lt, String.lt_iff_toList_lt]
  exact not_congr map_toNat_lt_iff

theorem rank_inj {target x y : String} (h : rank target x = rank target y) :
    x = y :=
  codePoints_inj.mp (congrArg Prod.snd (toLex.injective h))

theorem rank_le_iff {target x y : String} :
    rank target x ≤ rank target y ↔ likeness target x < likeness target y
      ∨ likeness target x = likeness target y ∧ x ≤ y := by
  rw [rank, rank, Prod.Lex.toLex_le_toLex, codePoints_le_iff]

/-! ## The comparison of candidates -/

section Target

variable {target : String} (ht : target ≠ "")

include ht

theorem total_pos (name : String) : 0 < name.length + target.length := by
  have hlength : target.length ≠ 0 := fun h => ht (String.length_eq_zero_iff.mp h)
  omega

theorem qualifies_iff (name : String) :
    (Candidate.of target name).qualifies = true
      ↔ threshold ≤ likeness target name := by
  have hpos : (0 : ℚ) < (name.length + target.length : ℕ) :=
    Nat.cast_pos.mpr (total_pos ht name)
  rw [likeness, threshold, div_le_div_iff₀ (by norm_num) hpos,
    Candidate.qualifies, decide_eq_true_iff]
  simp only [Candidate.of]
  rw [← Nat.cast_le (α := ℚ)]
  push_cast
  constructor <;> intro h <;> linarith

/-- Quotients are compared by multiplying crosswise. -/
theorem likeness_lt_iff (x y : String) : likeness target x < likeness target y
    ↔ matched target.toList x.toList * (y.length + target.length)
      < matched target.toList y.toList * (x.length + target.length) := by
  have hx : (0 : ℚ) < (x.length + target.length : ℕ) :=
    Nat.cast_pos.mpr (total_pos ht x)
  have hy : (0 : ℚ) < (y.length + target.length : ℕ) :=
    Nat.cast_pos.mpr (total_pos ht y)
  rw [likeness, likeness, div_lt_div_iff₀ hx hy, ← Nat.cast_lt (α := ℚ)]
  push_cast
  constructor <;> intro h <;> linarith

theorem ranksBefore_iff (x y : String) :
    (Candidate.of target x).ranksBefore (Candidate.of target y) = true
      ↔ rank target y ≤ rank target x := by
  have hlt := likeness_lt_iff ht y x
  have hgt := likeness_lt_iff ht x y
  have heq : likeness target y = likeness target x
      ↔ matched target.toList x.toList * (y.length + target.length)
      = matched target.toList y.toList * (x.length + target.length) := by
    rw [eq_iff_le_not_lt, ← not_lt, hlt, hgt]
    omega
  rw [rank_le_iff, hlt, heq]
  simp only [Candidate.ranksBefore, Bool.or_eq_true, Bool.and_eq_true,
    beq_iff_eq, decide_eq_true_eq]
  rfl

/-- The ranking is the one descending list of the names that are alike
enough. -/
theorem ranking_eq (names : List String) :
    ranking target names = (alike target names).mergeSort fun x y =>
      decide (rank target y ≤ rank target x) := by
  have hnames :
      ∀ c ∈ (names.map (Candidate.of target)).filter Candidate.qualifies,
      c = Candidate.of target c.name := by
    intro c hc
    obtain ⟨name, -, rfl⟩ := List.mem_map.mp (List.mem_of_mem_filter hc)
    rfl
  have hcompare :
      ∀ c ∈ (names.map (Candidate.of target)).filter Candidate.qualifies,
      ∀ d ∈ (names.map (Candidate.of target)).filter Candidate.qualifies,
        c.ranksBefore d = decide (rank target d.name ≤ rank target c.name) := by
    intro c hc d hd
    rw [hnames c hc, hnames d hd, Bool.eq_iff_iff, decide_eq_true_iff]
    exact ranksBefore_iff ht c.name d.name
  have hfilter : ((names.map (Candidate.of target)).filter
      Candidate.qualifies).map Candidate.name
      = alike target names := by
    rw [List.filter_map, List.map_map, alike]
    refine (List.map_id _).trans (List.filter_congr fun name _ => ?_)
    rw [Bool.eq_iff_iff, decide_eq_true_iff]
    exact qualifies_iff ht name
  rw [ranking, List.map_mergeSort (s := fun x y =>
    decide (rank target y ≤ rank target x)) hcompare, hfilter]

theorem ranking_perm (names : List String) :
    (ranking target names).Perm (alike target names) := by
  rw [ranking_eq ht]
  exact List.mergeSort_perm _ _

theorem ranking_descends (names : List String) :
    (ranking target names).Pairwise fun x y => rank target y ≤ rank target x := by
  have htrans : ∀ x y z, decide (rank target y ≤ rank target x) = true →
      decide (rank target z ≤ rank target y) = true →
        decide (rank target z ≤ rank target x) = true := by
    intro x y z hxy hyz
    rw [decide_eq_true_iff] at hxy hyz ⊢
    exact hyz.trans hxy
  have htotal : ∀ x y, (decide (rank target y ≤ rank target x)
      || decide (rank target x ≤ rank target y)) = true := by
    intro x y
    rw [Bool.or_eq_true, decide_eq_true_iff, decide_eq_true_iff]
    exact le_total _ _
  rw [ranking_eq ht]
  exact (List.pairwise_mergeSort htrans htotal (alike target names)).imp
    of_decide_eq_true

/-- No two names are ranked equal, so there is one descending order of them. -/
theorem ranking_congr {names names' : List String} (h : names.Perm names') :
    ranking target names = ranking target names' := by
  refine List.Perm.eq_of_pairwise ?_ (ranking_descends ht names)
    (ranking_descends ht names') ?_
  · intro x y _ _ hxy hyx
    exact rank_inj (le_antisymm hyx hxy)
  · exact ((ranking_perm ht names).trans (h.filter _)).trans
      (ranking_perm ht names').symm

/-! ## Suggestions -/

theorem similarNames_eq (names : List String) {limit : Int}
    (hlimit : 1 ≤ limit) :
    similarNames target names limit
      = .ok ((ranking target names).take limit.toNat) := by
  have hempty : target.isEmpty = false := by simpa using ht
  rw [similarNames, hempty, Bool.false_or, if_neg (show ¬ limit ≤ 0 by omega)]
  cases names with
  | nil => simp [ranking]
  | cons name names => rfl

theorem hint_congr {names names' : List String} (h : names.Perm names') :
    hint target names = hint target names' := by
  rw [hint, hint, ranking_congr ht h]

end Target

/-- The suggestions are as many of the names that are alike enough as there is
room for. They stand in descending order of their rank, and no name that is left
out ranks above them. They do not depend on the order of the names, and neither
does the hint. -/
theorem similarNames_best {target : String} (ht : target ≠ "")
    (names : List String) {limit : Int} (hlimit : 1 ≤ limit) :
    ∃ shown rest, similarNames target names limit = .ok shown
      ∧ (shown.length : Int)
        = min limit (names.countP fun name => threshold ≤ likeness target name)
      ∧ (shown ++ rest).Perm (alike target names)
      ∧ shown.Pairwise (fun x y => rank target y ≤ rank target x)
      ∧ (∀ x ∈ shown, ∀ y ∈ rest, rank target y ≤ rank target x)
      ∧ ∀ names' : List String, names'.Perm names →
        similarNames target names' limit = .ok shown
          ∧ hint target names' = hint target names := by
  have hperm := ranking_perm ht names
  have hsplit := List.take_append_drop limit.toNat (ranking target names)
  have hdescends := ranking_descends ht names
  rw [← hsplit, List.pairwise_append] at hdescends
  obtain ⟨hshown, -, hbelow⟩ := hdescends
  refine ⟨_, _, similarNames_eq ht names hlimit, ?_, hsplit.symm ▸ hperm,
    hshown, hbelow, fun names' h => ⟨?_, ?_⟩⟩
  · have hcount : (ranking target names).length = names.countP fun name =>
        threshold ≤ likeness target name := by
      rw [hperm.length_eq, alike, List.countP_eq_length_filter]
    rw [List.length_take, hcount]
    omega
  · rw [similarNames_eq ht names' hlimit, ranking_congr ht h]
  · exact hint_congr ht h

/-- The order in which names are declared does not matter, repeats included. -/
theorem similarNames_best_reordered :
    ∃ shown, similarNames "ab" ["ab", "abc", "ba", "abc"] 2 = .ok shown
    ∧ similarNames "ab" ["abc", "ba", "abc", "ab"] 2 = .ok shown := by
  obtain ⟨shown, rest, hshown, -, -, -, -, hreordered⟩ :=
    similarNames_best (show "ab" ≠ "" by decide) ["ab", "abc", "ba", "abc"]
      (show (1 : Int) ≤ 2 by decide)
  exact ⟨shown, hshown, (hreordered ["abc", "ba", "abc", "ab"] (by decide)).1⟩

end RegisterVm.Likeness
