import RegisterVm.Proofs.CommonRun
import RegisterVm.Proofs.Ranking

/-!
# Matching blocks are common parts, and a name is most like itself

The search for blocks cuts both texts at a shared run and goes on in what stands
before and after it (`Search`). Each search looks for one longest match, and
only those that find one go on, so the search ends; its blocks follow each other
in both texts (`Aligned`), and their characters together are a common part of
both (`Search.common`). So two texts match completely only if they are equal.

Equal texts do match completely, also where no character is telling. Hence the
target, if it is among the names, is the first suggestion.
-/

namespace RegisterVm.Likeness

/-! ## The search -/

/-- The characters that take part in the search for the longest run in the
target. -/
def telling (target : List Char) (c : Char) : Bool :=
  !(popular target).contains c

/-- How many characters stand in the blocks. -/
def covered (bs : List Block) : Nat := bs.foldl (fun n b => n + b.size) 0

/-- A search for the blocks of two texts: the blocks it finds, and how many
longest matches it looks for. -/
inductive Search (counts : Char → Bool) :
    List Char → List Char → List Block → Nat → Prop where
  | nothing {a b : List Char} (h : (longestMatch counts a b).size = 0) :
      Search counts a b [] 1
  | split {a b : List Char} {m : Block} {before after : List Block} {k n : Nat}
      (hm : m = longestMatch counts a b)
      (h : m.size ≠ 0)
      (hbefore : Search counts (a.take m.left) (b.take m.right) before k)
      (hafter : Search counts (a.drop (m.left + m.size))
        (b.drop (m.right + m.size)) after n) :
      Search counts a b (before ++ m :: after.map
        (Block.shift (m.left + m.size) (m.right + m.size))) (k + 1 + n)

theorem matched_eq (target name : List Char) :
    matched target name = covered (blocks (telling target) name target) :=
  rfl

theorem foldl_size (bs : List Block) (k : Nat) :
    bs.foldl (fun n b => n + b.size) k = k + covered bs := by
  induction bs generalizing k with
  | nil => rfl
  | cons m bs ih =>
      rw [covered, List.foldl_cons, List.foldl_cons, ih, ih, Nat.zero_add,
        Nat.add_assoc]

theorem covered_cons (m : Block) (bs : List Block) :
    covered (m :: bs) = m.size + covered bs := by
  rw [covered, List.foldl_cons, foldl_size, Nat.zero_add]

theorem covered_append (bs bs' : List Block) :
    covered (bs ++ bs') = covered bs + covered bs' := by
  induction bs with
  | nil => exact (Nat.zero_add _).symm
  | cons m bs ih =>
      rw [List.cons_append, covered_cons, covered_cons, ih, Nat.add_assoc]

theorem covered_shift (i j : Nat) (bs : List Block) :
    covered (bs.map (Block.shift i j)) = covered bs := by
  induction bs with
  | nil => rfl
  | cons m bs ih =>
      rw [List.map_cons, covered_cons, covered_cons, ih, Block.shift]

theorem search_blocks (counts : Char → Bool) (a b : List Char) :
    ∃ n, Search counts a b (blocks counts a b) n := by
  fun_induction blocks counts a b with
  | case1 a b m h => exact ⟨1, .nothing h⟩
  | case2 a b m h ihbefore ihafter =>
      obtain ⟨k, hbefore⟩ := ihbefore
      obtain ⟨n, hafter⟩ := ihafter
      exact ⟨_, .split rfl h hbefore hafter⟩

namespace Search

variable {counts : Char → Bool} {a b : List Char} {bs : List Block} {n : Nat}

/-- Each block costs the search that finds it, and the two around it come to an
end. -/
theorem searches_eq (h : Search counts a b bs n) : n = 2 * bs.length + 1 := by
  induction h with
  | nothing => rfl
  | split hm h hbefore hafter ihbefore ihafter =>
      rw [List.length_append, List.length_cons, List.length_map]
      omega

/-- What holds of texts without blocks, and of texts around a shared run if it
holds of what stands before and after the run, holds of what a search finds. -/
theorem induct {motive : List Char → List Char → List Block → Prop}
    (nothing : ∀ a b, motive a b [])
    (split : ∀ p q u s t before after, u ≠ [] →
      motive p q before → motive s t after →
      motive (p ++ u ++ s) (q ++ u ++ t)
        (before ++ ⟨p.length, q.length, u.length⟩
          :: after.map (Block.shift (p ++ u).length (q ++ u).length)))
    (h : Search counts a b bs n) : motive a b bs := by
  induction h with
  | nothing => exact nothing _ _
  | @split a b m before after k n hm h hbefore hafter ihbefore ihafter =>
      have hcut : Cut a b m := hm ▸ longestMatch_cut counts a b
      clear hm hbefore hafter
      obtain ⟨p, q, u, s, t⟩ := hcut
      have hu : u ≠ [] := fun hnil => h (by rw [hnil, List.length_nil])
      simp only [List.append_assoc, List.take_left, ← List.length_append]
        at ihbefore ihafter
      simp only [← List.append_assoc, List.drop_left] at ihafter
      simp only [← List.length_append]
      exact split p q u s t before after hu ihbefore ihafter

/-- The characters in the blocks are a common part of both texts. -/
theorem common (h : Search counts a b bs n) :
    ∃ w : List Char, w.Sublist a ∧ w.Sublist b ∧ w.length = covered bs := by
  refine induct (motive := fun a b bs => ∃ w : List Char, w.Sublist a
    ∧ w.Sublist b ∧ w.length = covered bs) ?_ ?_ h
  · exact fun a b => ⟨[], List.nil_sublist a, List.nil_sublist b, rfl⟩
  · rintro p q u s t before after - ⟨w, hp, hq, hw⟩ ⟨v, hs, ht, hv⟩
    have hu := List.Sublist.refl u
    refine ⟨w ++ u ++ v, (hp.append hu).append hs, (hq.append hu).append ht, ?_⟩
    rw [covered_append, covered_cons, covered_shift, List.length_append,
      List.length_append, hw, hv, Nat.add_assoc]

end Search

/-! ## Blocks follow each other -/

/-- The characters of a block are the same in both texts, and there are some. -/
structure Block.Matches (a b : List Char) (m : Block) : Prop where
  nonempty : 0 < m.size
  same : ∀ k < m.size, ∃ c, a[m.left + k]? = some c ∧ b[m.right + k]? = some c

/-- Blocks that match, each of which starts where the one before has ended, in
both texts. -/
structure Aligned (a b : List Char) (bs : List Block) : Prop where
  matching : ∀ m ∈ bs, m.Matches a b
  ordered : bs.Pairwise fun m m' => m.left + m.size ≤ m'.left
    ∧ m.right + m.size ≤ m'.right

namespace Block.Matches

variable {a b : List Char} {m : Block}

theorem bounds (h : m.Matches a b) :
    m.left + m.size ≤ a.length ∧ m.right + m.size ≤ b.length := by
  obtain ⟨c, ha, hb⟩ := h.same (m.size - 1) (Nat.sub_lt h.nonempty Nat.one_pos)
  obtain ⟨hlt, -⟩ := List.getElem?_eq_some_iff.mp ha
  obtain ⟨hlt', -⟩ := List.getElem?_eq_some_iff.mp hb
  have hpos := h.nonempty
  omega

theorem append (h : m.Matches a b) (s t : List Char) :
    m.Matches (a ++ s) (b ++ t) where
  nonempty := h.nonempty
  same k hk := by
    obtain ⟨c, ha, hb⟩ := h.same k hk
    obtain ⟨hlt, -⟩ := List.getElem?_eq_some_iff.mp ha
    obtain ⟨hlt', -⟩ := List.getElem?_eq_some_iff.mp hb
    exact ⟨c, (List.getElem?_append_left hlt).trans ha,
      (List.getElem?_append_left hlt').trans hb⟩

theorem shift (h : m.Matches a b) (p q : List Char) :
    (m.shift p.length q.length).Matches (p ++ a) (q ++ b) where
  nonempty := h.nonempty
  same k hk := by
    obtain ⟨c, ha, hb⟩ := h.same k hk
    refine ⟨c, ?_, ?_⟩
    · have hplace : m.left + p.length + k = p.length + (m.left + k) := by
        omega
      rw [Block.shift, hplace,
        List.getElem?_append_right (Nat.le_add_right _ _),
        Nat.add_sub_cancel_left, ha]
    · have hplace : m.right + q.length + k = q.length + (m.right + k) := by
        omega
      rw [Block.shift, hplace,
        List.getElem?_append_right (Nat.le_add_right _ _),
        Nat.add_sub_cancel_left, hb]

end Block.Matches

theorem matches_cut (p q : List Char) {u : List Char} (hu : u ≠ [])
    (s t : List Char) :
    Block.Matches (p ++ u ++ s) (q ++ u ++ t) ⟨p.length, q.length, u.length⟩ := by
  have hself : Block.Matches u u ⟨0, 0, u.length⟩ := by
    refine ⟨List.length_pos_iff.mpr hu, fun k hk => ⟨u[k], ?_⟩⟩
    simp
  have hshift := (hself.shift p q).append s t
  rwa [Block.shift, Nat.zero_add, Nat.zero_add] at hshift

theorem Search.aligned {counts : Char → Bool} {a b : List Char}
    {bs : List Block} {n : Nat} (h : Search counts a b bs n) :
    Aligned a b bs := by
  refine induct (motive := Aligned) ?_ ?_ h
  · exact fun a b => ⟨by simp, List.Pairwise.nil⟩
  · intro p q u s t before after hu hbefore hafter
    refine ⟨fun m hm => ?_, ?_⟩
    · rcases List.mem_append.mp hm with hm | hm
      · have hwide := (hbefore.matching m hm).append (u ++ s) (u ++ t)
        rwa [← List.append_assoc, ← List.append_assoc] at hwide
      · rcases List.mem_cons.mp hm with rfl | hm
        · exact matches_cut p q hu s t
        · obtain ⟨m', hm', rfl⟩ := List.mem_map.mp hm
          exact (hafter.matching m' hm').shift (p ++ u) (q ++ u)
    · rw [List.pairwise_append, List.pairwise_cons, List.pairwise_map]
      refine ⟨hbefore.ordered, ⟨fun m hm => ?_, hafter.ordered.imp
        fun hlt => ?_⟩, fun m hm m' hm' => ?_⟩
      · obtain ⟨m', -, rfl⟩ := List.mem_map.mp hm
        simp only [Block.shift, List.length_append]
        omega
      · simp only [Block.shift]
        omega
      · have hbounds := (hbefore.matching m hm).bounds
        rcases List.mem_cons.mp hm' with rfl | hm'
        · exact hbounds
        · obtain ⟨m'', -, rfl⟩ := List.mem_map.mp hm'
          simp only [Block.shift, List.length_append]
          omega

theorem Aligned.length_le {a b : List Char} {bs : List Block}
    (h : Aligned a b bs) : bs.length ≤ covered bs := by
  have hpos : ∀ m ∈ bs, 0 < m.size := fun m hm => (h.matching m hm).nonempty
  clear h
  induction bs with
  | nil => exact Nat.le_refl 0
  | cons m bs ih =>
      have hm := hpos m List.mem_cons_self
      have hrest := ih fun m' hm' => hpos m' (List.mem_cons_of_mem m hm')
      rw [List.length_cons, covered_cons]
      omega

/-! ## How much of two texts matches -/

theorem covered_le (counts : Char → Bool) (a b : List Char) :
    covered (blocks counts a b) ≤ min a.length b.length := by
  obtain ⟨n, hsearch⟩ := search_blocks counts a b
  obtain ⟨w, ha, hb, hw⟩ := hsearch.common
  rw [← hw]
  exact Nat.le_min.mpr ⟨ha.length_le, hb.length_le⟩

theorem blocks_nil (counts : Char → Bool) : blocks counts [] [] = [] := by
  rw [blocks, dif_pos (by rw [longestMatch_self]; rfl)]

theorem covered_self (counts : Char → Bool) (a : List Char) :
    covered (blocks counts a a) = a.length := by
  rw [blocks, longestMatch_self]
  split
  · rename_i hzero
    exact hzero.symm
  · rw [Nat.zero_add, List.take_zero, List.drop_length, blocks_nil]
    exact Nat.zero_add _

/-- Only equal texts match completely, and equal texts do. -/
theorem covered_eq_iff (counts : Char → Bool) (a b : List Char) :
    covered (blocks counts a b) = a.length
      ∧ covered (blocks counts a b) = b.length ↔ a = b := by
  constructor
  · rintro ⟨hlengtha, hlengthb⟩
    obtain ⟨n, hsearch⟩ := search_blocks counts a b
    obtain ⟨w, ha, hb, hw⟩ := hsearch.common
    exact (ha.eq_of_length (hw.trans hlengtha)).symm.trans
      (hb.eq_of_length (hw.trans hlengthb))
  · rintro rfl
    exact ⟨covered_self counts a, covered_self counts a⟩

/-! ## The target among the names -/

section Target

variable {target : String} (ht : target ≠ "")

include ht

theorem likeness_self : likeness target target = 1 := by
  have hpos : ((target.length + target.length : ℕ) : ℚ) ≠ 0 :=
    Nat.cast_ne_zero.mpr (Nat.ne_of_gt (total_pos ht target))
  rw [likeness, matched_eq, covered_self, String.length_toList,
    div_eq_one_iff_eq hpos]
  push_cast
  exact two_mul _

/-- Every other name is less like the target than itself. -/
theorem likeness_lt_one {name : String} (hne : name ≠ target) :
    likeness target name < 1 := by
  have hpos : (0 : ℚ) < (name.length + target.length : ℕ) :=
    Nat.cast_pos.mpr (total_pos ht name)
  have hle := covered_le (telling target.toList) name.toList target.toList
  have hiff := covered_eq_iff (telling target.toList) name.toList target.toList
  rw [← matched_eq, String.length_toList, String.length_toList] at hle hiff
  have hlt : 2 * matched target.toList name.toList
      < name.length + target.length := by
    have hnot : ¬ (matched target.toList name.toList = name.length
        ∧ matched target.toList name.toList = target.length) := fun h =>
          hne (String.toList_inj.mp (hiff.mp h))
    omega
  rw [likeness, div_lt_one hpos]
  exact_mod_cast hlt

theorem ranking_of_mem {names : List String} (hmem : target ∈ names) :
    ∃ rest, ranking target names = target :: rest := by
  have halike : target ∈ alike target names := by
    refine List.mem_filter.mpr ⟨hmem, decide_eq_true ?_⟩
    rw [likeness_self ht, threshold]
    norm_num
  have hranked : target ∈ ranking target names :=
    (ranking_perm ht names).mem_iff.mpr halike
  have hdescends := ranking_descends ht names
  cases hranking : ranking target names with
  | nil =>
      rw [hranking] at hranked
      cases hranked
  | cons first rest =>
      rw [hranking] at hranked hdescends
      refine ⟨rest, ?_⟩
      rcases List.mem_cons.mp hranked with hfirst | hrest
      · rw [← hfirst]
      · have hle := (List.pairwise_cons.mp hdescends).1 target hrest
        by_cases hne : first = target
        · rw [hne]
        · have hlt := likeness_lt_one ht hne
          rw [← likeness_self ht] at hlt
          rcases rank_le_iff.mp hle with hgt | ⟨heq, -⟩
          · exact absurd hgt (lt_asymm hlt)
          · exact absurd heq (ne_of_gt hlt)

end Target

/-- The search for the blocks of a candidate and a target ends after at most two
longest matches for each of their characters, and one. Its blocks match, without
overlap and in order, so no more characters match than either text has, and all
of both do if and only if the texts are equal. Hence a target that is among the
names is the first suggestion. -/
theorem matching_sound :
    (∀ a b : String,
      ∃ bs searches, bs = blocks (telling b.toList) a.toList b.toList
      ∧ matched b.toList a.toList = covered bs
      ∧ Search (telling b.toList) a.toList b.toList bs searches
      ∧ searches ≤ 2 * min a.length b.length + 1
      ∧ Aligned a.toList b.toList bs
      ∧ covered bs ≤ min a.length b.length
      ∧ (covered bs = a.length ∧ covered bs = b.length ↔ a = b))
    ∧ ∀ target : String, target ≠ "" → ∀ names : List String, target ∈ names →
      ∀ limit : Int, 1 ≤ limit →
      ∃ rest, similarNames target names limit = .ok (target :: rest) := by
  refine ⟨fun a b => ?_, fun target ht names hmem limit hlimit => ?_⟩
  · obtain ⟨n, hsearch⟩ := search_blocks (telling b.toList) a.toList b.toList
    have hle := covered_le (telling b.toList) a.toList b.toList
    have hiff := covered_eq_iff (telling b.toList) a.toList b.toList
    have hlength := hsearch.aligned.length_le
    have hsearches := hsearch.searches_eq
    rw [String.length_toList, String.length_toList] at hle hiff
    rw [String.toList_inj] at hiff
    exact ⟨_, n, rfl, matched_eq _ _, hsearch, by omega, hsearch.aligned,
      hle, hiff⟩
  · obtain ⟨rest, hranking⟩ := ranking_of_mem ht hmem
    obtain ⟨k, hk⟩ : ∃ k, limit.toNat = k + 1 := ⟨limit.toNat - 1, by omega⟩
    exact ⟨rest.take k, by
      rw [similarNames_eq ht names hlimit, hranking, hk, List.take_succ_cons]⟩

/-- Where every character is popular, the target still comes before a name that
differs in its length alone. -/
theorem matching_sound_popular :
    ∃ rest, similarNames (String.ofList (List.replicate 200 'a'))
      [String.ofList (List.replicate 199 'a'),
        String.ofList (List.replicate 200 'a')] 1
      = .ok (String.ofList (List.replicate 200 'a') :: rest) :=
  matching_sound.2 (String.ofList (List.replicate 200 'a')) (by decide +kernel) _
    (List.mem_cons_of_mem _ List.mem_cons_self) 1 (by decide)

end RegisterVm.Likeness
