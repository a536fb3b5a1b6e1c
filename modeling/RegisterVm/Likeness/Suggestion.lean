import RegisterVm.Likeness.Blocks

/-!
# Suggestions

The names that look most like a given one. The likeness of a name to the target
is the share of characters in matching blocks, `2 * matched / total`; a name is
suggested from three fifths on, the most alike first and equally alike names in
descending order.
-/

namespace RegisterVm.Likeness

/-! ## Telling characters -/

/-- From this length on a text has characters too frequent to be telling. -/
def longText : Nat := 200

/-- The characters of a long text that occur more than `length / 100 + 1` times
in it. -/
def popular (target : List Char) : List Char :=
  if target.length < longText then []
  else target.eraseDups.filter fun c => target.length / 100 + 1 < target.count c

/-! ## Likeness -/

/-- How many characters of a name stand in matching blocks with the target. -/
def matched (target name : List Char) : Nat :=
  let frequent := popular target
  (blocks (fun c => !frequent.contains c) name target).foldl
    (fun n b => n + b.size) 0

/-- A name with its likeness `2 * matched / total` to a target. -/
structure Candidate where
  matched : Nat
  total : Nat
  name : String
  deriving DecidableEq, Repr

namespace Candidate

def of (target name : String) : Candidate where
  matched := Likeness.matched target.toList name.toList
  total := name.length + target.length
  name := name

/-- The likeness is at least three fifths. -/
def qualifies (c : Candidate) : Bool := 3 * c.total ≤ 10 * c.matched

/-- `c` stands before `d`, or they are equally good: a greater likeness first,
then the greater name. -/
def ranksBefore (c d : Candidate) : Bool :=
  d.matched * c.total < c.matched * d.total
    || (c.matched * d.total == d.matched * c.total && d.name ≤ c.name)

end Candidate

/-- A list of suggestions has to have room for one. -/
structure LimitError where
  limit : Int
  deriving DecidableEq, Repr

def LimitError.message (e : LimitError) : String := s!"n must be > 0: {e.limit}"

/-- All names that qualify, the best first. -/
def ranking (target : String) (names : List String) : List String :=
  (((names.map (Candidate.of target)).filter Candidate.qualifies).mergeSort
    Candidate.ranksBefore).map
    Candidate.name

/-- The names most like the target, at most `limit` of them. -/
def similarNames (target : String) (names : List String) (limit : Int) :
    Except LimitError (List String) :=
  if target.isEmpty || names.isEmpty then .ok []
  else if limit ≤ 0 then .error ⟨limit⟩
  else .ok ((ranking target names).take limit.toNat)

/-- How many names a hint shows at most. -/
def hintLimit : Nat := 3

/-- What to try instead of a name that is not defined. -/
def hint (target : String) (names : List String) : String :=
  let similar :=
    if target.isEmpty then [] else (ranking target names).take hintLimit
  if similar.isEmpty then
    s!"Declare it first with a let binding: let {target} = ..."
  else "Did you mean: " ++ ", ".intercalate similar ++ "?"

end RegisterVm.Likeness
