import RegisterVm.Text.Numeral

/-!
# Options of the stepper

`--steps N` (`-n N`) limits the number of instructions, `--compact` (`-c`) shows
one line per step, `--help` (`-h`) shows how to call the stepper. A long option
can be cut to any beginning that only it has, and takes its value after a blank
or `=`; short options can stand together, also with `=` after the first, and one
that takes a value takes the rest of its word. Words that do not look like
options are values; a negative number is one of them. The mark `--` ends the
options; in the place of a value it is taken away, and the option is set to
nothing.

A word that is no option and is not taken as a value is refused, but only after
all options were seen.
-/

namespace RegisterVm.Stepper

/-- How many instructions may run. -/
inductive StepLimit where
  | unlimited
  | atMost (n : Int)
  /-- The limit was set, but to nothing. -/
  | empty
  deriving DecidableEq, Repr

structure Options where
  steps : StepLimit := .unlimited
  compact : Bool := false
  deriving DecidableEq, Repr

inductive Flag where
  | steps
  | compact
  | help
  deriving DecidableEq, Repr

namespace Flag

def all : List Flag := [.steps, .compact, .help]

def long : Flag → List Char
  | .steps => "--steps".toList
  | .compact => "--compact".toList
  | .help => "--help".toList

def short : Flag → Char
  | .steps => 'n'
  | .compact => 'c'
  | .help => 'h'

def takesValue : Flag → Bool
  | .steps => true
  | _ => false

def ofShort? (c : Char) : Option Flag := all.find? (·.short == c)

/-- The option that a whole word spells. -/
def ofWord? (word : List Char) : Option Flag :=
  all.find? fun f => f.long == word || ['-', f.short] == word

end Flag

/-- Why there are no options: the words are refused, or they ask for help. -/
inductive Refusal where
  | usage
  | help
  deriving DecidableEq, Repr

/-! ## Words -/

/-- What a word on the command line is. Options that share a word share what
follows them in it. -/
inductive Word where
  | options (flags : List Flag) (attached : Option (List Char))
  | value (text : List Char)
  | stray
  deriving DecidableEq, Repr

/-- A minus and digits, perhaps with a point before the last of them, at the end
of a line. -/
def isNegativeNumber : List Char → Bool
  | '-' :: rest =>
      let body := if rest.getLast? = some '\n' then rest.dropLast else rest
      let isDigit := fun c => (Text.digitValue? c).isSome
      match body.dropWhile isDigit with
      | [] => !body.isEmpty
      | '.' :: fraction => !fraction.isEmpty && fraction.all isDigit
      | _ => false
  | _ => false

/-- Short options from `f` on: each takes the next character of the word for an
option as well, up to one that takes a value or a character that is none. -/
def joined (f : Flag) : List Char → List Flag × Option (List Char)
  | [] => ([f], none)
  | c :: rest =>
      match f.takesValue, Flag.ofShort? c with
      | false, some g =>
          let (flags, attached) := joined g rest
          (f :: flags, attached)
      | _, _ => ([f], some (c :: rest))

/-- The word of the short option `f` and what follows it. -/
def shortOptions (f : Flag) (rest : List Char) : Word :=
  let (flags, attached) := joined f rest
  .options flags attached

/-- An option, `=` and `value`. After a short option that takes no value,
`value` can be more short options; an empty one is refused later. -/
def assigned (f : Flag) (long : Bool) (value : List Char) : Word :=
  if long || value.isEmpty then .options [f] (some value)
  else shortOptions f value

/-- A word that starts with a minus but is no option. -/
def dashed (word : List Char) : Word :=
  if isNegativeNumber word || word.contains ' ' then .value word else .stray

/-- A word that starts with a minus and spells no option as a whole. Before `=`
it can spell one, or be the beginning of one. -/
def classifyDashed (word : List Char) : Except Refusal Word :=
  let name := word.takeWhile (· != '=')
  let attached :=
    if word.contains '=' then some (word.drop (name.length + 1)) else none
  match attached, Flag.ofWord? name, word with
  | some value, some f, _ => .ok (assigned f (name == f.long) value)
  | _, _, '-' :: '-' :: _ =>
      match Flag.all.filter fun f => name.isPrefixOf f.long with
      | [] => .ok (dashed word)
      | [f] => .ok (.options [f] attached)
      | _ => .error .usage
  | _, _, '-' :: c :: rest =>
      match Flag.ofShort? c with
      | some f => .ok (shortOptions f rest)
      | none => .ok (dashed word)
  | _, _, _ => .ok (.value word)

def classify (word : List Char) : Except Refusal Word :=
  match Flag.ofWord? word with
  | some f => .ok (.options [f] none)
  | none =>
      if word.head? = some '-' then classifyDashed word else .ok (.value word)

/-- The words of a command line. Nothing takes `--` or what comes after it. -/
def classifyAll : List String → Except Refusal (List Word)
  | [] => .ok []
  | arg :: args =>
      if arg = "--" then .ok [.stray]
      else do
        let word ← classify arg.toList
        let words ← classifyAll args
        return word :: words

/-! ## Reading -/

/-- The limit that the value of an option spells. -/
def StepLimit.ofValue? (value : List Char) : Option StepLimit :=
  if value = ['-', '-'] then some .empty
  else (Text.integer? (String.ofList value)).map .atMost

/-- The options after one more; `value` is what an option with a value takes. -/
def Options.apply (value : List Char) (o : Options) :
    Flag → Except Refusal Options
  | .steps =>
      match StepLimit.ofValue? value with
      | some limit => .ok { o with steps := limit }
      | none => .error .usage
  | .compact => .ok { o with compact := true }
  | .help => .error .help

/-- The last of the flags takes a value. -/
def wantsValue (flags : List Flag) : Bool := flags.getLast?.any Flag.takesValue

/-- Gives the value after an option that wants one to that option. -/
def giveValues : List Word → List Word
  | .options flags none :: .value value :: words =>
      if wantsValue flags then .options flags (some value) :: giveValues words
      else .options flags none :: .value value :: giveValues words
  | word :: words => word :: giveValues words
  | [] => []

/-- Reads words from left to right; the last setting of an option counts. -/
def readWords (o : Options) : List Word → Except Refusal Options
  | [] => .ok o
  | .options flags attached :: words => do
      match wantsValue flags, attached with
      | true, some value =>
          readWords (← flags.foldlM (Options.apply value) o) words
      | false, none => readWords (← flags.foldlM (Options.apply []) o) words
      | _, _ => .error .usage
  | _ :: words => do
      let _ ← readWords o words
      .error .usage

/-- The options that a command line spells. -/
def Options.ofArgs (args : List String) : Except Refusal Options := do
  let words ← classifyAll args
  readWords {} (giveValues words)

end RegisterVm.Stepper
