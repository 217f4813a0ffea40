import Lookahead.Command.Basic
import Lookahead.Text.Digit
import Lookahead.Text.Lines

/-!
# Reading the arguments of a command

An argument that begins with a dash is an option, unless it is a lone dash, a negative
number or holds a space. A long option may be cut short as long as it can be meant for
one option only, and its value may be attached behind an equals sign. Options with one
letter may share a dash, and the value of the last one may follow at once; behind the
first of them may stand an equals sign. After two dashes every argument is a value. The
options may stand before, between and behind the values of a command; of an option that
is given twice the last value counts.

Arguments are taken one by one. A wish for help counts where it stands: what is wrong
behind it is not looked at, except for an option that can be meant for several. The
letters of one argument count only if all of them are options.
-/

namespace Lookahead.Command

/-- Why no command is run. -/
inductive Stop where
  | help
  | refused
  deriving DecidableEq, Repr, Inhabited

inductive Setting where
  | help
  | reduce
  | debug
  | strict
  | json
  | phase
  | output
  deriving DecidableEq, Repr, Inhabited

def Setting.takesValue : Setting → Bool
  | phase => true
  | output => true
  | _ => false

/-- The names of a setting among the options of a command. -/
structure OptionForm where
  setting : Setting
  long : String
  letter : Option Char := none
  deriving DecidableEq, Repr, Inhabited

namespace OptionForm

def help : OptionForm := ⟨.help, "--help", some 'h'⟩

def reduce : OptionForm := ⟨.reduce, "--reduce", none⟩

def debug : OptionForm := ⟨.debug, "--debug", some 'D'⟩

def strict : OptionForm := ⟨.strict, "--strict", none⟩

def json : OptionForm := ⟨.json, "--json", none⟩

def phase : OptionForm := ⟨.phase, "--phase", none⟩

def output : OptionForm := ⟨.output, "--output", some 'o'⟩

/-- Whether an argument is the option spelt out. -/
def isSpelt (s : List Char) (form : OptionForm) : Bool :=
  s = form.long.toList || form.letter.any fun letter => s = ['-', letter]

end OptionForm

/-! ### What an argument is -/

inductive Token where
  | value (text : String)
  | dashes
  /-- An option, with what is attached to it in the same argument. -/
  | option (form : OptionForm) (isLong : Bool) (attached : Option (List Char))
  | unknown
  deriving DecidableEq, Repr, Inhabited

/-- The text before the first equals sign and the value behind it, if there is one. -/
def splitEquals (s : List Char) : List Char × Option (List Char) :=
  let before := s.takeWhile (· ≠ '=')
  match s.drop before.length with
  | [] => (before, none)
  | _ :: rest => (before, some rest)

/-- Whether what follows a dash makes it a negative number. -/
def isNumeral (s : List Char) : Bool :=
  let digits := Text.dropLineFeed s
  let whole := digits.takeWhile Text.isDecimalDigit
  match digits.drop whole.length with
  | [] => !whole.isEmpty
  | point :: fraction => point = '.' && !fraction.isEmpty && fraction.all Text.isDecimalDigit

/-- The options that a cut long option may be meant for. -/
def meant (forms : List OptionForm) (long : List Char) : List OptionForm :=
  forms.filter fun form => long.isPrefixOf form.long.toList

/-- What an argument with a dash is that is none of the options. -/
def stray (s : List Char) : Token :=
  if isNumeral (s.drop 1) || s.contains ' ' then .value (String.ofList s) else .unknown

/-- What an argument is that is not one of the options in full. -/
def shortened (forms : List OptionForm) (s : List Char) : Except Stop Token :=
  match s with
  | '-' :: '-' :: _ =>
    let (long, attached) := splitEquals s
    match meant forms long with
    | [] => .ok (stray s)
    | [form] => .ok (.option form true attached)
    | _ => .error .refused
  | '-' :: letter :: rest =>
    match forms.find? fun form => form.letter = some letter with
    | some form => .ok (.option form false (some rest))
    | none => .ok (stray s)
  | _ => .ok (.value (String.ofList s))

def isLongSpelling (s : List Char) : Bool := s.take 2 = ['-', '-']

/-- What an argument other than two dashes is. -/
def classify (forms : List OptionForm) (s : List Char) : Except Stop Token :=
  if s.head? ≠ some '-' then .ok (.value (String.ofList s))
  else match forms.find? (OptionForm.isSpelt s) with
    | some form => .ok (.option form (isLongSpelling s) none)
    | none =>
      let (before, attached) := splitEquals s
      match attached, forms.find? (OptionForm.isSpelt before) with
      | some value, some form => .ok (.option form (isLongSpelling s) (some value))
      | _, _ => shortened forms s

/-- All arguments behind two dashes are values. -/
def tokens (forms : List OptionForm) : List String → Except Stop (List Token)
  | [] => .ok []
  | s :: rest =>
    if s = "--" then .ok (.dashes :: rest.map .value)
    else do
      let token ← classify forms s.toList
      return token :: (← tokens forms rest)

/-! ### What an option gives -/

/-- The options in one argument: switches, an option with its value, and an option whose value is
still to come. -/
structure Cluster where
  given : List (Setting × Option String) := []
  awaiting : Option Setting := none
  deriving DecidableEq, Repr, Inhabited

def Cluster.of (form : OptionForm) : Cluster :=
  if form.setting.takesValue then { awaiting := some form.setting }
  else { given := [(form.setting, none)] }

def Cluster.withSwitch (setting : Setting) (c : Cluster) : Cluster :=
  { c with given := (setting, none) :: c.given }

/-- The value that is attached to an option. Two dashes leave it absent. -/
def attachedValue (text : List Char) : Option String :=
  if text = ['-', '-'] then none else some (String.ofList text)

/-- The options that begin with a letter and go on with what is attached to it. -/
def letters (forms : List OptionForm) (form : OptionForm) (attached : List Char) :
    Except Stop Cluster :=
  if form.setting.takesValue then .ok { given := [(form.setting, attachedValue attached)] }
  else match attached with
    | [] => .error .refused
    | letter :: rest =>
      match forms.find? fun other => other.letter = some letter with
      | none => .error .refused
      | some other => match rest with
        | [] => .ok ((Cluster.of other).withSwitch form.setting)
        | c :: more => (letters forms other (c :: more)).map (.withSwitch form.setting)

/-- The options in one argument. A switch with a long name has no value. -/
def cluster (forms : List OptionForm) (form : OptionForm) (isLong : Bool) :
    Option (List Char) → Except Stop Cluster
  | none => .ok (Cluster.of form)
  | some attached =>
    if isLong && !form.setting.takesValue then .error .refused else letters forms form attached

/-! ### Taking the arguments -/

structure Settings where
  reduce : Bool := false
  debug : Bool := false
  strict : Bool := false
  json : Bool := false
  /-- A phase was given, though it may be an absent one. -/
  phaseGiven : Bool := false
  phase : Option GraphPhase := none
  output : Option String := none
  deriving DecidableEq, Repr, Inhabited

namespace Settings

def give (s : Settings) (setting : Setting) (value : Option String) : Except Stop Settings :=
  match setting with
  | .help => .error .help
  | .reduce => .ok { s with reduce := true }
  | .debug => .ok { s with debug := true }
  | .strict => .ok { s with strict := true }
  | .json => .ok { s with json := true }
  | .output => .ok { s with output := value }
  | .phase => match value with
    | none => .ok { s with phaseGiven := true, phase := none }
    | some name => match GraphPhase.ofName? name with
      | some phase => .ok { s with phaseGiven := true, phase := some phase }
      | none => .error .refused

def giveAll (s : Settings) : List (Setting × Option String) → Except Stop Settings
  | [] => .ok s
  | (setting, value) :: rest => do (← s.give setting value).giveAll rest

end Settings

/-- What the options in one argument give once the value of the last one has come. -/
structure Pending where
  given : List (Setting × Option String)
  awaiting : Setting
  deriving DecidableEq, Repr, Inhabited

/-- What is known after some of the arguments. -/
structure Reading where
  settings : Settings := {}
  values : List (Option String) := []
  pending : Option Pending := none
  /-- Something has no place in the command. -/
  surplus : Bool := false
  /-- The last argument was a value that has a place. -/
  afterValue : Bool := false
  /-- The last argument was a pair of dashes that belongs to the next value. -/
  afterDashes : Bool := false
  deriving DecidableEq, Repr, Inhabited

namespace Reading

/-- Takes a value. Two dashes are a value only behind two dashes of their own. -/
def takeValue (r : Reading) (places : Nat) (text : String) : Reading :=
  if places ≤ r.values.length then { r with surplus := true, afterValue := false }
  else
    let value := if text = "--" && !r.afterDashes then none else some text
    { r with values := r.values ++ [value], afterValue := true, afterDashes := false }

/-- Takes two dashes, which belong to the value before or behind them. -/
def takeDashes (r : Reading) (places : Nat) : Reading :=
  if r.afterValue then { r with afterValue := false }
  else if r.values.length < places then { r with afterDashes := true }
  else { r with surplus := true }

def give (r : Reading) (given : List (Setting × Option String)) : Except Stop Reading := do
  let settings ← r.settings.giveAll given
  return { r with settings, pending := none, afterValue := false, afterDashes := false }

def takeCluster (r : Reading) (c : Cluster) : Except Stop Reading :=
  match c.awaiting with
  | none => r.give c.given
  | some setting => .ok { r with pending := some ⟨c.given, setting⟩ }

/-- Takes one argument of a command that has places for a number of values. -/
def take (forms : List OptionForm) (places : Nat) (r : Reading) (token : Token) :
    Except Stop Reading :=
  match r.pending, token with
  | some p, .value text => r.give (p.given ++ [(p.awaiting, some text)])
  | some _, _ => .error .refused
  | none, .value text => .ok (r.takeValue places text)
  | none, .dashes => .ok (r.takeDashes places)
  | none, .unknown => .ok { r with surplus := true, afterValue := false, afterDashes := false }
  | none, .option form isLong attached => do
    r.takeCluster (← cluster forms form isLong attached)

end Reading

/-! ### The commands -/

inductive CommandName where
  | check
  | table
  | graph
  | verify
  deriving DecidableEq, Repr, Inhabited

namespace CommandName

def text : CommandName → String
  | check => "check"
  | table => "table"
  | graph => "graph"
  | verify => "verify"

def ofText? (s : String) : Option CommandName :=
  [check, table, graph, verify].find? fun name => name.text = s

def forms : CommandName → List OptionForm
  | check => [.help, .reduce, .debug, .strict]
  | table => [.help, .reduce, .debug, .json, .strict]
  | graph => [.help, .reduce, .debug, .phase, .output]
  | verify => [.help, .reduce, .debug, .phase]

/-- How many values the command has places for. -/
def places : CommandName → Nat
  | verify => 2
  | _ => 1

end CommandName

def task? (name : CommandName) (settings : Settings) (more : List (Option String)) : Option Task :=
  match name, more with
  | .check, [] => some (.check settings.strict)
  | .table, [] => some (.table settings.json settings.strict)
  | .graph, [] =>
    if settings.phaseGiven then some (.graph settings.phase settings.output) else none
  | .verify, [drawing] =>
    if settings.phaseGiven then some (.verify settings.phase drawing) else none
  | _, _ => none

/-- The command that all arguments together make. -/
def ofReading? (name : CommandName) (r : Reading) : Option Command := do
  if r.surplus || r.pending.isSome then none
  match r.values with
  | some path :: more =>
    let task ← task? name r.settings more
    return { grammarPath := path, reduce := r.settings.reduce, debug := r.settings.debug, task }
  | _ => none

def ofNamedArguments (name : CommandName) (args : List String) : Except Stop Command := do
  let r ← (← tokens name.forms args).foldlM (Reading.take name.forms name.places) {}
  match ofReading? name r with
  | some command => return command
  | none => throw .refused

/-- The command that arguments ask for. What stands before its name can ask for help only. -/
def ofArguments : List String → Except Stop Command
  | [] => .error .refused
  | s :: rest =>
    if s = "--" then .error .refused
    else do
      match ← classify [.help] s.toList with
      | .value text =>
        match CommandName.ofText? text with
        | some name => ofNamedArguments name rest
        | none => throw .refused
      | .option form isLong attached =>
        let _ ← Settings.giveAll {} (← cluster [.help] form isLong attached).given
        throw .refused
      | .unknown =>
        let _ ← ofArguments rest
        throw .refused
      | .dashes => throw .refused

end Lookahead.Command
