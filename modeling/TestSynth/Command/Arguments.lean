import TestSynth.Path
import TestSynth.Text.Split

/-!
# Command lines

A command line names one of three commands. Options stand in front of the command or behind it;
those that both levels know count where they stand last. A value follows its option as the next
word, behind an equals sign, or directly behind the letter of the option. Behind `--` there are only
operands.

`Request.ofArguments` reads the words one by one, and the first fault ends the reading. So does the
question for the version, whatever stands behind it.
-/

namespace TestSynth

/-- What is to be done. A path or text that is not given is taken from the configuration. -/
inductive Command where
  /-- Write the tests of all sources of a compilation database, or only print them. -/
  | generate (compileCommands declarations : Option Path) (printOnly : Bool)
  /-- Print the tests of one case file. -/
  | translate (caseFile : Path) (function : String) (declarations : Option Path)
  /-- Print the configuration, or write it to a file. -/
  | config (output : Option Path)
  deriving DecidableEq, Repr

/-- A command and what holds for all commands. -/
structure Invocation where
  command : Command
  config : Option Path := none
  logLevel : Option String := none
  deriving DecidableEq, Repr

/-- What a command line asks for. -/
inductive Request where
  | version
  | invocation (i : Invocation)
  deriving DecidableEq, Repr

namespace Command

/-- The name of a command, without its operands and options. -/
inductive Verb where
  | generate
  | translate
  | config
  deriving DecidableEq, Repr

/-- An option. -/
inductive Key where
  | version
  | config
  | logLevel
  | compileCommands
  | declarations
  | printOnly
  | function
  | output
  deriving DecidableEq, Repr

/-- The word of an option behind its two dashes. -/
def Key.word : Key → String
  | version => "version"
  | config => "config"
  | logLevel => "verbose"
  | compileCommands => "compile-commands"
  | declarations => "knowledge"
  | printOnly => "dry-run"
  | function => "function"
  | output => "output"

/-- The letter that also stands for an option. -/
def Key.letter? : Key → Option Char
  | version => some 'V'
  | logLevel => some 'v'
  | function => some 'f'
  | _ => none

/-- The option has a value. -/
def Key.hasValue : Key → Bool
  | version | printOnly => false
  | _ => true

/-- The value of the option is a path, which is never empty. -/
def Key.isPath : Key → Bool
  | config | compileCommands | declarations | output => true
  | _ => false

/-- The verb that a word names. -/
def Verb.ofName? : String → Option Verb
  | "generate" => some generate
  | "translate" => some translate
  | "config" => some config
  | _ => none

/-- The number of operands behind a verb. -/
def Verb.operandCount : Verb → Nat
  | translate => 1
  | _ => 0

/-- The options of a level: in front of the verb, or behind it. -/
def keys : Option Verb → List Key
  | none => [.config, .logLevel, .version]
  | some .generate => [.config, .logLevel, .compileCommands, .declarations, .printOnly]
  | some .translate => [.config, .logLevel, .function, .declarations]
  | some .config => [.config, .logLevel, .output]

/-- What a word is that no option waits for. -/
inductive Word where
  | operand
  /-- The mark behind which there are only operands. -/
  | divider
  /-- An option, and its value if that is part of the word. -/
  | option (key : Key) (value : Option String)
  | unknown
  deriving DecidableEq, Repr

/-- The word begins like an option. A dash alone does not. -/
def isDashed : List Char → Bool
  | '-' :: _ :: _ => true
  | _ => false

/-- What a word is, given the options of its level. -/
def Word.of (keys : List Key) : List Char → Word
  | ['-', '-'] => divider
  | '-' :: '-' :: body =>
    let (name, value) :=
      match Text.splitOnce ['='] body with
      | some (name, value) => (name, some (String.ofList value))
      | none => (body, none)
    match keys.find? (·.word.toList = name) with
    | some key => if key.hasValue || value.isNone then option key value else unknown
    | none => unknown
  | '-' :: letter :: body =>
    match keys.find? (·.letter? = some letter) with
    | some key =>
      match body with
      | [] => option key none
      | '=' :: value => option key (some (String.ofList value))
      | value => option key (some (String.ofList value))
    | none => unknown
  | _ => operand

/-- Why the reading of a command line ends early. -/
inductive Stop where
  | misuse
  | version
  deriving DecidableEq, Repr

/-- What the words say that are read so far. -/
structure Reading where
  verb : Option Verb := none
  /-- The options in front of the verb, once it is known. -/
  outer : List (Key × String) := []
  /-- The options of the level that is read. -/
  values : List (Key × String) := []
  operands : List String := []
  /-- The option that waits for its value. -/
  waiting : Option Key := none
  /-- All words that follow are operands. -/
  isDivided : Bool := false
  deriving DecidableEq, Repr

namespace Reading

variable (r : Reading)

/-- Takes an option with its value, which no level has twice. -/
def put (key : Key) (value : String) : Except Stop Reading :=
  if (r.values.lookup key).isSome || (key.isPath && value.isEmpty) then .error .misuse
  else .ok { r with values := (key, value) :: r.values, waiting := none }

/-- Takes an operand. The first one is the verb; the others are paths. -/
def operand (text : String) : Except Stop Reading :=
  match r.verb with
  | none =>
    match Verb.ofName? text with
    | some verb =>
      if r.isDivided then .error .misuse
      else .ok { r with verb := some verb, outer := r.values, values := [] }
    | none => .error .misuse
  | some verb =>
    if r.operands.length < verb.operandCount && !text.isEmpty then
      .ok { r with operands := r.operands ++ [text] }
    else .error .misuse

/-- Takes a word. -/
def step (text : String) : Except Stop Reading :=
  match r.waiting with
  | some key => if isDashed text.toList then .error .misuse else r.put key text
  | none =>
    if r.isDivided then r.operand text
    else
      match Word.of (keys r.verb) text.toList with
      | .operand => r.operand text
      | .divider => .ok { r with isDivided := true }
      | .option .version _ => .error .version
      | .option key (some value) => r.put key value
      | .option key none =>
        if key.hasValue then .ok { r with waiting := some key } else r.put key ""
      | .unknown => .error .misuse

/-- The value of an option: the one behind the verb, or else the one in front of it. -/
def value? (key : Key) : Option String := (r.values.lookup key).or (r.outer.lookup key)

/-- The value of an option as a path. -/
def path? (key : Key) : Option Path := (r.value? key).map Path.mk

/-- The command, if nothing is missing. -/
def command? : Option Command :=
  match r.verb, r.waiting with
  | some .generate, none =>
    some (.generate (r.path? .compileCommands) (r.path? .declarations)
      (r.value? .printOnly).isSome)
  | some .translate, none => do
    let [caseFile] := r.operands | none
    return .translate ⟨caseFile⟩ (← r.value? .function) (r.path? .declarations)
  | some .config, none => some (.config (r.path? .output))
  | _, _ => none

end Reading

end Command

open Command in
/-- Reads a command line. There is no answer to one that is misused. -/
def Request.ofArguments (arguments : List String) : Option Request :=
  match arguments.foldlM Reading.step {} with
  | .error .version => some .version
  | .error .misuse => none
  | .ok r => r.command?.map fun command =>
      .invocation ⟨command, r.path? .config, r.value? .logLevel⟩

end TestSynth
