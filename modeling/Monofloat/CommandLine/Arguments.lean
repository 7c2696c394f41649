import Monofloat.Decimal.Reading

/-!
# Command line arguments

A command line is a verb with a file, options and, for `run`, the arguments of the function to call. The flags
that every verb has may also stand before the verb. An option that takes a value takes it from the same word,
behind `=`, or from the next word; behind `--` every word is a file or an argument. The arguments of `run` may
start with a hyphen, so behind the first of them no word is an option any more.
-/

namespace Monofloat.CommandLine

inductive Verb where
  | lex
  | parse
  | ir
  | run
  | check
deriving DecidableEq, Repr

def Verb.ofName? : String → Option Verb
  | "lex" => some .lex
  | "parse" => some .parse
  | "ir" => some .ir
  | "run" => some .run
  | "check" => some .check
  | _ => none

inductive OptionName where
  | verbose
  | quiet
  | help
  | version
  | output
  | entry
  | maxSteps
deriving DecidableEq, Repr

namespace OptionName

def takesValue : OptionName → Bool
  | output => true
  | entry => true
  | maxSteps => true
  | _ => false

/-- The option with a letter; without a verb, of the words before it. -/
def ofLetter? (verb : Option Verb) : Char → Option OptionName
  | 'v' => some verbose
  | 'q' => some quiet
  | 'h' => some help
  | 'V' => if verb = none then some version else none
  | 'o' => if verb = some .ir then some output else none
  | _ => none

/-- The option with a long name. -/
def ofLongName? (verb : Option Verb) : String → Option OptionName
  | "verbose" => some verbose
  | "quiet" => some quiet
  | "help" => some help
  | "version" => if verb = none then some version else none
  | "output" => if verb = some .ir then some output else none
  | "entry" => if verb = some .run then some entry else none
  | "max-steps" => if verb = some .run then some maxSteps else none
  | _ => none

end OptionName

/-- Why a command line asks for nothing to be done. -/
inductive Usage where
  | wrong
  | help
deriving DecidableEq, Repr

/-- What the words read so far have set. -/
structure Settings where
  quiet : Bool := false
  file : Option String := none
  output : Option String := none
  entry : Option String := none
  maxSteps : Option Nat := none
  args : List Float := []

/-- An unsigned 64-bit number, with an optional plus. -/
def readCount? (text : String) : Option Nat :=
  let digits := match text.toList with
    | '+' :: rest => rest
    | cs => cs
  if digits.isEmpty ∨ ¬ digits.all Char.isDigit then none
  else
    let n := digitsValue digits
    if n < Nat.pow 2 64 then some n else none

namespace Settings

/-- Sets a flag. Only `verbose` may be repeated. -/
def setFlag (s : Settings) : OptionName → Except Usage Settings
  | .verbose => .ok s
  | .quiet => if s.quiet then .error .wrong else .ok { s with quiet := true }
  | .help => .error .help
  | .version => .error .help
  | _ => .error .wrong

/-- Gives an option its value, once. -/
def setValue (s : Settings) (name : OptionName) (value : String) : Except Usage Settings :=
  match name with
  | .output =>
    if s.output.isSome ∨ value.isEmpty then .error .wrong else .ok { s with output := some value }
  | .entry => if s.entry.isSome then .error .wrong else .ok { s with entry := some value }
  | .maxSteps =>
    match readCount? value with
    | some n => if s.maxSteps.isSome then .error .wrong else .ok { s with maxSteps := some n }
    | none => .error .wrong
  | _ => .error .wrong

/-- A word that is not an option: the file, then the arguments of `run`. -/
def addWord (s : Settings) (verb : Verb) (word : String) : Except Usage Settings :=
  match s.file with
  | none => if word.isEmpty then .error .wrong else .ok { s with file := some word }
  | some _ =>
    match verb, readFloat? word with
    | .run, some x => .ok { s with args := s.args ++ [x] }
    | _, _ => .error .wrong

/-- Words none of which is an option. -/
def addWords (s : Settings) (verb : Verb) : List String → Except Usage Settings
  | [] => .ok s
  | word :: words => do (← s.addWord verb word).addWords verb words

/-- Whether the next word may be an argument that starts with a hyphen. -/
def takesArguments (s : Settings) (verb : Verb) : Bool := verb = .run && s.file.isSome

end Settings

/-- What a word looks like. -/
inductive Shape where
  /-- `--`. -/
  | terminator
  /-- `--name` or `--name=value`. -/
  | long (name : String) (value : Option String)
  /-- A hyphen with letters behind it. -/
  | short (letters : List Char)
  | plain
deriving DecidableEq, Repr

/-- The text before the first `=` and the text behind it. -/
def splitEquals (text : List Char) : String × Option String :=
  let name := String.ofList (text.takeWhile (· ≠ '='))
  match text.dropWhile (· ≠ '=') with
  | [] => (name, none)
  | _ :: value => (name, some (String.ofList value))

def Shape.of (word : String) : Shape :=
  match word.toList with
  | ['-', '-'] => .terminator
  | '-' :: '-' :: rest => let (name, value) := splitEquals rest; .long name value
  | '-' :: c :: rest => .short (c :: rest)
  | _ => .plain

/-- Whether a word with a hyphen has a name or a letter that is no option of the verb. -/
def Shape.isForeign (verb : Verb) : Shape → Bool
  | .terminator => false
  | .long name _ => (OptionName.ofLongName? (some verb) name).isNone
  | .short letters => letters.any fun c => (OptionName.ofLetter? (some verb) c).isNone
  | .plain => true

/-- What a reader of options has after a word: the settings, and the option whose value the next word is. -/
structure Reading where
  settings : Settings := {}
  awaiting : Option OptionName := none

/-- Letters behind one hyphen. A letter whose option takes a value takes the rest of the word, without a leading
`=`. -/
def readLetters (verb : Option Verb) (s : Settings) : List Char → Except Usage Reading
  | [] => .ok ⟨s, none⟩
  | c :: rest =>
    match OptionName.ofLetter? verb c with
    | none => .error .wrong
    | some name =>
      if name.takesValue then
        match rest with
        | [] => .ok ⟨s, some name⟩
        | '=' :: value => do return ⟨← s.setValue name (String.ofList value), none⟩
        | value => do return ⟨← s.setValue name (String.ofList value), none⟩
      else do readLetters verb (← s.setFlag name) rest

def readLong (verb : Option Verb) (s : Settings) (name : String) (value : Option String) :
    Except Usage Reading :=
  match OptionName.ofLongName? verb name with
  | none => .error .wrong
  | some option =>
    match option.takesValue, value with
    | true, some v => do return ⟨← s.setValue option v, none⟩
    | true, none => .ok ⟨s, some option⟩
    | false, none => do return ⟨← s.setFlag option, none⟩
    | false, some _ => .error .wrong

/-- Reads a word that is an option. -/
def readOption (verb : Option Verb) (s : Settings) : Shape → Except Usage Reading
  | .long name value => readLong verb s name value
  | .short letters => readLetters verb s letters
  | _ => .error .wrong

/-- The words behind the verb. -/
def readWords (verb : Verb) (r : Reading) : List String → Except Usage Settings
  | [] => if r.awaiting.isSome then .error .wrong else .ok r.settings
  | word :: words =>
    let s := r.settings
    let shape := Shape.of word
    let isWord := shape = .plain ∨ s.takesArguments verb ∧ shape.isForeign verb
    match r.awaiting with
    | some name =>
      if isWord then do readWords verb ⟨← s.setValue name word, none⟩ words else .error .wrong
    | none =>
      if !s.args.isEmpty then s.addWords verb (word :: words)
      else if shape = .terminator then s.addWords verb words
      else if isWord then do readWords verb ⟨← s.addWord verb word, none⟩ words
      else do readWords verb (← readOption (some verb) s shape) words

/-- What is to be done with a file, with the options that belong to it. -/
inductive Command where
  | lex
  | parse
  | ir (output : Option String)
  | run (entry : String) (args : List Float) (maxSteps : Option Nat)
  | check

/-- A command on a file. -/
structure Request where
  quiet : Bool
  file : String
  command : Command

/-- The request that settings for a verb amount to. -/
def Request.of (verb : Verb) (quiet : Bool) (s : Settings) : Except Usage Request :=
  match s.file with
  | none => .error .wrong
  | some file =>
    let command := match verb with
      | .lex => .lex
      | .parse => .parse
      | .ir => .ir s.output
      | .run => .run (s.entry.getD "main") s.args s.maxSteps
      | .check => .check
    .ok ⟨quiet || s.quiet, file, command⟩

/-- The words up to the verb, and those behind it. No option of these takes a value. -/
def readRequestFrom (s : Settings) : List String → Except Usage Request
  | [] => .error .wrong
  | word :: words =>
    match Verb.ofName? word with
    | some verb => do Request.of verb s.quiet (← readWords verb {} words)
    | none =>
      if word = "help" then .error .help
      else do readRequestFrom (← readOption none s (Shape.of word)).settings words

/-- Reads a command line. -/
def readRequest (words : List String) : Except Usage Request := readRequestFrom {} words

end Monofloat.CommandLine
