import DocTree.App

/-!
# Command line

The words of a command line: options of the program, the name of a command, then options and the one
argument of the command in any order. An option is written `--name` or, if it has a letter, `-x`;
letters may stand together. A value follows an option as the next word, after an equals sign, or
right after the letter. After the word `--` everything is an argument.

Words are read from left to right, and the first one that cannot be read, or that asks for help or
for the version, ends the reading.
-/

namespace DocTree

/-! ## Options -/

inductive OptionKind
  | flag
  | value
  | help
  | version
deriving DecidableEq, Repr

structure CommandOption where
  name : String
  letter : Option Char := none
  kind : OptionKind := .flag
deriving DecidableEq, Repr

/-- A command: its name, its options, and whether its argument may be empty. -/
structure CommandForm where
  name : String
  options : List CommandOption
  emptyArgument : Bool := false

namespace CommandOption

def verbose : CommandOption := { name := "verbose", letter := some 'v' }

def help : CommandOption := { name := "help", letter := some 'h', kind := .help }

def version : CommandOption := { name := "version", letter := some 'V', kind := .version }

def config : CommandOption := { name := "config", letter := some 'c', kind := .value }

def output : CommandOption := { name := "output", letter := some 'o', kind := .value }

def transform : CommandOption := { name := "transform", letter := some 't' }

def image : CommandOption := { name := "image" }

def noWiki : CommandOption := { name := "no-wiki" }

/-- The options before the name of a command. -/
def ofProgram : List CommandOption := [verbose, help, version]

end CommandOption

namespace CommandForm

open CommandOption

def events : CommandForm where
  name := "events"
  options := [transform, config, output, verbose, help]

def reference : CommandForm where
  name := "reference"
  options := [image, noWiki, config, verbose, help]
  emptyArgument := true

def dialect : CommandForm where
  name := "syntax"
  options := [verbose, help]
  emptyArgument := true

end CommandForm

/-! ## Reading words -/

/-- Why a command line cannot be read. -/
inductive UsageError
  | commandMissing
  | commandUnknown (word : String)
  | optionUnknown (word : String)
  | optionRepeated (name : String)
  | valueMissing (name : String)
  | valueEmpty (name : String)
  | valueUnexpected (name : String)
  | argumentMissing
  | argumentEmpty
  | argumentUnexpected (word : String)
deriving DecidableEq, Repr

def UsageError.message : UsageError → String
  | commandMissing => "a command is required"
  | commandUnknown word => "unrecognized command '" ++ word ++ "'"
  | optionUnknown word => "unexpected option '" ++ word ++ "'"
  | optionRepeated name => "option '--" ++ name ++ "' cannot be used multiple times"
  | valueMissing name => "option '--" ++ name ++ "' requires a value"
  | valueEmpty name => "the value of option '--" ++ name ++ "' is empty"
  | valueUnexpected name => "option '--" ++ name ++ "' takes no value"
  | argumentMissing => "an argument is required"
  | argumentEmpty => "the argument is empty"
  | argumentUnexpected word => "unexpected argument '" ++ word ++ "'"

/-- Why the reading ends without a command to run. -/
inductive Halt
  | help
  | version
  | misuse (e : UsageError)
deriving DecidableEq, Repr

/-- What has been read: options with their values, flags with an empty one, and the argument. -/
structure Given where
  options : List (String × String) := []
  argument : Option String := none
deriving DecidableEq, Repr

namespace Given

def has (g : Given) (o : CommandOption) : Bool := (g.options.lookup o.name).isSome

def value? (g : Given) (o : CommandOption) : Option String := g.options.lookup o.name

def setValue (g : Given) (o : CommandOption) (value : String) : Except Halt Given :=
  if value.isEmpty then .error (.misuse (.valueEmpty o.name))
  else if g.has o then .error (.misuse (.optionRepeated o.name))
  else .ok { g with options := g.options ++ [(o.name, value)] }

/-- Enter an option that takes no value. -/
def setFlag (g : Given) (o : CommandOption) : Except Halt Given :=
  match o.kind with
  | .help => .error .help
  | .version => .error .version
  | _ =>
    if g.has o then .error (.misuse (.optionRepeated o.name))
    else .ok { g with options := g.options ++ [(o.name, "")] }

def setArgument (g : Given) (form : CommandForm) (word : String) : Except Halt Given :=
  if g.argument.isSome then .error (.misuse (.argumentUnexpected word))
  else if word.isEmpty && !form.emptyArgument then .error (.misuse .argumentEmpty)
  else .ok { g with argument := some word }

/-- An option by its name, with the value after an equals sign if there is one. The answer also
holds an option that still waits for its value. -/
def readName (options : List CommandOption) (g : Given) (word : List Char) :
    Except Halt (Given × Option CommandOption) :=
  let (name, value) :=
    match Text.splitFirst '=' word with
    | some (name, value) => (name, some (String.ofList value))
    | none => (word, none)
  match options.find? fun o => o.name = String.ofList name with
  | none => .error (.misuse (.optionUnknown (String.ofList ('-' :: '-' :: word))))
  | some o =>
    match o.kind, value with
    | .value, some v => (g.setValue o v).map fun g => (g, none)
    | .value, none => .ok (g, some o)
    | _, some _ => .error (.misuse (.valueUnexpected o.name))
    | _, none => (g.setFlag o).map fun g => (g, none)

/-- Options by their letters. What follows the letter of an option with a value is that value. -/
def readLetters (options : List CommandOption) (g : Given) :
    List Char → Except Halt (Given × Option CommandOption)
  | [] => .ok (g, none)
  | c :: cs =>
    match options.find? fun o => o.letter = some c with
    | none => .error (.misuse (.optionUnknown (String.ofList ['-', c])))
    | some o =>
      if o.kind = .value then
        match cs with
        | [] => .ok (g, some o)
        | '=' :: value | value => (g.setValue o (String.ofList value)).map fun g => (g, none)
      else
        match g.setFlag o with
        | .error h => .error h
        | .ok g => readLetters options g cs

/-- The words after the name of a command. -/
def readWords (form : CommandForm) (g : Given) (waiting : Option CommandOption) :
    List String → Except Halt Given
  | [] =>
    match waiting with
    | some o => .error (.misuse (.valueMissing o.name))
    | none => .ok g
  | word :: words =>
    match waiting, word.toList with
    | some o, ['-'] =>
      match g.setValue o word with
      | .error h => .error h
      | .ok g => readWords form g none words
    | some o, '-' :: _ => .error (.misuse (.valueMissing o.name))
    | some o, _ =>
      match g.setValue o word with
      | .error h => .error h
      | .ok g => readWords form g none words
    | none, ['-', '-'] => words.foldlM (fun g w => g.setArgument form w) g
    | none, '-' :: '-' :: name =>
      match g.readName form.options name with
      | .error h => .error h
      | .ok (g, waiting) => readWords form g waiting words
    | none, '-' :: c :: letters =>
      match g.readLetters form.options (c :: letters) with
      | .error h => .error h
      | .ok (g, waiting) => readWords form g waiting words
    | none, _ =>
      match g.setArgument form word with
      | .error h => .error h
      | .ok g => readWords form g none words

end Given

/-! ## Commands -/

inductive Command
  | events (input : String) (transform : Bool) (config output : Option String)
  | reference (raw : String) (image noWiki : Bool) (config : Option String)
  | dialect (id : String)
deriving DecidableEq, Repr

namespace Command

open CommandOption (config output transform image noWiki)

/-- What is read after the name of a command, with its argument. -/
def given (form : CommandForm) (words : List String) : Except Halt (Given × String) :=
  match Given.readWords form {} none words with
  | .error h => .error h
  | .ok g =>
    match g.argument with
    | none => .error (.misuse .argumentMissing)
    | some a => .ok (g, a)

/-- The command of a name, with the words after it. -/
def ofWords (name : String) (words : List String) : Except Halt Command :=
  if name = "events" then
    (given .events words).map fun (g, input) =>
      events input (g.has transform) (g.value? config) (g.value? output)
  else if name = "reference" then
    (given .reference words).map fun (g, raw) =>
      reference raw (g.has image) (g.has noWiki) (g.value? config)
  else if name = "syntax" then
    (given .dialect words).map fun (_, id) => dialect id
  else if name = "help" then
    match words with
    | [] => .error .help
    | [word] =>
      if word ∈ ["events", "reference", "syntax", "help"] then .error .help
      else .error (.misuse (.commandUnknown word))
    | _ :: word :: _ => .error (.misuse (.commandUnknown word))
  else .error (.misuse (.commandUnknown name))

/-- The command of a command line, after the options of the program. -/
def readLine (g : Given) : List String → Except Halt Command
  | [] => .error (.misuse .commandMissing)
  | word :: words =>
    match word.toList with
    | ['-', '-'] => .error (.misuse .commandMissing)
    | '-' :: '-' :: name =>
      match g.readName CommandOption.ofProgram name with
      | .error h => .error h
      | .ok (g, _) => readLine g words
    | '-' :: c :: letters =>
      match g.readLetters CommandOption.ofProgram (c :: letters) with
      | .error h => .error h
      | .ok (g, _) => readLine g words
    | _ => ofWords word words

def read (words : List String) : Except Halt Command := readLine {} words

/-! ## Running -/

variable {m : Type → Type} [Monad m]

/-- Run a command; the answer is what it prints. -/
def run (fs : FileAccess m) : Command → m (Except AppError String)
  | events input transform config none => do
    return (← App.renderEvents fs input transform config).map (· ++ "\n")
  | events input transform config (some output) => do
    return (← App.writeEvents fs input transform config output).map fun _ => ""
  | reference raw image noWiki config => do
    match ← App.settings fs config "." with
    | .error e => return .error e
    | .ok s =>
      let r : ReferenceSettings :=
        if noWiki then { s.references with wikiMode := false } else s.references
      return .ok (App.describeReference raw image r ++ "\n")
  | dialect id => return (App.describeDialect id).map (· ++ "\n")

end Command

end DocTree
