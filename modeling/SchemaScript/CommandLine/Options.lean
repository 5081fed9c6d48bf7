/-!
# Options and arguments

The arguments of a command mix freely with its options.  Short options can stand in
one word, and the last of them can take the rest of the word, or the next word, as
its value; a long option takes a value behind an equals sign or from the next word.
After `--` there are arguments only.

## Main definitions

* `Choice` — an option with its value.
* `Choice.readAll?` — the options and the arguments of a list of words.
* `Request`, `Request.ofWords` — what a list of words asks for.
-/

namespace SchemaScript

/-- The name that the command goes by. -/
def commandName : String := "json_schema_to_ts"

/-- An option that was given. -/
inductive Choice
  /-- The settings are in a file. -/
  | config (path : String)
  /-- Names that a pattern hits are not generated. -/
  | exclude (pattern : String)
  /-- A definition is generated. -/
  | type (name : String)
  /-- All notes are reported. -/
  | verbose
  /-- Only the usage is told. -/
  | help
  deriving DecidableEq

namespace Choice

/-- What an option needs. -/
inductive Form
  /-- Nothing. -/
  | flag (c : Choice)
  /-- A value. -/
  | valued (make : String → Choice)

/-- The form of an option by its letter. -/
def short? : Char → Option Form
  | 'c' => some (.valued .config)
  | 'x' => some (.valued .exclude)
  | 't' => some (.valued .type)
  | 'v' => some (.flag .verbose)
  | _ => none

/-- The form of an option by its long name. -/
def long? : List Char → Option Form
  | ['c', 'o', 'n', 'f', 'i', 'g'] => some (.valued .config)
  | ['e', 'x', 'c', 'l', 'u', 'd', 'e'] => some (.valued .exclude)
  | ['t', 'y', 'p', 'e'] => some (.valued .type)
  | ['v', 'e', 'r', 'b', 'o', 's', 'e'] => some (.flag .verbose)
  | ['h', 'e', 'l', 'p'] => some (.flag .help)
  | _ => none

/-- The options of a word, and an option that waits for the next word. -/
abbrev Reading := List Choice × Option (String → Choice)

/-- The options that letters write. -/
def readShort? : List Char → Option Reading
  | [] => some ([], none)
  | c :: cs =>
    match short? c with
    | none => none
    | some (.flag choice) => (readShort? cs).map fun (choices, wait) => (choice :: choices, wait)
    | some (.valued make) =>
      if cs.isEmpty then some ([], some make) else some ([make (String.ofList cs)], none)

/-- The option that a long name writes, with a value behind an equals sign or not. -/
def readLong? (cs : List Char) : Option Reading :=
  match long? (cs.takeWhile (· != '=')), cs.dropWhile (· != '=') with
  | some (.valued make), [] => some ([], some make)
  | some (.valued make), _ :: value => some ([make (String.ofList value)], none)
  | some (.flag choice), [] => some ([choice], none)
  | _, _ => none

/-- The options of a word, if it is one of options. -/
def ofWord? : List Char → Option (Option Reading)
  | '-' :: '-' :: cs => some (readLong? cs)
  | '-' :: c :: cs => some (readShort? (c :: cs))
  | _ => none

/-- The options and the arguments of a list of words. -/
def readAll? : List String → Option (List Choice × List String)
  | [] => some ([], [])
  | word :: words =>
    if word = "--" then some ([], words)
    else match ofWord? word.toList with
      | none => (readAll? words).map fun (choices, arguments) => (choices, word :: arguments)
      | some none => none
      | some (some (choices, none)) =>
        (readAll? words).map fun (more, arguments) => (choices ++ more, arguments)
      | some (some (choices, some make)) =>
        match words with
        | [] => none
        | value :: words =>
          (readAll? words).map fun (more, arguments) => (choices ++ make value :: more, arguments)

/-- The path of the settings, if the choice gives one. -/
def config? : Choice → Option String
  | config path => some path
  | _ => none

/-- The pattern, if the choice gives one. -/
def exclude? : Choice → Option String
  | exclude pattern => some pattern
  | _ => none

/-- The definition, if the choice gives one. -/
def type? : Choice → Option String
  | type name => some name
  | _ => none

end Choice

/-! ### Requests -/

/-- A generation that is asked for. -/
structure Request where
  config : Option String
  exclude : List String
  types : List String
  verbose : Bool
  /-- The file with the schema. -/
  path : String
  /-- The file to write. -/
  output : String

/-- What a list of words asks for. -/
inductive Asked
  | request (r : Request)
  /-- The usage. -/
  | help
  /-- Nothing that is understood. -/
  | misuse

/-- What a list of words asks for.  Of several settings files the last one counts. -/
def Asked.ofWords (words : List String) : Asked :=
  match Choice.readAll? words with
  | none => .misuse
  | some (choices, arguments) =>
    if Choice.help ∈ choices then .help
    else match arguments with
      | [path, output] => .request {
          config := (choices.filterMap Choice.config?).getLast?
          exclude := choices.filterMap Choice.exclude?
          types := choices.filterMap Choice.type?
          verbose := decide (Choice.verbose ∈ choices)
          path
          output }
      | _ => .misuse

end SchemaScript
