import SchemaShapes.Command.Basic

/-! Command lines. The first argument names the command; its options and its file follow in any
order. The value of an option is joined to it or is the next argument. -/
namespace SchemaShapes.CommandLine

open File (Path)

/-- The options that commands may have. -/
inductive Key where
  | element
  | ns
  | folder
  deriving DecidableEq

/-- The long name of an option. -/
def Key.word : Key → List Char
  | .element => "element".toList
  | .ns => "namespace".toList
  | .folder => "resolution-folder".toList

/-- The short name of an option. -/
def Key.letter : Key → Char
  | .element => 'e'
  | .ns => 'n'
  | .folder => 'r'

/-- What an argument is on its own. -/
inductive Argument where
  /-- An option, with the value that is joined to it. -/
  | option (key : Key) (value : Option String)
  /-- The mark after which there are no options. -/
  | mark
  | plain (text : String)
  | unknown

/-- The value that is joined to the short name of an option. An equals sign may come between. -/
def joinedValue : List Char → Option String
  | [] => none
  | '=' :: value => some (String.ofList value)
  | value => some (String.ofList value)

/-- The value that is joined to the long name of an option by an equals sign. -/
def assignedValue : List Char → Option String
  | '=' :: value => some (String.ofList value)
  | _ => none

/-- What an argument is, where the given options are allowed. A single dash is no option. -/
def Argument.of (keys : List Key) (arg : String) : Argument :=
  match arg.toList with
  | ['-', '-'] => .mark
  | '-' :: '-' :: cs =>
    let word := cs.takeWhile (· ≠ '=')
    match keys.find? (·.word = word) with
    | some key => .option key (assignedValue (cs.drop word.length))
    | none => .unknown
  | '-' :: c :: cs =>
    match keys.find? (·.letter = c) with
    | some key => .option key (joinedValue cs)
    | none => .unknown
  | _ => .plain arg

/-- The options and the other arguments of a command line, in order. -/
structure Arguments where
  options : List (Key × String)
  others : List String

/-- The arguments with an option before them, unless it is among them already. -/
def Arguments.addOption (key : Key) (value : String) (a : Arguments) : Option Arguments :=
  if a.options.any (·.1 = key) then none
  else some { a with options := (key, value) :: a.options }

/-- Read arguments where the given options are allowed. -/
def Arguments.read (keys : List Key) : List String → Option Arguments
  | [] => some ⟨[], []⟩
  | arg :: rest =>
    match Argument.of keys arg with
    | .unknown => none
    | .mark => some ⟨[], rest⟩
    | .plain text => (read keys rest).map fun a => { a with others := text :: a.others }
    | .option key (some value) => (read keys rest).bind (·.addOption key value)
    | .option key none =>
      match rest with
      | [] => none
      | next :: rest =>
        match Argument.of keys next with
        | .plain value => (read keys rest).bind (·.addOption key value)
        | _ => none

/-- The value of an option. -/
def Arguments.value? (a : Arguments) (key : Key) : Option String :=
  (a.options.find? (·.1 = key)).map (·.2)

/-- A text as a path, which is never empty. -/
def pathOf (text : String) : Option Path := if text = "" then none else some ⟨text⟩

/-- The file of a command, which is the only argument that is no option. -/
def Arguments.file (a : Arguments) : Option Path :=
  match a.others with
  | [text] => pathOf text
  | _ => none

/-- The folder that the locations in documents are seen from, if one is given. -/
def Arguments.folder (a : Arguments) : Option (Option Path) :=
  (a.value? .folder).mapM pathOf

/-- The element of a schema file that is meant. -/
def Arguments.input (a : Arguments) : Option SchemaInput := do
  return ⟨← a.file, ← a.folder, ⟨a.value? .element, a.value? .ns⟩⟩

/-- The command that a command line gives. -/
def parse : List String → Option Command
  | "infer" :: args => do
    return .infer (← (← Arguments.read [.element, .ns, .folder] args).input)
  | "schema" :: args => do
    return .schema (← (← Arguments.read [.element, .ns, .folder] args).input)
  | "elements" :: args => do
    let a ← Arguments.read [.folder] args
    return .elements (← a.file) (← a.folder)
  | "manifest" :: args => do
    return .manifest (← (← Arguments.read [] args).file)
  | _ => none

end SchemaShapes.CommandLine
