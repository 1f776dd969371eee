import CodeAtlas.Text.Character

/-! Command lines of long options. An option may be cut short as long as no other starts the same
way, and its value may follow after an equals sign or as the next word. -/

namespace CodeAtlas.CommandLine

/-- The options of a command, named without their dashes. Every command also has `help`. -/
structure Options where
  valued : List String
  flags : List String
  required : List String

inductive Stop
  | help
  | usage
  deriving DecidableEq, Repr

def Stop.exitCode : Stop → Int
  | help => 0
  | usage => 2

def Options.names (o : Options) : List String := "help" :: o.valued ++ o.flags

inductive Word
  | plain (text : String)
  | option (name : String) (value : Option String)
  | shortHelp (rest : List Char)
  | unknown
  | endOfOptions
  deriving DecidableEq, Repr

/-- Numbers below zero are no options. A line break at the end does not count. -/
def isNegativeNumber (word : List Char) : Bool :=
  match word with
  | '-' :: rest =>
    let rest := if rest.getLast? = some '\n' then rest.dropLast else rest
    match rest.dropWhile Text.isDigit with
    | [] => !rest.isEmpty
    | '.' :: decimals => !decimals.isEmpty && decimals.all Text.isDigit
    | _ => false
  | _ => false

def splitValue (word : List Char) : String × Option String :=
  match word.dropWhile (· ≠ '=') with
  | [] => (String.ofList word, none)
  | _ :: value => (String.ofList (word.takeWhile (· ≠ '=')), some (String.ofList value))

def Options.find (o : Options) (name : String) : List String :=
  if o.names.contains name then [name]
  else o.names.filter fun n => name.toList.isPrefixOf n.toList

/-- A word with dashes that names no option may still be plain. -/
def classifyUnnamed (word : String) : Word :=
  if isNegativeNumber word.toList || word.toList.contains ' ' then .plain word else .unknown

def classify (o : Options) (word : String) : Except Stop Word :=
  match word.toList with
  | ['-'] => .ok (.plain word)
  | '-' :: '-' :: rest =>
    if o.names.contains (String.ofList rest) then .ok (.option (String.ofList rest) none)
    else
      let (name, value) := splitValue rest
      match o.find name with
      | [] => .ok (classifyUnnamed word)
      | [found] => .ok (.option found value)
      | _ => .error .usage
  | '-' :: 'h' :: rest => .ok (.shortHelp rest)
  | '-' :: _ => .ok (classifyUnnamed word)
  | _ => .ok (.plain word)

def classifyAll (o : Options) : List String → Except Stop (List Word)
  | [] => .ok []
  | word :: words =>
    if word = "--" then .ok (.endOfOptions :: words.map .plain)
    else do
      let first ← classify o word
      let rest ← classifyAll o words
      return first :: rest

/-- The value of an option. Two dashes after an equals sign give it none. -/
abbrev Value := Option String

def noPathMessage : String := "expected str, bytes or os.PathLike object, not list"

def Value.ofText (text : String) : Value := if text = "--" then none else some text

structure Settings where
  values : List (String × Value)
  flags : List String
  hasExtras : Bool
  deriving DecidableEq, Repr

namespace Settings

def none : Settings := ⟨[], [], false⟩

def value? (s : Settings) (name : String) : Option Value := s.values.lookup name

def valueD (s : Settings) (name default : String) : Value := (s.value? name).getD (some default)

def isSet (s : Settings) (name : String) : Bool := s.flags.contains name

end Settings

/-- The short form of `help` may be said again in the same word, also after an equals sign; nothing
else may follow it. -/
def stopOfShortHelp (rest : List Char) : Stop :=
  let again := if rest.head? = some '=' then rest.tail else rest
  if rest = [] ∨ (again ≠ [] ∧ again.all (· = 'h')) then .help else .usage

def collect (o : Options) (s : Settings) : List Word → Except Stop Settings
  | [] => .ok s
  | .option name (some value) :: words =>
    if o.valued.contains name then
      collect o { s with values := (name, Value.ofText value) :: s.values } words
    else .error .usage
  | .option name none :: words =>
    if o.valued.contains name then
      match words with
      | .plain value :: rest => collect o { s with values := (name, some value) :: s.values } rest
      | _ => .error .usage
    else if name = "help" then .error .help
    else collect o { s with flags := name :: s.flags } words
  | .shortHelp rest :: _ => .error (stopOfShortHelp rest)
  | .plain _ :: words => collect o { s with hasExtras := true } words
  | .unknown :: words => collect o { s with hasExtras := true } words
  | .endOfOptions :: words => collect o { s with hasExtras := true } words

/-- Reads a command line. Extra words and missing options are only minded at the end. -/
def parse (o : Options) (words : List String) : Except Stop Settings := do
  let s ← collect o .none (← classifyAll o words)
  if s.hasExtras then throw .usage
  if o.required.all fun name => (s.value? name).isSome then return s
  throw .usage

end CodeAtlas.CommandLine
