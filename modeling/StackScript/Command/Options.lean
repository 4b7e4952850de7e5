import StackScript.Text.Blank

namespace StackScript.Command

/-! The options of the command line. -/

structure Options where
  file : Option String
  debug : List String
  code : Option String
  compile : Bool
  check : Bool
  json : Bool
  output : Option String
  deriving DecidableEq, Repr

def Options.initial : Options where
  file := none
  debug := []
  code := none
  compile := false
  check := false
  json := false
  output := none

/-- What the arguments ask for. -/
inductive Request where
  | version
  | help
  | perform (options : Options)
  | misuse (argument : String)
  deriving DecidableEq, Repr

inductive Flag where
  | compile
  | check
  | json
  | version
  | help
  deriving DecidableEq, Repr

/-- Options that take a value. -/
inductive Setting where
  | debug
  | code
  | output
  deriving DecidableEq, Repr

inductive Name where
  | flag (f : Flag)
  | setting (s : Setting)
  deriving DecidableEq, Repr

def Name.ofLong? : String → Option Name
  | "compile" => some (.flag .compile)
  | "check" => some (.flag .check)
  | "json" => some (.flag .json)
  | "version" => some (.flag .version)
  | "help" => some (.flag .help)
  | "debug" => some (.setting .debug)
  | "exec" => some (.setting .code)
  | "output" => some (.setting .output)
  | _ => none

def Name.ofShort? : Char → Option Name
  | 'c' => some (.flag .compile)
  | 'V' => some (.flag .version)
  | 'h' => some (.flag .help)
  | 'd' => some (.setting .debug)
  | 'e' => some (.setting .code)
  | 'o' => some (.setting .output)
  | _ => none

/-- One argument, or an option with its value, taken apart. -/
inductive Item where
  | flag (f : Flag)
  | setting (s : Setting) (value : String)
  | operand (text : String)
  | unknown (argument : String)
  deriving DecidableEq, Repr

/-- Whether an argument can be the value of the option before it. -/
def isValue (argument : String) : Bool :=
  argument = "-" || argument.toList.head? ≠ some '-'

/-- Short options behind one dash; an option with a value takes the rest, or the next argument. -/
def shortItems (whole : String) : List Char → List String → List Item × List String
  | [], rest => ([], rest)
  | c :: cs, rest =>
      match Name.ofShort? c with
      | some (.flag f) =>
          let (items, rest) := shortItems whole cs rest
          (.flag f :: items, rest)
      | some (.setting s) =>
          match cs, rest with
          | [], value :: rest =>
              if isValue value then ([.setting s value], rest)
              else ([.unknown whole], value :: rest)
          | [], [] => ([.unknown whole], [])
          | '=' :: value, rest => ([.setting s (String.ofList value)], rest)
          | value, rest => ([.setting s (String.ofList value)], rest)
      | none => ([.unknown whole], rest)

def longItems (whole : String) (body : List Char) (rest : List String) :
    List Item × List String :=
  let (name, attached) :=
    match Text.splitOnce '=' body with
    | some (name, value) => (name, some (String.ofList value))
    | none => (body, none)
  match Name.ofLong? (String.ofList name), attached, rest with
  | some (.flag f), none, rest => ([.flag f], rest)
  | some (.setting s), some value, rest => ([.setting s value], rest)
  | some (.setting s), none, value :: rest =>
      if isValue value then ([.setting s value], rest) else ([.unknown whole], value :: rest)
  | _, _, rest => ([.unknown whole], rest)

/-- Takes the arguments apart; behind two dashes all are operands. -/
def itemsWithin : (fuel : Nat) → List String → List Item
  | 0, _ => []
  | _, [] => []
  | fuel + 1, argument :: rest =>
      match argument.toList with
      | ['-', '-'] => rest.map .operand
      | '-' :: '-' :: body =>
          let (items, rest) := longItems argument body rest
          items ++ itemsWithin fuel rest
      | '-' :: c :: cs =>
          let (items, rest) := shortItems argument (c :: cs) rest
          items ++ itemsWithin fuel rest
      | _ => .operand argument :: itemsWithin fuel rest

def items (arguments : List String) : List Item :=
  itemsWithin arguments.length arguments

/-- Enters one item; only the list of debug options may be given more than once, and a path is
never empty. -/
def enter (request : Request) (item : Item) : Request :=
  match request, item with
  | .perform o, .flag .compile =>
      if o.compile then .misuse "--compile" else .perform { o with compile := true }
  | .perform o, .flag .check =>
      if o.check then .misuse "--check" else .perform { o with check := true }
  | .perform o, .flag .json =>
      if o.json then .misuse "--json" else .perform { o with json := true }
  | .perform _, .flag .version => .version
  | .perform _, .flag .help => .help
  | .perform o, .setting .debug value =>
      .perform { o with
        debug := o.debug ++ (Text.splitAll ',' value.toList).map String.ofList }
  | .perform o, .setting .code value =>
      if o.code.isSome then .misuse "--exec" else .perform { o with code := some value }
  | .perform o, .setting .output value =>
      if o.output.isSome || value.isEmpty then .misuse "--output"
      else .perform { o with output := some value }
  | .perform o, .operand text =>
      if o.file.isSome || text.isEmpty then .misuse text
      else .perform { o with file := some text }
  | .perform _, .unknown argument => .misuse argument
  | request, _ => request

def Request.ofArguments (arguments : List String) : Request :=
  (items arguments).foldl enter (.perform .initial)

end StackScript.Command
