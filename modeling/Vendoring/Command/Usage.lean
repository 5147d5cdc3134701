/-
# Reading command lines

A command line consists of options, of at most one further argument, and of the
name of a subcommand with its own command line behind it. An option may be
written long or short; short ones without a value can share a dash, and a value
may follow at once, behind an equals sign, or as the next argument. Behind `--`
nothing is an option.

The value of an option is looked at only when the next option or argument comes,
or at the end. So of two mistakes an unknown option counts before a bad value in
front of it.
-/

import Vendoring.Settings

namespace Vendoring.Command

/-- Why a command line is not run. -/
inductive UsageError
  /-- An option or argument that the command does not have. -/
  | unknownArgument
  /-- An option or argument that the command cannot do without is missing. -/
  | missingArgument
  /-- An option stands without its value. -/
  | missingValue
  /-- A value cannot be read. -/
  | badValue
  /-- An option that takes no value is given one. -/
  | unexpectedValue
  /-- An option is given twice. -/
  | repeatedOption
  /-- There is no such subcommand. -/
  | unknownSubcommand
  /-- The subcommand is missing. -/
  | missingSubcommand
  /-- The command line is empty. -/
  | nothingGiven
  /-- Help is asked for. -/
  | helpRequested
  /-- The version is asked for. -/
  | versionRequested
  deriving DecidableEq, Repr

/-- What a value has to be. -/
inductive ValueKind
  /-- A path, which is not empty. -/
  | path
  /-- Any text. -/
  | text
  /-- A count. -/
  | count
  deriving DecidableEq, Repr

/-- What an option does. -/
inductive Action
  /-- Take a value, once. -/
  | set (kind : ValueKind)
  /-- Take a value each time. -/
  | append (kind : ValueKind)
  /-- Switch something on, once. -/
  | enable
  /-- Count how often it is given. -/
  | count
  /-- Ask for help. -/
  | help
  /-- Ask for the version. -/
  | version
  deriving DecidableEq, Repr

/-- An option or argument of a command. -/
structure Parameter where
  /-- Its name, which is also its long form. -/
  name : String
  /-- Its short form. -/
  short : Option Char := none
  /-- What it does. -/
  action : Action
  deriving DecidableEq, Repr

/-- The form of a command line. -/
structure Grammar where
  /-- The options. -/
  options : List Parameter
  /-- The argument that is no option. -/
  argument : Option Parameter := none
  /-- The subcommands. -/
  subcommands : List String := []
  /-- The names of the options and arguments that have to be given. -/
  required : List String := []

/-- The values given, by the names of options and arguments, in order. An option
without a value counts as one with an empty value. -/
abbrev Values := List (String × String)

/-- A command line that has been read up to some place. -/
structure Reading where
  /-- The values that have been looked at. -/
  values : Values := []
  /-- An option or argument that has not been looked at, and its value if that has
  been given. -/
  pending : Option (Parameter × Option String) := none
  /-- Whether the next argument is the value of the pending option. -/
  isWaiting : Bool := false
  /-- Whether `--` has been read. -/
  isTrailing : Bool := false
  /-- Whether the argument that is no option has been given. -/
  hasArgument : Bool := false

/-- Whether a value is of a kind, or why not. -/
def ValueKind.check (kind : ValueKind) (value : String) : Except UsageError Unit :=
  match kind with
  | .path => if value = "" then .error .missingValue else .ok ()
  | .text => .ok ()
  | .count => if (Settings.parseCount? value).isSome then .ok () else .error .badValue

namespace Reading

variable (r : Reading)

/-- Whether an option or argument has been given. -/
def has (name : String) : Bool :=
  r.values.any fun v => v.1 = name

/-- Enter a value. -/
def enter (name value : String) : Reading :=
  { r with values := r.values ++ [(name, value)] }

/-- Look at an option or argument with the value that was given for it. -/
def accept (p : Parameter) (value : Option String) : Except UsageError Reading :=
  match p.action, value with
  | .help, _ => .error .helpRequested
  | .version, _ => .error .versionRequested
  | .count, _ => .ok (r.enter p.name "")
  | .enable, _ => if r.has p.name then .error .repeatedOption else .ok (r.enter p.name "")
  | .set _, none | .append _, none => .error .missingValue
  | .set kind, some value =>
    if r.has p.name then .error .repeatedOption
    else (kind.check value).map fun _ => r.enter p.name value
  | .append kind, some value => (kind.check value).map fun _ => r.enter p.name value

/-- Look at what is pending. -/
def settle : Except UsageError Reading :=
  match r.pending with
  | none => .ok r
  | some (p, value) => { r with pending := none, isWaiting := false }.accept p value

/-- Whether an option takes a value. -/
def takesValue (p : Parameter) : Bool :=
  match p.action with
  | .set _ | .append _ => true
  | _ => false

/-- Take an option with a value that is written together with it, or with none. -/
def takeOption (p : Parameter) (attached : Option String) : Except UsageError Reading := do
  let r ← r.settle
  if takesValue p && attached.isNone then
    return { r with pending := some (p, none), isWaiting := true }
  else r.accept p attached

/-- Take short options that share a dash. -/
def takeShort (g : Grammar) : List Char → Reading → Except UsageError Reading
  | [], r => .ok r
  | c :: rest, r =>
    match g.options.find? fun p => p.short = some c with
    | none => .error .unknownArgument
    | some p =>
      if takesValue p then
        match rest with
        | [] => r.takeOption p none
        | '=' :: value => r.takeOption p (some (String.ofList value))
        | value => r.takeOption p (some (String.ofList value))
      else (r.takeOption p none).bind (takeShort g rest)

/-- Take a long option, written without its dashes. -/
def takeLong (g : Grammar) (s : List Char) : Except UsageError Reading :=
  let name := String.ofList (s.takeWhile (· ≠ '='))
  let attached := match s.dropWhile (· ≠ '=') with
    | _ :: value => some (String.ofList value)
    | [] => none
  match g.options.find? fun p => p.name = name with
  | none => .error .unknownArgument
  | some p =>
    if !takesValue p && attached.isSome then .error .unexpectedValue
    else r.takeOption p attached

/-- Take an argument that is no option. -/
def takeArgument (g : Grammar) (value : String) : Except UsageError Reading :=
  match g.argument with
  | some p =>
    if r.hasArgument then .error .unknownArgument
    else do
      let r ← r.settle
      return { r with pending := some (p, some value), hasArgument := true }
  | none =>
    if g.subcommands = [] || (r.isTrailing && value ∈ g.subcommands) then .error .unknownArgument
    else .error .unknownSubcommand

/-- Take one argument. -/
def take (g : Grammar) (value : String) : Except UsageError Reading :=
  if r.isTrailing then r.takeArgument g value
  else
    match value.toList with
    | ['-', '-'] => .ok { r with isTrailing := true }
    | '-' :: '-' :: s => r.takeLong g s
    | '-' :: c :: s => takeShort g (c :: s) r
    | _ =>
      match r.pending, r.isWaiting with
      | some (p, _), true => .ok { r with pending := some (p, some value), isWaiting := false }
      | _, _ => r.takeArgument g value

end Reading

/-- Read a command line up to its end or to a subcommand. Gives the values and the
subcommand with the arguments behind it. -/
def Grammar.read (g : Grammar) :
    List String → Reading → Except UsageError (Reading × Option (String × List String))
  | [], r => r.settle.map (·, none)
  | value :: rest, r =>
    if !r.isTrailing && value ∈ g.subcommands then .ok (r, some (value, rest))
    else (r.take g value).bind (g.read rest)

/-- Read the command line of a command without subcommands. -/
def Grammar.readAll (g : Grammar) (args : List String) : Except UsageError Values := do
  let (r, _) ← g.read args {}
  if g.required.all r.has then return r.values else throw .missingArgument

/-- The last value given under a name. -/
def Values.last? (values : Values) (name : String) : Option String :=
  ((values.filter fun v => v.1 = name).getLast?).map (·.2)

/-- All values given under a name. -/
def Values.all (values : Values) (name : String) : List String :=
  (values.filter fun v => v.1 = name).map (·.2)

end Vendoring.Command
