import UtilityCss.Project.Config

/-! The command line: an option that may stand anywhere, and a subcommand with at most one pattern.

`UsageError` also covers the two requests that end the reading of arguments, help and version. -/
namespace UtilityCss

inductive UsageError where
  | invalidSubcommand
  | unknownArgument
  /-- The value of an option is missing or empty. -/
  | invalidValue
  | tooManyValues
  /-- An option is given twice. -/
  | argumentConflict
  | displayHelp
  | displayVersion
  deriving DecidableEq, Repr

/-- What to do; a pattern takes the place of the configured ones. -/
inductive Command where
  | init
  | build (glob : Option String)
  | watch (glob : Option String)
  deriving DecidableEq, Repr

structure Invocation where
  config : String := Config.fileName
  command : Option Command := none
  deriving DecidableEq, Repr

namespace Arguments

/-- How an argument looks. -/
inductive Shape where
  /-- Two dashes alone. -/
  | escape
  | long (name : String) (value : Option String)
  /-- A dash and at least one letter. -/
  | short (letter : Char) (rest : String)
  | plain
  deriving DecidableEq, Repr

def Shape.of (arg : String) : Shape :=
  match arg.toList with
  | ['-', '-'] => .escape
  | '-' :: '-' :: s =>
    match Text.cutAt? '=' s with
    | some (name, value) => .long (String.ofList name) (some (String.ofList value))
    | none => .long (String.ofList s) none
  | '-' :: c :: s => .short c (String.ofList s)
  | _ => .plain

inductive Subcommand where
  | init | build | watch
  deriving DecidableEq, Repr

namespace Subcommand

def named? : String → Option Subcommand
  | "init" => some .init
  | "build" => some .build
  | "watch" => some .watch
  | _ => none

def takesGlob : Subcommand → Bool
  | init => false
  | build | watch => true

end Subcommand

def helpName : String := "help"

/-- The arguments of one level: those before the subcommand, or those behind it. -/
structure Level where
  config : Option String := none
  /-- An option that was read but not yet stored, and its value if there is one. -/
  pending : Option (Option String) := none
  glob : Option String := none
  /-- Whether two dashes were read: what follows are no options. -/
  escaped : Bool := false

namespace Level

def awaitsValue (l : Level) : Bool := l.pending == some none

/-- Stores the pending option. -/
def settle (l : Level) : Except UsageError Level :=
  match l.pending with
  | none => .ok l
  | some none => .error .invalidValue
  | some (some value) =>
    if l.config.isSome then .error .argumentConflict
    else if value.isEmpty then .error .invalidValue
    else .ok { l with config := some value, pending := none }

/-- An option with its value attached is stored at once. -/
def option (value : Option String) (l : Level) : Except UsageError Level := do
  let l ← l.settle
  let l := { l with pending := some value }
  if value.isSome then l.settle else .ok l

/-- A flag that asks for help or the version. -/
def request (e : UsageError) (l : Level) : Except UsageError Level := do
  let _ ← l.settle
  .error e

/-- An option or a flag. Only the first level knows the version. -/
def flag (isTop : Bool) (l : Level) : Shape → Except UsageError Level
  | .long "config" value => l.option value
  | .long "help" none => l.request .displayHelp
  | .long "help" (some _) => .error .tooManyValues
  | .long "version" value =>
    if !isTop then .error .unknownArgument
    else if value.isSome then .error .tooManyValues
    else l.request .displayVersion
  | .short 'c' "" => l.option none
  | .short 'c' rest =>
    l.option (some (String.ofList ((Text.rest? ['='] rest.toList).getD rest.toList)))
  | .short 'h' _ => l.request .displayHelp
  | .short 'V' _ => if isTop then l.request .displayVersion else .error .unknownArgument
  | _ => .error .unknownArgument

end Level

/-- Reads the arguments behind a subcommand. -/
def readSubcommand (c : Subcommand) (l : Level) : List String → Except UsageError Level
  | [] => l.settle
  | arg :: args =>
    let positional : Except UsageError Level :=
      if c.takesGlob && l.glob.isNone then l.settle.map ({ · with glob := some arg })
      else .error .unknownArgument
    let next : Except UsageError Level :=
      if l.escaped then positional
      else
        match Shape.of arg with
        | .escape => .ok { l with escaped := true }
        | .plain => if l.awaitsValue then .ok { l with pending := some (some arg) } else positional
        | shape => l.flag false shape
    match next with
    | .error e => .error e
    | .ok l => readSubcommand c l args

/-- What a request for help about nested subcommands comes to: there is only one level of them. -/
def readHelp : List String → UsageError
  | [] => .displayHelp
  | [name] =>
    if (Subcommand.named? name).isSome || name = helpName then .displayHelp else .invalidSubcommand
  | _ => .invalidSubcommand

/-- Reads the arguments before the subcommand, and all that follow. The options of the first level
are stored last. -/
def readTop (l : Level) : List String → Except UsageError (Level × Option (Subcommand × Level))
  | [] => l.settle.map (·, none)
  | arg :: args =>
    if l.escaped then
      if (Subcommand.named? arg).isSome || arg = helpName then .error .unknownArgument
      else .error .invalidSubcommand
    else
      match Shape.of arg with
      | .escape => readTop { l with escaped := true } args
      | .plain =>
        if l.awaitsValue then readTop { l with pending := some (some arg) } args
        else if arg = helpName then .error (readHelp args)
        else
          match Subcommand.named? arg with
          | none => .error .invalidSubcommand
          | some c =>
            match readSubcommand c {} args with
            | .error e => .error e
            | .ok inner => l.settle.map (·, some (c, inner))
      | shape =>
        match l.flag true shape with
        | .error e => .error e
        | .ok l => readTop l args

def commandOf (l : Level) : Subcommand → Command
  | .init => .init
  | .build => .build l.glob
  | .watch => .watch l.glob

/-- Reads a command line. An option behind the subcommand counts more than one before it. -/
def read (args : List String) : Except UsageError Invocation :=
  match readTop {} args with
  | .error e => .error e
  | .ok (l, inner) =>
    let config := (inner.bind fun (_, i) => i.config) <|> l.config
    .ok { config := config.getD Config.fileName, command := inner.map fun (c, i) => commandOf i c }

end Arguments
end UtilityCss
