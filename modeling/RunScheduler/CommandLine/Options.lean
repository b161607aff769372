import RunScheduler.Text.Cut

/-!
# Options

Arguments of a command are options, which begin with two hyphens, and operands, which do not. An
option either stands alone or has a value: after an equals sign, or as the next argument. After
two hyphens alone all arguments are operands.
-/

namespace RunScheduler

inductive OptionForm
  /-- Stands alone. -/
  | flag
  | single
  /-- May be given several times. -/
  | repeated
deriving DecidableEq, Repr

/-- The options a command has. -/
abbrev OptionForms := List (String × OptionForm)

/-- The arguments of a command, taken apart. -/
structure Options where
  /-- Options with their values, in order; a flag has an empty one. -/
  given : List (String × String) := []
  operands : List String := []
deriving DecidableEq, Repr

namespace Options

open Text

/-- Whether an argument is no option; a single hyphen is none. -/
def isOperand (arg : String) : Bool :=
  !arg.startsWith "-" || arg == "-"

/-- The name of an option, and the value after an equals sign. -/
def splitOption (arg : String) : String × Option String :=
  let name := (arg.toList.drop 2).takeWhile (· != '=')
  (String.ofList name,
   (after? name (arg.toList.drop 2)).bind fun
     | '=' :: value => some (String.ofList value)
     | _ => none)

def add (o : Options) (name value : String) : Options :=
  { o with given := (name, value) :: o.given }

/-- Takes arguments apart, and stops at the first operand if the command has none but goes on
with another command. The options come out with the last in front. -/
def scan (forms : OptionForms) (stopsAtOperand : Bool) (o : Options) :
    List String → Option (Options × List String)
  | [] => some (o, [])
  | "--" :: rest =>
    if stopsAtOperand then none else some ({ o with operands := o.operands ++ rest }, [])
  | arg :: rest =>
    if isOperand arg then
      if stopsAtOperand then some (o, arg :: rest)
      else scan forms stopsAtOperand { o with operands := o.operands ++ [arg] } rest
    else
      let (name, attached) := splitOption arg
      if !arg.startsWith "--" then none
      else
        match forms.lookup name, attached with
        | none, _ => none
        | some .flag, some _ => none
        | some .flag, none => scan forms stopsAtOperand (o.add name "") rest
        | some _, some value => scan forms stopsAtOperand (o.add name value) rest
        | some _, none =>
          match rest with
          | value :: rest =>
            if isOperand value then scan forms stopsAtOperand (o.add name value) rest else none
          | [] => none

/-- Whether no option is given more often than it may be. -/
def areSingle (forms : OptionForms) (o : Options) : Bool :=
  forms.all fun (name, form) => form == .repeated || (o.given.filter (·.1 == name)).length ≤ 1

/-- The arguments of a command that is followed by another: its options, and the rest. -/
def beforeCommand? (forms : OptionForms) (args : List String) :
    Option (Options × List String) := do
  let (o, rest) ← scan forms true {} args
  if o.areSingle forms then some (o, rest) else none

/-- All arguments of a command. -/
def ofArguments? (forms : OptionForms) (args : List String) : Option Options := do
  let (o, _) ← scan forms false {} args
  if o.areSingle forms then some o else none

def value? (o : Options) (name : String) : Option String :=
  o.given.lookup name

def values (o : Options) (name : String) : List String :=
  (o.given.filterMap fun (n, value) => if n = name then some value else none).reverse

def has (o : Options) (name : String) : Bool :=
  (o.value? name).isSome

/-- The value of an option, if it is given, read as something. -/
def read? {α : Type} (o : Options) (name : String) (read : String → Option α) :
    Option (Option α) :=
  match o.value? name with
  | none => some none
  | some value => (read value).map some

end Options

end RunScheduler
