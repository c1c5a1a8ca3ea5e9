/-!
# Arguments of commands

An argument that begins with a hyphen stands for options: one after two hyphens by its name, or
several after one hyphen by their letters. The value of an option follows it in the same argument or
is the next one. Everything else, a lone hyphen, and all arguments after two lone hyphens are
positional. Arguments are read in order, and the first that is wrong or asks for help decides.
-/

namespace BacktrackRegex.Command

/-- An option of a command. -/
structure OptionForm where
  name : String
  letter : Option Char
  takesValue : Bool
  /-- Whether it may be given more than once. -/
  repeatable : Bool
  deriving DecidableEq, Repr

namespace OptionForm

/-- An option without a value. -/
def flag (name : String) (letter : Option Char) : OptionForm :=
  ⟨name, letter, false, false⟩

/-- The option that asks for help. -/
def help : OptionForm :=
  flag "help" (some 'h')

/-- The option that asks for the version. -/
def version : OptionForm :=
  flag "version" (some 'V')

end OptionForm

/-- A part of the arguments. -/
inductive Item where
  | option (form : OptionForm) (value : Option String)
  | positional (s : String)
  /-- An unknown option, or an option whose value is missing or unwanted. -/
  | malformed
  deriving DecidableEq, Repr

/-- The value of an option. -/
def Item.value? : Item → Option String
  | .option _ value => value
  | _ => none

/-- Whether an argument stands for options, or ends them. -/
def isOption (arg : String) : Bool :=
  match arg.toList with
  | '-' :: _ :: _ => true
  | _ => false

/-- The options that letters stand for, and the option whose value has to follow. A value may follow
the letter of its option, perhaps after an equals sign. -/
def lettered (forms : List OptionForm) : List Char → List Item × Option OptionForm
  | [] => ([], none)
  | c :: cs =>
    match forms.find? (·.letter == some c) with
    | none => ([.malformed], none)
    | some form =>
      if form.takesValue then
        match cs with
        | [] => ([], some form)
        | '=' :: value => ([.option form (some (String.ofList value))], none)
        | value => ([.option form (some (String.ofList value))], none)
      else
        let (items, pending) := lettered forms cs
        (.option form none :: items, pending)

/-- The option that a name stands for, perhaps with a value after an equals sign, and the option
whose value has to follow. -/
def named (forms : List OptionForm) (cs : List Char) : List Item × Option OptionForm :=
  let name := String.ofList (cs.takeWhile (· != '='))
  match forms.find? (·.name == name), cs.dropWhile (· != '=') with
  | none, _ => ([.malformed], none)
  | some form, [] => if form.takesValue then ([], some form) else ([.option form none], none)
  | some form, _ :: value =>
    if form.takesValue then ([.option form (some (String.ofList value))], none)
    else ([.malformed], none)

/-- What one argument stands for, and the option whose value has to follow. -/
def itemsOf (forms : List OptionForm) (arg : String) : List Item × Option OptionForm :=
  match arg.toList with
  | '-' :: '-' :: name => named forms name
  | '-' :: c :: cs => lettered forms (c :: cs)
  | _ => ([.positional arg], none)

/-- What arguments stand for after an option whose value has to follow. -/
def scan (forms : List OptionForm) : Option OptionForm → List String → List Item
  | none, [] => []
  | some _, [] => [.malformed]
  | some form, arg :: rest =>
    if isOption arg then [.malformed] else .option form (some arg) :: scan forms none rest
  | none, arg :: rest =>
    if arg = "--" then rest.map .positional
    else
      let (items, pending) := itemsOf forms arg
      items ++ scan forms pending rest

/-- The arguments before the first positional one, and those from it on. -/
def splitPositional (forms : List OptionForm) : Option OptionForm → List String →
    List String × List String
  | _, [] => ([], [])
  | pending, arg :: rest =>
    if arg = "--" then (arg :: rest, [])
    else if pending.isNone && !isOption arg then ([], arg :: rest)
    else
      let next := if pending.isNone then (itemsOf forms arg).2 else none
      let (before, after) := splitPositional forms next rest
      (arg :: before, after)

/-- Why arguments are no request. -/
inductive Refusal where
  | malformed
  | help
  | version
  deriving DecidableEq, Repr

/-- The options and positional arguments of a command. -/
structure Arguments where
  positionals : List String
  options : List (String × Option String)
  deriving DecidableEq, Repr

namespace Arguments

/-- Whether an option is among the arguments. -/
def has (a : Arguments) (name : String) : Bool :=
  a.options.any (·.1 == name)

/-- The values of an option. -/
def values (a : Arguments) (name : String) : List String :=
  a.options.filterMap fun (n, value) => if n == name then value else none

/-- The arguments with one more item. Whether a positional argument is accepted depends on how many
there are before it. -/
def add (accepts : Nat → String → Bool) (a : Arguments) : Item → Except Refusal Arguments
  | .malformed => .error .malformed
  | .positional s =>
    if accepts a.positionals.length s then .ok { a with positionals := a.positionals ++ [s] }
    else .error .malformed
  | .option form value =>
    if form = .help then .error .help
    else if form = .version then .error .version
    else if !form.repeatable && a.has form.name then .error .malformed
    else .ok { a with options := a.options ++ [(form.name, value)] }

/-- Reads the arguments of a command with the given options. -/
def read (forms : List OptionForm) (accepts : Nat → String → Bool) (args : List String) :
    Except Refusal Arguments :=
  (scan forms none args).foldlM (add accepts) ⟨[], []⟩

end Arguments

end BacktrackRegex.Command
