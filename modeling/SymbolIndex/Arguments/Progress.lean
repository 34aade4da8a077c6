import SymbolIndex.Arguments.Grammar
import SymbolIndex.Level

/-!
# Reading arguments from left to right

An option or operand is settled, which is where its value is examined, only when
the next one comes or the arguments end.  So of two mistakes the one further to
the left is told, unless the one further to the right shows by its form: an option
that is not known here is noticed at once.
-/

namespace SymbolIndex.Arguments

/-! ## Settling -/

structure Settled where
  log : Option Level := none
  parserLog : Option Level := none
  directory : Option String := none
  operands : List String := []
  deriving DecidableEq, Repr

/-- An option or the operands, which are still to be settled. -/
inductive Target where
  | parameter (parameter : Parameter)
  | operands
  deriving DecidableEq, Repr

/-- The value of an option, which may be given once, and must have a value. -/
def single {α : Type} (earlier : Option α) (read : String → Except UsageError α)
    (values : List String) : Except UsageError (Option α) :=
  match values, earlier with
  | [], _ => .error .invalidValue
  | _ :: _, some _ => .error .argumentConflict
  | value :: _, none => (read value).map some

def readLevel (value : String) : Except UsageError Level :=
  match Level.ofString? value with
  | some level => .ok level
  | none => .error .valueValidation

def readPath (value : String) : Except UsageError String :=
  if value = "" then .error .invalidValue else .ok value

def Operand.read : Operand → String → Except UsageError String
  | path, value => readPath value
  | references, value => .ok value

def Settled.add (settled : Settled) (grammar : Grammar) (values : List String) :
    Target → Except UsageError Settled
  | .parameter .log => do
    return { settled with log := ← single settled.log readLevel values }
  | .parameter .parserLog => do
    return { settled with parserLog := ← single settled.parserLog readLevel values }
  | .parameter .directory => do
    return { settled with directory := ← single settled.directory readPath values }
  | .operands => do
    let values ← match grammar.operand with
      | some operand => values.mapM operand.read
      | none => .ok []
    return { settled with operands := settled.operands ++ values }

/-! ## Taking arguments -/

structure Progress where
  settled : Settled := {}
  /-- What is still to be settled, with its values so far. -/
  pending : Option (Target × List String) := none
  /-- There are only operands from here on. -/
  trailing : Bool := false

namespace Progress

/-- Is there an option that has no value yet? -/
def awaiting (progress : Progress) : Bool :=
  progress.pending.any (·.2.isEmpty)

def settle (progress : Progress) (grammar : Grammar) : Except UsageError Progress :=
  match progress.pending with
  | none => .ok progress
  | some (target, values) => do
    let settled ← progress.settled.add grammar values target
    return { progress with settled, pending := none }

def takeOperand (progress : Progress) (grammar : Grammar) (argument : String) :
    Except UsageError Progress :=
  match grammar.operand, progress.pending with
  | none, _ =>
    .error <| if progress.trailing && (Head.ofString? argument).isSome then .unknownArgument
      else .invalidSubcommand
  | some .references, some (.operands, values) =>
    .ok { progress with pending := some (.operands, values ++ [argument]) }
  | some .path, some (.operands, _) => .error .unknownArgument
  | some operand, _ =>
    if operand = .path && progress.settled.operands ≠ [] then .error .unknownArgument
    else do
      return { ← progress.settle grammar with pending := some (.operands, [argument]) }

/-- Takes an option without a value, which ends the reading. -/
def takeFlag (progress : Progress) (grammar : Grammar) (flag : Flag) :
    Except UsageError Progress := do
  let _ ← progress.settle grammar
  throw flag.request

def takeParameter (progress : Progress) (grammar : Grammar) (parameter : Parameter)
    (value : Option String) : Except UsageError Progress := do
  let progress ← progress.settle grammar
  let given := { progress with pending := some (.parameter parameter, value.toList) }
  if value.isSome then given.settle grammar else return given

/-- Takes an argument that is no operand behind the end of the options. -/
def takeShape (progress : Progress) (grammar : Grammar) (argument : String) :
    Shape → Except UsageError Progress
  | .endOfOptions => .ok { progress with trailing := true }
  | .long name value =>
    match grammar.flag? name, grammar.parameter? name, value with
    | some flag, _, none => progress.takeFlag grammar flag
    | some _, _, some _ => .error .tooManyValues
    | none, some parameter, value => progress.takeParameter grammar parameter value
    | none, none, _ => .error .unknownArgument
  | .short letter =>
    match grammar.letter? letter with
    | some flag => progress.takeFlag grammar flag
    | none => .error .unknownArgument
  | .plain =>
    match progress.pending with
    | some (target, []) => .ok { progress with pending := some (target, [argument]) }
    | _ => progress.takeOperand grammar argument

def take (grammar : Grammar) (progress : Progress) (argument : String) :
    Except UsageError Progress :=
  if progress.trailing then progress.takeOperand grammar argument
  else progress.takeShape grammar argument (.of argument)

end Progress

end SymbolIndex.Arguments
