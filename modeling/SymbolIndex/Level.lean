import SymbolIndex.Text.Decimal

/-!
# Levels

How much is to be logged, from nothing to everything.
-/

namespace SymbolIndex

inductive Level where
  | off
  | error
  | warn
  | info
  | debug
  | trace
  deriving DecidableEq, Repr

namespace Level

/-- The levels from the least on; the place of a level is its number. -/
def all : List Level := [off, error, warn, info, debug, trace]

def name : Level → String
  | off => "off"
  | error => "error"
  | warn => "warn"
  | info => "info"
  | debug => "debug"
  | trace => "trace"

/-- Reads a level: its number, or its name in letters of any case; nothing stands for errors. -/
def ofString? (text : String) : Option Level :=
  match (Decimal.unsigned? text.toList).bind (all[·]?) with
  | some level => some level
  | none =>
    if text = "" then some error
    else all.find? fun level => level.name.toList = text.toList.map Char.toLower

theorem ofString?_name (level : Level) : ofString? level.name = some level := by
  cases level <;> decide

end Level

end SymbolIndex
