/-!
# What is wrong with the description of an entry

An entry is made from enclosing names or from its canonical text.  These are the
ways in which either can fall short, with the words that tell the reader.
-/

namespace SymbolIndex

inductive EntryError where
  /-- Fewer names enclose the leaf than an entry needs. -/
  | incomplete (expected found : Nat)
  /-- A name lacks the character that splits it in two. -/
  | missingSeparator (name : String) (separator : Char)
  /-- A canonical text has fewer fields than an entry needs. -/
  | tooFewFields (canonical : String) (found : Nat)
  /-- A location has one or two of its three numbers. -/
  | partialLocation (canonical : String)
  /-- A true origin has one to three of its four names. -/
  | partialTrueOrigin (canonical : String)
  /-- A field of a location is no number. -/
  | invalidNumber (text : String)
  deriving DecidableEq, Repr

namespace EntryError

/-- The number of fields that a canonical text needs. -/
def minFields : Nat := 6

def message : EntryError → String
  | incomplete expected found => s!"expected {expected} enclosing names, found {found}"
  | missingSeparator name separator => s!"'{name}' is missing the '{separator}' separator"
  | tooFewFields canonical found =>
    s!"'{canonical}' has {found} fields, expected at least {minFields}"
  | partialLocation canonical =>
    s!"'{canonical}' has a partial location, expected line, start and end"
  | partialTrueOrigin canonical =>
    s!"'{canonical}' has a partial true origin, expected four fields"
  | invalidNumber text => s!"'{text}' is not a number"

end EntryError

end SymbolIndex
