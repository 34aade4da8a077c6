import SymbolIndex.Session

/-!
# Commands

What can be asked of a source index from outside.  Each command gives a report:
the text that it writes, and how it ends.  A reference that leads nowhere is
reported in its place and makes the outcome a failure; an index that cannot be
loaded ends the command, and what was written before stays.
-/

namespace SymbolIndex

inductive Command where
  /-- How many entries are there in an index document? -/
  | check (index : String)
  /-- Which entries are there in an index document? -/
  | entries (index : String)
  /-- Where do references lead, by the index in a directory of generated documentation? -/
  | resolve (directory : String) (references : List String)
  deriving DecidableEq, Repr

/-- How a command ends that runs to its end. -/
inductive Outcome where
  | success
  /-- At least one reference leads nowhere. -/
  | failure
  deriving DecidableEq, Repr

/-- Two parts of a command end in success only if both do. -/
def Outcome.and : Outcome → Outcome → Outcome
  | success, outcome => outcome
  | failure, _ => failure

structure Report where
  output : String
  ending : Except SessionError Outcome

namespace Report

/-- The report of a command that has nothing to do. -/
def done : Report := ⟨"", .ok .success⟩

/-- The report of a command that has written `text` before, with the given outcome. -/
def after (text : String) (outcome : Outcome) (report : Report) : Report :=
  ⟨text ++ report.output, report.ending.map outcome.and⟩

end Report

namespace Command

/-- The path of the index document that a command reads. -/
def index : Command → String
  | check index => index
  | entries index => index
  | resolve directory _ => Path.push directory Session.indexName

def line (text : String) : String := text ++ "\n"

/-- The lines for a reference that leads to an entry. -/
def resolvedText (resolution : Resolution) : String :=
  let entry := resolution.entry
  line s!"{resolution.fullReference} -> {entry.url}:{entry.location.line}"

/-- The lines for a reference that leads nowhere. -/
def unresolvedText (error : ResolveError) : String :=
  let candidates := match error with
    | .ambiguous _ candidates => candidates
    | _ => []
  line error.message ++ String.join (candidates.map fun candidate => line ("  " ++ candidate))

def resolveAll (files : FileReader) : Session → List String → Report
  | _, [] => .done
  | session, reference :: rest =>
    match session.resolution files reference with
    | (.ok resolution, session) =>
      .after (resolvedText resolution) .success (resolveAll files session rest)
    | (.error (.session error), _) => ⟨"", .error error⟩
    | (.error error, session) =>
      .after (unresolvedText error) .failure (resolveAll files session rest)

/-- The report about an index document. -/
def reportOn (files : FileReader) (index : String) (text : Database → String) : Report :=
  match Database.load files index with
  | .ok database => ⟨text database, .ok .success⟩
  | .error error => ⟨"", .error (.index error)⟩

def run (files : FileReader) : Command → Report
  | check index =>
    reportOn files index fun database => line s!"{index}: {database.size} entries"
  | entries index =>
    reportOn files index fun database =>
      String.join (database.entries.map fun entry => line entry.display)
  | resolve directory references => resolveAll files (.configured directory) references

end Command

end SymbolIndex
