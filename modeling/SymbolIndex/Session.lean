import SymbolIndex.IndexFile

/-!
# Sessions

A session resolves references against the index in one directory of generated
documentation.  The index is loaded when it is first needed, and from then on the
directory stays, until the session is reset.

What a session is asked gives a result and the session after it, whether it can be
done or not.

* `configure_of_not_isLoaded`, `configure_loaded`: when the directory can change.
* `snd_configure_of_error`, `load_cases`: a session that fails stays as it is.
* `resolve_of_malformed`: a reference that cannot be read never loads the index.
-/

namespace SymbolIndex

inductive Session where
  | unconfigured
  /-- A directory, whose index is not loaded. -/
  | configured (directory : String)
  | loaded (directory : String) (database : Database)

/-- Why a session does not do what it is asked. -/
inductive SessionError where
  | notConfigured
  | reconfigured (current requested : String)
  | index (error : LoadError)
  deriving DecidableEq, Repr

def SessionError.message : SessionError → String
  | notConfigured => "no generated documentation directory configured"
  | reconfigured current requested =>
    s!"generated documentation directory already in use: {current}, cannot switch to {requested}"
  | index error => error.message

/-- Why a reference does not lead to an entry. -/
inductive ResolveError where
  | malformed (reference : String) (error : ParseError)
  /-- More than one entry fits; their full names are given as references. -/
  | ambiguous (reference : String) (candidates : List String)
  | notFound (reference : String)
  | session (error : SessionError)
  deriving DecidableEq, Repr

namespace ResolveError

def message : ResolveError → String
  | malformed reference _ => s!"PQN could not be parsed: '{reference}'."
  | ambiguous reference _ => s!"PQN is ambiguous: '{reference}'."
  | notFound reference => s!"PQN not found: '{reference}'."
  | session error => error.message

/-- The words put into a document in place of the reference. -/
def inlineMessage : ResolveError → String
  | malformed .. => "PQN malformed"
  | ambiguous .. => "Ambiguous PQN"
  | notFound _ => "PQN not found"
  | session _ => "Source index unavailable"

end ResolveError

/-- What a session tells of a reference that leads to one entry. -/
structure Resolution where
  entry : Entry
  /-- The full name of the entry, as a reference. -/
  fullReference : String
  deriving DecidableEq, Repr

def Resolution.ofEntry (entry : Entry) : Resolution := ⟨entry, entry.reference⟩

namespace Session

/-- The name of the index in a directory of generated documentation. -/
def indexName : String := "index.idx"

/-- The name of the directory of the files that document modules. -/
def modulesName : String := "modules"

def directory? : Session → Option String
  | unconfigured => none
  | configured directory => some directory
  | loaded directory _ => some directory

def isLoaded : Session → Bool
  | loaded .. => true
  | _ => false

/-- A session for a directory, if one is given. -/
def ofDirectory? : Option String → Session
  | none => unconfigured
  | some directory => configured directory

/-- Chooses the directory.  With a loaded index only the same directory is accepted, and the
session stays as it is. -/
def configure (session : Session) (requested : String) : Except SessionError Unit × Session :=
  match session with
  | loaded current database =>
    if Path.same current requested then (.ok (), loaded current database)
    else (.error (.reconfigured current requested), loaded current database)
  | _ => (.ok (), configured requested)

def reset (_ : Session) : Session := unconfigured

/-- The directory of the session, which has to have one. -/
def requireDirectory (session : Session) : Except SessionError String :=
  match session.directory? with
  | some directory => .ok directory
  | none => .error .notConfigured

def indexFile (session : Session) : Except SessionError String := do
  return Path.push (← session.requireDirectory) indexName

/-- The path of the directory of the files that document modules. -/
def modulesDirectory (session : Session) : Except SessionError String := do
  return Path.push (← session.requireDirectory) modulesName

/-- The path of the file that documents the module of an entry. -/
def documentationFile (session : Session) (entry : Entry) : Except SessionError String := do
  return Path.push (← session.modulesDirectory) entry.documentationPath

/-- The index, which is loaded if it is not yet, and the session after it was asked for. -/
def load (files : FileReader) (session : Session) : Except SessionError Database × Session :=
  match session with
  | loaded directory database => (.ok database, loaded directory database)
  | unconfigured => (.error .notConfigured, unconfigured)
  | configured directory =>
    match Database.load files (Path.push directory indexName) with
    | .ok database => (.ok database, loaded directory database)
    | .error error => (.error (.index error), configured directory)

/-- The entry that a name refers to in a database. -/
def resolveIn (database : Database) (reference : String) (name : PartialName) :
    Except ResolveError Entry :=
  match database.lookup name with
  | .ok record => .ok record.entry
  | .error .absent => .error (.notFound reference)
  | .error .ambiguous =>
    .error (.ambiguous reference ((database.candidates name).map (·.entry.reference)))

/-- The entry that a reference leads to, and the session after it was asked. -/
def resolve (files : FileReader) (session : Session) (reference : String) :
    Except ResolveError Entry × Session :=
  match PartialName.parse reference with
  | .error error => (.error (.malformed reference error), session)
  | .ok name =>
    match session.load files with
    | (.error error, session) => (.error (.session error), session)
    | (.ok database, session) => (resolveIn database reference name, session)

/-- What the session tells of a reference, and the session after it was asked. -/
def resolution (files : FileReader) (session : Session) (reference : String) :
    Except ResolveError Resolution × Session :=
  (session.resolve files reference).map (·.map .ofEntry) id

theorem configure_of_not_isLoaded {session : Session} (requested : String)
    (h : session.isLoaded = false) :
    session.configure requested = (.ok (), configured requested) := by
  cases session <;> simp_all [configure, isLoaded]

theorem configure_loaded {current requested : String} {database : Database} :
    (loaded current database).configure requested =
      (if Path.same current requested then .ok () else .error (.reconfigured current requested),
        loaded current database) := by
  rw [configure]
  split <;> rfl

/-- A directory that is not accepted leaves the session as it is. -/
theorem snd_configure_of_error {session : Session} {requested : String} {error : SessionError}
    (h : (session.configure requested).1 = .error error) :
    (session.configure requested).2 = session := by
  cases session with
  | loaded current database => rw [configure_loaded]
  | unconfigured => cases h
  | configured directory => cases h

/-- A session gives its index and has it from then on, or it fails and stays as it is. -/
theorem load_cases (files : FileReader) (session : Session) :
    (∃ directory database, session.load files = (.ok database, loaded directory database)) ∨
      ∃ error, session.load files = (.error error, session) := by
  cases session with
  | loaded directory database => exact .inl ⟨directory, database, rfl⟩
  | unconfigured => exact .inr ⟨.notConfigured, rfl⟩
  | configured directory =>
    rw [load]
    split
    · rename_i database _
      exact .inl ⟨directory, database, rfl⟩
    · rename_i error _
      exact .inr ⟨.index error, rfl⟩

/-- A reference that cannot be read never loads the index. -/
theorem resolve_of_malformed {files : FileReader} {session : Session} {reference : String}
    {error : ParseError} (h : PartialName.parse reference = .error error) :
    session.resolve files reference = (.error (.malformed reference error), session) := by
  simp [resolve, h]

end Session

end SymbolIndex
