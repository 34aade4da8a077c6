import Mathlib
import SymbolIndex.Proofs.Bind
import SymbolIndex.Session

/-!
# Runs of a session

A session is asked one thing after another, and the files may be different each time.  The
directory of a session is the last one that was chosen, until the index in it is loaded;
then both stay, whatever is chosen and whatever becomes of the files, until a reset.

There are two kinds of step.  A session with an index stays as it is, or a reset ends it
(`perform_loaded`).  A session without one takes the directory that the request chooses,
and may load the index there (`perform_of_not_isLoaded`).  What is to be known of a run
follows from these by induction on its steps, the last one split off.

* `run_spec`: where the index of a session comes from and what it is used for, which
  directory a session has without one, and that a refusal changes nothing.
* `exists_loadedBy`, `directory?_run`: the two halves of it that are shown by induction.
-/

namespace SymbolIndex

/-- An error that comes before any search in the index. -/
def ResolveError.IsRefusal : ResolveError → Prop
  | malformed .. => True
  | session _ => True
  | _ => False

namespace Session

/-! ### Requests -/

/-- What a session can be asked. -/
inductive Request where
  | configure (directory : String)
  | reset
  | database
  | resolve (reference : String)
  | indexFile
  | modulesDirectory
  | documentationFile (entry : Entry)

/-- What a session answers when it does what it is asked. -/
inductive Answer where
  | done
  | database (database : Database)
  | entry (entry : Entry)
  | path (path : String)

/-- The answer that a result gives, or the reason why there is none. -/
def answerOf {α : Type} (answer : α → Answer) (result : Except SessionError α) :
    Except ResolveError Answer :=
  (result.map answer).mapError .session

/-- The answer to a request and the session after it. -/
def perform (files : FileReader) (session : Session) :
    Request → Except ResolveError Answer × Session
  | .configure directory => (session.configure directory).map (answerOf fun _ => .done) id
  | .reset => (.ok .done, session.reset)
  | .database => (session.load files).map (answerOf .database) id
  | .resolve reference => (session.resolve files reference).map (·.map .entry) id
  | .indexFile => (answerOf .path session.indexFile, session)
  | .modulesDirectory => (answerOf .path session.modulesDirectory, session)
  | .documentationFile entry => (answerOf .path (session.documentationFile entry), session)

/-- The directory that is chosen after a request, from the one that was chosen before. -/
def Request.choose (directory? : Option String) : Request → Option String
  | configure directory => some directory
  | reset => none
  | _ => directory?

/-- A request that needs the index.  A reference that cannot be read does not. -/
inductive Request.Needs : Request → Prop
  | database : Needs database
  | resolve {reference : String} {name : PartialName}
      (h : PartialName.parse reference = .ok name) : Needs (resolve reference)

/-- The index in a directory, as the files are, is that database. -/
def HasIndex (files : FileReader) (directory : String) (database : Database) : Prop :=
  ∃ source, files (Path.push directory indexName) = .ok source ∧
    Database.parse source = .ok database

/-! ### One step -/

section Step

variable {files : FileReader} {session : Session} {directory : String} {database : Database}

theorem load_configured_iff {after : Session} :
    (configured directory).load files = (.ok database, after) ↔
      HasIndex files directory database ∧ after = loaded directory database := by
  rw [load, HasIndex, ← Database.load_eq_ok_iff]
  cases Database.load files (Path.push directory indexName) with
  | error error => simp
  | ok found =>
    simp only [Prod.mk.injEq, Except.ok.injEq]
    constructor
    · rintro ⟨rfl, rfl⟩
      exact ⟨rfl, rfl⟩
    · rintro ⟨rfl, rfl⟩
      exact ⟨rfl, rfl⟩

/-- A request that needs the index does no more to a session than load it. -/
theorem perform_of_needs {request : Request} (h : request.Needs) :
    (session.perform files request).2 = (session.load files).2 := by
  cases h with
  | database => rfl
  | resolve hparse =>
    rw [perform, resolve, hparse]
    rcases session.load files with ⟨_ | _, after⟩ <;> rfl

/-- Loading keeps a session without an index, or puts in the index of its directory. -/
theorem load_of_not_isLoaded (h : session.isLoaded = false) (files : FileReader) :
    (session.load files).2.directory? = session.directory? ∧
      ∀ directory database, (session.load files).2 = loaded directory database →
        session = configured directory ∧ HasIndex files directory database := by
  rcases load_cases files session with ⟨current, found, hload⟩ | ⟨error, hload⟩
  · cases session with
    | unconfigured => cases hload
    | loaded directory database => cases h
    | configured directory =>
      obtain ⟨hindex, ⟨⟩⟩ := load_configured_iff.mp hload
      rw [hload]
      refine ⟨rfl, ?_⟩
      rintro _ _ ⟨⟩
      exact ⟨rfl, hindex⟩
  · rw [hload]
    refine ⟨rfl, ?_⟩
    rintro directory database rfl
    cases h

/-- A session with an index stays as it is until a reset. -/
theorem perform_loaded (files : FileReader) {request : Request} (h : request ≠ .reset) :
    ((loaded directory database).perform files request).2 = loaded directory database := by
  cases request with
  | reset => exact absurd rfl h
  | configure requested =>
    rw [perform, configure_loaded]
    rfl
  | resolve reference =>
    cases hparse : PartialName.parse reference with
    | error error =>
      rw [perform, resolve_of_malformed hparse]
      rfl
    | ok name =>
      rw [perform_of_needs (.resolve hparse)]
      rfl
  | database => rfl
  | indexFile => rfl
  | modulesDirectory => rfl
  | documentationFile entry => rfl

/-- A session without an index takes the directory that is chosen.  It has an index after the
request only if that loads the index of the directory which the session had before. -/
theorem perform_of_not_isLoaded (h : session.isLoaded = false) (files : FileReader)
    (request : Request) :
    (session.perform files request).2.directory? = request.choose session.directory? ∧
      ∀ directory database, (session.perform files request).2 = loaded directory database →
        session = configured directory ∧ request.Needs ∧ HasIndex files directory database := by
  have hkeep : ∀ directory database, session ≠ loaded directory database := by
    rintro directory database rfl
    cases h
  obtain ⟨hdirectory, hloaded⟩ := load_of_not_isLoaded h files
  cases request with
  | configure requested =>
    rw [perform, configure_of_not_isLoaded requested h]
    exact ⟨rfl, fun _ _ heq => nomatch heq⟩
  | reset => exact ⟨rfl, fun _ _ heq => nomatch heq⟩
  | database =>
    rw [perform_of_needs .database]
    refine ⟨hdirectory, fun directory database heq => ?_⟩
    obtain ⟨hsession, hindex⟩ := hloaded directory database heq
    exact ⟨hsession, .database, hindex⟩
  | resolve reference =>
    cases hparse : PartialName.parse reference with
    | error error =>
      rw [perform, resolve_of_malformed hparse]
      exact ⟨rfl, fun _ _ heq => absurd heq (hkeep _ _)⟩
    | ok name =>
      rw [perform_of_needs (.resolve hparse)]
      refine ⟨hdirectory, fun directory database heq => ?_⟩
      obtain ⟨hsession, hindex⟩ := hloaded directory database heq
      exact ⟨hsession, .resolve hparse, hindex⟩
  | indexFile => exact ⟨rfl, fun _ _ heq => absurd heq (hkeep _ _)⟩
  | modulesDirectory => exact ⟨rfl, fun _ _ heq => absurd heq (hkeep _ _)⟩
  | documentationFile entry => exact ⟨rfl, fun _ _ heq => absurd heq (hkeep _ _)⟩

theorem answerOf_eq_error {α : Type} {answer : α → Answer} {result : Except SessionError α}
    {error : ResolveError} (h : answerOf answer result = .error error) :
    ∃ reason, result = .error reason := by
  cases result with
  | error reason => exact ⟨reason, rfl⟩
  | ok value => cases h

/-- **A request that is refused changes nothing.**  A directory that is not accepted and an index
that cannot be loaded leave the session as it is, and a reference that cannot be read does not
touch it. -/
theorem perform_of_refusal {request : Request} {error : ResolveError}
    (h : (session.perform files request).1 = .error error) (hrefusal : error.IsRefusal) :
    (session.perform files request).2 = session := by
  cases request with
  | configure requested =>
    obtain ⟨reason, hreason⟩ := answerOf_eq_error h
    exact snd_configure_of_error hreason
  | reset => cases h
  | database =>
    rw [perform_of_needs .database]
    rcases load_cases files session with ⟨directory, database, hload⟩ | ⟨reason, hload⟩
    · rw [perform, hload] at h
      cases h
    · rw [hload]
  | resolve reference =>
    cases hparse : PartialName.parse reference with
    | error error =>
      rw [perform, resolve_of_malformed hparse]
      rfl
    | ok name =>
      rw [perform_of_needs (.resolve hparse)]
      rcases load_cases files session with ⟨directory, database, hload⟩ | ⟨reason, hload⟩
      · -- A search that fails gives an error of another kind.
        rw [perform, resolve, hparse, hload] at h
        dsimp only [Prod.map, resolveIn] at h
        split at h
        · cases h
        · cases h
          exact hrefusal.elim
        · cases h
          exact hrefusal.elim
      · rw [hload]
  | indexFile => rfl
  | modulesDirectory => rfl
  | documentationFile entry => rfl

end Step

/-! ### Runs -/

/-- A request, and the files as they are when it is made. -/
structure Step where
  files : FileReader
  request : Request

/-- The session after a run of steps. -/
def run (session : Session) (steps : List Step) : Session :=
  steps.foldl (fun session step => (session.perform step.files step.request).2) session

/-- The directory that was chosen last, if none was reset since. -/
def chosen (start : Option String) (steps : List Step) : Option String :=
  steps.foldl (fun directory? step => step.request.choose directory?) start

theorem run_concat (session : Session) (steps : List Step) (step : Step) :
    session.run (steps ++ [step]) = ((session.run steps).perform step.files step.request).2 :=
  List.foldl_append

theorem chosen_concat (start : Option String) (steps : List Step) (step : Step) :
    chosen start (steps ++ [step]) = step.request.choose (chosen start steps) :=
  List.foldl_append

theorem run_loaded {directory : String} {database : Database} {steps : List Step}
    (h : ∀ step ∈ steps, step.request ≠ .reset) :
    (loaded directory database).run steps = loaded directory database := by
  induction steps with
  | nil => rfl
  | cons step steps ih =>
    show run ((loaded directory database).perform step.files step.request).2 steps = _
    rw [perform_loaded step.files (h step List.mem_cons_self),
      ih fun s hs => h s (List.mem_cons_of_mem step hs)]

/-- The database is the index that the directory held at a step of the run.  The directory was
the one chosen at that time, and there was no reset since. -/
structure LoadedBy (start : Option String) (before : List Step) (step : Step) (later : List Step)
    (directory : String) (database : Database) : Prop where
  before_eq : (ofDirectory? start).run before = configured directory
  chosen_eq : chosen start before = some directory
  needs : step.request.Needs
  has_index : HasIndex step.files directory database
  no_reset : ∀ step ∈ later, step.request ≠ .reset

theorem exists_eq_loaded {session : Session} (h : session.isLoaded = true) :
    ∃ directory database, session = loaded directory database := by
  cases session with
  | unconfigured => cases h
  | configured directory => cases h
  | loaded directory database => exact ⟨directory, database, rfl⟩

/-- Without an index, the directory is the one that was chosen. -/
theorem directory?_run {start : Option String} {steps : List Step}
    (h : ((ofDirectory? start).run steps).isLoaded = false) :
    ((ofDirectory? start).run steps).directory? = chosen start steps := by
  induction steps using List.reverseRecOn with
  | nil => cases start <;> rfl
  | append_singleton steps step ih =>
    rw [run_concat] at h ⊢
    rw [chosen_concat]
    cases hbefore : ((ofDirectory? start).run steps).isLoaded with
    | false => rw [(perform_of_not_isLoaded hbefore step.files step.request).1, ih hbefore]
    | true =>
      obtain ⟨directory, database, heq⟩ := exists_eq_loaded hbefore
      by_cases hreset : step.request = .reset
      · rw [hreset]
        rfl
      · rw [heq, perform_loaded step.files hreset] at h
        cases h

/-- **A session with an index loaded it at one step of its run**, and has kept it since. -/
theorem exists_loadedBy {start : Option String} {steps : List Step} {directory : String}
    {database : Database} (h : (ofDirectory? start).run steps = loaded directory database) :
    ∃ before step later, steps = before ++ step :: later ∧
      LoadedBy start before step later directory database := by
  induction steps using List.reverseRecOn with
  | nil => cases start <;> cases h
  | append_singleton steps step ih =>
    rw [run_concat] at h
    cases hbefore : ((ofDirectory? start).run steps).isLoaded with
    | false =>
      obtain ⟨heq, hneeds, hindex⟩ :=
        (perform_of_not_isLoaded hbefore step.files step.request).2 directory database h
      have hchosen := directory?_run hbefore
      rw [heq] at hchosen
      exact ⟨steps, step, [], rfl, heq, hchosen.symm, hneeds, hindex, fun _ hs => nomatch hs⟩
    | true =>
      obtain ⟨directory', database', heq⟩ := exists_eq_loaded hbefore
      by_cases hreset : step.request = .reset
      · rw [hreset] at h
        cases h
      · rw [heq, perform_loaded step.files hreset] at h
        rw [h] at heq
        obtain ⟨before, first, later, rfl, hloaded⟩ := ih heq
        refine ⟨before, first, later ++ [step], by simp, { hloaded with no_reset := ?_ }⟩
        intro s hs
        rcases List.mem_append.mp hs with hs | hs
        · exact hloaded.no_reset s hs
        · rw [List.mem_singleton.mp hs]
          exact hreset

/-- What a session does with an index, whatever the files are. -/
structure Serves (session : Session) (directory : String) (database : Database) : Prop where
  directory_eq : session.directory? = some directory
  configure_eq : ∀ requested, session.configure requested =
    (if Path.same directory requested then .ok () else .error (.reconfigured directory requested),
      session)
  load_eq : ∀ files, session.load files = (.ok database, session)
  resolve_eq : ∀ files reference name, PartialName.parse reference = .ok name →
    session.resolve files reference = (resolveIn database reference name, session)
  run_eq : ∀ steps : List Step, (∀ step ∈ steps, step.request ≠ .reset) →
    session.run steps = session

theorem serves_loaded (directory : String) (database : Database) :
    (loaded directory database).Serves directory database where
  directory_eq := rfl
  configure_eq := fun _ => configure_loaded
  load_eq := fun _ => rfl
  resolve_eq := fun files reference name h => by
    rw [resolve, h]
    rfl
  run_eq := fun _ h => run_loaded h

/-- **A session loads its index once and never mixes directories.**  With an index, it serves the
one that the chosen directory held at the step which loaded it.  Without one, it has the directory
that was chosen last, and accepts any other.  A refusal changes nothing, so a directory whose index
could not be loaded is tried again. -/
theorem run_spec (start : Option String) (steps : List Step) :
    let session := (ofDirectory? start).run steps
    (session.isLoaded = true → ∃ directory database, session.Serves directory database ∧
      ∃ before step later, steps = before ++ step :: later ∧
        LoadedBy start before step later directory database) ∧
    (session.isLoaded = false → session.directory? = chosen start steps ∧
      ∀ requested, session.configure requested = (.ok (), configured requested)) ∧
    (∀ files request error, (session.perform files request).1 = .error error → error.IsRefusal →
      (session.perform files request).2 = session) ∧
    (∀ files error, (session.load files).1 = .error error → (session.load files).2 = session ∧
      ∀ later directory database, session.directory? = some directory →
        HasIndex later directory database →
          session.load later = (.ok database, loaded directory database)) := by
  intro session
  refine ⟨fun h => ?_, fun h => ?_, fun files request error => perform_of_refusal, ?_⟩
  · obtain ⟨directory, database, heq⟩ := exists_eq_loaded h
    refine ⟨directory, database, ?_, exists_loadedBy heq⟩
    rw [heq]
    exact serves_loaded directory database
  · exact ⟨directory?_run h, fun requested => configure_of_not_isLoaded requested h⟩
  · intro files error herror
    rcases load_cases files session with ⟨current, found, hload⟩ | ⟨reason, hload⟩
    · rw [hload] at herror
      cases herror
    refine ⟨congrArg Prod.snd hload, fun later directory database hdirectory hindex => ?_⟩
    cases hsession : session with
    | unconfigured =>
      rw [hsession] at hdirectory
      cases hdirectory
    | loaded =>
      rw [hsession] at hload
      cases hload
    | configured current =>
      rw [hsession] at hdirectory
      obtain rfl : current = directory := Option.some.inj hdirectory
      exact load_configured_iff.mpr ⟨hindex, rfl⟩

/-- No file can be read. -/
def noFiles : FileReader := fun _ => .error .notFound

/-- An index with a single entry. -/
def oneEntry : String := "r#p\n\tq#f\n\t\tk\n\t\t\tM.x\n\t\t\t\te::1::2::3\n"

/-- A directory is chosen before its index is there: loading fails at first, then the index is
loaded and stays, though another directory is asked for and the file is gone. -/
def lateIndex : List Step :=
  [⟨noFiles, .configure "gen"⟩, ⟨noFiles, .database⟩, ⟨fun _ => .ok oneEntry, .database⟩,
    ⟨noFiles, .configure "other"⟩, ⟨noFiles, .resolve "e"⟩]

theorem run_spec_lateIndex :
    (ofDirectory? none).run (lateIndex.take 2) = configured "gen" ∧
    ∃ directory database, ((ofDirectory? none).run lateIndex).Serves directory database ∧
      ∃ before step later, lateIndex = before ++ step :: later ∧
        LoadedBy none before step later directory database := by
  have hfront : (ofDirectory? none).run (lateIndex.take 2) = configured "gen" := rfl
  have hsize : (Database.parse oneEntry).map Database.size = .ok 1 := by cbv
  obtain ⟨database, hparse, _⟩ := map_eq_ok_iff.mp hsize
  have hload : (configured "gen").load (fun _ => .ok oneEntry) =
      (.ok database, loaded "gen" database) :=
    load_configured_iff.mpr ⟨⟨oneEntry, rfl, hparse⟩, rfl⟩
  have hrun : (ofDirectory? none).run lateIndex = loaded "gen" database := by
    calc (ofDirectory? none).run lateIndex
        = ((configured "gen").perform (fun _ => .ok oneEntry) .database).2.run
            (lateIndex.drop 3) := rfl
      _ = (loaded "gen" database).run (lateIndex.drop 3) := by
            rw [perform_of_needs .database, hload]
      _ = loaded "gen" database := run_loaded (by simp [lateIndex])
  exact ⟨hfront, (run_spec none lateIndex).1 (by rw [hrun]; rfl)⟩

end Session

end SymbolIndex
