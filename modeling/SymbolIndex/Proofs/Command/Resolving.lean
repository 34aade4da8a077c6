import Mathlib
import SymbolIndex.Proofs.Session.Resolution
import SymbolIndex.Command

/-!
# Many references in one command

A command that resolves many references reports what it would report on each of them alone.  Its
session may have loaded the index for an earlier reference, where a session of its own would load it
for this one; but as long as the files stay as they are, both have the same index (`load_isFor`), so
they answer alike.

Reports are put behind one another by `andThen`, where nothing comes behind an error.  So the report
on two lists of references is that on the first and then that on the second.

* `resolveAll_append`: the report on two lists.
* `resolveAll_of_malformed`: references that cannot be read are reported without the index.
* `resolve_append`: the same for the command, told by outputs and endings.
-/

namespace SymbolIndex

/-! ### Reports behind one another -/

namespace Outcome

theorem and_assoc (a b c : Outcome) : (a.and b).and c = a.and (b.and c) := by
  cases a <;> rfl

theorem and_eq_failure_iff {a b : Outcome} : a.and b = failure ↔ a = failure ∨ b = failure := by
  cases a <;> simp [Outcome.and]

end Outcome

namespace Report

/-- The second report behind the first, unless that ends with an error. -/
def andThen (first second : Report) : Report :=
  match first.ending with
  | .ok outcome => .after first.output outcome second
  | .error _ => first

variable {first second : Report}

theorem andThen_of_ok {outcome : Outcome} (h : first.ending = .ok outcome) :
    first.andThen second = .after first.output outcome second := by
  rw [andThen, h]

theorem andThen_of_error {error : SessionError} (h : first.ending = .error error) :
    first.andThen second = first := by
  rw [andThen, h]

theorem done_andThen (report : Report) : done.andThen report = report := by
  obtain ⟨output, ending⟩ := report
  cases ending <;> simp [andThen, done, after, Except.map, Outcome.and]

theorem andThen_assoc (first second third : Report) :
    (first.andThen second).andThen third = first.andThen (second.andThen third) := by
  obtain ⟨text, _ | outcome⟩ := first
  · rfl
  · obtain ⟨text', _ | outcome'⟩ := second
    · rfl
    · obtain ⟨text'', _ | outcome''⟩ := third <;>
        simp [andThen, after, Except.map, String.append_assoc, Outcome.and_assoc]

end Report

/-! ### One index for all references -/

namespace Session

/-- A session for a directory: without an index, or with the one that the directory has. -/
inductive IsFor (files : FileReader) (directory : String) : Session → Prop
  | configured : IsFor files directory (configured directory)
  | loaded {database : Database} (h : HasIndex files directory database) :
      IsFor files directory (loaded directory database)

variable {files : FileReader} {directory : String} {session after : Session}

/-- The index that a session has is the one that it would load. -/
theorem load_isFor (h : IsFor files directory session) :
    session.load files = (configured directory).load files := by
  cases h with
  | configured => rfl
  | loaded hindex => exact (load_configured_iff.mpr ⟨hindex, rfl⟩).symm

theorem IsFor.of_load {database : Database}
    (h : (Session.configured directory).load files = (.ok database, after)) :
    IsFor files directory after := by
  obtain ⟨hindex, rfl⟩ := load_configured_iff.mp h
  exact .loaded hindex

/-- **A session answers as a new one for its directory does**, and stays one for that directory. -/
theorem resolution_isFor (h : IsFor files directory session) (reference : String) :
    (session.resolution files reference).1 =
        ((Session.configured directory).resolution files reference).1 ∧
      IsFor files directory (session.resolution files reference).2 := by
  cases hname : PartialName.parse reference with
  | error error =>
    rw [resolution_of_malformed hname, resolution_of_malformed hname]
    exact ⟨rfl, h⟩
  | ok name =>
    have hload := load_isFor h
    rcases load_cases files (.configured directory) with ⟨_, _, hnew⟩ | ⟨error, hnew⟩
    · rw [hnew] at hload
      rw [resolution, resolution, resolve_of_parse hname hload, resolve_of_parse hname hnew]
      exact ⟨rfl, .of_load hnew⟩
    · rw [hnew] at hload
      rw [resolution_of_load_error hname hload, resolution_of_load_error hname hnew]
      exact ⟨rfl, .configured⟩

end Session

/-! ### Reports on references -/

namespace Command

open Session

variable {files : FileReader} {directory : String} {session : Session}

/-- The report on a single reference, from what the session tells of it. -/
def reportOf : Except ResolveError Resolution → Report
  | .ok resolution => ⟨resolvedText resolution, .ok .success⟩
  | .error (.session error) => ⟨"", .error error⟩
  | .error error => ⟨unresolvedText error, .ok .failure⟩

/-- **The references are reported on one by one.** -/
theorem resolveAll_cons (files : FileReader) (session : Session) (reference : String)
    (rest : List String) :
    resolveAll files session (reference :: rest) =
      (reportOf (session.resolution files reference).1).andThen
        (resolveAll files (session.resolution files reference).2 rest) := by
  rw [resolveAll]
  rcases session.resolution files reference with ⟨error | resolution, after⟩
  · cases error <;> rfl
  · rfl

/-- The report does not depend on which references came before. -/
theorem resolveAll_isFor (h : IsFor files directory session) (references : List String) :
    resolveAll files session references = resolveAll files (configured directory) references := by
  induction references generalizing session with
  | nil => rfl
  | cons reference rest ih =>
    obtain ⟨hanswer, hafter⟩ := resolution_isFor h reference
    obtain ⟨_, hnew⟩ := resolution_isFor (@IsFor.configured files directory) reference
    rw [resolveAll_cons, resolveAll_cons, hanswer, ih hafter, ih hnew]

/-- **The report on two lists of references** is that on the first and then that on the second. -/
theorem resolveAll_append (h : IsFor files directory session) (first second : List String) :
    resolveAll files session (first ++ second) =
      (resolveAll files session first).andThen
        (resolveAll files (configured directory) second) := by
  induction first generalizing session with
  | nil =>
    rw [List.nil_append, resolveAll_isFor h]
    exact (Report.done_andThen _).symm
  | cons reference rest ih =>
    obtain ⟨_, hafter⟩ := resolution_isFor h reference
    rw [List.cons_append, resolveAll_cons, resolveAll_cons, ih hafter, Report.andThen_assoc]

/-- **References that cannot be read are reported without the index**: neither the files nor the
session matter. -/
theorem resolveAll_of_malformed {references : List String}
    (h : ∀ reference ∈ references, ∃ error, PartialName.parse reference = .error error) :
    ∃ report : Report, (∃ outcome, report.ending = .ok outcome) ∧
      ∀ files session, resolveAll files session references = report := by
  induction references with
  | nil => exact ⟨.done, ⟨.success, rfl⟩, fun _ _ => rfl⟩
  | cons reference rest ih =>
    obtain ⟨⟨error, herror⟩, hrest⟩ := List.forall_mem_cons.mp h
    obtain ⟨report, ⟨outcome, hending⟩, hreport⟩ := ih hrest
    refine ⟨(reportOf (.error (.malformed reference error))).andThen report, ⟨.failure, ?_⟩,
      fun files session => ?_⟩
    · rw [Report.andThen_of_ok rfl, Report.after, hending]
      rfl
    · rw [resolveAll_cons, resolution_of_malformed herror, hreport]

/-- **Resolving references in a batch is resolving them one by one.**  If the command on the first
references ends with an outcome, then the command on all of them writes what it writes on the first
and then what it writes on the second, ends with an error if it does so on the second, and with a
failure exactly if there is one among either.  If it ends with an error on the first, then nothing
comes behind that.  References that cannot be read do not need the index, so no files matter. -/
theorem resolve_append (files : FileReader) (directory : String) (first second : List String) :
    let report := fun references => run files (.resolve directory references)
    (∀ outcome, (report first).ending = .ok outcome →
      (report (first ++ second)).output = (report first).output ++ (report second).output ∧
      (∀ error, (report (first ++ second)).ending = .error error ↔
        (report second).ending = .error error) ∧
      ∀ other, (report second).ending = .ok other →
        ∃ joint, (report (first ++ second)).ending = .ok joint ∧
          (joint = .failure ↔ outcome = .failure ∨ other = .failure)) ∧
    (∀ error, (report first).ending = .error error → report (first ++ second) = report first) ∧
    ((∀ reference ∈ first, ∃ error, PartialName.parse reference = .error error) →
      (∃ outcome, (report first).ending = .ok outcome) ∧
        ∀ other, run other (.resolve directory first) = report first) := by
  intro report
  have happend : report (first ++ second) = (report first).andThen (report second) :=
    resolveAll_append .configured first second
  refine ⟨fun outcome houtcome => ?_, fun error herror => ?_, fun hmalformed => ?_⟩
  · rw [happend, Report.andThen_of_ok houtcome]
    refine ⟨rfl, fun error => map_eq_error_iff, fun other hother => ⟨outcome.and other, ?_, ?_⟩⟩
    · rw [Report.after, hother]
      rfl
    · exact Outcome.and_eq_failure_iff
  · rw [happend, Report.andThen_of_error herror]
  · obtain ⟨fixed, hending, hfixed⟩ := resolveAll_of_malformed hmalformed
    have hreport : report first = fixed := hfixed files (configured directory)
    rw [hreport]
    exact ⟨hending, fun other => hfixed other (configured directory)⟩

/-- References to an index with two entries: one that cannot be read, one that fits both entries,
and one that fits a single entry.  Without the index, nothing is told of the last two. -/
theorem resolve_append_twoPaths :
    (run (fun _ => .ok twoPaths) (.resolve "gen" ["a:\"b", "get"])).ending = .ok .failure ∧
    (run (fun _ => .ok twoPaths) (.resolve "gen" ["List#get"])).ending = .ok .success ∧
    (run (fun _ => .ok twoPaths) (.resolve "gen" ["a:\"b", "get", "List#get"])).ending =
      .ok .failure ∧
    (∀ files, run files (.resolve "gen" ["a:\"b"]) = run noFiles (.resolve "gen" ["a:\"b"])) ∧
    ∃ error, (run noFiles (.resolve "gen" ["a:\"b", "get"])).ending = .error error ∧
      (run noFiles (.resolve "gen" ["a:\"b", "get", "List#get"])).ending = .error error := by
  obtain ⟨database, hparse, hentries, hload⟩ := exists_loaded_twoPaths
  have hs := (Database.Reachable.parse hparse).sound
  have hopen : PartialName.parse "a:\"b" = .error ⟨⟨2, 1, 3⟩, .unterminatedName⟩ := by cbv
  have hget : PartialName.parse "get" = .ok ⟨["get"]⟩ := by cbv
  have hlist : PartialName.parse "List#get" = .ok ⟨["get", "#", "List"]⟩ := by cbv
  have hboth : fitting database ⟨["get"]⟩ = [getEntry "a/b" "List" 1, getEntry "c" "Map" 4] := by
    rw [fitting, hentries]
    decide +kernel
  have hone : fitting database ⟨["get", "#", "List"]⟩ = [getEntry "a/b" "List" 1] := by
    rw [fitting, hentries]
    decide +kernel
  have hmissing : (configured "gen").load noFiles =
      (.error (.index (.unreadable (Path.push "gen" indexName) .notFound)), configured "gen") :=
    rfl
  have hfirst : (run (fun _ => .ok twoPaths) (.resolve "gen" ["a:\"b", "get"])).ending =
      .ok .failure := by
    rw [run, resolveAll_cons, resolution_of_malformed hopen, resolveAll_cons,
      resolution_of_load hs hget hload, hboth]
    rfl
  have hsecond : (run (fun _ => .ok twoPaths) (.resolve "gen" ["List#get"])).ending =
      .ok .success := by
    rw [run, resolveAll_cons, resolution_of_load hs hlist hload, hone]
    rfl
  have hbroken : (run noFiles (.resolve "gen" ["a:\"b", "get"])).ending =
      .error (.index (.unreadable (Path.push "gen" indexName) .notFound)) := by
    rw [run, resolveAll_cons, resolution_of_malformed hopen, resolveAll_cons,
      resolution_of_load_error hget hmissing]
    rfl
  obtain ⟨hindex, _⟩ := resolve_append (fun _ => .ok twoPaths) "gen" ["a:\"b", "get"] ["List#get"]
  obtain ⟨joint, hjoint, hfailure⟩ := (hindex _ hfirst).2.2 _ hsecond
  obtain ⟨_, herror, _⟩ := resolve_append noFiles "gen" ["a:\"b", "get"] ["List#get"]
  obtain ⟨_, _, hmalformed⟩ := resolve_append noFiles "gen" ["a:\"b"] []
  obtain ⟨_, hsame⟩ := hmalformed (List.forall_mem_singleton.mpr ⟨_, hopen⟩)
  refine ⟨hfirst, hsecond, ?_, hsame, _, hbroken, ?_⟩
  · rw [← hfailure.mpr (.inl rfl)]
    exact hjoint
  · exact (congrArg Report.ending (herror _ hbroken)).trans hbroken

end Command

end SymbolIndex
