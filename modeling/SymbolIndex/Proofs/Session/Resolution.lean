import SymbolIndex.Proofs.Session.Candidates

/-!
# What a session answers

Everything that can come of a reference, in the order in which it is decided.  A reference
that cannot be read is malformed, whatever the state of the session.  Then the index has
to be there, or to be loaded.  Then the entries that the reference fits are counted: none,
one, or more.

The database of a session comes from a document, at whatever step it was loaded.  So it is
searched as the list of its entries is.

* `resolution_spec`: the answers, for every session that there can be.
-/

namespace SymbolIndex.Session

/-! ### The three outcomes of a search -/

section Answer

variable {reference text : String} {found : List Entry}

theorem answer_eq_error_notFound_iff :
    answer reference found = .error (.notFound text) ↔ text = reference ∧ found = [] := by
  rcases found with _ | ⟨first, _ | ⟨second, rest⟩⟩ <;> simp [answer, eq_comm]

theorem answer_eq_error_ambiguous_iff {candidates : List String} :
    answer reference found = .error (.ambiguous text candidates) ↔
      text = reference ∧ 2 ≤ found.length ∧ candidates = found.map Entry.reference := by
  rcases found with _ | ⟨first, _ | ⟨second, rest⟩⟩ <;> simp [answer, eq_comm]

/-- A search blames neither the reference nor the session. -/
theorem answer_ne_refusal {error : ResolveError} (h : error.IsRefusal) :
    answer reference found ≠ .error error := by
  rcases found with _ | ⟨first, _ | ⟨second, rest⟩⟩ <;> rintro ⟨⟩ <;> exact h

theorem map_ofEntry_eq_ok_iff {result : Except ResolveError Entry} {entry : Entry}
    {fullReference : String} :
    result.map Resolution.ofEntry = .ok ⟨entry, fullReference⟩ ↔
      result = .ok entry ∧ fullReference = entry.reference := by
  rw [map_eq_ok_iff]
  constructor
  · rintro ⟨_, rfl, ⟨⟩⟩
    exact ⟨rfl, rfl⟩
  · rintro ⟨rfl, rfl⟩
    exact ⟨entry, rfl, rfl⟩

end Answer

/-! ### The three stages of an answer -/

section Stages

variable {files : FileReader} {session after : Session} {reference : String} {name : PartialName}
  {database : Database}

theorem resolution_of_malformed {error : ParseError}
    (h : PartialName.parse reference = .error error) :
    session.resolution files reference = (.error (.malformed reference error), session) := by
  rw [resolution, resolve_of_malformed h]
  rfl

theorem resolution_of_load_error {error : SessionError}
    (hname : PartialName.parse reference = .ok name)
    (hload : session.load files = (.error error, after)) :
    session.resolution files reference = (.error (.session error), after) := by
  rw [resolution, resolve, hname, hload]
  rfl

theorem resolution_of_load (hs : database.Sound) (hname : PartialName.parse reference = .ok name)
    (hload : session.load files = (.ok database, after)) :
    session.resolution files reference =
      ((answer reference (fitting database name)).map .ofEntry, after) := by
  rw [resolution, resolve_of_parse hname hload, resolveIn_eq_answer hs]
  rfl

/-- **The database of a session was read from a document.** -/
theorem exists_parse_of_load {start : Option String} {steps : List Step}
    (h : ((ofDirectory? start).run steps).load files = (.ok database, after)) :
    ∃ source, Database.parse source = .ok database := by
  cases hsession : (ofDirectory? start).run steps with
  | unconfigured =>
    rw [hsession] at h
    cases h
  | configured directory =>
    rw [hsession, load_configured_iff] at h
    obtain ⟨⟨source, _, hparse⟩, _⟩ := h
    exact ⟨source, hparse⟩
  | loaded directory current =>
    obtain ⟨_, _, _, _, hloaded⟩ := exists_loadedBy hsession
    obtain ⟨source, _, hparse⟩ := hloaded.has_index
    rw [hsession] at h
    cases h
    exact ⟨source, hparse⟩

/-- Only a reference that cannot be read is malformed. -/
theorem resolution_eq_malformed_iff {text : String} {error : ParseError}
    (hs : ∀ database after, session.load files = (.ok database, after) → database.Sound) :
    (session.resolution files reference).1 = .error (.malformed text error) ↔
      text = reference ∧ PartialName.parse reference = .error error := by
  cases hname : PartialName.parse reference with
  | error found =>
    rw [resolution_of_malformed hname]
    simp [eq_comm]
  | ok name =>
    simp only [reduceCtorEq, and_false, iff_false]
    rcases load_cases files session with ⟨_, _, hload⟩ | ⟨found, hload⟩
    · rw [resolution_of_load (hs _ _ hload) hname hload, map_eq_error_iff]
      exact answer_ne_refusal trivial
    · rw [resolution_of_load_error hname hload]
      simp

/-- Only a session without an index has an error of its own. -/
theorem resolution_eq_session_iff {error : SessionError}
    (hs : ∀ database after, session.load files = (.ok database, after) → database.Sound)
    (hname : PartialName.parse reference = .ok name) :
    (session.resolution files reference).1 = .error (.session error) ↔
      (session.load files).1 = .error error := by
  rcases load_cases files session with ⟨_, _, hload⟩ | ⟨found, hload⟩
  · rw [resolution_of_load (hs _ _ hload) hname hload, hload]
    simp only [reduceCtorEq, iff_false]
    rw [map_eq_error_iff]
    exact answer_ne_refusal trivial
  · rw [resolution_of_load_error hname hload, hload]
    simp

end Stages

/-- **What a session answers to a reference.**  It is malformed exactly when it cannot be read, and
then the session stays as it is.  Otherwise the index is needed, and the answer is the reason why
there is none.  With the index it depends on the entries that the name fits: there are none, or
there is one and the answer is that entry with its full name, or there are more and their full
names are listed in the order of insertion. -/
theorem resolution_spec (start : Option String) (steps : List Step) (files : FileReader)
    (reference : String) :
    let session := (ofDirectory? start).run steps
    let result := (session.resolution files reference).1
    let after := (session.resolution files reference).2
    (∀ text error, result = .error (.malformed text error) ↔
      text = reference ∧ PartialName.parse reference = .error error) ∧
    (∀ error, PartialName.parse reference = .error error → after = session) ∧
    ∀ name, PartialName.parse reference = .ok name →
      (∀ error, result = .error (.session error) ↔ (session.load files).1 = .error error) ∧
      (∀ error, (session.load files).1 = .error error → after = session) ∧
      ∀ database loaded, session.load files = (.ok database, loaded) →
        let found := database.entries.filter fun entry => fits entry.fullName name.segments
        after = loaded ∧
        (∀ text, result = .error (.notFound text) ↔ text = reference ∧ found = []) ∧
        (∀ entry fullReference, result = .ok ⟨entry, fullReference⟩ ↔
          found = [entry] ∧ fullReference = entry.reference) ∧
        (∀ text candidates, result = .error (.ambiguous text candidates) ↔
          text = reference ∧ 2 ≤ found.length ∧ candidates = found.map Entry.reference) := by
  intro session result after
  have hs : ∀ database after, session.load files = (.ok database, after) → database.Sound := by
    intro database after hload
    obtain ⟨source, hparse⟩ := exists_parse_of_load hload
    exact (Database.Reachable.parse hparse).sound
  refine ⟨fun text error => resolution_eq_malformed_iff hs, fun error hname => ?_,
    fun name hname => ⟨fun error => resolution_eq_session_iff hs hname, fun error hload => ?_, ?_⟩⟩
  · exact congrArg Prod.snd (resolution_of_malformed hname)
  · rcases load_cases files session with ⟨_, _, hfound⟩ | ⟨found, hfound⟩
    · rw [hfound] at hload
      cases hload
    · exact congrArg Prod.snd (resolution_of_load_error hname hfound)
  · intro database loaded hload found
    have hresolution := resolution_of_load (hs _ _ hload) hname hload
    have hresult : result = (answer reference found).map .ofEntry := congrArg Prod.fst hresolution
    refine ⟨congrArg Prod.snd hresolution, fun text => ?_, fun entry fullReference => ?_,
      fun text candidates => ?_⟩
    · rw [hresult, map_eq_error_iff, answer_eq_error_notFound_iff]
    · rw [hresult, map_ofEntry_eq_ok_iff, answer_eq_ok_iff]
    · rw [hresult, map_eq_error_iff, answer_eq_error_ambiguous_iff]

theorem resolution_spec_twoPaths :
    ((ofDirectory? none).run []).resolution (fun _ => .ok twoPaths) "a:\"b" =
      (.error (.malformed "a:\"b" ⟨⟨2, 1, 3⟩, .unterminatedName⟩), unconfigured) ∧
    (((ofDirectory? none).run []).resolution (fun _ => .ok twoPaths) "get").1 =
      .error (.session .notConfigured) ∧
    (((ofDirectory? (some "gen")).run []).resolution (fun _ => .ok twoPaths) "get").1 =
      .error (.ambiguous "get"
        [(getEntry "a/b" "List" 1).reference, (getEntry "c" "Map" 4).reference]) ∧
    (((ofDirectory? (some "gen")).run []).resolution (fun _ => .ok twoPaths) "List#get").1 =
      .ok ⟨getEntry "a/b" "List" 1, (getEntry "a/b" "List" 1).reference⟩ ∧
    (((ofDirectory? (some "gen")).run []).resolution (fun _ => .ok twoPaths) "put").1 =
      .error (.notFound "put") := by
  obtain ⟨database, _, hentries, hload⟩ := exists_loaded_twoPaths
  have hopen : PartialName.parse "a:\"b" = .error ⟨⟨2, 1, 3⟩, .unterminatedName⟩ := by cbv
  have hget : PartialName.parse "get" = .ok ⟨["get"]⟩ := by cbv
  have hlist : PartialName.parse "List#get" = .ok ⟨["get", "#", "List"]⟩ := by cbv
  have hput : PartialName.parse "put" = .ok ⟨["put"]⟩ := by cbv
  obtain ⟨hmalformed, hsame, _⟩ := resolution_spec none [] (fun _ => .ok twoPaths) "a:\"b"
  obtain ⟨_, _, hnone⟩ := resolution_spec none [] (fun _ => .ok twoPaths) "get"
  obtain ⟨_, _, hmany⟩ := resolution_spec (some "gen") [] (fun _ => .ok twoPaths) "get"
  obtain ⟨_, _, hone⟩ := resolution_spec (some "gen") [] (fun _ => .ok twoPaths) "List#get"
  obtain ⟨_, _, hzero⟩ := resolution_spec (some "gen") [] (fun _ => .ok twoPaths) "put"
  obtain ⟨_, _, _, hambiguous⟩ := (hmany _ hget).2.2 database _ hload
  obtain ⟨_, _, hfound, _⟩ := (hone _ hlist).2.2 database _ hload
  obtain ⟨_, habsent, _⟩ := (hzero _ hput).2.2 database _ hload
  rw [hentries] at hambiguous hfound habsent
  refine ⟨Prod.ext ((hmalformed _ _).mpr ⟨rfl, hopen⟩) (hsame _ hopen),
    ((hnone _ hget).1 _).mpr rfl, (hambiguous _ _).mpr ⟨rfl, ?_, ?_⟩,
    (hfound _ _).mpr ⟨?_, rfl⟩, (habsent _).mpr ⟨rfl, ?_⟩⟩ <;> decide +kernel

end SymbolIndex.Session
