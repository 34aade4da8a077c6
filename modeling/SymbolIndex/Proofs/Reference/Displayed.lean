import SymbolIndex.Proofs.Reference.Printing

/-!
# A reference that is shown reads as itself

A reference is shown without quotes.  Its segments stand one behind the other with a colon between
two of them, but none around a delimiter.  So what is shown are the names of a reference again, if
each segment can stand for itself in its place:

* none is empty, is spelled like a delimiter or has a quote, a separator or a line ending in it;
* the element has no mark, since the first mark of the last name splits it, and a property does not
  go on with an accessor mark that its delimiter could take;
* a segment behind a colon does not begin with a digit, and the first one not with layout.

Further marks, in the property or in the segments of the path, do no harm.

* `toList_displayFrom_path`, `displayFrom_member`: what is shown.
* `parse_display`: it reads as the same segments.
-/

namespace SymbolIndex

open Lexer

/-! ### Segments that need no quotes -/

/-- A segment that can be shown as it is. -/
structure IsPlainSegment (segment : String) : Prop where
  ne_empty : segment ≠ ""
  not_delimiter : segment ∉ SymbolName.delimiters
  no_special : ∀ c ∈ segment.toList, isSpecial c = false

/-- The names of a reference, the most specific first, that can be shown one behind the other. -/
structure IsPlainNames (names : List String) : Prop where
  plain : ∀ name ∈ names, IsPlainSegment name
  no_digit : ∀ name ∈ names.dropLast, name.toList.head?.any Char.isDigit = false
  no_layout : ∀ name ∈ names.getLast?, ∀ c ∈ name.toList.head?, c ≠ ' ' ∧ c ≠ '\t'

/-- A property that can be shown behind its delimiter. -/
structure IsPlainMember (property delimiter : String) : Prop where
  known : delimiter ∈ SymbolName.delimiters
  plain : IsPlainSegment property
  no_accessor : delimiter = "#" ∨ delimiter = "@" →
    property.toList.head?.any SymbolName.isAccessor = false

/-- An element that is not split, with the path in front of it. -/
structure IsPlainElement (element : String) (path : List String) : Prop where
  names : IsPlainNames (element :: path)
  no_mark : ∀ c ∈ element.toList, SymbolName.isMark c = false

/-- The stacks of segments, the most specific first, that can be shown. -/
inductive IsPlainStack : List String → Prop
  | empty : IsPlainStack []
  | member {property delimiter : String} (h : IsPlainMember property delimiter) :
      IsPlainStack [property, delimiter]
  | delimiter {delimiter : String} (h : delimiter ∈ SymbolName.delimiters) :
      IsPlainStack [delimiter]
  | element {element : String} {path : List String} (h : IsPlainElement element path) :
      IsPlainStack (element :: path)
  | elementDelimiter {delimiter element : String} {path : List String}
      (hdelimiter : delimiter ∈ SymbolName.delimiters) (h : IsPlainElement element path) :
      IsPlainStack (delimiter :: element :: path)
  | elementMember {property delimiter element : String} {path : List String}
      (hmember : IsPlainMember property delimiter) (h : IsPlainElement element path) :
      IsPlainStack (property :: delimiter :: element :: path)

theorem ne_empty_of_mem_delimiters {delimiter : String} (h : delimiter ∈ SymbolName.delimiters) :
    delimiter ≠ "" := by
  rintro rfl
  exact absurd h (by decide)

namespace IsPlainSegment

variable {segment : String}

theorem toList_ne_nil (h : IsPlainSegment segment) : segment.toList ≠ [] :=
  mt String.toList_eq_nil_iff.mp h.ne_empty

theorem unquote_eq (h : IsPlainSegment segment) : unquote segment = segment := by
  rw [unquote, Quoted.decode_of_bare (not_mem_quote h.no_special), String.ofList_toList]

end IsPlainSegment

/-! ### What is shown -/

namespace PartialName

/-- Between two segments that are no delimiters there is a colon. -/
theorem toList_displayFrom_path {names : List String} {element : String}
    (helement : element ∉ SymbolName.delimiters)
    (hnames : ∀ name ∈ names, name ∉ SymbolName.delimiters) (glued : Bool) (rest : List String) :
    (displayFrom glued (names ++ element :: rest)).toList =
      (if glued then [] else [':']) ++ joinNames (names.map fun name => (name.toList, [':']))
        (element.toList ++ (displayFrom false rest).toList) := by
  induction names generalizing glued with
  | nil =>
    rw [List.nil_append, displayFrom, if_neg helement]
    cases glued <;> simp [joinNames]
  | cons name names ih =>
    obtain ⟨hname, hnames⟩ := List.forall_mem_cons.mp hnames
    rw [List.cons_append, displayFrom, if_neg hname, String.toList_append, String.toList_append,
      ih hnames false]
    cases glued <;> simp [joinNames]

/-- Nothing stands around a delimiter. -/
theorem displayFrom_member {name : SymbolName} (h : name.WellFormed)
    (hproperty : name.property ∉ SymbolName.delimiters) (glued : Bool) :
    displayFrom glued ([name.delimiter, name.property].filter (· ≠ "")) =
      name.delimiter ++ name.property := by
  obtain ⟨element, delimiter, property⟩ := name
  rcases h with ⟨rfl, rfl⟩ | hdelimiter
  · rfl
  · have hne := ne_empty_of_mem_delimiters hdelimiter
    by_cases hempty : property = ""
    · simp [hne, hempty, displayFrom, hdelimiter]
    · simp [hne, hempty, displayFrom, hdelimiter, hproperty]

theorem reverse_segments (name : SymbolName) :
    name.segments.reverse = [name.element, name.delimiter, name.property].filter (· ≠ "") := by
  rw [SymbolName.segments, ← List.filter_reverse]
  rfl

/-- A symbol without an element is shown as its member. -/
theorem display_member {name : SymbolName} (h : name.WellFormed) (helement : name.element = "")
    (hproperty : name.property ∉ SymbolName.delimiters) :
    display ⟨name.segments⟩ = name.display := by
  have hsegments : name.segments.reverse = [name.delimiter, name.property].filter (· ≠ "") := by
    rw [reverse_segments, helement]
    rfl
  rw [display, hsegments, displayFrom_member h hproperty, SymbolName.display, helement,
    String.empty_append]

/-- A symbol with an element is shown behind its path. -/
theorem display_element {name : SymbolName} {path : List String} (h : name.WellFormed)
    (helement : IsPlainSegment name.element) (hproperty : name.property ∉ SymbolName.delimiters)
    (hpath : ∀ segment ∈ path, IsPlainSegment segment) :
    display ⟨name.segments ++ path⟩ =
      .ofList (joinNames (path.reverse.map fun segment => (segment.toList, [':']))
        name.display.toList) := by
  have hsegments : name.segments.reverse =
      name.element :: [name.delimiter, name.property].filter (· ≠ "") := by
    rw [reverse_segments, List.filter_cons_of_pos (by simp [helement.ne_empty])]
  have hdelimiters : ∀ segment ∈ path.reverse, segment ∉ SymbolName.delimiters :=
    fun segment hmem => (hpath segment (List.mem_reverse.mp hmem)).not_delimiter
  rw [← String.toList_inj, String.toList_ofList, display, List.reverse_append, hsegments,
    toList_displayFrom_path helement.not_delimiter hdelimiters, displayFrom_member h hproperty,
    SymbolName.toList_display, String.toList_append]
  rfl

/-! ### Reading what is shown -/

/-- Names with colons between them are read if each of them is taken as one name in its place. -/
theorem parse_shown {name : SymbolName} {path : List String}
    (hshown : display ⟨name.segments ++ path⟩ =
      .ofList (joinNames (path.reverse.map fun segment => (segment.toList, [':']))
        name.display.toList))
    (hname : SymbolName.ofQuoted name.display = name)
    (hpath : ∀ segment ∈ path, unquote segment = segment)
    (hsegment : ∀ text ∈ (name.display :: path).dropLast, IsSegment text.toList)
    (hstart : ∀ text ∈ (name.display :: path).getLast?, IsStart text.toList) :
    parse (display ⟨name.segments ++ path⟩) = .ok ⟨name.segments ++ path⟩ := by
  have htexts : (path.reverse.map fun segment => (segment.toList, [':'])).map (·.1) ++
      [name.display.toList] = (name.display :: path).reverse.map String.toList := by
    simp [Function.comp_def]
  have hparse := @parse_joinNames (path.reverse.map fun segment => (segment.toList, [':']))
    name.display.toList ?_ ?_ ?_
  · rw [hshown, hparse, String.ofList_toList, hname, List.map_map, ← List.map_reverse,
      List.reverse_reverse]
    have hunquote : path.map (fun segment => unquote (.ofList segment.toList)) = path := by
      refine (List.map_congr_left fun segment hmem => ?_).trans (List.map_id path)
      rw [String.ofList_toList, hpath segment hmem]
      rfl
    exact congrArg (fun names => Except.ok (PartialName.mk (name.segments ++ names))) hunquote
  · intro step hstep
    obtain ⟨_, _, rfl⟩ := List.mem_map.mp hstep
    show [':'] ∈ separators
    decide
  · rw [htexts, List.head?_map, List.head?_reverse]
    intro text htext
    obtain ⟨segment, hmem, rfl⟩ := Option.map_eq_some_iff.mp htext
    exact hstart segment hmem
  · rw [htexts, ← List.map_tail, List.tail_reverse]
    intro text htext
    obtain ⟨segment, hmem, rfl⟩ := List.mem_map.mp htext
    exact hsegment segment (List.mem_reverse.mp hmem)

end PartialName

/-! ### Names in their places -/

theorem IsSegment.append {front back : List Char} (h : IsSegment front) (hback : Passes [] back) :
    IsSegment (front ++ back) where
  ne_nil := List.append_ne_nil_of_left_ne_nil h.ne_nil _
  passes := h.passes.append hback
  no_digit := by
    obtain ⟨c, tail, rfl⟩ := List.exists_cons_of_ne_nil h.ne_nil
    exact h.no_digit

theorem IsStart.append {front back : List Char} (h : IsStart front) (hback : Passes [] back) :
    IsStart (front ++ back) where
  ne_nil := List.append_ne_nil_of_left_ne_nil h.ne_nil _
  passes := h.passes.append hback
  begins := by
    obtain ⟨c, tail, rfl⟩ := List.exists_cons_of_ne_nil h.ne_nil
    exact h.begins

namespace IsPlainNames

variable {names : List String} {name : String}

theorem isSegment (h : IsPlainNames names) (hmem : name ∈ names.dropLast) :
    IsSegment name.toList where
  ne_nil := (h.plain name (List.mem_of_mem_dropLast hmem)).toList_ne_nil
  passes := passes_of_not_special (h.plain name (List.mem_of_mem_dropLast hmem)).no_special
  no_digit := h.no_digit name hmem

theorem isStart (h : IsPlainNames names) (hmem : name ∈ names.getLast?) : IsStart name.toList where
  ne_nil := (h.plain name (List.mem_of_getLast? hmem)).toList_ne_nil
  passes := passes_of_not_special (h.plain name (List.mem_of_getLast? hmem)).no_special
  begins := by
    intro c hc
    obtain ⟨hspace, htab⟩ := h.no_layout name hmem c hc
    have hspecial := (h.plain name (List.mem_of_getLast? hmem)).no_special c
      (List.mem_of_mem_head? hc)
    exact beginsName_of_isSpecial hspecial hspace htab

end IsPlainNames

/-! ### The symbol of a stack -/

namespace SymbolName

/-- A symbol whose member can be shown, if it has one. -/
structure HasPlainMember (name : SymbolName) : Prop where
  wellFormed : name.WellFormed
  not_delimiter : name.property ∉ delimiters
  no_special : ∀ c ∈ name.property.toList, isSpecial c = false
  no_accessor : name.delimiter = "#" ∨ name.delimiter = "@" →
    name.property.toList.head?.any isAccessor = false

variable {element delimiter property : String}

theorem hasPlainMember_none (element : String) : HasPlainMember ⟨element, "", ""⟩ where
  wellFormed := .inl ⟨rfl, rfl⟩
  not_delimiter := show "" ∉ delimiters by decide
  no_special := by simp
  no_accessor := fun _ => rfl

theorem hasPlainMember_delimiter (h : delimiter ∈ delimiters) (element : String) :
    HasPlainMember ⟨element, delimiter, ""⟩ where
  wellFormed := .inr h
  not_delimiter := show "" ∉ delimiters by decide
  no_special := by simp
  no_accessor := fun _ => rfl

theorem hasPlainMember_property (h : IsPlainMember property delimiter) (element : String) :
    HasPlainMember ⟨element, delimiter, property⟩ where
  wellFormed := .inr h.known
  not_delimiter := h.plain.not_delimiter
  no_special := h.plain.no_special
  no_accessor := h.no_accessor

variable {name : SymbolName}

theorem HasPlainMember.passes (h : name.HasPlainMember) :
    Passes [] (name.delimiter.toList ++ name.property.toList) := by
  refine Passes.append ?_ (passes_of_not_special h.no_special)
  rcases h.wellFormed with ⟨hdelimiter, _⟩ | hdelimiter
  · rw [hdelimiter]
    exact passes_nil
  · exact passes_delimiter hdelimiter

theorem HasPlainMember.ofQuoted_display (h : name.HasPlainMember)
    (helement : ∀ c ∈ name.element.toList, c ≠ '"' ∧ isMark c = false) :
    ofQuoted name.display = name :=
  SymbolName.ofQuoted_display h.wellFormed helement (not_mem_quote h.no_special) h.no_accessor

end SymbolName

namespace PartialName

/-- A symbol without an element is read back. -/
theorem parse_display_member {name : SymbolName} (h : name.HasPlainMember)
    (helement : name.element = "") (hdelimiter : name.delimiter ∈ SymbolName.delimiters) :
    parse (display ⟨name.segments⟩) = .ok ⟨name.segments⟩ := by
  have htext : name.display.toList = name.delimiter.toList ++ name.property.toList := by
    rw [SymbolName.toList_display, helement]
    rfl
  have hbegins : ∀ d ∈ SymbolName.delimiters, ∃ mark rest, d.toList = mark :: rest ∧
      beginsName [] mark = true := by
    simp [SymbolName.delimiters, beginsName, isGap, isSeparator]
  have hstart : IsStart name.display.toList := by
    obtain ⟨mark, rest, hmark, hbegins⟩ := hbegins _ hdelimiter
    refine ⟨?_, htext ▸ h.passes, ?_⟩
    · rw [htext, hmark]
      exact List.cons_ne_nil _ _
    · rw [htext, hmark]
      rintro _ ⟨⟩
      exact hbegins
  have hshown : display ⟨name.segments ++ []⟩ =
      .ofList (joinNames (([] : List String).reverse.map fun segment => (segment.toList, [':']))
        name.display.toList) := by
    rw [List.append_nil, display_member h.wellFormed helement h.not_delimiter]
    exact String.ofList_toList.symm
  have hparse := parse_shown hshown (h.ofQuoted_display (by simp [helement])) (by simp) (by simp)
    (by rintro _ ⟨⟩; exact hstart)
  rwa [List.append_nil] at hparse

/-- A symbol with an element is read back, and so is the path in front of it. -/
theorem parse_display_element {name : SymbolName} {path : List String} (h : name.HasPlainMember)
    (helement : IsPlainElement name.element path) :
    parse (display ⟨name.segments ++ path⟩) = .ok ⟨name.segments ++ path⟩ := by
  obtain ⟨hfirst, hpath⟩ := List.forall_mem_cons.mp helement.names.plain
  have hshown := display_element h.wellFormed hfirst h.not_delimiter hpath
  have hname := h.ofQuoted_display fun c hc =>
    ⟨(endsName_of_isSpecial (hfirst.no_special c hc)).1, helement.no_mark c hc⟩
  refine parse_shown hshown hname (fun segment hmem => (hpath segment hmem).unquote_eq) ?_ ?_
  · -- The symbol stands behind a colon if there is a path.
    intro text htext
    cases path with
    | nil => simp at htext
    | cons segment path =>
      rw [List.dropLast_cons_cons] at htext
      rcases List.mem_cons.mp htext with rfl | hmem
      · rw [SymbolName.toList_display]
        exact (helement.names.isSegment List.mem_cons_self).append h.passes
      · exact helement.names.isSegment (List.mem_cons_of_mem _ hmem)
  · intro text htext
    cases path with
    | nil =>
      rw [List.getLast?_singleton, Option.mem_def] at htext
      obtain rfl := Option.some.inj htext
      rw [SymbolName.toList_display]
      exact (helement.names.isStart rfl).append h.passes
    | cons segment path => exact helement.names.isStart htext

/-- **A reference that is shown reads as itself.** -/
theorem parse_display {name : PartialName} (h : IsPlainStack name.segments) :
    parse name.display = .ok name := by
  obtain ⟨segments⟩ := name
  cases h with
  | empty => cbv
  | @member property delimiter h =>
    have hsegments : SymbolName.segments ⟨"", delimiter, property⟩ = [property, delimiter] := by
      simp [SymbolName.segments, h.plain.ne_empty, ne_empty_of_mem_delimiters h.known]
    rw [← hsegments]
    exact parse_display_member (SymbolName.hasPlainMember_property h "") rfl h.known
  | @delimiter delimiter h =>
    have hsegments : SymbolName.segments ⟨"", delimiter, ""⟩ = [delimiter] := by
      simp [SymbolName.segments, ne_empty_of_mem_delimiters h]
    rw [← hsegments]
    exact parse_display_member (SymbolName.hasPlainMember_delimiter h "") rfl h
  | @element element path h =>
    have hfirst := h.names.plain element List.mem_cons_self
    have hsegments : SymbolName.segments ⟨element, "", ""⟩ = [element] := by
      simp [SymbolName.segments, hfirst.ne_empty]
    rw [← List.singleton_append, ← hsegments]
    exact parse_display_element (SymbolName.hasPlainMember_none element) h
  | @elementDelimiter delimiter element path hdelimiter h =>
    have hfirst := h.names.plain element List.mem_cons_self
    have hsegments : SymbolName.segments ⟨element, delimiter, ""⟩ = [delimiter, element] := by
      simp [SymbolName.segments, hfirst.ne_empty, ne_empty_of_mem_delimiters hdelimiter]
    have hall := parse_display_element (SymbolName.hasPlainMember_delimiter hdelimiter element) h
    rwa [hsegments] at hall
  | @elementMember property delimiter element path hmember h =>
    have hfirst := h.names.plain element List.mem_cons_self
    have hsegments : SymbolName.segments ⟨element, delimiter, property⟩ =
        [property, delimiter, element] := by
      simp [SymbolName.segments, hfirst.ne_empty, hmember.plain.ne_empty,
        ne_empty_of_mem_delimiters hmember.known]
    have hall := parse_display_element (SymbolName.hasPlainMember_property hmember element) h
    rwa [hsegments] at hall

/-- Marks in the path and in the property, a digit in front, and a space behind a colon. -/
theorem parse_display_marks :
    IsPlainStack ["<b#c", "@>", " e", "x@\\y", "2\tz#"] ∧
      display ⟨["<b#c", "@>", " e", "x@\\y", "2\tz#"]⟩ = "2\tz#:x@\\y: e@><b#c" ∧
      parse "2\tz#:x@\\y: e@><b#c" = .ok ⟨["<b#c", "@>", " e", "x@\\y", "2\tz#"]⟩ := by
  have hplain (segment : String) (hmem : segment ∈ ["<b#c", " e", "x@\\y", "2\tz#"]) :
      IsPlainSegment segment := by
    refine ⟨?_, ?_, ?_⟩
    · revert segment
      simp
    · revert segment
      simp [SymbolName.delimiters]
    · revert segment
      simp [isSpecial]
  have hstack : IsPlainStack ["<b#c", "@>", " e", "x@\\y", "2\tz#"] := by
    refine .elementMember ⟨by decide, hplain _ (by decide), by decide⟩ ⟨⟨?_, ?_, ?_⟩, ?_⟩
    · intro segment hmem
      exact hplain segment (List.mem_cons_of_mem _ hmem)
    · simp
    · simp
    · simp [SymbolName.isMark]
  have hshown : display ⟨["<b#c", "@>", " e", "x@\\y", "2\tz#"]⟩ = "2\tz#:x@\\y: e@><b#c" := by
    decide
  exact ⟨hstack, hshown, hshown ▸ @parse_display ⟨_⟩ hstack⟩

end PartialName

end SymbolIndex
