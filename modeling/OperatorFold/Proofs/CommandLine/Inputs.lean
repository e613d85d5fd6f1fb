import OperatorFold.CommandLine.Run

/-! # Inputs

The inputs of a run are the files of declarations, then the source files, then the expressions, just
as the arguments name them (`Settings.named`). All files are read before anything else is done. So
either all inputs are there (`inputs_eq`), or the first file that cannot be read is all that counts
(`inputs_unreadable`), unless a file of declarations in front of it has no name.
-/

namespace OperatorFold.CommandLine

namespace Settings

/-- The files that are named, in the order in which they are read. -/
def paths (s : Settings) : List String := s.declarations.filterMap id ++ s.sources

/-- The inputs that are named, where the files have these contents: the files of declarations, the
source files and the expressions. -/
def named (s : Settings) (contents : String → String) : List Input :=
  (s.declarations.filterMap id).map (fun path => ⟨path, some (contents path), false⟩) ++
    s.sources.map (fun path => ⟨path, some (contents path), true⟩) ++
    expressionInputs s.expressions

/-- A parameter was given no value. -/
def Lacks (s : Settings) : Parameter → Prop
  | .expression => none ∈ s.expressions
  | .preset => s.preset = none
  | .declarations => none ∈ s.declarations

end Settings

section Files

variable {files : Files} {contents : String → String} {path : String} {paths : List String}
  {folds : Bool} {e : FileError}

/-- Files that can all be read are inputs with their texts. -/
theorem readFiles_eq (h : ∀ path ∈ paths, readText files path = .ok (contents path)) :
    readFiles files folds paths =
      .ok (paths.map fun path => ⟨path, some (contents path), folds⟩) := by
  induction paths with
  | nil => rfl
  | cons path rest ih =>
    rw [List.forall_mem_cons] at h
    rw [readFiles, h.1, ih h.2]
    rfl

/-- Files that can all be read have contents. -/
theorem exists_contents (h : ∀ path ∈ paths, ∃ text, readText files path = .ok text) :
    ∃ contents : String → String, ∀ path ∈ paths, readText files path = .ok (contents path) := by
  refine ⟨fun path => (readText files path).toOption.getD "", fun path hpath => ?_⟩
  obtain ⟨text, htext⟩ := h path hpath
  show _ = Except.ok ((readText files path).toOption.getD "")
  rw [htext]
  rfl

/-- Files that can all be read are some inputs. -/
theorem exists_readFiles (h : ∀ path ∈ paths, ∃ text, readText files path = .ok text)
    (folds : Bool) : ∃ inputs, readFiles files folds paths = .ok inputs := by
  obtain ⟨contents, hcontents⟩ := exists_contents h
  exact ⟨_, readFiles_eq hcontents⟩

/-- What cannot be read of a file is the file itself. -/
theorem eq_of_readText_unreadable {other : String}
    (h : readText files path = .error (.unreadable other e)) : other = path := by
  rw [readText] at h
  split at h
  · cases h
  · split at h
    · injection h with h
      injection h with h _
      exact h.symm
    · cases h
    · cases h

/-- Either all files can be read, or there is a first one that cannot. -/
theorem readable_or_unreadable
    (h : ∀ path ∈ paths, ∀ e, readText files path ≠ .error (.broken e)) :
    (∀ path ∈ paths, ∃ text, readText files path = .ok text) ∨
    ∃ before path after e, paths = before ++ path :: after ∧
      (∀ path ∈ before, ∃ text, readText files path = .ok text) ∧
      readText files path = .error (.unreadable path e) := by
  -- on the names: the first file that cannot be read is this one, or it is among the others
  induction paths with
  | nil => exact .inl (List.forall_mem_nil _)
  | cons path rest ih =>
    rw [List.forall_mem_cons] at h
    cases hpath : readText files path with
    | ok text =>
      rcases ih h.2 with hrest | ⟨before, other, after, e, rfl, hbefore, hother⟩
      · exact .inl (List.forall_mem_cons.mpr ⟨⟨text, hpath⟩, hrest⟩)
      · exact .inr ⟨path :: before, other, after, e, rfl,
          List.forall_mem_cons.mpr ⟨⟨text, hpath⟩, hbefore⟩, hother⟩
    | error failure =>
      cases failure with
      | broken e => exact absurd hpath (h.1 e)
      | unreadable other e =>
        rw [eq_of_readText_unreadable hpath] at hpath
        exact .inr ⟨[], path, rest, e, rfl, List.forall_mem_nil _, hpath⟩

/-- Reading ends at the first file that cannot be read. -/
theorem readFiles_unreadable {before after : List String}
    (hbefore : ∀ path ∈ before, ∃ text, readText files path = .ok text)
    (hpath : readText files path = .error (.unreadable path e)) :
    readFiles files folds (before ++ path :: after) = .error (.unreadable path e) := by
  induction before with
  | nil =>
    rw [List.nil_append, readFiles, hpath]
    rfl
  | cons first before ih =>
    rw [List.forall_mem_cons] at hbefore
    obtain ⟨text, htext⟩ := hbefore.1
    rw [List.cons_append, readFiles, htext, ih hbefore.2]
    rfl

/-- The files of declarations are read as others are, unless one has no name. -/
theorem readDeclarations_eq (files : Files) (declarations : List (Option String)) :
    readDeclarations files declarations = readFiles files false (declarations.filterMap id) ∨
      none ∈ declarations ∧
        readDeclarations files declarations = .error (.broken (.valueless .declarations)) := by
  induction declarations with
  | nil => exact .inl rfl
  | cons path? rest ih =>
    cases path? with
    | none => exact .inr ⟨List.mem_cons_self, rfl⟩
    | some path =>
      rw [readDeclarations, List.filterMap_cons, id, readFiles]
      cases readText files path with
      | error e => exact .inl rfl
      | ok text =>
        rcases ih with ih | ⟨hnone, ih⟩
        · exact .inl (by rw [ih])
        · exact .inr ⟨List.mem_cons_of_mem _ hnone, by rw [ih]; rfl⟩

end Files

namespace Settings

variable {s : Settings} {files : Files}

/-- If all named files can be read, they and the expressions are the inputs, unless a file of
declarations has no name. -/
theorem inputs_eq {contents : String → String}
    (h : ∀ path ∈ s.paths, readText files path = .ok (contents path)) :
    s.inputs files = .ok (s.named contents) ∨
      s.Lacks .declarations ∧ s.inputs files = .error (.broken (.valueless .declarations)) := by
  rw [paths, List.forall_mem_append] at h
  rcases readDeclarations_eq files s.declarations with hread | ⟨hnone, hread⟩
  · left
    rw [inputs, hread, readFiles_eq h.1, readFiles_eq h.2]
    rfl
  · right
    refine ⟨hnone, ?_⟩
    rw [inputs, hread]
    rfl

/-- The first file that cannot be read ends the reading of inputs, unless a file of declarations
without a name comes before it. -/
theorem inputs_unreadable {before after : List String} {path : String} {e : FileError}
    (hpaths : s.paths = before ++ path :: after)
    (hbefore : ∀ path ∈ before, ∃ text, readText files path = .ok text)
    (hpath : readText files path = .error (.unreadable path e)) :
    s.inputs files = .error (.unreadable path e) ∨
      s.Lacks .declarations ∧ s.inputs files = .error (.broken (.valueless .declarations)) := by
  rcases readDeclarations_eq files s.declarations with hread | ⟨hnone, hread⟩
  · left
    rw [inputs, hread]
    rcases List.append_eq_append_iff.mp hpaths with
      ⟨others, rfl, hsources⟩ | ⟨others, hdeclarations, hrest⟩
    · -- it is a source file, and all files of declarations have been read
      rw [List.forall_mem_append] at hbefore
      obtain ⟨read, hfirst⟩ := exists_readFiles hbefore.1 false
      rw [hfirst, hsources, readFiles_unreadable hbefore.2 hpath]
      rfl
    · rw [hdeclarations]
      cases others with
      | nil =>
        obtain ⟨read, hfirst⟩ := exists_readFiles hbefore false
        have hsources : s.sources = [] ++ path :: after := hrest.symm
        rw [List.append_nil, hfirst, hsources, readFiles_unreadable (List.forall_mem_nil _) hpath]
        rfl
      | cons first others =>
        injection hrest with hfirst _
        rw [← hfirst, readFiles_unreadable hbefore hpath]
        rfl
  · right
    refine ⟨hnone, ?_⟩
    rw [inputs, hread]
    rfl

/-- Files have texts, so only the value of an expression can be missing. -/
theorem lacks_of_text_eq_none {contents : String → String} {i : Input} (hi : i ∈ s.named contents)
    (htext : i.text = none) : s.Lacks .expression := by
  rcases List.mem_append.mp hi with hfile | hexpression
  · rcases List.mem_append.mp hfile with hfile | hfile
    · obtain ⟨path, -, rfl⟩ := List.mem_map.mp hfile
      cases htext
    · obtain ⟨path, -, rfl⟩ := List.mem_map.mp hfile
      cases htext
  · obtain ⟨⟨text, number⟩, hmem, rfl⟩ := List.mem_map.mp hexpression
    cases htext
    exact List.fst_mem_of_mem_zipIdx hmem

end Settings

end OperatorFold.CommandLine
