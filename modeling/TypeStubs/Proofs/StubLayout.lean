import TypeStubs.Proofs.FileTrees
import TypeStubs.Proofs.RelativeImports

/-! The files of a stub stand where they are imported from: a module without sub-modules is a file,
a package is a directory with an initial file, and both stand in the directory of the package around
them. -/

namespace TypeStubs

open List Option TypeStubs.Module

variable {s : String} {directory : List String} {entry : List String × Module}

open Writing (Refused)

/-! Names of entries in directories. -/

/-- The text is the name of an entry in a directory. -/
structure IsEntryName (s : String) : Prop where
  inside : '/' ∉ s.toList
  ne_empty : s ≠ ""
  ne_dot : s ≠ "."
  ne_up : s ≠ ".."

theorem isEntryName_append (h : isIdentifier s = true) (more : String) (hm : '/' ∉ more.toList) :
    IsEntryName (s ++ more) := by
  obtain ⟨c, rest, hs, hc⟩ := exists_identifier_start h
  have chars : (s ++ more).toList = c :: (rest ++ more.toList) := by simp [hs]
  have dot : isIdentifierStart '.' = false := by decide
  have other (text : String) (ht : ∀ d ∈ text.toList, isIdentifierStart d = false) :
      s ++ more ≠ text := by
    rintro rfl
    rw [ht c (by simp [chars])] at hc
    cases hc
  constructor
  · rw [String.toList_append, mem_append]
    rintro (hs' | hm')
    · exact not_mem_identifier h (by decide) (by decide) hs'
    · exact hm hm'
  · intro empty
    rw [empty] at chars
    cases chars
  · exact other "." (by simp [dot])
  · exact other ".." (by simp [dot])

theorem isEntryName_identifier (h : isIdentifier s = true) : IsEntryName s := by
  have entry := isEntryName_append h "" (by simp)
  rwa [String.append_empty] at entry

theorem IsEntryName.ofText (h : IsEntryName s) : Path.ofText s = { parts := [s] } := by
  have root : (Path.ofText s).root = "" := by
    simp only [Path.ofText]
    split
    · rename_i hs
      exact absurd (hs ▸ mem_cons_self) h.inside
    · rename_i hs
      exact absurd (hs ▸ mem_cons_self) h.inside
    · rename_i hs
      exact absurd (hs ▸ mem_cons_self) h.inside
    · rfl
  have parts : (Path.ofText s).parts = [s] := by
    simp [Path.ofText, splitText, splitAtChar_of_not_mem h.inside, h.ne_empty, h.ne_dot]
  rw [← root, ← parts]

theorem IsEntryName.join (h : IsEntryName s) (path : Path) :
    path.join (Path.ofText s) = path.below [s] := by
  rw [h.ofText]
  rfl

theorem joinAll_eq {names : List String} (h : ∀ name ∈ names, IsEntryName name) (path : Path) :
    path.joinAll names = path.below names := by
  induction names generalizing path with
  | nil => exact path.below_nil.symm
  | cons name names ih =>
    have rest := ih (fun n hn => h n (.tail _ hn)) (path.below [name])
    rw [Path.below_below] at rest
    rw [← singleton_append, ← rest, ← (h name mem_cons_self).join path]
    rfl

/-! The layout of a stub. -/

def Module.filePath (extension : String) (m : Module) : List String :=
  if m.subModules.isEmpty then [m.name ++ "." ++ extension]
  else [m.name, "__init__." ++ extension]

theorem Module.filePath_package {extension : String} {m : Module} (h : m.subModules ≠ []) :
    m.filePath extension = [m.name, "__init__." ++ extension] :=
  if_neg (by simpa using h)

mutual

/-- The files of a module and of all modules below it, each with the module that it is for. -/
def Module.layout (extension : String) (directory : List String) :
    Module → List (List String × Module)
  | ⟨name, doc, classes, functions, subModules, attributes, imports, aliases, typeVariables⟩ =>
    let m : Module :=
      ⟨name, doc, classes, functions, subModules, attributes, imports, aliases, typeVariables⟩
    (directory ++ m.filePath extension, m) ::
      layoutAll extension (directory ++ [name]) subModules

def Module.layoutAll (extension : String) (directory : List String) :
    List Module → List (List String × Module)
  | [] => []
  | m :: ms => m.layout extension directory ++ layoutAll extension directory ms

end

theorem Module.layout_eq (extension : String) (directory : List String) (m : Module) :
    m.layout extension directory = (directory ++ m.filePath extension, m) ::
      layoutAll extension (directory ++ [m.name]) m.subModules := by
  cases m
  rw [Module.layout]

theorem Module.family_eq (m : Module) : m.family = m :: families m.subModules := by
  cases m
  rw [family]

mutual

theorem Module.layout_modules (extension : String) (directory : List String) (m : Module) :
    (m.layout extension directory).map Prod.snd = m.family := by
  match m with
  | ⟨name, doc, classes, functions, subModules, attributes, imports, aliases, typeVariables⟩ =>
    rw [Module.layout, family, map_cons, layoutAll_modules]

theorem Module.layoutAll_modules (extension : String) (directory : List String) (ms : List Module) :
    (layoutAll extension directory ms).map Prod.snd = families ms := by
  match ms with
  | [] => rw [layoutAll, families, map_nil]
  | m :: ms =>
    rw [layoutAll, families, map_append, layout_modules, layoutAll_modules]

end

/-- A file below a directory: the names on the way to it have no dots, and its own name has one. -/
def IsFileBelow (directory file : List String) : Prop :=
  ∃ folders name, file = directory ++ (folders ++ [name]) ∧
    (∀ folder ∈ folders, IsEntryName folder ∧ '.' ∉ folder.toList) ∧
    IsEntryName name ∧ '.' ∈ name.toList

theorem isFileBelow_inner {file : List String} {folder : String}
    (h : IsFileBelow (directory ++ [folder]) file) (entry : IsEntryName folder)
    (dotless : '.' ∉ folder.toList) : IsFileBelow directory file := by
  obtain ⟨folders, name, rfl, between, last⟩ := h
  refine ⟨folder :: folders, name, ?_, ?_, last⟩
  · simp only [append_assoc, cons_append, nil_append]
  · intro f hf
    rcases mem_cons.mp hf with rfl | hf
    · exact ⟨entry, dotless⟩
    · exact between f hf

theorem isFileBelow_file (directory : List String) {extension : String}
    (h : isIdentifier s = true) (he : '/' ∉ extension.toList) :
    IsFileBelow directory (directory ++ [s ++ "." ++ extension]) := by
  refine ⟨[], s ++ "." ++ extension, rfl, nofun, ?_, by simp⟩
  rw [String.append_assoc]
  exact isEntryName_append h _ (by simpa using he)

section

variable {extension : String}

theorem isFileBelow_filePath (he : '/' ∉ extension.toList) (directory : List String) {m : Module}
    (h : isIdentifier m.name = true) : IsFileBelow directory (directory ++ m.filePath extension) := by
  unfold filePath
  split
  · exact isFileBelow_file directory h he
  · have init := isFileBelow_file (directory ++ [m.name]) (s := "__init__") (by decide) he
    have inner := isFileBelow_inner init (isEntryName_identifier h)
      (not_mem_identifier h (by decide) (by decide))
    rwa [append_assoc] at inner

mutual

theorem isFileBelow_layout (he : '/' ∉ extension.toList) (directory : List String) {m : Module}
    (h : ∀ m' ∈ m.family, isIdentifier m'.name = true) :
    ∀ entry ∈ m.layout extension directory, IsFileBelow directory entry.1 := by
  match m with
  | ⟨name, doc, classes, functions, subModules, attributes, imports, aliases, typeVariables⟩ =>
    rw [family] at h
    have own := h _ mem_cons_self
    intro entry hentry
    rw [Module.layout] at hentry
    rcases mem_cons.mp hentry with rfl | hentry
    · exact isFileBelow_filePath he directory own
    · have below := isFileBelow_layoutAll he (directory ++ [name]) (fun m' hm' => h m' (.tail _ hm'))
        entry hentry
      exact isFileBelow_inner below (isEntryName_identifier own)
        (not_mem_identifier own (by decide) (by decide))

theorem isFileBelow_layoutAll (he : '/' ∉ extension.toList) (directory : List String)
    {ms : List Module} (h : ∀ m' ∈ families ms, isIdentifier m'.name = true) :
    ∀ entry ∈ layoutAll extension directory ms, IsFileBelow directory entry.1 := by
  match ms with
  | [] =>
    rw [layoutAll]
    nofun
  | m :: ms =>
    rw [families] at h
    intro entry hentry
    rw [layoutAll] at hentry
    rcases mem_append.mp hentry with hentry | hentry
    · exact isFileBelow_layout he directory (fun m' hm' => h m' (mem_append_left _ hm')) entry
        hentry
    · exact isFileBelow_layoutAll he directory (fun m' hm' => h m' (mem_append_right _ hm'))
        entry hentry

end

end

/-- No file stands where another one needs a directory. -/
def Apart (files : List (List String)) : Prop :=
  ∀ file ∈ files, ∀ more, more ≠ [] → file ++ more ∉ files

theorem apart_of_below {files : List (List String)}
    (h : ∀ file ∈ files, IsFileBelow directory file) : Apart files := by
  intro file hf more hm hin
  obtain ⟨folders, name, rfl, -, -, dotted⟩ := h file hf
  obtain ⟨folders', name', same, between, -⟩ := h _ hin
  rw [← dropLast_concat_getLast hm, append_assoc, append_cancel_left_eq, ← append_assoc] at same
  obtain ⟨rfl, -⟩ := append_singleton_inj.mp same
  exact (between name (by simp)).2 dotted

theorem IsFileBelow.entries {file : List String} (h : IsFileBelow directory file)
    (hd : ∀ name ∈ directory, IsEntryName name) : ∀ name ∈ file, IsEntryName name := by
  obtain ⟨folders, last, rfl, between, entry, -⟩ := h
  intro name hn
  rcases mem_append.mp hn with hn | hn
  · exact hd name hn
  · rcases mem_append.mp hn with hn | hn
    · exact (between name hn).1
    · rwa [mem_singleton.mp hn]

/-! Every layout is written in the same steps. -/

/-- How a layout is written: when a directory is ready for what goes into it, and what a part of the
layout has done to a tree. -/
structure WritesBy (p : Printer) (out : Path) (layout : List (List String × Module))
    (E : WriteError → Prop) (Ready : List String → FileTree → Prop)
    (Done : List (List String × Module) → FileTree → FileTree → Prop) : Prop where
  nil (t : FileTree) : Done [] t t
  append {a b : List (List String × Module)} {t t' t'' : FileTree} : Done a t t' → Done b t' t'' →
    Done (a ++ b) t t''
  still {a : List (List String × Module)} {folders : List String} {t t' : FileTree} : Done a t t' →
    Ready folders t → Ready folders t'
  isDirectory {folders : List String} {t : FileTree} : Ready folders t →
    Writing.Goes E (Writing.ask (·.isDirectory (out.below folders))) t
      fun there t' => t' = t ∧ (there = false → E .noDirectory)
  moduleFile {folders : List String} {name : String} {m : Module} {t : FileTree} :
    (folders ++ [name], m) ∈ layout → Ready folders t →
    Writing.Goes E (Writing.moduleFile p (out.below (folders ++ [name])) m) t
      fun _ t' => Done [(folders ++ [name], m)] t t'
  makeDirectory {folders more : List String} {name : String} {m : Module} {t : FileTree} :
    (folders ++ name :: more, m) ∈ layout → more ≠ [] → Ready folders t →
    Writing.Goes E (Writing.change (·.makeDirectory (out.below (folders ++ [name])))) t
      fun _ t' => Ready (folders ++ [name]) t' ∧ Done [] t t'

namespace WritesBy

variable {p : Printer} {out : Path} {layout : List (List String × Module)} {E : WriteError → Prop}
  {Ready : List String → FileTree → Prop}
  {Done : List (List String × Module) → FileTree → FileTree → Prop} {extension : String}
  (rule : WritesBy p out layout E Ready Done) {t : FileTree}

include rule

theorem package {inner : List String} {m : Module} {ms : List Module}
    (own : (inner ++ ["__init__." ++ extension], m) ∈ layout)
    (made : Writing.Goes E (Writing.change (·.makeDirectory (out.below inner))) t
      fun _ t' => Ready inner t' ∧ Done [] t t') (others : ∀ t₁, Ready inner t₁ →
      Writing.Goes E (Module.writeAll p extension (out.below inner) ms) t₁
        fun _ t' => Done (layoutAll extension inner ms) t₁ t') :
    Writing.Goes E (do
        Writing.change (·.makeDirectory (out.below inner))
        Writing.moduleFile p (out.below (inner ++ ["__init__." ++ extension])) m
        Module.writeAll p extension (out.below inner) ms) t
      fun _ t' => Done ((inner ++ ["__init__." ++ extension], m) ::
        layoutAll extension inner ms) t t' := by
  refine made.bind fun _ t₁ ⟨ready, start⟩ => ?_
  refine (rule.moduleFile own ready).bind fun _ t₂ first => ?_
  refine (others t₂ (rule.still first ready)).imp fun _ t₃ rest => ?_
  exact rule.append start (rule.append first rest)

omit rule in
theorem checked {path : Path} {x : Writing Unit} {Q : Unit → FileTree → Prop}
    (there : Writing.Goes E (Writing.ask (·.isDirectory path)) t
      fun there t' => t' = t ∧ (there = false → E .noDirectory)) (rest : Writing.Goes E x t Q) :
    Writing.Goes E (do
      unless ← Writing.ask (·.isDirectory path) do throw .noDirectory
      x) t Q := by
  refine there.bind ?_
  rintro (_ | _) _ ⟨rfl, missing⟩
  · exact (Writing.goes_throw (Q := fun _ _ => False) (missing rfl)).bind fun _ _ => False.elim
  · exact rest

mutual

theorem write (he : '/' ∉ extension.toList) (folders : List String) {m : Module}
    (names : ∀ m' ∈ m.family, isIdentifier m'.name = true)
    (part : ∀ entry ∈ m.layout extension folders, entry ∈ layout) {t : FileTree}
    (ready : Ready folders t) : Writing.Goes E (m.write p extension (out.below folders) none) t
      fun _ t' => Done (m.layout extension folders) t t' := by
  match m with
  | ⟨name, doc, classes, functions, subModules, attributes, imports, aliases, typeVariables⟩ =>
    rw [family] at names
    have own : isIdentifier name = true := names _ mem_cons_self
    rw [Module.layout] at part ⊢
    have first := part _ mem_cons_self
    rw [Module.write]
    refine checked (rule.isDirectory ready) ?_
    cases subModules with
    | nil =>
      have file : IsEntryName (name ++ "." ++ extension) := by
        rw [String.append_assoc]
        exact isEntryName_append own _ (by simpa using he)
      simp only [isEmpty_nil, isNone_none, Bool.and_self, reduceIte, file.join, Path.below_below]
      simp only [filePath, isEmpty_nil, reduceIte] at first ⊢
      rw [layoutAll]
      exact rule.moduleFile first ready
    | cons sub subs =>
      have init : IsEntryName ("__init__." ++ extension) :=
        isEntryName_append (s := "__init__") (by decide) ("." ++ extension) (by simpa using he)
      have split : folders ++ [name, "__init__." ++ extension] =
          (folders ++ [name]) ++ ["__init__." ++ extension] := by
        rw [append_assoc, singleton_append]
      simp only [isEmpty_cons, Bool.false_and, Bool.false_eq_true, reduceIte, getD_none,
        (isEntryName_identifier own).join, init.join, Path.below_below]
      simp only [filePath, isEmpty_cons, Bool.false_eq_true, reduceIte] at first ⊢
      have made := rule.makeDirectory first (cons_ne_nil _ _) ready
      rw [split] at first ⊢
      exact rule.package first made fun t₁ ready₁ => writeAll he _ (fun m' hm' => names m' (.tail _ hm'))
        (fun entry hentry => part entry (.tail _ hentry)) ready₁

theorem writeAll (he : '/' ∉ extension.toList) (folders : List String) {ms : List Module}
    (names : ∀ m' ∈ families ms, isIdentifier m'.name = true)
    (part : ∀ entry ∈ layoutAll extension folders ms, entry ∈ layout) {t : FileTree}
    (ready : Ready folders t) :
    Writing.Goes E (Module.writeAll p extension (out.below folders) ms) t
      fun _ t' => Done (layoutAll extension folders ms) t t' := by
  match ms with
  | [] =>
    rw [Module.writeAll, layoutAll]
    exact Writing.goes_pure (rule.nil t)
  | m :: ms =>
    rw [families] at names
    rw [layoutAll] at part ⊢
    rw [Module.writeAll]
    refine (write he _ (fun m' hm' => names m' (mem_append_left _ hm'))
      (fun entry hentry => part entry (mem_append_left _ hentry)) ready).bind fun _ t₁ first => ?_
    refine (writeAll he _ (fun m' hm' => names m' (mem_append_right _ hm'))
      (fun entry hentry => part entry (mem_append_right _ hentry)) (rule.still first ready)).imp ?_
    exact fun _ t₂ rest => rule.append first rest

end

theorem writeAs (he : '/' ∉ extension.toList) {directory package : Path} {inner : List String}
    (same : directory.join package = out.below inner) {m : Module}
    (names : ∀ m' ∈ m.family, isIdentifier m'.name = true)
    (part : ∀ entry ∈ (inner ++ ["__init__." ++ extension], m) ::
      layoutAll extension inner m.subModules, entry ∈ layout)
    (there : Writing.Goes E (Writing.ask (·.isDirectory directory)) t
      fun there t' => t' = t ∧ (there = false → E .noDirectory))
    (made : Writing.Goes E (Writing.change (·.makeDirectory (out.below inner))) t
      fun _ t' => Ready inner t' ∧ Done [] t t') :
    Writing.Goes E (m.write p extension directory (some package)) t
      fun _ t' => Done ((inner ++ ["__init__." ++ extension], m) ::
        layoutAll extension inner m.subModules) t t' := by
  obtain ⟨name, doc, classes, functions, subModules, attributes, imports, aliases, typeVariables⟩ := m
  rw [family] at names
  have init : IsEntryName ("__init__." ++ extension) :=
    isEntryName_append (s := "__init__") (by decide) ("." ++ extension) (by simpa using he)
  rw [Module.write]
  refine checked there ?_
  simp only [isNone_some, Bool.and_false, Bool.false_eq_true, reduceIte, getD_some, same, init.join,
    Path.below_below]
  exact rule.package (part _ mem_cons_self) made fun t₁ ready₁ =>
    rule.writeAll he _ (fun m' hm' => names m' (.tail _ hm'))
      (fun entry hentry => part entry (.tail _ hentry)) ready₁

end WritesBy

/-! What is in the way of a stub. -/

/-- All files of a layout can be written below a path: the paths and names are not too long, every
module has a text, no file stands where a directory is needed, and no directory where a file is
needed, also none of those on the way to the path. -/
structure Writable (p : Printer) (out : Path) (layout : List (List String × Module))
    (t : FileTree) : Prop where
  accepted : ∀ entry ∈ layout, FileTree.accept (out.below entry.1) = .ok ()
  short : ∀ entry ∈ layout, ∀ name ∈ out.parts ++ entry.1,
    name = ".." ∨ name.utf8ByteSize ≤ FileTree.nameLimit
  printable : ∀ entry ∈ layout, ∃ lines, p.moduleLines entry.2 = .ok lines
  way : ∀ prior ∈ out.upTo, t.hasFile prior.place = false ∧
    ∀ entry ∈ layout, (out.below entry.1).place ≠ prior.place
  folders : ∀ entry ∈ layout, ∀ folders more, entry.1 = folders ++ more → more ≠ [] →
    t.hasFile (out.below folders).place = false
  files : ∀ entry ∈ layout, t.hasDirectory (out.below entry.1).place = false

/-- The names in a layout are those of entries, and no file stands where another one needs a
directory. -/
structure IsLayout (layout : List (List String × Module)) : Prop where
  ne_nil : ∀ entry ∈ layout, entry.1 ≠ []
  entries : ∀ entry ∈ layout, ∀ name ∈ entry.1, IsEntryName name
  apart : Apart (layout.map Prod.fst)

def Written (p : Printer) (out : Path) (layout : List (List String × Module)) (t : FileTree)
    (file : List String) : Prop :=
  ∃ m lines, (file, m) ∈ layout ∧ p.moduleLines m = .ok lines ∧
    t.locate (out.below file) = .ok (out.below file).place ∧
    ((out.below file).place, fileText lines) ∈ t.files

/-- A tree after steps that write a part of a layout. -/
structure Continued (p : Printer) (out : Path) (layout : List (List String × Module)) (C : Prop)
    (t t' : FileTree) : Prop where
  still : t.Extends t'
  written : ∀ file, Written p out layout t file → Written p out layout t' file
  writable : (C → Writable p out layout t) → C → Writable p out layout t'

section

variable {p : Printer} {out : Path} {layout : List (List String × Module)} {C : Prop}
  {t t' : FileTree} {folders more : List String} {name : String} {m : Module}

theorem Continued.refl (t : FileTree) : Continued p out layout C t t := ⟨.refl t, fun _ => id, id⟩

theorem Continued.trans {t'' : FileTree} (h : Continued p out layout C t t')
    (h' : Continued p out layout C t' t'') : Continued p out layout C t t'' :=
  ⟨h.still.trans h'.still, fun file hf => h'.written file (h.written file hf),
    fun ready => h'.writable (h.writable ready)⟩

section

variable (h : IsLayout layout)
include h

theorem IsLayout.place (more : List String)
    (hm : (folders ++ more, m) ∈ layout) : (out.below folders).place = out.place ++ folders := by
  refine out.place_below fun up => ?_
  exact (h.entries _ hm _ (mem_append_left _ up)).ne_up rfl

theorem IsLayout.place_file (he : entry ∈ layout) :
    (out.below entry.1).place = out.place ++ entry.1 :=
  h.place (m := entry.2) [] (by rwa [append_nil])

theorem IsLayout.place_ne (hm : (folders ++ more, m) ∈ layout)
    (some : more ≠ []) (he : entry ∈ layout) :
    (out.below entry.1).place ≠ (out.below folders).place := by
  intro same
  rw [h.place more hm, h.place_file he, append_cancel_left_eq] at same
  refine h.apart entry.1 (mem_map_of_mem he) more some ?_
  rw [same]
  exact mem_map_of_mem (f := Prod.fst) hm

omit h in
theorem Writable.locate_error (w : Writable p out layout t)
    (hm : (folders ++ name :: more, m) ∈ layout) (leads : t.Leads (out.below folders))
    {e : FileError} (failed : t.locate (out.below (folders ++ [name])) = .error e) : False := by
  have whole : out.below (folders ++ name :: more) = (out.below (folders ++ [name])).below more := by
    simp only [Path.below_below, append_assoc, singleton_append]
  have accepted := FileTree.accept_of_below (whole ▸ w.accepted _ hm)
  rcases leads.locate_below name with found | ⟨e', -, -, why⟩
  · rw [Path.below_below, failed] at found
    cases found
  · rw [Path.below_below] at why
    rcases why accepted with file | ⟨down, long⟩
    · have free := w.folders _ hm folders _ rfl (cons_ne_nil _ _)
      rw [free] at file
      cases file
    · rcases w.short _ hm name (by simp) with up | short
      · exact down up
      · omega

theorem goes_makeFolder (hm : (folders ++ name :: more, m) ∈ layout)
    (some : more ≠ []) (leads : t.Leads (out.below folders)) (ready : C → Writable p out layout t) :
    Writing.Goes (Refused C) (Writing.change (·.makeDirectory (out.below (folders ++ [name])))) t
      fun _ t' => t'.Leads (out.below (folders ++ [name])) ∧ Continued p out layout C t t' := by
  have hm' : ((folders ++ [name]) ++ more, m) ∈ layout := by
    rwa [append_assoc, singleton_append]
  refine Writing.goes_change (fun t' made => ?_) fun e failed => ⟨nofun, ?_, fun c => ?_⟩
  · obtain ⟨-, files, directories⟩ := FileTree.makeDirectory_ok made
    have still := FileTree.extends_makeDirectory made
    refine ⟨FileTree.leads_makeDirectory made, still, ?_, fun ready c => ?_⟩
    · rintro file ⟨m', lines, hm', printed, located, there⟩
      exact ⟨m', lines, hm', printed, still.locate located, by rwa [files]⟩
    · have w := ready c
      refine ⟨w.accepted, w.short, w.printable, ?_, ?_, ?_⟩
      · intro prior hp
        rw [FileTree.hasFile_congr files]
        exact w.way prior hp
      · intro entry he folders' more' split some'
        rw [FileTree.hasFile_congr files]
        exact w.folders entry he folders' more' split some'
      · intro entry he
        refine Bool.eq_false_iff.mpr fun there => ?_
        rcases (directories _).mp there with old | same
        · rw [w.files entry he] at old
          cases old
        · exact h.place_ne hm' some he same
  · rintro ⟨⟩
    rcases FileTree.makeDirectory_error failed with located | ⟨other, -⟩
    · exact leads.not_missing name (by rwa [Path.below_below])
    · cases other
  · rcases FileTree.makeDirectory_error failed with located | ⟨-, file⟩
    · exact (ready c).locate_error hm leads located
    · rw [(ready c).folders _ hm' _ _ rfl some] at file
      cases file

omit h in
theorem goes_writeFile (hm : (folders ++ [name], m) ∈ layout) (leads : t.Leads (out.below folders))
    (ready : C → Writable p out layout t) (text : String) :
    Writing.Goes (Refused C) (Writing.change (·.writeFile (out.below (folders ++ [name])) text)) t
      fun _ t' => t.writeFile (out.below (folders ++ [name])) text = .ok t' := by
  refine Writing.goes_change (fun t' written => written) fun e failed => ⟨nofun, ?_, fun c => ?_⟩
  · rintro ⟨⟩
    rcases FileTree.writeFile_error failed with located | ⟨other, -⟩
    · exact leads.not_missing name (by rwa [Path.below_below])
    · cases other
  · rcases FileTree.writeFile_error failed with located | ⟨-, directory⟩
    · exact (ready c).locate_error hm leads located
    · rw [(ready c).files _ hm] at directory
      cases directory

theorem Writable.writeFile (he : entry ∈ layout) (w : Writable p out layout t) {text : String}
    (written : t.writeFile (out.below entry.1) text = .ok t') : Writable p out layout t' := by
  obtain ⟨-, -, directories, -⟩ := FileTree.writeFile_ok written
  have free {place : Place} (old : t.hasFile place = false) (other : place ≠ (out.below entry.1).place) :
      t'.hasFile place = false := by
    refine Bool.eq_false_iff.mpr fun file => ?_
    rcases (FileTree.hasFile_writeFile written place).mp file with file | same
    · rw [old] at file
      cases file
    · exact other same
  refine ⟨w.accepted, w.short, w.printable, ?_, ?_, ?_⟩
  · intro prior hp
    obtain ⟨old, others⟩ := w.way prior hp
    exact ⟨free old (others entry he).symm, others⟩
  · intro other ho folders more split some
    have ho' : (folders ++ more, other.2) ∈ layout := split ▸ ho
    exact free (w.folders other ho folders more split some) (h.place_ne ho' some he).symm
  · intro other ho
    rw [FileTree.hasDirectory, directories]
    exact w.files other ho

theorem goes_moduleFile (hm : (folders ++ [name], m) ∈ layout)
    (leads : t.Leads (out.below folders)) (ready : C → Writable p out layout t) :
    Writing.Goes (Refused C) (Writing.moduleFile p (out.below (folders ++ [name])) m) t
      fun _ t' => Written p out layout t' (folders ++ [name]) ∧ Continued p out layout C t t' := by
  refine (goes_writeFile hm leads ready "").bind fun _ t₁ emptied => ?_
  have still₁ := FileTree.extends_writeFile emptied
  have ready₁ : C → Writable p out layout t₁ := fun c => (ready c).writeFile h hm emptied
  cases printed : p.moduleLines m with
  | error e =>
    refine Writing.goes_throw ⟨nofun, nofun, fun c => ?_⟩
    obtain ⟨lines, other⟩ := (ready c).printable _ hm
    rw [printed] at other
    cases other
  | ok lines =>
    refine (goes_writeFile hm (leads.mono still₁) ready₁ (fileText lines)).imp fun _ t₂ filled => ?_
    have still₂ := FileTree.extends_writeFile filled
    obtain ⟨-, -, -, files₁⟩ := FileTree.writeFile_ok emptied
    obtain ⟨located, -, -, files₂⟩ := FileTree.writeFile_ok filled
    have own : Written p out layout t₂ (folders ++ [name]) := by
      refine ⟨m, lines, hm, printed, still₂.locate located, ?_⟩
      rw [files₂]
      exact mem_append_right _ mem_cons_self
    refine ⟨own, still₁.trans still₂, ?_, fun _ c => (ready₁ c).writeFile h hm filled⟩
    rintro file ⟨m', lines', hm', printed', located', there⟩
    by_cases same : file = folders ++ [name]
    · rwa [same]
    · have other : (out.below file).place ≠ (out.below (folders ++ [name])).place := by
        rw [h.place_file hm', h.place_file hm]
        exact fun equal => same (append_cancel_left equal)
      refine ⟨m', lines', hm', printed', (still₁.trans still₂).locate located', ?_⟩
      rw [files₂, files₁]
      simp [there, other]

end

def AllWritten (p : Printer) (out : Path) (layout : List (List String × Module)) (C : Prop)
    (part : List (List String × Module)) (t t' : FileTree) : Prop :=
  (∀ entry ∈ part, Written p out layout t' entry.1) ∧ Continued p out layout C t t'

theorem goes_isDirectory {path : Path} (leads : t.Leads path) :
    Writing.Goes (Refused C) (Writing.ask (·.isDirectory path)) t
      fun there t' => t' = t ∧ (there = false → Refused C .noDirectory) := by
  have there : t.isDirectory path = .ok true := by
    rw [FileTree.isDirectory, leads.1]
    exact congrArg Except.ok leads.2
  refine Writing.goes_ask (fun a ha => ?_) fun e failed => ?_
  · rw [there] at ha
    cases ha
    exact ⟨rfl, nofun⟩
  · rw [there] at failed
    cases failed

theorem writesBy_layout (p : Printer) (out : Path) (C : Prop) (h : IsLayout layout) :
    WritesBy p out layout (Refused C)
      (fun folders t => t.Leads (out.below folders) ∧ (C → Writable p out layout t))
      (AllWritten p out layout C) where
  nil t := ⟨nofun, .refl t⟩
  append := by
    rintro a b t t' t'' ⟨first, grown⟩ ⟨rest, grown'⟩
    refine ⟨fun entry he => ?_, grown.trans grown'⟩
    rcases mem_append.mp he with he | he
    · exact grown'.written _ (first entry he)
    · exact rest entry he
  still done ready := ⟨ready.1.mono done.2.still, done.2.writable ready.2⟩
  isDirectory ready := goes_isDirectory ready.1
  moduleFile hm ready := (goes_moduleFile h hm ready.1 ready.2).imp fun _ _ ⟨written, grown⟩ =>
    ⟨forall_mem_singleton.mpr written, grown⟩
  makeDirectory hm some ready := (goes_makeFolder h hm some ready.1 ready.2).imp
    fun _ _ ⟨leads, grown⟩ => ⟨⟨leads, grown.writable ready.2⟩, nofun, grown⟩

end

/-! The stub of a root module. -/

namespace Options

/-- The names on the way to the stub of a root module: the parts of its dotted name, with the suffix
behind the first. -/
def rootParts (o : Options) : List String :=
  match o.rootSuffix, splitText '.' o.moduleName with
  | some suffix, first :: rest => (first ++ suffix) :: rest
  | _, parts => parts

/-- The file of a root module, seen from the output directory. A root of one part with a suffix is
always a package. -/
def rootFile (o : Options) (m : Module) : List String :=
  if m.subModules.isEmpty && (1 < (splitText '.' o.moduleName).length || o.rootSuffix.isNone) then
    o.rootParts.dropLast ++ [m.name ++ "." ++ o.extension]
  else o.rootParts ++ ["__init__." ++ o.extension]

/-- The files of a root module and of all modules below it, seen from the output directory. -/
def layout (o : Options) (m : Module) : List (List String × Module) :=
  (o.rootFile m, m) :: layoutAll o.extension o.rootParts m.subModules

/-- The root module has the last part of the name that the options ask for, and all names are
identifiers. Neither the suffix nor the ending of the files leads out of a directory. -/
structure Names (o : Options) (m : Module) : Prop where
  parts : ∀ part ∈ splitText '.' o.moduleName, isIdentifier part = true
  last : (splitText '.' o.moduleName).getLast? = some m.name
  modules : ∀ m' ∈ m.family, isIdentifier m'.name = true
  suffix : ∀ s ∈ o.rootSuffix, '/' ∉ s.toList
  extension : '/' ∉ o.extension.toList

variable {o : Options} {m : Module}

/-- A stub is laid out like any other module in a directory, or it is a package with the suffix. -/
theorem Names.layout_cases (h : o.Names m) (out : String) :
    (∃ base, Destination.ofModule out o.moduleName o.rootSuffix =
        ⟨(Path.ofText out).below base, none⟩ ∧ (∀ name ∈ base, IsEntryName name) ∧
        o.layout m = m.layout o.extension base) ∨
      ∃ folder, Destination.ofModule out o.moduleName o.rootSuffix =
          ⟨Path.ofText out, some { parts := [folder] }⟩ ∧ IsEntryName folder ∧
        o.layout m = ([folder, "__init__." ++ o.extension], m) ::
          layoutAll o.extension [folder] m.subModules := by
  have single {base : List String} (parts : o.rootParts = base ++ [m.name])
      (flat : 1 < (splitText '.' o.moduleName).length ∨ o.rootSuffix.isNone = true) :
      o.layout m = m.layout o.extension base := by
    have file : o.rootFile m = base ++ m.filePath o.extension := by
      have flat : (decide (1 < (splitText '.' o.moduleName).length) || o.rootSuffix.isNone) = true := by
        simpa using flat
      rw [rootFile, parts, filePath, flat, Bool.and_true, dropLast_concat]
      split
      · rfl
      · rw [append_assoc, singleton_append]
    rw [layout, layout_eq, file, parts]
  obtain ⟨base, split⟩ := getLast?_eq_some_iff.mp h.last
  have valid (part : String) (hp : part ∈ base ++ [m.name]) : isIdentifier part = true :=
    h.parts part (split ▸ hp)
  cases hs : o.rootSuffix with
  | none =>
    left
    have root : o.rootParts = base ++ [m.name] := by rw [rootParts, hs, ← split]
    have named : ∀ part ∈ base, IsEntryName part := fun part hb =>
      isEntryName_identifier (valid part (mem_append_left _ hb))
    refine ⟨base, ?_, named, single root (.inr (by rw [hs]; rfl))⟩
    simp only [Destination.ofModule]
    rw [split, dropLast_concat, joinAll_eq named]
  | some s =>
    have inside : '/' ∉ s.toList := h.suffix s hs
    cases base with
    | nil =>
      right
      have entry : IsEntryName (m.name ++ s) :=
        isEntryName_append (valid m.name mem_cons_self) s inside
      have root : o.rootParts = [m.name ++ s] := by rw [rootParts, hs, split]; rfl
      refine ⟨m.name ++ s, ?_, entry, ?_⟩
      · unfold Destination.ofModule
        rw [split, ← entry.ofText]
        rfl
      · rw [layout, rootFile, root, hs, split]
        simp
    | cons first rest =>
      left
      have root : o.rootParts = ((first ++ s) :: rest) ++ [m.name] := by rw [rootParts, hs, split]; rfl
      have named : ∀ part ∈ (first ++ s) :: rest, IsEntryName part := by
        intro part hb
        rcases mem_cons.mp hb with rfl | hb
        · exact isEntryName_append (valid first mem_cons_self) s inside
        · exact isEntryName_identifier (valid part (.tail _ (mem_append_left _ hb)))
      refine ⟨(first ++ s) :: rest, ?_, named, single root (.inl (by simp [split]))⟩
      have several : ∃ second others, rest ++ [m.name] = second :: others := by
        cases rest with
        | nil => exact ⟨_, _, rfl⟩
        | cons second others => exact ⟨_, _, rfl⟩
      obtain ⟨second, others, hrest⟩ := several
      have directory : ((first ++ s) :: second :: others).dropLast = (first ++ s) :: rest := by
        rw [← hrest, ← cons_append, dropLast_concat]
      unfold Destination.ofModule
      rw [split, cons_append, hrest]
      dsimp only
      rw [directory, joinAll_eq named]

theorem Names.isLayout (h : o.Names m) : IsLayout (o.layout m) := by
  have below (directory : List String) (named : ∀ name ∈ directory, IsEntryName name)
      (files : ∀ entry ∈ o.layout m, IsFileBelow directory entry.1) : IsLayout (o.layout m) := by
    have all : ∀ file ∈ (o.layout m).map Prod.fst, IsFileBelow directory file := by
      intro file hf
      obtain ⟨entry, he, rfl⟩ := mem_map.mp hf
      exact files entry he
    refine ⟨?_, fun entry he => (files entry he).entries named, apart_of_below all⟩
    intro entry he
    obtain ⟨folders, name, file, -⟩ := files entry he
    simp [file]
  rcases h.layout_cases "" with ⟨base, -, named, split⟩ | ⟨folder, -, named, split⟩
  · refine below base named ?_
    rw [split]
    exact isFileBelow_layout h.extension base h.modules
  · refine below [folder] (by simpa using named) ?_
    rw [split]
    intro entry he
    rcases mem_cons.mp he with rfl | he
    · exact isFileBelow_file [folder] (s := "__init__") (by decide) h.extension
    · have modules := h.modules
      rw [family_eq] at modules
      exact isFileBelow_layoutAll h.extension [folder] (fun m' hm' => modules m' (.tail _ hm')) entry he

end Options

section

variable {p : Printer} {out : Path} {layout : List (List String × Module)} {t t' : FileTree}
  {base more : List String} {m : Module}

theorem Writable.free (w : Writable p out layout t) (hm : (base ++ more, m) ∈ layout)
    (some : more ≠ []) : Writing.Free (out.below base) t := by
  have whole : out.below (base ++ more) = (out.below base).below more := (out.below_below _ _).symm
  refine ⟨FileTree.accept_of_below (whole ▸ w.accepted _ hm), ?_, ?_⟩
  · intro part hp
    refine w.short _ hm part ?_
    rcases mem_append.mp hp with hp | hp
    · exact mem_append_left _ hp
    · exact mem_append_right _ (mem_append_left _ hp)
  · intro prior hp
    rcases Writing.mem_upTo_below hp with above | ⟨front, back, rfl, rfl⟩
    · exact (w.way prior above).1
    · refine w.folders _ hm front (back ++ more) (append_assoc _ _ _) ?_
      exact append_ne_nil_of_right_ne_nil _ some

theorem Writable.reached (h : IsLayout layout) (hm : (base ++ more, m) ∈ layout) (some : more ≠ [])
    (w : Writable p out layout t) (reached : Writing.Reached (out.below base) t t') :
    Writable p out layout t' := by
  refine ⟨w.accepted, w.short, w.printable, ?_, ?_, ?_⟩
  · intro prior hp
    rw [FileTree.hasFile_congr reached.files]
    exact w.way prior hp
  · intro entry he folders rest split some'
    rw [FileTree.hasFile_congr reached.files]
    exact w.folders entry he folders rest split some'
  · intro entry he
    refine Bool.eq_false_iff.mpr fun there => ?_
    rcases reached.new there with old | ⟨prior, hp, same⟩
    · rw [w.files entry he] at old
      cases old
    · rcases Writing.mem_upTo_below hp with above | ⟨front, back, rfl, rfl⟩
      · exact (w.way prior above).2 entry he same
      · rw [append_assoc] at hm
        exact h.place_ne hm (append_ne_nil_of_right_ne_nil _ some) he same

end

theorem mem_layoutAll {extension : String} {ms : List Module} {m : Module} (h : m ∈ ms) :
    (directory ++ m.filePath extension, m) ∈ layoutAll extension directory ms := by
  induction ms with
  | nil => cases h
  | cons first rest ih =>
    rw [layoutAll]
    rcases mem_cons.mp h with rfl | h
    · rw [layout_eq]
      exact mem_cons_self
    · exact mem_append_right _ (ih h)

mutual

theorem subModule_mem_layout {extension : String} {directory : List String} {m : Module}
    {entry : List String × Module} (he : entry ∈ m.layout extension directory) {sub : Module}
    (hs : sub ∈ entry.2.subModules) :
    (entry.1.dropLast ++ sub.filePath extension, sub) ∈ m.layout extension directory := by
  match m with
  | ⟨name, doc, classes, functions, subModules, attributes, imports, aliases, typeVariables⟩ =>
    rw [Module.layout] at he ⊢
    rcases mem_cons.mp he with rfl | he
    · dsimp only at hs ⊢
      rw [filePath_package (ne_nil_of_mem hs), dropLast_append_cons]
      exact .tail _ (mem_layoutAll hs)
    · exact .tail _ (subModule_mem_layoutAll he hs)

theorem subModule_mem_layoutAll {extension : String} {directory : List String} {ms : List Module}
    {entry : List String × Module} (he : entry ∈ layoutAll extension directory ms)
    {sub : Module} (hs : sub ∈ entry.2.subModules) :
    (entry.1.dropLast ++ sub.filePath extension, sub) ∈ layoutAll extension directory ms := by
  match ms with
  | [] =>
    rw [layoutAll] at he
    cases he
  | m :: ms =>
    rw [layoutAll] at he ⊢
    rcases mem_append.mp he with he | he
    · exact mem_append_left _ (subModule_mem_layout he hs)
    · exact mem_append_right _ (subModule_mem_layoutAll he hs)

end

namespace Options

variable {o : Options} {m : Module}

theorem Names.goes_write (h : o.Names m) (outputDirectory : String) (t : FileTree) :
    Writing.Goes (Refused (Writable o.printer (Path.ofText outputDirectory) (o.layout m) t))
      (o.write outputDirectory m) t fun _ t' => ∀ entry ∈ o.layout m,
        Written o.printer (Path.ofText outputDirectory) (o.layout m) t' entry.1 := by
  have modules := h.modules
  have isLayout := h.isLayout
  unfold Options.write
  rcases h.layout_cases outputDirectory with ⟨base, destination, -, split⟩ |
    ⟨folder, destination, named, split⟩
  · rw [destination]
    have root : (base ++ m.filePath o.extension, m) ∈ o.layout m := by
      rw [split, layout_eq]
      exact mem_cons_self
    have some : m.filePath o.extension ≠ [] := by
      unfold filePath
      split <;> exact cons_ne_nil _ _
    refine (Writing.goes_makeDirectories fun w => w.free root some).bind fun _ t₁ reached => ?_
    refine ((writesBy_layout _ _ _ isLayout).write h.extension base modules (fun entry he => split ▸ he)
      ⟨reached.leads, fun w => w.reached isLayout root some reached⟩).imp ?_
    rintro _ t' ⟨written, -⟩
    rwa [split] at written ⊢
  · rw [destination]
    have root : ([] ++ [folder, "__init__." ++ o.extension], m) ∈ o.layout m := by
      rw [split]
      exact mem_cons_self
    have some := cons_ne_nil folder ["__init__." ++ o.extension]
    have out := (Path.ofText outputDirectory).below_nil
    refine (Writing.goes_makeDirectories fun w => out ▸ w.free root some).bind fun _ t₁ reached => ?_
    have rule := writesBy_layout o.printer (Path.ofText outputDirectory)
      (Writable o.printer (Path.ofText outputDirectory) (o.layout m) t) isLayout
    have made := rule.makeDirectory root (cons_ne_nil _ _)
      ⟨out.symm ▸ reached.leads, fun w => w.reached isLayout root some (out.symm ▸ reached)⟩
    refine (rule.writeAs h.extension rfl modules (fun entry he => split ▸ he)
      (goes_isDirectory reached.leads) made).imp ?_
    rintro _ t' ⟨written, -⟩
    rwa [split] at written ⊢

theorem layout_modules (o : Options) (m : Module) : (o.layout m).map Prod.snd = m.family := by
  rw [layout, map_cons, layoutAll_modules, family_eq]

theorem Names.subModule_mem_layout (h : o.Names m) (he : entry ∈ o.layout m) {sub : Module}
    (hs : sub ∈ entry.2.subModules) :
    (entry.1.dropLast ++ sub.filePath o.extension, sub) ∈ o.layout m := by
  rcases h.layout_cases "" with ⟨base, -, -, split⟩ | ⟨folder, -, -, split⟩
  · rw [split] at he ⊢
    exact TypeStubs.subModule_mem_layout he hs
  · rw [split] at he ⊢
    rcases mem_cons.mp he with rfl | he
    · exact .tail _ (mem_layoutAll hs)
    · exact .tail _ (subModule_mem_layoutAll he hs)

/-- The files of a stub stand where they are imported from. Whatever is there before, writing a stub
never fails because a directory is missing, and it does not fail at all if its files can be written.
After it returned, there is a file for every module at its place in the layout, with the text of a
module that has this place. A line of a file that imports something from its own package imports a
sub-module with a file in the same directory, unless the line is one of the docstring or of the
module's own imports. -/
theorem stub_files_laid_out (o : Options) (m : Module) (outputDirectory : String)
    (names : o.Names m) (assigns : ∀ m' ∈ m.family, m'.Assigns) {t t' : FileTree}
    {r : Except WriteError Unit} (run : (o.write outputDirectory m).run.run t = (r, t')) :
    (o.layout m).map Prod.snd = m.family ∧
    r ≠ .error .noDirectory ∧ r ≠ .error (.file .missing) ∧
    (Writable o.printer (Path.ofText outputDirectory) (o.layout m) t → r = .ok ()) ∧
    (r = .ok () → ∀ entry ∈ o.layout m,
      Written o.printer (Path.ofText outputDirectory) (o.layout m) t' entry.1) ∧
    ∀ entry ∈ o.layout m, ∀ lines, o.printer.moduleLines entry.2 = .ok lines →
      ∀ x, o.printer.subModuleLine x ∈ lines →
        (∃ doc, entry.2.doc = some doc ∧ o.printer.subModuleLine x ∈ o.printer.docstringLines doc) ∨
        (∃ i ∈ entry.2.imports, o.printer.importLine i = o.printer.subModuleLine x) ∨
        ∃ sub, sub.name = x ∧ (entry.1.dropLast ++ sub.filePath o.extension, sub) ∈ o.layout m := by
  have goes := names.goes_write outputDirectory t
  refine ⟨o.layout_modules m, ?_, ?_, ?_, ?_, ?_⟩
  · rintro rfl
    exact (goes.error run).1 rfl
  · rintro rfl
    exact (goes.error run).2.1 rfl
  · intro writable
    cases r with
    | error e => exact absurd writable (goes.error run).2.2
    | ok _ => rfl
  · rintro rfl
    exact goes.ok run
  · intro entry he lines printed x hx
    have known : entry.2 ∈ m.family := by
      rw [← o.layout_modules m]
      exact mem_map_of_mem he
    rcases Printer.relative_import_cases (assigns _ known) printed hx with doc | imported | ⟨sub, hs, hn⟩
    · exact .inl doc
    · exact .inr (.inl imported)
    · exact .inr (.inr ⟨sub, hn, names.subModule_mem_layout he hs⟩)

end Options

theorem hasDirectory_empty {place : Place} {name : String} (hn : name ∈ place)
    (entry : IsEntryName name) : ({} : FileTree).hasDirectory place = false := by
  have around : FileTree.isAround place = false := by
    refine Bool.eq_false_iff.mpr fun all => ?_
    exact entry.ne_up (by simpa using all_eq_true.mp all name hn)
  have other (root : String) (hr : '/' ∈ root.toList) : place ≠ [root] := by
    rintro rfl
    rw [mem_singleton.mp hn] at entry
    exact entry.inside hr
  simp [FileTree.hasDirectory, around, other "/" (by decide), other "//" (by decide)]

theorem writable_empty {p : Printer} {out : Path} {layout : List (List String × Module)}
    (h : IsLayout layout) (down : ".." ∉ out.parts)
    (accepted : ∀ entry ∈ layout, FileTree.accept (out.below entry.1) = .ok ())
    (short : ∀ entry ∈ layout, ∀ name ∈ out.parts ++ entry.1,
      name.utf8ByteSize ≤ FileTree.nameLimit)
    (printable : ∀ entry ∈ layout, ∃ lines, p.moduleLines entry.2 = .ok lines) :
    Writable p out layout {} := by
  refine ⟨accepted, fun entry he name hn => .inr (short entry he name hn), printable, ?_,
    fun _ _ _ _ _ _ => rfl, ?_⟩
  · intro prior hp
    refine ⟨rfl, fun entry he same => ?_⟩
    obtain ⟨n, -, rfl⟩ := mem_map.mp hp
    have shorter : Path.place { out with parts := out.parts.take n } =
        FileTree.start out ++ out.parts.take n :=
      FileTree.foldl_behind _ fun up => down (mem_of_mem_take up)
    have whole : out.place = FileTree.start out ++ out.parts := FileTree.foldl_behind _ down
    rw [h.place_file he, shorter, whole] at same
    have lengths := congrArg length same
    have some := length_pos_of_ne_nil (h.ne_nil entry he)
    simp only [length_append, length_take] at lengths
    omega
  · intro entry he
    rw [h.place_file he]
    have last := getLast_mem (h.ne_nil entry he)
    exact hasDirectory_empty (mem_append_right _ last) (h.entries entry he _ last)

/-- A package with a module and with a package of its own. -/
def shapes : Module :=
  { name := "shapes", subModules := [{ name := "flat" },
    { name := "solid", doc := some "Solids.", subModules := [{ name := "cube" }] }] }

def shapesOptions : Options := { moduleName := "geo.shapes", rootSuffix := some "-stubs" }

/-- The files of the package stand below the directory with the suffix. -/
theorem shapes_laid_out :
    (shapesOptions.layout shapes).map Prod.fst = [["geo-stubs", "shapes", "__init__.pyi"],
        ["geo-stubs", "shapes", "flat.pyi"], ["geo-stubs", "shapes", "solid", "__init__.pyi"],
        ["geo-stubs", "shapes", "solid", "cube.pyi"]] ∧
      ((shapesOptions.write "out" shapes).run.run {}).1 = .ok () ∧
      ∀ entry ∈ shapesOptions.layout shapes,
        Written shapesOptions.printer (Path.ofText "out") (shapesOptions.layout shapes)
          ((shapesOptions.write "out" shapes).run.run {}).2 entry.1 := by
  have names : shapesOptions.Names shapes :=
    ⟨by decide +kernel, by decide +kernel, by decide +kernel, by decide +kernel, by decide +kernel⟩
  have plain : ∀ m' ∈ shapes.family,
      m'.attributes.length + m'.aliases.length + m'.typeVariables.length = 0 := by decide +kernel
  have assigns : ∀ m' ∈ shapes.family, m'.Assigns := by
    intro m' hm'
    have empty := plain m' hm'
    have attributes : m'.attributes = [] := length_eq_zero_iff.mp (by omega)
    have aliases : m'.aliases = [] := length_eq_zero_iff.mp (by omega)
    have typeVariables : m'.typeVariables = [] := length_eq_zero_iff.mp (by omega)
    exact ⟨by simp [attributes], by simp [aliases], by simp [typeVariables]⟩
  have short : ∀ entry ∈ shapesOptions.layout shapes,
      '\x00' ∉ ((Path.ofText "out").below entry.1).text.toList ∧
        ((Path.ofText "out").below entry.1).text.utf8ByteSize ≤ FileTree.pathLimit := by decide +kernel
  have printed : ∀ entry ∈ shapesOptions.layout shapes,
      (shapesOptions.printer.moduleLines entry.2).isOk = true := by decide +kernel
  have writable : Writable shapesOptions.printer (Path.ofText "out") (shapesOptions.layout shapes) {} := by
    refine writable_empty names.isLayout (by decide) ?_ (by decide +kernel) ?_
    · exact fun entry he => (FileTree.accept_ok_iff _).mpr (short entry he)
    · intro entry he
      have ok := printed entry he
      cases h : shapesOptions.printer.moduleLines entry.2 with
      | ok lines => exact ⟨lines, rfl⟩
      | error e =>
        rw [h] at ok
        cases ok
  obtain ⟨-, -, -, succeeds, written, -⟩ :=
    Options.stub_files_laid_out shapesOptions shapes "out" names assigns (Prod.eta _).symm
  have ok := succeeds writable
  exact ⟨by decide +kernel, ok, written ok⟩

/-- A way that passes the place of a file by a step up makes a directory there, and the file cannot be
written. A line of a docstring reads like an import of a module that has no file. -/
theorem stub_files_obstructed :
    ((({ moduleName := "m" } : Options).write "m.pyi/.." { name := "m" }).run.run {}).1 =
        .error (.file .isDirectory) ∧
      let m : Module := { name := "m", doc := some "from . import foo" }
      ∃ lines, ({} : Printer).moduleLines m = .ok lines ∧ ({} : Printer).subModuleLine "foo" ∈ lines ∧
        (({ moduleName := "m" } : Options).layout m).map Prod.fst = [["m.pyi"]] := by
  refine ⟨by decide +kernel, ?_⟩
  exact ⟨_, by rfl, by decide +kernel, by decide +kernel⟩

end TypeStubs
