import TypeStubs.Proofs.StubLayout

/-! Which files of a stub are written over. The modules of a stub are written in the order of its
layout, each in place of what is there, so a file holds the lines of the last module with its place.
Two modules share a place in one case only: a package whose sub-module has the name of an initial file
and no sub-modules of its own. -/

namespace TypeStubs

open List TypeStubs.Module

variable {ms : List Module} {sub : Module}

namespace FileTree

/-- The files after one more was written. -/
def put (files : List (Place × String)) (file : Place × String) : List (Place × String) :=
  files.filter (·.1 ≠ file.1) ++ [file]

variable {files later : List (Place × String)} {file : Place × String} {place : Place} {text : String}

theorem put_put (files : List (Place × String)) (place : Place) (old new : String) :
    put (put files (place, old)) (place, new) = put files (place, new) := by
  simp [put, filter_filter]

theorem mem_put_self : (file.1, text) ∈ put files file ↔ text = file.2 := by
  simp [put, Prod.ext_iff]

theorem mem_put_other (other : file.1 ≠ place) :
    (place, text) ∈ put files file ↔ (place, text) ∈ files := by
  simp only [put, mem_append, mem_filter, mem_singleton, Prod.ext_iff]
  constructor
  · rintro (⟨old, -⟩ | ⟨same, -⟩)
    · exact old
    · exact absurd same.symm other
  · intro old
    exact .inl ⟨old, by simpa using other.symm⟩

theorem mem_foldl_put_other (others : ∀ file ∈ later, file.1 ≠ place) :
    (place, text) ∈ later.foldl put files ↔ (place, text) ∈ files := by
  induction later generalizing files with
  | nil => rfl
  | cons file later ih =>
    rw [foldl_cons, ih fun f hf => others f (.tail _ hf)]
    exact mem_put_other (others file mem_cons_self)

theorem mem_foldl_put_last (earlier : List (Place × String)) (file : Place × String)
    (others : ∀ f ∈ later, f.1 ≠ file.1) :
    (file.1, text) ∈ (earlier ++ file :: later).foldl put files ↔ text = file.2 := by
  rw [foldl_append, foldl_cons, mem_foldl_put_other others]
  exact mem_put_self

end FileTree

/-! The order of the writes. -/

def Printer.moduleText (p : Printer) (m : Module) : String :=
  match p.moduleLines m with
  | .ok lines => fileText lines
  | .error _ => ""

/-- The files of a part of a layout were written in order, and nothing else was. -/
structure Filled (p : Printer) (out : Path) (part : List (List String × Module))
    (t t' : FileTree) : Prop where
  printed : ∀ entry ∈ part, ∃ lines, p.moduleLines entry.2 = .ok lines
  files : t'.files = (part.map fun entry =>
    ((out.below entry.1).place, p.moduleText entry.2)).foldl FileTree.put t.files

section

variable {p : Printer} {out : Path} {part more : List (List String × Module)} {t t' t'' : FileTree}

theorem Filled.nil (t : FileTree) : Filled p out [] t t :=
  ⟨fun _ h => absurd h not_mem_nil, rfl⟩

theorem Filled.append (h : Filled p out part t t') (h' : Filled p out more t' t'') :
    Filled p out (part ++ more) t t'' := by
  constructor
  · intro entry he
    rcases mem_append.mp he with he | he
    · exact h.printed entry he
    · exact h'.printed entry he
  · rw [h'.files, h.files, map_append, foldl_append]

theorem goes_fillModule (file : List String) (m : Module) (t : FileTree) :
    Writing.Goes (fun _ => True) (Writing.moduleFile p (out.below file) m) t
      fun _ t' => Filled p out [(file, m)] t t' := by
  refine (Writing.goes_change (Q := fun _ t₁ => t.writeFile (out.below file) "" = .ok t₁)
    (fun _ emptied => emptied) fun _ _ => trivial).bind ?_
  intro _ t₁ emptied
  obtain ⟨-, -, -, files₁⟩ := FileTree.writeFile_ok emptied
  cases printed : p.moduleLines m with
  | error e => exact Writing.goes_throw trivial
  | ok lines =>
    refine Writing.goes_change (fun t₂ filled => ?_) fun _ _ => trivial
    obtain ⟨-, -, -, files₂⟩ := FileTree.writeFile_ok filled
    have text : p.moduleText m = fileText lines := by rw [Printer.moduleText, printed]
    constructor
    · intro entry he
      rw [mem_singleton.mp he]
      exact ⟨lines, printed⟩
    · change t₁.files = FileTree.put t.files ((out.below file).place, "") at files₁
      change t₂.files = FileTree.put t₁.files ((out.below file).place, fileText lines) at files₂
      rw [files₂, files₁, FileTree.put_put, ← text]
      rfl

theorem goes_fillFolder (path : Path) (t : FileTree) :
    Writing.Goes (fun _ => True) (Writing.change (·.makeDirectory path)) t
      fun _ t' => Filled p out [] t t' :=
  Writing.goes_change (fun _ made => ⟨forall_mem_nil _, FileTree.files_makeDirectory made⟩)
    fun _ _ => trivial

theorem writesBy_filling (p : Printer) (out : Path) (layout : List (List String × Module)) :
    WritesBy p out layout (fun _ => True) (fun _ _ => True) (Filled p out) where
  nil := .nil
  append := .append
  still _ _ := trivial
  isDirectory _ := Writing.goes_ask (fun _ _ => ⟨rfl, fun _ => trivial⟩) fun _ _ => trivial
  moduleFile _ _ := goes_fillModule _ _ _
  makeDirectory _ _ _ := (goes_fillFolder _ _).imp fun _ _ filled => ⟨trivial, filled⟩

end

/-! Which modules share a place. -/

/-- The sub-module of a package that is named like an initial file and is no package itself. Its file
is the initial file of the package. -/
def Module.initialModule? (m : Module) : Option Module :=
  m.subModules.find? fun sub => sub.name = "__init__" && sub.subModules.isEmpty

theorem Module.mem_initialModule? {m : Module} (h : sub ∈ m.initialModule?) :
    sub ∈ m.subModules ∧ sub.name = "__init__" ∧ sub.subModules = [] := by
  have found := find?_some h
  simp only [Bool.and_eq_true, decide_eq_true_eq, List.isEmpty_iff] at found
  exact ⟨mem_of_find?_eq_some h, found⟩

/-- The files of a package in a directory of its own, and of all modules below it. -/
def Module.packageLayout (extension : String) (inner : List String) (m : Module) :
    List (List String × Module) :=
  (inner ++ ["__init__." ++ extension], m) :: layoutAll extension inner m.subModules

theorem Module.layout_package {extension : String} {directory : List String} {m : Module}
    (h : m.subModules ≠ []) :
    m.layout extension directory = m.packageLayout extension (directory ++ [m.name]) := by
  rw [layout_eq, filePath_package h, packageLayout, append_assoc, singleton_append]

theorem mem_layoutAll_iff {extension : String} {directory : List String}
    {entry : List String × Module} : entry ∈ layoutAll extension directory ms ↔
      ∃ m ∈ ms, entry ∈ m.layout extension directory := by
  induction ms with
  | nil => simp [layoutAll]
  | cons m ms ih => simp [layoutAll, ih]

theorem Module.mem_families {m : Module} : m ∈ families ms ↔ ∃ m' ∈ ms, m ∈ m'.family := by
  induction ms with
  | nil => simp [families]
  | cons first rest ih => simp [families, ih]

section

variable {extension : String} {directory : List String} {m n : Module} {a b : List String × Module}

section

variable (he : '/' ∉ extension.toList)

include he

/-- The file of a module that is no package stands in the directory itself. All other files of its
layout stand below its own name. -/
theorem Module.layout_step
    (names : ∀ m' ∈ m.family, isIdentifier m'.name = true) (ha : a ∈ m.layout extension directory) :
    (∃ rest, rest ≠ [] ∧ a.1 = directory ++ m.name :: rest) ∨
      m.subModules = [] ∧ a.1 = directory ++ [m.name ++ "." ++ extension] := by
  rw [family_eq] at names
  rw [layout_eq] at ha
  rcases mem_cons.mp ha with rfl | below
  · cases subs : m.subModules with
    | nil =>
      right
      exact ⟨rfl, by simp [filePath, subs]⟩
    | cons sub more =>
      left
      refine ⟨["__init__." ++ extension], cons_ne_nil _ _, ?_⟩
      rw [filePath_package (by simp [subs])]
  · left
    obtain ⟨folders, name, path, -⟩ := isFileBelow_layoutAll he (directory ++ [m.name])
      (fun m' hm' => names m' (.tail _ hm')) a below
    refine ⟨folders ++ [name], by simp, ?_⟩
    rw [path, append_assoc, singleton_append]

theorem Module.layout_apart (hm : ∀ m' ∈ m.family, isIdentifier m'.name = true)
    (hn : ∀ m' ∈ n.family, isIdentifier m'.name = true) (other : m.name ≠ n.name)
    (ha : a ∈ m.layout extension directory) (hb : b ∈ n.layout extension directory) : a.1 ≠ b.1 := by
  intro same
  rcases layout_step he hm ha with ⟨rest, some, path⟩ | ⟨-, path⟩
  · rcases layout_step he hn hb with ⟨rest', some', path'⟩ | ⟨-, path'⟩
    · rw [path, path', append_cancel_left_eq, List.cons.injEq] at same
      exact other same.1
    · rw [path, path', append_cancel_left_eq, List.cons.injEq] at same
      exact some same.2
  · rcases layout_step he hn hb with ⟨rest', some', path'⟩ | ⟨-, path'⟩
    · rw [path, path', append_cancel_left_eq, List.cons.injEq] at same
      exact some' same.2.symm
    · rw [path, path', append_cancel_left_eq, List.cons.injEq, String.append_assoc,
        String.append_assoc, String.append_left_inj] at same
      exact other same.1

/-- A file of the sub-modules of a package that is the initial file of the package belongs to a
sub-module with that name. -/
theorem Module.initialModule?_of_shared
    (names : ∀ m' ∈ families m.subModules, isIdentifier m'.name = true)
    (hb : b ∈ layoutAll extension directory m.subModules)
    (same : directory ++ ["__init__." ++ extension] = b.1) : m.initialModule?.isSome = true := by
  obtain ⟨sub, hs, hb⟩ := mem_layoutAll_iff.mp hb
  have named : ∀ m' ∈ sub.family, isIdentifier m'.name = true := by
    intro m' hm'
    exact names m' (mem_families.mpr ⟨sub, hs, hm'⟩)
  rcases layout_step he named hb with ⟨rest, some, path⟩ | ⟨bare, path⟩
  · rw [path, append_cancel_left_eq, List.cons.injEq] at same
    exact absurd same.2.symm some
  · have init : "__init__." ++ extension = "__init__" ++ ("." ++ extension) := by
      rw [← String.append_assoc]
      rfl
    rw [path, append_cancel_left_eq, List.cons.injEq, init, String.append_assoc,
      String.append_left_inj] at same
    rw [initialModule?, find?_isSome]
    exact ⟨sub, hs, by simp [← same.1, bare]⟩

/-- A file of a layout is written again only if it is the initial file of a package with a sub-module
of that name. -/
def WrittenOnce (layout : List (List String × Module)) : Prop :=
  layout.Pairwise fun a b => a.1 = b.1 → a.2.initialModule?.isSome = true

theorem Module.writtenOnce_package
    (names : ∀ m' ∈ families m.subModules, isIdentifier m'.name = true)
    (inner : WrittenOnce (layoutAll extension directory m.subModules)) :
    WrittenOnce (m.packageLayout extension directory) := by
  apply pairwise_cons.mpr
  constructor
  · intro b hb same
    exact initialModule?_of_shared he names hb same
  · exact inner

mutual

theorem Module.writtenOnce_layout (directory : List String) {m : Module}
    (names : ∀ m' ∈ m.family, isIdentifier m'.name = true)
    (siblings : ∀ m' ∈ m.family, (m'.subModules.map name).Nodup) :
    WrittenOnce (m.layout extension directory) := by
  match m with
  | ⟨name, doc, classes, functions, [], attributes, imports, aliases, typeVariables⟩ =>
    rw [layout, layoutAll]
    exact pairwise_singleton _ _
  | ⟨name, doc, classes, functions, sub :: subs, attributes, imports, aliases, typeVariables⟩ =>
    rw [family] at names siblings
    rw [layout_package (cons_ne_nil sub subs)]
    refine writtenOnce_package he (fun m' hm' => names m' (.tail _ hm')) ?_
    exact writtenOnce_layoutAll _ (fun m' hm' => names m' (.tail _ hm'))
      (fun m' hm' => siblings m' (.tail _ hm')) (siblings _ mem_cons_self)

theorem Module.writtenOnce_layoutAll (directory : List String)
    {ms : List Module} (names : ∀ m' ∈ families ms, isIdentifier m'.name = true)
    (siblings : ∀ m' ∈ families ms, (m'.subModules.map name).Nodup)
    (apart : (ms.map name).Nodup) : WrittenOnce (layoutAll extension directory ms) := by
  match ms with
  | [] =>
    rw [layoutAll]
    exact Pairwise.nil
  | m :: ms =>
    rw [families] at names siblings
    rw [map_cons, nodup_cons] at apart
    have own : ∀ m' ∈ m.family, isIdentifier m'.name = true := fun m' hm' =>
      names m' (mem_append_left _ hm')
    have others : ∀ m' ∈ families ms, isIdentifier m'.name = true := fun m' hm' =>
      names m' (mem_append_right _ hm')
    rw [layoutAll]
    apply pairwise_append.mpr
    refine ⟨?_, ?_, ?_⟩
    · exact writtenOnce_layout directory own fun m' hm' =>
        siblings m' (mem_append_left _ hm')
    · exact writtenOnce_layoutAll directory others
        (fun m' hm' => siblings m' (mem_append_right _ hm')) apart.2
    · intro a ha b hb same
      obtain ⟨n, hn, hb⟩ := mem_layoutAll_iff.mp hb
      have named : ∀ m' ∈ n.family, isIdentifier m'.name = true := fun m' hm' =>
        others m' (mem_families.mpr ⟨n, hn, hm'⟩)
      have other : m.name ≠ n.name := fun equal => apart.1 (equal ▸ mem_map_of_mem hn)
      exact absurd same (layout_apart he own named other ha hb)

end

end

/-! The sub-module that shares the file of its package has an entry in the layout, after that of the
package. -/

mutual

theorem Module.layout_filePath {directory : List String} {m : Module}
    (ha : a ∈ m.layout extension directory) : ∃ folders, a.1 = folders ++ a.2.filePath extension := by
  match m with
  | ⟨name, doc, classes, functions, subModules, attributes, imports, aliases, typeVariables⟩ =>
    rw [layout] at ha
    rcases mem_cons.mp ha with rfl | ha
    · exact ⟨directory, rfl⟩
    · exact layoutAll_filePath ha

theorem Module.layoutAll_filePath {directory : List String} {ms : List Module}
    (ha : a ∈ layoutAll extension directory ms) :
    ∃ folders, a.1 = folders ++ a.2.filePath extension := by
  match ms with
  | [] =>
    rw [layoutAll] at ha
    cases ha
  | m :: ms =>
    rw [layoutAll] at ha
    rcases mem_append.mp ha with ha | ha
    · exact layout_filePath ha
    · exact layoutAll_filePath ha

end

theorem Module.filePath_initialModule? (h : sub ∈ m.initialModule?) :
    sub.filePath extension = ["__init__." ++ extension] := by
  obtain ⟨-, name, bare⟩ := mem_initialModule? h
  rw [filePath, bare, name]
  rfl

/-- The path of a package, less its last step, with the file of the sub-module behind it, is the path
of the package again. -/
theorem Module.dropLast_initialModule? (ha : ∃ folders, a.1 = folders ++ a.2.filePath extension)
    (h : sub ∈ a.2.initialModule?) : a.1.dropLast ++ sub.filePath extension = a.1 := by
  obtain ⟨folders, path⟩ := ha
  have package := ne_nil_of_mem (mem_initialModule? h).1
  rw [filePath_initialModule? h, path, filePath_package package, dropLast_append_cons, append_assoc]
  rfl

theorem Module.initialModule?_mem_layout (ha : a ∈ m.layout extension directory)
    (h : sub ∈ a.2.initialModule?) : (a.1, sub) ∈ m.layout extension directory := by
  have found := subModule_mem_layout ha (mem_initialModule? h).1
  rwa [dropLast_initialModule? (layout_filePath ha) h] at found

theorem Module.initialModule?_mem_packageLayout (ha : a ∈ m.packageLayout extension directory)
    (h : sub ∈ a.2.initialModule?) : (a.1, sub) ∈ m.packageLayout extension directory := by
  have inside := (mem_initialModule? h).1
  rcases mem_cons.mp ha with rfl | below
  · have found : (directory ++ sub.filePath extension, sub) ∈
        layoutAll extension directory m.subModules := mem_layoutAll inside
    rw [filePath_initialModule? h] at found
    exact .tail _ found
  · have found := subModule_mem_layoutAll below inside
    rw [dropLast_initialModule? (layoutAll_filePath below) h] at found
    exact .tail _ found

end

/-! What the files of a stub hold. -/

def FileTree.HoldsLines (t : FileTree) (place : Place) (lines : List String) : Prop :=
  ∀ text, (place, text) ∈ t.files ↔ text = fileText lines

section

variable {p : Printer} {out : Path} {part : List (List String × Module)} {t t' : FileTree}
  {entry : List String × Module}

theorem Filled.holdsLines (h : Filled p out part t t') (once : WrittenOnce part)
    (down : ∀ entry ∈ part, ".." ∉ entry.1) (he : entry ∈ part)
    (last : entry.2.initialModule? = none) :
    ∃ lines, p.moduleLines entry.2 = .ok lines ∧
      t'.HoldsLines (out.below entry.1).place lines := by
  obtain ⟨lines, printed⟩ := h.printed entry he
  refine ⟨lines, printed, ?_⟩
  obtain ⟨earlier, later, rfl⟩ := append_of_mem he
  have behind : ∀ b ∈ later, (out.below b.1).place ≠ (out.below entry.1).place := by
    intro b hb same
    have hb' : b ∈ earlier ++ entry :: later := mem_append_right _ (.tail _ hb)
    rw [Path.place_below _ (down b hb'), Path.place_below _ (down entry he),
      append_cancel_left_eq] at same
    have shared := (pairwise_cons.mp (pairwise_append.mp once).2.1).1 b hb same.symm
    rw [last] at shared
    cases shared
  intro text
  rw [h.files, map_append, map_cons]
  rw [FileTree.mem_foldl_put_last _ ((out.below entry.1).place, p.moduleText entry.2)]
  · rw [Printer.moduleText, printed]
  · intro f hf
    obtain ⟨b, hb, rfl⟩ := mem_map.mp hf
    exact behind b hb

/-- A sub-module that is named like an initial file and is no package shares its place with nothing
below it, so the file of its package holds its lines. -/
theorem Filled.files_hold (h : Filled p out part t t') (once : WrittenOnce part)
    (down : ∀ entry ∈ part, ".." ∉ entry.1)
    (shared : ∀ entry ∈ part, ∀ sub ∈ entry.2.initialModule?, (entry.1, sub) ∈ part) :
    ∀ file ∈ part.map fun entry => (out.below entry.1, entry.2),
      (file.2.initialModule? = none → ∃ lines, p.moduleLines file.2 = .ok lines ∧
        t'.HoldsLines file.1.place lines) ∧
      ∀ sub ∈ file.2.initialModule?, ∃ lines, p.moduleLines sub = .ok lines ∧
        t'.HoldsLines file.1.place lines := by
  intro file hf
  obtain ⟨entry, he, rfl⟩ := mem_map.mp hf
  constructor
  · exact h.holdsLines once down he
  · intro sub hs
    have bare : sub.initialModule? = none := by
      rw [initialModule?, (mem_initialModule? hs).2.2]
      rfl
    exact h.holdsLines once down (shared entry he sub hs) bare

end

/-- The files of a module that is written into a directory, each with the module that it is for. If a
directory for the package is given, the module is written as a package there. -/
def Module.files (extension : String) (directory : Path) (package : Option Path) (m : Module) :
    List (Path × Module) :=
  match package with
  | none => (m.layout extension []).map fun entry => (directory.below entry.1, entry.2)
  | some inner => (m.packageLayout extension []).map fun entry =>
      ((directory.join inner).below entry.1, entry.2)

section

variable {p : Printer} {extension : String} {directory : Path} {m : Module} {t t' : FileTree}

theorem Module.packageLayout_down (he : '/' ∉ extension.toList)
    (names : ∀ m' ∈ m.family, isIdentifier m'.name = true) :
    ∀ entry ∈ m.packageLayout extension [], ".." ∉ entry.1 := by
  rw [family_eq] at names
  intro entry hentry up
  have below : IsFileBelow [] entry.1 := by
    rcases mem_cons.mp hentry with rfl | inner
    · exact isFileBelow_file [] (s := "__init__") (by decide) he
    · exact isFileBelow_layoutAll he [] (fun m' hm' => names m' (.tail _ hm')) entry inner
  exact (below.entries nofun _ up).ne_up rfl

theorem Module.layout_down (he : '/' ∉ extension.toList)
    (names : ∀ m' ∈ m.family, isIdentifier m'.name = true) :
    ∀ entry ∈ m.layout extension [], ".." ∉ entry.1 := by
  intro entry hentry up
  exact ((isFileBelow_layout he [] names entry hentry).entries nofun _ up).ne_up rfl

end

/-- No stub is written over another one, with one exception. After a module and the modules below it
were written, whatever was there before, the file of each of them holds exactly its lines, unless it
is a package with a sub-module that is named like the initial file of a package and is no package
itself. In that case the file of the package holds the lines of this sub-module. -/
theorem stub_files_hold_lines (p : Printer) (extension : String) (directory : Path)
    (package : Option Path) (m : Module) (he : '/' ∉ extension.toList)
    (names : ∀ m' ∈ m.family, isIdentifier m'.name = true)
    (siblings : ∀ m' ∈ m.family, (m'.subModules.map Module.name).Nodup) {t t' : FileTree}
    (run : (m.write p extension directory package).run.run t = (.ok (), t')) :
    (m.files extension directory package).map Prod.snd = m.family ∧
    ∀ file ∈ m.files extension directory package,
      (file.2.initialModule? = none → ∃ lines, p.moduleLines file.2 = .ok lines ∧
        t'.HoldsLines file.1.place lines) ∧
      ∀ sub ∈ file.2.initialModule?, ∃ lines, p.moduleLines sub = .ok lines ∧
        t'.HoldsLines file.1.place lines := by
  cases package with
  | none =>
    have filled := ((writesBy_filling p directory _).write he [] names (fun _ => id) (t := t)
      trivial).ok (by rwa [Path.below_nil])
    have once := Module.writtenOnce_layout he [] names siblings
    have down := Module.layout_down he names
    constructor
    · rw [Module.files, map_map, ← Module.layout_modules extension []]
      rfl
    · exact filled.files_hold once down fun _ hentry _ hs =>
        Module.initialModule?_mem_layout hentry hs
  | some inner =>
    have filled := ((writesBy_filling p (directory.join inner) _).writeAs he
      (Path.below_nil _).symm names (fun _ => id)
      (Writing.goes_ask (fun _ _ => ⟨rfl, fun _ => trivial⟩) fun _ _ => trivial)
      ((goes_fillFolder _ _).imp fun _ _ filled => ⟨trivial, filled⟩)).ok run
    have once : WrittenOnce (m.packageLayout extension []) := by
      rw [Module.family_eq] at names siblings
      refine Module.writtenOnce_package he (fun m' hm' => names m' (.tail _ hm')) ?_
      exact Module.writtenOnce_layoutAll he [] (fun m' hm' => names m' (.tail _ hm'))
        (fun m' hm' => siblings m' (.tail _ hm')) (siblings m mem_cons_self)
    have down := Module.packageLayout_down he names
    constructor
    · rw [Module.files, map_map, Module.family_eq, ← Module.layoutAll_modules extension []]
      rfl
    · exact filled.files_hold once down fun _ hentry _ hs =>
        Module.initialModule?_mem_packageLayout hentry hs

def nestedPackages : Module :=
  { name := "outer", doc := some "Outer.", subModules := [{ name := "flat" },
    { name := "__init__", subModules := [{ name := "deep", doc := some "Deep." }] }] }

/-- A package with the name of an initial file has a file of its own. -/
theorem nestedPackages_hold_lines :
    (nestedPackages.files "pyi" {} none).map (·.1.parts) = [["outer", "__init__.pyi"],
        ["outer", "flat.pyi"], ["outer", "__init__", "__init__.pyi"],
        ["outer", "__init__", "deep.pyi"]] ∧
      ((nestedPackages.write {} "pyi" {} none).run.run {}).1 = .ok () ∧
      ∀ file ∈ nestedPackages.files "pyi" {} none,
        ∃ lines, ({} : Printer).moduleLines file.2 = .ok lines ∧
          ((nestedPackages.write {} "pyi" {} none).run.run {}).2.HoldsLines file.1.place lines := by
  have ok : ((nestedPackages.write {} "pyi" {} none).run.run {}).1 = .ok () := by decide +kernel
  have unshared : ∀ file ∈ nestedPackages.files "pyi" {} none,
      file.2.initialModule?.isNone = true := by decide +kernel
  have run : (nestedPackages.write {} "pyi" {} none).run.run {} =
      (.ok (), ((nestedPackages.write {} "pyi" {} none).run.run {}).2) := by
    rw [← ok, Prod.eta]
  obtain ⟨-, holds⟩ := stub_files_hold_lines {} "pyi" {} none nestedPackages (by decide)
    (by decide +kernel) (by decide +kernel) run
  refine ⟨by decide +kernel, ok, ?_⟩
  intro file hf
  exact (holds file hf).1 (Option.isNone_iff_eq_none.mp (unshared file hf))

/-- A package with a module that is named like the initial file of the package. -/
def sharedFile : Module :=
  { name := "outer", doc := some "Outer."
    subModules := [{ name := "__init__", doc := some "Inner." }] }

/-- The stub of the module is written over that of its package, whose lines are lost. -/
theorem sharedFile_loses_lines :
    (∀ m ∈ sharedFile.family, isIdentifier m.name = true ∧ (m.subModules.map Module.name).Nodup) ∧
      ({} : Printer).moduleLines sharedFile =
        .ok ["\"\"\"", "Outer.", "\"\"\"", "from . import __init__"] ∧
      ((sharedFile.write {} "pyi" {} none).run.run {}).1 = .ok () ∧
      ((sharedFile.write {} "pyi" {} none).run.run {}).2.files =
        [(["outer", "__init__.pyi"], "\"\"\"\nInner.\n\"\"\"\n")] := by
  refine ⟨by decide +kernel, by rfl, by decide +kernel, by decide +kernel⟩

end TypeStubs
