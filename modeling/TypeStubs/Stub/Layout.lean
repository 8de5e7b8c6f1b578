import TypeStubs.FileTree
import TypeStubs.Stub.Printer

/-! The files of a stub: one file for a module without sub-modules, a directory with an
initial file for a package. -/

namespace TypeStubs

/-- Where the stub of a root module goes: the directory around it and, if the root is written as a
package under another name, the directory of that package. -/
structure Destination where
  directory : Path
  package : Option Path := none

/-- The stub of `a.b.c` goes into the directory `a/b` below the output directory. A suffix is added
to the first part of the name; a root of one part with a suffix is always a package. -/
def Destination.ofModule (outputDirectory moduleName : String) (suffix : Option String) :
    Destination :=
  let parts := splitText '.' moduleName
  match suffix, parts with
  | some s, [name] => ⟨Path.ofText outputDirectory, some (Path.ofText (name ++ s))⟩
  | some s, first :: rest =>
    ⟨(Path.ofText outputDirectory).joinAll ((first ++ s) :: rest).dropLast, none⟩
  | _, _ => ⟨(Path.ofText outputDirectory).joinAll parts.dropLast, none⟩

inductive WriteError where
  | noDirectory
  | file (e : FileError)
  | print (e : PrintError)
deriving DecidableEq

/-- Steps that write files. What was written before a failure stays. -/
abbrev Writing := ExceptT WriteError (StateM FileTree)

def Writing.ask {α : Type} (f : FileTree → Except FileError α) : Writing α := do
  match f (← get) with
  | .ok a => return a
  | .error e => throw (.file e)

def Writing.change (f : FileTree → Except FileError FileTree) : Writing Unit := do
  set (← Writing.ask f)

/-- Makes a directory together with all directories on the way to it. None is made if the path is
refused as a whole. -/
def Writing.makeDirectories (path : Path) : Writing Unit := do
  Writing.ask fun _ => FileTree.accept path
  path.upTo.forM fun prior => Writing.change (·.makeDirectory prior)

def fileText (lines : List String) : String := String.join (lines.map (· ++ "\n"))

/-- Writes the lines of a module to a file. The file is there, and empty, also if the module has no
text. -/
def Writing.moduleFile (p : Printer) (path : Path) (m : Module) : Writing Unit := do
  Writing.change (·.writeFile path "")
  match p.moduleLines m with
  | .ok lines => Writing.change (·.writeFile path (fileText lines))
  | .error e => throw (.print e)

mutual

def Module.write (p : Printer) (extension : String) (directory : Path) (package : Option Path) :
    Module → Writing Unit
  | ⟨name, doc, classes, functions, subModules, attributes, imports, aliases, typeVars⟩ => do
    let m : Module :=
      ⟨name, doc, classes, functions, subModules, attributes, imports, aliases, typeVars⟩
    unless ← Writing.ask (·.isDirectory directory) do throw .noDirectory
    if subModules.isEmpty && package.isNone then
      Writing.moduleFile p (directory.join (Path.ofText (name ++ "." ++ extension))) m
    else
      let inner := directory.join (package.getD (Path.ofText name))
      Writing.change (·.makeDirectory inner)
      Writing.moduleFile p (inner.join (Path.ofText ("__init__." ++ extension))) m
      Module.writeAll p extension inner subModules

def Module.writeAll (p : Printer) (extension : String) (directory : Path) :
    List Module → Writing Unit
  | [] => pure ()
  | m :: ms => do
    Module.write p extension directory none m
    Module.writeAll p extension directory ms

end

end TypeStubs
