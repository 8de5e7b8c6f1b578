import TypeStubs.Text.Split

/-! Paths of files and directories. -/

namespace TypeStubs

/-- A path: the root it starts from, empty for a relative path, and the parts below it. No part
is empty, a single dot, or holds a slash. -/
structure Path where
  root : String := ""
  parts : List String := []
deriving DecidableEq, Inhabited

namespace Path

/-- Reads a path. Exactly two slashes at the front are a root of their own. -/
def ofText (s : String) : Path :=
  { root := match s.toList with
      | '/' :: '/' :: '/' :: _ => "/"
      | '/' :: '/' :: _ => "//"
      | '/' :: _ => "/"
      | _ => ""
    parts := (splitText '/' s).filter fun part => part != "" && part != "." }

def join (first second : Path) : Path :=
  if second.root = "" then { first with parts := first.parts ++ second.parts } else second

def joinAll (first : Path) (texts : List String) : Path :=
  texts.foldl (fun path text => path.join (ofText text)) first

def upTo (path : Path) : List Path :=
  (List.range (path.parts.length + 1)).map fun n => { path with parts := path.parts.take n }

def text (path : Path) : String :=
  if path.root = "" && path.parts.isEmpty then "." else path.root ++ joinWith "/" path.parts

end Path

end TypeStubs
