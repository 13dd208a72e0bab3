/-!
File paths in normal form: no empty parts and no parts that name the directory
they stand in. A path that begins with two slashes, and no third, keeps both.
-/

namespace FunCompiler

structure Path where
  /-- Empty for a relative path, else the slashes it begins with. -/
  root : String
  parts : List String
  deriving DecidableEq, Repr

namespace Path

def rootOf : List Char → String
  | '/' :: '/' :: '/' :: _ => "/"
  | '/' :: '/' :: _ => "//"
  | '/' :: _ => "/"
  | _ => ""

/-- The stretches between slashes. -/
def split : List Char → List (List Char)
  | [] => [[]]
  | c :: cs =>
    if c = '/' then [] :: split cs
    else
      match split cs with
      | [] => [[c]]
      | part :: parts => (c :: part) :: parts

def ofString (s : String) : Path where
  root := rootOf s.toList
  parts := ((split s.toList).map String.ofList).filter fun part => part ≠ "" ∧ part ≠ "."

/-- The path as text; the directory itself is a point. -/
def text (p : Path) : String :=
  match p.root ++ "/".intercalate p.parts with
  | "" => "."
  | s => s

end Path

end FunCompiler
