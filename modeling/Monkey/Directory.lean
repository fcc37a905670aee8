/-!
# A directory of files

Files under their paths, as a tree of names. A path is followed name by name: a single dot stays, a
double dot goes back, and every name but the last must be a directory.
-/
namespace Monkey

/-- The names on a path. -/
abbrev Path := List String

/-- Files with their bytes. -/
abbrev Directory := List (Path × List Nat)

namespace Directory

/-- The names of a written path; empty names and single dots say nothing. -/
def names (path : String) : Path :=
  (path.splitOn "/").filter fun name => name != "" && name != "."

def file? (directory : Directory) (path : Path) : Option (List Nat) :=
  directory.lookup path

/-- Whether some file lies below a path. -/
def isDirectory (directory : Directory) (path : Path) : Bool :=
  path == [] || directory.any fun file => path.isPrefixOf file.1 && path != file.1

/-- Follows names from a directory inside; `none` where the way ends or leaves the directory. -/
def follow? (directory : Directory) : Path → Path → Option Path
  | place, [] => some place
  | place, name :: rest =>
      if directory.isDirectory place then
        if name = ".." then
          if place = [] then none else follow? directory place.dropLast rest
        else follow? directory (place ++ [name]) rest
      else none

/-- The bytes of the file at a relative path. -/
def find? (directory : Directory) (path : String) : Option (List Nat) := do
  if path.toList.head? = some '/' then none
  else
    let place ← directory.follow? [] (names path)
    directory.file? place

end Directory

end Monkey
