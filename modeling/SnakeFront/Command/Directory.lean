import SnakeFront.Source.Basic

/-! A working directory that holds files and empty folders, and what a path leads to in it. A path
is walked name by name: an empty name and `.` stay, `..` goes up, and only a folder can be walked
through. What lies above the working directory is not known and counts as empty. -/
namespace SnakeFront.Command

inductive Entry where
  | missing
  | unreadable (details : String)
  | readable (source : Source)

structure Directory where
  files : List (String × Source)
  folders : List String

namespace Directory

inductive Place where
  | above
  | top
  | folder
  | file (source : Source)

inductive Obstacle where
  | notFound
  | notFolder

def enter (directory : Directory) (name : String) : Except Obstacle Place :=
  match directory.files.lookup name with
  | some source => .ok (.file source)
  | none => if name ∈ directory.folders then .ok .folder else .error .notFound

def step (directory : Directory) (name : String) : Place → Except Obstacle Place
  | .file _ => .error .notFolder
  | .top =>
    if name = "" ∨ name = "." then .ok .top
    else if name = ".." then .ok .above
    else directory.enter name
  | .folder =>
    if name = "" ∨ name = "." then .ok .folder
    else if name = ".." then .ok .top
    else .error .notFound
  | .above =>
    if name = "" ∨ name = "." ∨ name = ".." then .ok .above else .error .notFound

def walk (directory : Directory) (names : List String) (start : Place) : Except Obstacle Place :=
  names.foldlM (fun place name => directory.step name place) start

def names (path : String) : List String := (path.toList.splitOn '/').map String.ofList

def start (path : String) : Place := if path.toList.head? = some '/' then .above else .top

def entry (directory : Directory) (path : String) : Entry :=
  match directory.walk (names path) (start path) with
  | .ok (.file source) => .readable source
  | .ok _ => .unreadable ("read " ++ path ++ ": is a directory")
  | .error .notFolder => .unreadable ("open " ++ path ++ ": not a directory")
  | .error .notFound => .missing

end Directory
end SnakeFront.Command
