import SnakeFront.Command.Run

/-! The executable: it looks up the one path of its arguments on disk and prints the outcome. -/
namespace SnakeFront.Command

def Entry.ofError (path : String) : IO.Error → Entry
  | .noFileOrDirectory .. => .missing
  | .inappropriateType none _ details =>
    .unreadable ("read " ++ path ++ ": " ++ details.decapitalize)
  | .inappropriateType (some _) _ details =>
    .unreadable ("open " ++ path ++ ": " ++ details.decapitalize)
  | .permissionDenied _ _ details =>
    .unreadable ("open " ++ path ++ ": " ++ details.decapitalize)
  | error => .unreadable (toString error)

def findOnDisk (path : String) : IO Entry := do
  try
    return .readable (.ofBytes (← IO.FS.readBinFile path))
  catch error =>
    return Entry.ofError path error

end SnakeFront.Command

open SnakeFront.Command in
def main (args : List String) : IO UInt32 := do
  let found ← match (Invocation.ofArgs args).path with
    | some path => findOnDisk path
    | none => pure .missing
  let outcome := run (fun _ => found) args
  IO.print outcome.stdout
  return outcome.exit.toUInt32
