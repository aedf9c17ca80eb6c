/-! Trace of a run: one entry per step, each marked as coming from the pipeline. An entry may hold
several lines; only its first is marked. -/
namespace SnakeFront.Trace

def mark (entry : String) : String := "[pipeline] " ++ entry

def text (verbose : Bool) (entries : List String) : String :=
  if verbose then String.join (entries.map fun entry => mark entry ++ "\n") else ""

end SnakeFront.Trace
