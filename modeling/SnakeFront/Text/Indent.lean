/-! Indentation of a line: one unit for each level that encloses it. -/
namespace SnakeFront.Text

def indent (unit : String) (level : Nat) : String := String.join (List.replicate level unit)

end SnakeFront.Text
