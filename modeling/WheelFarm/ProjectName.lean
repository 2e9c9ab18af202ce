import WheelFarm.Text.Casing

/-! Project names as package indexes compare them: separators are interchangeable, runs of them
count once, and letter case does not matter. -/
namespace WheelFarm.ProjectName

def isSeparator (c : Char) : Bool := c == '-' || c == '_' || c == '.'

/-- Every run of separators becomes one hyphen. -/
def collapse : List Char → List Char
  | [] => []
  | [c] => if isSeparator c then ['-'] else [c]
  | c :: d :: cs =>
    if isSeparator c then
      if isSeparator d then collapse (d :: cs) else '-' :: collapse (d :: cs)
    else c :: collapse (d :: cs)

/-- The form of a project name under which it is catalogued. -/
def canonicalize (name : String) : String :=
  String.ofList (Text.lower (collapse name.toList))

end WheelFarm.ProjectName
