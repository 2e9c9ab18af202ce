import WheelFarm.Config.Yaml.Scalar
import WheelFarm.Text.Pieces

/-! Settings in YAML files: block mappings and sequences by their indentation, flow collections, and
scalars on one line. Files with block scalars, plain scalars on more lines, anchors, tags or
directives are not read. -/
namespace WheelFarm.Config
namespace Yaml
open Text

/-- Where the reading of a line stands: how many flow collections are open, which quote is, whether
a scalar can begin here, and the character before. -/
structure Cursor where
  depth : Nat := 0
  quote : Option Char := none
  fresh : Bool := true
  before : Char := ' '

namespace Cursor

def isOpen (u : Cursor) : Bool := 0 < u.depth || u.quote.isSome

/-- A character passes by. -/
def pass (u : Cursor) (c : Char) : Cursor :=
  let u' := { u with before := c }
  match u.quote with
  | some q =>
    if q == '"' && u.before == '\\' then { u' with before := ' ' }
    else if c == q then { u' with quote := none }
    else u'
  | none =>
    if isBlank c then
      { u' with fresh := u.fresh || u.before == ':' || u.before == '-' || u.before == '?' }
    else if (c == '[' || c == '\x7b') && (u.fresh || 0 < u.depth) then
      { u' with depth := u.depth + 1, fresh := true }
    else if (c == ']' || c == '\x7d') && 0 < u.depth then
      { u' with depth := u.depth - 1, fresh := false }
    else if c == ',' && 0 < u.depth then { u' with fresh := true }
    else if (c == '"' || c == '\'') && u.fresh then { u' with quote := some c, fresh := false }
    else { u' with fresh := false }

end Cursor

/-- A line without its comment, and where its reading ends. -/
def uncomment (u : Cursor) : List Char → List Char × Cursor
  | [] => ([], u)
  | c :: cs =>
    if c == '#' && u.quote.isNone && isBlank u.before then ([], u)
    else
      let (rest, u) := uncomment (u.pass c) cs
      (c :: rest, u)

abbrev Line := Nat × List Char

/-- The lines that have content, each with its indentation and without its comment. A collection or
quoted text that a line leaves open takes in the next line. -/
def linesFrom (open? : Option (Line × Cursor)) : List (List Char) → List Line
  | [] => match open? with
    | some (line, _) => [line]
    | none => []
  | cs :: rest =>
    let content := cs.dropWhile (· == ' ')
    let (indent, taken, u) := match open? with
      | some ((indent, taken), u) => (indent, taken ++ [' '], { u with before := ' ' })
      | none => (cs.length - content.length, [], {})
    let (content, u) := uncomment u content
    let line := (indent, taken ++ dropEndWhile isSpace content)
    if u.isOpen then linesFrom (some (line, u)) rest
    else if line.2.isEmpty then linesFrom none rest
    else line :: linesFrom none rest

/-- The part of a line behind the hyphen of a sequence's item, with its indentation. -/
def item? : Line → Option Line
  | (_, ['-']) => some (0, [])
  | (indent, '-' :: c :: cs) =>
    if isBlank c then
      let content := cs.dropWhile isBlank
      some (indent + 2 + (cs.length - content.length), content)
    else none
  | _ => none

/-- The name of a mapping's entry, and the part of its line behind the colon. -/
def pair? (cs : List Char) : Option (String × List Char) := do
  let (n, rest) ← (nameText false).run cs
  match rest.dropWhile isBlank with
  | [':'] => return (n, [])
  | ':' :: c :: cs => if isBlank c then return (n, cs.dropWhile isBlank) else none
  | _ => none

def inline? (cs : List Char) : Option Value := (flow false (cs.length + 1)).whole? cs

mutual

/-- The value at the front of the lines. -/
def block? : Nat → List Line → Option (Value × List Line)
  | 0, _ => none
  | _, [] => none
  | fuel + 1, line :: rest =>
    if (item? line).isSome then sequence? fuel line.1 [] (line :: rest)
    else if (pair? line.2).isSome then mapping? fuel line.1 [] (line :: rest)
    else (inline? line.2).map fun v => (v, rest)

/-- The items of a block sequence with an indentation. -/
def sequence? : Nat → Nat → List Value → List Line → Option (Value × List Line)
  | 0, _, _, _ => none
  | _, _, found, [] => some (.list found.reverse, [])
  | fuel + 1, indent, found, line :: rest =>
    if indent < line.1 then none
    else if line.1 < indent then some (.list found.reverse, line :: rest)
    else match item? line with
      | none => some (.list found.reverse, line :: rest)
      | some (_, []) => do
        let (v, rest) ← below? fuel indent rest
        sequence? fuel indent (v :: found) rest
      | some item => do
        let (v, rest) ← block? fuel (item :: rest)
        sequence? fuel indent (v :: found) rest

/-- The entries of a block mapping with an indentation. -/
def mapping? : Nat → Nat → Settings → List Line → Option (Value × List Line)
  | 0, _, _, _ => none
  | _, _, found, [] => some (.mapping found, [])
  | fuel + 1, indent, found, line :: rest =>
    if indent < line.1 then none
    else if line.1 < indent then some (.mapping found, line :: rest)
    else match pair? line.2 with
      | none => none
      | some (n, []) => do
        let (v, rest) ← match rest with
          | next :: _ =>
            if next.1 = indent && (item? next).isSome then sequence? fuel indent [] rest
            else below? fuel indent rest
          | [] => some (.null, [])
        mapping? fuel indent (Settings.put found n v) rest
      | some (n, cs) => do mapping? fuel indent (Settings.put found n (← inline? cs)) rest

/-- The value in the lines with a larger indentation; null if there are none. -/
def below? : Nat → Nat → List Line → Option (Value × List Line)
  | 0, _, _ => none
  | fuel + 1, indent, lines =>
    match lines with
    | next :: _ => if indent < next.1 then block? fuel lines else some (.null, lines)
    | [] => some (.null, [])

end

/-- The lines of a text, less the marks at the beginning and the end of a document. -/
def documentLines (text : String) : List Line :=
  let lines := match linesFrom none (pieces '\n' (withoutMark text.toList)) with
    | (0, ['-', '-', '-']) :: lines => lines
    | lines => lines
  if lines.getLast? = some (0, ['.', '.', '.']) then lines.dropLast else lines

end Yaml

/-- The settings of a YAML file. Without any content it has none. -/
def ofYaml? (text : String) : Option Settings :=
  match Yaml.documentLines text with
  | [] => some []
  | lines =>
    match Yaml.block? (2 * (text.length + lines.length) + 2) lines with
    | some (.mapping s, []) => some s
    | _ => none

end WheelFarm.Config
