import WheelFarm.Ledger.Schema
import WheelFarm.Text.Pieces
import WheelFarm.Text.Scanner

/-! Ledgers as texts. Each row is a line of fields with tabs between them, and rows come after those
that they refer to, so that reading a snapshot writes row by row under the schema. -/
namespace WheelFarm.Ledger.Snapshot
open Wheel Text

inductive Record
  | package (p : Package)
  | version (v : Version)
  | abi (abi : String)
  | build (b : BuildRow)
  | output (o : OutputRow)
  | file (f : FileRow)
  | dependency (d : DependencyRow)
  /-- The serial, and the number of the last build. -/
  | counters (serial lastBuild : Int)
  deriving DecidableEq

def records (l : Ledger) : List Record :=
  l.packages.rows.map .package ++ l.versions.rows.map .version ++ l.abis.rows.map .abi ++
    l.builds.rows.map .build ++ l.outputs.rows.map .output ++ l.files.rows.map .file ++
    l.dependencies.rows.map .dependency ++ [.counters l.serial l.lastBuild]

def restore? (l : Ledger) : Record → Option Ledger
  | .package p => l.insertPackage? p
  | .version v => l.insertVersion? v
  | .abi abi => l.insertAbi? abi
  | .build b => l.insertBuild? b
  | .output o => l.insertOutput? o
  | .file f => l.insertFile? f
  | .dependency d => l.insertDependency? d
  | .counters serial lastBuild => if 0 ≤ serial then some { l with serial, lastBuild } else none

/-- A text in which no tab and no line feed is left. -/
def escape : List Char → List Char
  | [] => []
  | '\\' :: cs => '\\' :: '\\' :: escape cs
  | '\t' :: cs => '\\' :: 't' :: escape cs
  | '\n' :: cs => '\\' :: 'n' :: escape cs
  | c :: cs => c :: escape cs

def unescape : List Char → List Char
  | '\\' :: 't' :: cs => '\t' :: unescape cs
  | '\\' :: 'n' :: cs => '\n' :: unescape cs
  | '\\' :: c :: cs => c :: unescape cs
  | c :: cs => c :: unescape cs
  | [] => []

theorem unescape_escape (cs : List Char) : unescape (escape cs) = cs := by
  fun_induction escape cs with
  | case1 => rfl
  | case2 cs ih => simp [unescape, ih]
  | case3 cs ih => simp [unescape, ih]
  | case4 cs ih => simp [unescape, ih]
  | case5 c cs h _ _ ih =>
    rw [unescape]
    · rw [ih]
    · exact fun _ h' _ => h h'
    · exact fun _ h' _ => h h'
    · exact fun _ _ h' _ => h h'

/-- An optional text, which a sign in front tells from a missing one. -/
def optional : Option String → String
  | none => "-"
  | some s => "+" ++ s

def optional? (s : String) : Option (Option String) :=
  match s.toList with
  | '+' :: cs => some (some (String.ofList cs))
  | ['-'] => some none
  | _ => none

def integer? (s : String) : Option Int := signed? s.toList

def flag? : String → Option Bool
  | "true" => some true
  | "false" => some false
  | _ => none

def Record.fields : Record → List String
  | .package p => ["package", p.name, optional p.skip]
  | .version v => ["version", v.package, v.version, s!"{v.released}", optional v.skip]
  | .abi tag => ["abi", tag]
  | .build b => ["build", s!"{b.id}", b.package, b.version, s!"{b.worker}", s!"{b.builtAt}",
      s!"{b.milliseconds}", s!"{b.success}", b.abi]
  | .output o => ["output", s!"{o.build}", o.text]
  | .file f => ["file", f.filename, s!"{f.build}", s!"{f.size}", f.hash, f.tags.package,
      f.tags.version, f.tags.python, f.tags.abi, f.tags.platform]
  | .dependency d => ["dependency", d.filename, d.tool, d.name]
  | .counters serial lastBuild => ["counters", s!"{serial}", s!"{lastBuild}"]

def record? : List String → Option Record
  | ["package", name, skip] => do return .package ⟨name, ← optional? skip⟩
  | ["version", package, version, released, skip] => do
    return .version ⟨package, version, ← integer? released, ← optional? skip⟩
  | ["abi", tag] => some (.abi tag)
  | ["build", id, package, version, worker, builtAt, milliseconds, success, abi] => do
    return .build ⟨← integer? id, package, version, ← integer? worker, ← integer? builtAt,
      ← integer? milliseconds, ← flag? success, abi⟩
  | ["output", build, text] => do return .output ⟨← integer? build, text⟩
  | ["file", filename, build, size, hash, package, version, python, abi, platform] => do
    return .file ⟨filename, ← integer? build, ← integer? size, hash,
      ⟨package, version, python, abi, platform⟩⟩
  | ["dependency", filename, tool, name] => some (.dependency ⟨filename, tool, name⟩)
  | ["counters", serial, lastBuild] => do
    return .counters (← integer? serial) (← integer? lastBuild)
  | _ => none

/-- The line with which every snapshot begins. -/
def heading : List Char := "wheel farm ledger".toList

def Record.line (r : Record) : List Char :=
  join '\t' (r.fields.map fun f => escape f.toList)

def recordOfLine? (cs : List Char) : Option Record :=
  record? ((pieces '\t' cs).map fun f => String.ofList (unescape f))

def write (l : Ledger) : String :=
  String.ofList (join '\n' (heading :: (records l).map Record.line))

def read? (text : String) : Option Ledger :=
  match pieces '\n' text.toList with
  | first :: lines => do
    guard (first = heading)
    (← lines.mapM recordOfLine?).foldlM restore? {}
  | [] => none

end WheelFarm.Ledger.Snapshot
