import WheelFarm.Json.Reader
import WheelFarm.Report

/-! Reports read from JSON. A report and each of its files is an object, or an array of the fields
in order. Every field may come once; fields without which the rest makes no sense must come, unknown
ones are passed over. That a field is missing shows only at the end of its object. -/
namespace WheelFarm.Report
open Json Json.Reader Wheel

/-- Keeps the value of a field that has not come before. -/
def once {α σ : Type} (old : Option α) (read : Reader α) (keep : α → σ) : Reader σ := do
  if old.isSome then throw .mismatch
  colon
  return keep (← read)

def required {α : Type} (field : Option α) : Reader α :=
  match field with
  | some a => return a
  | none => throw .mismatch

def nextField {α : Type} (first : Bool) (read : Reader α) : Reader α := do
  if ← nextItem first then read else throw .mismatch

/-- The next field of an array of fields, which may end before it. -/
def nextFieldOr {α : Type} (missing : α) (read : Reader α) : Reader α := do
  if ← nextItem false then read else return missing

/-- Seconds with a fraction, to the nearest nanosecond. -/
def duration : Reader Duration := do
  let n ← numeral
  match n.magnitude? with
  | none => throw .malformed
  | some x =>
    if n.negative && x.mantissa ≠ 0 then throw .mismatch
    match Duration.ofSeconds? x with
    | some d => return d
    | none => throw .mismatch

/-- Names in any order and with repetitions. -/
def names : Reader NameSet := do return .ofList (← array string)

def requirement (tool : String) (d : Dependencies) : Reader Dependencies := do
  colon
  return d.put ⟨tool, ← names⟩

/-- Names under their tools; of a tool that comes again the last names count. -/
def dependencies : Reader Dependencies := do
  opening .openBrace
  let read ← members requirement ∅
  closing .closeBrace
  return read

/-- The fields of a file that have come so far. -/
structure FileFields where
  filename : Option String := none
  size : Option UInt64 := none
  hash : Option String := none
  package : Option String := none
  version : Option String := none
  python : Option String := none
  abi : Option String := none
  platform : Option String := none
  dependencies : Option Dependencies := none

namespace FileFields

def member (key : String) (f : FileFields) : Reader FileFields :=
  match key with
  | "filename" => once f.filename string fun a => { f with filename := some a }
  | "size" => once f.size word fun a => { f with size := some a }
  | "hash" => once f.hash string fun a => { f with hash := some a }
  | "package_tag" => once f.package string fun a => { f with package := some a }
  | "package_version_tag" => once f.version string fun a => { f with version := some a }
  | "py_version_tag" => once f.python string fun a => { f with python := some a }
  | "abi_tag" => once f.abi string fun a => { f with abi := some a }
  | "platform_tag" => once f.platform string fun a => { f with platform := some a }
  | "dependencies" =>
    once f.dependencies Report.dependencies fun a => { f with dependencies := some a }
  | _ => do
    colon
    skip
    return f

def file (f : FileFields) : Reader BuiltFile := do
  return {
    filename := ← required f.filename
    size := ← required f.size
    hash := ← required f.hash
    tags := {
      package := ← required f.package
      version := ← required f.version
      python := ← required f.python
      abi := ← required f.abi
      platform := ← required f.platform }
    dependencies := f.dependencies.getD ∅ }

end FileFields

def fileItems : Reader BuiltFile := do
  let filename ← nextField true string
  let size ← nextField false word
  let hash ← nextField false string
  let package ← nextField false string
  let version ← nextField false string
  let python ← nextField false string
  let abi ← nextField false string
  let platform ← nextField false string
  let dependencies ← nextFieldOr ∅ dependencies
  return { filename, size, hash, tags := { package, version, python, abi, platform },
           dependencies }

/-- An object of members, or an array of fields in order. -/
def record {α : Type} (object array : Reader α) : Reader α := do
  match ← peek with
  | some .openBrace =>
    drop
    let a ← object
    closing .closeBrace
    return a
  | some .openBracket =>
    drop
    let a ← array
    closing .closeBracket
    return a
  | t => throw (refuse t)

def file : Reader BuiltFile :=
  record (do FileFields.file (← members FileFields.member {})) fileItems

structure ReportFields where
  package : Option String := none
  version : Option String := none
  worker : Option UInt64 := none
  duration : Option Duration := none
  success : Option Bool := none
  abi : Option String := none
  output : Option String := none
  files : Option (List BuiltFile) := none

namespace ReportFields

def member (key : String) (r : ReportFields) : Reader ReportFields :=
  match key with
  | "package" => once r.package string fun a => { r with package := some a }
  | "version" => once r.version string fun a => { r with version := some a }
  | "worker_id" => once r.worker word fun a => { r with worker := some a }
  | "duration" => once r.duration Report.duration fun a => { r with duration := some a }
  | "success" => once r.success bool fun a => { r with success := some a }
  | "abi_tag" => once r.abi string fun a => { r with abi := some a }
  | "output" => once r.output string fun a => { r with output := some a }
  | "files" => once r.files (array file) fun a => { r with files := some a }
  | _ => do
    colon
    skip
    return r

def report (r : ReportFields) : Reader BuildReport := do
  return {
    package := ← required r.package
    version := ← required r.version
    worker := ← required r.worker
    duration := ← required r.duration
    success := ← required r.success
    abi := ← required r.abi
    output := r.output.getD ""
    files := r.files.getD [] }

end ReportFields

def reportItems : Reader BuildReport := do
  let package ← nextField true string
  let version ← nextField false string
  let worker ← nextField false word
  let duration ← nextField false duration
  let success ← nextField false bool
  let abi ← nextField false string
  let output ← nextFieldOr "" string
  let files ← nextFieldOr [] (array file)
  return { package, version, worker, duration, success, abi, output, files }

def report : Reader BuildReport :=
  record (do ReportFields.report (← members ReportFields.member {})) reportItems

def decode (text : String) : Except Fault BuildReport := run report text

end WheelFarm.Report
