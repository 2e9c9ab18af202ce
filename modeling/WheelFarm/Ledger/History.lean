import WheelFarm.Calendar
import WheelFarm.Ledger.Catalog
import WheelFarm.Ledger.Schema
import WheelFarm.Wheel.File
import WheelFarm.Duration

/-! The build history: the attempts at a version, their logs, and the files on record with their
dependencies. -/
namespace WheelFarm.Ledger
open Wheel

structure Build where
  id : Int
  package : String
  version : String
  worker : UInt64
  builtAt : Int
  duration : Duration
  success : Bool
  abi : String
  deriving DecidableEq

/-- A wheel on record and the build that owns it. -/
structure FileRecord where
  build : Int
  file : BuiltFile
  deriving DecidableEq

instance : Keyed FileRecord String := ⟨fun r => r.file.filename⟩

def BuildRow.read (b : BuildRow) : Except LedgerError Build := do
  let worker ← readWord .workerId b.worker
  if !Calendar.hasDate b.builtAt then throw (.invalidData .buildDate)
  let milliseconds ← readWord .buildDuration b.milliseconds
  return {
    id := b.id
    package := b.package
    version := b.version
    worker := worker
    builtAt := b.builtAt
    duration := .ofMilliseconds milliseconds
    success := b.success
    abi := b.abi }

/-- Reads a stored file, its dependencies apart. -/
def FileRow.read (f : FileRow) : Except LedgerError FileRecord := do
  let size ← readWord .fileSize f.size
  return ⟨f.build, { filename := f.filename, size, hash := f.hash, tags := f.tags }⟩

/-- The attempts at a version, oldest first. -/
def buildsOf (l : Ledger) (package version : String) : Except LedgerError (List Build) :=
  (l.buildRows package version).mapM BuildRow.read

def outputOf (l : Ledger) (build : Int) : Except LedgerError String :=
  match l.outputs.find? build with
  | some o => .ok o.text
  | none => .error (.buildNotFound build)

/-- The record with a dependency, if it is the one of that file. -/
def FileRecord.attach (r : FileRecord) (d : DependencyRow) : FileRecord :=
  if d.filename = r.file.filename then { r with file := r.file.require d.tool d.name } else r

theorem FileRecord.filename_attach (r : FileRecord) (d : DependencyRow) :
    (r.attach d).file.filename = r.file.filename := by
  unfold attach; split <;> rfl

/-- The records in the order of their filenames, each with the dependencies of its file. -/
def attachDependencies (records : List FileRecord) (rows : List DependencyRow) :
    Table FileRecord :=
  rows.foldl (fun t d => t.map (·.attach d) (FileRecord.filename_attach · d)) (.ofList records)

/-- The files that pass a test, in the order of their names. -/
def filesWhere (l : Ledger) (p : FileRow → Bool) : Except LedgerError (List FileRecord) := do
  let files := l.files.filter p
  let records ← files.rows.mapM FileRow.read
  let dependencies := l.dependencies.rows.filter fun d => files.has d.filename
  return (attachDependencies records dependencies).rows

def filesOfBuild (l : Ledger) (build : Int) : Except LedgerError (List FileRecord) :=
  l.filesWhere fun f => f.build = build

/-- The files that builds of a package own, across its versions. -/
def filesOfPackage (l : Ledger) (package : String) : Except LedgerError (List FileRecord) :=
  l.filesWhere fun f => l.builds.rows.any fun b => b.id = f.build ∧ b.package = package

/-- The dependencies of a file; a file that is not on record has none. -/
def dependenciesOf (l : Ledger) (filename : String) : Dependencies :=
  (l.dependencies.rows.filter fun d => d.filename = filename).foldl
    (fun ds d => ds.require d.tool d.name) ∅

/-- Forgets the attempts at a version and tells how many there were. -/
def forget (l : Ledger) (package version : String) : Nat × Ledger :=
  ((l.buildRows package version).length,
    l.dropBuilds fun b => b.package = package ∧ b.version = version)

end WheelFarm.Ledger
