import WheelFarm.Ledger.Error
import WheelFarm.Ledger.Schema

/-! A ledger in its storage, either in a file, where it outlives its being closed, or in memory.
Below the operations, stored values can be overwritten directly; the schema's constraints hold there
too. -/
namespace WheelFarm.Ledger

structure Storage where
  ledger : Ledger := {}
  inFile : Bool := false
  /-- Whether the layout on record is this program's. -/
  layoutKnown : Bool := true
  deriving DecidableEq

/-- A stored value that is overwritten, or a row that is put in. -/
inductive Overwrite
  | worker (build : Int) (value : Int)
  | builtAt (build : Int) (value : Int)
  | age (build : Int) (seconds : Int)
  | milliseconds (build : Int) (value : Int)
  | fileSize (build : Int) (value : Int)
  | released (package version : String) (value : Int)
  | serial (value : Int)
  | abi (abi : String)
  | layout
  deriving DecidableEq

def overwriteBuild (l : Ledger) (build : Int) (f : BuildRow → BuildRow)
    (hf : ∀ b, (f b).id = b.id) : Nat × Ledger :=
  let builds := l.builds.map (fun b => if b.id = build then f b else b) fun b => by
    split
    · exact hf b
    · rfl
  (l.builds.rows.countP (·.id = build), { l with builds })

def overwriteSizes (l : Ledger) (build size : Int) : Nat × Ledger :=
  let files := l.files.map (fun f => if f.build = build then { f with size } else f) fun f => by
    split <;> rfl
  ((l.owned build).length, { l with files })

def overwriteRelease (l : Ledger) (package version : String) (released : Int) : Nat × Ledger :=
  let isIt := fun v : Version => v.package = package ∧ v.version = version
  let versions := l.versions.map (fun v => if isIt v then { v with released } else v) fun v => by
    split <;> rfl
  (l.versions.rows.countP (isIt ·), { l with versions })

/-- A write that is admitted if it touches no row or its value is not negative. -/
def unlessNegative (value : Int) (written : Nat × Ledger) : Option (Nat × Ledger) :=
  if written.1 = 0 ∨ 0 ≤ value then some written else none

/-- Overwrites stored values and tells how many rows that touched; none if a constraint refuses. -/
def overwrite? (l : Ledger) : Overwrite → Option (Nat × Ledger)
  | .worker build value => some (l.overwriteBuild build ({ · with worker := value }) fun _ => rfl)
  | .builtAt build value => some (l.overwriteBuild build ({ · with builtAt := value }) fun _ => rfl)
  | .age build seconds =>
    some (l.overwriteBuild build (fun b => { b with builtAt := b.builtAt - seconds }) fun _ => rfl)
  | .milliseconds build value =>
    unlessNegative value (l.overwriteBuild build ({ · with milliseconds := value }) fun _ => rfl)
  | .fileSize build value => unlessNegative value (l.overwriteSizes build value)
  | .released package version value => some (l.overwriteRelease package version value)
  | .serial value => unlessNegative value (1, { l with serial := value })
  | .abi abi => (l.insertAbi? abi).map fun l => (1, l)
  | .layout => some (1, l)

namespace Storage

/-- Overwrites stored values. The record of the layout lies beside the ledger. -/
def overwrite? (s : Storage) (w : Overwrite) : Option (Nat × Storage) := do
  let (rows, ledger) ← s.ledger.overwrite? w
  return (rows, { s with ledger, layoutKnown := s.layoutKnown && w ≠ .layout })

/-- Closes the storage and opens it again. A ledger in memory is gone by then. -/
def reopen (s : Storage) : Except LedgerError Storage :=
  if !s.inFile then .ok {}
  else if s.layoutKnown then .ok s
  else .error .layout

end Storage
end WheelFarm.Ledger
