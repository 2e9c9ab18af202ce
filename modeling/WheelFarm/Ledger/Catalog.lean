import WheelFarm.Calendar
import WheelFarm.Ledger.Error
import WheelFarm.Ledger.Schema

/-! What the ledger knows of the index: packages and under each of them its versions, the ABIs that
every version is to be built for, and the serial of the index's feed of changes. Adding what is there
already changes nothing, a skip reason is only ever set on what is there, a package stays as long as
it has versions, and the serial only moves forwards. -/
namespace WheelFarm.Ledger

def addPackage (l : Ledger) (package : String) (skip : Option String) : Bool × Ledger :=
  match l.insertPackage? { name := package, skip } with
  | some l' => (true, l')
  | none => (false, l)

def addVersion (l : Ledger) (package version : String) (released : Int) (skip : Option String) :
    Except LedgerError (Bool × Ledger) :=
  if l.packages.has package then
    match l.insertVersion? { package, version, released, skip } with
    | some l' => .ok (true, l')
    | none => .ok (false, l)
  else .error (.packageNotFound package)

def Package.skipIf (p : Package) (package reason : String) : Package :=
  if p.name = package then { p with skip := some reason } else p

def Version.skipIf (v : Version) (package version reason : String) : Version :=
  if v.package = package ∧ v.version = version then { v with skip := some reason } else v

theorem Package.name_skipIf (package reason : String) (p : Package) :
    (p.skipIf package reason).name = p.name := by
  unfold skipIf; split <;> rfl

theorem Version.key_skipIf (package version reason : String) (v : Version) :
    Keyed.key (v.skipIf package version reason) = Keyed.key v := by
  unfold skipIf; split <;> rfl

def skipPackage (l : Ledger) (package reason : String) : Ledger :=
  { l with packages := l.packages.map (·.skipIf package reason) (Package.name_skipIf _ _) }

def skipVersion (l : Ledger) (package version reason : String) : Ledger :=
  { l with
    versions := l.versions.map (·.skipIf package version reason) (Version.key_skipIf _ _ _) }

/-- Removes a version with its build history and tells whether it was there. -/
def deleteVersion (l : Ledger) (package version : String) : Bool × Ledger :=
  (l.versions.has (package, version), l.dropVersion package version)

/-- Removes a package that has no versions and tells whether it was there. -/
def deletePackage (l : Ledger) (package : String) : Except LedgerError (Bool × Ledger) :=
  if l.versions.rows.any fun v => v.package = package then .error (.packageInUse package)
  else .ok (l.packages.has package, { l with packages := l.packages.filter (·.name ≠ package) })

/-- Whether a version comes before another one, or is it, by release and then by name. -/
def Version.le (a b : Version) : Bool :=
  a.released < b.released || (a.released == b.released && a.version ≤ b.version)

/-- The versions of a package, oldest release first. All of them need a release date. -/
def versionsOf (l : Ledger) (package : String) : Except LedgerError (List Version) :=
  let found := (l.versions.rows.filter fun v => v.package = package).mergeSort Version.le
  if found.all fun v => Calendar.hasDate v.released then .ok found
  else .error (.invalidData .releaseDate)

/-- Registers an ABI and tells whether it is new. -/
def addAbi (l : Ledger) (abi : String) : Except LedgerError (Bool × Ledger) :=
  if isReserved abi then .error (.reservedAbi abi)
  else match l.insertAbi? abi with
    | some l' => .ok (true, l')
    | none => .ok (false, l)

/-- Removes an ABI, which leaves the builds for it on record, and tells whether it was there. -/
def removeAbi (l : Ledger) (abi : String) : Bool × Ledger :=
  (l.abis.has abi, { l with abis := l.abis.filter (· ≠ abi) })

def readWord (what : Datum) (n : Int) : Except LedgerError UInt64 :=
  if 0 ≤ n then .ok (.ofNat n.toNat) else .error (.invalidData what)

def currentSerial (l : Ledger) : Except LedgerError UInt64 := readWord .serial l.serial

/-- Moves the serial forwards; setting it to what it is changes nothing. -/
def setSerial (l : Ledger) (serial : UInt64) : Except LedgerError Ledger := do
  if maxStored < serial.toNat then throw (.invalidData .serial)
  if l.serial ≤ serial.toNat then return { l with serial := serial.toNat }
  let current ← l.currentSerial
  throw (.serialRegression current.toNat serial.toNat)

end WheelFarm.Ledger
