import WheelFarm.Ledger

/-! What is to be built next. A version that owns a universal wheel needs no more builds. For any
other one an ABI is done once a build of it produced a wheel for that ABI, or produced nothing when
it was asked for that ABI; the first registered ABI that is not done is the next one. -/
namespace WheelFarm
open Wheel

structure Target where
  package : String
  version : String
  abi : String
  deriving DecidableEq, Repr

def Target.text (t : Target) : String := s!"{t.package} {t.version} ({t.abi})"

namespace Ledger

def isSettled (l : Ledger) (package version : String) : Bool :=
  (l.buildRows package version).any fun b => (l.owned b.id).any fun f => f.tags.abi = universalAbi

/-- Whether a build counts as an attempt for an ABI. -/
def isAttempt (l : Ledger) (abi : String) (b : BuildRow) : Bool :=
  match l.owned b.id with
  | [] => b.abi = abi
  | files => files.any fun f => f.tags.abi = abi

def isOpen (l : Ledger) (v : Version) : Bool :=
  v.skip.isNone && l.packages.rows.any fun p => p.name = v.package ∧ p.skip.isNone

/-- The registered ABIs that a version still has to be built for, in order. -/
def outstanding (l : Ledger) (v : Version) : List String :=
  if l.isOpen v && !l.isSettled v.package v.version then
    l.abis.rows.filter fun abi => !(l.buildRows v.package v.version).any (l.isAttempt abi)
  else []

/-- The next build of every version that needs one. -/
def targets (l : Ledger) : List Target :=
  l.versions.rows.filterMap fun v =>
    (l.outstanding v).head?.map fun abi => ⟨v.package, v.version, abi⟩

end Ledger
end WheelFarm
