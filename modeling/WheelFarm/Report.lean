import WheelFarm.Duration
import WheelFarm.Wheel.File

/-! Build reports: what a worker tells about one finished attempt at a build. -/
namespace WheelFarm
open Wheel

/-- One finished attempt. Its ABI tag is the one that was asked for, which the files need not
have. -/
structure BuildReport where
  package : String
  version : String
  worker : UInt64
  duration : Duration
  success : Bool
  abi : String
  /-- The whole build log. -/
  output : String := ""
  files : List BuiltFile := []
  deriving DecidableEq

namespace BuildReport

/-- A failed attempt, which has no files. -/
def failed (package version abi : String) (worker : UInt64) (duration : Duration)
    (output : String) : BuildReport :=
  { package, version, worker, duration, success := false, abi, output }

/-- A successful attempt with the files that it produced. -/
def succeeded (package version abi : String) (worker : UInt64) (duration : Duration)
    (output : String) (files : List BuiltFile) : BuildReport :=
  { failed package version abi worker duration output with success := true, files }

def isUniversal (r : BuildReport) : Bool := r.files.any BuiltFile.isUniversal

end BuildReport
end WheelFarm
