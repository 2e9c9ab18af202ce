import WheelFarm.Binary64

/-! Durations: whole nanoseconds, with less than 2^64 seconds. In reports they are written as
fractional seconds, which rounds twice: once on the way out and once on the way in. -/
namespace WheelFarm

structure Duration where
  nanoseconds : Nat
  bounded : nanoseconds < 18446744073709551616000000000
  deriving DecidableEq

namespace Duration

def seconds (d : Duration) : Nat := d.nanoseconds / 1000000000

/-- The nanoseconds beside the whole seconds. -/
def subsecond (d : Duration) : Nat := d.nanoseconds % 1000000000

def milliseconds (d : Duration) : Nat := d.nanoseconds / 1000000

def zero : Duration := ⟨0, by decide⟩

instance : Inhabited Duration := ⟨zero⟩

def ofParts (seconds : UInt64) (subsecond : Nat) (h : subsecond < 1000000000) : Duration :=
  ⟨seconds.toNat * 1000000000 + subsecond, by have := seconds.toNat_lt; omega⟩

def ofMilliseconds (ms : UInt64) : Duration :=
  ⟨ms.toNat * 1000000, by have := ms.toNat_lt; omega⟩

/-- The duration of so many seconds, to the nearest nanosecond; none from 2^64 seconds on. -/
def ofSeconds? (x : Binary64) : Option Duration :=
  let n := roundDiv (x.num * 1000000000) x.den
  if h : n < 18446744073709551616000000000 then some ⟨n, h⟩ else none

/-- Seconds with a fraction: whole seconds and subseconds are rounded, and so is their sum. -/
def toSeconds (d : Duration) : Binary64 :=
  .add (.ofRatio d.seconds 1) (.ofRatio d.subsecond 1000000000)

end Duration
end WheelFarm
