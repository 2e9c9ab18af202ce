import WheelFarm.Binary64.Shortest
import WheelFarm.Report

/-! Reports written as JSON: fields in one order, no blanks, and strings escaped only where they
must be. -/
namespace WheelFarm.Report
open Wheel

def hexChar (n : Nat) : Char := Nat.digitChar n

/-- A character inside a string: quotes, backslashes and control characters are escaped. -/
def encodeChar (c : Char) : List Char :=
  match c with
  | '"' => ['\\', '"']
  | '\\' => ['\\', '\\']
  | '\n' => ['\\', 'n']
  | '\r' => ['\\', 'r']
  | '\t' => ['\\', 't']
  | '\x08' => ['\\', 'b']
  | '\x0c' => ['\\', 'f']
  | c =>
    if c.toNat < 0x20 then
      ['\\', 'u', '0', '0', hexChar (c.toNat / 16), hexChar (c.toNat % 16)]
    else [c]

def encodeString (s : String) : List Char := '"' :: s.toList.flatMap encodeChar ++ ['"']

def encodeNat (n : Nat) : List Char := Nat.toDigits 10 n

def encodeBool (b : Bool) : List Char := if b then "true".toList else "false".toList

/-- Items between two brackets, with commas. -/
def enclose (first last : Char) (items : List (List Char)) : List Char :=
  first :: ([','].intercalate items ++ [last])

def encodeArray (items : List (List Char)) : List Char := enclose '[' ']' items

def encodeObject (members : List (String × List Char)) : List Char :=
  enclose '\x7b' '\x7d' (members.map fun m => encodeString m.1 ++ ':' :: m.2)

/-- A decimal: with a point from 0.00001 up to below 10^16, else with a power of ten. -/
def encodeDecimal (d : Decimal) : List Char :=
  let digits := Nat.toDigits 10 d.digits
  let power : Int := d.exponent + digits.length - 1
  if -5 ≤ power ∧ power < 16 then
    if 0 ≤ d.exponent then digits ++ List.replicate d.exponent.toNat '0' ++ ['.', '0']
    else if 0 ≤ power then
      digits.take (power.toNat + 1) ++ '.' :: digits.drop (power.toNat + 1)
    else '0' :: '.' :: List.replicate (-power - 1).toNat '0' ++ digits
  else
    let fraction := if digits.length = 1 then [] else '.' :: digits.drop 1
    let sign := if power < 0 then '-' else '+'
    digits.take 1 ++ fraction ++ 'e' :: sign :: Nat.toDigits 10 power.natAbs

/-- Seconds with the fewest digits that read back. -/
def encodeSeconds (x : Binary64) : List Char :=
  if x.mantissa = 0 then ['0', '.', '0'] else encodeDecimal x.shortest

def encodeDependencies (d : Dependencies) : List Char :=
  encodeObject (d.rows.map fun r => (r.tool, encodeArray (r.names.rows.map encodeString)))

def encodeFile (f : BuiltFile) : List Char := encodeObject [
  ("filename", encodeString f.filename),
  ("size", encodeNat f.size.toNat),
  ("hash", encodeString f.hash),
  ("package_tag", encodeString f.tags.package),
  ("package_version_tag", encodeString f.tags.version),
  ("py_version_tag", encodeString f.tags.python),
  ("abi_tag", encodeString f.tags.abi),
  ("platform_tag", encodeString f.tags.platform),
  ("dependencies", encodeDependencies f.dependencies)]

def encodeReport (r : BuildReport) : List Char := encodeObject [
  ("package", encodeString r.package),
  ("version", encodeString r.version),
  ("worker_id", encodeNat r.worker.toNat),
  ("duration", encodeSeconds r.duration.toSeconds),
  ("success", encodeBool r.success),
  ("abi_tag", encodeString r.abi),
  ("output", encodeString r.output),
  ("files", encodeArray (r.files.map encodeFile))]

def encode (r : BuildReport) : String := String.ofList (encodeReport r)

end WheelFarm.Report
