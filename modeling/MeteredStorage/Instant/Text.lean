import MeteredStorage.Admission.Error
import MeteredStorage.Json.Record

namespace MeteredStorage.Instant

open Json

abbrev Reader := Json.Reader AdmissionError

def secondsName : List Char := ['e', 'p', 'o', 'c', 'h', 'S', 'e', 'c', 'o', 'n', 'd', 's']
def nanosName : List Char := ['n', 'a', 'n', 'o', 's']

def quoted (name : List Char) : List Char := '"' :: (name ++ ['"'])

def toJson (t : Instant) : List Char :=
  '\x7b' :: (quoted secondsName ++ ':' :: (Decimal.ofInt t.seconds.toInt ++
    ',' :: (quoted nanosName ++ ':' :: (Decimal.ofNat t.nanos.toNat ++ ['\x7d']))))

def word : Reader Int := integerIn (-0x8000000000000000) 0x8000000000000000

structure Draft where
  seconds : Option Int
  nanos : Option Int

def field (name : List Char) (d : Draft) : Reader Draft := fun s =>
  if name = secondsName then
    if d.seconds.isSome then .error .malformed
    else (word s).map fun (n, s) => ({ d with seconds := some n }, s)
  else if name = nanosName then
    if d.nanos.isSome then .error .malformed
    else (word s).map fun (n, s) => ({ d with nanos := some n }, s)
  else unknownField d s

def ofWords (seconds nanos : Int) : Except (Fault AdmissionError) Instant :=
  let refusal := .refused (.invalidInstant (Int64.ofInt seconds) (Int64.ofInt nanos))
  if 0 ≤ nanos ∧ nanos < 0x100000000 then
    match ofParts? (Int64.ofInt seconds) (UInt32.ofNat nanos.toNat) with
    | some t => .ok t
    | none => .error refusal
  else .error refusal

/-- Reads an instant; a refusal for its nanoseconds is reported where its text ends. -/
def read : Reader Instant := fun s =>
  match skipBlanks s with
  | '\x7b' :: s => do
    let (d, s) ← fields field ⟨none, none⟩ s
    match d.seconds, d.nanos with
    | some seconds, some nanos => return (← ofWords seconds nanos, s)
    | _, _ => .error .malformed
  | '[' :: s => do
    let ((seconds, nanos), s) ← pair word word s
    return (← ofWords seconds nanos, s)
  | _ => .error .malformed

def ofJson (text : List Char) : Except (Fault AdmissionError) Instant := whole read text

end MeteredStorage.Instant
