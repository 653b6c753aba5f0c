import MeteredStorage.Admission.Error
import MeteredStorage.Bytes.BigEndian

namespace MeteredStorage

structure Usage where
  used : UInt64
  last : Option Instant
  deriving DecidableEq

namespace Usage

open BigEndian

def size : Nat := 21

def encode (u : Usage) : Bytes :=
  ofWord64 u.used ++
    match u.last with
    | some t => 1 :: (ofInt64 t.seconds ++ ofWord32 t.nanos)
    | none => 0 :: (ofInt64 0 ++ ofWord32 0)

def ofBytes (bs : Bytes) : Except AdmissionError Usage :=
  let used := toWord64 (Bytes.slice 0 8 bs)
  let seconds := toInt64 (Bytes.slice 9 8 bs)
  let nanos := toWord32 (Bytes.slice 17 4 bs)
  match Bytes.slice 8 1 bs with
  | [0] =>
    if seconds = 0 ∧ nanos = 0 then .ok ⟨used, none⟩
    else .error (.invalidUsage .timeWithoutDecision)
  | [1] => (Instant.ofParts seconds nanos).map fun t => ⟨used, some t⟩
  | _ => .error (.invalidUsage .unknownFlag)

/--
Reads a usage from the front of `bs` and returns the bytes left. Malformed bytes are consumed,
too few bytes are not.
-/
def read (bs : Bytes) : Except AdmissionError Usage × Bytes :=
  match Bytes.split? size bs with
  | none => (.error (.invalidUsage .tooShort), bs)
  | some (form, rest) => (ofBytes form, rest)

def decode (bs : Bytes) : Except AdmissionError Usage :=
  match read bs with
  | (.ok u, []) => .ok u
  | (.ok _, _) => .error (.invalidUsage .trailingBytes)
  | (.error e, _) => .error e

end Usage

end MeteredStorage
