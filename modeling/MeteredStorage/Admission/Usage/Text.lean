import MeteredStorage.Admission.Usage
import MeteredStorage.Instant.Text

namespace MeteredStorage.Usage

open Json

def usedName : List Char := ['u', 's', 'e', 'd']
def timeName : List Char :=
  ['l', 'a', 's', 't', 'D', 'e', 'c', 'i', 's', 'i', 'o', 'n', 'T', 'i', 'm', 'e']

def toJson (u : Usage) : List Char :=
  let time := match u.last with
    | some t => t.toJson
    | none => ['n', 'u', 'l', 'l']
  '\x7b' :: (Instant.quoted usedName ++ ':' :: (Decimal.ofNat u.used.toNat ++
    ',' :: (Instant.quoted timeName ++ ':' :: (time ++ ['\x7d']))))

def amount : Instant.Reader Int := integerIn 0 0x10000000000000000

structure Draft where
  used : Option Int
  time : Option (Option Instant)

def field (name : List Char) (d : Draft) : Instant.Reader Draft := fun s =>
  if name = usedName then
    if d.used.isSome then .error .malformed
    else (amount s).map fun (n, s) => ({ d with used := some n }, s)
  else if name = timeName then
    if d.time.isSome then .error .malformed
    else (nullable Instant.read s).map fun (t, s) => ({ d with time := some t }, s)
  else unknownField d s

def readText : Instant.Reader Usage := fun s =>
  match skipBlanks s with
  | '\x7b' :: s => do
    let (d, s) ← fields field ⟨none, none⟩ s
    match d.used with
    | some used => return (⟨UInt64.ofNat used.toNat, d.time.join⟩, s)
    | none => .error .malformed
  | '[' :: s => do
    let ((used, time), s) ← pair amount (nullable Instant.read) s
    return (⟨UInt64.ofNat used.toNat, time⟩, s)
  | _ => .error .malformed

def ofJson (text : List Char) : Except (Fault AdmissionError) Usage := whole readText text

end MeteredStorage.Usage
