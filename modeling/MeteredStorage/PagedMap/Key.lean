import MeteredStorage.Bytes.BigEndian
import MeteredStorage.PagedMap.Error

namespace MeteredStorage

open BigEndian

class FixedKey (K : Type) where
  /-- The number of bytes that `write` writes. -/
  size : Nat
  /-- The version of the form that `write` writes. -/
  version : Int32
  hashCode : K → Int32
  write : K → Bytes
  /-- Reads a key of the given version from the front of the bytes; they are left alone on failure. -/
  read : Int32 → Bytes → Except MapError (K × Bytes)
  /-- The bytes start with this key in the given version. -/
  matches? : K → Int32 → Bytes → Bool

namespace FixedKey

/-- What `matches?` means: reading gives the same key. -/
def readsAs {K : Type} [DecidableEq K] (read : Int32 → Bytes → Except MapError (K × Bytes)) (k : K)
    (version : Int32) (bs : Bytes) : Bool :=
  match read version bs with
  | .ok (found, _) => found == k
  | .error _ => false

def readFixed (size : Nat) (expected version : Int32) (bs : Bytes) :
    Except MapError (Bytes × Bytes) :=
  if version ≠ expected then .error (.unsupportedVersion version)
  else
    match Bytes.split? size bs with
    | some r => .ok r
    | none => .error (.keyTooLarge size)

def spread (hash : Int32) : Int32 := (hash.toUInt32 ^^^ (hash.toUInt32 >>> 16)).toInt32

end FixedKey

instance : FixedKey UInt64 where
  size := 8
  version := 1
  hashCode k := (k ^^^ (k >>> 32)).toUInt32.toInt32
  write := ofWord64
  read version bs := (FixedKey.readFixed 8 1 version bs).map fun (k, rest) => (toWord64 k, rest)
  matches? k version bs := version == 1 && bs.take 8 == ofWord64 k

structure ByteKey (n : Nat) where
  bytes : Bytes
  length_bytes : bytes.length = n
  deriving DecidableEq

def ByteKey.hash {n : Nat} (k : ByteKey n) : Int32 :=
  k.bytes.foldl (fun h b => h * 31 + b.toInt8.toInt32) 1

def ByteKey.read (n : Nat) (version : Int32) (bs : Bytes) : Except MapError (ByteKey n × Bytes) :=
  if version ≠ 1 then .error (.unsupportedVersion version)
  else if h : (bs.take n).length = n then .ok (⟨bs.take n, h⟩, bs.drop n)
  else .error (.keyTooLarge n)

instance (n : Nat) : FixedKey (ByteKey n) where
  size := n
  version := 1
  hashCode := ByteKey.hash
  write := ByteKey.bytes
  read := ByteKey.read n
  matches? k version bs := version == 1 && bs.take n == k.bytes

structure HashedId where
  hash : Int32
  id : UInt32
  deriving DecidableEq

def HashedId.read (version : Int32) (bs : Bytes) : Except MapError (HashedId × Bytes) :=
  (FixedKey.readFixed 8 3 version bs).map fun (k, rest) =>
    (⟨toInt32 (k.take 4), toWord32 (k.drop 4)⟩, rest)

instance : FixedKey HashedId where
  size := 8
  version := 3
  hashCode := HashedId.hash
  write k := ofInt32 k.hash ++ ofWord32 k.id
  read := HashedId.read
  matches? := FixedKey.readsAs HashedId.read

end MeteredStorage
