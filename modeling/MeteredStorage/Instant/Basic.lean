import MeteredStorage.Text.Decimal

namespace MeteredStorage

def nanosPerSecond : Nat := 1000000000

def maxWord : Nat := 0xFFFFFFFFFFFFFFFF

structure Instant where
  seconds : Int64
  nanos : UInt32
  nanos_lt : nanos.toNat < nanosPerSecond
  deriving DecidableEq

structure Span where
  seconds : UInt64
  nanos : UInt32
  nanos_lt : nanos.toNat < nanosPerSecond
  deriving DecidableEq

namespace Span

def number (d : Span) : Nat := d.seconds.toNat * nanosPerSecond + d.nanos.toNat

def ofNumber (n : Nat) : Span where
  seconds := UInt64.ofNat (n / nanosPerSecond)
  nanos := UInt32.ofNat (n % nanosPerSecond)
  nanos_lt := by
    rw [UInt32.toNat_ofNat']
    exact Nat.lt_of_le_of_lt (Nat.mod_le _ _) (Nat.mod_lt _ (by decide))

end Span

namespace Instant

def ofParts? (seconds : Int64) (nanos : UInt32) : Option Instant :=
  if h : nanos.toNat < nanosPerSecond then some ⟨seconds, nanos, h⟩ else none

def ofSeconds (seconds : Int64) : Instant := ⟨seconds, 0, by decide⟩

def number (t : Instant) : Int := t.seconds.toInt * nanosPerSecond + t.nanos.toNat

def ofNumber? (n : Int) : Option Instant :=
  let seconds := n / nanosPerSecond
  if -0x8000000000000000 ≤ seconds ∧ seconds < 0x8000000000000000 then
    ofParts? (Int64.ofInt seconds) (UInt32.ofNat (n % nanosPerSecond).toNat)
  else none

def compare (t u : Instant) : Ordering :=
  (Ord.compare t.seconds.toInt u.seconds.toInt).then (Ord.compare t.nanos.toNat u.nanos.toNat)

def before (t u : Instant) : Bool := t.compare u == .lt

def since (t u : Instant) : Int :=
  (t.seconds.toInt - u.seconds.toInt) * nanosPerSecond + (t.nanos.toNat - u.nanos.toNat : Int)

def plusNanos (t : Instant) (n : UInt64) : Option Instant := ofNumber? (t.number + n.toNat)

def minusNanos (t : Instant) (n : UInt64) : Option Instant := ofNumber? (t.number - n.toNat)

def sinceEpoch (t : Instant) : Except Span Span :=
  if 0 ≤ t.number then .ok (.ofNumber t.number.toNat) else .error (.ofNumber (-t.number).toNat)

/--
The reading of the system clock at `d` after the epoch, or before it; none if the clock cannot hold
it. The clock counts in the same two words as an instant.
-/
def clockReading? (before : Bool) (d : Span) : Option Instant :=
  ofNumber? (if before then -(d.number : Int) else d.number)

/--
The instant of a reading of the system clock. One more than `maxWord` nanoseconds before the epoch
becomes the instant that far before it.
-/
def ofClock? (reading : Instant) : Option Instant :=
  match reading.sinceEpoch with
  | .ok since => some ⟨since.seconds.toInt64, since.nanos, since.nanos_lt⟩
  | .error before => (ofSeconds 0).minusNanos (UInt64.ofNat (min before.number maxWord))

def ofSystemClock? (n : Int) : Option Instant := (ofNumber? n).bind ofClock?

def text (t : Instant) : List Char :=
  Decimal.ofInt t.seconds.toInt ++ '.' :: Decimal.padded 9 t.nanos.toNat

end Instant

end MeteredStorage
