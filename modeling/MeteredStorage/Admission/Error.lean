import MeteredStorage.Instant.Basic

namespace MeteredStorage

inductive UsageFault
  | tooShort
  | timeWithoutDecision
  | unknownFlag
  | trailingBytes
  deriving DecidableEq

def UsageFault.message : UsageFault → String
  | .tooShort => "buffer too short"
  | .timeWithoutDecision => "time set without decision"
  | .unknownFlag => "invalid decision flag"
  | .trailingBytes => "trailing bytes"

inductive AdmissionError
  | insufficientCapacity (requested free : UInt64)
  | usedExceedsCapacity (used capacity : UInt64)
  | timeWentBack (now last : Instant)
  | invalidInstant (seconds nanos : Int64)
  | invalidUsage (fault : UsageFault)
  deriving DecidableEq

def AdmissionError.message : AdmissionError → String
  | .insufficientCapacity requested free => s!"insufficient capacity: requested {requested.toNat}, free {free.toNat}"
  | .usedExceedsCapacity used capacity => s!"used capacity {used.toNat} exceeds total capacity {capacity.toNat}"
  | .timeWentBack now last =>
      "decision at " ++ String.ofList now.text ++ " precedes last decision at " ++ String.ofList last.text
  | .invalidInstant seconds nanos => s!"invalid timestamp: {seconds.toInt}s {nanos.toInt}ns"
  | .invalidUsage fault => "invalid snapshot: " ++ fault.message

def Instant.ofParts (seconds : Int64) (nanos : UInt32) : Except AdmissionError Instant :=
  match Instant.ofParts? seconds nanos with
  | some t => .ok t
  | none => .error (.invalidInstant seconds (Int64.ofInt nanos.toNat))

end MeteredStorage
