
namespace MeteredStorage

inductive DiskError
  | notFound
  | busy
  | alreadyExists
  | notADirectory
  | isADirectory
  | invalidArgument
  | nameTooLong
  | directoryNotEmpty
  /-- A path holds the character that ends a path for the operating system. -/
  | nulInPath
  deriving DecidableEq

namespace DiskError

def code? : DiskError → Option Nat
  | notFound => some 2
  | busy => some 16
  | alreadyExists => some 17
  | notADirectory => some 20
  | isADirectory => some 21
  | invalidArgument => some 22
  | nameTooLong => some 36
  | directoryNotEmpty => some 39
  | nulInPath => none

def text : DiskError → String
  | notFound => "No such file or directory"
  | busy => "Device or resource busy"
  | alreadyExists => "File exists"
  | notADirectory => "Not a directory"
  | isADirectory => "Is a directory"
  | invalidArgument => "Invalid argument"
  | nameTooLong => "File name too long"
  | directoryNotEmpty => "Directory not empty"
  | nulInPath => "file name contained an unexpected NUL byte"

def kind : DiskError → String
  | notFound => "NotFound"
  | busy => "ResourceBusy"
  | alreadyExists => "AlreadyExists"
  | notADirectory => "NotADirectory"
  | isADirectory => "IsADirectory"
  | invalidArgument => "InvalidInput"
  | nameTooLong => "InvalidFilename"
  | directoryNotEmpty => "DirectoryNotEmpty"
  | nulInPath => "InvalidInput"

def message (e : DiskError) : String :=
  match e.code? with
  | some code => s!"{e.text} (os error {code})"
  | none => e.text

def details (e : DiskError) : String :=
  match e.code? with
  | some code => s!"Os \x7b code: {code}, kind: {e.kind}, message: \"{e.text}\" \x7d"
  | none => s!"Error \x7b kind: {e.kind}, message: \"{e.text}\" \x7d"

end DiskError

end MeteredStorage
