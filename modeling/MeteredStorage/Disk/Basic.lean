import MeteredStorage.Bytes.Basic
import MeteredStorage.Disk.Error
import MeteredStorage.Task

namespace MeteredStorage

inductive Node
  | directory (number : Nat)
  | file (slot : Nat)
  deriving DecidableEq

structure Place where
  directory : Nat
  name : String
  deriving DecidableEq

inductive Change
  | makeDirectory (place : Place)
  | createFile (place : Place)
  | write (slot offset : Nat) (bytes : Bytes)
  /-- Sets the length of a file and appends to it. -/
  | finish (slot length : Nat) (tail : Bytes)
  | unlink (place : Place)

structure Disk where
  /-- The names in each directory, in the order in which they came to be; the root is number 0. -/
  directories : Array (List (String × Node)) := #[[]]
  contents : List Bytes := []
  /-- How many times a file has been opened. -/
  opened : Nat := 0
  /-- The changes made, newest first. -/
  history : List Change := []

abbrev DiskTask (α : Type) := Task Disk DiskError α

namespace Disk

def entries (d : Disk) (directory : Nat) : List (String × Node) :=
  (d.directories[directory]?).getD []

def node? (d : Disk) (p : Place) : Option Node := (d.entries p.directory).lookup p.name

def content (d : Disk) (slot : Nat) : Bytes := (d.contents[slot]?).getD []

def insertNode (d : Disk) (p : Place) (node : Node) : Disk :=
  { d with directories := d.directories.modify p.directory (· ++ [(p.name, node)]) }

def eraseNode (d : Disk) (p : Place) : Disk :=
  { d with directories := d.directories.modify p.directory (·.filter fun e => e.1 != p.name) }

def setContent (d : Disk) (slot : Nat) (bytes : Bytes) : Disk :=
  { d with contents := d.contents.set slot bytes }

def apply (d : Disk) : Change → Disk
  | .makeDirectory p =>
    let number := d.directories.size
    let d := d.insertNode p (.directory number)
    { d with directories := d.directories.push [] }
  | .createFile p =>
    { d.insertNode p (.file d.contents.length) with contents := d.contents ++ [[]] }
  | .write slot offset bytes => d.setContent slot (Bytes.overlay offset bytes (d.content slot))
  | .finish slot length tail => d.setContent slot (Bytes.resize length (d.content slot) ++ tail)
  | .unlink p => d.eraseNode p

def perform (change : Change) : DiskTask Unit :=
  modify fun d => { d.apply change with history := change :: d.history }

def openHandle : DiskTask Nat :=
  modifyGet fun d => (d.opened, { d with opened := d.opened + 1 })

end Disk

end MeteredStorage
