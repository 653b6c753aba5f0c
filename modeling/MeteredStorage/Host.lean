import MeteredStorage.Disk.Basic
import MeteredStorage.Event

namespace MeteredStorage

structure Host where
  disk : Disk := {}
  /-- Milliseconds since the Unix epoch. -/
  clock : UInt64
  /-- What was reported, newest first. -/
  events : List Event := []

structure Hosted (α : Type) where
  self : α
  host : Host

namespace Host

variable {ε α : Type}

def report (event : Event) : Task Host ε Unit :=
  modify fun h => { h with events := event :: h.events }

def onDisk (task : DiskTask α) : Task Host ArchiveError α :=
  Task.zoom Host.disk (fun d h => { h with disk := d }) ArchiveError.disk task

end Host

namespace Hosted

variable {α β ε : Type}

def onHost (task : Task Host ε β) : Task (Hosted α) ε β :=
  Task.zoom Hosted.host (fun h s => { s with host := h }) id task

def report (event : Event) : Task (Hosted α) ε Unit := onHost (Host.report event)

def onDisk (task : DiskTask β) : Task (Hosted α) ArchiveError β := onHost (Host.onDisk task)

def update (f : α → α) : Task (Hosted α) ε Unit := modify fun s => { s with self := f s.self }

end Hosted

end MeteredStorage
