import TreeQuery.Log
import TreeQuery.Snapshot

/-!
# Markers

A bounded store of markers, in the order of their creation. A marker has an id of its own, and may be
attached to a node and attached anew; nothing makes room but removal. Markers are numbered without
bound; a counter of 64 bits numbers the same up to 2^64 creations between two clearings.

* `Marker`, `Markers`;
* `Markers.create?`, `Markers.attach`, `Markers.remove`, `Markers.clear`, `Markers.expire`;
* `Markers.get?`, `Markers.find`, `Markers.hasRoom`.
-/

namespace TreeQuery

set_option autoImplicit false

/-- A marker: what it is attached to, and in which file. -/
structure Marker where
  id : Text
  label : Option Text
  createdAt : Int
  target : Option Reference
  file : Option Text
deriving DecidableEq

/-- The markers in the order of their creation, the number of the next one, and how many fit. -/
structure Markers where
  entries : List Marker := []
  nextSerial : Nat := 1
  capacity : Nat := 100
deriving DecidableEq

namespace Markers

variable (m : Markers)

def size : Nat := m.entries.length

def hasRoom : Bool := m.size < m.capacity

/-- The id of the marker with a number. -/
def idOf (serial : Nat) : Text := "mark-" ++ Text.ofNat serial

/-- A new marker at the end of the store, and its id, if there is room. -/
def create? (label : Option Text) (now : Int) : Option (Text × Markers) :=
  if m.hasRoom then
    let id := idOf m.nextSerial
    some (id, { m with
      entries := m.entries ++ [⟨id, label, now, none, none⟩], nextSerial := m.nextSerial + 1 })
  else none

def get? (id : Text) : Option Marker := m.entries.find? (·.id == id)

/-- Points the marker at a node; `false` if there is no such marker. -/
def attach (id : Text) (target : Reference) (file : Option Text) : Bool × Markers :=
  ((m.get? id).isSome,
    { m with entries := m.entries.map fun r =>
        if r.id = id then { r with target := some target, file := file } else r })

/-- The markers with the given id and file, as far as they are given. -/
def find (id file : Option Text) : List Marker :=
  m.entries.filter fun r => id.all (r.id == ·) && (file.isNone || r.file == file)

/-- Removes a marker; `false` if there is none. -/
def remove (id : Text) : Bool × Markers :=
  ((m.get? id).isSome, { m with entries := m.entries.filter (·.id != id) })

/-- Removes all markers and starts numbering anew; says how many there were. -/
def clear : Nat × Markers := (m.size, { m with entries := [], nextSerial := 1 })

/-- Removes the markers created before a time; says how many there were. -/
def expire (time : Int) : Nat × Markers × List Log.Event :=
  let kept := m.entries.filter (time ≤ ·.createdAt)
  let count := m.size - kept.length
  (count, { m with entries := kept },
    if count = 0 then []
    else [{ level := .info, text := "Expired " ++ Text.ofNat count ++ " markers created before" }])

end Markers

end TreeQuery
