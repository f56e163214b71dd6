import Std.Data.HashMap
import SysY.Fault

/-!
# Tables that go back

A scoped table remembers what every insertion replaced. A checkpoint is the number of insertions so
far, and going back to it undoes the later ones, the last one first.
-/

namespace SysY

/-- A table with the memory of its insertions. -/
structure ScopedTable (κ ν : Type) [BEq κ] [Hashable κ] where
  map : Std.HashMap κ ν
  /-- The keys inserted, each with what it had before. -/
  undo : Array (κ × Option ν)

structure Checkpoint where
  depth : Nat
deriving DecidableEq

namespace ScopedTable

variable {κ ν : Type} [BEq κ] [Hashable κ]

def empty : ScopedTable κ ν := ⟨∅, #[]⟩

def get? (table : ScopedTable κ ν) (key : κ) : Option ν := table.map[key]?

def insert (table : ScopedTable κ ν) (key : κ) (value : ν) : ScopedTable κ ν :=
  let previous := table.map[key]?
  ⟨table.map.insert key value, table.undo.push (key, previous)⟩

def checkpoint (table : ScopedTable κ ν) : Checkpoint := ⟨table.undo.size⟩

def putBack (map : Std.HashMap κ ν) (key : κ) : Option ν → Std.HashMap κ ν
  | some value => map.insert key value
  | none => map.erase key

def undoLast (table : ScopedTable κ ν) : ScopedTable κ ν :=
  match table.undo.back? with
  | some (key, previous) => ⟨putBack table.map key previous, table.undo.pop⟩
  | none => table

/-- Goes back to a checkpoint, which must not be later than the table. -/
def restore (table : ScopedTable κ ν) (checkpoint : Checkpoint) : Except Fault (ScopedTable κ ν) :=
  if table.undo.size < checkpoint.depth then .error .staleCheckpoint
  else .ok (Nat.repeat undoLast (table.undo.size - checkpoint.depth) table)

end ScopedTable

end SysY
