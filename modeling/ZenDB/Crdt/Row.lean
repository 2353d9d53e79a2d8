import ZenDB.Crdt.Cell
import ZenDB.Table.Model

namespace ZenDB

open Crdt

variable {P : Type} [LinearOrder P] [Inhabited P]

/-- The rows of a table are cells under primary keys; `insert` applies an event to a copy of the
cell, or to an empty one. -/
def rowOps : RowOps (PrimaryKey P) (RowCell P) (Event P) where
  key event := event.primaryKey
  apply row event :=
    match Cell.applyWalk event.op event.stamp event.path (row.getD (Cell.dummy none)) with
    | (_, .error _) => .error
    | (_, .ok false) => .unchanged
    | (current, .ok true) => .changed current

/-- At the root, the later of the stamps wins. -/
theorem rowOps_apply_upsert (row : Option (RowCell P)) (key : PrimaryKey P) (value : Value P)
    (stamp : EventStamp P) :
    rowOps.apply row ⟨key, [], .upsert value, stamp⟩ =
      if stamp ≤ (row.getD (Cell.dummy none)).stamp then .unchanged else .changed ⟨some value, stamp⟩ := by
  simp only [rowOps, Cell.applyWalk, Cell.apply]
  split_ifs <;> rfl

theorem rowOps_apply_delete (row : Option (RowCell P)) (key : PrimaryKey P) (stamp : EventStamp P) :
    rowOps.apply row ⟨key, [], .delete, stamp⟩ =
      if stamp ≤ (row.getD (Cell.dummy none)).stamp then .unchanged else .changed ⟨none, stamp⟩ := by
  simp only [rowOps, Cell.applyWalk, Cell.apply]
  split_ifs <;> rfl

end ZenDB
