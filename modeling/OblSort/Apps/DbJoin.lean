import OblSort.Apps.AppsCommon

/-!
# Database join

`apps/db_join.hpp`. The rows of both tables are sorted by id, those of table 2 first among equal
ids, into a writer that copies `payload.second` from the row before when the ids agree. A second
sort and the entries alone are the output.
-/

namespace Apps

variable {α β T : Type}

structure DBEntry (T : Type) where
  payload : T
  id : Nat
  deriving DecidableEq, Repr

structure SortEntry (T : Type) where
  entry : DBEntry T
  tableId : Nat
  deriving DecidableEq, Repr

/-- `SortEntry::operator<`. -/
def SortEntry.lt (a b : SortEntry T) : Bool :=
  decide (a.entry.id < b.entry.id) ||
    (decide (a.entry.id = b.entry.id) && decide (a.tableId > b.tableId))

/-- What the sort reads. A row sets one member of the payload; the other one is what a new
`SortEntry_` happens to hold, `fresh idx` for the row at `idx`. -/
def joinReader (fresh : Nat → α × β) (reader1 : List (DBEntry α)) (reader2 : List (DBEntry β)) :
    List (SortEntry (α × β)) :=
  (reader1.mapIdx fun idx e => ⟨⟨(e.payload, (fresh idx).2), e.id⟩, 1⟩) ++
    reader2.mapIdx fun idx e => ⟨⟨((fresh (reader1.length + idx)).1, e.payload), e.id⟩, 2⟩

/-- The callback of the first sort from the second row on. -/
def joinWritesFrom (prev : SortEntry (α × β)) : List (SortEntry (α × β)) → List (SortEntry (α × β))
  | [] => []
  | ele :: rest =>
    let isDup := decide (prev.entry.id = ele.entry.id)
    let out := if isDup then
      { ele with entry := ⟨(ele.entry.payload.1, prev.entry.payload.2), ele.entry.id⟩ } else ele
    out :: joinWritesFrom ele rest

/-- What the first sort writes to the intermediate vector. -/
def joinWrites : List (SortEntry (α × β)) → List (SortEntry (α × β))
  | [] => []
  | ele :: rest => ele :: joinWritesFrom ele rest

/-- `dbJoin`. The intermediate vector, in memory or outside, is written by one writer and read by
one reader. -/
def dbJoin (sort₁ sort₂ : List (SortEntry (α × β)) → List (SortEntry (α × β)))
    (fresh : Nat → α × β) (reader1 : List (DBEntry α)) (reader2 : List (DBEntry β)) :
    List (DBEntry (α × β)) :=
  (sort₂ (joinWrites (sort₁ (joinReader fresh reader1 reader2)))).map SortEntry.entry

end Apps
