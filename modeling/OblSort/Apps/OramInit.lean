import OblSort.Apps.AppsCommon

/-!
# Initialisation of an ORAM tree

`apps/oram_init.hpp`. The tree is filled from the leaves up. At each level the entries and `Z`
dummies for every bucket are sorted by bucket, the reals first; the first `Z` of each bucket are
marked. A second sort brings the marked entries to the front in the order of their buckets, and the
others behind them, the reals first: the marked entries are the buckets of the level, the first half
of what remains goes to the level above.
-/

namespace Apps

variable {δ : Type}

structure ORAMEntry (δ : Type) where
  pos : Nat
  uid : Nat
  data : δ
  deriving DecidableEq, Repr

/-- `(uint64_t)-1`, the uid of a dummy. -/
def dummyUid : Nat := 2 ^ 64 - 1

structure LevelPosEntry (δ : Type) where
  levelPos : Nat
  entry : ORAMEntry δ

/-- `LevelPosEntry::operator<`. -/
def LevelPosEntry.lt (a b : LevelPosEntry δ) : Bool :=
  decide (a.levelPos < b.levelPos) ||
    (decide (a.levelPos = b.levelPos) && decide (a.entry.uid < b.entry.uid))

structure MarkEntry (δ : Type) where
  isMarked : Bool
  entry : ORAMEntry δ

/-- `MarkEntry::operator<`: marked entries to the front by their pos, the others by their uid. -/
def MarkEntry.lt (a b : MarkEntry δ) : Bool :=
  (a.isMarked && !b.isMarked) ||
    (b.isMarked && a.isMarked && decide (a.entry.pos < b.entry.pos)) ||
    (!b.isMarked && !a.isMarked && decide (a.entry.uid < b.entry.uid))

/-- What the second sort of a level reads: `dupCounter` is the number of entries of the bucket so
far. -/
def markEntries (Z level : Nat) :
    (prevPos dupCounter : Nat) → List (ORAMEntry δ) → List (MarkEntry δ)
  | _, _, [] => []
  | prevPos, dupCounter, entry :: rest =>
    let isDup := decide (entry.pos >>> level = prevPos >>> level)
    let dupCounter := if isDup then dupCounter else 0
    ⟨decide (dupCounter < Z), entry⟩ :: markEntries Z level entry.pos (dupCounter + 1) rest

section Level

variable [Inhabited δ]

/-- What the first sort of a level reads: the entries, and `Z` dummies for each bucket. -/
def levelReader (Z level : Nat) (reads : List (ORAMEntry δ)) : List (LevelPosEntry δ) :=
  (reads.map fun entry => ⟨entry.pos >>> level, entry⟩) ++
    (List.range (reads.length * Z)).map fun i =>
      ⟨i / Z, ⟨(i / Z) <<< level, dummyUid, default⟩⟩

variable (sortLevel : Nat → List (LevelPosEntry δ) → List (LevelPosEntry δ))
  (sortMark : Nat → List (MarkEntry δ) → List (MarkEntry δ))

/-- One level: what is written to the tree and what goes to the level above. -/
def oramLevel (Z level : Nat) (reads : List (ORAMEntry δ)) :
    List (ORAMEntry δ) × List (ORAMEntry δ) :=
  let size := reads.length
  let intermediate := (sortLevel level (levelReader Z level reads)).map LevelPosEntry.entry
  let marked := sortMark level (markEntries Z level dummyUid 0 intermediate)
  ((marked.take (size * Z)).map MarkEntry.entry,
    ((marked.drop (size * Z)).take (size / 2)).map MarkEntry.entry)

/-- `ORAMInitHelper`. -/
def oramInitHelper (Z level : Nat) (reads : List (ORAMEntry δ)) :
    Except String (List (ORAMEntry δ)) :=
  if reads.length &&& (reads.length - 1) ≠ 0 then throw "size should be power of 2"
  else if reads.length = 0 then pure []
  else do
    let written := oramLevel sortLevel sortMark Z level reads
    let upper ← oramInitHelper Z (level + 1) written.2
    pure (written.1 ++ upper)
termination_by reads.length
decreasing_by
  rw [oramLevel, List.length_map, List.length_take]
  omega

/-- `ORAMInit`. The intermediate vectors, in memory or outside, are written by one writer and read
by one reader. -/
def oramInit (Z : Nat) (reads : List (ORAMEntry δ)) : Except String (List (ORAMEntry δ)) :=
  oramInitHelper sortLevel sortMark Z 0 reads

end Level

end Apps
