import OblSort.Apps.AppsCommon

/-!
# Histogram

`apps/histogram.hpp`. The keys are sorted into a writer that counts the run in progress and writes
an entry for the element before the current one: its count if the run ends there, else zero. One
more entry is written after the sort. A second sort moves the zero entries to the back.
-/

namespace Apps

variable {T : Type} [LinearOrder T]

structure HistEntry (T : Type) where
  key : T
  count : Nat := 0
  deriving DecidableEq, Repr

/-- `HistEntry::operator<`. -/
def HistEntry.lt (a b : HistEntry T) : Bool :=
  (decide (a.key < b.key) || b.count == 0) && a.count != 0

/-- The writes of the histogram: the callback of the sort from the second element on, and the entry
written after it. `dupCounter` and `prev` are its state. -/
def histWrites (dupCounter : Nat) (prev : T) : List T → List (HistEntry T)
  | [] => [⟨prev, dupCounter + 1⟩]
  | ele :: rest =>
    let isDup := decide (prev = ele)
    let dupCounter := dupCounter + 1
    let toWriteFreq := if isDup then 0 else dupCounter
    ⟨prev, toWriteFreq⟩ :: histWrites (if isDup then dupCounter else 0) ele rest

/-- `histogramHelper`. On an empty reader `prev` is never set and the last entry is written past the
end: `none`. -/
def histogramHelper (sortKeys : List T → List T)
    (sortEntries : List (HistEntry T) → List (HistEntry T)) (reader : List T) :
    Option (List (HistEntry T)) :=
  match sortKeys reader with
  | [] => none
  | first :: rest => some (sortEntries (histWrites 0 first rest))

/-- `histogram`. The intermediate vector, in memory or outside, is written by one writer and read by
one reader. -/
def histogram (sortKeys : List T → List T)
    (sortEntries : List (HistEntry T) → List (HistEntry T)) (reader : List T) :
    Option (List (HistEntry T)) :=
  histogramHelper sortKeys sortEntries reader

end Apps
