import Mathlib.Data.List.Sort
import OblSort.Server.Cached

/-!
# The LRU page cache with a TLB

`Cache` (`common/lrucache.hpp`) and `Cached::AccessLRU` (`server/cached.hpp`). The entries of the
map `data` are nodes with an address; the TLB keeps pointers to them, which stay valid while the map
grows and dangle once the page is erased. A pointer that does not point to a node is not followed:
`none`.

`LRU` is a list without repetitions and `dataRefs[i]` is the place of `i` in it, so erasing that
place is erasing `i`. Entries of the TLB that have never been used are all the same, so only one
order of them is sorted by counter. `uint64_t` wraps around at `2 ^ 64`.
-/

namespace CACHE

/-- `Cache::CacheEntry`. -/
structure MapEntry (T : Type) where
  val : T
  dirty : Bool
  deriving Repr, DecidableEq

/-- `TLB_entry`. A counter of 0 stands for invalid. -/
structure TLBEntry where
  idx : Nat
  counter : Nat
  pentry : Option Nat
  deriving Repr, DecidableEq

structure Cache (T : Type) where
  size : Nat
  /-- The addresses of the nodes of `data`. -/
  data : Nat → Option Nat
  /-- The nodes that are allocated. -/
  nodes : Nat → Option (MapEntry T)
  /-- The address of the next node. -/
  next : Nat
  LRU : List Nat
  globalCounter : Nat
  TLB : List TLBEntry

namespace Cache

variable {T : Type}

/-- The constructor. -/
def new (T : Type) (TLB_SIZE : Nat) : Cache T where
  size := 0
  data := fun _ => none
  nodes := fun _ => none
  next := 0
  LRU := []
  globalCounter := 0
  TLB := List.replicate TLB_SIZE ⟨0, 0, none⟩

/-! ## The TLB -/

/-- `sortTLBByCounter`. -/
def sortTLBByCounter (tlb : List TLBEntry) : List TLBEntry :=
  tlb.insertionSort fun entry1 entry2 => entry2.counter ≤ entry1.counter

/-- `resetTLBCounters`: the counters become `TLB_SIZE`, …, 1 in the order of the old ones. -/
def resetTLBCounters (c : Cache T) : Cache T :=
  { c with
    TLB := (sortTLBByCounter c.TLB).zipIdx.map fun (entry, k) =>
      { entry with counter := c.TLB.length - k }
    globalCounter := (c.TLB.length + 1) % 2 ^ 64 }

/-- `++TLB_global_counter`, with the reset before it overflows. -/
def countAccess (c : Cache T) : Cache T :=
  let c := { c with globalCounter := (c.globalCounter + 1) % 2 ^ 64 }
  if c.globalCounter = 2 ^ 64 - 1 then c.resetTLBCounters else c

/-- `dirty` of the node at `p`, on an access. -/
def touch (p : Nat) (dirty writeBack : Bool) (c : Cache T) : Option (Cache T) :=
  (c.nodes p).map fun e =>
    { c with
      nodes := Function.update c.nodes p
        (some { e with dirty := (e.dirty || dirty) && writeBack }) }

/-- `AccessTLB`: the address of the node on a hit. -/
def accessTLB (i : Nat) (dirty writeBack : Bool) (c : Cache T) : Option (Option Nat × Cache T) :=
  let c := c.countAccess
  match c.TLB.findIdx? fun entry => entry.idx == i && entry.counter != 0 with
  | none => some (none, c)
  | some k =>
    let c := { c with TLB := c.TLB.modify k fun entry => { entry with counter := c.globalCounter } }
    (c.TLB[k]?.bind TLBEntry.pentry).bind fun p =>
      (c.touch p dirty writeBack).map fun c => (some p, c)

/-- The body of the loop of `UpdateTLB`, on `minCounter` and `minIt`. -/
def minStep (min : Nat × Nat) (entry : TLBEntry × Nat) : Nat × Nat :=
  if entry.1.counter < min.1 then (entry.1.counter, entry.2) else min

/-- `minIt`: the position of the first entry with the smallest counter. -/
def minPos (tlb : List TLBEntry) : Nat := (tlb.zipIdx.foldl minStep (2 ^ 64 - 1, 0)).2

/-- `UpdateTLB`. -/
def updateTLB (i p : Nat) (c : Cache T) : Cache T :=
  { c with TLB := sortTLBByCounter (c.TLB.set (minPos c.TLB) ⟨i, c.globalCounter, some p⟩) }

/-! ## The map and the list -/

/-- `GetNextToEvict`: the index and its entry. -/
def getNextToEvict (c : Cache T) : Option (Nat × MapEntry T) :=
  c.LRU.getLast?.bind fun evictedIndex =>
    ((c.data evictedIndex).bind c.nodes).map fun evicted => (evictedIndex, evicted)

/-- `EvictLRU`: the node is freed. -/
def evictLRU (evictedIndex : Nat) (c : Cache T) : Cache T :=
  { c with
    size := c.size - 1
    LRU := c.LRU.dropLast
    data := Function.update c.data evictedIndex none
    nodes := match c.data evictedIndex with
      | some p => Function.update c.nodes p none
      | none => c.nodes }

/-- `Insert`, of an index that is not in the map. -/
def insert (i : Nat) (val : T) (c : Cache T) : Cache T :=
  { c with
    size := c.size + 1
    LRU := i :: c.LRU
    data := Function.update c.data i (some c.next)
    nodes := Function.update c.nodes c.next (some ⟨val, false⟩)
    next := c.next + 1 }

/-- `Access`: the address of the node. -/
def access (i : Nat) (dirty writeBack : Bool) (c : Cache T) : Option (Nat × Cache T) :=
  let c := { c with LRU := i :: c.LRU.erase i }
  (c.data i).bind fun p => (c.touch p dirty writeBack).map fun c => (p, c.updateTLB i p)

end Cache

/-! ## The server behind the cache -/

/-- `Cached` with `USE_LRU_FLAG`. -/
structure CachedLRU (T σ : Type) where
  cache : Cache T
  server : σ

namespace CachedLRU

variable {T σ : Type}

/-- The page at the end of the list is written back if it is dirty, and evicted. -/
def evict (S : Server σ T) (c : CachedLRU T σ) : Option (CachedLRU T σ) :=
  c.cache.getNextToEvict.map fun (evictedIndex, evicted) =>
    { cache := c.cache.evictLRU evictedIndex
      server := if evicted.dirty then S.write evictedIndex evicted.val c.server else c.server }

/-- What `AccessLRU` does for a page that is not in the cache. -/
def fetch (S : Server σ T) (CACHE_SIZE i : Nat) (c : CachedLRU T σ) : Option (CachedLRU T σ) := do
  let c ← if c.cache.size = CACHE_SIZE then c.evict S else some c
  let ret ← S.read i c.server
  some { c with cache := c.cache.insert i ret }

/-- `AccessLRU<dirty>` with `skip_read` off and `writeBack` on: the address of the node. -/
def accessLRU (S : Server σ T) (CACHE_SIZE : Nat) (dirty : Bool) (i : Nat) (c : CachedLRU T σ) :
    Option (Nat × CachedLRU T σ) := do
  let (hit, cache) ← c.cache.accessTLB i dirty true
  let c := { c with cache }
  match hit with
  | some p => some (p, c)
  | none =>
    let c ← if c.cache.data i = none then c.fetch S CACHE_SIZE i else some c
    (c.cache.access i dirty true).map fun (p, cache) => (p, { c with cache })

/-- The value that the reference to the node at `p` exposes. -/
def deref (p : Nat) (c : CachedLRU T σ) : Option T := (c.cache.nodes p).map MapEntry.val

/-- Assignment through the reference to the node at `p`. -/
def store (p : Nat) (v : T) (c : CachedLRU T σ) : CachedLRU T σ :=
  { c with cache := { c.cache with
      nodes := Function.update c.cache.nodes p
        ((c.cache.nodes p).map fun e => { e with val := v }) } }

/-- One access, and the modification through the reference. -/
def step (S : Server σ T) (CACHE_SIZE : Nat) (op : Op T) (c : CachedLRU T σ) :
    Option (T × CachedLRU T σ) := do
  let (p, c) ← c.accessLRU S CACHE_SIZE op.isDirty op.idx
  let v ← c.deref p
  some (v, c.store p (op.modify v))

/-- A sequence of accesses: the values exposed, in order, and the final state. -/
def run (S : Server σ T) (CACHE_SIZE : Nat) : List (Op T) → CachedLRU T σ →
    Option (List T × CachedLRU T σ)
  | [], c => some ([], c)
  | op :: ops, c => do
    let (v, c) ← step S CACHE_SIZE op c
    let (vs, c) ← run S CACHE_SIZE ops c
    some (v :: vs, c)

end CachedLRU

end CACHE
