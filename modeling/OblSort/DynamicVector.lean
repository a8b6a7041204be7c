import Mathlib.Logic.Function.Basic
import OblSort.Server.Frontend

/-!
# Dynamic page vectors

`DynamicPageVector::Vector` (`dynamicvector.hpp`), the intermediate vector of the sorters. They use
it through `CopyIn` and `CopyOut` of one page, which are a `Read` and a `Write` of its server with a
counter. A `Vector` is the two operations on some state; `Vector.plain` keeps the pages as they are,
and `Vector.authenticated` encrypts them (`server/serverFrontend_dynamic.hpp`).

`CopyIn` and `CopyOut` of several pages, and the vectors of one process: the page size that `CopyIn`
moves its output by is a `static` variable, set by the first call in the process.
-/

namespace EM.DynamicPageVector

variable {σ T : Type}

/-- The pages of a vector with contents of type `P`, over a state of type `σ`. -/
structure Vector (σ P : Type) where
  /-- `server.Write(pageIdx, in, counter)`. -/
  write : (pageIdx : Nat) → P → (counter : Nat) → σ → σ
  /-- `server.Read(pageIdx, out, counter)`; `none` is an authentication failure. -/
  read : (pageIdx counter : Nat) → σ → Option P × σ

/-- Pages that always authenticate. -/
def Vector.plain (P : Type) : Vector (Nat → P) P where
  write pageIdx p _ pages := Function.update pages pageIdx p
  read pageIdx _ pages := (some (pages pageIdx), pages)

/-- `DynamicServerFrontendInstance`: its base nonce and the ciphertexts in its slot. -/
structure Server (P : Type) where
  nounce : Nounce
  pages : Nat → Option (FreshEncrypted P)

def Vector.authenticated (P : Type) : Vector (Server P) P where
  write i p counter s :=
    { s with pages := Function.update s.pages i (some ⟨s.nounce.forPage i counter, p⟩) }
  read i counter s := ((s.pages i).bind (·.decrypt (s.nounce.forPage i counter)), s)

/-! ## Copies -/

/-- The loop of `CopyOut`: `count` pages from `pageIdx` on. -/
def copyOutPages (V : Vector σ (List T)) (itemPerPage counter : Nat) :
    (count pageIdx : Nat) → (source : List T) → σ → σ
  | 0, _, _, s => s
  | count + 1, pageIdx, source, s =>
    copyOutPages V itemPerPage counter count (pageIdx + 1) (source.drop itemPerPage)
      (V.write pageIdx (source.take itemPerPage) counter s)

/-- A page put into memory. -/
def putPage (dest : Nat) (page : List T) (mem : Nat → T) : Nat → T := fun x =>
  if x < dest then mem x else (page[x - dest]?).getD (mem x)

/-- The loop of `CopyIn`: `count` pages from `pageIdx` on, the output moved by `itemPerPage` after
each. `none` is an authentication failure. -/
def copyInPages (V : Vector σ (List T)) (itemPerPage counter : Nat) :
    (count pageIdx dest : Nat) → (Nat → T) → σ → Option ((Nat → T) × σ)
  | 0, _, _, mem, s => some (mem, s)
  | count + 1, pageIdx, dest, mem, s =>
    match V.read pageIdx counter s with
    | (none, _) => none
    | (some page, s) =>
      copyInPages V itemPerPage counter count (pageIdx + 1) (dest + itemPerPage)
        (putPage dest page mem) s

/-! ## The vectors of a process -/

/-- A vector with its page size. -/
structure DynVector (T : Type) where
  itemPerPage : Nat
  itemPerPage_pos : 0 < itemPerPage
  server : Server (List T)

/-- The vectors of a process, and the `static` page size of `CopyIn`, which the first call sets. -/
structure Process (T : Type) where
  staticItemPerPage : Option Nat
  vectors : List (DynVector T)

def Process.start : Process T := ⟨none, []⟩

/-- What a process does with its vectors; ranges begin and end at pages. -/
inductive Op (T : Type) where
  | create (itemPerPage : Nat) (itemPerPage_pos : 0 < itemPerPage) (nounce : Nounce)
  | copyOut (vec : Nat) (beginPageIdx : Nat) (source : List T) (counter : Nat)
  | copyIn (vec : Nat) (beginPageIdx endPageIdx : Nat) (mem : Nat → T) (counter : Nat)

namespace Process

/-- `CopyOut(source, begin of page beginPageIdx, counter)`. -/
def copyOut (vec beginPageIdx : Nat) (source : List T) (counter : Nat) (p : Process T) :
    Option (Process T) :=
  match p.vectors[vec]? with
  | none => none
  | some v =>
    let server := copyOutPages (Vector.authenticated (List T)) v.itemPerPage counter
      (source.length / v.itemPerPage) beginPageIdx source v.server
    some { p with vectors := p.vectors.set vec { v with server := server } }

/-- `CopyIn(begin of page beginPageIdx, begin of page endPageIdx, mem, counter)`. -/
def copyIn (vec beginPageIdx endPageIdx : Nat) (mem : Nat → T) (counter : Nat) (p : Process T) :
    Option ((Nat → T) × Process T) :=
  match p.vectors[vec]? with
  | none => none
  | some v =>
    let itemPerPage := p.staticItemPerPage.getD v.itemPerPage
    match copyInPages (Vector.authenticated (List T)) itemPerPage counter
      (endPageIdx - beginPageIdx) beginPageIdx 0 mem v.server with
    | none => none
    | some (mem, server) =>
      some (mem, ⟨some itemPerPage, p.vectors.set vec { v with server := server }⟩)

/-- `none` when the process has aborted or used a vector that is not there. -/
def step : Op T → Process T → Option (Process T)
  | .create itemPerPage h nounce, p =>
    some { p with vectors := p.vectors ++ [⟨itemPerPage, h, ⟨nounce, fun _ => none⟩⟩] }
  | .copyOut vec beginPageIdx source counter, p => p.copyOut vec beginPageIdx source counter
  | .copyIn vec beginPageIdx endPageIdx mem counter, p =>
    (p.copyIn vec beginPageIdx endPageIdx mem counter).map Prod.snd

def run : List (Op T) → Process T → Option (Process T)
  | [], p => some p
  | op :: ops, p => (step op p).bind (run ops)

end Process

/-- The page size of the vector that the first `CopyIn` reads, where `sizes` are those of the
vectors created so far. -/
def firstCopyIn : (sizes : List Nat) → List (Op T) → Option Nat
  | _, [] => none
  | sizes, .create itemPerPage _ _ :: ops => firstCopyIn (sizes ++ [itemPerPage]) ops
  | sizes, .copyOut _ _ _ _ :: ops => firstCopyIn sizes ops
  | sizes, .copyIn vec _ _ _ _ :: _ => sizes[vec]?

end EM.DynamicPageVector
