import OblSort.DynamicVector
import OblSort.Lib.Schedule

/-!
# Pages on an untrusted backend

The server of a dynamic page vector (`server/serverFrontend_dynamic.hpp`) over a backend that may
answer a read with any ciphertext that has been stored before, at any place. `Vector.replaying` is
the vector of the sorters on top of it; `Backend.honest` answers with what was last stored at the
place.
-/

namespace EM.DynamicPageVector

open Schedule

/-- `DynamicServerFrontendInstance`: its base nonce and the ciphertexts that have been stored, each
with its place, newest first. -/
structure ReplayServer (P : Type) where
  nounce : Nounce
  stored : List (Nat × FreshEncrypted P)
  /-- The operations, newest first; the source does not keep them. -/
  events : List (Event P)
  deriving Repr, DecidableEq

/-- Which of the stored ciphertexts a read of a page gets. -/
abbrev Backend (P : Type) := (pageIdx counter : Nat) → ReplayServer P → Nat

def Backend.honest (P : Type) : Backend P := fun pageIdx _ s =>
  s.stored.findIdx fun slot => slot.1 == pageIdx

namespace ReplayServer

variable {P : Type}

def new (nounce : Nounce) : ReplayServer P := ⟨nounce, [], []⟩

/-- Every read was for the last write of its page, and failed or gave what was written; no page was
written twice with one counter, and no nonce was used twice. -/
structure Fresh (s : ReplayServer P) : Prop where
  reads : Reads s.events
  writes : (writes s.events).Nodup
  nounces : (s.stored.map fun slot => slot.2.nounce).Nodup

end ReplayServer

def Vector.replaying {P : Type} (answer : Backend P) : Vector (ReplayServer P) P where
  write i p counter s :=
    { s with
      stored := (i, ⟨s.nounce.forPage i counter, p⟩) :: s.stored
      events := .write i counter p :: s.events }
  read i counter s :=
    let result := s.stored[answer i counter s]?.bind (·.2.decrypt (s.nounce.forPage i counter))
    (result, { s with events := .read i counter result :: s.events })

end EM.DynamicPageVector
