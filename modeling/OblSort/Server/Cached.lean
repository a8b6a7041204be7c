import Mathlib.Algebra.GroupWithZero.Nat
import Mathlib.Logic.Function.Basic
import Mathlib.Data.Fin.Basic

/-!
# The direct-mapped page cache

`DMCache` (`common/dmcache.hpp`) and `Cached` (`server/cached.hpp`): page `i` is cached in slot
`i % CACHE_SIZE`, and a miss writes the slot's page back when it is dirty before the new page is
read over it. `Cached` is generic in the server it inherits from, here `Server`; a read that
aborts (a page that fails authentication) is `none`.

`accessDM` returns the slot, which is what the returned reference points at; `deref` and `store`
read and write through the reference.
-/

namespace CACHE

/-- The base class `S` of `Cached`: reads and writes of whole pages of type `T`. -/
structure Server (σ T : Type) where
  write : Nat → T → σ → σ
  read : Nat → σ → Option T

/-- A server that keeps every page as it was last written. -/
def pageStore (T : Type) : Server (Nat → T) T where
  write i v m := Function.update m i v
  read i m := some (m i)

structure CacheEntry (T : Type) where
  val : T
  idx : Nat
  dirty : Bool
  deriving Repr, DecidableEq

/-- `Cached` with `CACHE_SIZE = n`: the slots of the cache and the server below it. -/
structure Cached (n : Nat) (T σ : Type) where
  cache : Fin n → CacheEntry T
  server : σ

namespace Cached

variable {n : Nat} [NeZero n] {T σ : Type}

/-- The constructor: `data.resize(CACHE_SIZE)` value-initialises every slot, so each holds a
zero page (`default`) under index 0, not dirty. -/
def new [Inhabited T] (server : σ) : Cached n T σ :=
  { cache := fun _ => ⟨default, 0, false⟩, server }

def setSlot (c : Cached n T σ) (k : Fin n) (e : CacheEntry T) : Cached n T σ :=
  { c with cache := Function.update c.cache k e }

/-- `GetMappedSlot`: `rootIdx % CACHE_SIZE`. -/
def mappedSlot (n : Nat) [NeZero n] (i : Nat) : Fin n := Fin.ofNat n i

/-- `AccessDM<dirty, skip_read, writeBack>`. -/
def accessDM (S : Server σ T) (dirty skipRead writeBack : Bool) (i : Nat) (c : Cached n T σ) :
    Option (Fin n × Cached n T σ) :=
  let k := mappedSlot n i
  let slot := c.cache k
  let finish (e : CacheEntry T) (server : σ) : Fin n × Cached n T σ :=
    (k, setSlot { c with server } k { e with dirty := (e.dirty || dirty) && writeBack })
  if slot.idx ≠ i then
    let server := if slot.dirty then S.write slot.idx slot.val c.server else c.server
    if skipRead then some (finish { slot with idx := i } server)
    else (S.read i server).map fun v => finish ⟨v, i, false⟩ server
  else some (finish slot c.server)

/-- The value the reference to slot `k` exposes. -/
def deref (k : Fin n) (c : Cached n T σ) : T := (c.cache k).val

/-- Assignment through the reference to slot `k`. -/
def store (k : Fin n) (v : T) (c : Cached n T σ) : Cached n T σ :=
  c.setSlot k { c.cache k with val := v }

def access (S : Server σ T) (i : Nat) (c : Cached n T σ) : Option (Fin n × Cached n T σ) :=
  accessDM S true false true i c

def accessReadOnly (S : Server σ T) (i : Nat) (c : Cached n T σ) :
    Option (Fin n × Cached n T σ) :=
  accessDM S false false true i c

def accessNoWriteBack (S : Server σ T) (i : Nat) (c : Cached n T σ) :
    Option (Fin n × Cached n T σ) :=
  accessDM S false false false i c

def accessWriteOnly (S : Server σ T) (i : Nat) (c : Cached n T σ) :
    Option (Fin n × Cached n T σ) :=
  accessDM S true true true i c

end Cached

/-! ## Access histories -/

/-- One access of a client: `Access(i)` followed by a modification through the reference before
the next access, or `AccessReadOnly(i)`. -/
inductive Op (T : Type) where
  | access (i : Nat) (modify : T → T)
  | accessReadOnly (i : Nat)

namespace Op

variable {T : Type}

def idx : Op T → Nat
  | access i _ => i
  | accessReadOnly i => i

/-- What the client does with the value it sees. -/
def modify : Op T → T → T
  | access _ f => f
  | accessReadOnly _ => id

def isDirty : Op T → Bool
  | access _ _ => true
  | accessReadOnly _ => false

end Op

namespace Cached

variable {n : Nat} [NeZero n] {T σ : Type}

/-- One access: the value it exposes and the state after the modification. -/
def step (S : Server σ T) (op : Op T) (c : Cached n T σ) : Option (T × Cached n T σ) :=
  match op with
  | .access i f => (access S i c).map fun (k, c') => (deref k c', store k (f (deref k c')) c')
  | .accessReadOnly i => (accessReadOnly S i c).map fun (k, c') => (deref k c', c')

/-- A sequence of accesses: the values exposed, in order, and the final state. -/
def run (S : Server σ T) : List (Op T) → Cached n T σ → Option (List T × Cached n T σ)
  | [], c => some ([], c)
  | op :: ops, c => do
    let (v, c) ← step S op c
    let (vs, c) ← run S ops c
    pure (v :: vs, c)

end Cached

/-! ## The uncached store -/

/-- The uncached store: the values a sequence of accesses sees when every page is read and written
directly. -/
def exposed {T : Type} : List (Op T) → (Nat → T) → List T
  | [], _ => []
  | op :: ops, m => m op.idx :: exposed ops (Function.update m op.idx (op.modify (m op.idx)))

end CACHE
