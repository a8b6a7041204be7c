import OblSort.Lib.Bytes
import OblSort.Lib.Loop
import OblSort.Server.Allocator
import OblSort.Server.Frontend

/-!
# Frontends on one backend

`MemServerBackend` (`server/serverBackend.hpp`) as the frontends of a process use it: one array of
bytes and one allocator. `NonCachedServerFrontendInstance` (`server/serverFrontend.hpp`) with
`ENCRYPTED` and `AUTH` on takes a slot when it is constructed, and gives it back when it is
destroyed; page `i` is the ciphertext at `slot.base + i * sizeOfT`. `Frontend` is such an instance
with pages of its own.

The frontends of a process are numbered. They have pages of different types and sizes: a `Codec`
says what the bytes of a page are, for pages of one common type. Bytes that nobody has written hold
anything.
-/

namespace EM

open Bytes Loop

variable {P B : Type}

/-- How a process ends early. -/
inductive Fault
  /-- `Allocate` aborts. -/
  | allocation
  /-- A page fails to authenticate. -/
  | authentication
  /-- An access past the end of `data`. -/
  | outOfRange
  /-- Use of a frontend that has no slot, or is not there. -/
  | noSlot
  deriving Repr, DecidableEq

/-! ## The backend -/

structure MemServerBackend (B : Type) extends LargeBlockAllocator where
  data : Nat → B

namespace MemServerBackend

def new (size : Nat) (data : Nat → B) : MemServerBackend B :=
    { LargeBlockAllocator.new size with data }

/-- The number of bytes of `data`: `4096` for each of `(size - 1) / 4096 + 1` pages. -/
def capacity (b : MemServerBackend B) : Nat := 4096 * ((b.size - 1) / 4096 + 1)

def read (offset sz : Nat) (b : MemServerBackend B) : Except Fault (List B) :=
  if offset + sz ≤ b.capacity then .ok (readRange offset sz b.data) else .error .outOfRange

def write (offset : Nat) (bytes : List B) (b : MemServerBackend B) :
    Except Fault (MemServerBackend B) :=
  if offset + bytes.length ≤ b.capacity then .ok { b with data := writeRange offset bytes b.data }
  else .error .outOfRange

end MemServerBackend

/-! ## Frontends -/

/-- `T::Encrypted_t`: what the bytes of a page are. The cipher is ideal, as in `FreshEncrypted`. -/
structure Codec (P B : Type) where
  sizeOfT : Nat
  sizeOfT_pos : 0 < sizeOfT
  encrypt : Nounce → P → List B
  decrypt : Nounce → List B → Option P
  length_encrypt : ∀ iv v, (encrypt iv v).length = sizeOfT
  decrypt_encrypt : ∀ iv iv' v, decrypt iv' (encrypt iv v) = if iv = iv' then some v else none

structure FrontendInstance (P B : Type) where
  codec : Codec P B
  lateInit : Bool
  nounce : Nounce
  defaultVal : P
  modified : Nat → Bool
  /-- `none` is `slot.base = -1`. -/
  slot : Option AllocatorSlot

/-- The constructors: with a default page and `LATE_INIT` on or off, or without one. -/
inductive Init
  | lateInit
  | written
  | uninitialised
  deriving DecidableEq, Repr

/-- The frontends of a process and their backend. -/
structure SharedBackend (P B : Type) where
  backend : MemServerBackend B
  frontends : Nat → Option (FrontendInstance P B)

namespace SharedBackend

/-- `slot.base + i * sizeOfT`. -/
def offset (slot : AllocatorSlot) (i sizeOfT : Nat) : Nat := (slot.base + i * sizeOfT) % 2 ^ 64

/-- `Write(i, in, counter)`. -/
def write (id i : Nat) (v : P) (counter : Nat) (w : SharedBackend P B) :
    Except Fault (SharedBackend P B) :=
  match w.frontends id with
  | none => .error .noSlot
  | some f =>
    match f.slot with
    | none => .error .noSlot
    | some slot => do
      let modified := if f.lateInit then Function.update f.modified i true else f.modified
      let backend ← w.backend.write (offset slot i f.codec.sizeOfT)
        (f.codec.encrypt (f.nounce.forPage i counter) v)
      .ok ⟨backend, Function.update w.frontends id (some { f with modified })⟩

/-- `Read(i, out, counter)`. -/
def read (id i counter : Nat) (w : SharedBackend P B) : Except Fault P :=
  match w.frontends id with
  | none => .error .noSlot
  | some f =>
    if f.lateInit && !f.modified i then .ok f.defaultVal
    else
      match f.slot with
      | none => .error .noSlot
      | some slot => do
        let bytes ← w.backend.read (offset slot i f.codec.sizeOfT) f.codec.sizeOfT
        match f.codec.decrypt (f.nounce.forPage i counter) bytes with
        | none => .error .authentication
        | some v => .ok v

/-- The constructors. A frontend without pages takes no slot. -/
def construct (id : Nat) (codec : Codec P B) (init : Init) (initialSize : Nat) (nounce : Nounce)
    (defaultVal : P) (w : SharedBackend P B) : Except Fault (SharedBackend P B) :=
  let f : FrontendInstance P B :=
    ⟨codec, decide (init = .lateInit), nounce, defaultVal, fun _ => false, none⟩
  if initialSize = 0 then .ok { w with frontends := Function.update w.frontends id (some f) }
  else
    let requiredSize := initialSize * codec.sizeOfT % 2 ^ 64
    match w.backend.allocate requiredSize with
    | none => .error .allocation
    | some (slot, allocator) =>
      let w : SharedBackend P B := ⟨{ w.backend with toLargeBlockAllocator := allocator },
        Function.update w.frontends id (some { f with slot := some slot })⟩
      if init = .written then forRange initialSize (fun i => write id i defaultVal 0) w else .ok w

/-- The copy constructor takes the slot over. -/
def move (id other : Nat) (w : SharedBackend P B) : Except Fault (SharedBackend P B) :=
  match w.frontends other with
  | none => .error .noSlot
  | some f =>
    let emptied := { f with modified := fun _ => false, slot := none }
    .ok { w with
      frontends := Function.update (Function.update w.frontends other (some emptied)) id (some f) }

/-- `preventFree()`. -/
def preventFree (id : Nat) (w : SharedBackend P B) : Except Fault (SharedBackend P B) :=
  match w.frontends id with
  | none => .error .noSlot
  | some f => .ok { w with
      frontends := Function.update w.frontends id (some { f with slot := none }) }

/-- The destructor. -/
def destroy (id : Nat) (w : SharedBackend P B) : Except Fault (SharedBackend P B) :=
  match w.frontends id with
  | none => .error .noSlot
  | some f =>
    let frontends := Function.update w.frontends id none
    match f.slot with
    | none => .ok { w with frontends }
    | some slot => .ok ⟨{ w.backend with toLargeBlockAllocator := w.backend.free slot }, frontends⟩

end SharedBackend

/-- What a process does with its frontends. -/
inductive FrontendOp (P B : Type)
  | construct (id : Nat) (codec : Codec P B) (init : Init) (initialSize : Nat) (nounce : Nounce)
    (defaultVal : P)
  | move (id other : Nat)
  | preventFree (id : Nat)
  | destroy (id : Nat)
  | write (id i : Nat) (v : P) (counter : Nat)
  | read (id i counter : Nat)

namespace SharedBackend

/-- One operation, and what it has read. -/
def step : FrontendOp P B → SharedBackend P B → Except Fault (List P × SharedBackend P B)
  | .construct id codec init initialSize nounce defaultVal, w => do
    let w ← w.construct id codec init initialSize nounce defaultVal
    .ok ([], w)
  | .move id other, w => do
    let w ← w.move id other
    .ok ([], w)
  | .preventFree id, w => do
    let w ← w.preventFree id
    .ok ([], w)
  | .destroy id, w => do
    let w ← w.destroy id
    .ok ([], w)
  | .write id i v counter, w => do
    let w ← w.write id i v counter
    .ok ([], w)
  | .read id i counter, w => do
    let v ← w.read id i counter
    .ok ([v], w)

/-- A run, and all that it has read. -/
def run : List (FrontendOp P B) → SharedBackend P B → Except Fault (List P × SharedBackend P B)
  | [], w => .ok ([], w)
  | op :: ops, w => do
    let r ← step op w
    let r' ← run ops r.2
    .ok (r.1 ++ r'.1, r'.2)

/-- The backend of a process without frontends. -/
def new (size : Nat) (data : Nat → B) : SharedBackend P B := ⟨.new size data, fun _ => none⟩

end SharedBackend

/-! ## Frontends with pages of their own -/

/-- A frontend with pages of its own. -/
structure PrivateFrontend (P B : Type) where
  codec : Codec P B
  lateInit : Bool
  initialSize : Nat
  frontend : Frontend P

/-- A frontend without a slot, or with one. -/
inductive Owner (P B : Type)
  | empty
  | pages (p : PrivateFrontend P B)

/-- The frontends of a process, each with pages of its own. -/
abbrev PrivateFrontends (P B : Type) := Nat → Option (Owner P B)

namespace PrivateFrontends

/-- The pages of a new frontend. -/
def newPages (init : Init) (initialSize : Nat) (nounce : Nounce) (defaultVal : P) : Frontend P :=
  match init with
  | .lateInit => .new true nounce initialSize defaultVal
  | .written => .new false nounce initialSize defaultVal
  | .uninitialised => ⟨nounce, defaultVal, fun _ => false, fun _ => none, []⟩

/-- One operation, if it is one that a process may do: it uses frontends that are there, pages that
they have, and reads a page that has been written, with the counter it was last written with. -/
def step : FrontendOp P B → PrivateFrontends P B → Option (List P × PrivateFrontends P B)
  | .construct id codec init initialSize nounce defaultVal, o =>
    if (o id).isNone ∧ initialSize * codec.sizeOfT < 2 ^ 64 then
      some ([], Function.update o id (some (if initialSize = 0 then .empty else
        .pages ⟨codec, decide (init = .lateInit), initialSize,
          newPages init initialSize nounce defaultVal⟩)))
    else none
  | .move id other, o =>
    match o id, o other with
    | none, some owner => some ([], Function.update (Function.update o other (some .empty))
        id (some owner))
    | _, _ => none
  | .preventFree id, o =>
    if (o id).isSome then some ([], Function.update o id (some .empty)) else none
  | .destroy id, o => if (o id).isSome then some ([], Function.update o id none) else none
  | .write id i v counter, o =>
    match o id with
    | some (.pages p) =>
      if i < p.initialSize then
        some ([], Function.update o id
          (some (.pages { p with frontend := p.frontend.write p.lateInit i v counter })))
      else none
    | _ => none
  | .read id i counter, o =>
    match o id with
    | some (.pages p) =>
      if i < p.initialSize then (p.frontend.read p.lateInit i counter).map fun v =>
        ([v], o) else none
    | _ => none

def run : List (FrontendOp P B) → PrivateFrontends P B → Option (List P × PrivateFrontends P B)
  | [], o => some ([], o)
  | op :: ops, o => do
    let r ← step op o
    let r' ← run ops r.2
    some (r.1 ++ r'.1, r'.2)

end PrivateFrontends

end EM
