import OblSort.Server.Cached

/-!
# The authenticated server frontend

`NonCachedServerFrontendInstance` (`server/serverFrontend.hpp`) with `ENCRYPTED` and `AUTH` on: page
`i` written with counter `c` is encrypted under the nonce `nounce ^ (i, c)` and put at its place in
the backend; reading it decrypts under the same nonce and aborts when that fails.

AES-GCM is taken as an ideal authenticated cipher: a ciphertext (`FreshEncrypted`) is the page with
its nonce, and it decrypts under that nonce only. Bytes that were never written do not decrypt.
`encryptions` is the history of the encryptions the frontend has issued, newest first; the source
does not keep it.
-/

namespace EM

/-- `nounce_t`: the 12 bytes of the initialisation vector. -/
structure Nounce where
  indexPart : BitVec 64
  counterPart : BitVec 32
  deriving Repr, DecidableEq

/-- `nounceCopy`: the base nonce with the page index and the counter xored in. -/
def Nounce.forPage (n : Nounce) (i counter : Nat) : Nounce :=
  ⟨n.indexPart ^^^ BitVec.ofNat 64 i, n.counterPart ^^^ BitVec.ofNat 32 counter⟩

theorem Nounce.forPage_eq_iff {n : Nounce} {i i' c c' : Nat} :
    n.forPage i c = n.forPage i' c' ↔ i % 2 ^ 64 = i' % 2 ^ 64 ∧ c % 2 ^ 32 = c' % 2 ^ 32 := by
  rw [forPage, forPage, Nounce.mk.injEq, BitVec.xor_right_inj, BitVec.xor_right_inj,
    ← BitVec.toNat_inj, ← BitVec.toNat_inj]
  simp only [BitVec.toNat_ofNat]

/-- A ciphertext of the ideal cipher. -/
structure FreshEncrypted (T : Type) where
  nounce : Nounce
  data : T
  deriving Repr, DecidableEq

/-- `Decrypt`: `none` is the abort on an authentication failure. -/
def FreshEncrypted.decrypt {T : Type} (e : FreshEncrypted T) (iv : Nounce) : Option T :=
  if e.nounce = iv then some e.data else none

structure Frontend (T : Type) where
  nounce : Nounce
  defaultVal : T
  modified : Nat → Bool
  pages : Nat → Option (FreshEncrypted T)
  encryptions : List (FreshEncrypted T)

namespace Frontend

variable {T : Type}

/-- `Write(i, in, counter)`; with `LATE_INIT` the page is also recorded as modified. -/
def write (lateInit : Bool) (i : Nat) (v : T) (counter : Nat) (f : Frontend T) : Frontend T :=
  let e : FreshEncrypted T := ⟨f.nounce.forPage i counter, v⟩
  { f with
    modified := if lateInit then Function.update f.modified i true else f.modified
    pages := Function.update f.pages i (some e)
    encryptions := e :: f.encryptions }

/-- `Read(i, out, counter)`. -/
def read (lateInit : Bool) (i : Nat) (counter : Nat) (f : Frontend T) : Option T :=
  if lateInit && !f.modified i then some f.defaultVal
  else (f.pages i).bind (·.decrypt (f.nounce.forPage i counter))

/-- The constructor with a default page: with `LATE_INIT` off every page is written at once. -/
def new (lateInit : Bool) (nounce : Nounce) (initialSize : Nat) (defaultVal : T) : Frontend T :=
  let f : Frontend T := ⟨nounce, defaultVal, fun _ => false, fun _ => none, []⟩
  if lateInit then f
  else (List.range initialSize).foldl (fun f i => f.write false i defaultVal 0) f

/-- `ServerFrontendInstance`: `Cached` over the frontend with `LATE_INIT` off. `Write(i, in)` and
`Read(i, out)` pass counter 0. -/
def server (T : Type) : CACHE.Server (Frontend T) T where
  write i v f := f.write false i v 0
  read i f := f.read false i 0

end Frontend

/-- The number of pages of an `ExtVector` of `N` elements: its server is built with
`N / item_per_page + 1` pages. -/
def ExtVector.pageCount (itemPerPage N : Nat) : Nat := N / itemPerPage + 1

/-- The state of an `ExtVector` after construction: all pages encrypted with the default page, the
cache empty. -/
def ExtVector.new {T : Type} [Inhabited T] (n : Nat) [NeZero n] (nounce : Nounce)
    (itemPerPage N : Nat) (defaultPage : T) : CACHE.Cached n T (Frontend T) :=
  .new (Frontend.new false nounce (pageCount itemPerPage N) defaultPage)

end EM
