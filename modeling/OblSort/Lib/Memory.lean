import OblSort.Lib.Lanes

/-!
# Byte memory

A memory maps addresses to bytes, `none` to an address that must not be accessed. Words are loaded
and stored little-endian; an access to a byte that is not mapped fails, so a run that succeeds has
touched mapped bytes only.

`exchange` and `copy` are what a transfer between two ranges does to the whole memory. A transfer
may be cut into pieces (`Transfer.append`): `Does op E n` says that `op` does a transfer of `n`
bytes on all `Ranges`, which are mapped and lie apart, and two pieces in a row do their sum
(`Does.append`).
-/

abbrev Memory := Nat → Option (BitVec 8)

namespace Memory

open Lanes

variable {m : Memory} {p q n k : Nat}

/-- The `n` bytes from `p` on are mapped. -/
def Mapped (p n : Nat) (m : Memory) : Prop := ∀ i < n, (m (p + i)).isSome = true

instance : Decidable (Mapped p n m) := inferInstanceAs (Decidable (∀ i < n, _))

/-- The `n` bytes from `p` and those from `q` have none in common. -/
def Apart (p q n : Nat) : Prop := p + n ≤ q ∨ q + n ≤ p

/-- The word of the `n` bytes from `p`. -/
def load (n p : Nat) (m : Memory) : Option (BitVec (8 * n)) :=
  if Mapped p n m then some (ofLanes 8 n fun i => (m (p + i)).getD 0) else none

/-- Write a word to the `n` bytes from `p`. -/
def store (n p : Nat) (x : BitVec (8 * n)) (m : Memory) : Option Memory :=
  if Mapped p n m then some fun a => if p ≤ a ∧ a < p + n then some (lane 8 x (a - p)) else m a
  else none

/-! ## Transfers -/

/-- The bytes from `p` and those from `q` change places. -/
def exchange (p q n : Nat) (m : Memory) : Memory := fun a =>
  if p ≤ a ∧ a < p + n then m (q + (a - p))
  else if q ≤ a ∧ a < q + n then m (p + (a - q))
  else m a

/-- The bytes from `q` are written to `p`. -/
def copy (p q n : Nat) (m : Memory) : Memory := fun a =>
  if p ≤ a ∧ a < p + n then m (q + (a - p)) else m a

variable {a : Nat}

theorem exchange_left (h : p ≤ a ∧ a < p + n) : exchange p q n m a = m (q + (a - p)) := if_pos h

theorem exchange_right (hapart : Apart p q n) (h : q ≤ a ∧ a < q + n) :
    exchange p q n m a = m (p + (a - q)) := by
  unfold Apart at hapart
  rw [exchange, if_neg (by omega), if_pos h]

theorem exchange_frame (h1 : ¬ (p ≤ a ∧ a < p + n)) (h2 : ¬ (q ≤ a ∧ a < q + n)) :
    exchange p q n m a = m a := by
  rw [exchange, if_neg h1, if_neg h2]

theorem copy_dest (h : p ≤ a ∧ a < p + n) : copy p q n m a = m (q + (a - p)) := if_pos h

theorem copy_frame (h : ¬ (p ≤ a ∧ a < p + n)) : copy p q n m a = m a := if_neg h

/-- A transfer between two ranges of any length, done piece by piece or at once. -/
structure Transfer (E : (p q n : Nat) → Memory → Memory) : Prop where
  zero : ∀ p q m, E p q 0 m = m
  append : ∀ {p q n k : Nat} {m : Memory}, Apart p q (n + k) →
    E (p + n) (q + n) k (E p q n m) = E p q (n + k) m
  mapped : ∀ {p q n : Nat} {m : Memory}, Mapped p n m → Mapped q n m →
    ∀ a, (E p q n m a).isSome = (m a).isSome

theorem Mapped.isSome (h : Mapped p n m) {a : Nat} (h1 : p ≤ a) (h2 : a < p + n) :
    (m a).isSome = true := by
  have := h (a - p) (by omega)
  rwa [Nat.add_sub_cancel' h1] at this

theorem Mapped.mono (h : Mapped p n m) {p' k : Nat} (h1 : p ≤ p') (h2 : p' + k ≤ p + n) :
    Mapped p' k m := fun i hi => h.isSome (by omega) (by omega)

theorem transfer_none : Transfer fun _ _ _ m => m where
  zero _ _ _ := rfl
  append _ := rfl
  mapped _ _ _ := rfl

theorem transfer_exchange : Transfer exchange where
  zero p q m := by
    funext a
    exact exchange_frame (by omega) (by omega)
  append {p q n k m} h := by
    funext a
    unfold Apart at h
    by_cases h1 : p ≤ a ∧ a < p + n
    · rw [exchange_frame (by omega) (by omega), exchange_left h1, exchange_left (by omega)]
    by_cases h2 : p + n ≤ a ∧ a < p + n + k
    · rw [exchange_left h2, exchange_frame (by omega) (by omega), exchange_left (by omega),
        show q + n + (a - (p + n)) = q + (a - p) by omega]
    by_cases h3 : q ≤ a ∧ a < q + n
    · rw [exchange_frame (by omega) (by omega), exchange_right (by unfold Apart; omega) h3,
        exchange_right h (by omega)]
    by_cases h4 : q + n ≤ a ∧ a < q + n + k
    · rw [exchange_right (by unfold Apart; omega) h4, exchange_frame (by omega) (by omega),
        exchange_right h (by omega), show p + n + (a - (q + n)) = p + (a - q) by omega]
    · rw [exchange_frame h2 h4, exchange_frame h1 h3, exchange_frame (by omega) (by omega)]
  mapped {p q n m} hp hq a := by
    rw [exchange]
    split
    · rename_i h
      rw [hq (a - p) (by omega), hp.isSome h.1 h.2]
    · split
      · rename_i h
        rw [hp (a - q) (by omega), hq.isSome h.1 h.2]
      · rfl

theorem transfer_copy : Transfer copy where
  zero p q m := by
    funext a
    exact copy_frame (by omega)
  append {p q n k m} h := by
    funext a
    unfold Apart at h
    by_cases h1 : p ≤ a ∧ a < p + n
    · rw [copy_frame (by omega), copy_dest h1, copy_dest (by omega)]
    by_cases h2 : p + n ≤ a ∧ a < p + n + k
    · rw [copy_dest h2, copy_frame (by omega), copy_dest (by omega),
        show q + n + (a - (p + n)) = q + (a - p) by omega]
    · rw [copy_frame h2, copy_frame h1, copy_frame (by omega)]
  mapped {p q n m} hp hq a := by
    rw [copy]
    split
    · rename_i h
      rw [hq (a - p) (by omega), hp.isSome h.1 h.2]
    · rfl

/-- A transfer that is done or not. -/
theorem Transfer.ite {E : (p q n : Nat) → Memory → Memory} (hE : Transfer E) (cond : Bool) :
    Transfer fun p q n m => if cond then E p q n m else m := by
  cases cond with
  | false => exact transfer_none
  | true => exact hE

/-- Two mapped ranges of `n` bytes that lie apart. -/
structure Ranges (p q n : Nat) (m : Memory) : Prop where
  apart : Apart p q n
  left : Mapped p n m
  right : Mapped q n m

theorem Ranges.first (h : Ranges p q (n + k) m) : Ranges p q n m := by
  obtain ⟨hapart, hp, hq⟩ := h
  refine ⟨?_, hp.mono (Nat.le_refl p) (by omega), hq.mono (Nat.le_refl q) (by omega)⟩
  unfold Apart at hapart ⊢
  omega

/-- After the transfer of the first bytes the others are still mapped. -/
theorem Ranges.rest {E : (p q n : Nat) → Memory → Memory} (hE : Transfer E)
    (h : Ranges p q (n + k) m) : Ranges (p + n) (q + n) k (E p q n m) := by
  have hkeep := hE.mapped h.first.left h.first.right
  have hmapped : ∀ r, Mapped r (n + k) m → Mapped (r + n) k (E p q n m) := by
    intro r hr i hi
    rw [hkeep]
    exact hr.isSome (by omega) (by omega)
  refine ⟨?_, hmapped p h.left, hmapped q h.right⟩
  have hapart := h.apart
  unfold Apart at hapart ⊢
  omega

/-- `op` does the transfer `E` of `n` bytes. -/
def Does (op : (p q : Nat) → Memory → Option Memory) (E : (p q n : Nat) → Memory → Memory)
    (n : Nat) :
    Prop :=
  ∀ p q m, Ranges p q n m → op p q m = some (E p q n m)

theorem Does.skip {E : (p q n : Nat) → Memory → Memory} (hE : Transfer E) :
    Does (fun _ _ m => some m) E 0 := fun p q m _ => by rw [hE.zero]

/-- **Two pieces in a row.** -/
theorem Does.append {op op' : (p q : Nat) → Memory → Option Memory}
    {E : (p q n : Nat) → Memory → Memory} (hE : Transfer E) (h : Does op E n) (h' : Does op' E k) :
    Does (fun p q m => (op p q m).bind (op' (p + n) (q + n))) E (n + k) := by
  intro p q m hranges
  dsimp only
  rw [h p q m hranges.first, Option.bind_some, h' _ _ _ (hranges.rest hE), hE.append hranges.apart]

/-! ## Words -/

/-- Two words of `n` bytes are loaded, given to `op` and stored again. -/
def onWords (n : Nat) (op : BitVec (8 * n) → BitVec (8 * n) → BitVec (8 * n) × BitVec (8 * n))
    (p q : Nat) (m : Memory) : Option Memory :=
  (load n p m).bind fun x =>
  (load n q m).bind fun y =>
  (store n p (op x y).1 m).bind fun m => store n q (op x y).2 m

/-- A word of `n` bytes is replaced by what `op` makes of it and a second word. -/
def onDest (n : Nat) (op : BitVec (8 * n) → BitVec (8 * n) → BitVec (8 * n)) (p q : Nat)
    (m : Memory) :
    Option Memory :=
  (load n p m).bind fun x =>
  (load n q m).bind fun y => store n p (op x y) m

theorem load_of_mapped (h : Mapped p n m) :
    load n p m = some (ofLanes 8 n fun i => (m (p + i)).getD 0) := if_pos h

theorem store_of_mapped (h : Mapped p n m) (x : BitVec (8 * n)) :
    store n p x m = some fun a => if p ≤ a ∧ a < p + n then some (lane 8 x (a - p))
    else m a := if_pos h

/-- A byte of a word that has been loaded. -/
theorem Mapped.lane_load (h : Mapped p n m) {i : Nat} (hi : i < n) :
    some (lane 8 (ofLanes 8 n fun i => (m (p + i)).getD 0) i) = m (p + i) := by
  rw [lane_ofLanes _ hi]
  exact Option.getD_of_ne_none (Option.isSome_iff_ne_none.1 (h i hi)) 0

/-- **An exchange of words** exchanges their bytes. -/
theorem onWords_exchange {cond : Bool}
    {op : BitVec (8 * n) → BitVec (8 * n) → BitVec (8 * n) × BitVec (8 * n)}
    (hop : ∀ x y, op x y = if cond then (y, x) else (x, y)) :
    Does (onWords n op) (fun p q n m => if cond then exchange p q n m else m) n := by
  rintro p q m ⟨hapart, hp, hq⟩
  have hstore : ∀ x : BitVec (8 * n), Mapped q n
      (fun a => if p ≤ a ∧ a < p + n then some (lane 8 x (a - p)) else m a) := by
    intro x i hi
    dsimp only
    split
    · rfl
    · exact hq i hi
  simp only [onWords, load_of_mapped hp, load_of_mapped hq, Option.bind_some, hop,
    store_of_mapped hp, store_of_mapped (hstore _)]
  refine congrArg some (funext fun a => ?_)
  by_cases h1 : p ≤ a ∧ a < p + n
  · have hother : ¬ (q ≤ a ∧ a < q + n) := by
      unfold Apart at hapart
      omega
    rw [if_neg hother, if_pos h1]
    cases cond with
    | false => exact (hp.lane_load (by omega)).trans (congrArg m (by omega))
    | true => exact (hq.lane_load (by omega)).trans (exchange_left h1).symm
  by_cases h2 : q ≤ a ∧ a < q + n
  · rw [if_pos h2]
    cases cond with
    | false => exact (hq.lane_load (by omega)).trans (congrArg m (by omega))
    | true => exact (hp.lane_load (by omega)).trans (exchange_right hapart h2).symm
  · rw [if_neg h2, if_neg h1]
    cases cond with
    | false => rfl
    | true => exact (exchange_frame h1 h2).symm

/-- **A move of a word** copies its bytes. -/
theorem onDest_copy {cond : Bool} {op : BitVec (8 * n) → BitVec (8 * n) → BitVec (8 * n)}
    (hop : ∀ x y, op x y = if cond then y else x) :
    Does (onDest n op) (fun p q n m => if cond then copy p q n m else m) n := by
  rintro p q m ⟨-, hp, hq⟩
  simp only [onDest, load_of_mapped hp, load_of_mapped hq, Option.bind_some, hop,
    store_of_mapped hp]
  refine congrArg some (funext fun a => ?_)
  by_cases h1 : p ≤ a ∧ a < p + n
  · rw [if_pos h1]
    cases cond with
    | false => exact (hp.lane_load (by omega)).trans (congrArg m (by omega))
    | true => exact (hq.lane_load (by omega)).trans (copy_dest h1).symm
  · rw [if_neg h1]
    cases cond with
    | false => rfl
    | true => exact (copy_frame h1).symm

end Memory
