import OblSort.ReplayVector
import Mathlib.Data.List.Nodup

/-!
# Freshness of pages on an untrusted backend

A vector whose pages have a current counter (`Versioned`): a write needs a greater counter than that
of its page, a read exactly that one. The vector on an untrusted backend is one: used so, it stays
fresh, and it fails only when the backend is not honest (`replaying_versioned`).
-/

namespace EM.DynamicPageVector

open Loop Schedule

variable {σ P : Type}

/-- The writes keep `Inv` when they have a greater counter than the current one of their page, and
the reads when they have this one; a read fails only if `A`. -/
structure Versioned (V : Vector σ P) (Inv : σ → Prop) (cur : σ → Nat → Option Nat)
    (A : Prop) : Prop where
  write : ∀ {s i c} (p : P), Inv s → i < 2 ^ 64 → c < 2 ^ 32 → (∀ c', cur s i = some c' → c' < c) →
    Inv (V.write i p c s) ∧ cur (V.write i p c s) = Function.update (cur s) i (some c)
  read : ∀ {s i c}, Inv s → cur s i = some c →
    Inv (V.read i c s).2 ∧ cur (V.read i c s).2 = cur s ∧ ((V.read i c s).1 = none → A)

/-! ## Loops of copies -/

/-- The counter of a page that is about to be written with counter `c`, when it is written with
every counter from 0 on. -/
def before (c : Nat) : Option Nat := if c = 0 then none else some (c - 1)

theorem lt_of_before {c c' : Nat} (h : before c = some c') : c' < c := by
  rw [before] at h
  split at h
  · cases h
  · cases h
    omega

section Loops

variable {V : Vector σ P} {Inv : σ → Prop} {cur : σ → Nat → Option Nat} {A : Prop} {T ε : Type}
  {vec : T → σ} {E : ε → Prop} {pos : Nat → Nat} {n c : Nat} {body : Nat → T → Except ε T}

/-- Pages that have the counter are read. -/
theorem Versioned.reads (hV : Versioned V Inv cur A)
    (hbody : ∀ j < n, ∀ s, Inv (V.read (pos j) c (vec s)).2 →
      ((V.read (pos j) c (vec s)).1 = none → A) →
      Ends (fun s' => vec s' = (V.read (pos j) c (vec s)).2) E (body j s))
    {s : T} (hs : Inv (vec s)) (hcur : ∀ j < n, cur (vec s) (pos j) = some c) :
    Ends (fun s' => Inv (vec s') ∧ cur (vec s') = cur (vec s)) E (forRange n body s) := by
  refine forRange_ends (fun _ s' => Inv (vec s') ∧ cur (vec s') = cur (vec s)) ⟨hs, rfl⟩ ?_
  rintro j hj s₁ ⟨hs₁, hcur₁⟩
  obtain ⟨hinv, hkeep, hnone⟩ := hV.read hs₁ ((congrFun hcur₁ _).trans (hcur j hj))
  refine (hbody j hj s₁ hinv hnone).mono (fun s₂ h₂ => ?_) fun _ he => he
  rw [h₂]
  exact ⟨hinv, hkeep.trans hcur₁⟩

/-- Pages that are different, and that have been written with the counters below, are written. -/
theorem Versioned.writes (hV : Versioned V Inv cur A)
    (hbody : ∀ j < n, ∀ s, ∃ s' p, body j s = .ok s' ∧ vec s' = V.write (pos j) p c (vec s))
    (hpos : ∀ i < n, ∀ j < n, pos i = pos j → i = j) (hlt : ∀ j < n, pos j < 2 ^ 64)
    (hc : c < 2 ^ 32) {s : T} (hs : Inv (vec s)) (hcur : ∀ j < n, cur (vec s) (pos j) = before c) :
    Ends (fun s' => Inv (vec s') ∧ Stamps pos n (some c) (cur (vec s)) (cur (vec s'))) E
      (forRange n body s) := by
  refine forRange_ends (fun j s' => Inv (vec s') ∧ Stamps pos j (some c) (cur (vec s))
    (cur (vec s'))) ⟨hs, .zero⟩ ?_
  rintro j hj s₁ ⟨hs₁, h₁⟩
  have hold : cur (vec s₁) (pos j) = before c := by
    rw [h₁.frame _ fun k hk heq => ?_, hcur j hj]
    have := hpos k (by omega) j hj heq
    omega
  obtain ⟨s₂, p, hok, hvec⟩ := hbody j hj s₁
  obtain ⟨hinv, hstamp⟩ := hV.write p hs₁ (hlt j hj) hc fun c' h => lt_of_before (hold ▸ h)
  rw [hok, ends_ok, hvec, hstamp]
  exact ⟨hinv, h₁.succ⟩

end Loops

/-! ## The server -/

namespace ReplayServer

/-- What the writes have stored. -/
def encryptions (nounce : Nounce) : List (Event P) → List (Nat × FreshEncrypted P)
  | [] => []
  | .write i counter p :: es => (i, ⟨nounce.forPage i counter, p⟩) :: encryptions nounce es
  | .read _ _ _ :: es => encryptions nounce es

theorem mem_encryptions {nounce : Nounce} {es : List (Event P)} {slot : Nat × FreshEncrypted P} :
    slot ∈ encryptions nounce es ↔
      ∃ i c p, .write i c p ∈ es ∧ slot = (i, ⟨nounce.forPage i c, p⟩) := by
  induction es with
  | nil => simp [encryptions]
  | cons e es ih =>
    cases e with
    | write i c p =>
      rw [encryptions, List.mem_cons, ih]
      constructor
      · rintro (rfl | ⟨i', c', p', hmem, h⟩)
        · exact ⟨i, c, p, List.mem_cons_self, rfl⟩
        · exact ⟨i', c', p', List.mem_cons_of_mem _ hmem, h⟩
      · rintro ⟨i', c', p', hmem, h⟩
        rcases List.mem_cons.1 hmem with heq | hmem
        · cases heq
          exact .inl h
        · exact .inr ⟨i', c', p', hmem, h⟩
    | read i c r => simp [encryptions, ih]

/-- The current counter of a page. -/
def counter (s : ReplayServer P) (i : Nat) : Option Nat := (lastWrite i s.events).map Prod.fst

/-- The server of a vector that is used as `Versioned` says. -/
structure Kept (s : ReplayServer P) : Prop where
  reads : Reads s.events
  rising : Rising s.events
  range : ∀ x ∈ writes s.events, x.1 < 2 ^ 64 ∧ x.2 < 2 ^ 32
  stored : s.stored = encryptions s.nounce s.events

theorem kept_new (nounce : Nounce) : Kept (new nounce : ReplayServer P) :=
  ⟨trivial, trivial, fun _ h => absurd h (List.not_mem_nil), rfl⟩

theorem counter_new (nounce : Nounce) (i : Nat) : (new nounce : ReplayServer P).counter i =
    none := rfl

theorem forPage_inj {nounce : Nounce} {x y : Nat × Nat} (hx : x.1 < 2 ^ 64 ∧ x.2 < 2 ^ 32)
    (hy : y.1 < 2 ^ 64 ∧ y.2 < 2 ^ 32) (h : nounce.forPage x.1 x.2 = nounce.forPage y.1 y.2) :
    x = y := by
  obtain ⟨h1, h2⟩ := Nounce.forPage_eq_iff.1 h
  rw [Nat.mod_eq_of_lt hx.1, Nat.mod_eq_of_lt hy.1] at h1
  rw [Nat.mod_eq_of_lt hx.2, Nat.mod_eq_of_lt hy.2] at h2
  exact Prod.ext h1 h2

theorem nounces_eq (nounce : Nounce) (es : List (Event P)) :
    ((encryptions nounce es).map fun slot => slot.2.nounce) =
      (writes es).map fun x => nounce.forPage x.1 x.2 := by
  induction es with
  | nil => rfl
  | cons e es ih =>
    cases e with
    | write i c p => rw [encryptions, writes, List.map_cons, List.map_cons, ih]
    | read i c r => exact ih

theorem Kept.fresh {s : ReplayServer P} (h : Kept s) : Fresh s where
  reads := h.reads
  writes := h.rising.nodup
  nounces := by
    rw [h.stored, nounces_eq]
    exact h.rising.nodup.map_on fun x hx y hy heq => forPage_inj (h.range x hx) (h.range y hy) heq

/-- A ciphertext that decrypts under the nonce of the last write of a page is that write. -/
theorem Kept.decrypt_eq {s : ReplayServer P} (h : Kept s) {i c : Nat} {value : P}
    (hlast : lastWrite i s.events = some (c, value)) {slot : Nat × FreshEncrypted P}
    (hslot : slot ∈ s.stored) {x : P} (hx : slot.2.decrypt (s.nounce.forPage i c) = some x) :
    x = value := by
  rw [h.stored] at hslot
  obtain ⟨i', c', p, hmem, rfl⟩ := mem_encryptions.1 hslot
  rw [FreshEncrypted.decrypt] at hx
  split at hx
  · rename_i hnounce
    obtain rfl : p = x := Option.some.inj hx
    have heq := forPage_inj (x := (i', c')) (y := (i, c)) (h.range _ (mem_writes.2 ⟨p, hmem⟩))
      (h.range _ (mem_writes.2 ⟨value, mem_of_lastWrite hlast⟩)) hnounce
    cases heq
    obtain ⟨last, hlast', -, hval⟩ := h.rising.last hmem
    rw [hlast] at hlast'
    cases hlast'
    exact hval rfl
  · cases hx

theorem counter_eq_some {s : ReplayServer P} {i c : Nat} :
    s.counter i = some c ↔ ∃ value, lastWrite i s.events = some (c, value) := by
  rw [counter, Option.map_eq_some_iff]
  constructor
  · rintro ⟨⟨c', value⟩, h, rfl⟩
    exact ⟨value, h⟩
  · rintro ⟨value, h⟩
    exact ⟨_, h, rfl⟩

/-- What was last stored at a place. -/
theorem find_encryptions (nounce : Nounce) (i : Nat) (es : List (Event P)) :
    ((encryptions nounce es)[(encryptions nounce es).findIdx fun slot => slot.1 == i]?) =
      (lastWrite i es).map fun last => (i, ⟨nounce.forPage i last.1, last.2⟩) := by
  induction es with
  | nil => rfl
  | cons e es ih =>
    cases e with
    | write q c p =>
      rw [encryptions, lastWrite, List.findIdx_cons]
      by_cases hq : q = i
      · subst hq
        simp
      · have hne : (q == i) = false := beq_false_of_ne hq
        rw [if_neg hq, ← ih]
        dsimp only
        rw [hne, cond_false, List.getElem?_cons_succ]
    | read q c r => exact ih

end ReplayServer

open ReplayServer

/-- **The vector on an untrusted backend** is kept by a use in which every read has the current
counter of its page; only a backend that is not honest lets such a read fail. -/
theorem replaying_versioned (answer : Backend P) :
    Versioned (Vector.replaying answer) ReplayServer.Kept counter (answer ≠ Backend.honest P) where
  write {s i c} p h hi hc hlt := by
    refine ⟨⟨h.reads, ⟨fun last hlast => hlt _ ?_, h.rising⟩, fun x hx => ?_, ?_⟩, ?_⟩
    · rw [counter, hlast]
      rfl
    · rcases List.mem_cons.1 hx with rfl | hx
      · exact ⟨hi, hc⟩
      · exact h.range x hx
    · exact congrArg (_ :: ·) h.stored
    · funext j
      rw [counter, Vector.replaying, lastWrite]
      by_cases hj : i = j
      · subst hj
        rw [if_pos rfl, Function.update_self]
        rfl
      · rw [if_neg hj, Function.update_of_ne (Ne.symm hj)]
        rfl
  read {s i c} h hcur := by
    obtain ⟨value, hlast⟩ := counter_eq_some.1 hcur
    refine ⟨⟨⟨⟨value, hlast, ?_⟩, h.reads⟩, h.rising, h.range, h.stored⟩, rfl, ?_⟩
    · cases hget : s.stored[answer i c s]? with
      | none => exact .inl rfl
      | some slot =>
        cases hdec : slot.2.decrypt (s.nounce.forPage i c) with
        | none => exact .inl hdec
        | some x =>
          obtain rfl := h.decrypt_eq hlast (List.mem_of_getElem? hget) hdec
          exact .inr hdec
    · rintro hnone rfl
      have hfind := find_encryptions s.nounce i s.events
      rw [← h.stored, hlast] at hfind
      simp [Vector.replaying, Backend.honest, hfind, FreshEncrypted.decrypt] at hnone

end EM.DynamicPageVector
