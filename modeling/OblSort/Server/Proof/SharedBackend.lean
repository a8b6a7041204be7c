import OblSort.Server.Proof.Allocator
import OblSort.Server.SharedBackend

/-!
# Frontends on one backend do not meet

Any number of frontends share the bytes and the allocator of one backend. As long as the process
does with them what it may do with frontends that have pages of their own, every read gives what it
gives there, no access leaves the bytes of the backend, and no page fails to authenticate: the only
way to stop is that a constructor finds no free block (`shared_private`).

The invariant is that the slots of the frontends are live slots of the allocator, no two of them the
same, and that the bytes of every page that has been written are in its slot (`Shares`).
-/

namespace EM

open Bytes Loop

variable {P B : Type}

namespace LargeBlockAllocator

/-- Two slots without a common address lie one after the other. -/
theorem Disjoint.apart {l l' : AllocatorSlot} (h : Disjoint l l') (hl : 0 < l.size)
    (hl' : 0 < l'.size) :
    l.base + l.size ≤ l'.base ∨ l'.base + l'.size ≤ l.base := by
  have h1 := h l.base
  have h2 := h l'.base
  simp only [covers_iff] at h1 h2
  omega

theorem Disjoint.symm {l l' : AllocatorSlot} (h : Disjoint l l') : Disjoint l' l :=
  fun x hx => h x ⟨hx.2, hx.1⟩

theorem Inv.disjoint_of_ne {S : Nat} {a : LargeBlockAllocator} {live : List AllocatorSlot}
    (h : Inv S a live) {l l' : AllocatorSlot} (hl : l ∈ live) (hl' : l' ∈ live) (hne : l ≠ l') :
    Disjoint l l' := by
  obtain ⟨i, hi, rfl⟩ := List.mem_iff_getElem.1 hl
  obtain ⟨j, hj, rfl⟩ := List.mem_iff_getElem.1 hl'
  have hpairs := List.pairwise_iff_getElem.1 h.live_disjoint
  rcases Nat.lt_trichotomy i j with hij | rfl | hij
  · exact hpairs i j hi hj hij
  · exact absurd rfl hne
  · exact (hpairs j i hj hi hij).symm

/-- A live slot is not allocated again. -/
theorem Inv.fresh {S : Nat} {a : LargeBlockAllocator} {live : List AllocatorSlot}
    {slot : AllocatorSlot} (h : Inv S a (slot :: live)) : slot ∉ live := by
  intro hmem
  have hpos := h.livePos slot List.mem_cons_self
  exact (List.pairwise_cons.1 h.live_disjoint).1 slot hmem slot.base (by simp; omega)

theorem free_size (a : LargeBlockAllocator) (slot : AllocatorSlot) :
    (a.free slot).size = a.size := by
  unfold free
  split <;> rfl

theorem allocate_size {a a' : LargeBlockAllocator} {s : Nat} {slot : AllocatorSlot}
    (h : a.allocate s = some (slot, a')) : a'.size = a.size ∧ slot.size = s := by
  unfold allocate at h
  dsimp only at h
  split at h
  · cases h
  · split at h
    · cases h
    · cases h
      exact ⟨rfl, rfl⟩

end LargeBlockAllocator

namespace SharedBackend

open LargeBlockAllocator

/-! ## The invariant -/

/-- The frontend `f` with the slot `slot` has the pages of `p`. -/
structure Holds (p : PrivateFrontend P B) (f : FrontendInstance P B) (slot : AllocatorSlot)
    (data : Nat → B) : Prop where
  codec : f.codec = p.codec
  lateInit : f.lateInit = p.lateInit
  nounce : f.nounce = p.frontend.nounce
  defaultVal : f.defaultVal = p.frontend.defaultVal
  modified : f.modified = p.frontend.modified
  slot_eq : f.slot = some slot
  size : slot.size = p.initialSize * p.codec.sizeOfT
  written : ∀ i < p.initialSize, ∀ e, p.frontend.pages i = some e →
    readRange (slot.base + i * p.codec.sizeOfT) p.codec.sizeOfT data =
      p.codec.encrypt e.nounce e.data

/-- A frontend and its owner: it holds the pages of the owner in a slot of `live`, or it has no
slot. -/
def Owned (live : List AllocatorSlot) (data : Nat → B) :
    Option (Owner P B) → Option (FrontendInstance P B) →
    Prop
  | none, f => f = none
  | some .empty, f => ∃ f', f = some f' ∧ f'.slot = none
  | some (.pages p), f => ∃ f' slot, f = some f' ∧ slot ∈ live ∧ Holds p f' slot data

section Slots

variable {fs : Nat → Option (FrontendInstance P B)} {id id' : Nat}
  {f : Option (FrontendInstance P B)}

/-- The slots of the frontends that have one. -/
def slotOf (fs : Nat → Option (FrontendInstance P B)) (id : Nat) : Option AllocatorSlot :=
  (fs id).bind FrontendInstance.slot

theorem slotOf_update_self : slotOf (Function.update fs id f) id =
    f.bind FrontendInstance.slot := by
  rw [slotOf, Function.update_self]

theorem slotOf_update_of_ne (h : id' ≠ id) : slotOf (Function.update fs id f) id' =
    slotOf fs id' := by
  rw [slotOf, Function.update_of_ne h, slotOf]

/-- No two frontends have the same slot. -/
def Distinct (fs : Nat → Option (FrontendInstance P B)) : Prop :=
  ∀ id id' slot, slotOf fs id = some slot → slotOf fs id' = some slot → id = id'

/-- A frontend changes and keeps its slot, or gives it up. -/
theorem Distinct.keep (h : Distinct fs)
    (hf : f.bind FrontendInstance.slot = slotOf fs id ∨ f.bind FrontendInstance.slot = none) :
    Distinct (Function.update fs id f) := by
  have hold : ∀ id' slot, slotOf (Function.update fs id f) id' = some slot →
    slotOf fs id' = some slot := by
    intro id' slot hslot
    by_cases hid : id' = id
    · subst hid
      rw [slotOf_update_self] at hslot
      rcases hf with hf | hf
      · rw [← hf, hslot]
      · rw [hf] at hslot
        cases hslot
    · rwa [slotOf_update_of_ne hid] at hslot
  exact fun id₁ id₂ slot h₁ h₂ => h id₁ id₂ slot (hold id₁ slot h₁) (hold id₂ slot h₂)

/-- A frontend gets a slot that no other one has. -/
theorem Distinct.take (h : Distinct fs)
    (hf : ∀ slot, f.bind FrontendInstance.slot = some slot → ∀ id', id' ≠ id →
      slotOf fs id' ≠ some slot) :
    Distinct (Function.update fs id f) := by
  intro id₁ id₂ slot h₁ h₂
  by_cases hid₁ : id₁ = id
  · by_cases hid₂ : id₂ = id
    · rw [hid₁, hid₂]
    · rw [hid₁, slotOf_update_self] at h₁
      rw [slotOf_update_of_ne hid₂] at h₂
      exact absurd h₂ (hf slot h₁ id₂ hid₂)
  · rw [slotOf_update_of_ne hid₁] at h₁
    by_cases hid₂ : id₂ = id
    · rw [hid₂, slotOf_update_self] at h₂
      exact absurd h₁ (hf slot h₂ id₁ hid₁)
    · rw [slotOf_update_of_ne hid₂] at h₂
      exact h id₁ id₂ slot h₁ h₂

end Slots

/-- The frontends of `w` have the pages of `o`, in slots of `live`. -/
structure Shares (S : Nat) (live : List AllocatorSlot) (w : SharedBackend P B)
    (o : PrivateFrontends P B) :
    Prop where
  inv : Inv S w.backend.toLargeBlockAllocator live
  size : w.backend.size = S
  owned : ∀ id, Owned live w.backend.data (o id) (w.frontends id)
  distinct : Distinct w.frontends

/-- Page `i` ends before page `n` begins. -/
theorem page_le {i n : Nat} (h : i < n) (size : Nat) : i * size + size ≤ n * size := by
  rw [← Nat.succ_mul]
  exact Nat.mul_le_mul_right size h

theorem capacity_le {S : Nat} {b : MemServerBackend B} (h : b.size = S) (h0 : 0 < S) :
    S ≤ b.capacity := by
  have := Nat.div_add_mod (S - 1) 4096
  have := Nat.mod_lt (S - 1) (show 4096 > 0 by omega)
  rw [MemServerBackend.capacity, h, Nat.mul_add]
  omega

variable {S : Nat} {live : List AllocatorSlot} {w : SharedBackend P B} {o : PrivateFrontends P B}

theorem Shares.new (h0 : 0 < S) (data : Nat → B) :
    Shares (P := P) S [] (.new S data) fun _ => none where
  inv := .new h0
  size := rfl
  owned _ := rfl
  distinct _ _ _ h := nomatch h

/-- The frontend of an owner with pages. -/
theorem Shares.pages (h : Shares S live w o) {id : Nat} {p : PrivateFrontend P B}
    (ho : o id = some (.pages p)) :
    ∃ f slot, w.frontends id = some f ∧ slot ∈ live ∧ Holds p f slot w.backend.data := by
  have howned := h.owned id
  rw [ho] at howned
  exact howned

/-- The frontend of an owner. -/
theorem Shares.exists_frontend (h : Shares S live w o) {id : Nat} {owner : Owner P B}
    (ho : o id = some owner) :
    ∃ f, w.frontends id = some f := by
  have howned := h.owned id
  rw [ho] at howned
  cases owner with
  | empty => exact ⟨_, howned.choose_spec.1⟩
  | pages p => exact ⟨_, howned.choose_spec.choose_spec.1⟩

/-- The address of a page. -/
theorem Shares.offset_eq (h : Shares S live w o) (hS : S < 2 ^ 64 - 1) {p : PrivateFrontend P B}
    {f : FrontendInstance P B} {slot : AllocatorSlot} (hslot : slot ∈ live)
    (hf : Holds p f slot w.backend.data) {i : Nat} (hi : i < p.initialSize) :
    offset slot i p.codec.sizeOfT = slot.base + i * p.codec.sizeOfT ∧
      slot.base + i * p.codec.sizeOfT + p.codec.sizeOfT ≤ S := by
  have hle := h.inv.le_of_mem (List.mem_append_right _ hslot)
  have hpage : i * p.codec.sizeOfT + p.codec.sizeOfT ≤ slot.size := hf.size ▸ page_le hi _
  exact ⟨Nat.mod_eq_of_lt (by omega), by omega⟩

/-! ## Frames -/

/-- What is outside of a slot does not matter to its frontend. -/
theorem Holds.frame {p : PrivateFrontend P B} {f : FrontendInstance P B} {slot : AllocatorSlot}
    {data data' : Nat → B} (h : Holds p f slot data)
    (hdata : ∀ a, slot.base ≤ a → a < slot.base + slot.size → data' a = data a) :
    Holds p f slot data' :=
  { h with
    written := fun i hi e he => by
      rw [← h.written i hi e he]
      have hle : i * p.codec.sizeOfT + p.codec.sizeOfT ≤ slot.size := h.size ▸ page_le hi _
      exact readRange_congr fun j hj => hdata _ (by omega) (by omega) }

theorem Owned.frame {live : List AllocatorSlot} {data data' : Nat → B} {owner : Option (Owner P B)}
    {f : Option (FrontendInstance P B)} (h : Owned live data owner f) {live' : List AllocatorSlot}
    (hslot : ∀ slot ∈ live, f.bind FrontendInstance.slot = some slot →
      slot ∈ live' ∧ ∀ a, slot.base ≤ a → a < slot.base + slot.size → data' a = data a) :
    Owned live' data' owner f := by
  cases owner with
  | none => exact h
  | some owner =>
    cases owner with
    | empty => exact h
    | pages p =>
      obtain ⟨f', slot, rfl, hmem, hf⟩ := h
      obtain ⟨hmem', hdata⟩ := hslot slot hmem hf.slot_eq
      exact ⟨f', slot, rfl, hmem', hf.frame hdata⟩

/-- The slot of a frontend is live. -/
theorem Shares.slot_mem (h : Shares S live w o) {id : Nat} {slot : AllocatorSlot}
    (hslot : slotOf w.frontends id = some slot) : slot ∈ live := by
  have howned := h.owned id
  unfold slotOf at hslot
  cases ho : o id with
  | none =>
    rw [ho] at howned
    rw [howned] at hslot
    cases hslot
  | some owner =>
    rw [ho] at howned
    cases owner with
    | empty =>
      obtain ⟨f, hf, hnone⟩ := howned
      rw [hf, Option.bind_some, hnone] at hslot
      cases hslot
    | pages p =>
      obtain ⟨f, slot', hf, hmem, hholds⟩ := howned
      rw [hf, Option.bind_some, hholds.slot_eq] at hslot
      cases hslot
      exact hmem

/-! ## Reading and writing -/

/-- **A write** changes the frontend that it is made through, and no other. -/
theorem write_shares (hS : S < 2 ^ 64 - 1) (h0 : 0 < S) (h : Shares S live w o) {id : Nat}
    {p : PrivateFrontend P B} (ho : o id = some (.pages p)) {i : Nat}
    (hi : i < p.initialSize) (v : P) (counter : Nat) :
    ∃ w', w.write id i v counter = .ok w' ∧ Shares S live w' (Function.update o id
      (some (.pages { p with frontend := p.frontend.write p.lateInit i v counter }))) := by
  obtain ⟨f, slot, hf, hmem, hholds⟩ := h.pages ho
  obtain ⟨hoff, hle⟩ := h.offset_eq hS hmem hholds hi
  have hlen := p.codec.length_encrypt (p.frontend.nounce.forPage i counter) v
  have hpage : i * p.codec.sizeOfT + p.codec.sizeOfT ≤ slot.size := hholds.size ▸ page_le hi _
  have hslot : slotOf w.frontends id = some slot := by
    rw [slotOf, hf]
    exact hholds.slot_eq
  have hdata : writeRange (offset slot i f.codec.sizeOfT)
    (f.codec.encrypt (f.nounce.forPage i counter) v)
      w.backend.data = writeRange (slot.base + i * p.codec.sizeOfT)
        (p.codec.encrypt (p.frontend.nounce.forPage i counter) v) w.backend.data := by
    rw [hholds.codec, hholds.nounce, hoff]
  have hin : offset slot i f.codec.sizeOfT +
    (f.codec.encrypt (f.nounce.forPage i counter) v).length ≤
      w.backend.capacity := by
    rw [hholds.codec, hholds.nounce, hoff, hlen]
    exact hle.trans (capacity_le h.size h0)
  let f' : FrontendInstance P B :=
    { f with modified := if f.lateInit then Function.update f.modified i true else f.modified }
  have hwrite : w.write id i v counter = .ok ⟨{ w.backend with
      data := writeRange (slot.base + i * p.codec.sizeOfT)
        (p.codec.encrypt (p.frontend.nounce.forPage i counter) v) w.backend.data },
      Function.update w.frontends id (some f')⟩ := by
    rw [← hdata]
    simp only [write, hf, hholds.slot_eq, MemServerBackend.write, if_pos hin, ok_bind, f']
  refine ⟨_, hwrite, h.inv, h.size, fun id' => ?_, h.distinct.keep (.inl ?_)⟩
  · dsimp only
    by_cases hid : id' = id
    · subst hid
      rw [Function.update_self, Function.update_self]
      refine ⟨_, slot, rfl, hmem, ⟨hholds.codec, hholds.lateInit, hholds.nounce,
        hholds.defaultVal, ?_, hholds.slot_eq, hholds.size, fun j hj e he => ?_⟩⟩
      · dsimp only [f', Frontend.write]
        rw [hholds.lateInit, hholds.modified]
      · dsimp only [Frontend.write] at he
        by_cases hji : j = i
        · subst hji
          rw [Function.update_self] at he
          cases he
          rw [← hlen]
          exact readRange_writeRange ..
        · rw [Function.update_of_ne hji] at he
          rw [← hholds.written j hj e he]
          refine readRange_writeRange_apart _ ?_
          rw [hlen]
          dsimp only
          rcases Nat.lt_or_gt_of_ne hji with hlt | hlt
          · have := page_le hlt p.codec.sizeOfT
            omega
          · have := page_le hlt p.codec.sizeOfT
            omega
    · rw [Function.update_of_ne hid, Function.update_of_ne hid]
      refine (h.owned id').frame fun slot' hmem' hslot' => ⟨hmem', fun a h1 h2 => ?_⟩
      have hne : slot' ≠ slot := fun heq => hid (h.distinct id' id slot' hslot' (heq ▸ hslot))
      have hapart := (h.inv.disjoint_of_ne hmem' hmem hne).apart (h.inv.livePos _ hmem')
        (h.inv.livePos _ hmem)
      refine writeRange_of_outside _ ?_
      rw [hlen]
      omega
  · exact hholds.slot_eq.trans hslot.symm

/-- **A read** gives what it gives on a frontend with pages of its own. -/
theorem read_shares (hS : S < 2 ^ 64 - 1) (h0 : 0 < S) (h : Shares S live w o) {id : Nat}
    {p : PrivateFrontend P B} (ho : o id = some (.pages p)) {i : Nat} (hi : i < p.initialSize)
    {counter : Nat} {v : P} (hv : p.frontend.read p.lateInit i counter = some v) :
    w.read id i counter = .ok v := by
  obtain ⟨f, slot, hf, hmem, hholds⟩ := h.pages ho
  obtain ⟨hoff, hle⟩ := h.offset_eq hS hmem hholds hi
  have hin := hle.trans (capacity_le h.size h0)
  rw [Frontend.read] at hv
  simp only [read, hf, hholds.lateInit, hholds.modified, hholds.defaultVal]
  by_cases hfresh : (p.lateInit && !p.frontend.modified i) = true
  · rw [if_pos hfresh] at hv ⊢
    rw [Option.some.inj hv]
  · rw [if_neg hfresh] at hv ⊢
    obtain ⟨e, he, hdec⟩ := Option.bind_eq_some_iff.1 hv
    have hbytes := hholds.written i hi e he
    rw [FreshEncrypted.decrypt] at hdec
    split at hdec
    · rename_i hiv
      simp only [hholds.slot_eq, hholds.codec, hholds.nounce, hoff,
        MemServerBackend.read, if_pos hin,
        ok_bind, hbytes, p.codec.decrypt_encrypt, if_pos hiv, Option.some.inj hdec]
    · cases hdec

/-! ## Frontends come and go -/

/-- A frontend that keeps its owner's pages where they are. -/
theorem Shares.others (h : Shares S live w o) {id id' : Nat} (hid : id' ≠ id) {data' : Nat → B}
    {live' : List AllocatorSlot} {f : Option (FrontendInstance P B)} {owner : Option (Owner P B)}
    (hslot : ∀ slot ∈ live, slotOf w.frontends id' = some slot →
      slot ∈ live' ∧ ∀ a, slot.base ≤ a → a < slot.base + slot.size → data' a = w.backend.data a) :
    Owned live' data' (Function.update o id owner id') (Function.update w.frontends id f id') := by
  rw [Function.update_of_ne hid, Function.update_of_ne hid]
  exact (h.owned id').frame hslot

/-- **A constructor** takes a slot that no other frontend has, or finds none. -/
theorem construct_shares (hS : S < 2 ^ 64 - 1) (h0 : 0 < S) (h : Shares S live w o) {id : Nat}
    (codec : Codec P B) (init : Init) {initialSize : Nat} (nounce : Nounce) (defaultVal : P)
    (hfits : initialSize * codec.sizeOfT < 2 ^ 64) :
    Ends (fun w' => ∃ live', Shares S live' w'
      (Function.update o id (some (if initialSize = 0 then .empty else
        .pages ⟨codec, decide (init = .lateInit), initialSize,
          PrivateFrontends.newPages init initialSize nounce defaultVal⟩))))
      (fun e => e = .allocation) (w.construct id codec init initialSize nounce defaultVal) := by
  rw [construct]
  by_cases hn : initialSize = 0
  · rw [if_pos hn, if_pos hn]
    refine ⟨live, h.inv, h.size, fun id' => ?_, h.distinct.keep (.inr rfl)⟩
    by_cases hid : id' = id
    · subst hid
      dsimp only
      rw [Function.update_self, Function.update_self]
      exact ⟨_, rfl, rfl⟩
    · exact h.others hid fun slot hslot _ => ⟨hslot, fun _ _ _ => rfl⟩
  · rw [if_neg hn, if_neg hn, Nat.mod_eq_of_lt hfits]
    have hpos : 0 < initialSize * codec.sizeOfT :=
      Nat.mul_pos (Nat.pos_of_ne_zero hn) codec.sizeOfT_pos
    cases hslot : w.backend.allocate (initialSize * codec.sizeOfT) with
    | none =>
      dsimp only
      rw [hslot]
      exact rfl
    | some r =>
      obtain ⟨slot, a'⟩ := r
      have hinv := h.inv.allocate hS hpos hslot
      obtain ⟨hsize, hslotSize⟩ := allocate_size hslot
      -- the state before the pages are written
      have hstart : Shares S (slot :: live) ⟨{ w.backend with toLargeBlockAllocator := a' },
          Function.update w.frontends id
            (some ⟨codec, decide (init = .lateInit), nounce, defaultVal,
            fun _ => false, some slot⟩)⟩
          (Function.update o id (some (.pages ⟨codec, decide (init = .lateInit), initialSize,
            ⟨nounce, defaultVal, fun _ => false, fun _ => none, []⟩⟩))) := by
        refine ⟨hinv, hsize.trans h.size, fun id' => ?_, h.distinct.take
          fun slot' hslot' id' _ hother => ?_⟩
        · by_cases hid : id' = id
          · subst hid
            dsimp only
            rw [Function.update_self, Function.update_self]
            exact ⟨_, slot, rfl, List.mem_cons_self, rfl, rfl, rfl, rfl, rfl, rfl, hslotSize,
              fun i _ e he => nomatch he⟩
          · exact h.others hid fun slot' hslot' _ =>
              ⟨List.mem_cons_of_mem _ hslot', fun _ _ _ => rfl⟩
        · cases hslot'
          exact hinv.fresh (h.slot_mem hother)
      dsimp only
      rw [hslot]
      dsimp only
      cases init with
      | lateInit =>
        rw [if_neg (by decide)]
        exact ⟨_, hstart⟩
      | uninitialised =>
        rw [if_neg (by decide)]
        exact ⟨_, hstart⟩
      | written =>
        rw [if_pos rfl]
        refine (forRange_ends (E := fun e => e = Fault.allocation)
          (fun k w' => Shares S (slot :: live) w' (Function.update o id (some (.pages
            ⟨codec, false, initialSize, (List.range k).foldl
              (fun f i => f.write false i defaultVal 0)
              ⟨nounce, defaultVal, fun _ => false, fun _ => none, []⟩⟩)))) hstart
          fun i hi w₁ h₁ => ?_).mono (fun w' h' => ⟨_, h'⟩) fun _ he => he
        · obtain ⟨w₂, hw₂, h₂⟩ := write_shares hS h0 h₁ (Function.update_self ..) hi defaultVal 0
          rw [hw₂]
          rw [Function.update_idem] at h₂
          rw [List.range_succ, List.foldl_append]
          exact h₂

/-- The copy constructor. -/
theorem move_shares (h : Shares S live w o) {id other : Nat} (hid : o id = none) {owner : Owner P B}
    (ho : o other = some owner) :
    ∃ w', w.move id other = .ok w' ∧ Shares S live w'
      (Function.update (Function.update o other (some .empty)) id (some owner)) := by
  obtain ⟨f, hf⟩ := h.exists_frontend ho
  have hne : id ≠ other := fun heq => by
    rw [heq, ho] at hid
    cases hid
  refine ⟨_, by simp only [move, hf]; rfl, ?_⟩
  refine ⟨h.inv, h.size, fun id' => ?_, ?_⟩
  · dsimp only
    by_cases hid' : id' = id
    · rw [hid', Function.update_self, Function.update_self, ← hf, ← ho]
      exact h.owned other
    · rw [Function.update_of_ne hid', Function.update_of_ne hid']
      by_cases hother : id' = other
      · rw [hother, Function.update_self, Function.update_self]
        exact ⟨_, rfl, rfl⟩
      · exact h.others hother fun slot hslot _ => ⟨hslot, fun _ _ _ => rfl⟩
  · refine (h.distinct.keep (.inr rfl)).take fun slot hslot id' hid' hother => ?_
    by_cases hid'' : id' = other
    · rw [hid'', slotOf_update_self] at hother
      cases hother
    · rw [slotOf_update_of_ne hid''] at hother
      refine hid'' (h.distinct id' other slot hother ?_)
      rw [slotOf, hf]
      exact hslot

theorem preventFree_shares (h : Shares S live w o) {id : Nat} {owner : Owner P B}
    (ho : o id = some owner) :
    ∃ w', w.preventFree id = .ok w' ∧ Shares S live w' (Function.update o id (some .empty)) := by
  obtain ⟨f, hf⟩ := h.exists_frontend ho
  refine ⟨_, by simp only [preventFree, hf]; rfl, ?_⟩
  refine ⟨h.inv, h.size, fun id' => ?_, h.distinct.keep (.inr rfl)⟩
  by_cases hid : id' = id
  · subst hid
    dsimp only
    rw [Function.update_self, Function.update_self]
    exact ⟨_, rfl, rfl⟩
  · exact h.others hid fun slot hslot _ => ⟨hslot, fun _ _ _ => rfl⟩

/-- **The destructor** gives back a slot that is live. -/
theorem destroy_shares (hS : S < 2 ^ 64 - 1) (h : Shares S live w o) {id : Nat} {owner : Owner P B}
    (ho : o id = some owner) :
    ∃ w' live', w.destroy id = .ok w' ∧ Shares S live' w' (Function.update o id none) := by
  obtain ⟨f, hf⟩ := h.exists_frontend ho
  cases hslot : f.slot with
  | none =>
    refine ⟨_, live, by simp only [destroy, hf, hslot]; rfl, ?_⟩
    refine ⟨h.inv, h.size, fun id' => ?_, h.distinct.keep (.inr rfl)⟩
    by_cases hid : id' = id
    · subst hid
      dsimp only
      rw [Function.update_self, Function.update_self]
      exact rfl
    · exact h.others hid fun slot hslot _ => ⟨hslot, fun _ _ _ => rfl⟩
  | some slot =>
    have hslot' : slotOf w.frontends id = some slot := by
      rw [slotOf, hf]
      exact hslot
    have hmem := h.slot_mem hslot'
    refine ⟨_, live.erase slot, by simp only [destroy, hf, hslot]; rfl, ?_⟩
    refine ⟨h.inv.free hS hmem, (free_size ..).trans h.size, fun id' => ?_,
      h.distinct.keep (.inr rfl)⟩
    by_cases hid : id' = id
    · subst hid
      dsimp only
      rw [Function.update_self, Function.update_self]
      exact rfl
    · refine h.others hid fun slot'' hslot'' hother =>
        ⟨(List.mem_erase_of_ne fun heq => hid ?_).2 hslot'', fun _ _ _ => rfl⟩
      exact h.distinct id' id slot (heq ▸ hother) hslot'

/-! ## Runs -/

theorem step_shares (hS : S < 2 ^ 64 - 1) (h0 : 0 < S) (h : Shares S live w o) {op : FrontendOp P B}
    {vals : List P} {o' : PrivateFrontends P B}
    (hstep : PrivateFrontends.step op o = some (vals, o')) :
    Ends (fun r => r.1 = vals ∧ ∃ live', Shares S live' r.2 o') (fun e => e = .allocation)
    (step op w) := by
  cases op with
  | construct id codec init initialSize nounce defaultVal =>
    rw [PrivateFrontends.step] at hstep
    split at hstep
    · rename_i hop
      cases hstep
      exact (construct_shares hS h0 h codec init nounce defaultVal hop.2).bind
        fun w' h' => ⟨rfl, h'⟩
    · cases hstep
  | move id other =>
    rw [PrivateFrontends.step] at hstep
    split at hstep
    · rename_i owner hid ho
      cases hstep
      obtain ⟨w', hw', h'⟩ := move_shares h hid ho
      rw [step, hw']
      exact ⟨rfl, live, h'⟩
    · cases hstep
  | preventFree id =>
    rw [PrivateFrontends.step] at hstep
    split at hstep
    · rename_i hop
      cases hstep
      obtain ⟨owner, ho⟩ := Option.isSome_iff_exists.1 hop
      obtain ⟨w', hw', h'⟩ := preventFree_shares h ho
      rw [step, hw']
      exact ⟨rfl, live, h'⟩
    · cases hstep
  | destroy id =>
    rw [PrivateFrontends.step] at hstep
    split at hstep
    · rename_i hop
      cases hstep
      obtain ⟨owner, ho⟩ := Option.isSome_iff_exists.1 hop
      obtain ⟨w', live', hw', h'⟩ := destroy_shares hS h ho
      rw [step, hw']
      exact ⟨rfl, live', h'⟩
    · cases hstep
  | write id i v counter =>
    rw [PrivateFrontends.step] at hstep
    split at hstep
    · rename_i p ho
      split at hstep
      · rename_i hi
        cases hstep
        obtain ⟨w', hw', h'⟩ := write_shares hS h0 h ho hi v counter
        rw [step, hw']
        exact ⟨rfl, live, h'⟩
      · cases hstep
    · cases hstep
  | read id i counter =>
    rw [PrivateFrontends.step] at hstep
    split at hstep
    · rename_i p ho
      split at hstep
      · rename_i hi
        obtain ⟨v, hv, heq⟩ := Option.map_eq_some_iff.1 hstep
        cases heq
        rw [step, read_shares hS h0 h ho hi hv]
        exact ⟨rfl, live, h⟩
      · cases hstep
    · cases hstep

theorem run_shares (hS : S < 2 ^ 64 - 1) (h0 : 0 < S) (h : Shares S live w o)
    {ops : List (FrontendOp P B)}
    {vals : List P} {o' : PrivateFrontends P B}
    (hrun : PrivateFrontends.run ops o = some (vals, o')) :
    Ends (fun r => r.1 = vals ∧ ∃ live', Shares S live' r.2 o') (fun e => e = .allocation)
    (run ops w) := by
  induction ops generalizing live w o vals with
  | nil =>
    cases hrun
    exact ⟨rfl, live, h⟩
  | cons op ops ih =>
    rw [PrivateFrontends.run] at hrun
    obtain ⟨⟨vals₁, o₁⟩, hstep, hrest⟩ := Option.bind_eq_some_iff.1 hrun
    obtain ⟨⟨vals₂, o₂⟩, hrun₂, heq⟩ := Option.bind_eq_some_iff.1 hrest
    cases heq
    rw [run]
    refine (step_shares hS h0 h hstep).bind fun r₁ h₁ => ?_
    obtain ⟨hvals₁, live₁, hshares₁⟩ := h₁
    refine (ih hshares₁ hrun₂).bind fun r₂ h₂ => ?_
    exact ⟨by rw [hvals₁, h₂.1], h₂.2⟩

/-- **Frontends on one backend** do what they do with pages of their own: whatever the process does
with its frontends, as long as it may do it, all reads give the same, no access leaves the backend
and no page fails to authenticate. Only a constructor may stop, when no free block is large
enough. -/
theorem shared_private (h0 : 0 < S) (hS : S < 2 ^ 64 - 1) (data : Nat → B)
    {ops : List (FrontendOp P B)}
    {vals : List P} {o : PrivateFrontends P B}
    (hrun : PrivateFrontends.run ops (fun _ => none) = some (vals, o)) :
    Ends (fun r => r.1 = vals) (fun e => e = .allocation) (run ops (.new S data)) :=
  (run_shares hS h0 (.new h0 data) hrun).mono (fun _ h => h.1) fun _ he => he

/-- Pages of one number and `padding`, with the nonce in front. -/
def paddedCodec (padding : Nat) : Codec Nat Nat where
  sizeOfT := 3 + padding
  sizeOfT_pos := by omega
  encrypt iv v := iv.indexPart.toNat :: iv.counterPart.toNat :: v :: List.replicate padding 0
  decrypt iv bytes :=
    if iv.indexPart.toNat = bytes.getD 0 0 ∧ iv.counterPart.toNat =
      bytes.getD 1 0 then bytes[2]? else none
  length_encrypt iv v := by
    simp only [List.length_cons, List.length_replicate]
    omega
  decrypt_encrypt iv iv' v := by
    by_cases h : iv = iv'
    · subst h
      rw [if_pos rfl]
      exact if_pos ⟨rfl, rfl⟩
    · rw [if_neg h]
      refine if_neg fun hparts => h ?_
      cases iv
      cases iv'
      rw [Nounce.mk.injEq]
      exact ⟨(BitVec.toNat_inj.1 hparts.1).symm, (BitVec.toNat_inj.1 hparts.2).symm⟩

/-- Two frontends with pages of different sizes. The first one goes, and a third one moves to its
place. -/
def frontendOps : List (FrontendOp Nat Nat) :=
  [.construct 0 (paddedCodec 0) .lateInit 2 ⟨5, 9⟩ 7, .construct 1
    (paddedCodec 2) .written 3 ⟨6, 8⟩ 4,
    .write 0 1 11 3, .write 1 0 12 0, .read 0 0 0, .read 0 1 3, .destroy 0,
    .construct 2 (paddedCodec 1) .uninitialised 1 ⟨1, 1⟩ 0, .write 2 0 13 1, .move 0 2,
    .read 1 2 0, .read 1 0 0, .read 0 0 1]

theorem shared_private_two : Ends (fun r => r.1 = [7, 11, 4, 12, 13]) (fun e => e = .allocation)
    (run frontendOps (.new 64 fun _ => 0)) :=
  shared_private (by decide) (by decide) (fun _ => 0) rfl

end SharedBackend

end EM
