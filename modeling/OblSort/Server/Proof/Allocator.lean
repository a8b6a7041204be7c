import OblSort.Server.Allocator
import Mathlib.Data.List.Perm.Basic
import Mathlib.Data.List.Pairwise

/-!
# The allocator's free list tiles the address range

`Inv S a live`: the free blocks are sorted with a gap between any two of them, and the free blocks
and the live slots together cover every address below `S` exactly once and nothing else
(`cov`, the number of blocks over an address). It holds initially and `allocate` and `free` keep
it (`Inv.allocate`, `Inv.free`), so it holds in every reachable state (`Reachable.inv`).

`free` works in place; `coalesce_eq` replaces its loop over two indices by the recursion
`mergeAdj` over the list, and everything else is about `mergeAdj`.
-/

namespace EM.LargeBlockAllocator

open List

/-! ## Coverage -/

/-- The block contains the address `x`. -/
def covers (b : AllocatorSlot) (x : Nat) : Bool := b.base ≤ x && x < b.base + b.size

@[simp] theorem covers_iff {b : AllocatorSlot} {x : Nat} :
    covers b x = true ↔ b.base ≤ x ∧ x < b.base + b.size := by
  simp [covers]

/-- The number of blocks of `l` that contain `x`. -/
def cov (l : List AllocatorSlot) (x : Nat) : Nat := l.countP (covers · x)

@[simp] theorem cov_nil (x : Nat) : cov [] x = 0 := rfl

@[simp] theorem cov_cons (b : AllocatorSlot) (l : List AllocatorSlot) (x : Nat) :
    cov (b :: l) x = (if covers b x then 1 else 0) + cov l x := by
  simp only [cov, countP_cons]; omega

@[simp] theorem cov_append (l l' : List AllocatorSlot) (x : Nat) :
    cov (l ++ l') x = cov l x + cov l' x := countP_append

theorem cov_perm {l l' : List AllocatorSlot} (h : l.Perm l') (x : Nat) : cov l x = cov l' x :=
  h.countP_eq _

theorem cov_pos {l : List AllocatorSlot} {x : Nat} : 0 < cov l x ↔ ∃ b ∈ l, covers b x = true :=
  countP_pos_iff

/-- `x` ends before `y` starts, with a gap. -/
def Apart (x y : AllocatorSlot) : Prop := x.base + x.size < y.base

/-- Non-empty blocks sorted by base that cover no address twice do not overlap. -/
theorem pairwise_le_of_cov : ∀ {l : List AllocatorSlot}, l.Pairwise (fun x y => x.base ≤ y.base) →
    (∀ b ∈ l, 0 < b.size) → (∀ x, cov l x ≤ 1) → l.Pairwise (fun x y => x.base + x.size ≤ y.base)
  | [], _, _, _ => .nil
  | b :: l, hs, hp, hc => by
    rw [pairwise_cons] at hs ⊢
    refine ⟨fun y hy => ?_, pairwise_le_of_cov hs.2 (fun c hcm => hp c (.tail _ hcm)) fun x => ?_⟩
    · have h1 := hc y.base
      have h2 : 0 < cov l y.base := cov_pos.2 ⟨y, hy, by have := hp y (.tail _ hy); simp; omega⟩
      rw [cov_cons] at h1
      have h3 : ¬ covers b y.base = true := fun h => by simp only [h, ↓reduceIte] at h1; omega
      have h4 := hs.1 y hy
      rw [covers_iff] at h3
      omega
    · have h1 := hc x
      rw [cov_cons] at h1
      omega

/-! ## The coalescing pass -/

/-- The coalescing pass as a recursion: `cur` is the block being grown. -/
def mergeAdj : AllocatorSlot → List AllocatorSlot → List AllocatorSlot
  | cur, [] => [cur]
  | cur, f :: fs =>
    if (cur.base + cur.size) % 2 ^ 64 = f.base then
      mergeAdj ⟨cur.base, (cur.size + f.size) % 2 ^ 64⟩ fs
    else cur :: mergeAdj f fs

theorem blockAt_eq {fl : List AllocatorSlot} {i : Nat} (h : i < fl.length) :
    blockAt fl i = fl[i] := by
  simp [blockAt, h]

theorem blockAt_set_self {fl : List AllocatorSlot} {i : Nat} (b : AllocatorSlot)
    (h : i < fl.length) : blockAt (fl.set i b) i = b := by
  simp [blockAt, h]

theorem take_succ_blockAt {fl : List AllocatorSlot} {j : Nat} (h : j < fl.length) :
    fl.take (j + 1) = fl.take j ++ [blockAt fl j] := by
  rw [take_add_one, getElem?_eq_getElem h, blockAt_eq h]; rfl

/-- The two-index loop: the kept prefix is `fl[0..j)`, the block being grown `fl[j]`, and the
blocks still to be read are `fl[i..]`. -/
theorem coalesceLoop_eq : ∀ (k i j : Nat) (fl : List AllocatorSlot), i + k = fl.length → j < i →
    (coalesceLoop k i j fl).1.take ((coalesceLoop k i j fl).2 + 1) =
      fl.take j ++ mergeAdj (blockAt fl j) (fl.drop i)
  | 0, i, j, fl, hl, hj => by
    have hd : fl.drop i = [] := drop_eq_nil_of_le (by omega)
    simp only [coalesceLoop, hd, mergeAdj]
    exact take_succ_blockAt (by omega)
  | k + 1, i, j, fl, hl, hj => by
    have hi : i < fl.length := by omega
    have hdrop : fl.drop i = blockAt fl i :: fl.drop (i + 1) := by
      rw [blockAt_eq hi]; exact drop_eq_getElem_cons hi
    rw [hdrop]
    simp only [coalesceLoop, mergeAdj]
    split
    · rw [coalesceLoop_eq k (i + 1) j _ (by simp; omega) (by omega),
        blockAt_set_self _ (by omega), drop_set_of_lt (by omega), take_set_of_le (by omega)]
    · split
      · rw [coalesceLoop_eq k (i + 1) (j + 1) _ (by simp; omega) (by omega),
          blockAt_set_self _ (by omega), drop_set_of_lt (by omega), take_set_of_le (by omega),
          take_succ_blockAt (by omega), append_assoc]
        rfl
      · rename_i hij
        have hij : i = j + 1 := by simpa using hij
        subst hij
        rw [coalesceLoop_eq k (j + 1 + 1) (j + 1) _ (by omega) (by omega),
          take_succ_blockAt (by omega), append_assoc]
        rfl

theorem coalesce_eq (f : AllocatorSlot) (fs : List AllocatorSlot) :
    coalesce (f :: fs) = mergeAdj f fs := by
  have h := coalesceLoop_eq fs.length 1 0 (f :: fs) (by simp; omega) (by omega)
  simpa [coalesce, blockAt] using h

theorem mergeAdj_base_le : ∀ (fs : List AllocatorSlot) (cur : AllocatorSlot),
    (cur :: fs).Pairwise (fun x y => x.base + x.size ≤ y.base) →
    ∀ b ∈ mergeAdj cur fs, cur.base ≤ b.base
  | [], cur, _, b, hb => by
    simp only [mergeAdj, mem_singleton] at hb
    subst hb; exact Nat.le_refl _
  | f :: fs, cur, hp, b, hb => by
    rw [pairwise_cons] at hp
    obtain ⟨hc, hfs⟩ := hp
    have hcf := hc f (.head _)
    rw [mergeAdj] at hb
    split at hb
    · rw [pairwise_cons] at hfs
      refine mergeAdj_base_le fs ⟨cur.base, (cur.size + f.size) % 2 ^ 64⟩ ?_ b hb
      refine pairwise_cons.2 ⟨fun y hy => ?_, hfs.2⟩
      have h1 := hfs.1 y hy
      have h2 := Nat.mod_le (cur.size + f.size) (2 ^ 64)
      show cur.base + (cur.size + f.size) % 2 ^ 64 ≤ y.base
      omega
    · rcases mem_cons.1 hb with rfl | hb
      · exact Nat.le_refl _
      · have := mergeAdj_base_le fs f hfs b hb
        omega

/-- Merging sorted, disjoint, non-empty blocks that end below `2 ^ 64` covers the same addresses
with blocks that are apart. -/
theorem mergeAdj_spec : ∀ (fs : List AllocatorSlot) (cur : AllocatorSlot),
    (cur :: fs).Pairwise (fun x y => x.base + x.size ≤ y.base) →
    (∀ b ∈ cur :: fs, 0 < b.size) → (∀ b ∈ cur :: fs, b.base + b.size < 2 ^ 64) →
    (mergeAdj cur fs).Pairwise Apart ∧ (∀ b ∈ mergeAdj cur fs, 0 < b.size) ∧
      ∀ x, cov (mergeAdj cur fs) x = cov (cur :: fs) x
  | [], cur, _, hpos, _ => ⟨by simp [mergeAdj], by simpa [mergeAdj] using hpos, fun _ => rfl⟩
  | f :: fs, cur, hp, hpos, hend => by
    have hcur := hend cur (.head _)
    have hf := hend f (.tail _ (.head _))
    have hpf := hpos f (.tail _ (.head _))
    have hpc := hpos cur (.head _)
    have hcf : cur.base + cur.size ≤ f.base := (pairwise_cons.1 hp).1 f (.head _)
    have hfs := (pairwise_cons.1 hp).2
    rw [mergeAdj, Nat.mod_eq_of_lt hcur]
    split
    · rename_i he
      have hm : (cur.size + f.size) % 2 ^ 64 = cur.size + f.size := Nat.mod_eq_of_lt (by omega)
      rw [hm]
      have hfs' := pairwise_cons.1 hfs
      obtain ⟨h1, h2, h3⟩ := mergeAdj_spec fs ⟨cur.base, cur.size + f.size⟩
        (pairwise_cons.2 ⟨fun y hy => by have := hfs'.1 y hy; simp only; omega, hfs'.2⟩)
        (by
          intro b hb
          rcases mem_cons.1 hb with rfl | hb
          · simp only; omega
          · exact hpos b (.tail _ (.tail _ hb)))
        (by
          intro b hb
          rcases mem_cons.1 hb with rfl | hb
          · simp only; omega
          · exact hend b (.tail _ (.tail _ hb)))
      refine ⟨h1, h2, fun x => ?_⟩
      rw [h3 x]
      simp only [cov_cons, covers_iff]
      split <;> split <;> split <;> omega
    · rename_i he
      obtain ⟨h1, h2, h3⟩ := mergeAdj_spec fs f hfs (fun b hb => hpos b (.tail _ hb))
        (fun b hb => hend b (.tail _ hb))
      refine ⟨pairwise_cons.2 ⟨fun y hy => ?_, h1⟩, ?_, fun x => ?_⟩
      · have := mergeAdj_base_le fs f hfs y hy
        show cur.base + cur.size < y.base
        omega
      · intro b hb
        rcases mem_cons.1 hb with rfl | hb
        · exact hpc
        · exact h2 b hb
      · rw [cov_cons, h3 x, cov_cons cur]

/-! ## The insertion pass -/

theorem insertSwap_perm : ∀ (fl : List AllocatorSlot) (s : AllocatorSlot),
    (insertSwap fl s).Perm (s :: fl)
  | [], _ => .refl _
  | f :: fs, s => by
    rw [insertSwap]
    split
    · exact (insertSwap_perm fs f).cons s
    · exact ((insertSwap_perm fs s).cons f).trans (.swap s f fs)

theorem insertSwap_sorted : ∀ (fl : List AllocatorSlot) (s : AllocatorSlot),
    fl.Pairwise (fun x y => x.base ≤ y.base) →
    (insertSwap fl s).Pairwise (fun x y => x.base ≤ y.base)
  | [], s, _ => by simp [insertSwap]
  | f :: fs, s, h => by
    rw [pairwise_cons] at h
    rw [insertSwap]
    split
    · rename_i hlt
      refine pairwise_cons.2 ⟨fun y hy => ?_, insertSwap_sorted fs f h.2⟩
      rcases mem_cons.1 ((insertSwap_perm fs f).subset hy) with rfl | hy
      · omega
      · have := h.1 y hy; omega
    · rename_i hlt
      refine pairwise_cons.2 ⟨fun y hy => ?_, insertSwap_sorted fs s h.2⟩
      rcases mem_cons.1 ((insertSwap_perm fs s).subset hy) with rfl | hy
      · omega
      · exact h.1 y hy

/-! ## The invariant -/

/-- The allocator's invariant for the range `[0, S)` and the live slots. -/
structure Inv (S : Nat) (a : LargeBlockAllocator) (live : List AllocatorSlot) : Prop where
  apart : a.freeList.Pairwise Apart
  freePos : ∀ f ∈ a.freeList, 0 < f.size
  livePos : ∀ s ∈ live, 0 < s.size
  tile : ∀ x, cov (a.freeList ++ live) x = if x < S then 1 else 0

namespace Inv

variable {S : Nat} {a : LargeBlockAllocator} {live : List AllocatorSlot}

/-- A block or slot of the state lies in `[0, S)`. -/
theorem le_of_mem (h : Inv S a live) {b : AllocatorSlot} (hb : b ∈ a.freeList ++ live) :
    b.base + b.size ≤ S := by
  have hp : 0 < b.size := by
    rcases mem_append.1 hb with hb | hb
    · exact h.freePos b hb
    · exact h.livePos b hb
  have h1 := h.tile (b.base + b.size - 1)
  have h2 : 0 < cov (a.freeList ++ live) (b.base + b.size - 1) :=
    cov_pos.2 ⟨b, hb, by simp; omega⟩
  split at h1 <;> omega

theorem sorted (h : Inv S a live) : a.freeList.Pairwise (fun x y => x.base ≤ y.base) :=
  h.apart.imp fun {x y} hxy => by
    have : x.base + x.size < y.base := hxy
    omega

theorem perm_live (h : Inv S a live) {live' : List AllocatorSlot} (hp : live'.Perm live) :
    Inv S a live' :=
  ⟨h.apart, h.freePos, fun s hs => h.livePos s (hp.subset hs), fun x => by
    rw [cov_perm (hp.append_left a.freeList) x, h.tile x]⟩

theorem new (h0 : 0 < S) : Inv S (LargeBlockAllocator.new S) [] := by
  refine ⟨by simp [LargeBlockAllocator.new], by simpa [LargeBlockAllocator.new] using h0,
    by simp, fun x => ?_⟩
  simp [LargeBlockAllocator.new, covers]

/-! ## Allocation -/

theorem bestFit_spec (s : Nat) : ∀ (l : List AllocatorSlot) (i bi bs : Nat),
    ((bestFit s l i bi bs).1 = bi ∧ ∀ f ∈ l, s ≤ f.size → bs ≤ f.size) ∨
    ∃ t f, l[t]? = some f ∧ s ≤ f.size ∧ (bestFit s l i bi bs).1 = i + t
  | [], _, _, _ => .inl ⟨rfl, by simp⟩
  | f :: fs, i, bi, bs => by
    -- a candidate found further on is one position later in `f :: fs`
    have shift : ∀ {bi' bs'}, (∃ t g, fs[t]? = some g ∧ s ≤ g.size ∧
        (bestFit s fs (i + 1) bi' bs').1 = i + 1 + t) →
        ∃ t g, (f :: fs)[t]? = some g ∧ s ≤ g.size ∧
          (bestFit s fs (i + 1) bi' bs').1 = i + t := by
      rintro bi' bs' ⟨t, g, h1, h2, h3⟩
      exact ⟨t + 1, g, by simpa using h1, h2, by omega⟩
    rw [bestFit]
    split
    · rename_i hfit
      split
      · rename_i hlt
        split
        · exact .inr ⟨0, f, rfl, hfit, rfl⟩
        · rcases bestFit_spec s fs (i + 1) i f.size with ⟨h1, -⟩ | h
          · exact .inr ⟨0, f, rfl, hfit, by rw [h1]; rfl⟩
          · exact .inr (shift h)
      · rcases bestFit_spec s fs (i + 1) bi bs with ⟨h1, h2⟩ | h
        · refine .inl ⟨h1, fun g hg hs => ?_⟩
          rcases mem_cons.1 hg with rfl | hg
          · omega
          · exact h2 g hg hs
        · exact .inr (shift h)
    · rename_i hfit
      rcases bestFit_spec s fs (i + 1) bi bs with ⟨h1, h2⟩ | h
      · refine .inl ⟨h1, fun g hg hs => ?_⟩
        rcases mem_cons.1 hg with rfl | hg
        · omega
        · exact h2 g hg hs
      · exact .inr (shift h)

/-- The free list is short: its blocks are disjoint and non-empty. -/
theorem length_le : ∀ {l : List AllocatorSlot}, l.Pairwise Apart → (∀ f ∈ l, 0 < f.size) →
    ∀ f ∈ l, ∀ {b : Nat}, (∀ g ∈ l, b ≤ g.base) → (∀ g ∈ l, g.base + g.size ≤ S) →
      l.length + b ≤ S
  | f :: fs, hap, hpos, _, _, b, hb, hS => by
    rw [pairwise_cons] at hap
    have hf := hpos f (.head _)
    have hbf := hb f (.head _)
    cases fs with
    | nil => have := hS f (.head _); simp; omega
    | cons g gs =>
      have := length_le (b := f.base + f.size) hap.2 (fun c hc => hpos c (.tail _ hc)) g (.head _)
        (fun c hc => Nat.le_of_lt (hap.1 c hc)) (fun c hc => hS c (.tail _ hc))
      simp only [length_cons] at this ⊢
      omega

variable (hS : S < 2 ^ 64 - 1)
include hS

/-- What `allocate` does: it fails when no free block is large enough, and otherwise carves the
slot from the front of a free block. -/
theorem allocate_cases (h : Inv S a live) (s : Nat) :
    (a.allocate s = none ∧ ∀ f ∈ a.freeList, f.size < s) ∨
    ∃ l f r, a.freeList = l ++ f :: r ∧ s ≤ f.size ∧
      a.allocate s = some (⟨f.base, s⟩, { a with freeList :=
        l ++ ((if f.size = s then [] else [⟨f.base + s, f.size - s⟩]) ++ r) }) := by
  have hmem : ∀ f ∈ a.freeList, f.base + f.size ≤ S := fun f hf => h.le_of_mem (by simp [hf])
  rcases bestFit_spec s a.freeList 0 noIdx noIdx with ⟨h1, h2⟩ | ⟨t, f, h1, h2, h3⟩
  · refine .inl ⟨by simp [allocate, h1], fun f hf => ?_⟩
    have := hmem f hf
    have h4 := h2 f hf
    unfold noIdx at h4
    omega
  · right
    obtain ⟨ht, hft⟩ := List.getElem?_eq_some_iff.1 h1
    have hlen := length_le h.apart h.freePos f (mem_of_getElem? h1) (b := 0)
      (fun _ _ => Nat.zero_le _) hmem
    have hidx : (bestFit s a.freeList 0 noIdx noIdx).1 ≠ noIdx := by
      rw [h3]; unfold noIdx; omega
    have hsplit : a.freeList = a.freeList.take t ++ f :: a.freeList.drop (t + 1) := by
      rw [← hft, ← drop_eq_getElem_cons ht, take_append_drop]
    refine ⟨_, _, _, hsplit, h2, ?_⟩
    have hfS := hmem f (mem_of_getElem? h1)
    simp only [allocate, h3, Nat.zero_add] at hidx ⊢
    rw [if_neg hidx, h1]
    simp only [Option.some.injEq, Prod.mk.injEq, true_and]
    have hmod : (f.base + s) % 2 ^ 64 = f.base + s := Nat.mod_eq_of_lt (by omega)
    rw [hmod]
    by_cases he : f.size = s
    · simp [he, eraseIdx_eq_take_drop_succ]
    · have : ¬ f.size - s = 0 := by omega
      simp [he, this, set_eq_take_append_cons_drop, ht]

theorem allocate (h : Inv S a live) {s : Nat} (hs : 0 < s) {slot : AllocatorSlot}
    {a' : LargeBlockAllocator} (ha : a.allocate s = some (slot, a')) : Inv S a' (slot :: live) := by
  rcases allocate_cases hS h s with ⟨hn, -⟩ | ⟨l, f, r, hfl, hfit, he⟩
  · rw [hn] at ha; cases ha
  rw [he] at ha
  obtain ⟨rfl, rfl⟩ : (⟨f.base, s⟩ : AllocatorSlot) = slot ∧ _ = a' := by simpa using ha
  have hap := h.apart
  have hpos := h.freePos
  rw [hfl, pairwise_append, pairwise_cons] at hap
  obtain ⟨hl, ⟨hfr, hr⟩, hlr⟩ := hap
  refine ⟨?_, ?_, ?_, fun x => ?_⟩
  · -- what is left of the block still lies in the block, so it is apart from the others
    split
    · exact pairwise_append.2 ⟨hl, hr, fun x hx y hy => hlr x hx y (.tail _ hy)⟩
    · refine pairwise_append.2 ⟨hl, pairwise_cons.2 ⟨fun y hy => ?_, hr⟩, fun x hx y hy => ?_⟩
      · have : f.base + f.size < y.base := hfr y hy
        show f.base + s + (f.size - s) < y.base
        omega
      · rcases mem_cons.1 hy with rfl | hy
        · have : x.base + x.size < f.base := hlr x hx f (.head _)
          show x.base + x.size < f.base + s
          omega
        · exact hlr x hx y (.tail _ hy)
  · intro b hb
    have hmem : ∀ c, c ∈ l ∨ c ∈ r → 0 < c.size := fun c hc => hpos c (by
      rw [hfl]; rcases hc with hc | hc <;> simp [hc])
    split at hb
    · exact hmem b (mem_append.1 hb)
    · simp only [mem_append, mem_singleton] at hb
      rcases hb with hb | rfl | hb
      · exact hmem b (.inl hb)
      · simp only; omega
      · exact hmem b (.inr hb)
  · intro b hb
    rcases mem_cons.1 hb with rfl | hb
    · exact hs
    · exact h.livePos b hb
  · have ht := h.tile x
    rw [hfl] at ht
    simp only [cov_append, cov_cons] at ht ⊢
    rw [← ht]
    split
    · rename_i he'
      have : (⟨f.base, s⟩ : AllocatorSlot) = f := by rw [← he']
      simp only [this, cov_nil]; omega
    · simp only [cov_cons, cov_nil, covers_iff]
      split <;> split <;> split <;> omega

/-! ## Release -/

theorem free (h : Inv S a live) {slot : AllocatorSlot} (hm : slot ∈ live) :
    Inv S (a.free slot) (live.erase slot) := by
  have hpos := h.livePos slot hm
  have hlive : live.Perm (slot :: live.erase slot) := perm_cons_erase hm
  have hins := insertSwap_perm a.freeList slot
  have hsub : ∀ b ∈ insertSwap a.freeList slot, b ∈ a.freeList ++ live := fun b hb => by
    rcases mem_cons.1 (hins.subset hb) with rfl | hb <;> simp [*]
  have hcov : ∀ x, cov (insertSwap a.freeList slot) x + cov (live.erase slot) x =
      if x < S then 1 else 0 := fun x => by
    rw [← h.tile x, cov_append, cov_perm hlive x, cov_perm hins x, cov_cons, cov_cons]
    omega
  have hbpos : ∀ b ∈ insertSwap a.freeList slot, 0 < b.size := fun b hb => by
    rcases mem_cons.1 (hins.subset hb) with rfl | hb
    · exact hpos
    · exact h.freePos b hb
  have hsorted := pairwise_le_of_cov (insertSwap_sorted a.freeList slot h.sorted) hbpos
    (fun x => by have := hcov x; split at this <;> omega)
  obtain ⟨f, fs, hfs⟩ : ∃ f fs, insertSwap a.freeList slot = f :: fs := by
    cases hc : insertSwap a.freeList slot with
    | nil => rw [hc] at hins; exact absurd hins.length_eq (by simp)
    | cons f fs => exact ⟨f, fs, rfl⟩
  have hend : ∀ b ∈ f :: fs, b.base + b.size < 2 ^ 64 := fun b hb => by
    have := h.le_of_mem (hsub b (hfs ▸ hb))
    omega
  rw [hfs] at hsorted hbpos hcov
  obtain ⟨h1, h2, h3⟩ := mergeAdj_spec fs f hsorted hbpos hend
  have hfree : (a.free slot).freeList = mergeAdj f fs := by
    simp [LargeBlockAllocator.free, Nat.ne_of_gt hpos, hfs, coalesce_eq]
  refine ⟨by rw [hfree]; exact h1, by rw [hfree]; exact h2,
    fun b hb => h.livePos b (erase_subset hb), fun x => ?_⟩
  rw [cov_append, hfree, h3 x]
  exact hcov x

/-- Releasing all live slots, in any order, leaves no live slot. -/
theorem freeAll {order : List AllocatorSlot} (h : Inv S a live) (hp : order.Perm live) :
    Inv S (order.foldl LargeBlockAllocator.free a) [] := by
  induction order generalizing a live with
  | nil => exact h.perm_live hp
  | cons s order ih =>
    have hs : s ∈ live := hp.subset (.head _)
    exact ih (h.free hS hs) ((perm_cons s).1 (hp.trans (perm_cons_erase hs)))

omit hS in
/-- With no live slot the whole range is one free block. -/
theorem eq_single (h : Inv S a []) (h0 : 0 < S) : a.freeList = [⟨0, S⟩] := by
  have ht : ∀ x, cov a.freeList x = if x < S then 1 else 0 := by simpa using h.tile
  have hap := h.apart
  have hcov : ∀ {x}, x < S → ∃ b ∈ a.freeList, covers b x = true := fun {x} hx =>
    cov_pos.1 (by rw [ht x, if_pos hx]; exact Nat.one_pos)
  cases hfl : a.freeList with
  | nil => rw [hfl] at hcov; obtain ⟨b, hb, -⟩ := hcov h0; cases hb
  | cons b rest =>
    rw [hfl, pairwise_cons] at hap
    have hbS : b.base + b.size ≤ S := h.le_of_mem (by simp [hfl])
    have hbase : b.base = 0 := by
      obtain ⟨c, hc, hc0⟩ := hcov h0
      rw [covers_iff] at hc0
      rw [hfl] at hc
      rcases mem_cons.1 hc with rfl | hc
      · omega
      · have : b.base + b.size < c.base := hap.1 c hc
        omega
    -- the address just after the first block would have to be covered by a later one
    have hend : b.base + b.size = S := by
      by_contra hne
      obtain ⟨c, hc, hce⟩ := hcov (show b.base + b.size < S by omega)
      rw [covers_iff] at hce
      rw [hfl] at hc
      rcases mem_cons.1 hc with rfl | hc
      · omega
      · have : b.base + b.size < c.base := hap.1 c hc
        omega
    have hrest : rest = [] := by
      cases rest with
      | nil => rfl
      | cons c cs =>
        have h1 : b.base + b.size < c.base := hap.1 c (.head _)
        have h2 : c.base + c.size ≤ S := h.le_of_mem (by simp [hfl])
        omega
    rw [hrest]
    cases b
    simp only at hbase hend
    subst hbase
    simp only [Nat.zero_add] at hend
    rw [hend]

end Inv

/-! ## Runs -/

/-- The states reached by successful allocations of positive sizes and by releases of live
slots. -/
inductive Reachable (S : Nat) : LargeBlockAllocator → List AllocatorSlot → Prop
  | new : Reachable S (.new S) []
  | allocate {a a' : LargeBlockAllocator} {live : List AllocatorSlot} {s : Nat}
      {slot : AllocatorSlot} : Reachable S a live → 0 < s → a.allocate s = some (slot, a') →
      Reachable S a' (slot :: live)
  | free {a : LargeBlockAllocator} {live : List AllocatorSlot} {slot : AllocatorSlot} :
      Reachable S a live → slot ∈ live → Reachable S (a.free slot) (live.erase slot)

theorem Reachable.inv {S : Nat} (h0 : 0 < S) (hS : S < 2 ^ 64 - 1) {a : LargeBlockAllocator}
    {live : List AllocatorSlot} (h : Reachable S a live) : Inv S a live := by
  induction h with
  | new => exact .new h0
  | allocate _ hs ha ih => exact ih.allocate hS hs ha
  | free _ hm ih => exact ih.free hS hm

/-- `s` consecutive addresses of `[0, S)` from `b`, none of them in a live slot. -/
def FreeRun (S : Nat) (live : List AllocatorSlot) (b s : Nat) : Prop :=
  ∀ x, b ≤ x → x < b + s → x < S ∧ ∀ l ∈ live, covers l x = false

/-- Two slots share no address. -/
def Disjoint (l l' : AllocatorSlot) : Prop := ∀ x, ¬ (covers l x = true ∧ covers l' x = true)

section
variable {S : Nat} {a : LargeBlockAllocator} {live : List AllocatorSlot}

theorem Inv.live_disjoint (h : Inv S a live) : live.Pairwise Disjoint := by
  have hc : ∀ x, cov live x ≤ 1 := fun x => by
    have := h.tile x
    rw [cov_append] at this
    split at this <;> omega
  clear h
  induction live with
  | nil => exact .nil
  | cons l live ih =>
    refine pairwise_cons.2 ⟨fun l' hl' x hx => ?_, ih fun x => ?_⟩
    · have h1 := hc x
      have h2 : 0 < cov live x := cov_pos.2 ⟨l', hl', hx.2⟩
      rw [cov_cons, hx.1] at h1
      simp only [↓reduceIte] at h1
      omega
    · have h1 := hc x
      rw [cov_cons] at h1
      omega

/-- A free run of `s` bytes lies in one free block: the blocks have gaps between them. -/
theorem Inv.fits_of_run (h : Inv S a live) {b s : Nat} (hs : 0 < s) (hr : FreeRun S live b s) :
    ∃ f ∈ a.freeList, s ≤ f.size := by
  have hfree : ∀ {x}, b ≤ x → x < b + s → ∃ f ∈ a.freeList, covers f x = true := fun {x} h1 h2 => by
    obtain ⟨hx, hl⟩ := hr x h1 h2
    have ht := h.tile x
    have hl0 : cov live x = 0 := countP_eq_zero.2 fun l hm => by simp [hl l hm]
    rw [cov_append, hl0, if_pos hx] at ht
    exact cov_pos.1 (by omega)
  obtain ⟨f, hf, hfb⟩ := hfree (Nat.le_refl b) (by omega)
  refine ⟨f, hf, ?_⟩
  rw [covers_iff] at hfb
  by_contra hlt
  obtain ⟨g, hg, hge⟩ := hfree (x := f.base + f.size) (by omega) (by omega)
  rw [covers_iff] at hge
  obtain ⟨i, hi, rfl⟩ := mem_iff_getElem.1 hf
  obtain ⟨j, hj, rfl⟩ := mem_iff_getElem.1 hg
  have hap := pairwise_iff_getElem.1 h.apart
  rcases Nat.lt_trichotomy i j with hij | rfl | hij
  · have h1 : _ < _ := hap i j hi hj hij
    omega
  · omega
  · have h1 : _ < _ := hap j i hj hi hij
    omega

theorem Inv.run_of_fits (h : Inv S a live) {s : Nat} {f : AllocatorSlot} (hf : f ∈ a.freeList)
    (hs : s ≤ f.size) : FreeRun S live f.base s := by
  intro x h1 h2
  have hfx : 0 < cov a.freeList x := cov_pos.2 ⟨f, hf, by simp; omega⟩
  have ht := h.tile x
  rw [cov_append] at ht
  refine ⟨by split at ht <;> omega, fun l hl => ?_⟩
  by_contra hc
  have : 0 < cov live x := cov_pos.2 ⟨l, hl, by simpa using hc⟩
  split at ht <;> omega

theorem Inv.slot_of_allocate (h : Inv S a live) (hS : S < 2 ^ 64 - 1) {s : Nat}
    {slot : AllocatorSlot} {a' : LargeBlockAllocator} (ha : a.allocate s = some (slot, a')) :
    slot.size = s ∧ ∃ f ∈ a.freeList, f.base ≤ slot.base ∧
      slot.base + slot.size ≤ f.base + f.size := by
  rcases h.allocate_cases hS s with ⟨hn, -⟩ | ⟨l, f, r, hfl, hfit, he⟩
  · rw [hn] at ha
    cases ha
  · rw [he] at ha
    obtain ⟨rfl, -⟩ : (⟨f.base, s⟩ : AllocatorSlot) = slot ∧ _ = a' := by simpa using ha
    refine ⟨rfl, f, ?_, Nat.le_refl _, Nat.add_le_add_left hfit _⟩
    rw [hfl]
    simp

/-- **The allocator's invariant and what follows from it.** In every reachable state the free
blocks are strictly sorted, non-empty, disjoint and never adjacent, and tile `[0, S)` together
with the live slots; live slots do not overlap, an allocation fails exactly when there is no free
run of its size and otherwise returns a slot of that size inside a free block, and releasing all
live slots restores the initial free list. -/
theorem reachable_tiles (h0 : 0 < S) (hS : S < 2 ^ 64 - 1) (hr : Reachable S a live) :
    a.freeList.Pairwise (fun x y => x.base + x.size < y.base) ∧
    (∀ f ∈ a.freeList, 0 < f.size) ∧
    (∀ x, cov (a.freeList ++ live) x = if x < S then 1 else 0) ∧
    live.Pairwise Disjoint ∧
    (∀ s, 0 < s → (a.allocate s = none ↔ ¬ ∃ b, FreeRun S live b s)) ∧
    (∀ s slot a', a.allocate s = some (slot, a') → slot.size = s ∧ ∃ f ∈ a.freeList,
      f.base ≤ slot.base ∧ slot.base + slot.size ≤ f.base + f.size) ∧
    (∀ order : List AllocatorSlot, order.Perm live →
      (order.foldl LargeBlockAllocator.free a).freeList = [⟨0, S⟩]) := by
  have h := hr.inv h0 hS
  refine ⟨h.apart, h.freePos, h.tile, h.live_disjoint, fun s hs => ?_,
    fun s slot a' ha => h.slot_of_allocate hS ha, fun order hp => (h.freeAll hS hp).eq_single h0⟩
  rcases h.allocate_cases hS s with ⟨hn, hsmall⟩ | ⟨l, f, r, hfl, hfit, he⟩
  · refine iff_of_true hn ?_
    rintro ⟨b, hb⟩
    obtain ⟨f, hf, hfs⟩ := h.fits_of_run hs hb
    have := hsmall f hf
    omega
  · refine iff_of_false (by rw [he]; simp) fun hno => hno ⟨f.base, h.run_of_fits ?_ hfit⟩
    rw [hfl]; simp

/-- Two allocations from 100 bytes, the first released again: a state with two free blocks. -/
theorem reachable_tiles_split :
    ((LargeBlockAllocator.mk 100 [⟨0, 30⟩, ⟨50, 50⟩]).freeList.Pairwise
      fun x y => x.base + x.size < y.base) ∧
    ((LargeBlockAllocator.mk 100 [⟨0, 30⟩, ⟨50, 50⟩]).allocate 51 = none ↔
      ¬ ∃ b, FreeRun 100 [⟨30, 20⟩] b 51) := by
  have h1 : Reachable 100 ⟨100, [⟨30, 70⟩]⟩ [⟨0, 30⟩] :=
    .allocate (s := 30) .new (by decide) (by decide)
  have h2 : Reachable 100 ⟨100, [⟨50, 50⟩]⟩ [⟨30, 20⟩, ⟨0, 30⟩] :=
    .allocate (s := 20) h1 (by decide) (by decide)
  have h3 : Reachable 100 ⟨100, [⟨0, 30⟩, ⟨50, 50⟩]⟩ [⟨30, 20⟩] :=
    .free h2 (by decide : (⟨0, 30⟩ : AllocatorSlot) ∈ _)
  have h := reachable_tiles (by decide) (by decide) h3
  exact ⟨h.1, h.2.2.2.2.1 51 (by decide)⟩

end

end EM.LargeBlockAllocator
