import Mathlib.Tactic.Linarith
import Mathlib.Tactic.Ring
import OblSort.Algorithm.ParamSelect

/-!
# Memory budgets

The parameter selection counts memory in elements, the sorter in bytes. Where the first subtraction
does not wrap around, the second does not either and the budgets agree (`Room.agrees`). The guard of
the loop compares with the result of the subtraction: for too small a memory that has wrapped
around, and the bucket size is passed on.
-/

namespace EM.Algorithm

theorem sub64_of_le {a b : Nat} (h : b ≤ a) (ha : a < 2 ^ 64) : sub64 a b = a - b := by
  unfold sub64
  omega

theorem sub64_of_lt {a b : Nat} (h : a < b) (hb : b < 2 ^ 64) : sub64 a b = 2 ^ 64 - (b - a) := by
  unfold sub64
  omega

namespace ElemType

theorem le_roundUp (n : Nat) {align : Nat} (h : 0 < align) : n ≤ roundUp n align := by
  have := Nat.lt_div_mul_add h (a := n + align - 1)
  unfold roundUp
  omega

/-- A tagged element has room for its tag and the element. -/
theorem le_sizeofTaggedT (avx : Bool) (T : ElemType) : T.size + 8 ≤ T.sizeofTaggedT avx := by
  have h1 := le_roundUp 8 T.align_pos
  have h2 := le_roundUp (roundUp 8 T.align + T.size + if avx && T.size % 32 == 16 then 8 else 0)
    (show 0 < max 8 T.align by omega)
  unfold sizeofTaggedT
  dsimp only
  omega

end ElemType

/-! ## Room for a bucket size -/

section Room

variable {b w heapSize Z : Nat}

/-- The number of elements of `w` bytes that a heap of less than `2 ^ 64` bytes holds. -/
structure Heap (b w heapSize : Nat) : Prop where
  size_pos : 0 < b
  le_sizeof : b + 8 ≤ w
  heapSize_lt : heapSize < 2 ^ 64

/-- The memory has room for what is reserved and for 16 buckets. -/
structure Room (b w heapSize Z : Nat) : Prop extends Heap b w heapSize where
  reserved_le : reservedElements b Z ≤ heapSize / w
  buckets_le : 16 * Z ≤ heapSize / w - reservedElements b Z

theorem Heap.mul_lt (h : Heap b w heapSize) : heapSize / w * (b + 8) < 2 ^ 64 :=
  calc heapSize / w * (b + 8) ≤ heapSize / w * w := Nat.mul_le_mul_left _ h.le_sizeof
    _ ≤ heapSize := Nat.div_mul_le_self _ _
    _ < 2 ^ 64 := h.heapSize_lt

/-- Nothing overflows in the reserved share. -/
def NoOverflow (b Z : Nat) : Prop := (b + 2) * Z * 8 + b - 1 < 2 ^ 64

theorem reservedElements_eq (h0 : 0 < b) (h : NoOverflow b Z) :
    reservedElements b Z = ((b + 2) * Z * 8 + b - 1) / b := by
  unfold NoOverflow at h
  rw [reservedElements, divRoundUp64, Nat.mod_eq_of_lt (show (b + 2) * Z * 8 < 2 ^ 64 by omega),
    Nat.mod_eq_of_lt h]

/-- A memory with room for more than `8 * Z` elements has no overflow at `Z`. -/
theorem Heap.noOverflow (h : Heap b w heapSize) (hZ : 8 * Z < heapSize / w) : NoOverflow b Z := by
  have hlt := h.mul_lt
  have hmul : (8 * Z + 1) * (b + 8) ≤ heapSize / w * (b + 8) := Nat.mul_le_mul_right _ hZ
  have : (8 * Z + 1) * (b + 8) = (b + 2) * Z * 8 + b + (48 * Z + 8) := by ring
  unfold NoOverflow
  omega

theorem le_reservedElements_mul (h0 : 0 < b) (h : NoOverflow b Z) :
    (b + 2) * Z * 8 ≤ reservedElements b Z * b := by
  have := Nat.lt_div_mul_add h0 (a := (b + 2) * Z * 8 + b - 1)
  rw [reservedElements_eq h0 h]
  omega

theorem reservedElements_le (h0 : 0 < b) (h : NoOverflow b Z) {n : Nat}
    (hn : (b + 2) * Z * 8 ≤ n * b) :
    reservedElements b Z ≤ n := by
  rw [reservedElements_eq h0 h]
  refine Nat.le_of_lt_succ (Nat.div_lt_of_lt_mul ?_)
  have : b * n.succ = n * b + b := by rw [Nat.succ_eq_add_one]; ring
  omega

theorem Room.noOverflow (h : Room b w heapSize Z) (hZ : 0 < Z) : NoOverflow b Z := by
  have h1 := h.reserved_le
  have h2 := h.buckets_le
  exact h.toHeap.noOverflow (by omega)

/-- **Where there is room, the budgets agree**: the sorter subtracts no more than the parameter
selection. -/
theorem Room.budget (h : Room b w heapSize Z) (hZ : 0 < Z) :
    heapSize / w - reservedElements b Z + 8 * Z ≤ (heapSize - 16 * Z) / w ∧ 16 * Z ≤ heapSize := by
  have hw : 0 < w := by have := h.le_sizeof; omega
  have hres := le_reservedElements_mul h.size_pos (h.noOverflow hZ)
  obtain ⟨d, hd⟩ := Nat.exists_eq_add_of_le h.reserved_le
  -- the share for the elements of `mergeSplitTemp`, and the rest for the marks
  have hsplit : 8 * Z * b + 16 * Z ≤ reservedElements b Z * b := by
    have : (b + 2) * Z * 8 = 8 * Z * b + 16 * Z := by ring
    omega
  have hge : 8 * Z ≤ reservedElements b Z :=
    Nat.le_of_mul_le_mul_right (show 8 * Z * b ≤ _ by omega) h.size_pos
  obtain ⟨e, he⟩ := Nat.exists_eq_add_of_le hge
  have hmarks : 16 * Z ≤ e * w := by
    have hb : e * b ≤ e * w := Nat.mul_le_mul_left e (by have := h.le_sizeof; omega)
    rw [he, Nat.add_mul] at hsplit
    omega
  have hheap : heapSize / w * w ≤ heapSize := Nat.div_mul_le_self _ _
  have hall : (d + 8 * Z) * w + 16 * Z ≤ heapSize := by
    have : heapSize / w * w = (d + 8 * Z) * w + e * w := by
      rw [hd, he]
      ring
    omega
  constructor
  · rw [hd, Nat.add_sub_cancel_left, Nat.le_div_iff_mul_le hw]
    omega
  · omega

/-- For elements of two bytes or more, the room for one bucket size is enough to reserve for the
next. -/
theorem Room.next (h : Room b w heapSize Z) (hZ : 0 < Z) (hb : 2 ≤ b) :
    reservedElements b (2 * Z) ≤ heapSize / w := by
  have hno := h.noOverflow hZ
  have hres := le_reservedElements_mul h.size_pos hno
  have h1 := h.reserved_le
  have h2 := h.buckets_le
  have hge : 8 * Z ≤ reservedElements b Z := by
    have : 8 * Z * b ≤ (b + 2) * Z * 8 := by
      have : (b + 2) * Z * 8 = 8 * Z * b + 16 * Z := by ring
      omega
    exact Nat.le_of_mul_le_mul_right (this.trans hres) h.size_pos
  refine Nat.le_trans (reservedElements_le h.size_pos (h.toHeap.noOverflow (by omega)) ?_)
    (show reservedElements b Z + 16 * Z ≤ _ by omega)
  have hmul : 2 * (8 * Z) ≤ b * (8 * Z) := Nat.mul_le_mul_right _ hb
  have e1 : (b + 2) * (2 * Z) * 8 = (b + 2) * Z * 8 + (b * (8 * Z) + 2 * (8 * Z)) := by ring
  have e2 : (reservedElements b Z + 16 * Z) * b = reservedElements b Z * b + 2 *
    (b * (8 * Z)) := by ring
  omega

/-- For elements of one byte 24 elements are reserved for each slot of a bucket. -/
theorem reservedElements_one (hZ : Z < 2 ^ 32) : reservedElements 1 Z = 24 * Z := by
  rw [reservedElements, divRoundUp64]
  omega

end Room

/-! ## The loop over the bucket sizes -/

/-- Bucket size `2 ^ (8 + k)` passes the guard. -/
def Passes (N M b k : Nat) : Prop :=
  2 ^ (8 + k) ≤ N / 2 ∧ 16 * 2 ^ (8 + k) ≤ sub64 M (reservedElements b (2 ^ (8 + k)))

def candidate (M b k : Nat) : Candidate :=
  ⟨2 ^ (8 + k), sub64 M (reservedElements b (2 ^ (8 + k))),
    sub64 M (reservedElements b (2 ^ (8 + k))) / 2 ^ (8 + k)⟩

theorem bucketSizeLoop_succ (N M b rounds i : Nat) :
    (¬ Passes N M b i ∧ bucketSizeLoop N M b (rounds + 1) i = if i = 0 then none else some []) ∨
      (Passes N M b i ∧ bucketSizeLoop N M b (rounds + 1) i =
        (bucketSizeLoop N M b rounds (i + 1)).map (candidate M b i :: ·)) := by
  rw [bucketSizeLoop, Nat.one_shiftLeft]
  by_cases h : Passes N M b i
  · obtain ⟨h1, h2⟩ := h
    exact .inr ⟨⟨h1, h2⟩, by rw [if_neg (by omega)]; rfl⟩
  · refine .inl ⟨h, if_pos ?_⟩
    unfold Passes at h
    omega

/-- **The bucket sizes passed on** are those up to which all pass the guard. -/
theorem mem_bucketSizeLoop {N M b rounds i : Nat} {cs : List Candidate}
    (h : bucketSizeLoop N M b rounds i = some cs) {c : Candidate} (hc : c ∈ cs) :
    ∃ j, j < i + rounds ∧ (∀ k, i ≤ k → k ≤ j → Passes N M b k) ∧ i ≤ j ∧ c = candidate M b j := by
  induction rounds generalizing i cs with
  | zero =>
    cases h
    cases hc
  | succ rounds ih =>
    rcases bucketSizeLoop_succ N M b rounds i with ⟨-, hloop⟩ | ⟨hpass, hloop⟩
    · rw [hloop] at h
      split at h
      · cases h
      · cases h
        cases hc
    · rw [hloop] at h
      obtain ⟨cs', hcs', rfl⟩ := Option.map_eq_some_iff.1 h
      cases hc with
      | head =>
        refine ⟨i, by omega, fun k h1 h2 => ?_, Nat.le_refl i, rfl⟩
        rwa [show k = i by omega]
      | tail _ hc =>
        obtain ⟨j, hj, hall, hij, rfl⟩ := ih hcs' hc
        refine ⟨j, by omega, fun k h1 h2 => ?_, by omega, rfl⟩
        by_cases hk : k = i
        · rwa [hk]
        · exact hall k (by omega) h2

theorem bucketSizeLoop_mem {N M b rounds i j : Nat} (hij : i ≤ j) (hj : j < i + rounds)
    (h : ∀ k, i ≤ k → k ≤ j → Passes N M b k) :
    ∃ cs, bucketSizeLoop N M b rounds i = some cs ∧ candidate M b j ∈ cs := by
  induction rounds generalizing i with
  | zero => omega
  | succ rounds ih =>
    rcases bucketSizeLoop_succ N M b rounds i with ⟨hnot, -⟩ | ⟨-, hloop⟩
    · exact absurd (h i (Nat.le_refl i) hij) hnot
    · by_cases hlast : j = i
      · subst hlast
        -- after the first bucket size the loop only stops
        have hsome : ∃ cs, bucketSizeLoop N M b rounds (j + 1) = some cs := by
          have : ∀ r k, 0 < k → ∃ cs, bucketSizeLoop N M b r k = some cs := by
            intro r
            induction r with
            | zero => exact fun k _ => ⟨[], rfl⟩
            | succ r ihr =>
              intro k hk
              rcases bucketSizeLoop_succ N M b r k with ⟨-, hl⟩ | ⟨-, hl⟩
              · exact ⟨[], by rw [hl, if_neg (by omega)]⟩
              · obtain ⟨cs, hcs⟩ := ihr (k + 1) (by omega)
                exact ⟨_, by rw [hl, hcs]; rfl⟩
          exact this rounds (j + 1) (by omega)
        obtain ⟨cs, hcs⟩ := hsome
        exact ⟨_, by rw [hloop, hcs]; rfl, List.mem_cons_self⟩
      · obtain ⟨cs, hcs, hmem⟩ := ih (show i + 1 ≤ j by omega) (by omega)
          fun k h1 h2 => h k (by omega) h2
        exact ⟨_, by rw [hloop, hcs]; rfl, List.mem_cons_of_mem _ hmem⟩

/-! ## Layers -/

/-- No layer has more ways than fit in internal memory. -/
theorem prod_layersLoop {maxWayInternal : Nat} (h8 : 8 ≤ maxWayInternal)
    (hlt : maxWayInternal * 8 < 2 ^ 64)
    {accWays : Nat} {layer ways : List Nat} (hacc : accWays = layer.prod)
    (hle : accWays ≤ maxWayInternal) (hways : ∀ way ∈ ways, way ∈ choices) :
    ∀ l ∈ layersLoop maxWayInternal accWays layer ways, l.prod ≤ maxWayInternal := by
  induction ways generalizing accWays layer with
  | nil =>
    intro l hl
    rw [layersLoop, List.mem_singleton] at hl
    rw [hl, ← hacc]
    exact hle
  | cons way ways ih =>
    have hway : way ≤ 8 := by
      have := hways way List.mem_cons_self
      simp only [choices, List.mem_cons, List.not_mem_nil, or_false] at this
      omega
    have hmod : accWays * way % 2 ^ 64 = accWays * way :=
      Nat.mod_eq_of_lt (Nat.lt_of_le_of_lt (Nat.mul_le_mul hle hway) hlt)
    have hnew := @ih way [way] (by simp) (by omega) fun w hw => hways w (.tail _ hw)
    rw [layersLoop, hmod]
    split
    · split
      · exact hnew
      · intro l hl
        cases hl with
        | head => rwa [← hacc]
        | tail _ hl => exact hnew l hl
    · refine ih ?_ (by omega) fun w hw => hways w (.tail _ hw)
      rw [List.prod_append, ← hacc, List.prod_singleton]

/-! ## The budgets of a bucket size -/

/-- **The budgets of parameter selection and sorter agree** for a bucket size: none of the
subtractions wraps around, and a batch of as many buckets as a layer has ways fits in the buffer of
the sorter. -/
structure BudgetAgrees (b w heapSize : Nat) (c : Candidate) : Prop where
  reserved_le : reservedElements b c.Z ≤ heapSize / w
  marks_le : 16 * c.Z ≤ heapSize
  temp_le : 8 * c.Z ≤ (heapSize - 16 * c.Z) / w
  ways_le : ∀ task singleBatch params size, params.Z = c.Z →
    c.maxWayInternal * c.Z ≤
      (ButterflySorter.new task singleBatch params heapSize w size).numElementFit
  batch_le : ∀ task singleBatch params size optimalWays, params.Z = c.Z →
    params.ways = solverLayers c.maxWayInternal optimalWays → (∀ way ∈ optimalWays, way ∈ choices) →
    ∀ layer ∈ params.ways, c.Z * layer.prod ≤
      (ButterflySorter.new task singleBatch params heapSize w size).numElementFit

theorem numElementFit_eq {w heapSize : Nat} {params : KWayButterflyParams}
    (hheap : heapSize < 2 ^ 64)
    (hmarks : 16 * params.Z ≤ heapSize) (htemp : 8 * params.Z ≤ (heapSize - 16 * params.Z) / w)
    (task : SortMethod) (singleBatch : Bool) (size : Nat) :
    (ButterflySorter.new task singleBatch params heapSize w size).numElementFit =
      (heapSize - 16 * params.Z) / w - 8 * params.Z := by
  have h1 : sub64 heapSize (16 * params.Z) = heapSize - 16 * params.Z := sub64_of_le hmarks hheap
  have hle : (heapSize - 16 * params.Z) / w ≤ heapSize - 16 * params.Z := Nat.div_le_self _ _
  have h2 : sub64 ((heapSize - 16 * params.Z) / w) (8 * params.Z) =
      (heapSize - 16 * params.Z) / w - 8 * params.Z := sub64_of_le htemp (by omega)
  rw [← h2, ← h1]
  rfl

theorem Room.agrees {b w heapSize k N : Nat} (h : Room b w heapSize (2 ^ (8 + k)))
    (hpass : Passes N (heapSize / w) b k) : BudgetAgrees b w heapSize
      (candidate (heapSize / w) b k) := by
  have hZ := Nat.two_pow_pos (8 + k)
  have hM : heapSize / w * (b + 8) < 2 ^ 64 := h.mul_lt
  have hM9 : heapSize / w * 9 ≤ heapSize / w * (b + 8) := Nat.mul_le_mul_left _ (by
    have := h.size_pos
    omega)
  obtain ⟨hbudget, hmarks⟩ := h.budget hZ
  have hM0 : sub64 (heapSize / w) (reservedElements b (2 ^ (8 + k))) =
      heapSize / w - reservedElements b (2 ^ (8 + k)) := sub64_of_le h.reserved_le (by omega)
  have htemp : 8 * 2 ^ (8 + k) ≤ (heapSize - 16 * 2 ^ (8 + k)) / w := by omega
  have hways : ∀ task singleBatch (params : KWayButterflyParams) size, params.Z = 2 ^ (8 + k) →
      (candidate (heapSize / w) b k).maxWayInternal * 2 ^ (8 + k) ≤
        (ButterflySorter.new task singleBatch params heapSize w size).numElementFit := by
    intro task singleBatch params size hparams
    rw [← hparams] at hmarks htemp
    rw [numElementFit_eq h.heapSize_lt hmarks htemp, hparams]
    have hdiv := Nat.div_mul_le_self (heapSize / w - reservedElements b (2 ^ (8 + k))) (2 ^ (8 + k))
    simp only [candidate, hM0]
    omega
  refine ⟨h.reserved_le, hmarks, htemp, hways, ?_⟩
  intro task singleBatch params size optimalWays hparams hlayers hopt layer hlayer
  have h16 : 16 ≤ (candidate (heapSize / w) b k).maxWayInternal := by
    simp only [candidate]
    rw [Nat.le_div_iff_mul_le hZ]
    exact hpass.2
  have hmax : (candidate (heapSize / w) b k).maxWayInternal ≤ heapSize / w := by
    simp only [candidate, hM0]
    exact (Nat.div_le_self _ _).trans (Nat.sub_le _ _)
  rw [hlayers] at hlayer
  have hprod := prod_layersLoop (show 8 ≤ _ by omega) (by omega) (by simp)
    (by omega) hopt layer hlayer
  calc 2 ^ (8 + k) * layer.prod
      ≤ 2 ^ (8 + k) * (candidate (heapSize / w) b k).maxWayInternal := Nat.mul_le_mul_left _ hprod
    _ = (candidate (heapSize / w) b k).maxWayInternal * 2 ^ (8 + k) := Nat.mul_comm _ _
    _ ≤ _ := hways task singleBatch params size hparams

/-! ## When the budgets agree -/

/-- The memory is enough: for what is reserved with the smallest bucket size, and with elements of
one byte for every further bucket size that it comes near to. -/
def EnoughMemory (N M b : Nat) : Prop :=
  reservedElements b (2 ^ 8) ≤ M ∧ (b = 1 → ∀ i, 1 ≤ i → i < 7 → 2 ^ (8 + i) ≤ N / 2 →
    ¬ (20 * 2 ^ (8 + i) ≤ M ∧ M < 24 * 2 ^ (8 + i)))

section Enough

variable {N b w heapSize : Nat}

/-- A bucket size that passes the guard with what it reserves has room. -/
theorem Heap.room (h : Heap b w heapSize) {k : Nat} (hpass : Passes N (heapSize / w) b k)
    (hres : reservedElements b (2 ^ (8 + k)) ≤ heapSize / w) : Room b w heapSize (2 ^ (8 + k)) := by
  refine ⟨h, hres, ?_⟩
  have hlt : heapSize / w < 2 ^ 64 := Nat.lt_of_le_of_lt (Nat.div_le_self _ _) h.heapSize_lt
  rw [← sub64_of_le hres hlt]
  exact hpass.2

theorem EnoughMemory.room (h : Heap b w heapSize) (henough : EnoughMemory N (heapSize / w) b)
    {k : Nat} (hk : k < 7) (hpass : ∀ j ≤ k, Passes N (heapSize / w) b j) :
    Room b w heapSize (2 ^ (8 + k)) := by
  induction k with
  | zero => exact h.room (hpass 0 (Nat.le_refl 0)) henough.1
  | succ k ih =>
    have hroom := ih (by omega) fun j hj => hpass j (by omega)
    have hpow : 2 ^ (8 + (k + 1)) = 2 * 2 ^ (8 + k) := by
      rw [← Nat.add_assoc, Nat.pow_succ, Nat.mul_comm]
    refine h.room (hpass (k + 1) (Nat.le_refl _)) ?_
    by_cases hb : 2 ≤ b
    · rw [hpow]
      exact hroom.next (Nat.two_pow_pos _) hb
    · obtain rfl : b = 1 := by
        have := h.size_pos
        omega
      have hsmall : 2 ^ (8 + (k + 1)) ≤ 2 ^ 14 := Nat.pow_le_pow_right (by decide) (by omega)
      have h1 := hroom.reserved_le
      have h2 := hroom.buckets_le
      have h3 := henough.2 rfl (k + 1) (by omega) hk (hpass (k + 1) (Nat.le_refl _)).1
      rw [reservedElements_one (by omega)] at h1 h2 ⊢
      omega

/-- Where less is there than is reserved, the difference wraps around and passes the guard. -/
theorem Heap.passes_of_lt (h : Heap b w heapSize) {k : Nat} (hk : k < 7) (hN : 2 ^ (8 + k) ≤ N / 2)
    (hlt : heapSize / w < reservedElements b (2 ^ (8 + k))) : Passes N (heapSize / w) b k := by
  have hsmall : 2 ^ (8 + k) ≤ 2 ^ 14 := Nat.pow_le_pow_right (by decide) (by omega)
  have hres : reservedElements b (2 ^ (8 + k)) ≤ 2 ^ 63 := by
    by_cases hb : 2 ≤ b
    · rw [reservedElements, divRoundUp64]
      have := Nat.mod_lt ((b + 2) * 2 ^ (8 + k) * 8 % 2 ^ 64 + b - 1) (show 0 < 2 ^ 64 by decide)
      calc _ ≤ ((b + 2) * 2 ^ (8 + k) * 8 % 2 ^ 64 + b - 1) % 2 ^ 64 / 2 :=
            Nat.div_le_div_left hb (by decide)
        _ ≤ 2 ^ 63 := by omega
    · obtain rfl : b = 1 := by
        have := h.size_pos
        omega
      rw [reservedElements_one (by omega)]
      omega
  refine ⟨hN, ?_⟩
  have hdiff : reservedElements b (2 ^ (8 + k)) - heapSize / w ≤ 2 ^ 63 :=
    (Nat.sub_le _ _).trans hres
  rw [sub64_of_lt hlt (by omega)]
  omega

end Enough

/-- **When the budgets agree**: for all bucket sizes that are passed on to the way solver, exactly
when the memory is enough. -/
theorem bucketSizes_agree_iff (avx : Bool) (T : ElemType) (N heapSize : Nat) (hN : 512 < N)
    (hheap : heapSize < 2 ^ 64) :
    (∀ cs, bucketSizes N (heapSize / T.sizeofTaggedT avx) T.size = some cs →
        ∀ c ∈ cs, BudgetAgrees T.size (T.sizeofTaggedT avx) heapSize c) ↔
      EnoughMemory N (heapSize / T.sizeofTaggedT avx) T.size := by
  have h : Heap T.size (T.sizeofTaggedT avx) heapSize :=
    ⟨T.size_pos, T.le_sizeofTaggedT avx, hheap⟩
  -- a bucket size that is reached and reserves more than there is
  have hfail : ∀ j < 7, (∀ k ≤ j, Passes N (heapSize / T.sizeofTaggedT avx) T.size k) →
      (∀ cs, bucketSizes N (heapSize / T.sizeofTaggedT avx) T.size = some cs →
        ∀ c ∈ cs, BudgetAgrees T.size (T.sizeofTaggedT avx) heapSize c) →
      reservedElements T.size (2 ^ (8 + j)) ≤ heapSize / T.sizeofTaggedT avx := by
    intro j hj hpass hagree
    obtain ⟨cs, hcs, hmem⟩ := @bucketSizeLoop_mem N _ _ 7 0 j (Nat.zero_le j) (by omega)
      fun k _ hk => hpass k hk
    exact (hagree cs hcs _ hmem).reserved_le
  constructor
  · intro hagree
    constructor
    · by_contra hlt
      refine hlt (hfail 0 (by decide) (fun k hk => ?_) hagree)
      obtain rfl : k = 0 := by omega
      exact h.passes_of_lt (by decide) (show 2 ^ 8 ≤ N / 2 by omega) (Nat.lt_of_not_le hlt)
    · rintro hb i h1 hi hNi ⟨hge, hlt⟩
      have hres : ∀ k, k < 7 → reservedElements T.size (2 ^ (8 + k)) = 24 * 2 ^ (8 + k) := by
        intro k hk
        have : 2 ^ (8 + k) ≤ 2 ^ 14 := Nat.pow_le_pow_right (by decide) (by omega)
        rw [hb]
        exact reservedElements_one (by omega)
      have hle := hfail i hi (fun k hk => ?_) hagree
      · rw [hres i hi] at hle
        omega
      · by_cases hki : k = i
        · subst hki
          exact h.passes_of_lt hi hNi (by rw [hres k hi]; exact hlt)
        · -- the smaller bucket sizes have room
          have hpow : 2 * 2 ^ (8 + k) ≤ 2 ^ (8 + i) := by
            rw [Nat.mul_comm, ← Nat.pow_succ]
            exact Nat.pow_le_pow_right (by decide) (by omega)
          have hlt64 : heapSize / T.sizeofTaggedT avx < 2 ^ 64 :=
            Nat.lt_of_le_of_lt (Nat.div_le_self _ _) hheap
          refine ⟨by omega, ?_⟩
          rw [hres k (by omega), sub64_of_le (by omega) hlt64]
          omega
  · intro henough cs hcs c hc
    obtain ⟨j, hj, hpass, -, rfl⟩ := mem_bucketSizeLoop hcs hc
    have hpass : ∀ k ≤ j, Passes N (heapSize / T.sizeofTaggedT avx) T.size k :=
      fun k hk => hpass k (Nat.zero_le k) hk
    exact (henough.room h (by omega) hpass).agrees (hpass j (Nat.le_refl j))

/-- Words of eight bytes. -/
def ElemType.uint64 : ElemType := ⟨8, 8, by decide, by decide⟩

theorem bucketSizes_agree_iff_uint64 :
    512 < 100000 ∧ ∀ cs, bucketSizes 100000 (2 ^ 20 / ElemType.uint64.sizeofTaggedT true) 8 =
      some cs →
      ∀ c ∈ cs, BudgetAgrees 8 (ElemType.uint64.sizeofTaggedT true) (2 ^ 20) c :=
  ⟨by decide, (bucketSizes_agree_iff true ElemType.uint64 100000 (2 ^ 20) (by decide) (by decide)).2
    ⟨by decide, by decide⟩⟩

/-- A heap of 1000 bytes: the subtraction wraps around, and all bucket sizes are passed on. -/
theorem bucketSizes_wraps :
    ¬ ∀ cs, bucketSizes 100000 (1000 / ElemType.uint64.sizeofTaggedT true) 8 = some cs →
      ∀ c ∈ cs, BudgetAgrees 8 (ElemType.uint64.sizeofTaggedT true) 1000 c := by
  intro hagree
  have hpass : Passes 100000 (1000 / ElemType.uint64.sizeofTaggedT true) 8 0 :=
    ⟨by decide, by decide⟩
  obtain ⟨cs, hcs, hmem⟩ := @bucketSizeLoop_mem 100000 _ 8 7 0 0 (Nat.le_refl 0) (by decide)
    fun k _ hk => by rwa [Nat.le_zero.1 hk]
  exact absurd (hagree cs hcs _ hmem).reserved_le (by decide)

end EM.Algorithm
