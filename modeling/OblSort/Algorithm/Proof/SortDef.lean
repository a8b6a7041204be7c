import OblSort.Algorithm.SortDef
import OblSort.Common.Proof.CmpIntrinsics
import OblSort.Lib.Network
import Mathlib.Order.Defs.Unbundled

/-!
# The order of the elements

For a strict weak order `SortKey.Lt`, `SortKey.Le` is transitive and total, which is what the
sorting networks and the merges rely on. A `Bytes` is compared by its words (`Bytes.key`), which
orders it linearly.
-/

namespace EM.Algorithm

namespace SortKey

variable {α : Type} [SortKey α]

theorem not_lt {x y : α} : ¬ Lt x y ↔ Le y x := by
  rw [Lt, Le, Bool.not_eq_true]

variable [IsStrictWeakOrder α Lt]

/-- The comparison decides the order. -/
theorem decides : Net.Decides (Le (α := α)) lt :=
  @Net.Decides.of_strict α lt (inferInstanceAs (IsStrictWeakOrder α Lt))

theorem Lt.le {x y : α} (h : Lt x y) : Le x y := decides.le_of_cmp x y h

theorem Le.trans {x y z : α} (hxy : Le x y) (hyz : Le y z) : Le x z := decides.trans x y z hxy hyz

end SortKey

/-- `operator==` holds of the elements that `operator<` does not tell apart. -/
def SortKey.EqIsIncomp (α : Type) [SortKey α] : Prop :=
  ∀ x y : α, SortKey.eq x y = true ↔ ¬ SortKey.Lt x y ∧ ¬ SortKey.Lt y x

namespace Bytes

open CmpIntrinsics

variable {size : Nat}

/-- `operator==` is equality. -/
theorem eq_iff {x y : Bytes size} : SortKey.eq x y = true ↔ x = y := by
  refine obliCheckEqual_iff.trans ⟨fun h => ?_, fun h i _ => by rw [h]⟩
  obtain ⟨x⟩ := x
  obtain ⟨y⟩ := y
  congr 1
  funext i
  simpa [getData] using h i.val i.isLt

/-- The words of a byte string. -/
def key (x : Bytes size) : Lex (Nat → Nat) := words size x.getData

theorem key_inj {x y : Bytes size} : x.key = y.key ↔ x = y :=
  words_eq_iff.trans (obliCheckEqual_iff.symm.trans eq_iff)

variable [NeZero size]

/-- `operator<` compares the words. -/
theorem lt_iff {x y : Bytes size} : SortKey.lt x y = true ↔ x.key < y.key :=
  obliCheckLess_iff (Nat.pos_of_neZero size)

theorem lt_eq_false_iff {x y : Bytes size} : SortKey.lt y x = false ↔ x.key ≤ y.key := by
  rw [← Bool.not_eq_true, lt_iff]
  exact not_lt

/-- Byte strings in the order of the code's operators. -/
instance : LinearOrder (Bytes size) where
  le x y := SortKey.lt y x = false
  lt x y := SortKey.lt x y = true
  le_refl x := lt_eq_false_iff.2 (le_refl x.key)
  le_trans x y z hxy hyz :=
    lt_eq_false_iff.2 (le_trans (lt_eq_false_iff.1 hxy) (lt_eq_false_iff.1 hyz))
  lt_iff_le_not_ge x y := by
    rw [lt_iff, lt_eq_false_iff, lt_eq_false_iff]
    exact lt_iff_le_not_ge
  le_antisymm x y hxy hyx :=
    key_inj.1 (le_antisymm (lt_eq_false_iff.1 hxy) (lt_eq_false_iff.1 hyx))
  le_total x y := (le_total x.key y.key).imp lt_eq_false_iff.2 lt_eq_false_iff.2
  toDecidableLE x y := inferInstanceAs (Decidable (SortKey.lt y x = false))
  toDecidableEq x y := decidable_of_iff (SortKey.eq x y = true) eq_iff
  toDecidableLT x y := inferInstanceAs (Decidable (SortKey.lt x y = true))

theorem decide_lt (x y : Bytes size) : decide (x < y) = SortKey.lt x y :=
  (Bool.decide_congr Iff.rfl).trans Bool.decide_eq_true

theorem decide_eq (x y : Bytes size) : decide (x = y) = SortKey.eq x y :=
  (Bool.decide_congr eq_iff.symm).trans Bool.decide_eq_true

end Bytes

namespace Block

variable {α : Type} [SortKey α]

/-- Not `y < x`. -/
def Le (x y : Block α) : Prop := y.lt x = false

theorem le_iff {x y : Block α} : x.Le y ↔
    SortKey.Le x.data y.data ∧ (SortKey.eq y.data x.data = true → x.tag.toNat ≤ y.tag.toNat) := by
  rw [Le, lt, Bool.or_eq_false_iff, Bool.and_eq_false_imp, BitVec.ult_eq_decide]
  simp only [SortKey.Le, decide_eq_false_iff_not, Nat.not_lt]

variable [IsStrictWeakOrder α SortKey.Lt] (heq : SortKey.EqIsIncomp α)

include heq in
/-- The comparison of blocks decides an order. -/
theorem decides : Net.Decides (Le (α := α)) lt where
  trans x y z hxy hyz := by
    rw [le_iff] at hxy hyz ⊢
    refine ⟨hxy.1.trans hyz.1, fun hzx => ?_⟩
    -- equal ends make all three equal
    obtain ⟨hzx, hxz⟩ := (heq _ _).1 hzx
    have hzy : SortKey.Le z.data y.data := (SortKey.not_lt.1 hxz).trans hxy.1
    have hyx : SortKey.Le y.data x.data := hyz.1.trans (SortKey.not_lt.1 hxz)
    exact Nat.le_trans (hxy.2 ((heq _ _).2 ⟨SortKey.not_lt.2 hxy.1, SortKey.not_lt.2 hyx⟩))
      (hyz.2 ((heq _ _).2 ⟨SortKey.not_lt.2 hyz.1, SortKey.not_lt.2 hzy⟩))
  le_of_cmp x y h := by
    rw [lt, Bool.or_eq_true, Bool.and_eq_true, BitVec.ult_eq_decide, decide_eq_true_iff] at h
    rw [le_iff]
    rcases h with h | ⟨h, htag⟩
    · exact ⟨SortKey.Lt.le h, fun hyx => absurd h ((heq _ _).1 hyx).2⟩
    · exact ⟨SortKey.not_lt.1 ((heq _ _).1 h).2, fun _ => Nat.le_of_lt htag⟩
  le_of_not x y h := h

include heq in
theorem strictWeakOrder : IsStrictWeakOrder (Block α) SortKey.Lt :=
  (decides heq).strictWeakOrder

end Block

/-- The sorted permutations of `xs`. -/
structure SortedPerm {α : Type} [SortKey α] (xs out : List α) : Prop where
  perm : List.Perm out xs
  sorted : out.Pairwise SortKey.Le

instance : IsStrictWeakOrder SortElement SortKey.Lt where
  irrefl x h := by
    change x.key.ult x.key = true at h
    rw [BitVec.ult_iff_lt, BitVec.lt_def] at h
    omega
  trans x y z h h' := by
    change x.key.ult y.key = true at h
    change y.key.ult z.key = true at h'
    change x.key.ult z.key = true
    rw [BitVec.ult_iff_lt, BitVec.lt_def] at h h' ⊢
    omega
  incomp_trans x y z h h' := by
    change ¬ x.key.ult y.key = true ∧ ¬ y.key.ult x.key = true at h
    change ¬ y.key.ult z.key = true ∧ ¬ z.key.ult y.key = true at h'
    change ¬ x.key.ult z.key = true ∧ ¬ z.key.ult x.key = true
    simp only [BitVec.ult_iff_lt, BitVec.lt_def] at h h' ⊢
    omega

theorem SortElement.eqIsIncomp : SortKey.EqIsIncomp SortElement := fun x y => by
  change (x.key == y.key) = true ↔ ¬ x.key.ult y.key = true ∧ ¬ y.key.ult x.key = true
  rw [beq_iff_eq, BitVec.ult_iff_lt, BitVec.ult_iff_lt, BitVec.lt_def, BitVec.lt_def,
    ← BitVec.toNat_inj]
  omega

end EM.Algorithm
