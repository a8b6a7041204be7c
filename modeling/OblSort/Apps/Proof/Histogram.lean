import OblSort.Algorithm.Proof.SortDef
import OblSort.Apps.Histogram
import OblSort.Apps.Proof.AppsCommon
import OblSort.Lib.Store

/-!
# The histogram counts

The entries that `histWrites` makes of a sorted list: their counts add up to its length, and those
with a count are one for each key, in increasing order (`histWrites_counts`). The second sort brings
them to the front (`histogram_counts`). For byte strings the order and the equality are those of the
comparison functions (`bytes_totalOrder`).
-/

namespace Apps

variable {T : Type} [LinearOrder T]

/-! ## The writes over a sorted list -/

theorem length_histWrites (dupCounter : Nat) (prev : T) (rest : List T) :
    (histWrites dupCounter prev rest).length = rest.length + 1 := by
  induction rest generalizing dupCounter prev with
  | nil => rfl
  | cons ele rest ih => simp [histWrites, ih]

/-- Nothing is lost: `dupCounter` elements before `prev`, itself and the rest. -/
theorem sum_histWrites (dupCounter : Nat) (prev : T) (rest : List T) :
    ((histWrites dupCounter prev rest).map HistEntry.count).sum = dupCounter + 1 + rest.length := by
  induction rest generalizing dupCounter prev with
  | nil => simp [histWrites]
  | cons ele rest ih =>
    simp only [histWrites, List.map_cons, List.sum_cons, ih, List.length_cons]
    by_cases hdup : prev = ele
    · simp [hdup]
      omega
    · simp [hdup]
      omega

/-- The entries with a count. -/
def counted (es : List (HistEntry T)) : List (HistEntry T) := es.filter fun e => e.count != 0

theorem counted_histWrites_dup (dupCounter : Nat) (prev : T) (rest : List T) :
    counted (histWrites dupCounter prev (prev :: rest)) = counted
      (histWrites (dupCounter + 1) prev rest) := by
  simp [counted, histWrites]

theorem counted_histWrites_new (dupCounter : Nat) {prev ele : T} (hne : prev ≠ ele)
    (rest : List T) :
    counted (histWrites dupCounter prev (ele :: rest)) =
      ⟨prev, dupCounter + 1⟩ :: counted (histWrites 0 ele rest) := by
  simp [counted, histWrites, hne]

/-- **The writes over a sorted list**: one entry with a count for each key, with the length of its
run, of which `dupCounter` elements lie before `prev`. -/
theorem histWrites_counts {dupCounter : Nat} {prev : T} {rest : List T}
    (hsorted : (prev :: rest).Pairwise (· ≤ ·)) :
    (counted (histWrites dupCounter prev rest)).Pairwise (fun a b => a.key < b.key) ∧
      ∀ k c, ⟨k, c⟩ ∈ counted (histWrites dupCounter prev rest) ↔
        k ∈ prev :: rest ∧ c = (prev :: rest).count k + if k = prev then dupCounter else 0 := by
  induction rest generalizing dupCounter prev with
  | nil =>
    refine ⟨by simp [counted, histWrites], fun k c => ?_⟩
    simp only [counted, histWrites, List.filter_cons, List.filter_nil]
    by_cases hk : k = prev
    · subst hk
      simp
      omega
    · simp [hk]
  | cons ele rest ih =>
    obtain ⟨hprev, hrest⟩ := List.pairwise_cons.1 hsorted
    by_cases hdup : prev = ele
    · -- the run goes on
      subst hdup
      obtain ⟨hlt, hmem⟩ := @ih (dupCounter + 1) prev hrest
      rw [counted_histWrites_dup]
      refine ⟨hlt, fun k c => ?_⟩
      rw [hmem]
      by_cases hk : k = prev
      · subst hk
        simp
        omega
      · simp [hk, Ne.symm hk]
    · -- the run ends with `prev`, which is below everything that follows
      obtain ⟨hlt, hmem⟩ := @ih 0 ele hrest
      have habove : ∀ k ∈ ele :: rest, prev < k := by
        intro k hk
        have hele : prev < ele := lt_of_le_of_ne (hprev ele List.mem_cons_self) hdup
        cases hk with
        | head => exact hele
        | tail _ hk => exact lt_of_lt_of_le hele ((List.pairwise_cons.1 hrest).1 k hk)
      have hnot : prev ∉ ele :: rest := fun h => (habove prev h).false
      rw [counted_histWrites_new dupCounter hdup]
      refine ⟨List.pairwise_cons.2 ⟨fun e he => ?_, hlt⟩, fun k c => ?_⟩
      · obtain ⟨k, c⟩ := e
        exact habove k ((hmem k c).1 he).1
      · rw [List.mem_cons, hmem]
        by_cases hk : k = prev
        · subst hk
          simp [hnot, List.count_eq_zero.2 hnot]
          omega
        · simp [hk, Ne.symm hk]

/-! ## The second sort -/

theorem HistEntry.lt_of_counted {a b : HistEntry T} (ha : (a.count != 0) = true)
    (hb : (b.count != 0) = false) : HistEntry.lt a b = true := by
  simp only [bne_eq_false_iff_eq] at hb
  simp [HistEntry.lt, ha, hb]

theorem HistEntry.key_le {a b : HistEntry T} (hb : (b.count != 0) = true)
    (h : HistEntry.lt b a = false) : (a.count != 0) = true → a.key ≤ b.key := by
  intro ha
  simp only [bne_iff_ne] at ha hb
  simpa [HistEntry.lt, hb, ha] using h

/-- What a histogram of `xs` is: an entry for each element, first one for each key in increasing
order with its multiplicity, then entries with count zero. -/
structure IsHistogram (xs : List T) (out : List (HistEntry T)) : Prop where
  length_eq : out.length = xs.length
  entries : ∃ es fillers, out = es ++ fillers ∧ es.Pairwise (fun a b => a.key < b.key) ∧
    (∀ k c, ⟨k, c⟩ ∈ es ↔ k ∈ xs ∧ c = xs.count k) ∧ ∀ e ∈ fillers, e.count = 0
  sum_eq : (out.map HistEntry.count).sum = xs.length

theorem isHistogram_of_sortedPerm {xs ys : List T} {first : T} {rest : List T}
    {out : List (HistEntry T)} (hkeys : SortedPerm (fun a b => decide (a < b)) xs ys)
    (hys : ys = first :: rest)
    (hentries : SortedPerm HistEntry.lt (histWrites 0 first rest) out) : IsHistogram xs out := by
  subst hys
  have hlen := hkeys.length_eq
  have hsorted : (first :: rest).Pairwise (· ≤ ·) :=
    hkeys.sorted.imp fun {a b} hab => not_lt.1 (of_decide_eq_false hab)
  obtain ⟨hlt, hmem⟩ := @histWrites_counts T _ 0 first rest hsorted
  have hperm : List.Perm (counted out) (counted (histWrites 0 first rest)) :=
    hentries.perm.filter _
  refine ⟨?_, ⟨counted out, out.filter fun e => !(e.count != 0), ?_, ?_, ?_, ?_⟩, ?_⟩
  · rw [hentries.length_eq, length_histWrites, ← hlen, List.length_cons]
  · refine Store.pairwise_eq_append hentries.sorted fun a _ b _ ha hb hab => ?_
    rw [HistEntry.lt_of_counted ha hb] at hab
    cases hab
  · -- sorted by key, and no key occurs twice
    have hne : (counted out).Pairwise fun a b => a.key ≠ b.key :=
      (hperm.symm.pairwise (hlt.imp fun h => h.ne) fun h => h.symm)
    have hle : (counted out).Pairwise fun a b => a.key ≤ b.key := by
      refine List.Pairwise.imp_of_mem ?_ (hentries.sorted.filter _)
      intro a b ha hb hab
      exact HistEntry.key_le (List.mem_filter.1 hb).2 hab (List.mem_filter.1 ha).2
    exact hle.imp₂ (fun a b hab hne => lt_of_le_of_ne hab hne) hne
  · intro k c
    rw [hperm.mem_iff, hmem k c, hkeys.perm.mem_iff, hkeys.perm.count_eq]
    simp
  · intro e he
    simpa using (List.mem_filter.1 he).2
  · rw [(hentries.perm.map _).sum_eq, sum_histWrites, ← hlen, List.length_cons]
    omega

/-- A histogram from a sort of the keys and one of as many entries. -/
theorem histogram_isHistogram {sortKeys : List T → List T}
    {sortEntries : List (HistEntry T) → List (HistEntry T)} {xs : List T} (hne : xs ≠ [])
    (hkeys : SortedPerm (fun a b => decide (a < b)) xs (sortKeys xs))
    (hentries : ∀ es : List (HistEntry T), es.length = xs.length →
      SortedPerm HistEntry.lt es (sortEntries es)) :
    ∃ out, histogram sortKeys sortEntries xs = some out ∧ IsHistogram xs out := by
  have hlen := hkeys.length_eq
  cases hys : sortKeys xs with
  | nil =>
    rw [hys] at hlen
    exact absurd (List.eq_nil_of_length_eq_zero hlen.symm) hne
  | cons first rest =>
    rw [hys] at hlen
    refine ⟨sortEntries (histWrites 0 first rest), ?_, ?_⟩
    · simp only [histogram, histogramHelper, hys]
    · refine isHistogram_of_sortedPerm hkeys hys (hentries _ ?_)
      rw [length_histWrites, ← hlen, List.length_cons]

/-- **`histogram` counts exactly**, whichever sorts it uses. -/
theorem histogram_counts (sortKeys : Sorter fun a b : T => decide (a < b))
    (sortEntries : Sorter (@HistEntry.lt T _)) (xs : List T) (hne : xs ≠ []) :
    ∃ out, histogram sortKeys.run sortEntries.run xs = some out ∧ IsHistogram xs out :=
  histogram_isHistogram hne (sortKeys.spec xs) fun es _ => sortEntries.spec es

/-- The entries with a count come first, by their key. -/
def HistEntry.sorter : Sorter (@HistEntry.lt T _) :=
  Sorter.byKey (fun e => if e.count = 0 then (⊤ : WithTop T) else e.key) _ fun a b h => by
    obtain ⟨h, ha⟩ : (a.key < b.key ∨ b.count = 0) ∧ a.count ≠ 0 := by simpa [HistEntry.lt] using h
    rw [if_neg ha]
    split
    · exact WithTop.coe_lt_top _
    · exact WithTop.coe_lt_coe.2 (h.resolve_right ‹_›)

/-- Runs at both ends of the list. -/
theorem histogram_counts_runs :
    ∃ out, histogram (Sorter.byKey id _ fun _ _ => of_decide_eq_true).run HistEntry.sorter.run
        [7, 3, 9, 3, 9, 3] = some out ∧ IsHistogram [7, 3, 9, 3, 9, 3] out :=
  histogram_counts (Sorter.byKey id _ fun _ _ => of_decide_eq_true) HistEntry.sorter
    [7, 3, 9, 3, 9, 3] (by decide)

/-- With `BitonicSortRW` in memory nothing is assumed about the sorts. -/
theorem histogram_bitonic (xs : List T) (hne : xs ≠ []) (hlen : xs.length < 2 ^ 63) :
    ∃ out, histogram (bitonicSortRW fun a b => decide (a < b)) (bitonicSortRW HistEntry.lt) xs =
      some out ∧ IsHistogram xs out := by
  apply histogram_isHistogram hne
  · refine bitonicSortRW_sortedPerm ?_ ?_ (Nat.le_of_lt hlen)
    · intro a b hab
      exact decide_eq_false (of_decide_eq_true hab).not_gt
    · intro a b c hab hbc
      exact decide_eq_false (not_lt.2 (le_trans (not_lt.1 (of_decide_eq_false hab))
        (not_lt.1 (of_decide_eq_false hbc))))
  · intro es hes
    refine bitonicSortRW_sortedPerm ?_ ?_ (by omega)
    · intro a b hab
      simp only [HistEntry.lt] at hab ⊢
      grind
    · intro a b c hab hbc
      simp only [HistEntry.lt] at hab hbc ⊢
      grind

/-! ## Byte strings as keys -/

section Bytes

open EM.Algorithm CmpIntrinsics

/-- **The comparison of byte strings is a total order**: of two arrays of `sz` bytes one is less
than the other or all bytes agree, as `obliCheckEqual` finds. So for `Bytes` the sort, the equality
and the order of `histogram` are those of the code, and it counts each byte string. -/
theorem bytes_totalOrder (sz : Nat) [NeZero sz] :
    (∀ a b, obliCheckEqual sz a b = true ↔ ∀ i < sz, a i = b i) ∧
      (∀ a, obliCheckLess sz a a = false) ∧
      (∀ a b c, obliCheckLess sz a b = true → obliCheckLess sz b c = true →
        obliCheckLess sz a c = true) ∧
      (∀ a b, obliCheckLess sz a b = true ∧ obliCheckEqual sz a b = false ∧
        obliCheckLess sz b a = false ∨
        obliCheckLess sz a b = false ∧ obliCheckEqual sz a b = true ∧ obliCheckLess sz b a = false ∨
        obliCheckLess sz a b = false ∧ obliCheckEqual sz a b = false ∧
        obliCheckLess sz b a = true) ∧
      (∀ x y : Bytes sz, SortKey.eq x y = true ↔ SortKey.lt x y = false ∧ SortKey.lt y x = false) ∧
      (∀ x y : Bytes sz, decide (x = y) = SortKey.eq x y ∧ decide (x < y) = SortKey.lt x y) ∧
      ∀ (sortKeys : Sorter fun x y : Bytes sz => SortKey.lt x y)
        (sortEntries : Sorter (@HistEntry.lt (Bytes sz) _)) (xs : List (Bytes sz)), xs ≠ [] →
        ∃ out, histogram sortKeys.run sortEntries.run xs = some out ∧ IsHistogram xs out := by
  classical
  have hsz : 1 ≤ sz := Nat.pos_of_neZero sz
  have hless : ∀ a b, obliCheckLess sz a b = decide (words sz a < words sz b) := fun a b => by
    rw [Bool.eq_iff_iff, decide_eq_true_iff]
    exact obliCheckLess_iff hsz
  have hequal : ∀ a b, obliCheckEqual sz a b = decide (words sz a = words sz b) := fun a b => by
    rw [Bool.eq_iff_iff, decide_eq_true_iff, words_eq_iff]
    exact obliCheckEqual_iff
  refine ⟨fun a b => obliCheckEqual_iff, fun a => ?_, fun a b c hab hbc => ?_, fun a b => ?_,
    fun x y => ?_, fun x y => ⟨Bytes.decide_eq x y, Bytes.decide_lt x y⟩,
    fun sortKeys sortEntries xs hne => ?_⟩
  · rw [hless]
    exact decide_eq_false (lt_irrefl _)
  · rw [hless, decide_eq_true_iff] at hab hbc ⊢
    exact lt_trans hab hbc
  · simp only [hless, hequal, decide_eq_true_iff, decide_eq_false_iff_not]
    rcases lt_trichotomy (words sz a) (words sz b) with h | h | h
    · exact .inl ⟨h, h.ne, h.not_gt⟩
    · exact .inr (.inl ⟨h.not_lt, h, h.not_gt⟩)
    · exact .inr (.inr ⟨h.not_gt, h.ne', h⟩)
  · rw [Bytes.eq_iff, Bytes.lt_eq_false_iff, Bytes.lt_eq_false_iff, ← Bytes.key_inj]
    exact ⟨fun h => ⟨h.ge, h.le⟩, fun h => le_antisymm h.2 h.1⟩
  · refine histogram_isHistogram hne ?_ fun es _ => sortEntries.spec es
    simp only [Bytes.decide_lt]
    exact sortKeys.spec xs

/-- Twelve bytes are a word and half a word. -/
theorem bytes_totalOrder_twelve :
    obliCheckLess 12 (fun i => BitVec.ofNat 8 i) (fun i => BitVec.ofNat 8 i) = false ∧
      (obliCheckEqual 12 (fun i => BitVec.ofNat 8 i) (fun i => BitVec.ofNat 8 (i % 11)) = true ↔
        ∀ i < 12, BitVec.ofNat 8 i = BitVec.ofNat 8 (i % 11)) :=
  ⟨(bytes_totalOrder 12).2.1 fun i => BitVec.ofNat 8 i,
    (bytes_totalOrder 12).1 (fun i => BitVec.ofNat 8 i) fun i => BitVec.ofNat 8 (i % 11)⟩

end Bytes

end Apps
