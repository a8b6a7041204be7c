import Mathlib.Data.List.Basic
import Mathlib.Data.List.Perm.Basic
import Mathlib.Logic.Function.Basic
import Mathlib.Order.Defs.Unbundled

/-!
# Comparator networks

A network is a list of comparators, run from left to right on a store of any type. The store and
what a comparator does to it are parameters, so two runs of one network on different stores are
related as soon as one comparator is (`run_rel`).

`zero_one`: a network that sorts every store of bits sorts every list, for every comparison
function that agrees with a total preorder.
-/

namespace Net

/-- A comparator on the positions `fst` and `snd`: with `dire` set the smaller value goes to
`fst`, otherwise the larger one. -/
structure Comparator where
  dire : Bool
  fst : Nat
  snd : Nat
  deriving Repr, DecidableEq

variable {σ τ α : Type}

/-- Run a network, with `cs` the effect of one comparator. -/
def run (cs : Bool → Nat → Nat → σ → σ) (net : List Comparator) (s : σ) : σ :=
  net.foldl (fun s c => cs c.dire c.fst c.snd s) s

@[simp] theorem run_nil (cs : Bool → Nat → Nat → σ → σ) (s : σ) : run cs [] s = s := rfl

@[simp] theorem run_cons (cs : Bool → Nat → Nat → σ → σ) (c : Comparator) (net : List Comparator)
    (s : σ) : run cs (c :: net) s = run cs net (cs c.dire c.fst c.snd s) := rfl

@[simp] theorem run_append (cs : Bool → Nat → Nat → σ → σ) (net net' : List Comparator) (s : σ) :
    run cs (net ++ net') s = run cs net' (run cs net s) := by
  simp [run]

/-- **Simulation**: a relation that every comparator of the network keeps, the network keeps. -/
theorem run_rel {cs : Bool → Nat → Nat → σ → σ} {cs' : Bool → Nat → Nat → τ → τ}
    {R : σ → τ → Prop} {net : List Comparator}
    (h : ∀ c ∈ net, ∀ s t, R s t → R (cs c.dire c.fst c.snd s) (cs' c.dire c.fst c.snd t))
    {s : σ} {t : τ} (hst : R s t) : R (run cs net s) (run cs' net t) := by
  induction net generalizing s t with
  | nil => exact hst
  | cons c net ih =>
    exact ih (fun c' hc' => h c' (.tail _ hc')) (h c (.head _) s t hst)

theorem run_inv {cs : Bool → Nat → Nat → σ → σ} {P : σ → Prop} {net : List Comparator}
    (h : ∀ c ∈ net, ∀ s, P s → P (cs c.dire c.fst c.snd s)) {s : σ} (hs : P s) :
    P (run cs net s) := by
  induction net generalizing s with
  | nil => exact hs
  | cons c net ih => exact ih (fun c' hc' => h c' (.tail _ hc')) (h c (.head _) s hs)

/-! ## Comparators on lists -/

/-- Exchange the values at `i` and `j` when `swap` says so. -/
def condSwap (swap : α → α → Bool) (i j : Nat) (xs : List α) : List α :=
  match xs[i]?, xs[j]? with
  | some a, some b => if swap a b then (xs.set i b).set j a else xs
  | _, _ => xs

/-- The comparator for the comparison function `cmp`. -/
def listExch (cmp : α → α → Bool) (dire : Bool) (i j : Nat) : List α → List α :=
  condSwap (fun a b => dire != cmp a b) i j

@[simp] theorem length_condSwap (swap : α → α → Bool) (i j : Nat) (xs : List α) :
    (condSwap swap i j xs).length = xs.length := by
  unfold condSwap
  split
  · split <;> simp
  · rfl

theorem condSwap_perm (swap : α → α → Bool) (i j : Nat) (xs : List α) :
    List.Perm (condSwap swap i j xs) xs := by
  unfold condSwap
  split
  · rename_i a b ha hb
    split
    · obtain ⟨hi, rfl⟩ := List.getElem?_eq_some_iff.1 ha
      obtain ⟨hj, rfl⟩ := List.getElem?_eq_some_iff.1 hb
      exact List.set_set_perm hi hj
    · exact List.Perm.refl _
  · exact List.Perm.refl _

theorem getElem?_condSwap (swap : α → α → Bool) {i j : Nat} {xs : List α} (hi : i < xs.length)
    (hj : j < xs.length) (k : Nat) : (condSwap swap i j xs)[k]? =
      if swap xs[i] xs[j] then (if k = j then some xs[i] else if k = i then some xs[j] else xs[k]?)
      else xs[k]? := by
  simp only [condSwap, List.getElem?_eq_getElem hi, List.getElem?_eq_getElem hj]
  by_cases hs : swap xs[i] xs[j] = true
  · simp only [hs, if_true, List.getElem?_set, List.length_set]
    by_cases h1 : j = k
    · subst h1
      simp [hj]
    · by_cases h2 : i = k
      · subst h2
        simp [h1, hi, Ne.symm h1]
      · simp [h1, h2, Ne.symm h1, Ne.symm h2]
  · simp [hs]

theorem run_listExch_perm (cmp : α → α → Bool) (net : List Comparator) (xs : List α) :
    List.Perm (run (listExch cmp) net xs) xs :=
  run_inv (P := fun ys => List.Perm ys xs) (fun _ _ _ h => (condSwap_perm _ _ _ _).trans h)
  (.refl _)

/-- A comparator leaves the other positions alone. -/
theorem getElem?_condSwap_of_ne (swap : α → α → Bool) {i j k : Nat} (hi : i ≠ k) (hj : j ≠ k)
    (xs : List α) : (condSwap swap i j xs)[k]? = xs[k]? := by
  unfold condSwap
  split
  · split
    · rw [List.getElem?_set_ne hj, List.getElem?_set_ne hi]
    · rfl
  · rfl

theorem condSwap_append (swap : α → α → Bool) {i j : Nat} {xs : List α} (hi : i < xs.length)
    (hj : j < xs.length) (ys : List α) :
    condSwap swap i j (xs ++ ys) = condSwap swap i j xs ++ ys := by
  unfold condSwap
  rw [List.getElem?_append_left hi, List.getElem?_append_left hj, List.getElem?_eq_getElem hi,
    List.getElem?_eq_getElem hj]
  dsimp only
  split
  · rw [List.set_append_left _ _ hi, List.set_append_left _ _ (by rwa [List.length_set])]
  · rfl

/-! ## Comparators on bits -/

/-- The comparator on a store of bits. -/
def bitExch (dire : Bool) (i j : Nat) (m : Nat → Bool) : Nat → Bool :=
  Function.update (Function.update m i (if dire then m i && m j else m i || m j)) j
    (if dire then m i || m j else m i && m j)

theorem bitExch_apply (dire : Bool) (i j : Nat) (m : Nat → Bool) (k : Nat) :
    bitExch dire i j m k =
      if k = j then (if dire then m i || m j else m i && m j)
      else if k = i then (if dire then m i && m j else m i || m j) else m k := by
  simp only [bitExch, Function.update_apply]

/-- A network leaves a position alone that none of its comparators is on. -/
theorem run_bitExch_of_notMem {net : List Comparator} {k : Nat}
    (h : ∀ c ∈ net, c.fst ≠ k ∧ c.snd ≠ k) (m : Nat → Bool) : run bitExch net m k = m k := by
  refine run_inv (P := fun m' : Nat → Bool => m' k = m k) (fun c hc m' hm' => ?_) rfl
  obtain ⟨h1, h2⟩ := h c hc
  rw [bitExch_apply, if_neg (Ne.symm h2), if_neg (Ne.symm h1), hm']

/-- The store as a comparator of direction `dire` sees it: its smaller bit goes to `fst`. -/
def view (dire : Bool) (m : Nat → Bool) (k : Nat) : Bool := m k == dire

theorem view_bitExch (dire : Bool) {i j : Nat} (hij : i ≠ j) (m : Nat → Bool) (k : Nat) :
    view dire (bitExch dire i j m) k =
      if k = j then view dire m i || view dire m j
      else if k = i then view dire m i && view dire m j else view dire m k := by
  unfold view bitExch
  by_cases hj : k = j
  · subst hj
    cases dire <;> cases m i <;> cases m k <;> simp
  · by_cases hi : k = i
    · subst hi
      cases dire <;> cases m k <;> cases m j <;> simp [hij]
    · simp [hi, hj]

theorem view_not (dire : Bool) (m : Nat → Bool) (k : Nat) :
    view (!dire) m k = !view dire m k := by
  unfold view
  cases dire <;> cases m k <;> rfl

/-! ## The zero-one principle -/

/-- `cmp` decides some total preorder, up to its choice between equivalent values. -/
structure Decides (le : α → α → Prop) (cmp : α → α → Bool) : Prop where
  trans : ∀ a b c, le a b → le b c → le a c
  le_of_cmp : ∀ a b, cmp a b = true → le a b
  le_of_not : ∀ a b, cmp a b = false → le b a

theorem Decides.refl {le : α → α → Prop} {cmp : α → α → Bool} (h : Decides le cmp) (a : α) :
    le a a := by
  cases hc : cmp a a with
  | false => exact h.le_of_not a a hc
  | true => exact h.le_of_cmp a a hc

theorem Decides.flip {le : α → α → Prop} {cmp : α → α → Bool} (h : Decides le cmp) :
    Decides (fun a b => le b a) (fun a b => cmp b a) where
  trans a b c hab hbc := h.trans c b a hbc hab
  le_of_cmp a b hab := h.le_of_cmp b a hab
  le_of_not a b hab := h.le_of_not b a hab

theorem Decides.not {le : α → α → Prop} {cmp : α → α → Bool} (h : Decides le cmp) :
    Decides (fun a b => le b a) (fun a b => !cmp a b) where
  trans a b c hab hbc := h.trans c b a hbc hab
  le_of_cmp a b hab := h.le_of_not a b (by simpa using hab)
  le_of_not a b hab := h.le_of_cmp a b (by simpa using hab)

/-- A strict weak order decides "not greater". -/
theorem Decides.of_strict (lt : α → α → Bool)
    [hlt : IsStrictWeakOrder α fun a b => lt a b = true] :
    Decides (fun a b => lt b a = false) lt where
  trans a b c hab hbc := by
    rw [← Bool.not_eq_true] at hab hbc ⊢
    intro hca
    -- `a` and `b` are incomparable, and so are `b` and `c`
    have hab' : ¬ lt a b = true := fun h => hbc (trans_of (fun a b => lt a b = true) hca h)
    have hbc' : ¬ lt b c = true := fun h => hab (trans_of (fun a b => lt a b = true) h hca)
    exact (hlt.incomp_trans a b c ⟨hab', hab⟩ ⟨hbc', hbc⟩).2 hca
  le_of_cmp a b h := by
    rw [← Bool.not_eq_true]
    exact fun h' => irrefl_of (fun a b => lt a b = true) a
      (trans_of (fun a b => lt a b = true) h h')
  le_of_not _ _ h := h

/-- A comparison that decides "not greater" is a strict weak order. -/
theorem Decides.strictWeakOrder {lt : α → α → Bool} (h : Decides (fun a b => lt b a = false) lt) :
    IsStrictWeakOrder α fun a b => lt a b = true where
  irrefl a haa := by
    have := h.le_of_cmp a a haa
    rw [haa] at this
    cases this
  trans a b c hab hbc := by
    cases hac : lt a c with
    | true => rfl
    | false =>
      have := h.trans c a b hac (h.le_of_cmp a b hab)
      rw [hbc] at this
      cases this
  incomp_trans a b c hab hbc := by
    simp only [Bool.not_eq_true] at hab hbc ⊢
    exact ⟨h.trans c b a hbc.1 hab.1, h.trans a b c hab.2 hbc.2⟩

instance strictWeakOrder_lt : IsStrictWeakOrder Nat fun a b => decide (a < b) = true where
  irrefl a := by simp
  trans a b c := by simpa using Nat.lt_trans
  incomp_trans a b c := by
    simp only [decide_eq_true_eq]
    omega

/-- The bit store of a list under a threshold. -/
def Threshold (φ : α → Bool) (xs : List α) (m : Nat → Bool) : Prop :=
  ∀ k (hk : k < xs.length), m k = φ xs[k]

theorem Threshold.exch {le : α → α → Prop} {cmp : α → α → Bool} (h : Decides le cmp)
    {φ : α → Bool} (hφ : ∀ a b, le a b → φ a = true → φ b = true) {xs : List α} {m : Nat → Bool}
    (hm : Threshold φ xs m) (dire : Bool) {i j : Nat} (hij : i ≠ j) (hi : i < xs.length)
    (hj : j < xs.length) : Threshold φ (listExch cmp dire i j xs) (bitExch dire i j m) := by
  intro k hk
  have hget := getElem?_condSwap (fun a b => dire != cmp a b) hi hj k
  change (listExch cmp dire i j xs)[k]? = _ at hget
  rw [List.getElem?_eq_getElem hk] at hget
  have hk' : k < xs.length := by simpa [listExch] using hk
  have h1 : cmp xs[i] xs[j] = true → φ xs[i] = true → φ xs[j] = true :=
    fun hc => hφ _ _ (h.le_of_cmp _ _ hc)
  have h2 : cmp xs[i] xs[j] = false → φ xs[j] = true → φ xs[i] = true :=
    fun hc => hφ _ _ (h.le_of_not _ _ hc)
  unfold bitExch
  by_cases ej : k = j
  · subst ej
    simp only [Function.update_self, hm i hi, hm k hk']
    cases dire <;> cases hc : cmp xs[i] xs[k] <;> simp_all
  · by_cases ei : k = i
    · subst ei
      simp only [Function.update_of_ne hij, Function.update_self, hm k hk', hm j hj]
      cases dire <;> cases hc : cmp xs[k] xs[j] <;> simp_all
    · simp only [Function.update_of_ne ej, Function.update_of_ne ei]
      rw [hm k hk']
      simp only [ej, ei, if_false, ite_self, List.getElem?_eq_getElem hk', Option.some.injEq]
        at hget
      rw [hget]

/-- The comparators of a network on `n` positions. -/
def InRange (n : Nat) (net : List Comparator) : Prop :=
  ∀ c ∈ net, c.fst ≠ c.snd ∧ c.fst < n ∧ c.snd < n

/-- A network on the positions of `xs` leaves what stands behind them alone. -/
theorem run_listExch_append (cmp : α → α → Bool) {net : List Comparator} {xs : List α}
    (hnet : InRange xs.length net) (ys : List α) :
    run (listExch cmp) net (xs ++ ys) = run (listExch cmp) net xs ++ ys := by
  have h : run (listExch cmp) net (xs ++ ys) = run (listExch cmp) net xs ++ ys ∧
      (run (listExch cmp) net xs).length = xs.length := by
    refine run_rel (R := fun zs ws => zs = ws ++ ys ∧ ws.length = xs.length) ?_ ⟨rfl, rfl⟩
    rintro c hc zs ws ⟨rfl, hlen⟩
    obtain ⟨-, h1, h2⟩ := hnet c hc
    exact ⟨condSwap_append _ (by omega) (by omega) ys, by rw [listExch, length_condSwap, hlen]⟩
  exact h.1

/-- **The zero-one principle**: a network that sorts every store of bits sorts every list. -/
theorem zero_one {le : α → α → Prop} {cmp : α → α → Bool} (h : Decides le cmp)
    {net : List Comparator} {xs : List α} (hnet : InRange xs.length net)
    (hbits : ∀ m i j, i ≤ j → j < xs.length → run bitExch net m i = true →
      run bitExch net m j = true) :
    List.Pairwise le (run (listExch cmp) net xs) := by
  classical
  rw [List.pairwise_iff_getElem]
  intro i j hi hj hij
  have hlen := (run_listExch_perm cmp net xs).length_eq
  -- the threshold at the value that ends up at `j`
  set θ := (run (listExch cmp) net xs)[j] with hθ
  let φ : α → Bool := fun a => !decide (le a θ)
  have hφ : ∀ a b, le a b → φ a = true → φ b = true := fun a b hab ha => by
    simp only [φ, Bool.not_eq_true', decide_eq_false_iff_not] at ha ⊢
    exact fun hb => ha (h.trans _ _ _ hab hb)
  let m : Nat → Bool := fun k => (xs[k]?.map φ).getD false
  have hm : Threshold φ xs m := fun k hk => by simp [m, hk]
  have hrun : (run (listExch cmp) net xs).length = xs.length ∧
      Threshold φ (run (listExch cmp) net xs) (run bitExch net m) := by
    apply run_rel (R := fun ys m => ys.length = xs.length ∧ Threshold φ ys m) _ ⟨rfl, hm⟩
    rintro c hc ys m' ⟨hl, hy⟩
    obtain ⟨hne, h1, h2⟩ := hnet c hc
    exact ⟨by simpa [listExch] using hl, hy.exch h hφ c.dire hne (by omega) (by omega)⟩
  have hjf : run bitExch net m j = false := by
    rw [hrun.2 j hj]
    simp [φ, ← hθ, h.refl θ]
  have hif : run bitExch net m i = false := by
    cases hb : run bitExch net m i with
    | false => rfl
    | true => rw [hbits m i j (by omega) (by omega) hb] at hjf; cases hjf
  rw [hrun.2 i hi] at hif
  simpa [φ] using hif

/-- The comparator of the other direction. -/
def Comparator.flip (c : Comparator) : Comparator := { c with dire := !c.dire }

/-- The opposite comparison in the opposite direction is the same. -/
theorem run_flip_listExch (cmp : α → α → Bool) (net : List Comparator) (xs : List α) :
    run (listExch fun a b => !cmp a b) (net.map Comparator.flip) xs =
      run (listExch cmp) net xs := by
  induction net generalizing xs with
  | nil => rfl
  | cons c net ih =>
    have hc : listExch (fun a b => !cmp a b) (!c.dire) c.fst c.snd xs =
        listExch cmp c.dire c.fst c.snd xs := by
      simp [listExch]
    rw [List.map_cons, run_cons, run_cons, ih]
    exact congrArg (run (listExch cmp) net) hc

/-- On bits, the flipped network works on the complement. -/
theorem run_flip_bitExch (net : List Comparator) (m : Nat → Bool) (k : Nat) :
    run bitExch (net.map Comparator.flip) m k = !run bitExch net (fun i => !m i) k := by
  induction net generalizing m with
  | nil => simp
  | cons c net ih =>
    have hc : (fun i => !bitExch (!c.dire) c.fst c.snd m i) =
        bitExch c.dire c.fst c.snd fun i => !m i := by
      funext i
      rw [bitExch_apply, bitExch_apply]
      cases c.dire <;> cases m c.fst <;> cases m c.snd <;> simp
    rw [List.map_cons, run_cons, run_cons, ih]
    exact congrArg (fun m => !run bitExch net m k) hc

theorem InRange.flip {n : Nat} {net : List Comparator} (h : InRange n net) :
    InRange n (net.map Comparator.flip) := by
  intro c hc
  obtain ⟨c', hc', rfl⟩ := List.mem_map.1 hc
  exact h c' hc'

/-- The zero-one principle for a network that sorts downwards. -/
theorem zero_one_down {le : α → α → Prop} {cmp : α → α → Bool} (h : Decides le cmp)
    {net : List Comparator} {xs : List α} (hnet : InRange xs.length net)
    (hbits : ∀ m i j, i ≤ j → j < xs.length → run bitExch net m j = true →
      run bitExch net m i = true) :
    List.Pairwise (fun a b => le b a) (run (listExch cmp) net xs) := by
  rw [← run_flip_listExch]
  refine zero_one h.not hnet.flip fun m i j hij hj hi => ?_
  rw [run_flip_bitExch] at hi ⊢
  have := hbits (fun i => !m i) i j hij hj
  cases hb : run bitExch net (fun i => !m i) j with
  | false => rfl
  | true => simp [this hb] at hi

end Net
