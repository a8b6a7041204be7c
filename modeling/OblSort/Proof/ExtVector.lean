import OblSort.ExtVector
import OblSort.Server.Proof.Nonce
import OblSort.Algorithm.Proof.Bitonic

/-!
# Sorting through the cache

`Presents P c m`: the vector `c`, its cache and its encrypted backend together, presents the pages
`m`. A page that was just dereferenced is held dirty in its slot (`Held`), and it stays there while
other slots are accessed. So a compare-and-swap acts on the elements of `m` as it does on a plain
array, if its two pages are one page or live in two slots (`condSwap_presents`); otherwise its
first reference has turned into a reference to the second page.
-/

namespace EM.ExtVector

open CACHE Function Net

variable {cacheSize itemPerPage : Nat} {α : Type}

/-! ## The pages a vector presents -/

/-- The pages below `P` are in the backend under their nonce of counter 0. -/
def Stored {T : Type} (P : Nat) (f : Frontend T) (pages : Nat → T) : Prop :=
  ∀ i < P, f.pages i = some ⟨f.nounce.forPage i 0, pages i⟩

theorem Stored.read {T : Type} {P : Nat} {f : Frontend T} {pages : Nat → T} (h : Stored P f pages)
    {i : Nat} (hi : i < P) : (Frontend.server T).read i f = some (pages i) := by
  simp [Frontend.server, Frontend.read, h i hi, FreshEncrypted.decrypt]

theorem Stored.write {T : Type} {P : Nat} {f : Frontend T} {pages : Nat → T} (h : Stored P f pages)
    (i : Nat) (v : T) : Stored P ((Frontend.server T).write i v f) (update pages i v) := by
  intro j hj
  by_cases e : j = i
  · subst e
    simp [Frontend.server, Frontend.write]
  · simpa [Frontend.server, Frontend.write, update_of_ne e] using h j hj

/-- The vector of `P` pages presents the pages `m`. -/
def Presents (P : Nat) (c : Vec cacheSize itemPerPage α) (m : Nat → Page itemPerPage α) : Prop :=
  ∃ pages, Stored P c.server pages ∧ (∀ k, (c.cache k).idx < P) ∧
    Cached.Coherent ⟨c.cache, pages⟩ m

/-- The slot of page `i`. -/
abbrev slotOf (cacheSize i : Nat) : Fin (dmCacheSize cacheSize) := Cached.mappedSlot _ i

/-- Page `i` is in its slot, dirty. -/
def Held (i : Nat) (c : Vec cacheSize itemPerPage α) : Prop :=
  (c.cache (slotOf cacheSize i)).idx = i ∧ (c.cache (slotOf cacheSize i)).dirty = true

variable {P : Nat} {c : Vec cacheSize itemPerPage α} {m : Nat → Page itemPerPage α}

/-- An access to the vector does to the cache what it does over a plain page store. -/
theorem Stored.accessDM {pages : Nat → Page itemPerPage α} (h : Stored P c.server pages)
    (hidx : ∀ k, (c.cache k).idx < P) (dirty : Bool) {i : Nat} (hi : i < P) :
    ∃ cache' f' pages', Cached.accessDM (Frontend.server _) dirty false true i c =
        some (slotOf cacheSize i, ⟨cache', f'⟩) ∧
      Cached.accessDM (pageStore _) dirty false true i ⟨c.cache, pages⟩ =
        some (slotOf cacheSize i, ⟨cache', pages'⟩) ∧
      Stored P f' pages' ∧ (∀ k, (cache' k).idx < P) ∧
      ∀ k ≠ slotOf cacheSize i, cache' k = c.cache k := by
  have hset : ∀ (e : CacheEntry (Page itemPerPage α)), e.idx = i →
      (∀ k, (update c.cache (slotOf cacheSize i) e k).idx < P) ∧
      ∀ k ≠ slotOf cacheSize i, update c.cache (slotOf cacheSize i) e k = c.cache k :=
    fun e he => ⟨fun k => by
      by_cases hk : k = slotOf cacheSize i
      · subst hk; simpa [he] using hi
      · rw [update_of_ne hk]; exact hidx k, fun k hk => update_of_ne hk ..⟩
  by_cases hit : (c.cache (slotOf cacheSize i)).idx = i
  · refine ⟨_, c.server, pages, Cached.accessDM_hit _ dirty hit, Cached.accessDM_hit _ dirty hit,
      h, hset _ rfl⟩
  · have hw : Stored P (Cached.writtenBack (Frontend.server _) (slotOf cacheSize i) c)
        (Cached.writtenBack (pageStore _) (slotOf cacheSize i)
          (⟨c.cache, pages⟩ : Cached _ _ (Nat → Page itemPerPage α))) := by
      unfold Cached.writtenBack
      split
      · exact h.write _ _
      · exact h
    refine ⟨_, _, _, ?_, Cached.accessDM_miss _ dirty hit, hw, hset _ rfl⟩
    rw [Cached.accessDM_miss _ dirty hit, hw.read hi]
    rfl

theorem Presents.accessDM (h : Presents P c m) (dirty : Bool) {i : Nat} (hi : i < P) :
    ∃ c', Cached.accessDM (Frontend.server _) dirty false true i c =
        some (slotOf cacheSize i, c') ∧ Presents P c' m ∧
      (c'.cache (slotOf cacheSize i)).val = m i ∧ (dirty = true → Held i c') ∧
      ∀ k ≠ slotOf cacheSize i, c'.cache k = c.cache k := by
  obtain ⟨pages, hs, hidx, hcoh⟩ := h
  obtain ⟨cache', f', pages', he, hp, hs', hidx', hother⟩ := hs.accessDM hidx dirty hi
  obtain ⟨c₁, d, he₁, hc, hd, hcoh'⟩ := hcoh.access dirty i
  obtain rfl : (⟨cache', pages'⟩ : Cached _ _ (Nat → Page itemPerPage α)) = c₁ := by
    rw [hp] at he₁
    simpa using he₁
  refine ⟨⟨cache', f'⟩, he, ⟨pages', hs', hidx', hcoh'⟩, ?_, fun hdirty => ⟨?_, ?_⟩, hother⟩
  · exact congrArg CacheEntry.val hc
  · exact congrArg CacheEntry.idx hc
  · exact (congrArg CacheEntry.dirty hc).trans (hd hdirty)

/-! ## References -/

theorem Presents.load (h : Presents P c m) {i : Nat} (hh : Held i c) (o : Fin itemPerPage) :
    load ⟨slotOf cacheSize i, o⟩ c = m i o := by
  obtain ⟨pages, -, -, hcoh⟩ := h
  have := hcoh.hit (slotOf cacheSize i) (by rw [hh.1])
  dsimp only at this
  rw [ExtVector.load, Cached.deref, this, hh.1]

theorem Held.assign {i j : Nat} (hh : Held j c) (o : Fin itemPerPage) (v : α) :
    Held j (assign ⟨slotOf cacheSize i, o⟩ v c) := by
  unfold Held ExtVector.assign Cached.store Cached.setSlot at *
  by_cases e : slotOf cacheSize j = slotOf cacheSize i
  · simp only [e, update_self]
    rwa [e] at hh
  · simpa only [update_of_ne e] using hh

theorem Presents.assign (h : Presents P c m) {i : Nat} (hh : Held i c) (o : Fin itemPerPage)
    (v : α) : Presents P (assign ⟨slotOf cacheSize i, o⟩ v c) (update m i (update (m i) o v)) := by
  have hval : Cached.deref (slotOf cacheSize i) c = m i := funext fun o => h.load hh o
  obtain ⟨pages, hs, hidx, hcoh⟩ := h
  have hentry : c.cache (slotOf cacheSize i) = ⟨m i, i, true⟩ := by
    obtain ⟨h1, h2⟩ := hh
    rw [Cached.deref] at hval
    cases he : c.cache (slotOf cacheSize i)
    simp_all
  refine ⟨pages, hs, fun k => ?_, ?_⟩
  · simp only [ExtVector.assign, Cached.store, Cached.setSlot]
    by_cases e : k = slotOf cacheSize i
    · subst e; simpa using hidx _
    · simpa [update_of_ne e] using hidx k
  · rw [← hval]
    exact hcoh.store hentry _

/-! ## Elements -/

variable [NeZero itemPerPage]

/-- The element at position `ptr` of the pages `m`. -/
def element (m : Nat → Page itemPerPage α) (ptr : Nat) : α :=
  m (ptr / itemPerPage) (Fin.ofNat itemPerPage ptr)

theorem element_update (m : Nat → Page itemPerPage α) (ptr : Nat) (v : α) :
    element (update m (ptr / itemPerPage)
      (update (m (ptr / itemPerPage)) (Fin.ofNat itemPerPage ptr) v)) =
      update (element m) ptr v := by
  funext q
  unfold element
  by_cases hq : q = ptr
  · subst hq; simp
  · rw [update_of_ne hq]
    by_cases hpage : q / itemPerPage = ptr / itemPerPage
    · have hoff : Fin.ofNat itemPerPage q ≠ Fin.ofNat itemPerPage ptr := fun e => by
        have hmod : q % itemPerPage = ptr % itemPerPage := by simpa [Fin.ext_iff] using e
        have h1 := Nat.div_add_mod q itemPerPage
        have h2 := Nat.div_add_mod ptr itemPerPage
        rw [hpage, hmod, h2] at h1
        exact hq h1.symm
      rw [hpage, update_self, update_of_ne hoff]
    · rw [update_of_ne hpage]

/-- The vector of `n` elements presents the elements `e`. -/
def Elements (n : Nat) (c : Vec cacheSize itemPerPage α) (e : Nat → α) : Prop :=
  ∃ m, Presents (pageCount itemPerPage n) c m ∧ element m = e

/-- The page of position `ptr` is in its slot, dirty. -/
def HeldAt (ptr : Nat) (c : Vec cacheSize itemPerPage α) : Prop := Held (ptr / itemPerPage) c

variable {n : Nat} {e : Nat → α}

omit [NeZero itemPerPage] in
theorem div_lt_pageCount {ptr : Nat} (h : ptr < n) :
    ptr / itemPerPage < pageCount itemPerPage n :=
  Nat.lt_succ_of_le (Nat.div_le_div_right (Nat.le_of_lt h))

theorem Elements.load (h : Elements n c e) {ptr : Nat} (hh : HeldAt ptr c) :
    load (refAt cacheSize itemPerPage ptr) c = e ptr := by
  obtain ⟨m, hm, rfl⟩ := h
  exact hm.load hh _

theorem Elements.assign (h : Elements n c e) {ptr : Nat} (hh : HeldAt ptr c) (v : α) :
    Elements n (assign (refAt cacheSize itemPerPage ptr) v c) (update e ptr v) := by
  obtain ⟨m, hm, rfl⟩ := h
  exact ⟨_, hm.assign hh _ v, element_update m ptr v⟩

theorem HeldAt.assign {p q : Nat} (hh : HeldAt q c) (v : α) :
    HeldAt q (assign (refAt cacheSize itemPerPage p) v c) := Held.assign hh _ v

/-- Dereferencing an iterator: its page is held afterwards, and so is every page in another slot
that was held before. -/
theorem Elements.deref (h : Elements n c e) {ptr : Nat} (hp : ptr < n) :
    ∃ c', deref ptr c = some (refAt cacheSize itemPerPage ptr, c') ∧ Elements n c' e ∧
      HeldAt ptr c' ∧ ∀ q, (q / itemPerPage = ptr / itemPerPage ∨
        slotOf cacheSize (q / itemPerPage) ≠ slotOf cacheSize (ptr / itemPerPage)) →
        HeldAt q c → HeldAt q c' := by
  obtain ⟨m, hm, rfl⟩ := h
  obtain ⟨c', he, hm', -, hheld, hother⟩ := hm.accessDM true (div_lt_pageCount hp)
  refine ⟨c', ?_, ⟨m, hm', rfl⟩, hheld rfl, fun q hq hh => ?_⟩
  · rw [ExtVector.deref, Cached.access, he]
    rfl
  · rcases hq with hq | hq
    · unfold HeldAt
      rw [hq]
      exact hheld rfl
    · unfold HeldAt Held at *
      rwa [hother _ hq]

theorem Elements.derefConst (h : Elements n c e) {ptr : Nat} (hp : ptr < n) :
    ∃ c', derefConst ptr c = some (refAt cacheSize itemPerPage ptr, c') ∧ Elements n c' e ∧
      ExtVector.load (refAt cacheSize itemPerPage ptr) c' = e ptr := by
  obtain ⟨m, hm, rfl⟩ := h
  obtain ⟨c', he, hm', hval, -, -⟩ := hm.accessDM false (div_lt_pageCount hp)
  refine ⟨c', ?_, ⟨m, hm', rfl⟩, ?_⟩
  · rw [ExtVector.derefConst, Cached.accessReadOnly, he]
    rfl
  · exact congrFun hval _

/-! ## One compare-and-swap -/

/-- The positions `l` and `r` are in one page, or in pages of two slots. -/
def Apart (cacheSize itemPerPage l r : Nat) : Prop :=
  l / itemPerPage = r / itemPerPage ∨
    (l / itemPerPage) % dmCacheSize cacheSize ≠ (r / itemPerPage) % dmCacheSize cacheSize

omit [NeZero itemPerPage] in
theorem Apart.slotOf {l r : Nat} (h : Apart cacheSize itemPerPage l r) :
    l / itemPerPage = r / itemPerPage ∨
      slotOf cacheSize (l / itemPerPage) ≠ slotOf cacheSize (r / itemPerPage) :=
  h.imp_right fun hne e => hne (by simpa [Cached.mappedSlot, Fin.ext_iff] using e)

omit [NeZero itemPerPage] in
theorem Apart.symm {l r : Nat} (h : Apart cacheSize itemPerPage l r) :
    Apart cacheSize itemPerPage r l := h.imp Eq.symm Ne.symm

/-- Both references of a pair are good when the second one is obtained. -/
theorem Elements.derefPair (h : Elements n c e) (rightFirst : Bool) {l r : Nat} (hl : l < n)
    (hr : r < n) (ha : Apart cacheSize itemPerPage l r) :
    ∃ c', derefPair rightFirst l r c =
        some ((refAt cacheSize itemPerPage l, refAt cacheSize itemPerPage r), c') ∧
      Elements n c' e ∧ HeldAt l c' ∧ HeldAt r c' := by
  cases rightFirst with
  | false =>
    obtain ⟨c₁, h1, he₁, hh₁, -⟩ := h.deref hl
    obtain ⟨c₂, h2, he₂, hh₂, hkeep⟩ := he₁.deref hr
    exact ⟨c₂, by simp [ExtVector.derefPair, h1, h2], he₂, hkeep l ha.slotOf hh₁, hh₂⟩
  | true =>
    obtain ⟨c₁, h1, he₁, hh₁, -⟩ := h.deref hr
    obtain ⟨c₂, h2, he₂, hh₂, hkeep⟩ := he₁.deref hl
    exact ⟨c₂, by simp [ExtVector.derefPair, h1, h2], he₂, hh₂, hkeep r ha.symm.slotOf hh₁⟩

theorem Elements.swapRefs (h : Elements n c e) {l r : Nat} (hl : HeldAt l c) (hr : HeldAt r c) :
    Elements n (swapRefs (refAt cacheSize itemPerPage l) (refAt cacheSize itemPerPage r) c)
      (update (update e l (e r)) r (e l)) := by
  unfold ExtVector.swapRefs
  rw [h.load hl, h.load hr]
  exact (h.assign hl _).assign (hr.assign _) _

/-- **A compare-and-swap through the cache** acts on the elements as on a plain array. -/
theorem Elements.condSwap (h : Elements n c e) (rightFirst : Bool) (cmp : α → α → Bool)
    (dire : Bool) {l r : Nat} (hl : l < n) (hr : r < n) (ha : Apart cacheSize itemPerPage l r) :
    ∃ c', condSwap rightFirst cmp dire l r c = some c' ∧
      Elements n c' (if dire != cmp (e l) (e r) then update (update e l (e r)) r (e l) else e) := by
  obtain ⟨c₁, h1, he₁, hl₁, hr₁⟩ := h.derefPair rightFirst hl hr ha
  obtain ⟨c₂, h2, he₂, hl₂, hr₂⟩ := he₁.derefPair rightFirst hl hr ha
  have hres : ExtVector.condSwap rightFirst cmp dire l r c =
      some (if dire != cmp (e l) (e r) then
        ExtVector.swapRefs (refAt cacheSize itemPerPage l) (refAt cacheSize itemPerPage r) c₂
        else c₂) := by
    cases rightFirst with
    | false => simp [ExtVector.condSwap, h1, h2, he₁.load hl₁, he₁.load hr₁]
    | true => simp [ExtVector.condSwap, h1, h2, he₂.load hl₂, he₂.load hr₂]
  refine ⟨_, hres, ?_⟩
  split
  · exact he₂.swapRefs hl₂ hr₂
  · exact he₂

/-! ## Writing, sorting and reading back -/

/-- The first `xs.length` elements are those of `xs`. -/
def Lists (e : Nat → α) (xs : List α) : Prop := ∀ i (hi : i < xs.length), e i = xs[i]

theorem Lists.condSwap {xs : List α} (h : Lists e xs) (swap : α → α → Bool) {l r : Nat}
    (hl : l < xs.length) (hr : r < xs.length) :
    Lists (if swap (e l) (e r) then update (update e l (e r)) r (e l) else e)
      (Net.condSwap swap l r xs) := by
  intro i hi
  have hi' : i < xs.length := by simpa using hi
  have hget := getElem?_condSwap swap hl hr i
  rw [List.getElem?_eq_getElem hi, ← h l hl, ← h r hr] at hget
  split at hget
  · rename_i hs
    rw [if_pos hs]
    by_cases e1 : i = r
    · subst e1; simpa using hget.symm
    · by_cases e2 : i = l
      · subst e2; simpa [e1] using hget.symm
      · rw [update_of_ne e1, update_of_ne e2, h i hi']
        simpa [e1, e2, hi'] using hget.symm
  · rename_i hs
    rw [if_neg hs, h i hi']
    simpa [hi'] using hget.symm

/-- Writing a list, position by position. -/
theorem Elements.write (h : Elements n c e) {ptr : Nat} {xs : List α} (hn : ptr + xs.length ≤ n) :
    ∃ c' e', write ptr xs c = some c' ∧ Elements n c' e' ∧ (∀ i < ptr, e' i = e i) ∧
      ∀ i (hi : i < xs.length), e' (ptr + i) = xs[i] := by
  induction xs generalizing ptr c e with
  | nil => exact ⟨c, e, rfl, h, fun _ _ => rfl, by simp⟩
  | cons x xs ih =>
    rw [List.length_cons] at hn
    obtain ⟨c₁, h1, he₁, hh, -⟩ := h.deref (show ptr < n by omega)
    obtain ⟨c₂, e₂, h2, he₂, hlow, hlist⟩ :=
      ih (he₁.assign hh x) (show ptr + 1 + xs.length ≤ n by omega)
    refine ⟨c₂, e₂, by simp [ExtVector.write, h1, h2], he₂, fun i hi => ?_, fun i hi => ?_⟩
    · rw [hlow i (by omega), update_of_ne (by omega)]
    · cases i with
      | zero => rw [Nat.add_zero, hlow ptr (by omega), update_self]; rfl
      | succ i => simpa [Nat.add_assoc, Nat.add_comm 1 i] using hlist i (by simpa using hi)

theorem Elements.read (h : Elements n c e) {ptr count : Nat} (hn : ptr + count ≤ n) :
    ∃ c', read ptr count c = some ((List.range count).map fun i => e (ptr + i), c') := by
  induction count generalizing ptr c with
  | zero => exact ⟨c, rfl⟩
  | succ count ih =>
    obtain ⟨c₁, h1, he₁, hload⟩ := h.derefConst (show ptr < n by omega)
    obtain ⟨c₂, h2⟩ := ih he₁ (show ptr + 1 + count ≤ n by omega)
    refine ⟨c₂, ?_⟩
    simp [ExtVector.read, h1, h2, hload, List.range_succ_eq_map, Nat.add_assoc, Nat.add_comm 1]

theorem stored_new {T : Type} (nn : Nounce) (p : T) (k : Nat) :
    Stored k (Frontend.new false nn k p) fun _ => p := by
  unfold Frontend.new
  simp only [Bool.false_eq_true, if_false]
  induction k with
  | zero => exact fun i hi => absurd hi (Nat.not_lt_zero i)
  | succ k ih =>
    rw [List.range_succ, List.foldl_append]
    intro i hi
    by_cases e : i = k
    · subst e
      simp [Frontend.write]
    · simpa [Frontend.write, update_of_ne e] using ih i (by omega)

/-- The first element written to a new vector finds page 0 in slot 0, as the constructor left it,
and makes it dirty. -/
theorem deref_new [Inhabited α] (cacheSize : Nat) (nn : Nounce) (p : Page itemPerPage α) (n : Nat) :
    ∃ c' e, deref 0 (ExtVector.new (dmCacheSize cacheSize) nn itemPerPage n p) =
        some (refAt cacheSize itemPerPage 0, c') ∧ Elements n c' e ∧ HeldAt 0 c' := by
  let c : Vec cacheSize itemPerPage α := ExtVector.new _ nn itemPerPage n p
  let c' : Vec cacheSize itemPerPage α := c.setSlot (slotOf cacheSize 0) ⟨default, 0, true⟩
  have hslot : c'.cache (slotOf cacheSize 0) = ⟨default, 0, true⟩ := by
    simp [c', Cached.setSlot]
  have hother : ∀ k ≠ slotOf cacheSize 0, c'.cache k = ⟨default, 0, false⟩ :=
    fun k hk => update_of_ne hk ..
  have hidx : ∀ k, (c'.cache k).idx = 0 := fun k => by
    by_cases hk : k = slotOf cacheSize 0
    · rw [hk, hslot]
    · rw [hother k hk]
  refine ⟨c', element (update (fun _ => p) 0 default), ?_, ⟨_, ?_, rfl⟩, ?_⟩
  · rw [ExtVector.deref, Nat.zero_div, Cached.access,
      Cached.accessDM_hit (Frontend.server _) true (c := c) rfl, refAt, Nat.zero_div]
    rfl
  · refine ⟨fun _ => p, stored_new nn p _, fun k => ?_, fun k hk => ?_, fun k hk => ?_,
      fun i hi => ?_, fun k hk hd => ?_⟩
    · rw [hidx k]
      exact Nat.succ_pos _
    · dsimp only
      rw [hidx k]
      by_contra hne
      rw [hother k (Ne.symm hne)] at hk
      cases hk
    · dsimp only at hk ⊢
      rw [hidx k] at hk ⊢
      rw [← hk, hslot, update_self]
    · dsimp only at hi ⊢
      rw [hidx] at hi
      rw [update_of_ne (Ne.symm hi)]
    · dsimp only at hk hd
      rw [hidx k] at hk
      rw [← hk, hslot] at hd
      cases hd
  · unfold HeldAt Held
    rw [Nat.zero_div, hslot]
    exact ⟨rfl, rfl⟩

/-- Every pair that `BitonicSort` compares on `n` elements is in one page, or in pages of two
slots. -/
def NoConflict (cacheSize itemPerPage n : Nat) : Prop :=
  ∀ c ∈ Algorithm.bitonicNet true 0 n, Apart cacheSize itemPerPage c.fst c.snd

theorem Elements.bitonicSort (h : Elements n c e) {xs : List α} (hx : Lists e xs)
    (hn : xs.length = n) (hno : NoConflict cacheSize itemPerPage n) (rightFirst : Bool)
    (cmp : α → α → Bool) : ∃ c' e', bitonicSort rightFirst cmp n c = some c' ∧
      Elements n c' e' ∧ Lists e' (Algorithm.bitonicSortList cmp xs) := by
  let R (o : Option (Vec cacheSize itemPerPage α)) (ys : List α) : Prop :=
    ∃ c' e', o = some c' ∧ Elements n c' e' ∧ Lists e' ys ∧ ys.length = n
  have hrun : R (ExtVector.bitonicSort rightFirst cmp n c) (Algorithm.bitonicSortList cmp xs) := by
    unfold ExtVector.bitonicSort Algorithm.bitonicSortList
    rw [Algorithm.bitonicSort_eq_run, Algorithm.bitonicSort_eq_run, hn]
    apply run_rel _ (⟨c, e, rfl, h, hx, hn⟩ : R (some c) xs)
    rintro ⟨dire, l, r⟩ hc o ys ⟨c', e', rfl, hc', hy, hlen⟩
    obtain ⟨-, hlr, hr, -⟩ := Algorithm.mem_bitonicNet hc
    dsimp only at hlr hr ⊢
    obtain ⟨c₂, h2, he₂⟩ := hc'.condSwap rightFirst cmp dire (show l < n by omega)
      (show r < n by omega) (hno _ hc)
    exact ⟨c₂, _, h2, he₂, hy.condSwap _ (by omega) (by omega), by simpa [listExch] using hlen⟩
  obtain ⟨c', e', h1, h2, h3, -⟩ := hrun
  exact ⟨c', e', h1, h2, h3⟩

/-- **Sorting through the cache equals sorting in plain memory** when no compared pair lies in two
pages of one slot. -/
theorem writeSortRead_eq [Inhabited α] (nn : Nounce) (p : Page itemPerPage α) (rightFirst : Bool)
    (cmp : α → α → Bool) (xs : List α) (hno : NoConflict cacheSize itemPerPage xs.length) :
    writeSortRead cacheSize itemPerPage nn p rightFirst cmp xs =
      some (Algorithm.bitonicSortList cmp xs) := by
  cases xs with
  | nil =>
    simp [writeSortRead, write, ExtVector.bitonicSort, Algorithm.bitonicSort, read,
      Algorithm.bitonicSortList]
  | cons x xs =>
    obtain ⟨c₁, e₁, h1, he₁, hh₁⟩ := deref_new cacheSize nn p (x :: xs).length
    obtain ⟨c₂, e₂, h2, he₂, hlow, hlist⟩ := (he₁.assign hh₁ x).write
      (show 1 + xs.length ≤ (x :: xs).length by rw [List.length_cons]; omega)
    have hx : Lists e₂ (x :: xs) := fun i hi => by
      cases i with
      | zero => rw [hlow 0 (by omega), update_self]; rfl
      | succ i => simpa [Nat.add_comm 1 i] using hlist i (by simpa using hi)
    obtain ⟨c₃, e₃, h3, he₃, hx₃⟩ := he₂.bitonicSort hx rfl hno rightFirst cmp
    obtain ⟨c₄, h4⟩ := he₃.read (show 0 + (x :: xs).length ≤ (x :: xs).length by omega)
    have hlen := (Algorithm.bitonicSortList_perm cmp (x :: xs)).length_eq
    have hys : (List.range (x :: xs).length).map (fun i => e₃ (0 + i)) =
        Algorithm.bitonicSortList cmp (x :: xs) := by
      apply List.ext_getElem
      · simp [hlen]
      · intro i h5 h6
        simp only [List.getElem_map, List.getElem_range, Nat.zero_add]
        exact hx₃ i h6
    have hw : write 0 (x :: xs) (ExtVector.new (dmCacheSize cacheSize) nn itemPerPage
        (x :: xs).length p) = some c₂ := by
      rw [write, h1]
      exact h2
    rw [writeSortRead, hw]
    simp only [Option.bind_eq_bind, Option.bind_some, h3, h4, hys, Option.pure_def]

/-- Pages of two elements behind three slots. -/
theorem writeSortRead_eq_two_per_page :
    writeSortRead 3 2 ⟨0, 0⟩ (fun _ => 0) true (fun a b => decide (a < b)) [5, 3, 9, 1, 7] =
      some [1, 3, 5, 7, 9] := by
  rw [writeSortRead_eq ⟨0, 0⟩ (fun _ => 0) true (fun a b => decide (a < b)) [5, 3, 9, 1, 7]
    (by unfold NoConflict Apart; decide +kernel)]
  decide +kernel

/-- Pages of one element behind a cache of size 1: the two references of every compare-and-swap are
references to one slot, and nothing is ever exchanged. -/
theorem writeSortRead_one_slot :
    writeSortRead 1 1 ⟨0, 0⟩ (fun _ => 0) false (fun a b => decide (a < b)) [2, 1] ≠
        some (Algorithm.bitonicSortList (fun a b => decide (a < b)) [2, 1]) ∧
      writeSortRead 1 1 ⟨0, 0⟩ (fun _ => 0) true (fun a b => decide (a < b)) [2, 1] ≠
        some (Algorithm.bitonicSortList (fun a b => decide (a < b)) [2, 1]) := by
  decide +kernel

end EM.ExtVector
