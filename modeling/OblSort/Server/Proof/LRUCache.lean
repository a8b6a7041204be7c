import OblSort.Server.LRUCache
import Mathlib.Data.Fintype.Defs

/-!
# The LRU cache with a TLB against the uncached store

`Good n c m`: the cache `c` over a page store presents the pages `m`, its map, its list and its TLB
fit together. An access keeps it and exposes `m i` (`Good.step`), if it does not free a node that a
valid entry of the TLB still points to. The only entry that may point to the page at the end of the
list is the one that is replaced in the same access (`Safe`): hits in the TLB do not move a page to
the front of the list, so a page that is in constant use can be at its end.
-/

namespace CACHE

open Function

variable {T : Type}

/-! ## Counters -/

/-- The valid entries have different counters, all of them below `g`. -/
structure Counters (tlb : List TLBEntry) (g : Nat) : Prop where
  lt : ∀ e ∈ tlb, e.counter < g
  distinct : tlb.Pairwise fun e e' => e.counter = e'.counter → e.counter = 0

namespace Counters

variable {tlb : List TLBEntry} {g : Nat}

theorem perm {tlb' : List TLBEntry} (h : Counters tlb g) (hp : List.Perm tlb' tlb) :
    Counters tlb' g where
  lt e he := h.lt e (hp.mem_iff.1 he)
  distinct := (hp.pairwise_iff fun hee' h => h ▸ hee' h.symm).2 h.distinct

/-- Two entries with the same counter are at the same place, if they are valid. -/
theorem eq_of_counter_eq (h : Counters tlb g) {k k' : Nat} {e e' : TLBEntry} (hk : tlb[k]? = some e)
    (hk' : tlb[k']? = some e') (heq : e.counter = e'.counter) (hne : e.counter ≠ 0) : k = k' := by
  have hpos := List.pairwise_iff_getElem.1 h.distinct
  obtain ⟨hkl, rfl⟩ := List.getElem?_eq_some_iff.1 hk
  obtain ⟨hkl', rfl⟩ := List.getElem?_eq_some_iff.1 hk'
  obtain hlt | rfl | hlt := Nat.lt_trichotomy k k'
  · exact absurd (hpos k k' hkl hkl' hlt heq) hne
  · rfl
  · exact absurd (heq.trans (hpos k' k hkl' hkl hlt heq.symm)) hne

/-- The entry that is used now gets the counter `g`, which no other has. -/
theorem set (h : Counters tlb g) (k : Nat) {e : TLBEntry} (he : e.counter = g) :
    Counters (tlb.set k e) (g + 1) where
  lt e' he' := by
    obtain he' | rfl := List.mem_or_eq_of_mem_set he'
    · exact Nat.lt_succ_of_lt (h.lt e' he')
    · omega
  distinct := by
    rw [List.pairwise_iff_getElem]
    intro i j hi hj hij heq
    rw [List.length_set] at hi hj
    have hold := List.pairwise_iff_getElem.1 h.distinct i j hi hj hij
    have hilt := h.lt _ (List.getElem_mem hi)
    have hjlt := h.lt _ (List.getElem_mem hj)
    simp only [List.getElem_set] at heq ⊢
    split_ifs at heq ⊢ <;> omega

theorem replicate (n : Nat) : Counters (List.replicate n ⟨0, 0, none⟩) 1 where
  lt e he := by simp [List.eq_of_mem_replicate he]
  distinct := List.pairwise_replicate.2 (.inr fun _ => rfl)

end Counters

/-! ## The smallest counter -/

/-- The loop of `UpdateTLB` over the entries from position `k` on. -/
theorem Cache.minLoop_spec (tlb : List TLBEntry) (k : Nat) (min : Nat × Nat) :
    let r := (tlb.zipIdx k).foldl minStep min
    r.1 ≤ min.1 ∧ (∀ e ∈ tlb, r.1 ≤ e.counter) ∧
      (r = min ∨ ∃ j e, r.2 = k + j ∧ tlb[j]? = some e ∧ e.counter = r.1) := by
  induction tlb generalizing k min with
  | nil => exact ⟨Nat.le_refl _, fun e he => absurd he List.not_mem_nil, .inl rfl⟩
  | cons e tlb ih =>
    dsimp only
    rw [List.zipIdx_cons, List.foldl_cons]
    obtain ⟨h1, h2, h3⟩ := ih (k + 1) (minStep min (e, k))
    generalize (tlb.zipIdx (k + 1)).foldl minStep (minStep min (e, k)) = r at h1 h2 h3
    by_cases hlt : e.counter < min.1
    · have hmin : minStep min (e, k) = (e.counter, k) := if_pos hlt
      rw [hmin] at h1 h3
      refine ⟨by omega, fun e' he' => ?_, .inr ?_⟩
      · obtain rfl | he' := List.mem_cons.1 he'
        · exact h1
        · exact h2 e' he'
      · obtain rfl | ⟨j, e', hj, he', hc⟩ := h3
        · exact ⟨0, e, rfl, rfl, rfl⟩
        · exact ⟨j + 1, e', by omega, he', hc⟩
    · have hmin : minStep min (e, k) = min := if_neg hlt
      rw [hmin] at h1 h3
      refine ⟨h1, fun e' he' => ?_, ?_⟩
      · obtain rfl | he' := List.mem_cons.1 he'
        · omega
        · exact h2 e' he'
      · refine h3.imp_right ?_
        rintro ⟨j, e', hj, he', hc⟩
        exact ⟨j + 1, e', by omega, he', hc⟩

/-- `UpdateTLB` finds an entry with the smallest counter. -/
theorem Cache.minPos_spec {tlb : List TLBEntry} (hne : tlb ≠ [])
    (hlt : ∀ e ∈ tlb, e.counter < 2 ^ 64 - 1) :
    ∃ e, tlb[minPos tlb]? = some e ∧ ∀ e' ∈ tlb, e.counter ≤ e'.counter := by
  obtain ⟨-, hmin, hfound⟩ := minLoop_spec tlb 0 (2 ^ 64 - 1, 0)
  obtain h | ⟨j, e, hj, he, hc⟩ := hfound
  · obtain ⟨e, he⟩ := List.exists_mem_of_ne_nil tlb hne
    have hle := hmin e he
    have hsmall := hlt e he
    rw [h] at hle
    omega
  · rw [Nat.zero_add] at hj
    exact ⟨e, by rw [minPos, hj, he], fun e' he' => by rw [hc]; exact hmin e' he'⟩

/-! ## The map and the list -/

/-- The map, the list and the server fit together and present the pages `m`. -/
structure Fits (n : Nat) (c : Cache T) (server m : Nat → T) : Prop where
  node : ∀ i p, c.data i = some p → ∃ e, c.nodes p = some e
  inj : ∀ i j p, c.data i = some p → c.data j = some p → i = j
  below : ∀ p e, c.nodes p = some e → p < c.next
  nodup : c.LRU.Nodup
  mem_iff : ∀ i, i ∈ c.LRU ↔ c.data i ≠ none
  size_eq : c.size = c.LRU.length
  size_le : c.size ≤ n
  hit : ∀ i p e, c.data i = some p → c.nodes p = some e →
    e.val = m i ∧ (e.dirty = false → server i = m i)
  miss : ∀ i, c.data i = none → server i = m i

namespace Fits

variable {n : Nat} {c : Cache T} {server m : Nat → T}

/-- The TLB and its counter do not matter. -/
theorem withTLB (h : Fits n c server m) (tlb : List TLBEntry) (g : Nat) :
    Fits n { c with TLB := tlb, globalCounter := g } server m :=
  ⟨h.node, h.inj, h.below, h.nodup, h.mem_iff, h.size_eq, h.size_le, h.hit, h.miss⟩

/-- A node is overwritten with the content of its page. -/
theorem setNode (h : Fits n c server m) {i p : Nat} (hp : c.data i = some p) {e : MapEntry T}
    {v : T}
    (hv : e.val = v) (hd : e.dirty = false → server i = v) :
    Fits n { c with nodes := update c.nodes p (some e) } server (update m i v) where
  node j q hq := by
    dsimp only
    by_cases hqp : q = p
    · exact ⟨e, by rw [hqp, update_self]⟩
    · rw [update_of_ne hqp]
      exact h.node j q hq
  inj := h.inj
  below q e' hq := by
    dsimp only at hq
    by_cases hqp : q = p
    · obtain ⟨e₀, he₀⟩ := h.node i p hp
      exact hqp ▸ h.below p e₀ he₀
    · rw [update_of_ne hqp] at hq
      exact h.below q e' hq
  nodup := h.nodup
  mem_iff := h.mem_iff
  size_eq := h.size_eq
  size_le := h.size_le
  hit j q e' hj hq := by
    dsimp only at hq
    by_cases hji : j = i
    · subst hji
      obtain rfl : p = q := by rw [hp] at hj; simpa using hj
      rw [update_self] at hq ⊢
      obtain rfl : e = e' := by simpa using hq
      exact ⟨hv, hd⟩
    · have hqp : q ≠ p := fun hqp => hji (h.inj j i p (hqp ▸ hj) hp)
      rw [update_of_ne hqp] at hq
      rw [update_of_ne hji]
      exact h.hit j q e' hj hq
  miss j hj := by
    have hji : j ≠ i := fun hji => by rw [hji, hp] at hj; cases hj
    rw [update_of_ne hji]
    exact h.miss j hj

/-- An access marks the node of the page. -/
theorem touch (h : Fits n c server m) {i p : Nat} (hp : c.data i = some p) (dirty : Bool) :
    ∃ e, e.val = m i ∧ (dirty = true → e.dirty = true) ∧
      c.touch p dirty true = some { c with nodes := update c.nodes p (some e) } ∧
      Fits n { c with nodes := update c.nodes p (some e) } server m := by
  obtain ⟨e, he⟩ := h.node i p hp
  obtain ⟨hval, hclean⟩ := h.hit i p e hp he
  have hset := h.setNode (e := { e with dirty := (e.dirty || dirty) && true }) hp hval fun hd => by
    simp only [Bool.and_true, Bool.or_eq_false_iff] at hd
    exact hclean hd.1
  rw [update_eq_self] at hset
  refine ⟨{ e with dirty := (e.dirty || dirty) && true }, hval, fun hd => by simp [hd], ?_, hset⟩
  rw [Cache.touch, he]
  rfl

/-- The page moves to the front of the list. -/
theorem toFront (h : Fits n c server m) {i p : Nat} (hp : c.data i = some p) :
    Fits n { c with LRU := i :: c.LRU.erase i } server m where
  node := h.node
  inj := h.inj
  below := h.below
  nodup := by
    rw [List.nodup_cons]
    exact ⟨fun hi => (h.nodup.mem_erase_iff.1 hi).1 rfl, h.nodup.erase i⟩
  mem_iff j := by
    dsimp only
    by_cases hji : j = i
    · simp [hji, hp]
    · rw [List.mem_cons, h.nodup.mem_erase_iff, ← h.mem_iff j]
      simp [hji]
  size_eq := by
    have hi : i ∈ c.LRU := (h.mem_iff i).2 (by simp [hp])
    have hpos := List.length_pos_of_mem hi
    dsimp only
    rw [List.length_cons, List.length_erase_of_mem hi, h.size_eq]
    omega
  size_le := h.size_le
  hit := h.hit
  miss := h.miss

/-- A page is read and inserted. -/
theorem insert (h : Fits n c server m) {i : Nat} (hi : c.data i = none) (hroom : c.size < n) :
    Fits n (c.insert i (server i)) server m where
  node j p hj := by
    dsimp only [Cache.insert] at hj ⊢
    by_cases hji : j = i
    · subst hji
      obtain rfl : c.next = p := by simpa using hj
      exact ⟨_, update_self ..⟩
    · rw [update_of_ne hji] at hj
      obtain ⟨e, he⟩ := h.node j p hj
      exact ⟨e, by rw [update_of_ne (Nat.ne_of_lt (h.below p e he)), he]⟩
  inj j k p hj hk := by
    have hnew : ∀ k, c.data k ≠ some c.next := fun k hk => by
      obtain ⟨e, he⟩ := h.node k _ hk
      exact Nat.lt_irrefl _ (h.below _ e he)
    dsimp only [Cache.insert] at hj hk
    by_cases hji : j = i <;> by_cases hki : k = i
    · rw [hji, hki]
    · rw [hji, update_self] at hj
      rw [update_of_ne hki, ← hj] at hk
      exact absurd hk (hnew k)
    · rw [hki, update_self] at hk
      rw [update_of_ne hji, ← hk] at hj
      exact absurd hj (hnew j)
    · rw [update_of_ne hji] at hj
      rw [update_of_ne hki] at hk
      exact h.inj j k p hj hk
  below p e hp := by
    dsimp only [Cache.insert] at hp ⊢
    by_cases hpn : p = c.next
    · omega
    · rw [update_of_ne hpn] at hp
      exact Nat.lt_succ_of_lt (h.below p e hp)
  nodup := List.nodup_cons.2 ⟨fun hmem => (h.mem_iff i).1 hmem hi, h.nodup⟩
  mem_iff j := by
    dsimp only [Cache.insert]
    by_cases hji : j = i
    · simp [hji]
    · rw [List.mem_cons, update_of_ne hji, ← h.mem_iff j]
      simp [hji]
  size_eq := by
    dsimp only [Cache.insert]
    rw [h.size_eq, List.length_cons]
  size_le := hroom
  hit j p e hj hp := by
    dsimp only [Cache.insert] at hj hp
    by_cases hji : j = i
    · subst hji
      obtain rfl : c.next = p := by simpa using hj
      obtain rfl : ⟨server j, false⟩ = e := by simpa using hp
      exact ⟨h.miss j hi, fun _ => h.miss j hi⟩
    · rw [update_of_ne hji] at hj
      obtain ⟨e', he'⟩ := h.node j p hj
      rw [update_of_ne (Nat.ne_of_lt (h.below p e' he'))] at hp
      exact h.hit j p e hj hp
  miss j hj := by
    dsimp only [Cache.insert] at hj
    by_cases hji : j = i
    · simp [hji] at hj
    · rw [update_of_ne hji] at hj
      exact h.miss j hj

/-- The page at the end of the list is removed, once it is written back. -/
theorem evictLRU (h : Fits n c server m) {j q : Nat} {front : List Nat} {e : MapEntry T}
    (hfront : c.LRU = front ++ [j]) (hq : c.data j = some q) (he : c.nodes q = some e) :
    Fits n (c.evictLRU j) (if e.dirty then update server j e.val else server) m := by
  obtain ⟨hval, hclean⟩ := h.hit j q e hq he
  have hnd : front.Nodup ∧ j ∉ front := by
    have hall := h.nodup
    rw [hfront, List.nodup_append] at hall
    exact ⟨hall.1, fun hmem => hall.2.2 j hmem j (by simp) rfl⟩
  have hserver : ∀ k, k ≠ j → (if e.dirty then update server j e.val else server) k = server k :=
    fun k hk => by split <;> simp [hk]
  have hnode : ∀ k p, k ≠ j → c.data k = some p → p ≠ q := fun k p hk hp hpq =>
    hk (h.inj k j q (hpq ▸ hp) hq)
  have hevict : c.evictLRU j = { c with
      size := c.size - 1, LRU := front, data := update c.data j none,
      nodes := update c.nodes q none } := by
    rw [Cache.evictLRU, hq, hfront, List.dropLast_concat]
  rw [hevict]
  constructor <;> dsimp only
  case node =>
    intro k p hp
    by_cases hkj : k = j
    · simp [hkj] at hp
    · rw [update_of_ne hkj] at hp
      rw [update_of_ne (hnode k p hkj hp)]
      exact h.node k p hp
  case inj =>
    intro k l p hk hl
    by_cases hkj : k = j
    · simp [hkj] at hk
    · by_cases hlj : l = j
      · simp [hlj] at hl
      · rw [update_of_ne hkj] at hk
        rw [update_of_ne hlj] at hl
        exact h.inj k l p hk hl
  case below =>
    intro p e' hp
    by_cases hpq : p = q
    · simp [hpq] at hp
    · rw [update_of_ne hpq] at hp
      exact h.below p e' hp
  case nodup => exact hnd.1
  case mem_iff =>
    intro k
    by_cases hkj : k = j
    · simp [hkj, hnd.2]
    · rw [update_of_ne hkj, ← h.mem_iff k, hfront]
      simp [hkj]
  case size_eq =>
    rw [h.size_eq, hfront, List.length_append]
    rfl
  case size_le => exact Nat.le_trans (Nat.sub_le _ _) h.size_le
  case hit =>
    intro k p e' hk hp
    by_cases hkj : k = j
    · simp [hkj] at hk
    · rw [update_of_ne hkj] at hk
      rw [update_of_ne (hnode k p hkj hk)] at hp
      rw [hserver k hkj]
      exact h.hit k p e' hk hp
  case miss =>
    intro k hk
    by_cases hkj : k = j
    · subst hkj
      cases hd : e.dirty with
      | true => simp [hval]
      | false => simpa using hclean hd
    · rw [update_of_ne hkj] at hk
      rw [hserver k hkj]
      exact h.miss k hk

/-- The page at the end of a full list is written back and evicted. -/
theorem evict (h : Fits n c server m) (hn : 0 < n) (hfull : c.size = n) :
    ∃ j server', c.LRU.getLast? = some j ∧
      CachedLRU.evict (pageStore T) ⟨c, server⟩ = some ⟨c.evictLRU j, server'⟩ ∧
      (c.evictLRU j).size < n ∧ Fits n (c.evictLRU j) server' m := by
  have hne : c.LRU ≠ [] := fun hnil => by
    have := h.size_eq
    rw [hnil, List.length_nil] at this
    omega
  obtain ⟨j, hj⟩ : ∃ j, c.LRU.getLast? = some j := ⟨_, List.getLast?_eq_some_getLast hne⟩
  obtain ⟨front, hfront⟩ := List.getLast?_eq_some_iff.1 hj
  obtain ⟨q, hq⟩ := Option.ne_none_iff_exists'.1 ((h.mem_iff j).1 (by rw [hfront]; simp))
  obtain ⟨e, he⟩ := h.node j q hq
  refine ⟨j, _, hj, ?_, ?_, h.evictLRU hfront hq he⟩
  · rw [CachedLRU.evict, Cache.getNextToEvict, hj, Option.bind_some, hq, Option.bind_some, he]
    rfl
  · dsimp only [Cache.evictLRU]
    omega

end Fits

/-! ## The TLB -/

/-- The valid entries point to the entries of their pages in the map. -/
def Points (data : Nat → Option Nat) (tlb : List TLBEntry) : Prop :=
  ∀ e ∈ tlb, e.counter ≠ 0 → ∃ p, e.pentry = some p ∧ data e.idx = some p

/-- Between two accesses. -/
structure Good (n : Nat) (c : CachedLRU T (Nat → T)) (m : Nat → T) : Prop where
  fits : Fits n c.cache c.server m
  counters : Counters c.cache.TLB (c.cache.globalCounter + 1)
  counter_lt : c.cache.globalCounter < 2 ^ 64 - 1
  tlb_ne : c.cache.TLB ≠ []
  points : Points c.cache.data c.cache.TLB

/-- The counters are not reset while an entry is invalid. -/
abbrev ResetSafe (c : Cache T) : Prop :=
  c.globalCounter + 1 = 2 ^ 64 - 1 → (∀ e ∈ c.TLB, e.counter ≠ 0) ∧ c.TLB.length + 1 < 2 ^ 64 - 1

/-- The TLB once an access has been counted. -/
structure Counted (c : Cache T) : Prop where
  counters : Counters c.TLB c.globalCounter
  pos : 0 < c.globalCounter
  lt : c.globalCounter < 2 ^ 64 - 1
  ne : c.TLB ≠ []
  points : Points c.data c.TLB

/-- A reset numbers valid entries anew, in the order of their counters. -/
theorem Cache.resetTLBCounters_counted {c : Cache T} (hpoints : Points c.data c.TLB)
    (hne : c.TLB ≠ [])
    (hvalid : ∀ e ∈ c.TLB, e.counter ≠ 0) (hlen : c.TLB.length + 1 < 2 ^ 64 - 1) :
    Counted c.resetTLBCounters := by
  have hperm : List.Perm (sortTLBByCounter c.TLB) c.TLB := List.perm_insertionSort ..
  have hg : c.resetTLBCounters.globalCounter = c.TLB.length + 1 := Nat.mod_eq_of_lt (by omega)
  constructor
  case counters =>
    rw [hg]
    constructor
    · intro e he
      obtain ⟨⟨entry, k⟩, -, rfl⟩ := List.mem_map.1 he
      dsimp only
      omega
    · rw [List.pairwise_iff_getElem]
      intro i j hi hj hij heq
      simp only [resetTLBCounters, List.length_map, List.length_zipIdx, hperm.length_eq] at hi hj
      simp only [resetTLBCounters, List.getElem_map, List.getElem_zipIdx] at heq ⊢
      omega
  case pos => omega
  case lt => omega
  case ne =>
    intro hnil
    apply hne
    have hlen' := congrArg List.length hnil
    simp only [resetTLBCounters, List.length_map, List.length_zipIdx, hperm.length_eq,
      List.length_nil] at hlen'
    exact List.length_eq_zero_iff.1 hlen'
  case points =>
    intro e he _
    obtain ⟨⟨entry, k⟩, hmem, rfl⟩ := List.mem_map.1 he
    have hold : entry ∈ c.TLB := hperm.mem_iff.1 (List.fst_mem_of_mem_zipIdx hmem)
    exact hpoints entry hold (hvalid entry hold)

variable {n : Nat} {m : Nat → T}

theorem Good.countAccess {c : CachedLRU T (Nat → T)} (h : Good n c m) (hreset : ResetSafe c.cache) :
    Counted c.cache.countAccess ∧ Fits n c.cache.countAccess c.server m ∧
      c.cache.countAccess.data = c.cache.data ∧ c.cache.countAccess.LRU = c.cache.LRU ∧
      c.cache.countAccess.size = c.cache.size := by
  have hlt := h.counter_lt
  have hmod : (c.cache.globalCounter + 1) % 2 ^ 64 = c.cache.globalCounter + 1 :=
    Nat.mod_eq_of_lt (by omega)
  unfold Cache.countAccess
  dsimp only
  rw [hmod]
  by_cases hend : c.cache.globalCounter + 1 = 2 ^ 64 - 1
  · rw [if_pos hend]
    obtain ⟨hvalid, hlen⟩ := hreset hend
    exact ⟨Cache.resetTLBCounters_counted h.points h.tlb_ne hvalid hlen, h.fits.withTLB _ _, rfl,
      rfl, rfl⟩
  · rw [if_neg hend]
    exact ⟨⟨h.counters, Nat.succ_pos _, by dsimp only; omega, h.tlb_ne, h.points⟩,
      h.fits.withTLB _ _, rfl, rfl, rfl⟩

/-- What an access leaves: the address of the entry of page `i` in a cache that is good again. -/
def Accessed (n i : Nat) (dirty : Bool) (m : Nat → T) (r : Nat × CachedLRU T (Nat → T)) : Prop :=
  Good n r.2 m ∧ r.2.cache.data i = some r.1 ∧
    ∃ e, r.2.cache.nodes r.1 = some e ∧ e.val = m i ∧ (dirty = true → e.dirty = true)

theorem mem_set_cases {tlb : List TLBEntry} {k : Nat} {e x : TLBEntry} (h : e ∈ tlb.set k x) :
    e = x ∨ ∃ j, j ≠ k ∧ tlb[j]? = some e := by
  obtain ⟨j, hj⟩ := List.mem_iff_getElem?.1 h
  rw [List.getElem?_set] at hj
  split at hj
  · split at hj
    · exact .inl (by simpa using hj.symm)
    · cases hj
  · rename_i hkj
    exact .inr ⟨j, fun hjk => hkj hjk.symm, hj⟩

/-- A hit in the TLB. -/
theorem accessTLB_hit {c : Cache T} {server : Nat → T} (h : Counted c) (hfits : Fits n c server m)
    {i k : Nat} {entry : TLBEntry} (hk : c.TLB[k]? = some entry) (hidx : entry.idx = i)
    (hvalid : entry.counter ≠ 0) (dirty : Bool) :
    ∃ p c',
      ({ c with TLB := c.TLB.set k { entry with counter := c.globalCounter } } : Cache T).touch p
        dirty true = some c' ∧ entry.pentry = some p ∧ Accessed n i dirty m (p, ⟨c', server⟩) := by
  obtain ⟨p, hp, hdata⟩ := h.points entry (List.mem_of_getElem? hk) hvalid
  rw [hidx] at hdata
  obtain ⟨e, hval, hdirty, htouch, hfits'⟩ := (hfits.withTLB (c.TLB.set k { entry with
    counter := c.globalCounter }) c.globalCounter).touch hdata dirty
  refine ⟨p, _, htouch, hp, ⟨hfits', h.counters.set k rfl, h.lt, ?_, ?_⟩, hdata, e, ?_, hval,
    hdirty⟩
  · intro hnil
    exact h.ne (List.length_eq_zero_iff.1 (by simpa using congrArg List.length hnil))
  · intro e' he' hvalid'
    obtain he' | rfl := List.mem_or_eq_of_mem_set he'
    · exact h.points e' he' hvalid'
    · exact ⟨p, hp, by rw [hidx]; exact hdata⟩
  · exact update_self ..

/-- The end of an access that has missed the TLB: every valid entry points to its page, but for the
one that is replaced. -/
theorem access_miss {c : Cache T} {server : Nat → T} (hcounters : Counters c.TLB c.globalCounter)
    (hlt : c.globalCounter < 2 ^ 64 - 1) (hne : c.TLB ≠ [])
    (hfits : Fits n c server m) {i : Nat} (hi : c.data i ≠ none)
    (hpoints : ∀ e ∈ c.TLB, e.counter ≠ 0 → (∃ p, e.pentry = some p ∧ c.data e.idx = some p) ∨
      ∀ e' ∈ c.TLB, e.counter ≤ e'.counter) (dirty : Bool) :
    ∃ p c', c.access i dirty true = some (p, c') ∧ Accessed n i dirty m (p, ⟨c', server⟩) := by
  obtain ⟨p, hp⟩ := Option.ne_none_iff_exists'.1 hi
  obtain ⟨e, hval, hdirty, htouch, hfits'⟩ := (hfits.toFront hp).touch hp dirty
  obtain ⟨old, hold, hmin⟩ := Cache.minPos_spec hne fun e he => Nat.lt_trans (hcounters.lt e he) hlt
  have hperm : ∀ tlb, List.Perm (Cache.sortTLBByCounter tlb) tlb := fun tlb =>
    List.perm_insertionSort ..
  let tlb := Cache.sortTLBByCounter (c.TLB.set (Cache.minPos c.TLB) ⟨i, c.globalCounter, some p⟩)
  refine ⟨p, _, ?_, ⟨hfits'.withTLB tlb c.globalCounter, ?_, hlt, ?_, ?_⟩, hp, e, ?_, hval, hdirty⟩
  · rw [Cache.access, hp, Option.bind_some, htouch]
    rfl
  · exact (hcounters.set (Cache.minPos c.TLB) (e := ⟨i, c.globalCounter, some p⟩) rfl).perm
      (hperm _)
  · intro hnil
    have hlen := congrArg List.length hnil
    rw [(hperm _).length_eq, List.length_set] at hlen
    exact hne (List.length_eq_zero_iff.1 hlen)
  · intro e' he' hvalid
    obtain rfl | ⟨j, hj, hej⟩ := mem_set_cases ((hperm _).mem_iff.1 he')
    · exact ⟨p, rfl, hp⟩
    · have hmem := List.mem_of_getElem? hej
      obtain h | h := hpoints e' hmem hvalid
      · exact h
      · -- it has the smallest counter, so it is the one that has been replaced
        have heq : e'.counter = old.counter :=
          Nat.le_antisymm (h old (List.mem_of_getElem? hold)) (hmin e' hmem)
        exact absurd (hcounters.eq_of_counter_eq hej hold heq hvalid) hj
  · exact update_self ..

/-! ## One access -/

/-- In an access to page `i`, if it misses the TLB and the cache and the cache is full, only the
entry of the TLB with the smallest counter may be that of the page at the end of the list. -/
abbrev EvictSafe (n i : Nat) (c : Cache T) : Prop :=
  (∀ e ∈ c.TLB, e.counter ≠ 0 → e.idx ≠ i) → c.data i = none → c.size = n →
    ∀ j ∈ c.LRU.getLast?, ∀ e ∈ c.TLB, e.counter ≠ 0 → e.idx = j →
      ∀ e' ∈ c.TLB, e.counter ≤ e'.counter

/-- What an access to page `i` must meet. -/
structure Safe (n i : Nat) (c : Cache T) : Prop where
  reset : ResetSafe c
  evict : EvictSafe n i c.countAccess

instance (n i : Nat) (c : Cache T) : Decidable (Safe n i c) :=
  decidable_of_iff (ResetSafe c ∧ EvictSafe n i c.countAccess)
    ⟨fun h => ⟨h.1, h.2⟩, fun h => ⟨h.reset, h.evict⟩⟩

theorem modify_eq_set {tlb : List TLBEntry} {k : Nat} {e : TLBEntry} (h : tlb[k]? = some e)
    (f : TLBEntry → TLBEntry) : tlb.modify k f = tlb.set k (f e) := by
  apply List.ext_getElem?
  intro j
  rw [List.getElem?_modify, List.getElem?_set]
  by_cases hkj : k = j
  · subst hkj
    have hlt := (List.getElem?_eq_some_iff.1 h).1
    rw [if_pos rfl, if_pos hlt, h]
    simp
  · simp [hkj]

/-- Fetching page `i` after a miss. -/
theorem fetch_spec {c : Cache T} {server : Nat → T} (hcounted : Counted c)
    (hfits : Fits n c server m)
    (hn : 0 < n) {i : Nat} (hmiss : ∀ e ∈ c.TLB, e.counter ≠ 0 → e.idx ≠ i) (hi : c.data i = none)
    (hevict : EvictSafe n i c) :
    ∃ c' server', CachedLRU.fetch (pageStore T) n i ⟨c, server⟩ = some ⟨c', server'⟩ ∧
      Fits n c' server' m ∧ c'.TLB = c.TLB ∧ c'.globalCounter = c.globalCounter ∧ c'.data i ≠ none ∧
      ∀ e ∈ c.TLB, e.counter ≠ 0 → (∃ p, e.pentry = some p ∧ c'.data e.idx = some p) ∨
        ∀ e' ∈ c.TLB, e.counter ≤ e'.counter := by
  by_cases hfull : c.size = n
  · obtain ⟨j, server', hj, hrun, hroom, hfits'⟩ := hfits.evict hn hfull
    have hi' : (c.evictLRU j).data i = none := by
      dsimp only [Cache.evictLRU]
      by_cases hij : i = j
      · rw [hij, update_self]
      · rw [update_of_ne hij, hi]
    refine ⟨_, _, ?_, hfits'.insert hi' hroom, rfl, rfl, ?_, fun e he hvalid => ?_⟩
    · rw [CachedLRU.fetch, if_pos hfull, hrun]
      rfl
    · simp [Cache.insert]
    · by_cases hej : e.idx = j
      · exact .inr (hevict hmiss hi hfull j hj e he hvalid hej)
      · obtain ⟨p, hp, hdata⟩ := hcounted.points e he hvalid
        refine .inl ⟨p, hp, ?_⟩
        dsimp only [Cache.insert, Cache.evictLRU]
        rw [update_of_ne (hmiss e he hvalid), update_of_ne hej, hdata]
  · have hroom : c.size < n := Nat.lt_of_le_of_ne hfits.size_le hfull
    refine ⟨_, _, ?_, hfits.insert hi hroom, rfl, rfl, ?_, fun e he hvalid => ?_⟩
    · rw [CachedLRU.fetch, if_neg hfull]
      rfl
    · simp [Cache.insert]
    · obtain ⟨p, hp, hdata⟩ := hcounted.points e he hvalid
      refine .inl ⟨p, hp, ?_⟩
      dsimp only [Cache.insert]
      rw [update_of_ne (hmiss e he hvalid), hdata]

theorem Good.access {c : CachedLRU T (Nat → T)} (h : Good n c m) (hn : 0 < n) {i : Nat}
    (hsafe : Safe n i c.cache) (dirty : Bool) :
    ∃ r, c.accessLRU (pageStore T) n dirty i = some r ∧ Accessed n i dirty m r := by
  obtain ⟨hcounted, hfits, -⟩ := h.countAccess hsafe.reset
  have hevict := hsafe.evict
  rw [CachedLRU.accessLRU, Cache.accessTLB]
  dsimp only
  generalize c.cache.countAccess = c₁ at *
  cases hfind : c₁.TLB.findIdx? fun entry => entry.idx == i && entry.counter != 0 with
  | some k =>
    obtain ⟨hk, hentry, -⟩ := List.findIdx?_eq_some_iff_getElem.1 hfind
    rw [Bool.and_eq_true, beq_iff_eq, bne_iff_ne] at hentry
    have hget : c₁.TLB[k]? = some c₁.TLB[k] := List.getElem?_eq_getElem hk
    obtain ⟨p, c', htouch, hp, hacc⟩ := accessTLB_hit hcounted hfits hget hentry.1 hentry.2 dirty
    refine ⟨_, ?_, hacc⟩
    have hset : (c₁.TLB.set k { c₁.TLB[k] with counter := c₁.globalCounter })[k]? =
        some { c₁.TLB[k] with counter := c₁.globalCounter } := List.getElem?_set_self hk
    dsimp only
    rw [modify_eq_set hget]
    generalize c₁.TLB.set k { c₁.TLB[k] with counter := c₁.globalCounter } = tlb at hset htouch ⊢
    simp only [hset, Option.bind_some, hp, htouch, Option.map_some, Option.bind_eq_bind]
  | none =>
    have hmiss : ∀ e ∈ c₁.TLB, e.counter ≠ 0 → e.idx ≠ i := fun e he hvalid hidx => by
      simpa [hidx, hvalid] using List.findIdx?_eq_none_iff.1 hfind e he
    by_cases hi : c₁.data i = none
    · obtain ⟨c₂, server, hrun, hfits', htlb, hg, hi', hpoints⟩ :=
        fetch_spec hcounted hfits hn hmiss hi hevict
      rw [← htlb] at hpoints
      obtain ⟨p, c', hacc, hgood⟩ := access_miss (htlb ▸ hg ▸ hcounted.counters) (hg ▸ hcounted.lt)
        (htlb ▸ hcounted.ne) hfits' hi' hpoints dirty
      refine ⟨_, ?_, hgood⟩
      simp only [Option.bind_eq_bind, Option.bind_some, if_pos hi, hrun, hacc, Option.map_some]
    · obtain ⟨p, c', hacc, hgood⟩ := access_miss hcounted.counters hcounted.lt
        hcounted.ne hfits hi (fun e he hvalid => .inl (hcounted.points e he hvalid)) dirty
      refine ⟨_, ?_, hgood⟩
      simp only [Option.bind_eq_bind, Option.bind_some, if_neg hi, hacc, Option.map_some]

/-- An access to a good cache exposes the current content of its page. -/
theorem Good.step {c : CachedLRU T (Nat → T)} (h : Good n c m) (hn : 0 < n) {op : Op T}
    (hsafe : Safe n op.idx c.cache) :
    ∃ c', CachedLRU.step (pageStore T) n op c = some (m op.idx, c') ∧
      Good n c' (update m op.idx (op.modify (m op.idx))) := by
  obtain ⟨⟨p, c₁⟩, hrun, hgood, hp, e, he, hval, hdirty⟩ := h.access hn hsafe op.isDirty
  dsimp only at hgood hp he
  have hderef : c₁.deref p = some (m op.idx) := by rw [CachedLRU.deref, he, ← hval]; rfl
  have hstore : c₁.store p (op.modify (m op.idx)) = { c₁ with cache := { c₁.cache with
      nodes := update c₁.cache.nodes p (some { e with val := op.modify (m op.idx) }) } } := by
    rw [CachedLRU.store, he]
    rfl
  refine ⟨c₁.store p (op.modify (m op.idx)), ?_, ?_⟩
  · simp only [CachedLRU.step, hrun, hderef, Option.bind_eq_bind, Option.bind_some]
  · rw [hstore]
    refine ⟨hgood.fits.setNode hp rfl fun hclean => ?_, hgood.counters, hgood.counter_lt,
      hgood.tlb_ne, hgood.points⟩
    cases op with
    | access i f => rw [hdirty rfl] at hclean; cases hclean
    | accessReadOnly i => exact (hgood.fits.hit i p e hp he).2 hclean

/-! ## Runs -/

theorem Good.new (n : Nat) {TLB_SIZE : Nat} (hT : 1 ≤ TLB_SIZE) (server : Nat → T) :
    Good n ⟨Cache.new T TLB_SIZE, server⟩ server where
  fits :=
    { node := fun i p h => by cases h
      inj := fun i j p h => by cases h
      below := fun p e h => by cases h
      nodup := List.nodup_nil
      mem_iff := fun i => by simp [Cache.new]
      size_eq := rfl
      size_le := Nat.zero_le n
      hit := fun i p e h => by cases h
      miss := fun i _ => rfl }
  counters := .replicate TLB_SIZE
  counter_lt := Nat.sub_pos_of_lt (Nat.one_lt_two_pow (by decide))
  tlb_ne h := by simp [Cache.new] at h; omega
  points e he hvalid := absurd (by rw [List.eq_of_mem_replicate he]) hvalid

/-- Every access of the run is safe in the state that it finds. -/
def SafeRun (n : Nat) : List (Op T) → CachedLRU T (Nat → T) → Prop
  | [], _ => True
  | op :: ops, c => Safe n op.idx c.cache ∧
    match CachedLRU.step (pageStore T) n op c with
    | some (_, c) => SafeRun n ops c
    | none => True

instance decidableSafeRun (n : Nat) : (ops : List (Op T)) → (c : CachedLRU T (Nat → T)) →
    Decidable (SafeRun n ops c)
  | [], _ => .isTrue trivial
  | op :: ops, c =>
    have : Decidable (match CachedLRU.step (pageStore T) n op c with
        | some (_, c) => SafeRun n ops c
        | none => True) :=
      match CachedLRU.step (pageStore T) n op c with
      | some (_, c) => decidableSafeRun n ops c
      | none => .isTrue trivial
    inferInstanceAs (Decidable (_ ∧ _))

theorem SafeRun.pre {ops ops' : List (Op T)} {c : CachedLRU T (Nat → T)}
    (h : SafeRun n (ops ++ ops') c) : SafeRun n ops c := by
  induction ops generalizing c with
  | nil => trivial
  | cons op ops ih =>
    refine ⟨h.1, ?_⟩
    have hrest := h.2
    cases hstep : CachedLRU.step (pageStore T) n op c with
    | none => trivial
    | some r =>
      rw [hstep] at hrest
      exact ih hrest

theorem Good.run {c : CachedLRU T (Nat → T)} (h : Good n c m) (hn : 0 < n) {ops : List (Op T)}
    (hsafe : SafeRun n ops c) :
    ∃ c' m', CachedLRU.run (pageStore T) n ops c = some (exposed ops m, c') ∧ Good n c' m' := by
  induction ops generalizing c m with
  | nil => exact ⟨c, m, rfl, h⟩
  | cons op ops ih =>
    obtain ⟨c₁, hstep, hgood⟩ := h.step hn hsafe.1
    have hrest := hsafe.2
    rw [hstep] at hrest
    obtain ⟨c', m', hrun, hgood'⟩ := ih hgood hrest
    refine ⟨c', m', ?_, hgood'⟩
    simp only [CachedLRU.run, hstep, hrun, exposed, Option.bind_eq_bind, Option.bind_some]

/-- Every valid entry of the TLB points to the entry of its page that is in the cache. -/
def TLBCoherent (c : Cache T) : Prop :=
  ∀ e ∈ c.TLB, e.counter ≠ 0 → ∃ p entry, e.pentry = some p ∧ c.data e.idx = some p ∧
    c.nodes p = some entry

theorem Good.coherent {c : CachedLRU T (Nat → T)} (h : Good n c m) : TLBCoherent c.cache := by
  intro e he hvalid
  obtain ⟨p, hp, hdata⟩ := h.points e he hvalid
  obtain ⟨entry, hentry⟩ := h.fits.node _ p hdata
  exact ⟨p, entry, hp, hdata, hentry⟩

/-- **In a run whose accesses are all safe** every access exposes what the uncached store would, and
in every state that is reached the TLB is coherent. -/
theorem accessLRU_refines (n TLB_SIZE : Nat) (hn : 2 ≤ n) (hT : 1 ≤ TLB_SIZE) (server : Nat → T)
    (ops : List (Op T)) (hsafe : SafeRun n ops ⟨Cache.new T TLB_SIZE, server⟩) :
    ∀ pre post, ops = pre ++ post →
      ∃ c', CachedLRU.run (pageStore T) n pre ⟨Cache.new T TLB_SIZE, server⟩ =
        some (exposed pre server, c') ∧ TLBCoherent c'.cache := by
  rintro pre post rfl
  obtain ⟨c', m', hrun, hgood⟩ := (Good.new n hT server).run (by omega) hsafe.pre
  exact ⟨c', hrun, hgood.coherent⟩

/-- Page 1 is incremented, evicted for page 3 and read back, with a cache of 2 pages and a TLB of 2
entries. -/
theorem accessLRU_refines_one :
    SafeRun 2 [.access 1 Nat.succ, .accessReadOnly 2, .accessReadOnly 3, .accessReadOnly 1]
      ⟨Cache.new Nat 2, id⟩ ∧
    ∀ pre post, [.access 1 Nat.succ, .accessReadOnly 2, .accessReadOnly 3, .accessReadOnly 1] =
        pre ++ post →
      ∃ c', CachedLRU.run (pageStore Nat) 2 pre ⟨Cache.new Nat 2, id⟩ =
        some (exposed pre id, c') ∧ TLBCoherent c'.cache :=
  have hsafe : SafeRun 2 [.access 1 Nat.succ, .accessReadOnly 2, .accessReadOnly 3,
    .accessReadOnly 1]
      ⟨Cache.new Nat 2, id⟩ := by
    decide +kernel
  ⟨hsafe, accessLRU_refines 2 2 (by decide) (by decide) id _ hsafe⟩

/-- A hit in the TLB does not move page 1 to the front of the list, so page 3 evicts it. Its entry
of the TLB stays valid, and the next access follows its pointer to the node that was freed. -/
theorem accessLRU_keeps_evicted :
    (∃ v c', CachedLRU.run (pageStore Nat) 2 [.accessReadOnly 1, .accessReadOnly 2,
        .accessReadOnly 1, .accessReadOnly 3] ⟨Cache.new Nat 2, id⟩ = some (v, c') ∧
      ⟨1, 3, some 0⟩ ∈ c'.cache.TLB ∧ c'.cache.data 1 = none ∧ c'.cache.nodes 0 = none) ∧
    CachedLRU.run (pageStore Nat) 2 [.accessReadOnly 1, .accessReadOnly 2, .accessReadOnly 1,
        .accessReadOnly 3, .accessReadOnly 1] ⟨Cache.new Nat 2, id⟩ = none := by
  exact ⟨⟨_, _, rfl, by decide +kernel, rfl, rfl⟩, rfl⟩

end CACHE
