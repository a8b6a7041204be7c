import OblSort.Proof.NonCachedVector

/-!
# Copying a vector out in chunks

`Progress data c b v`: the elements of `data` before the position `b` have been copied out with the
counter `c`. A page that is partly written has been written with `c`, the pages after it with
`c - 1`. A chunk within a page reads that page with `c - 1` first, so `Progress` goes on over every
chunk (`Progress.copyOut`) but one that begins inside a page and ends inside the same page
(`Progress.copyOut_bad`).
-/

namespace EM.NonCachedVector

open Paged

variable {n : Nat} {α : Type}

/-! ## Sources -/

/-- `src` is what `data` has from `b` on. -/
def From (data : List α) (b : Nat) (src : List α) : Prop :=
  ∀ i < src.length, data[b + i]? = src[i]?

theorem From.take {data src : List α} {b : Nat} (h : From data b src) (k : Nat) :
    From data b (src.take k) := by
  intro i hi
  rw [List.length_take] at hi
  rw [List.getElem?_take_of_lt (by omega), h i (by omega)]

theorem From.drop {data src : List α} {b : Nat} (h : From data b src) (k : Nat) :
    From data (b + k) (src.drop k) := by
  intro i hi
  rw [List.length_drop] at hi
  rw [List.getElem?_drop, ← h _ (by omega), Nat.add_assoc]

/-! ## Progress -/

/-- The elements of `data` before `b` have been copied out with the counter `c`. -/
structure Progress (data : List α) (c b : Nat) (v : Vector n α) : Prop where
  size : data.length = v.N
  done : ∀ p, (p + 1) * n ≤ b → ∃ page, Has v p c page ∧ Agrees data p page 0 n
  part : b % n ≠ 0 → ∃ page, Has v (b / n) c page ∧ Agrees data (b / n) page 0 (b % n)
  scratch : b % n ≠ 0 → Agrees data (b / n) v.cachePage 0 (b % n)
  rest : 0 < c → ∀ p, b ≤ p * n → p * n < v.N → ∃ page, Has v p (c - 1) page

variable [NeZero n] {data src : List α} {c b : Nat} {v : Vector n α}

omit [NeZero n] in
/-- What is stored has not changed. -/
theorem Progress.cache (h : Progress data c b v) (cachePage : Page n α)
    (hcache : b % n ≠ 0 → Agrees data (b / n) cachePage 0 (b % n)) :
    Progress data c b { v with cachePage } where
  size := h.size
  done p hp := by
    obtain ⟨page, hhas, hagrees⟩ := h.done p hp
    exact ⟨page, hhas.cache cachePage, hagrees⟩
  part hb := by
    obtain ⟨page, hhas, hagrees⟩ := h.part hb
    exact ⟨page, hhas.cache cachePage, hagrees⟩
  scratch := hcache
  rest hc p hp hN := by
    obtain ⟨page, hhas⟩ := h.rest hc p hp hN
    exact ⟨page, hhas.cache cachePage⟩

omit [NeZero n] in
/-- Writing a page that covers the positions from `b` up to `e`. -/
theorem Progress.write (h : Progress data c b v) {e p : Nat} {page : Page n α}
    (hbe : ∀ q, q ≠ p → (q + 1) * n ≤ e → (q + 1) * n ≤ b)
    (hrest : ∀ q, e ≤ q * n → q ≠ p ∧ b ≤ q * n) (hfull : (p + 1) * n ≤ e → Agrees data p page 0 n)
    (hpart : e % n ≠ 0 → e / n = p ∧ Agrees data p page 0 (e % n) ∧
      Agrees data p v.cachePage 0 (e % n)) :
    Progress data c e (v.write p page c) where
  size := h.size
  done q hq := by
    by_cases hqp : q = p
    · subst hqp
      exact ⟨page, has_write v q c page, hfull hq⟩
    · obtain ⟨page', hhas, hagrees⟩ := h.done q (hbe q hqp hq)
      exact ⟨page', hhas.write_ne page hqp, hagrees⟩
  part he := by
    obtain ⟨hep, hagrees, -⟩ := hpart he
    exact ⟨page, hep ▸ has_write v p c page, hep ▸ hagrees⟩
  scratch he := by
    obtain ⟨hep, -, hagrees⟩ := hpart he
    exact hep ▸ hagrees
  rest hc q hq hN := by
    obtain ⟨page', hhas⟩ := h.rest hc q (hrest q hq).2 hN
    exact ⟨page', hhas.write_ne page (hrest q hq).1⟩

/-- Writing `src` into a page through the scratch page, which has what is before it. -/
theorem Progress.writeCache (h : Progress data c b v) (hsrc : From data b src)
    (hcache : Agrees data (b / n) v.cachePage 0 (b % n)) (hne : src ≠ [])
    (hfit : b % n + src.length ≤ n) :
    Progress data c (b + src.length) (v.writeCache (b / n) (b % n) src c) := by
  have hn := pos_itemPerPage n
  have hpos := List.length_pos_iff.2 hne
  have hdiv := Nat.div_add_mod b n
  rw [Nat.mul_comm] at hdiv
  have hfill : Agrees data (b / n) (fill (b % n) src v.cachePage) 0 (b % n + src.length) :=
    hcache.fill hfit fun i hi => by rw [hdiv]; exact hsrc i hi
  have hle : b + src.length ≤ (b / n + 1) * n := by
    rw [Nat.succ_mul]
    omega
  have hcached := h.cache (fill (b % n) src v.cachePage) fun _ =>
    hfill.mono (Nat.le_refl 0) (by omega)
  refine hcached.write (fun q hq hqe => ?_) (fun q hq => ⟨fun heq => ?_, by omega⟩)
    (fun hfull => ?_) fun hpart => ?_
  · have hlt : q + 1 ≤ b / n + 1 := Nat.le_of_mul_le_mul_right (hqe.trans hle) hn
    exact (Nat.mul_le_mul_right n (show q + 1 ≤ b / n by omega)).trans (by omega)
  · subst heq
    omega
  · rw [Nat.succ_mul] at hfull
    exact hfill.mono (Nat.le_refl 0) (by omega)
  · have hlt : b % n + src.length < n := by
      refine Nat.lt_of_le_of_ne hfit fun heq => hpart ?_
      rw [show b + src.length = (b / n + 1) * n by rw [Nat.succ_mul]; omega, Nat.mul_mod_left]
    obtain ⟨h1, h2⟩ := div_mod_of_lt (p := b / n) hlt
    rw [show b + src.length = b / n * n + (b % n + src.length) by omega, h1, h2]
    exact ⟨rfl, hfill, hfill⟩

/-! ## The parts of `CopyOut` -/

/-- A chunk within a page that begins it, or any with the counter 0. -/
theorem Progress.copyOutWithin (h : Progress data c b v) (hsrc : From data b src) (hne : src ≠ [])
    (hfit : b % n + src.length ≤ n) (hle : b + src.length ≤ v.N) (hok : c = 0 ∨ b % n = 0) :
    ∃ v', copyOutWithin src b c v = some v' ∧ Progress data c (b + src.length) v' := by
  have hpos := List.length_pos_iff.2 hne
  rw [NonCachedVector.copyOutWithin]
  by_cases hread : (b ≠ 0 ∨ b + src.length ≠ v.N) ∧ 0 < c
  · have hoff : b % n = 0 := hok.resolve_left (by omega)
    have hbn : b / n * n = b := Nat.div_mul_cancel (Nat.dvd_of_mod_eq_zero hoff)
    obtain ⟨page, hhas⟩ := h.rest hread.2 (b / n) (by omega) (by omega)
    refine ⟨_, ?_, (h.cache page fun hoff' => absurd hoff hoff').writeCache hsrc ?_ hne hfit⟩
    · rw [if_pos hread.1, if_pos hread.2, hhas.readCache, Option.bind_some]
    · rw [hoff]
      exact agrees_zero page
  · refine ⟨_, ?_, h.writeCache hsrc ?_ hne hfit⟩
    · split
      · rw [if_neg (by tauto), Option.bind_some]
      · rw [Option.bind_some]
    · by_cases hoff : b % n = 0
      · rw [hoff]
        exact agrees_zero v.cachePage
      · exact h.scratch hoff

/-- **A chunk inside a page** that does not begin it is read with the wrong counter. -/
theorem Progress.copyOutWithin_bad (h : Progress data c b v) (hc : c < 2 ^ 32) (hpos : 0 < c)
    (hoff : b % n ≠ 0) : NonCachedVector.copyOutWithin src b c v = none := by
  obtain ⟨page, hhas, -⟩ := h.part hoff
  have hb : b ≠ 0 := fun hb => hoff (by rw [hb, Nat.zero_mod])
  rw [NonCachedVector.copyOutWithin, if_pos (.inl hb), if_pos hpos, Vector.readCache,
    hhas.read_ne hc (by omega) (by omega)]
  rfl

/-- The rest of the page in which a range begins. -/
theorem Progress.copyOutBegin (h : Progress data c b v) (hsrc : From data b src) (hne : src ≠ [])
    (hfit : b % n + src.length = n) (hoff : b % n ≠ 0) :
    ∃ v', copyOutBegin src b c v = some v' ∧ Progress data c (b + src.length) v' := by
  obtain ⟨page, hhas, hagrees⟩ := h.part hoff
  have hb : b ≠ 0 := fun hb => hoff (by rw [hb, Nat.zero_mod])
  refine ⟨_, ?_, (h.cache page fun _ => hagrees).writeCache hsrc hagrees hne hfit.le⟩
  rw [NonCachedVector.copyOutBegin, if_pos hb, hhas.readCache, Option.bind_some]

/-- Whole pages. -/
theorem Progress.copyOutPages {count p : Nat} (h : Progress data c (p * n) v)
    (hsrc : From data (p * n) src) (hlen : count * n ≤ src.length)
    (hle : p * n + src.length ≤ data.length) :
    ∃ v', copyOutPages c count p src v = some v' ∧ Progress data c ((p + count) * n) v' := by
  have hn := pos_itemPerPage n
  induction count generalizing p src v with
  | zero => exact ⟨v, rfl, h⟩
  | succ count ih =>
    rw [Nat.succ_mul] at hlen
    obtain ⟨page, hpage, hget⟩ := ofList_eq (show n ≤ src.length by omega)
    have hagrees : Agrees data p page 0 n := fun o _ _ => by
      rw [hsrc o (by omega), hget]
    have hwritten : Progress data c ((p + 1) * n) (v.write p page c) := by
      refine h.write (fun q hq hqe => ?_) (fun q hq => ?_) (fun _ => hagrees) fun hpart => ?_
      · have hlt := Nat.le_of_mul_le_mul_right hqe hn
        exact Nat.mul_le_mul_right n (by omega)
      · have hlt := Nat.le_of_mul_le_mul_right hq hn
        exact ⟨by omega, Nat.mul_le_mul_right n (by omega)⟩
      · exact absurd (Nat.mul_mod_left (p + 1) n) hpart
    have hdrop := hsrc.drop n
    rw [← Nat.succ_mul] at hdrop
    obtain ⟨v', hrun, hv'⟩ := ih hwritten hdrop (by rw [List.length_drop]; omega)
      (by rw [List.length_drop, Nat.succ_mul]; omega)
    refine ⟨v', ?_, by rwa [show p + 1 + count = p + (count + 1) by omega] at hv'⟩
    rw [NonCachedVector.copyOutPages, hpage, Option.bind_some, hrun]

/-- The part of a page in which a range ends. -/
theorem Progress.copyOutEnd {p : Nat} (h : Progress data c (p * n) v) (hsrc : From data (p * n) src)
    (hne : src ≠ []) (hfit : src.length < n) (hle : p * n + src.length ≤ v.N) :
    ∃ v', copyOutEnd src (p * n + src.length) c v = some v' ∧
      Progress data c (p * n + src.length) v' := by
  have hpos := List.length_pos_iff.2 hne
  obtain ⟨hdiv, -⟩ := div_mod_of_lt (p := p) hfit
  obtain ⟨hdiv0, hmod0⟩ := div_mod_of_lt (p := p) (pos_itemPerPage n)
  rw [Nat.add_zero] at hdiv0 hmod0
  have hzero : ∀ w : Vector n α, Progress data c (p * n) w →
      Progress data c (p * n + src.length) (w.writeCache p 0 src c) := fun w hw => by
    have := hw.writeCache hsrc (by rw [hmod0]; exact agrees_zero w.cachePage) hne (by omega)
    rwa [hdiv0, hmod0] at this
  rw [NonCachedVector.copyOutEnd, hdiv]
  by_cases hread : p * n + src.length ≠ v.N ∧ 0 < c
  · obtain ⟨page, hhas⟩ := h.rest hread.2 p (Nat.le_refl _) (by omega)
    refine ⟨_, ?_, hzero _ (h.cache page fun hoff => absurd hmod0 hoff)⟩
    rw [if_pos hread.1, if_pos hread.2, hhas.readCache, Option.bind_some]
  · refine ⟨_, ?_, hzero v h⟩
    split
    · rw [if_neg (by tauto), Option.bind_some]
    · rw [Option.bind_some]

/-! ## Chunks -/

/-- The chunk begins inside a page and ends inside the same page. -/
def WithinPage (n b : Nat) (src : List α) : Prop :=
  src ≠ [] ∧ b % n ≠ 0 ∧ b / n = (b + src.length) / n

/-- From a page on: whole pages, then the part of the last one. -/
theorem Progress.copyOutAligned {p e : Nat} (h : Progress data c (p * n) v)
    (hsrc : From data (p * n) src) (he : p * n + src.length = e) (hle : e ≤ v.N) :
    ∃ v', ((NonCachedVector.copyOutPages c (e / n - p) p src v).bind fun v =>
        if e % n ≠ 0 then NonCachedVector.copyOutEnd (src.drop ((e / n - p) * n)) e c v
        else some v) = some v' ∧ Progress data c e v' := by
  have hn := pos_itemPerPage n
  have hdiv := Nat.div_add_mod e n
  rw [Nat.mul_comm] at hdiv
  have hp : p ≤ e / n := (Nat.le_div_iff_mul_le hn).2 (by omega)
  have hmul : e / n * n = p * n + (e / n - p) * n := by rw [← Nat.add_mul, Nat.add_sub_cancel' hp]
  obtain ⟨v₁, hpages, h₁⟩ := h.copyOutPages hsrc
    (show (e / n - p) * n ≤ src.length by omega) (by rw [h.size]; omega)
  rw [Nat.add_sub_cancel' hp] at h₁
  rw [hpages, Option.bind_some]
  by_cases hoff : e % n = 0
  · refine ⟨v₁, if_neg (by simpa using hoff), ?_⟩
    rwa [show e / n * n = e by omega] at h₁
  · have hdrop := hsrc.drop ((e / n - p) * n)
    rw [← hmul] at hdrop
    have hlen : (src.drop ((e / n - p) * n)).length = e % n := by
      rw [List.length_drop]
      omega
    have hsize : v₁.N = v.N := h₁.size.symm.trans h.size
    obtain ⟨v₂, hend, h₂⟩ := h₁.copyOutEnd hdrop (List.ne_nil_of_length_pos (by omega))
      (by rw [hlen]; exact Nat.mod_lt e hn) (by omega)
    rw [hlen, hdiv] at hend h₂
    exact ⟨v₂, by rw [if_pos hoff, hend], h₂⟩

/-- **One chunk.** -/
theorem Progress.copyOut (h : Progress data c b v) (hsrc : From data b src)
    (hle : b + src.length ≤ v.N) (hok : c = 0 ∨ ¬ WithinPage n b src) :
    ∃ v', copyOut src b c v = some v' ∧ Progress data c (b + src.length) v' := by
  have hn := pos_itemPerPage n
  have hdiv := Nat.div_add_mod b n
  have hdive := Nat.div_add_mod (b + src.length) n
  have hmod := Nat.mod_lt b hn
  have hmode := Nat.mod_lt (b + src.length) hn
  rw [Nat.mul_comm] at hdiv hdive
  rw [NonCachedVector.copyOut]
  dsimp only
  by_cases hpage : b / n = (b + src.length) / n
  · rw [if_pos hpage]
    have hmul : b / n * n = (b + src.length) / n * n := by rw [← hpage]
    by_cases hne : src = []
    · subst hne
      exact ⟨v, rfl, h⟩
    · rw [if_pos (List.length_pos_iff.2 hne).ne']
      refine h.copyOutWithin hsrc hne (by omega) hle (hok.imp_right fun hnot => ?_)
      by_contra hoff
      exact hnot ⟨hne, hoff, hpage⟩
  · rw [if_neg hpage]
    have hlt : b / n + 1 ≤ (b + src.length) / n := by
      have := Nat.div_le_div_right (c := n) (Nat.le_add_right b src.length)
      omega
    have hmul := Nat.mul_le_mul_right n hlt
    rw [Nat.succ_mul] at hmul
    by_cases hoff : b % n = 0
    · have hbn : b / n * n = b := by omega
      rw [if_neg (by simpa using hoff), if_neg (by simpa using hoff), if_neg (by simpa using hoff),
        Option.bind_some, List.drop_zero]
      exact Progress.copyOutAligned (by rwa [hbn]) (by rwa [hbn]) (by rw [hbn]) hle
    · rw [if_pos hoff, if_pos hoff, if_pos hoff]
      have hhead : (src.take (n - b % n)).length = n - b % n := by
        rw [List.length_take]
        omega
      have hnext : b + (n - b % n) = (b / n + 1) * n := by
        rw [Nat.succ_mul]
        omega
      obtain ⟨v₁, hbegin, h₁⟩ := h.copyOutBegin (hsrc.take (n - b % n))
        (List.ne_nil_of_length_pos (by omega)) (by omega) hoff
      rw [hhead, hnext] at h₁
      have hdrop := hsrc.drop (n - b % n)
      rw [hnext] at hdrop
      rw [hbegin, Option.bind_some]
      have hsize : v₁.N = v.N := h₁.size.symm.trans h.size
      exact h₁.copyOutAligned hdrop (by rw [List.length_drop]; omega) (by omega)

/-- A chunk that goes on inside a page aborts. -/
theorem Progress.copyOut_bad (h : Progress data c b v) (hc : c < 2 ^ 32) (hpos : 0 < c)
    (hbad : WithinPage n b src) : NonCachedVector.copyOut src b c v = none := by
  rw [NonCachedVector.copyOut]
  dsimp only
  rw [if_pos hbad.2.2, if_pos (List.length_pos_iff.2 hbad.1).ne']
  exact h.copyOutWithin_bad hc hpos hbad.2.1

/-- `CopyOut` of consecutive chunks. -/
def copyOutChunks (c : Nat) : (chunks : List (List α)) → (b : Nat) → Vector n α →
    Option (Vector n α)
  | [], _, v => some v
  | src :: chunks, b, v => (copyOut src b c v).bind (copyOutChunks c chunks (b + src.length))

/-- No chunk begins inside a page and ends inside the same page. -/
def NoneWithinPage (n : Nat) : (chunks : List (List α)) → (b : Nat) → Prop
  | [], _ => True
  | src :: chunks, b => ¬ WithinPage n b src ∧ NoneWithinPage n chunks (b + src.length)

omit [NeZero n] in
/-- The first chunk is what `data` has. -/
theorem from_of_drop {rest : List α} (h : data.drop b = src ++ rest) : From data b src := by
  intro i hi
  rw [← List.getElem?_drop, h, List.getElem?_append_left hi]

omit [NeZero n] in
theorem drop_of_drop {rest : List α} (h : data.drop b = src ++ rest) :
    data.drop (b + src.length) = rest := by
  rw [← List.drop_drop, h, List.drop_left]

omit [NeZero n] in
theorem end_of_drop {rest : List α} (h : data.drop b = src ++ rest) (hb : b ≤ data.length) :
    b + src.length ≤ data.length := by
  have hlen := congrArg List.length h
  rw [List.length_drop, List.length_append] at hlen
  omega

/-- **All chunks**, when none goes wrong. -/
theorem Progress.copyOutChunks {chunks : List (List α)} (h : Progress data c b v)
    (hb : b ≤ data.length) (hdata : data.drop b = chunks.flatten)
    (hok : c = 0 ∨ NoneWithinPage n chunks b) :
    ∃ v', copyOutChunks c chunks b v = some v' ∧ Progress data c data.length v' := by
  induction chunks generalizing b v with
  | nil =>
    have hlen := congrArg List.length hdata
    rw [List.length_drop, List.flatten_nil, List.length_nil] at hlen
    obtain rfl : b = data.length := by omega
    exact ⟨v, rfl, h⟩
  | cons src chunks ih =>
    rw [List.flatten_cons] at hdata
    have hend := end_of_drop hdata hb
    obtain ⟨v₁, hrun, h₁⟩ := h.copyOut (from_of_drop hdata) (by rw [← h.size]; exact hend)
      (hok.imp_right And.left)
    obtain ⟨v₂, hrest, h₂⟩ := ih h₁ hend (drop_of_drop hdata) (hok.imp_right And.right)
    refine ⟨v₂, ?_, h₂⟩
    rw [NonCachedVector.copyOutChunks, hrun, Option.bind_some, hrest]

/-- A chunk that goes wrong stops the copy. -/
theorem Progress.copyOutChunks_bad {chunks : List (List α)} (h : Progress data c b v)
    (hb : b ≤ data.length) (hdata : data.drop b = chunks.flatten) (hc : c < 2 ^ 32) (hpos : 0 < c)
    (hbad : ¬ NoneWithinPage n chunks b) : NonCachedVector.copyOutChunks c chunks b v = none := by
  induction chunks generalizing b v with
  | nil => exact absurd trivial hbad
  | cons src chunks ih =>
    rw [List.flatten_cons] at hdata
    have hend := end_of_drop hdata hb
    rw [NonCachedVector.copyOutChunks]
    by_cases hwithin : WithinPage n b src
    · rw [h.copyOut_bad hc hpos hwithin]
      rfl
    · obtain ⟨v₁, hrun, h₁⟩ := h.copyOut (from_of_drop hdata) (by rw [← h.size]; exact hend)
        (.inr hwithin)
      rw [hrun, Option.bind_some]
      exact ih h₁ hend (drop_of_drop hdata) fun hok => hbad ⟨hwithin, hok⟩

/-- What has been copied out is stored. -/
theorem Progress.stores (h : Progress data c data.length v) : Stores v c data where
  size := h.size
  pages p hp := by
    have hn := pos_itemPerPage n
    rw [← h.size] at hp ⊢
    by_cases hfull : (p + 1) * n ≤ data.length
    · obtain ⟨page, hhas, hagrees⟩ := h.done p hfull
      exact ⟨page, hhas, fun o ho _ => hagrees o ho o.isLt⟩
    · rw [Nat.succ_mul] at hfull
      obtain ⟨hdiv, hmod⟩ := div_mod_of_lt (p := p) (show data.length - p * n < n by omega)
      rw [Nat.add_sub_cancel' hp.le] at hdiv hmod
      obtain ⟨page, hhas, hagrees⟩ := h.part (by omega)
      rw [hdiv] at hhas hagrees
      exact ⟨page, hhas, by rwa [hmod] at hagrees⟩

/-- **Chunked round trip**: chunks copied out in order with the counter `c` are read back as a
whole, without a read that aborts, exactly when `c` is 0 or no chunk begins inside a page and ends
inside the same page. -/
theorem copyOutChunks_copyIn_iff {chunks : List (List α)} (hc : c < 2 ^ 32)
    (hN : chunks.flatten.length = v.N)
    (hbefore : 0 < c → ∀ p, p * n < v.N → ∃ page, Has v p (c - 1) page) :
    (∃ v' v'', copyOutChunks c chunks 0 v = some v' ∧
      copyIn 0 v.N c v' = some (chunks.flatten, v'')) ↔ c = 0 ∨ NoneWithinPage n chunks 0 := by
  have hstart : Progress chunks.flatten c 0 v := by
    refine ⟨hN, fun p hp => ?_, fun hb => absurd (Nat.zero_mod n) hb,
      fun hb => absurd (Nat.zero_mod n) hb, fun hpos p _ hp => hbefore hpos p hp⟩
    have := pos_itemPerPage n
    rw [Nat.succ_mul] at hp
    omega
  constructor
  · rintro ⟨v', v'', hrun, -⟩
    by_contra hnot
    rw [not_or] at hnot
    rw [hstart.copyOutChunks_bad (Nat.zero_le _) rfl hc (by omega) hnot.2] at hrun
    cases hrun
  · intro hok
    obtain ⟨v', hrun, h'⟩ := hstart.copyOutChunks (Nat.zero_le _) rfl hok
    obtain ⟨cachePage, hin⟩ := h'.stores.copyIn_all
    rw [← h'.size, hN] at hin
    exact ⟨v', _, hrun, hin⟩

/-- Four elements in two chunks. -/
theorem copyOutChunks_copyIn_two :
    ∃ v' v'', copyOutChunks 1 [[1], [2, 3, 4]] 0 onePage = some v' ∧
      copyIn 0 4 1 v' = some ([1, 2, 3, 4], v'') :=
  (copyOutChunks_copyIn_iff (by decide) rfl fun _ p hp => ⟨_, onePage_has p hp⟩).2 (.inr ⟨by
    rintro ⟨-, h, -⟩
    exact absurd h (by decide), by
    rintro ⟨-, -, h⟩
    exact absurd h (by decide), trivial⟩)

/-- The second of three chunks begins inside the page and ends inside it: its read with the counter
0 aborts, the page was just written with the counter 1. -/
theorem copyOutChunks_within_page :
    (∀ p, p * 4 < 4 → ∃ page, Has onePage p (1 - 1) page) ∧
      ¬ ∃ v' v'', copyOutChunks 1 [[1], [2], [3, 4]] 0 onePage = some v' ∧
        copyIn 0 4 1 v' = some ([1, 2, 3, 4], v'') := by
  refine ⟨fun p hp => ⟨_, onePage_has p hp⟩, ?_⟩
  rintro ⟨v', v'', hrun, -⟩
  have hnone : (copyOutChunks 1 [[1], [2], [3, 4]] 0 onePage).isNone = true := by decide
  rw [hrun] at hnone
  cases hnone

end EM.NonCachedVector
