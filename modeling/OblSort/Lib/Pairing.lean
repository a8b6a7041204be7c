import Mathlib.Data.List.Basic
import Mathlib.Data.List.Nodup

/-!
# Walks along two pairings

Two pairings `p` and `q` of a set form cycles: from `x` to its `q`-partner, from there to the
`p`-partner of that, and so on. `Walked` describes the positions `tops` that a walk has come to in
this way, with a new start at any position that is left whenever a cycle closes. When all are
visited, `tops` has exactly one position of every pair, of `p` as well as of `q`.
-/

namespace Pairing

variable {X : Type}

/-- A pairing of the elements of `D`: an involution without fixed points. -/
structure Pairs (D : X → Prop) (p : X → X) : Prop where
  mem : ∀ x, D x → D (p x)
  invol : ∀ x, D x → p (p x) = x
  ne : ∀ x, D x → p x ≠ x

/-- What has been visited: the positions and their `q`-partners. -/
def visited (q : X → X) (tops : List X) : List X := tops ++ tops.map q

/-- A walk that has come to `tops`, whose cycle began at `c`, and that is now at `s`. -/
structure Walked (D : X → Prop) (p q : X → X) (tops : List X) (c s : X) : Prop where
  dom : ∀ x ∈ tops, D x
  nodup : (visited q tops).Nodup
  start : c ∈ tops
  stop : s ∈ tops.map q
  top : ∀ x ∈ tops, x ≠ c → p x ∈ tops.map q ∧ p x ≠ s
  bot : ∀ x ∈ tops.map q, x ≠ s → p x ∈ tops ∧ p x ≠ c

variable {D : X → Prop} {p q : X → X} {tops : List X} {c s : X}

theorem mem_visited {x : X} : x ∈ visited q tops ↔ x ∈ tops ∨ x ∈ tops.map q :=
  List.mem_append

theorem visited_concat_perm (f : X) :
    List.Perm (visited q (tops ++ [f])) (q f :: f :: visited q tops) := by
  have hmap : (tops ++ [f]).map q = tops.map q ++ [q f] := by simp
  rw [visited, hmap, ← List.append_assoc]
  refine (List.perm_append_comm).trans ?_
  rw [List.singleton_append, List.append_assoc]
  refine List.Perm.cons _ ?_
  rw [List.singleton_append]
  exact List.perm_middle

theorem Walked.not_both (h : Walked D p q tops c s) {x : X} (hx : x ∈ tops) : x ∉ tops.map q :=
  fun hq => List.disjoint_of_nodup_append h.nodup hx hq

/-- The partners of what is visited are visited. -/
theorem Walked.partner (h : Walked D p q tops c s) (hq : Pairs D q) {f : X} (hf : D f)
    (hnew : f ∉ visited q tops) : q f ∉ visited q tops := by
  intro hmem
  refine hnew (mem_visited.2 ?_)
  rcases mem_visited.1 hmem with hmem | hmem
  · refine .inr (List.mem_map.2 ⟨q f, hmem, hq.invol f hf⟩)
  · obtain ⟨x, hx, heq⟩ := List.mem_map.1 hmem
    rw [← hq.invol f hf, ← heq, hq.invol x (h.dom x hx)]
    exact .inl hx

/-- A walk begins. -/
theorem Walked.single (hq : Pairs D q) (hc : D c) : Walked D p q [c] c (q c) where
  dom x hx := by rwa [List.mem_singleton.1 hx]
  nodup := by
    change [c, q c].Nodup
    simpa using (hq.ne c hc).symm
  start := List.mem_singleton_self c
  stop := List.mem_singleton_self (q c)
  top x hx hne := absurd (List.mem_singleton.1 hx) hne
  bot x hx hne := absurd (List.mem_singleton.1 hx) hne

/-- If the next position is visited, it is the start: the cycle is closed. -/
theorem Walked.closed (h : Walked D p q tops c s) (hp : Pairs D p) (hs : D s)
    (hmem : p s ∈ visited q tops) : p s = c := by
  by_contra hne
  rcases mem_visited.1 hmem with hmem | hmem
  · have := (h.top _ hmem hne).2
    rw [hp.invol s hs] at this
    exact this rfl
  · have := (h.bot _ hmem (hp.ne s hs)).1
    rw [hp.invol s hs] at this
    exact h.not_both this h.stop

theorem Walked.nodup_concat (h : Walked D p q tops c s) (hq : Pairs D q) {f : X} (hf : D f)
    (hnew : f ∉ visited q tops) : (visited q (tops ++ [f])).Nodup := by
  rw [(visited_concat_perm f).nodup_iff, List.nodup_cons, List.nodup_cons, List.mem_cons, not_or]
  exact ⟨⟨hq.ne f hf, h.partner hq hf hnew⟩, hnew, h.nodup⟩

theorem Walked.dom_concat (h : Walked D p q tops c s) {f : X} (hf : D f) :
    ∀ x ∈ tops ++ [f], D x := by
  intro x hx
  rcases List.mem_append.1 hx with hx | hx
  · exact h.dom x hx
  · rwa [List.mem_singleton.1 hx]

/-- The next position of an open cycle. -/
theorem Walked.next (h : Walked D p q tops c s) (hp : Pairs D p) (hq : Pairs D q) (hs : D s)
    (hopen : p s ≠ c) : Walked D p q (tops ++ [p s]) c (q (p s)) := by
  have hf : D (p s) := hp.mem s hs
  have hnew : p s ∉ visited q tops := fun hmem => hopen (h.closed hp hs hmem)
  have hqnew := h.partner hq hf hnew
  rw [mem_visited, not_or] at hnew hqnew
  have hmap : (tops ++ [p s]).map q = tops.map q ++ [q (p s)] := by simp
  refine ⟨h.dom_concat hf, h.nodup_concat hq hf (fun hmem => hopen (h.closed hp hs hmem)),
    List.mem_append_left _ h.start, ?_, fun x hx hne => ?_, fun x hx hne => ?_⟩
  · rw [hmap]
    exact List.mem_append_right _ (List.mem_singleton_self _)
  · rw [hmap]
    rcases List.mem_append.1 hx with hx | hx
    · have hb := (h.top x hx hne).1
      exact ⟨List.mem_append_left _ hb, fun heq => hqnew.2 (heq ▸ hb)⟩
    · rw [List.mem_singleton.1 hx, hp.invol s hs]
      exact ⟨List.mem_append_left _ h.stop, fun heq => hqnew.2 (heq ▸ h.stop)⟩
  · rw [hmap] at hx
    rcases List.mem_append.1 hx with hx | hx
    · by_cases hxs : x = s
      · subst hxs
        exact ⟨List.mem_append_right _ (List.mem_singleton_self _), hopen⟩
      · have ht := h.bot x hx hxs
        exact ⟨List.mem_append_left _ ht.1, ht.2⟩
    · exact absurd (List.mem_singleton.1 hx) hne

/-- A new start after a closed cycle. -/
theorem Walked.restart (h : Walked D p q tops c s) (hp : Pairs D p) (hq : Pairs D q) (hs : D s)
    (hclosed : p s = c) {f : X} (hf : D f) (hnew : f ∉ visited q tops) :
    Walked D p q (tops ++ [f]) f (q f) := by
  have hqnew := h.partner hq hf hnew
  have hdup := h.nodup_concat hq hf hnew
  rw [mem_visited, not_or] at hnew hqnew
  have hmap : (tops ++ [f]).map q = tops.map q ++ [q f] := by simp
  refine ⟨h.dom_concat hf, hdup, List.mem_append_right _ (List.mem_singleton_self _), ?_,
    fun x hx hne => ?_, fun x hx hne => ?_⟩
  · rw [hmap]
    exact List.mem_append_right _ (List.mem_singleton_self _)
  · rw [hmap]
    rcases List.mem_append.1 hx with hx | hx
    · have hb : p x ∈ tops.map q := by
        by_cases hxc : x = c
        · rw [hxc, ← hclosed, hp.invol s hs]
          exact h.stop
        · exact (h.top x hx hxc).1
      exact ⟨List.mem_append_left _ hb, fun heq => hqnew.2 (heq ▸ hb)⟩
    · exact absurd (List.mem_singleton.1 hx) hne
  · rw [hmap] at hx
    rcases List.mem_append.1 hx with hx | hx
    · have ht : p x ∈ tops := by
        by_cases hxs : x = s
        · rw [hxs, hclosed]
          exact h.start
        · exact (h.bot x hx hxs).1
      exact ⟨List.mem_append_left _ ht, fun heq => hnew.1 (heq ▸ ht)⟩
    · exact absurd (List.mem_singleton.1 hx) hne

/-- **When all are visited**, `tops` has one position of every pair. -/
theorem Walked.transversal (h : Walked D p q tops c s) (hp : Pairs D p) (hs : D s)
    (hall : ∀ x, D x → x ∈ visited q tops) {x : X} (hx : D x) : x ∈ tops ↔ p x ∉ tops := by
  have hclosed := h.closed hp hs (hall _ (hp.mem s hs))
  have htop : ∀ x ∈ tops, p x ∈ tops.map q := fun x hx => by
    by_cases hxc : x = c
    · rw [hxc, ← hclosed, hp.invol s hs]
      exact h.stop
    · exact (h.top x hx hxc).1
  constructor
  · intro hmem hpmem
    exact h.not_both hpmem (htop x hmem)
  · intro hnot
    rcases mem_visited.1 (hall x hx) with hmem | hmem
    · exact hmem
    · by_cases hxs : x = s
      · rw [hxs, hclosed] at hnot
        exact absurd h.start hnot
      · exact absurd (h.bot x hmem hxs).1 hnot

/-- The same for `q`. -/
theorem Walked.transversal_partner (h : Walked D p q tops c s) (hq : Pairs D q)
    (hall : ∀ x, D x → x ∈ visited q tops) {x : X} (hx : D x) : x ∈ tops ↔ q x ∉ tops := by
  constructor
  · intro hmem hqmem
    exact h.not_both hqmem (List.mem_map_of_mem hmem)
  · intro hnot
    rcases mem_visited.1 (hall x hx) with hmem | hmem
    · exact hmem
    · obtain ⟨y, hy, rfl⟩ := List.mem_map.1 hmem
      rw [hq.invol y (h.dom y hy)] at hnot
      exact absurd hy hnot

end Pairing
