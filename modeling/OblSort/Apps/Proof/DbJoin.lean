import Mathlib.Data.Prod.Lex
import OblSort.Apps.DbJoin
import OblSort.Apps.Proof.AppsCommon
import OblSort.Lib.Store

/-!
# What the join propagates

The writer of the first sort looks at the row before as it was read, not as it was written: of the
rows of table 1 with one id, only the first gets the payload of table 2. So the join is right
exactly when no id of table 2 occurs twice in table 1 (`dbJoin_joined_iff`).

All rows with one id stand together after the sort, and the writes can be followed id by id
(`filter_joinWrites`).
-/

namespace Apps

variable {α β : Type}

/-! ## One id at a time -/

/-- The rows with id `i`. -/
def ofId (i : Nat) (rows : List (SortEntry (α × β))) : List (SortEntry (α × β)) :=
  rows.filter fun r => decide (r.entry.id = i)

theorem filter_joinWritesFrom {prev : SortEntry (α × β)} {rest : List (SortEntry (α × β))}
    (hsorted : (prev :: rest).Pairwise fun a b => a.entry.id ≤ b.entry.id) (i : Nat) :
    ofId i (joinWritesFrom prev rest) =
      if prev.entry.id = i then joinWritesFrom prev (ofId i rest)
        else joinWrites (ofId i rest) := by
  induction rest generalizing prev with
  | nil => simp [ofId, joinWritesFrom, joinWrites]
  | cons ele rest ih =>
    obtain ⟨hprev, hrest⟩ := List.pairwise_cons.1 hsorted
    have ih := ih hrest
    simp only [ofId] at ih ⊢
    by_cases hele : ele.entry.id = i
    · -- the row is kept; what it copies depends on the row before
      rw [if_pos hele] at ih
      by_cases hdup : prev.entry.id = i
      · simp [joinWritesFrom, hele, hdup, ih]
      · simp [joinWritesFrom, joinWrites, hele, hdup, ih]
    · rw [if_neg hele] at ih
      by_cases hdup : prev.entry.id = i
      · -- the rows with id `i` are over
        have hnone : rest.filter (fun r => decide (r.entry.id = i)) = [] := by
          refine List.filter_eq_nil_iff.2 fun r hr => ?_
          have h1 := hprev ele List.mem_cons_self
          have h2 := (List.pairwise_cons.1 hrest).1 r hr
          simp only [decide_eq_true_eq]
          omega
        have hne : ¬ i = ele.entry.id := fun h => hele h.symm
        simp [joinWritesFrom, joinWrites, hele, hdup, ih, hnone, hne]
      · simp only [joinWritesFrom, List.filter_cons, hele, hdup, if_false]
        split <;> simp [hele, ih]

theorem filter_joinWrites {rows : List (SortEntry (α × β))}
    (hsorted : rows.Pairwise fun a b => a.entry.id ≤ b.entry.id) (i : Nat) :
    ofId i (joinWrites rows) = joinWrites (ofId i rows) := by
  cases rows with
  | nil => rfl
  | cons ele rest =>
    have := filter_joinWritesFrom hsorted i
    simp only [ofId] at this ⊢
    by_cases hele : ele.entry.id = i
    · rw [if_pos hele] at this
      simp [joinWrites, hele, this]
    · rw [if_neg hele] at this
      rw [joinWrites, List.filter_cons_of_neg (by simpa using hele),
        List.filter_cons_of_neg (by simpa using hele), this]

/-- A row that is copied to keeps everything but `payload.second`, which is that of some row. -/
theorem second_joinWritesFrom {b : β} {prev : SortEntry (α × β)} {rest : List (SortEntry (α × β))}
    (hprev : prev.entry.payload.2 = b) (hrest : ∀ r ∈ rest, r.entry.payload.2 = b) :
    ∀ r ∈ joinWritesFrom prev rest, r.entry.payload.2 = b := by
  induction rest generalizing prev with
  | nil => simp [joinWritesFrom]
  | cons ele rest ih =>
    intro r hr
    have hele := hrest ele List.mem_cons_self
    simp only [joinWritesFrom, List.mem_cons] at hr
    rcases hr with rfl | hr
    · split
      · exact hprev
      · exact hele
    · exact ih hele (fun r hr => hrest r (.tail _ hr)) r hr

/-! ## The rows of one id after the sort -/

/-- The rows of table 1 as they are read. -/
def rows1 (fresh : Nat → α × β) (reader1 : List (DBEntry α)) : List (SortEntry (α × β)) :=
  reader1.mapIdx fun idx e => ⟨⟨(e.payload, (fresh idx).2), e.id⟩, 1⟩

def rows2 (fresh : Nat → α × β) (offset : Nat) (reader2 : List (DBEntry β)) :
    List (SortEntry (α × β)) :=
  reader2.mapIdx fun idx e => ⟨⟨((fresh (offset + idx)).1, e.payload), e.id⟩, 2⟩

theorem mem_rows1 {fresh : Nat → α × β} {reader1 : List (DBEntry α)} {r : SortEntry (α × β)}
    (h : r ∈ rows1 fresh reader1) : r.tableId = 1 ∧ ∃ idx, r.entry.payload.2 = (fresh idx).2 := by
  obtain ⟨idx, hidx, rfl⟩ := List.mem_mapIdx.1 h
  exact ⟨rfl, idx, rfl⟩

theorem mem_rows2 {fresh : Nat → α × β} {offset : Nat} {reader2 : List (DBEntry β)}
    {r : SortEntry (α × β)} (h : r ∈ rows2 fresh offset reader2) :
    r.tableId = 2 ∧ ∃ idx, r.entry.payload.1 = (fresh idx).1 := by
  obtain ⟨idx, hidx, rfl⟩ := List.mem_mapIdx.1 h
  exact ⟨rfl, offset + idx, rfl⟩

/-- The rows of table 1 with id `i`, by their payload. -/
theorem ofId_rows1 (fresh : Nat → α × β) (reader1 : List (DBEntry α)) (i : Nat) :
    (ofId i (rows1 fresh reader1)).map (fun r => (r.entry.payload.1 : α)) =
      (reader1.filter fun e => decide (e.id = i)).map DBEntry.payload := by
  induction reader1 generalizing fresh with
  | nil => rfl
  | cons e reader1 ih =>
    have ih := ih fun idx => fresh (idx + 1)
    simp only [ofId, rows1] at ih
    simp only [ofId, rows1, List.mapIdx_cons, List.filter_cons]
    by_cases he : e.id = i
    · simp [he, ih]
    · simp [he, ih]

/-- The rows of table 2 with id `i`, by their payload. -/
theorem ofId_rows2 (fresh : Nat → α × β) (offset : Nat) (reader2 : List (DBEntry β)) (i : Nat) :
    (ofId i (rows2 fresh offset reader2)).map (fun r => (r.entry.payload.2 : β)) =
      (reader2.filter fun e => decide (e.id = i)).map DBEntry.payload := by
  induction reader2 generalizing offset with
  | nil => rfl
  | cons e reader2 ih =>
    have ih := ih (offset + 1)
    simp only [ofId, rows2] at ih
    simp only [ofId, rows2, List.mapIdx_cons, List.filter_cons, Nat.add_right_comm offset _ 1,
      ← Nat.add_assoc] at ih ⊢
    by_cases he : e.id = i
    · simp [he, ih]
    · simp [he, ih]

theorem filter_id_of_nodup {reader2 : List (DBEntry β)} (hnodup : (reader2.map DBEntry.id).Nodup)
    {e : DBEntry β} (he : e ∈ reader2) : reader2.filter (fun e' => decide (e'.id = e.id)) =
      [e] := by
  induction reader2 with
  | nil => cases he
  | cons e' reader2 ih =>
    rw [List.map_cons, List.nodup_cons] at hnodup
    obtain ⟨hnot, hnodup⟩ := hnodup
    cases he with
    | head =>
      rw [List.filter_cons_of_pos (by simp), List.filter_eq_nil_iff.2]
      intro e'' he'' hid
      exact hnot (List.mem_map.2 ⟨e'', he'', of_decide_eq_true hid⟩)
    | tail _ he =>
      have hne : ¬ e'.id = e.id := fun h => hnot (List.mem_map.2 ⟨e, he, h.symm⟩)
      rw [List.filter_cons_of_neg (by simpa using hne), ih hnodup he]

/-- **The rows with an id of table 2** after the sort: its row of table 2, then those of table 1. -/
theorem ofId_sorted {fresh : Nat → α × β} {reader1 : List (DBEntry α)} {reader2 : List (DBEntry β)}
    {rows : List (SortEntry (α × β))}
    (hsort : SortedPerm SortEntry.lt (joinReader fresh reader1 reader2) rows)
    (hnodup : (reader2.map DBEntry.id).Nodup) {e : DBEntry β} (he : e ∈ reader2) :
    ∃ first ts, ofId e.id rows = first :: ts ∧ first.entry.id = e.id ∧
    first.entry.payload.2 = e.payload ∧
      (∃ idx, first.entry.payload.1 = (fresh idx).1) ∧
      List.Perm ts (ofId e.id (rows1 fresh reader1)) := by
  have hperm : List.Perm (ofId e.id rows) (ofId e.id (rows1 fresh reader1) ++
      ofId e.id (rows2 fresh reader1.length reader2)) := by
    rw [ofId, ofId, ofId, ← List.filter_append]
    exact hsort.perm.filter _
  -- the row of table 2
  obtain ⟨first, hfirst⟩ : ∃ first, ofId e.id (rows2 fresh reader1.length reader2) = [first] := by
    have hlen := congrArg List.length (ofId_rows2 fresh reader1.length reader2 e.id)
    rw [filter_id_of_nodup hnodup he, List.length_map] at hlen
    exact List.length_eq_one_iff.1 hlen
  have hmem : first ∈ ofId e.id (rows2 fresh reader1.length reader2) := by
    rw [hfirst]
    exact List.mem_cons_self
  have hid : first.entry.id = e.id := of_decide_eq_true (List.mem_filter.1 hmem).2
  obtain ⟨htable, hfresh⟩ := mem_rows2 (List.mem_filter.1 hmem).1
  have hsecond : first.entry.payload.2 = e.payload := by
    have := ofId_rows2 fresh reader1.length reader2 e.id
    rw [filter_id_of_nodup hnodup he, hfirst] at this
    simpa using this
  -- table 2 comes first
  let p : SortEntry (α × β) → Bool := fun r => decide (r.tableId = 2)
  have hp1 : ∀ r ∈ ofId e.id (rows1 fresh reader1), p r = false := by
    intro r hr
    have := (mem_rows1 (List.mem_filter.1 hr).1).1
    simp [p, this]
  have hpf : p first = true := decide_eq_true htable
  have hp : ∀ r ∈ ofId e.id rows, r.entry.id = e.id ∧ (p r = false → r.tableId = 1) := by
    intro r hr
    refine ⟨of_decide_eq_true (List.mem_filter.1 hr).2, fun hpr => ?_⟩
    rcases List.mem_append.1 (hperm.mem_iff.1 hr) with h | h
    · exact (mem_rows1 (List.mem_filter.1 h).1).1
    · rw [hfirst, List.mem_singleton] at h
      rw [h, hpf] at hpr
      cases hpr
  have happ :=
    Store.pairwise_eq_append (p := p) (hsort.sorted.filter fun r => decide (r.entry.id = e.id))
    fun a ha b hb hpa hpb hab => by
      obtain ⟨hai, -⟩ := hp a ha
      obtain ⟨hbi, hb1⟩ := hp b hb
      have ha2 : a.tableId = 2 := of_decide_eq_true hpa
      simp [SortEntry.lt, hai, hbi, ha2, hb1 hpb] at hab
  change ofId e.id rows = (ofId e.id rows).filter p ++ _ at happ
  have h2 : (ofId e.id rows).filter p = [first] := by
    refine List.perm_singleton.1 ((hperm.filter p).trans ?_)
    rw [List.filter_append, List.filter_eq_nil_iff.2 fun r hr => by simp [hp1 r hr], hfirst]
    simp [hpf]
  have h1 : List.Perm ((ofId e.id rows).filter fun r => !p r)
    (ofId e.id (rows1 fresh reader1)) := by
    refine (hperm.filter _).trans ?_
    rw [List.filter_append, List.filter_eq_self.2 fun r hr => by simp [hp1 r hr], hfirst]
    simp [hpf]
  rw [h2] at happ
  exact ⟨first, _, happ, hid, hsecond, hfresh, h1⟩

/-! ## The join -/

theorem length_joinWrites (rows : List (SortEntry (α × β))) :
    (joinWrites rows).length = rows.length := by
  have hfrom : ∀ (prev : SortEntry (α × β)) rest, (joinWritesFrom prev rest).length =
    rest.length := by
    intro prev rest
    induction rest generalizing prev with
    | nil => rfl
    | cons ele rest ih => simp [joinWritesFrom, ih]
  cases rows with
  | nil => rfl
  | cons ele rest => simp [joinWrites, hfrom]

theorem length_joinReader (fresh : Nat → α × β) (reader1 : List (DBEntry α))
    (reader2 : List (DBEntry β)) :
    (joinReader fresh reader1 reader2).length = reader1.length + reader2.length := by
  simp [joinReader]

theorem sorted_by_id {xs rows : List (SortEntry (α × β))} (h : SortedPerm SortEntry.lt xs rows) :
    rows.Pairwise fun a b => a.entry.id ≤ b.entry.id := by
  refine h.sorted.imp fun {a b} hab => ?_
  simp only [SortEntry.lt, Bool.or_eq_false_iff, decide_eq_false_iff_not] at hab
  omega

theorem length_ofId_rows1 (fresh : Nat → α × β) (reader1 : List (DBEntry α)) (i : Nat) :
    (ofId i (rows1 fresh reader1)).length = (reader1.filter fun e => decide (e.id = i)).length := by
  simpa using congrArg List.length (ofId_rows1 fresh reader1 i)

section Joined

variable [DecidableEq α] [DecidableEq β]

/-- What a join is for: every row of table 1 whose id occurs in table 2 is there with the payload
from table 2, as often as it was in table 1. -/
structure Joined (reader1 : List (DBEntry α)) (reader2 : List (DBEntry β))
    (out : List (DBEntry (α × β))) : Prop where
  length_eq : out.length = reader1.length + reader2.length
  count_le : ∀ e1 ∈ reader1, ∀ e2 ∈ reader2, e1.id = e2.id →
    reader1.count e1 ≤ out.count ⟨(e1.payload, e2.payload), e1.id⟩

/-- An entry is written as often as the writes over the rows of its id have it. -/
theorem count_dbJoin (sort₁ sort₂ : Sorter (@SortEntry.lt (α × β))) (fresh : Nat → α × β)
    (reader1 : List (DBEntry α)) (reader2 : List (DBEntry β)) (out : DBEntry (α × β)) :
    (dbJoin sort₁.run sort₂.run fresh reader1 reader2).count out =
      (joinWrites (ofId out.id (sort₁.run (joinReader fresh reader1 reader2)))).countP
        fun r => decide (r.entry = out) := by
  have hsort := sort₁.spec (joinReader fresh reader1 reader2)
  rw [dbJoin, ((sort₂.spec _).perm.map _).count_eq, ← filter_joinWrites (sorted_by_id hsort), ofId,
    List.countP_filter, List.count, List.countP_map]
  refine List.countP_congr fun r _ => ?_
  simp only [Function.comp_apply, beq_iff_eq, decide_eq_true_eq, Bool.and_eq_true]
  exact ⟨fun h => ⟨h, by rw [h]⟩, fun h => h.1⟩

omit [DecidableEq β] in
/-- How often a row occurs in table 1, counted after the sort. -/
theorem count_reader1 (fresh : Nat → α × β) (reader1 : List (DBEntry α))
    {ts : List (SortEntry (α × β))} (e : DBEntry α)
    (hts : List.Perm ts (ofId e.id (rows1 fresh reader1))) :
    reader1.count e = ts.countP fun r => decide (r.entry.payload.1 = e.payload) := by
  calc reader1.count e
      = ((reader1.filter fun e' => decide (e'.id = e.id)).map DBEntry.payload).count e.payload := by
        rw [List.count, List.count, List.countP_map, List.countP_filter]
        refine List.countP_congr fun e' _ => ?_
        obtain ⟨x, i⟩ := e
        obtain ⟨x', i'⟩ := e'
        simp
    _ = (ts.map fun r => r.entry.payload.1).count e.payload := by
        rw [← ofId_rows1 fresh]
        exact ((hts.map _).count_eq _).symm
    _ = _ := by
        rw [List.count, List.countP_map]
        exact List.countP_congr fun r _ => by simp

/-- Where an id of table 2 occurs at most once in table 1, the row gets the payload. -/
theorem dbJoin_joined (sort₁ sort₂ : Sorter (@SortEntry.lt (α × β))) (fresh : Nat → α × β)
    {reader1 : List (DBEntry α)} {reader2 : List (DBEntry β)}
    (hnodup : (reader2.map DBEntry.id).Nodup)
    (honce : ∀ e2 ∈ reader2, (reader1.filter fun e => decide (e.id = e2.id)).length ≤ 1) :
    Joined reader1 reader2 (dbJoin sort₁.run sort₂.run fresh reader1 reader2) where
  length_eq := by
    rw [dbJoin, List.length_map, (sort₂.spec _).length_eq, length_joinWrites,
      (sort₁.spec _).length_eq, length_joinReader]
  count_le e1 he1 e2 he2 hid := by
    obtain ⟨first, ts, hrows, hfid, hsecond, -, hts⟩ :=
      ofId_sorted (sort₁.spec (joinReader fresh reader1 reader2)) hnodup he2
    rw [← hid] at hrows hts
    have hcount := count_reader1 fresh reader1 e1 hts
    have hlen : ts.length ≤ 1 := by
      rw [hts.length_eq, length_ofId_rows1, hid]
      exact honce e2 he2
    rw [count_dbJoin, hrows, hcount]
    rcases ts with _ | ⟨t, _ | ⟨t', ts⟩⟩
    · exact Nat.zero_le _
    · have htid : t.entry.id = e1.id :=
        of_decide_eq_true (List.mem_filter.1 (hts.mem_iff.1 List.mem_cons_self)).2
      by_cases ht : t.entry.payload.1 = e1.payload
      · simp [joinWrites, joinWritesFrom, hfid, hid, htid, ht, hsecond]
      · simp [ht]
    · simp only [List.length_cons] at hlen
      omega

/-! ## Rows with one id -/

/-- A sort that puts rows with the payload `x` last among those it may choose from. -/
def sorterLast (x : α) : Sorter (@SortEntry.lt (α × β)) :=
  Sorter.byKey (fun r => toLex (r.entry.id, toLex (OrderDual.toDual r.tableId,
    decide (r.entry.payload.1 = x)))) _ fun a b h => by
    simp only [SortEntry.lt, Bool.or_eq_true, Bool.and_eq_true, decide_eq_true_eq] at h
    rcases h with h | ⟨h, h'⟩
    · exact Prod.Lex.toLex_lt_toLex.2 (.inl h)
    · exact Prod.Lex.toLex_lt_toLex.2 (.inr ⟨h, Prod.Lex.toLex_lt_toLex.2 (.inl h')⟩)

omit [DecidableEq β] in
/-- Among the rows of table 1 with one id, those with the payload `x` come last. -/
theorem sorterLast_pairwise (x : α) (xs : List (SortEntry (α × β))) :
    ((sorterLast x).run xs).Pairwise fun a b => a.entry.id = b.entry.id → a.tableId = b.tableId →
      a.entry.payload.1 = x → b.entry.payload.1 = x := by
  refine (Sorter.byKey_pairwise xs).imp fun {a b} hab hid htable ha => ?_
  rcases Prod.Lex.toLex_le_toLex.1 hab with h | ⟨-, h⟩
  · exact absurd hid (Nat.ne_of_lt h)
  · rcases Prod.Lex.toLex_le_toLex.1 h with h | ⟨-, h⟩
    · exact absurd (congrArg OrderDual.toDual htable) (ne_of_lt h)
    · exact of_decide_eq_true (Bool.le_iff_imp.1 h (decide_eq_true ha))

/-- **Two rows of table 1 with one id of table 2**: with a suitable content of the new entries and a
suitable order of equivalent rows one of them does not get its payload. -/
theorem not_joined_of_twice {reader1 : List (DBEntry α)} {reader2 : List (DBEntry β)}
    (hnodup : (reader2.map DBEntry.id).Nodup) {e1 : DBEntry α} (he1 : e1 ∈ reader1) {e2 : DBEntry β}
    (he2 : e2 ∈ reader2) (hid : e1.id = e2.id)
    (htwice : 2 ≤ (reader1.filter fun e => decide (e.id = e2.id)).length) {d : α} {b : β}
    (hd : d ≠ e1.payload) (hb : b ≠ e2.payload) (sort₂ : Sorter (@SortEntry.lt (α × β))) :
    ¬ Joined reader1 reader2
      (dbJoin (sorterLast e1.payload).run sort₂.run (fun _ => (d, b)) reader1 reader2) := by
  intro hjoin
  have hle := hjoin.count_le e1 he1 e2 he2 hid
  obtain ⟨first, ts, hrows, hfid, hsecond, ⟨idx, hfirst⟩, hts⟩ := ofId_sorted
    ((sorterLast e1.payload).spec (joinReader (fun _ => (d, b)) reader1 reader2)) hnodup he2
  have hlast :=
    (sorterLast_pairwise e1.payload (joinReader (fun _ => (d, b)) reader1 reader2)).filter
    fun r => decide (r.entry.id = e2.id)
  change (ofId e2.id _).Pairwise _ at hlast
  rw [hrows, List.pairwise_cons] at hlast
  rw [← hid] at hrows hts
  have hpos : 0 < reader1.count e1 := List.count_pos_iff.2 he1
  rw [count_reader1 _ reader1 e1 hts] at hle hpos
  rw [count_dbJoin, hrows] at hle
  have hlen : 2 ≤ ts.length := by
    rw [hts.length_eq, length_ofId_rows1, hid]
    exact htwice
  have hmem : ∀ r ∈ ts, r.entry.id = e1.id ∧ r.tableId = 1 ∧ r.entry.payload.2 = b := by
    intro r hr
    obtain ⟨hr, hrid⟩ := List.mem_filter.1 (hts.mem_iff.1 hr)
    obtain ⟨htable, idx, hfresh⟩ := mem_rows1 hr
    exact ⟨of_decide_eq_true hrid, htable, hfresh⟩
  obtain ⟨t, ts, rfl⟩ := List.exists_cons_of_length_pos (show 0 < ts.length by omega)
  obtain ⟨htid, htable, htb⟩ := hmem t List.mem_cons_self
  -- only the first row of table 1 can have the payload of table 2
  have hrest : (joinWritesFrom t ts).countP
      (fun r => decide (r.entry = ⟨(e1.payload, e2.payload), e1.id⟩)) = 0 := by
    refine List.countP_eq_zero.2 fun r hr => ?_
    have := second_joinWritesFrom htb (fun r hr => (hmem r (.tail _ hr)).2.2) r hr
    simp only [decide_eq_true_eq]
    rintro h
    rw [h] at this
    exact hb this.symm
  have hfirst' : ¬ first.entry = ⟨(e1.payload, e2.payload), e1.id⟩ := fun h => by
    rw [h] at hfirst
    exact hd hfirst.symm
  have hdup : first.entry.id = t.entry.id := by rw [hfid, ← hid, htid]
  have hout : (joinWrites (first :: t :: ts)).countP
      (fun r => decide (r.entry = ⟨(e1.payload, e2.payload), e1.id⟩)) ≤
        if t.entry.payload.1 = e1.payload then 1 else 0 := by
    rw [joinWrites, List.countP_cons_of_neg (by simpa using hfirst'), joinWritesFrom,
      ← List.singleton_append, List.countP_append, hrest]
    by_cases ht : t.entry.payload.1 = e1.payload
    · rw [if_pos ht]
      exact List.countP_le_length
    · simp [hdup, ht]
  have hle := Nat.le_trans hle hout
  by_cases ht : t.entry.payload.1 = e1.payload
  · -- then all of them have the payload of `e1`
    have hall : (t :: ts).countP (fun r => decide (r.entry.payload.1 = e1.payload)) =
        (t :: ts).length := by
      refine List.countP_eq_length.2 fun r hr => ?_
      cases hr with
      | head => simpa using ht
      | tail _ hr =>
        obtain ⟨hrid, hrtable, -⟩ := hmem r (.tail _ hr)
        have := (List.pairwise_cons.1 hlast.2).1 r hr (htid.trans hrid.symm)
          (htable.trans hrtable.symm) ht
        simpa using this
    rw [hall, if_pos ht] at hle
    omega
  · rw [if_neg ht] at hle
    omega

/-- **When the join propagates**: for distinct ids in table 2, whatever new entries hold and however
the sorts order equivalent rows, exactly when no id of table 2 occurs twice in table 1. -/
theorem dbJoin_joined_iff [Nontrivial α] [Nontrivial β] (reader1 : List (DBEntry α))
    (reader2 : List (DBEntry β)) (hnodup : (reader2.map DBEntry.id).Nodup) :
    (∀ (sort₁ sort₂ : Sorter (@SortEntry.lt (α × β))) (fresh : Nat → α × β),
        Joined reader1 reader2 (dbJoin sort₁.run sort₂.run fresh reader1 reader2)) ↔
      ∀ e2 ∈ reader2, (reader1.filter fun e => decide (e.id = e2.id)).length ≤ 1 := by
  constructor
  · intro hjoin e2 he2
    by_contra htwice
    obtain ⟨e1, he1⟩ := List.exists_mem_of_length_pos
      (show 0 < (reader1.filter fun e => decide (e.id = e2.id)).length by omega)
    obtain ⟨he1, hid⟩ := List.mem_filter.1 he1
    obtain ⟨d, hd⟩ := exists_ne e1.payload
    obtain ⟨b, hb⟩ := exists_ne e2.payload
    exact not_joined_of_twice hnodup he1 he2 (of_decide_eq_true hid) (by omega) hd hb
      (sorterLast e1.payload) (hjoin _ _ _)
  · intro honce sort₁ sort₂ fresh
    exact dbJoin_joined sort₁ sort₂ fresh hnodup honce

end Joined

/-- One row of each table. -/
theorem dbJoin_joined_iff_single :
    (([⟨7, 0⟩] : List (DBEntry Nat)).map DBEntry.id).Nodup ∧
      ∀ (sort₁ sort₂ : Sorter (@SortEntry.lt (Nat × Nat))) (fresh : Nat → Nat × Nat),
        Joined [⟨1, 0⟩, ⟨5, 3⟩] [⟨7, 0⟩]
          (dbJoin sort₁.run sort₂.run fresh [⟨1, 0⟩, ⟨5, 3⟩] [⟨7, 0⟩]) :=
  ⟨by decide, (dbJoin_joined_iff [⟨1, 0⟩, ⟨5, 3⟩] [⟨7, 0⟩] (by decide)).2 (by decide)⟩

/-- Two rows of table 1 with the id of a row of table 2: the second keeps what its entry held. -/
theorem dbJoin_loses_payload :
    ¬ Joined [⟨1, 0⟩, ⟨2, 0⟩] [⟨7, 0⟩]
      (dbJoin (sorterLast 2).run (sorterLast 2).run (fun _ => (0, 0)) [⟨1, 0⟩, ⟨2, 0⟩]
        [⟨7, 0⟩]) := by
  intro hjoin
  have hout : dbJoin (sorterLast 2).run (sorterLast 2).run (fun _ => (0, 0)) [⟨1, 0⟩, ⟨2, 0⟩]
      [⟨7, 0⟩] = [⟨(0, 7), 0⟩, ⟨(1, 7), 0⟩, ⟨(2, 0), 0⟩] := by decide
  have hle := hjoin.count_le ⟨2, 0⟩ (by decide) ⟨7, 0⟩ (by decide) rfl
  rw [hout] at hle
  exact absurd hle (by decide)

end Apps
