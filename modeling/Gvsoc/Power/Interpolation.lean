import Gvsoc.Power.Table

/-! # What a power table lookup computes

The value a table gives is the clamped piecewise-linear interpolant of its
entries: the entry at the query when the query is a key, the first or last
entry outside the key range, and the straight line between the two entries
around the query otherwise. `interpolant` says so in these words; the search
loop and the interpolation of `lookup` compute it on every list sorted by key.
-/

namespace Gvsoc.Power

set_option autoImplicit false

variable {α : Type} [LinearOrderedField α]

/-- The first consecutive entries whose keys lie strictly around `q`. -/
def bracket (q : α) : List (α × α) → Option ((α × α) × (α × α))
  | a :: b :: l => if a.1 < q ∧ q < b.1 then some (a, b) else bracket q (b :: l)
  | _ => none

/-- The clamped piecewise-linear interpolant of entries `e_i` at keys `k_i`:
`e_j` for the first `j` with `k_j = q`, `e_0` below the keys, the last entry
above them, and `e_i + (e_{i+1} - e_i) (q - k_i) / (k_{i+1} - k_i)` for the
`i` with `k_i < q < k_{i+1}`. -/
def interpolant (ps : List (α × α)) (q : α) : Option α :=
  match ps.find? (fun p => p.1 = q), ps.head?, ps.getLast? with
  | some p, _, _ => some p.2
  | none, some first, some last =>
    if q < first.1 then some first.2
    else if last.1 < q then some last.2
    else (bracket q ps).map fun ab => ab.1.2 + (ab.2.2 - ab.1.2) * (q - ab.1.1) / (ab.2.1 - ab.1.1)
  | none, _, _ => none

/-! ## The search loop -/

theorem scanFrom_append (q : α) (pre post : List α) (hpre : ∀ k ∈ pre, k < q)
    (hpost : ∀ k ∈ post.head?, ¬k < q) (i : Nat) (low : Int) :
    scanFrom q (pre ++ post) i low =
      let low' : Int := if pre = [] then low else i + pre.length - 1
      match post with
      | [] => (low', -1)
      | k :: _ => if k = q then (i + pre.length, i + pre.length) else (low', i + pre.length) := by
  induction pre generalizing i low with
  | nil =>
    cases post with
    | nil => rfl
    | cons k ks =>
      have hk : ¬k < q := hpost k rfl
      by_cases hkq : k = q
      · simp [scanFrom, hkq]
      · simp [scanFrom, hkq, lt_of_le_of_ne (not_lt.1 hk) (Ne.symm hkq)]
  | cons a pre ih =>
    have ha := hpre a (List.mem_cons_self a pre)
    have hlow : (if pre = [] then (i : Int) else i + (pre.length + 1 : Nat) - 1) =
        i + (pre.length + 1 : Nat) - 1 := by
      split_ifs with h <;> simp [h]
    have hidx : ((i + 1 : Nat) : Int) + pre.length = i + (pre.length + 1 : Nat) := by omega
    rw [List.cons_append, scanFrom, if_neg ha.ne, if_neg (not_lt.2 ha.le),
      ih (fun k hk => hpre k (List.mem_cons_of_mem a hk))]
    simp only [hlow, hidx, List.length_cons, List.cons_ne_nil, if_false]

theorem scan_append (q : α) (pre post : List α) (hpre : ∀ k ∈ pre, k < q)
    (hpost : ∀ k ∈ post.head?, ¬k < q) :
    scan (pre ++ post) q =
      match post with
      | [] => ((pre.length : Int) - 1, -1)
      | k :: _ => if k = q then (pre.length, pre.length) else (pre.length - 1, pre.length) := by
  have hlow : (if pre = [] then (-1 : Int) else pre.length - 1) = pre.length - 1 := by
    split_ifs with h <;> simp [h]
  rw [scan, scanFrom_append q pre post hpre hpost]
  cases post <;> simp only [Nat.cast_zero, zero_add, hlow]

theorem clampIndices_of_ne {low high : Int} (hlow : low ≠ -1) (hhigh : high ≠ -1) :
    clampIndices (low, high) = (low, high) := by
  simp only [clampIndices, if_neg hlow, if_neg hhigh]

theorem clampIndices_high_unset {low : Int} (hlow : low ≠ -1) : clampIndices (low, -1) = (low, low) := by
  simp only [clampIndices, if_true, if_neg hlow]

theorem clampIndices_low_unset {high : Int} (hhigh : high ≠ -1) :
    clampIndices (-1, high) = (high, high) := by
  simp only [clampIndices, if_neg hhigh, if_true]

theorem clampIndices_scan_above (q : α) (pre : List α) (lo : α) (hpre : ∀ k ∈ pre ++ [lo], k < q) :
    clampIndices (scan (pre ++ [lo]) q) = ((pre.length : Int), (pre.length : Int)) := by
  have h := scan_append q (pre ++ [lo]) [] hpre fun _ h => absurd h (Option.not_mem_none _)
  simp only [List.append_nil, List.length_append, List.length_singleton, Nat.cast_add, Nat.cast_one,
    add_sub_cancel_right] at h
  rw [h, clampIndices_high_unset (by omega)]

theorem clampIndices_scan_at (q : α) (pre rest : List α) (hpre : ∀ k ∈ pre, k < q) :
    clampIndices (scan (pre ++ q :: rest) q) = ((pre.length : Int), (pre.length : Int)) := by
  have h := scan_append q pre (q :: rest) hpre fun _ h => Option.mem_some_iff.1 h ▸ lt_irrefl q
  simp only [if_true] at h
  rw [h, clampIndices_of_ne (by omega) (by omega)]

theorem clampIndices_scan_below (q k : α) (rest : List α) (hk : q < k) :
    clampIndices (scan (k :: rest) q) = (0, 0) := by
  have h := scan_append q [] (k :: rest) (fun _ h => absurd h (List.not_mem_nil _))
    fun _ h => Option.mem_some_iff.1 h ▸ not_lt.2 hk.le
  simp only [List.nil_append, if_neg hk.ne', List.length_nil, Nat.cast_zero, zero_sub] at h
  rw [h, clampIndices_low_unset (by decide)]

theorem clampIndices_scan_between (q : α) (pre : List α) (lo k : α) (rest : List α)
    (hpre : ∀ x ∈ pre ++ [lo], x < q) (hk : q < k) :
    clampIndices (scan (pre ++ lo :: k :: rest) q) =
      ((pre.length : Int), (pre.length : Int) + 1) := by
  have h := scan_append q (pre ++ [lo]) (k :: rest) hpre
    fun _ h => Option.mem_some_iff.1 h ▸ not_lt.2 hk.le
  simp only [List.append_assoc, List.singleton_append, if_neg hk.ne', List.length_append,
    List.length_singleton, Nat.cast_add, Nat.cast_one, add_sub_cancel_right] at h
  rw [h, clampIndices_of_ne (by omega) (by omega)]

theorem entryAt_append_length {β : Type} (pre post : List β) :
    entryAt (pre ++ post) pre.length = post.head? := by
  simp only [entryAt, Int.ofNat_nonneg, if_true, Int.toNat_ofNat,
    List.getElem?_append_right (le_refl _), Nat.sub_self]
  cases post <;> simp

section Lookup

variable {β : Type} (key : β → α) (entry : β → Option α) (q : α)

/-- Above every key, `lookup` takes the last entry. -/
theorem lookup_above (pre : List β) (lo : β) (hpre : ∀ b ∈ pre ++ [lo], key b < q) :
    lookup (pre ++ [lo]) key entry q = entry lo := by
  have hkeys : ∀ k ∈ (pre ++ [lo]).map key, k < q := List.forall_mem_map.2 hpre
  rw [List.map_append, List.map_singleton] at hkeys
  have hb : clampIndices (scan ((pre ++ [lo]).map key) q) =
      ((pre.length : Int), (pre.length : Int)) := by
    rw [List.map_append, List.map_singleton, clampIndices_scan_above q _ _ hkeys, List.length_map]
  simp only [lookup, hb, if_true]
  rw [entryAt_append_length]
  rfl

/-- At a key, `lookup` takes the entry of the first table with that key. -/
theorem lookup_at (pre rest : List β) (hi : β) (hpre : ∀ b ∈ pre, key b < q) (hq : key hi = q) :
    lookup (pre ++ hi :: rest) key entry q = entry hi := by
  have hb : clampIndices (scan ((pre ++ hi :: rest).map key) q) =
      ((pre.length : Int), (pre.length : Int)) := by
    rw [List.map_append, List.map_cons, hq, clampIndices_scan_at q _ _ (List.forall_mem_map.2 hpre),
      List.length_map]
  simp only [lookup, hb, if_true]
  rw [entryAt_append_length]
  rfl

/-- Below every key, `lookup` takes the first entry. -/
theorem lookup_below (rest : List β) (hi : β) (hq : q < key hi) :
    lookup (hi :: rest) key entry q = entry hi := by
  have hb : clampIndices (scan ((hi :: rest).map key) q) = (0, 0) := by
    rw [List.map_cons]
    exact clampIndices_scan_below q _ _ hq
  simp only [lookup, hb, if_true]
  simp [entryAt]

/-- Strictly between the keys of two neighbouring tables, `lookup` interpolates
between their entries. -/
theorem lookup_between (pre rest : List β) (lo hi : β) (hpre : ∀ b ∈ pre ++ [lo], key b < q)
    (hq : q < key hi) :
    lookup (pre ++ lo :: hi :: rest) key entry q =
      (entry lo).bind fun valueAtLow => (entry hi).bind fun valueAtHigh =>
        some ((valueAtHigh - valueAtLow) * ((q - key lo) / (key hi - key lo)) + valueAtLow) := by
  have hkeys : ∀ k ∈ (pre ++ [lo]).map key, k < q := List.forall_mem_map.2 hpre
  rw [List.map_append, List.map_singleton] at hkeys
  have hb : clampIndices (scan ((pre ++ lo :: hi :: rest).map key) q) =
      ((pre.length : Int), (pre.length : Int) + 1) := by
    rw [List.map_append, List.map_cons, List.map_cons,
      clampIndices_scan_between q _ _ _ _ hkeys hq, List.length_map]
  have hlo := entryAt_append_length pre (lo :: hi :: rest)
  have hhi := entryAt_append_length (pre ++ [lo]) (hi :: rest)
  simp only [List.append_assoc, List.singleton_append, List.length_append, List.length_singleton,
    Nat.cast_add, Nat.cast_one] at hhi
  simp only [lookup, hb, hlo, hhi, List.head?_cons, if_neg (ne_of_gt (lt_add_one (pre.length : Int)))]
  rfl

end Lookup

/-! ## The interpolant on a sorted list -/

section Interpolant

variable (q : α)

theorem above_of_sorted {hi : α × α} {rest : List (α × α)}
    (hs : ((hi :: rest).map Prod.fst).Sorted (· ≤ ·)) (hq : q < hi.1) :
    ∀ p ∈ hi :: rest, q < p.1 := by
  have hrest := List.rel_of_sorted_cons hs
  simp only [List.mem_map, forall_exists_index, and_imp, forall_apply_eq_imp_iff₂] at hrest
  exact fun p hp => (List.mem_cons.1 hp).elim (fun h => h ▸ hq) fun h => hq.trans_le (hrest p h)

theorem bracket_append (pre rest : List (α × α)) (lo hi : α × α)
    (hpre : ∀ p ∈ pre ++ [lo], p.1 < q) (hq : q < hi.1) :
    bracket q (pre ++ lo :: hi :: rest) = some (lo, hi) := by
  induction pre with
  | nil => simp [bracket, hpre lo (by simp), hq]
  | cons a pre ih =>
    obtain ⟨b, l, hbl, hb⟩ : ∃ b l, pre ++ lo :: hi :: rest = b :: l ∧ b.1 < q := by
      cases pre with
      | nil => exact ⟨lo, hi :: rest, rfl, hpre lo (by simp)⟩
      | cons c pre => exact ⟨c, pre ++ lo :: hi :: rest, rfl, hpre c (by simp)⟩
    rw [List.cons_append, hbl, bracket, if_neg fun h => absurd h.2 (not_lt.2 hb.le), ← hbl]
    exact ih fun p hp => hpre p (List.mem_cons_of_mem a hp)

theorem interpolant_above (pre : List (α × α)) (lo : α × α) (hpre : ∀ p ∈ pre ++ [lo], p.1 < q) :
    interpolant (pre ++ [lo]) q = some lo.2 := by
  have hnone : (pre ++ [lo]).find? (fun p => p.1 = q) = none :=
    List.find?_eq_none.2 fun p hp => by simpa using (hpre p hp).ne
  obtain ⟨first, hfirst⟩ : ∃ first, (pre ++ [lo]).head? = some first := by cases pre <;> simp
  have hfirst_lt := hpre first (List.mem_of_mem_head? hfirst)
  simp [interpolant, hnone, hfirst, not_lt.2 hfirst_lt.le, hpre lo (by simp)]

theorem interpolant_at (pre rest : List (α × α)) (hi : α × α) (hpre : ∀ p ∈ pre, p.1 < q)
    (hq : hi.1 = q) :
    interpolant (pre ++ hi :: rest) q = some hi.2 := by
  have hfind : (pre ++ hi :: rest).find? (fun p => p.1 = q) = some hi := by
    rw [List.find?_append, List.find?_eq_none.2 fun p hp => by simpa using (hpre p hp).ne]
    simp [hq]
  simp [interpolant, hfind]

theorem interpolant_below (rest : List (α × α)) (hi : α × α)
    (hs : ((hi :: rest).map Prod.fst).Sorted (· ≤ ·)) (hq : q < hi.1) :
    interpolant (hi :: rest) q = some hi.2 := by
  have hnone : (hi :: rest).find? (fun p => p.1 = q) = none :=
    List.find?_eq_none.2 fun p hp => by simpa using (above_of_sorted q hs hq p hp).ne'
  obtain ⟨last, hlast⟩ : ∃ last, (hi :: rest).getLast? = some last :=
    ⟨_, List.getLast?_eq_getLast _ (List.cons_ne_nil _ _)⟩
  simp [interpolant, hnone, hlast, hq]

theorem interpolant_between (pre rest : List (α × α)) (lo hi : α × α)
    (hs : ((hi :: rest).map Prod.fst).Sorted (· ≤ ·)) (hpre : ∀ p ∈ pre ++ [lo], p.1 < q)
    (hq : q < hi.1) :
    interpolant (pre ++ lo :: hi :: rest) q =
      some (lo.2 + (hi.2 - lo.2) * (q - lo.1) / (hi.1 - lo.1)) := by
  have habove := above_of_sorted q hs hq
  have hnone : (pre ++ lo :: hi :: rest).find? (fun p => p.1 = q) = none := by
    refine List.find?_eq_none.2 fun p hp => ?_
    rw [← List.singleton_append, ← List.append_assoc, List.mem_append] at hp
    simpa using hp.elim (fun h => (hpre p h).ne) fun h => (habove p h).ne'
  obtain ⟨first, hfirst, hfirst_lt⟩ :
      ∃ first, (pre ++ lo :: hi :: rest).head? = some first ∧ first.1 < q := by
    cases pre with
    | nil => exact ⟨lo, rfl, hpre lo (by simp)⟩
    | cons a pre => exact ⟨a, rfl, hpre a (by simp)⟩
  obtain ⟨last, hlast⟩ : ∃ last, (pre ++ lo :: hi :: rest).getLast? = some last ∧ last ∈ hi :: rest := by
    refine ⟨(hi :: rest).getLast (List.cons_ne_nil _ _), ?_, List.getLast_mem _⟩
    rw [← List.singleton_append, ← List.append_assoc, List.getLast?_append_of_ne_nil _ (List.cons_ne_nil _ _),
      List.getLast?_eq_getLast _ (List.cons_ne_nil _ _)]
  simp [interpolant, hnone, hfirst, hlast.1, not_lt.2 hfirst_lt.le, not_lt.2 (habove last hlast.2).le,
    bracket_append q pre rest lo hi hpre hq]

end Interpolant

/-! ## `lookup` computes the interpolant -/

theorem exists_split_below {β : Type} (key : β → α) (q : α) (tables : List β) :
    ∃ pre post, tables = pre ++ post ∧ (∀ b ∈ pre, key b < q) ∧ ∀ b ∈ post.head?, ¬key b < q := by
  induction tables with
  | nil => exact ⟨[], [], rfl, List.forall_mem_nil _, fun _ h => absurd h (Option.not_mem_none _)⟩
  | cons b bs ih =>
    by_cases hb : key b < q
    · obtain ⟨pre, post, rfl, hpre, hpost⟩ := ih
      exact ⟨b :: pre, post, rfl, List.forall_mem_cons.2 ⟨hb, hpre⟩, hpost⟩
    · exact ⟨[], b :: bs, rfl, List.forall_mem_nil _, fun _ h => Option.mem_some_iff.1 h ▸ hb⟩

/-! ## Where the search loop stops -/

theorem entryAt_append_length_cons {β : Type} (pre rest : List β) (a : β) :
    entryAt (pre ++ a :: rest) pre.length = some a := by
  rw [entryAt_append_length]
  rfl

theorem entryAt_append_ne {q : α} {pre : List α} (post : List α) (hpre : ∀ k ∈ pre, k < q) {j : Int}
    (hj : j < pre.length) : entryAt (pre ++ post) j ≠ some q := by
  unfold entryAt
  split_ifs with h0
  · rw [List.getElem?_append_left (by omega), List.getElem?_eq_getElem (by omega)]
    exact fun h => (hpre _ (List.getElem_mem _)).ne (Option.some_inj.1 h)
  · exact fun h => Option.some_ne_none q h.symm

/-- After the search loop and its two clamping steps, on any non-empty keys and
any query, both indices are in range, and either they are equal, at the first
key equal to the query, at the first key when the query is below it, or at the
last key when the query is above every key, or they are neighbours whose keys
lie strictly around the query, so that the interpolation divides by a nonzero
difference. The keys need not be sorted. -/
theorem scan_brackets (keys : List α) (hne : keys ≠ []) (q : α) (low high : Int)
    (hb : clampIndices (scan keys q) = (low, high)) :
    0 ≤ low ∧ low ≤ high ∧ high ≤ keys.length - 1 ∧
      ((low = high ∧ ∃ k, entryAt keys low = some k ∧
          ((k = q ∧ ∀ j < low, entryAt keys j ≠ some q) ∨ (q < k ∧ low = 0) ∨
            (k < q ∧ low = keys.length - 1))) ∨
        (high = low + 1 ∧ ∃ kLow kHigh, entryAt keys low = some kLow ∧
          entryAt keys high = some kHigh ∧ kLow < q ∧ q < kHigh ∧ kHigh - kLow ≠ 0)) := by
  obtain ⟨pre, post, rfl, hpre, hpost⟩ := exists_split_below id q keys
  rcases post with _ | ⟨k, rest⟩
  · obtain ⟨pre, lo, rfl⟩ := (List.eq_nil_or_concat pre).resolve_left (by simpa using hne)
    rw [List.concat_eq_append, List.append_nil] at *
    have hlo : lo < q := hpre lo (List.mem_append_right pre (List.mem_singleton_self lo))
    obtain ⟨rfl, rfl⟩ := Prod.mk.inj ((clampIndices_scan_above q pre lo hpre).symm.trans hb)
    refine ⟨by omega, le_rfl, by simp, .inl ⟨rfl, lo, entryAt_append_length_cons pre [] lo,
      .inr (.inr ⟨hlo, by simp⟩)⟩⟩
  · by_cases hkq : k = q
    · subst hkq
      obtain ⟨rfl, rfl⟩ := Prod.mk.inj ((clampIndices_scan_at _ pre rest hpre).symm.trans hb)
      refine ⟨by omega, le_rfl, by simp only [List.length_append, List.length_cons, List.length_nil]; omega, .inl ⟨rfl, _, entryAt_append_length_cons pre rest _,
        .inl ⟨rfl, fun j hj => entryAt_append_ne _ hpre hj⟩⟩⟩
    · have hlt : q < k := lt_of_le_of_ne (not_lt.1 (hpost k rfl)) (Ne.symm hkq)
      rcases List.eq_nil_or_concat pre with rfl | ⟨pre, lo, rfl⟩
      · obtain ⟨rfl, rfl⟩ := Prod.mk.inj ((clampIndices_scan_below q k rest hlt).symm.trans hb)
        exact ⟨le_rfl, le_rfl, by simp, .inl ⟨rfl, k, entryAt_append_length_cons [] rest k,
          .inr (.inl ⟨hlt, rfl⟩)⟩⟩
      · rw [List.concat_eq_append] at *
        have hlo : lo < q := hpre lo (List.mem_append_right pre (List.mem_singleton_self lo))
        have hhi := entryAt_append_length_cons (pre ++ [lo]) rest k
        simp only [List.append_assoc, List.singleton_append, List.length_append, List.length_singleton,
          Nat.cast_add, Nat.cast_one] at hb hhi ⊢
        obtain ⟨rfl, rfl⟩ := Prod.mk.inj ((clampIndices_scan_between q pre lo k rest hpre hlt).symm.trans hb)
        exact ⟨by omega, by omega, by simp only [List.length_append, List.length_cons, List.length_nil]; omega, .inr ⟨rfl, lo, k, entryAt_append_length_cons pre _ lo,
          hhi, hlo, hlt, sub_ne_zero.2 (hlo.trans hlt).ne'⟩⟩

/-- A repeated key, queried at its value. -/
theorem scan_brackets_repeated_key :
    ([1, 2, 2, 3] : List ℚ) ≠ [] ∧ clampIndices (scan ([1, 2, 2, 3] : List ℚ) 2) = (1, 1) ∧
      (0 ≤ (1 : Int) ∧ (1 : Int) ≤ 1 ∧ (1 : Int) ≤ ([1, 2, 2, 3] : List ℚ).length - 1 ∧
        (((1 : Int) = 1 ∧ ∃ k, entryAt ([1, 2, 2, 3] : List ℚ) 1 = some k ∧
            ((k = 2 ∧ ∀ j < (1 : Int), entryAt ([1, 2, 2, 3] : List ℚ) j ≠ some 2) ∨ (2 < k ∧ (1 : Int) = 0) ∨
              (k < 2 ∧ (1 : Int) = ([1, 2, 2, 3] : List ℚ).length - 1))) ∨
          ((1 : Int) = 1 + 1 ∧ ∃ kLow kHigh, entryAt ([1, 2, 2, 3] : List ℚ) 1 = some kLow ∧
            entryAt ([1, 2, 2, 3] : List ℚ) 1 = some kHigh ∧ kLow < 2 ∧ 2 < kHigh ∧ kHigh - kLow ≠ 0))) :=
  ⟨by simp, by decide, scan_brackets [1, 2, 2, 3] (by simp) 2 1 1 (by decide)⟩

/-- On tables sorted by key whose entries are `f`, `lookup` gives the
interpolant of the entries. -/
theorem lookup_eq_interpolant {β : Type} (tables : List β) (key : β → α) (entry : β → Option α)
    (f : β → α) (hs : (tables.map key).Sorted (· ≤ ·)) (hne : tables ≠ [])
    (hf : ∀ b ∈ tables, entry b = some (f b)) (q : α) :
    ∃ x, lookup tables key entry q = some x ∧
      interpolant (tables.map fun b => (key b, f b)) q = some x := by
  obtain ⟨pre, post, rfl, hpre, hpost⟩ := exists_split_below key q tables
  have hsPost : ((post.map fun b => (key b, f b)).map Prod.fst).Sorted (· ≤ ·) := by
    simpa [List.map_map] using (List.pairwise_append.1 (List.map_append key pre post ▸ hs)).2.1
  have hpre' : ∀ p ∈ pre.map fun b => (key b, f b), p.1 < q := List.forall_mem_map.2 hpre
  rcases post with _ | ⟨hi, rest⟩
  · obtain ⟨pre, lo, rfl⟩ := (List.eq_nil_or_concat pre).resolve_left (by simpa using hne)
    rw [List.concat_eq_append, List.append_nil] at *
    rw [List.map_append, List.map_singleton] at hpre' ⊢
    exact ⟨f lo, (lookup_above key entry q pre lo hpre).trans (hf lo (by simp)),
      interpolant_above q _ _ hpre'⟩
  · have hf' := fun b hb => hf b (List.mem_append.2 (.inr hb))
    rw [List.map_append, List.map_cons]
    by_cases hq : key hi = q
    · exact ⟨f hi, (lookup_at key entry q pre rest hi hpre hq).trans (hf' hi (by simp)),
        interpolant_at q _ _ _ hpre' hq⟩
    · have hlt : q < key hi := lt_of_le_of_ne (not_lt.1 (hpost hi rfl)) (Ne.symm hq)
      rcases List.eq_nil_or_concat pre with rfl | ⟨pre, lo, rfl⟩
      · exact ⟨f hi, (lookup_below key entry q rest hi hlt).trans (hf' hi (by simp)),
          interpolant_below q _ _ hsPost hlt⟩
      · rw [List.concat_eq_append] at *
        rw [List.map_append, List.map_singleton] at hpre' ⊢
        simp only [List.append_assoc, List.singleton_append]
        refine ⟨f lo + (f hi - f lo) * (q - key lo) / (key hi - key lo), ?_,
          interpolant_between q _ _ _ _ hsPost hpre' hlt⟩
        rw [lookup_between key entry q pre rest lo hi hpre hlt, hf lo (by simp), hf' hi (by simp)]
        simp only [Option.some_bind, Option.some.injEq]
        rw [← mul_div_assoc, add_comm]

theorem mapM_eq_some {β γ : Type} (g : β → Option γ) (f : β → γ) (l : List β)
    (h : ∀ b ∈ l, g b = some (f b)) : l.mapM g = some (l.map f) := by
  induction l with
  | nil => rfl
  | cons b l ih =>
    rw [List.mapM_cons, h b (List.mem_cons_self b l), ih fun c hc => h c (List.mem_cons_of_mem b hc)]
    rfl

/-- One level of a table: when every sub-table gives by `entry` the value
`spec` gives it, `lookup` gives the interpolant of these values at their keys. -/
theorem lookup_spec {β : Type} (tables : List β) (key : β → α) (entry spec : β → Option α)
    (hs : (tables.map key).Sorted (· ≤ ·)) (hne : tables ≠ [])
    (h : ∀ b ∈ tables, ∃ x, entry b = some x ∧ spec b = some x) (q : α) :
    ∃ x, lookup tables key entry q = some x ∧
      ((tables.mapM fun b => (spec b).map fun e => (key b, e)).bind (interpolant · q)) = some x := by
  have hf : ∀ b ∈ tables, entry b = some ((entry b).getD 0) := fun b hb => by
    obtain ⟨x, hx, -⟩ := h b hb
    simp [hx]
  have hspec : ∀ b ∈ tables, (spec b).map (fun e => (key b, e)) = some (key b, (entry b).getD 0) :=
    fun b hb => by
      obtain ⟨x, hx, hs⟩ := h b hb
      simp [hx, hs]
  rw [mapM_eq_some _ _ tables hspec, Option.some_bind]
  exact lookup_eq_interpolant tables key entry _ hs hne hf q

/-! ## The three levels -/

/-- A voltage table interpolated at `frequency`: its `any` value, or else the
clamped piecewise-linear interpolant of its frequency entries. -/
def PowerLinearVoltTable.interpolated (v : PowerLinearVoltTable α) (frequency : α) : Option α :=
  match v.any with
  | some any => some any.value
  | none => interpolant (v.freqTables.map fun f => (f.freq, f.value)) frequency

/-- A temperature table interpolated: the clamped piecewise-linear
interpolant at `volt` of its voltage tables interpolated at `frequency`. -/
def PowerLinearTempTable.interpolated (t : PowerLinearTempTable α) (volt frequency : α) :
    Option α :=
  (t.voltTables.mapM fun (v : PowerLinearVoltTable α) =>
    (v.interpolated frequency).map fun e => (v.volt, e)).bind
    (interpolant · volt)

/-- A power table interpolated: the clamped piecewise-linear interpolant at
`temp` of its temperature tables interpolated at `volt` and `frequency`. -/
def PowerLinearTable.interpolated (t : PowerLinearTable α) (temp volt frequency : α) : Option α :=
  (t.tempTables.mapM fun (tt : PowerLinearTempTable α) =>
    (tt.interpolated volt frequency).map fun e => (tt.temp, e)).bind
    (interpolant · temp)

/-- A voltage table as its constructor leaves it, with an entry: frequency
tables sorted, and an `any` entry or a frequency table. -/
structure PowerLinearVoltTable.WellFormed (v : PowerLinearVoltTable α) : Prop where
  sorted : (v.freqTables.map (·.freq)).Sorted (· ≤ ·)
  nonempty : v.any.isSome ∨ v.freqTables ≠ []

/-- A temperature table as its constructor leaves it, with a voltage table. -/
structure PowerLinearTempTable.WellFormed (t : PowerLinearTempTable α) : Prop where
  sorted : (t.voltTables.map (·.volt)).Sorted (· ≤ ·)
  nonempty : t.voltTables ≠ []
  voltTables : ∀ v ∈ t.voltTables, v.WellFormed

/-- A power table as its constructor leaves it, with a temperature table. -/
structure PowerLinearTable.WellFormed (t : PowerLinearTable α) : Prop where
  sorted : (t.tempTables.map (·.temp)).Sorted (· ≤ ·)
  nonempty : t.tempTables ≠ []
  tempTables : ∀ tt ∈ t.tempTables, tt.WellFormed

theorem PowerLinearVoltTable.get_spec {v : PowerLinearVoltTable α} (hv : v.WellFormed)
    (frequency : α) : ∃ x, v.get frequency = some x ∧ v.interpolated frequency = some x := by
  unfold get interpolated
  cases ha : v.any with
  | some any => exact ⟨any.value, rfl, rfl⟩
  | none =>
    exact lookup_eq_interpolant v.freqTables (·.freq) (fun f => some f.get) (·.value) hv.sorted
      (hv.nonempty.resolve_left (by simp [ha])) (fun _ _ => rfl) frequency

theorem PowerLinearTempTable.get_spec {t : PowerLinearTempTable α} (ht : t.WellFormed)
    (volt frequency : α) :
    ∃ x, t.get volt frequency = some x ∧ t.interpolated volt frequency = some x :=
  lookup_spec t.voltTables (·.volt) (·.get frequency) (·.interpolated frequency) ht.sorted
    ht.nonempty (fun v hv => PowerLinearVoltTable.get_spec (ht.voltTables v hv) frequency) volt

theorem PowerLinearTable.get_spec {t : PowerLinearTable α} (ht : t.WellFormed)
    (temp volt frequency : α) :
    ∃ x, t.get temp volt frequency = some x ∧ t.interpolated temp volt frequency = some x :=
  lookup_spec t.tempTables (·.temp) (·.get volt frequency) (·.interpolated volt frequency)
    ht.sorted ht.nonempty
    (fun tt htt => PowerLinearTempTable.get_spec (ht.tempTables tt htt) volt frequency) temp

end Gvsoc.Power
