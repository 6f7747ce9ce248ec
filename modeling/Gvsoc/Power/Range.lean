import Gvsoc.Power.Construction

/-! # The range of a power table

`get` never extrapolates: whatever the query, the value it returns lies
between the least and the greatest power value of the table. The search loop
brackets the query between the keys of two neighbouring tables whether or not
they are sorted, so every interpolation it makes is a convex combination of
two entries, and a query outside the keys takes the nearest entry.
-/

namespace Gvsoc.Power

set_option autoImplicit false

variable {α : Type} [LinearOrderedField α]

/-- The power values of a voltage table: its `any` entry and its frequency
tables. -/
def PowerLinearVoltTable.values (v : PowerLinearVoltTable α) : List α :=
  (v.any.map PowerLinearFreqTable.get).toList ++ v.freqTables.map PowerLinearFreqTable.get

/-- The power values of a temperature table. -/
def PowerLinearTempTable.values (t : PowerLinearTempTable α) : List α :=
  t.voltTables.flatMap PowerLinearVoltTable.values

/-- The power values of a power table. -/
def PowerLinearTable.values (t : PowerLinearTable α) : List α :=
  t.tempTables.flatMap PowerLinearTempTable.values

section Range

variable (lo hi : α)

theorem interpolate_mem_Icc {a b r : α} (ha : lo ≤ a ∧ a ≤ hi) (hb : lo ≤ b ∧ b ≤ hi) (hr0 : 0 ≤ r)
    (hr1 : r ≤ 1) : lo ≤ (b - a) * r + a ∧ (b - a) * r + a ≤ hi := by
  have hlo : (b - a) * r + a - lo = r * (b - lo) + (1 - r) * (a - lo) := by ring
  have hhi : hi - ((b - a) * r + a) = r * (hi - b) + (1 - r) * (hi - a) := by ring
  constructor
  · rw [← sub_nonneg, hlo]
    exact add_nonneg (mul_nonneg hr0 (sub_nonneg.2 hb.1)) (mul_nonneg (sub_nonneg.2 hr1) (sub_nonneg.2 ha.1))
  · rw [← sub_nonneg, hhi]
    exact add_nonneg (mul_nonneg hr0 (sub_nonneg.2 hb.2)) (mul_nonneg (sub_nonneg.2 hr1) (sub_nonneg.2 ha.2))

/-- `lookup` gives a value of `[lo, hi]` when every entry it may take does. -/
theorem lookup_mem_Icc {β : Type} (tables : List β) (key : β → α) (entry : β → Option α) (q : α)
    (h : ∀ b ∈ tables, ∀ x ∈ entry b, lo ≤ x ∧ x ≤ hi) :
    ∀ x ∈ lookup tables key entry q, lo ≤ x ∧ x ≤ hi := by
  obtain ⟨pre, post, rfl, hpre, hpost⟩ := exists_split_below key q tables
  rcases post with _ | ⟨b, rest⟩
  · rcases List.eq_nil_or_concat pre with rfl | ⟨pre, a, rfl⟩
    · exact fun x hx => (Option.not_mem_none x hx).elim
    · rw [List.concat_eq_append, List.append_nil] at *
      rw [lookup_above key entry q pre a hpre]
      exact h a (List.mem_append_right pre (List.mem_singleton_self a))
  · have hb := h b (List.mem_append_right pre (List.mem_cons_self b rest))
    by_cases hq : key b = q
    · rw [lookup_at key entry q pre rest b hpre hq]
      exact hb
    · have hlt : q < key b := lt_of_le_of_ne (not_lt.1 (hpost b rfl)) (Ne.symm hq)
      rcases List.eq_nil_or_concat pre with rfl | ⟨pre, a, rfl⟩
      · rw [List.nil_append, lookup_below key entry q rest b hlt]
        exact hb
      · rw [List.concat_eq_append] at *
        rw [List.append_assoc, List.singleton_append, lookup_between key entry q pre rest a b hpre hlt]
        have haMem : a ∈ pre ++ [a] := List.mem_append_right pre (List.mem_singleton_self a)
        have ha : key a < q := hpre a haMem
        have hd : 0 < key b - key a := sub_pos.2 (ha.trans hlt)
        intro x hx
        obtain ⟨va, hva, hx⟩ := Option.bind_eq_some.1 hx
        obtain ⟨vb, hvb, hx⟩ := Option.bind_eq_some.1 hx
        rw [← Option.some_inj.1 hx]
        exact interpolate_mem_Icc lo hi (h a (List.mem_append_left _ haMem) va hva) (hb vb hvb)
          (div_nonneg (sub_nonneg.2 ha.le) hd.le) ((div_le_one hd).2 (sub_le_sub_right hlt.le _))

theorem PowerLinearVoltTable.get_mem_Icc (v : PowerLinearVoltTable α)
    (h : ∀ y ∈ v.values, lo ≤ y ∧ y ≤ hi) (frequency : α) :
    ∀ x ∈ v.get frequency, lo ≤ x ∧ x ≤ hi := by
  unfold PowerLinearVoltTable.get
  split
  · rename_i any hany
    intro x hx
    rw [← Option.mem_some_iff.1 hx]
    exact h _ (List.mem_append_left _ (by simp [hany]))
  · exact lookup_mem_Icc lo hi _ _ _ _ fun f hf x hx => by
      rw [← Option.mem_some_iff.1 hx]
      exact h _ (List.mem_append_right _ (List.mem_map_of_mem _ hf))

theorem PowerLinearTempTable.get_mem_Icc (t : PowerLinearTempTable α)
    (h : ∀ y ∈ t.values, lo ≤ y ∧ y ≤ hi) (volt frequency : α) :
    ∀ x ∈ t.get volt frequency, lo ≤ x ∧ x ≤ hi :=
  lookup_mem_Icc lo hi _ _ _ _ fun v hv =>
    v.get_mem_Icc lo hi (fun y hy => h y (List.mem_flatMap.2 ⟨v, hv, hy⟩)) frequency

end Range

/-- Whatever the temperature, voltage and frequency, a power table gives a
value between any two bounds of all its power values. -/
theorem get_within_values (t : PowerLinearTable α) (lo hi : α) (h : ∀ y ∈ t.values, lo ≤ y ∧ y ≤ hi)
    (temp volt frequency : α) :
    ∀ x, t.get temp volt frequency = some x → lo ≤ x ∧ x ≤ hi :=
  lookup_mem_Icc lo hi _ _ _ _ fun tt htt =>
    tt.get_mem_Icc lo hi (fun y hy => h y (List.mem_flatMap.2 ⟨tt, htt, hy⟩)) volt frequency

/-- A table with one temperature and one voltage whose `any` entry is 3,
queried below its temperature. -/
theorem get_within_values_any :
    let t : PowerLinearTable ℚ := ⟨[⟨25, [⟨1, some ⟨0, 3⟩, []⟩]⟩]⟩
    (∀ y ∈ t.values, 0 ≤ y ∧ y ≤ 5) ∧ t.get 20 1 100 = some 3 ∧
      ∀ x, t.get 20 1 100 = some x → 0 ≤ x ∧ x ≤ 5 := by
  intro t
  have hvals : ∀ y ∈ t.values, 0 ≤ y ∧ y ≤ 5 := by
    intro y hy
    simp only [t, PowerLinearTable.values, PowerLinearTempTable.values, PowerLinearVoltTable.values,
      List.flatMap_cons, List.flatMap_nil, Option.map_some', Option.toList_some, List.map_nil,
      List.append_nil, List.mem_singleton] at hy
    subst hy
    norm_num [PowerLinearFreqTable.get]
  have hTemp := lookup_below (fun tt : PowerLinearTempTable ℚ => tt.temp)
    (fun tt => tt.get 1 100) (20 : ℚ) [] ⟨25, [⟨1, some ⟨0, 3⟩, []⟩]⟩ (by norm_num)
  have hVolt := lookup_at (fun v : PowerLinearVoltTable ℚ => v.volt) (fun v => v.get 100) (1 : ℚ) []
    [] ⟨1, some ⟨0, 3⟩, []⟩ (by simp) rfl
  have hget : t.get 20 1 100 = some 3 := by
    simp only [List.nil_append] at hVolt
    simp only [t, PowerLinearTable.get, hTemp, PowerLinearTempTable.get, hVolt, PowerLinearVoltTable.get]
    rfl
  exact ⟨hvals, hget, get_within_values t 0 5 hvals 20 1 100⟩

end Gvsoc.Power
