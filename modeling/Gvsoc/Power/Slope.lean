import Gvsoc.Power.Monotone

/-! # How fast `get` moves

`get` moves with each of its arguments no faster than the table's data:
where the power values of any two sub-tables differ by at most `L` times the
distance of their keys, the values `get` gives at two queries differ by at most
`L` times the distance of the queries. The search takes the nearest end table
outside the keys, a table's entry at its key and a weighted mean between two
keys, and these agree where they meet: no query makes `get` jump.

The proof weighs the entries against the keys. `lookup` is linear in its
entries, and with the keys as entries it moves no faster than the query, so
`lookup` of `f ± L * key` rises with the query whenever the slopes of `f` are
at most `L`.
-/

namespace Gvsoc.Power

set_option autoImplicit false

variable {α : Type} [LinearOrderedField α]

theorem interpolate_keys {k0 k1 q : α} (h : k0 ≠ k1) : (k1 - k0) * ((q - k0) / (k1 - k0)) + k0 = q := by
  rw [mul_div_cancel₀ _ (sub_ne_zero.2 h.symm), sub_add_cancel]

section Lookup

variable {β : Type} (key : β → α) (q : α)

theorem lookup_congr {tables : List β} {entry entry' : β → Option α}
    (h : ∀ b ∈ tables, entry b = entry' b) : lookup tables key entry q = lookup tables key entry' q := by
  rcases lookup_cases key q tables with rfl | ⟨pre, lo, rfl, -, hl⟩ | ⟨pre, hi, rest, rfl, -, -, -, hl⟩ |
    ⟨pre, lo, hi, rest, rfl, -, -, hl⟩
  · rfl
  · rw [hl, hl, h lo (List.mem_append_right _ (List.mem_singleton_self lo))]
  · rw [hl, hl, h hi (List.mem_append_right _ (List.mem_cons_self hi rest))]
  · rw [hl, hl, h lo (List.mem_append_left _ (List.mem_append_right _ (List.mem_singleton_self lo))),
      h hi (List.mem_append_right _ (List.mem_cons_self hi rest))]

theorem lookup_linear {tables : List β} (e1 e2 : β → α) (a c : α) {x y : α}
    (hx : lookup tables key (fun b => some (e1 b)) q = some x)
    (hy : lookup tables key (fun b => some (e2 b)) q = some y) :
    lookup tables key (fun b => some (a * e1 b + c * e2 b)) q = some (a * x + c * y) := by
  rcases lookup_cases key q tables with rfl | ⟨pre, lo, rfl, -, hl⟩ | ⟨pre, hi, rest, rfl, -, -, -, hl⟩ |
    ⟨pre, lo, hi, rest, rfl, -, -, hl⟩
  · exact absurd hx (by rw [lookup_nil]; exact Option.noConfusion)
  all_goals
    simp only [hl, Option.some_bind, Option.some_inj] at hx hy ⊢
    subst hx hy
    ring

theorem lookup_isSome {tables : List β} (e : β → α) (h : tables ≠ []) :
    ∃ v, lookup tables key (fun b => some (e b)) q = some v := by
  rcases lookup_cases key q tables with rfl | ⟨pre, lo, rfl, -, hl⟩ | ⟨pre, hi, rest, rfl, -, -, -, hl⟩ |
    ⟨pre, lo, hi, rest, rfl, -, -, hl⟩
  · exact absurd rfl h
  all_goals exact ⟨_, hl _⟩

theorem le_lookup_key {tables : List β} (h : ∃ b ∈ tables, q ≤ key b) {v : α}
    (hv : lookup tables key (fun b => some (key b)) q = some v) : q ≤ v := by
  obtain ⟨b, hb, hqb⟩ := h
  rcases lookup_cases key q tables with rfl | ⟨pre, lo, rfl, hpre, -⟩ | ⟨pre, hi, rest, rfl, -, hle, -, hl⟩ |
    ⟨pre, lo, hi, rest, rfl, hpre, hq, hl⟩
  · exact absurd hb (List.not_mem_nil b)
  · exact absurd (hpre b hb) (not_lt.2 hqb)
  · rw [hl, Option.some_inj] at hv
    exact hv ▸ hle
  · have hlo := hpre lo (List.mem_append_right pre (List.mem_singleton_self lo))
    simp only [hl, Option.some_bind, Option.some_inj, interpolate_keys (hlo.trans hq).ne] at hv
    exact hv.le

theorem lookup_of_le_first (entry : β → Option α) (hi : β) (rest : List β) (hq : q ≤ key hi) :
    lookup (hi :: rest) key entry q = entry hi := by
  rcases hq.lt_or_eq with hlt | heq
  · exact lookup_below key entry q rest hi hlt
  · exact lookup_at key entry q [] rest hi (fun _ h => absurd h (List.not_mem_nil _)) heq.symm

theorem lookup_key_sub_le {tables : List β} (hk : tables.Pairwise fun a b => key a ≤ key b)
    {q1 q2 : α} (hq : q1 ≤ q2) {v1 v2 : α} (hv1 : lookup tables key (fun b => some (key b)) q1 = some v1)
    (hv2 : lookup tables key (fun b => some (key b)) q2 = some v2) : v2 - v1 ≤ q2 - q1 := by
  rcases lookup_cases key q2 tables with rfl | ⟨pre, lo, rfl, hpre, hl⟩ |
    ⟨pre, hi, rest, rfl, hpre, hle, hfirst, hl⟩ | ⟨pre, lo, hi, rest, rfl, hpre, hq2, hl⟩
  · exact absurd hv2 (by rw [lookup_nil]; exact Option.noConfusion)
  · -- every key is below `q2`: `v2` is the last key
    have hlo := List.mem_append_right pre (List.mem_singleton_self lo)
    rw [hl, Option.some_inj] at hv2
    subst hv2
    by_cases h1 : q1 ≤ key lo
    · linarith [le_lookup_key key q1 ⟨lo, hlo, h1⟩ hv1, hpre lo hlo]
    · have hpre1 : ∀ b ∈ pre ++ [lo], key b < q1 := fun b hb =>
        (rel_last_of_pairwise (fun a => le_refl (key a)) hk b hb).trans_lt (not_le.1 h1)
      rw [lookup_above key _ q1 pre lo hpre1, Option.some_inj] at hv1
      linarith
  · -- `v2` is the key of the first table past the keys below `q2`
    have hhi := List.mem_append_right pre (List.mem_cons_self hi rest)
    rw [hl, Option.some_inj] at hv2
    subst hv2
    rcases hfirst with rfl | heq
    · rw [List.nil_append, lookup_of_le_first key q1 _ hi rest (hq.trans hle), Option.some_inj] at hv1
      linarith
    · linarith [le_lookup_key key q1 ⟨hi, hhi, hq.trans hle⟩ hv1]
  · -- `v2` is `q2` itself, between two keys
    have hlo := hpre lo (List.mem_append_right pre (List.mem_singleton_self lo))
    have hhi := List.mem_append_right (pre ++ [lo]) (List.mem_cons_self hi rest)
    simp only [hl, Option.some_bind, Option.some_inj, interpolate_keys (hlo.trans hq2).ne] at hv2
    linarith [le_lookup_key key q1 ⟨hi, hhi, (hq.trans hq2.le)⟩ hv1]

/-- On sorted keys, where the entries of any two tables differ by at most `L`
times the distance of their keys, `lookup` moves by at most `L` times the
distance of two queries. -/
theorem lookup_abs_sub_le {tables : List β} (f : β → α) (hk : tables.Pairwise fun a b => key a ≤ key b)
    {L : α} (hL0 : 0 ≤ L) (hL : tables.Pairwise fun a b => |f b - f a| ≤ L * (key b - key a))
    {q1 q2 x y : α} (hq : q1 ≤ q2) (hx : lookup tables key (fun b => some (f b)) q1 = some x)
    (hy : lookup tables key (fun b => some (f b)) q2 = some y) : |y - x| ≤ L * (q2 - q1) := by
  have hne : tables ≠ [] := by
    rintro rfl
    exact absurd hx (by rw [lookup_nil]; exact Option.noConfusion)
  obtain ⟨v1, hv1⟩ := lookup_isSome key q1 key hne
  obtain ⟨v2, hv2⟩ := lookup_isSome key q2 key hne
  have hv : L * (v2 - v1) ≤ L * (q2 - q1) := mul_le_mul_of_nonneg_left (lookup_key_sub_le key hk hq hv1 hv2) hL0
  -- `f ± L * key` rises along the tables, so its `lookup` rises with the query
  have hrise : ∀ s : α, s = 1 ∨ s = -1 → s * x + L * v1 ≤ s * y + L * v2 := fun s hs =>
    lookup_le_of_le_query key _ (fun b => s * f b + L * key b) (fun _ _ => rfl) hk
      (hL.imp fun h => by
        have h' := abs_sub_le_iff.1 h
        rw [mul_sub] at h'
        rcases hs with rfl | rfl <;> dsimp only <;> linarith [h'.1, h'.2]) hq
      (lookup_linear key q1 f key s L hx hv1) (lookup_linear key q2 f key s L hy hv2)
  have hplus := hrise 1 (.inl rfl)
  have hminus := hrise (-1) (.inr rfl)
  exact abs_sub_le_iff.2 ⟨by linarith only [hminus, hv], by linarith only [hplus, hv]⟩

/-- Where every table's entry moves by at most `d` between two arguments,
`lookup` moves by at most `d`. -/
theorem lookup_abs_sub_le_of_entries {tables : List β} {e1 e2 : β → Option α} (g1 g2 : β → α)
    (hg1 : ∀ b ∈ tables, e1 b = some (g1 b)) (hg2 : ∀ b ∈ tables, e2 b = some (g2 b)) {d : α}
    (h : ∀ b ∈ tables, |g2 b - g1 b| ≤ d) {x y : α} (hx : lookup tables key e1 q = some x)
    (hy : lookup tables key e2 q = some y) : |y - x| ≤ d := by
  rw [lookup_congr key q hg1] at hx
  rw [lookup_congr key q hg2] at hy
  have hdiff := lookup_linear key q g2 g1 1 (-1) hy hx
  have hmem := lookup_mem_Icc (-d) d tables key _ q
    (fun b hb z hz => by
      rw [Option.mem_some_iff.1 hz |>.symm]
      exact abs_le.1 (by simpa only [one_mul, neg_one_mul, ← sub_eq_add_neg] using h b hb))
    _ hdiff
  exact abs_le.2 (by simpa only [one_mul, neg_one_mul, ← sub_eq_add_neg] using hmem)

end Lookup

/-! ## Each level of a table -/

theorem eq_some_getD {o : Option α} {x : α} (h : o = some x) : o = some (o.getD 0) := by
  rw [h]
  rfl

theorem PowerLinearVoltTable.get_abs_sub_le_frequency {v : PowerLinearVoltTable α} (hv : v.WellFormed)
    {L : α} (hL0 : 0 ≤ L) (hL : v.freqTables.Pairwise fun a b => |b.value - a.value| ≤ L * (b.freq - a.freq))
    {f1 f2 x y : α} (hf : f1 ≤ f2) (hx : v.get f1 = some x) (hy : v.get f2 = some y) :
    |y - x| ≤ L * (f2 - f1) := by
  unfold get at hx hy
  cases ha : v.any with
  | some any =>
    -- the `any` entry answers every frequency alike
    rw [ha, Option.some_inj] at hx hy
    rw [← hx, ← hy, sub_self, abs_zero]
    exact mul_nonneg hL0 (sub_nonneg.2 hf)
  | none =>
    rw [ha] at hx hy
    exact lookup_abs_sub_le PowerLinearFreqTable.freq PowerLinearFreqTable.value (List.pairwise_map.1 hv.sorted) hL0 hL hf hx hy

theorem PowerLinearTempTable.get_abs_sub_le_of_voltTables {t : PowerLinearTempTable α} (ht : t.WellFormed)
    {f1 f2 d : α} (h : ∀ v ∈ t.voltTables, ∀ x ∈ v.get f1, ∀ y ∈ v.get f2, |y - x| ≤ d) {volt x y : α}
    (hx : t.get volt f1 = some x) (hy : t.get volt f2 = some y) : |y - x| ≤ d := by
  have hg : ∀ f, ∀ v ∈ t.voltTables, v.get f = some ((v.get f).getD 0) := fun f v hv =>
    eq_some_getD (PowerLinearVoltTable.get_spec (ht.voltTables v hv) f).choose_spec.1
  exact lookup_abs_sub_le_of_entries _ volt _ _ (hg f1) (hg f2)
    (fun v hv => h v hv _ (hg f1 v hv) _ (hg f2 v hv)) hx hy

theorem PowerLinearTempTable.get_abs_sub_le_volt {t : PowerLinearTempTable α} (ht : t.WellFormed)
    {L frequency : α} (hL0 : 0 ≤ L)
    (hL : t.voltTables.Pairwise fun a b => ∀ x ∈ a.get frequency, ∀ y ∈ b.get frequency, |y - x| ≤ L * (b.volt - a.volt))
    {v1 v2 x y : α} (hv : v1 ≤ v2) (hx : t.get v1 frequency = some x) (hy : t.get v2 frequency = some y) :
    |y - x| ≤ L * (v2 - v1) := by
  have hg : ∀ v ∈ t.voltTables, v.get frequency = some ((v.get frequency).getD 0) := fun v hv =>
    eq_some_getD (PowerLinearVoltTable.get_spec (ht.voltTables v hv) frequency).choose_spec.1
  unfold get at hx hy
  rw [lookup_congr _ _ hg] at hx hy
  exact lookup_abs_sub_le PowerLinearVoltTable.volt _ (List.pairwise_map.1 ht.sorted) hL0
    (hL.imp_of_mem fun ha hb h => h _ (hg _ ha) _ (hg _ hb)) hv hx hy

theorem PowerLinearTable.get_abs_sub_le_of_tempTables {t : PowerLinearTable α} (ht : t.WellFormed)
    {v1 v2 f1 f2 d : α} (h : ∀ tt ∈ t.tempTables, ∀ x ∈ tt.get v1 f1, ∀ y ∈ tt.get v2 f2, |y - x| ≤ d)
    {temp x y : α} (hx : t.get temp v1 f1 = some x) (hy : t.get temp v2 f2 = some y) : |y - x| ≤ d := by
  have hg : ∀ volt f, ∀ tt ∈ t.tempTables, tt.get volt f = some ((tt.get volt f).getD 0) := fun volt f tt htt =>
    eq_some_getD (PowerLinearTempTable.get_spec (ht.tempTables tt htt) volt f).choose_spec.1
  exact lookup_abs_sub_le_of_entries _ temp _ _ (hg v1 f1) (hg v2 f2)
    (fun tt htt => h tt htt _ (hg v1 f1 tt htt) _ (hg v2 f2 tt htt)) hx hy

/-- On every well-formed table, `get` moves with each argument no faster than
the data of that argument's level: with frequency by at most `L` times the
frequency distance where the power values of any two frequency tables of every
voltage differ by at most `L` times their frequency distance; with voltage
likewise where, at every frequency, any two voltage tables of every
temperature give values that differ by at most `L` times their voltage
distance; and with temperature likewise over the temperature tables. -/
theorem get_lipschitz (t : PowerLinearTable α) (ht : t.WellFormed) :
    (∀ L : α, 0 ≤ L → (∀ tt ∈ t.tempTables, ∀ v ∈ tt.voltTables,
        v.freqTables.Pairwise fun a b => |b.value - a.value| ≤ L * (b.freq - a.freq)) →
      ∀ temp volt f1 f2 x y : α, f1 ≤ f2 → t.get temp volt f1 = some x → t.get temp volt f2 = some y →
        |y - x| ≤ L * (f2 - f1)) ∧
    (∀ L : α, 0 ≤ L → (∀ tt ∈ t.tempTables, ∀ frequency : α, tt.voltTables.Pairwise fun a b =>
        ∀ x ∈ a.get frequency, ∀ y ∈ b.get frequency, |y - x| ≤ L * (b.volt - a.volt)) →
      ∀ temp v1 v2 frequency x y : α, v1 ≤ v2 → t.get temp v1 frequency = some x →
        t.get temp v2 frequency = some y → |y - x| ≤ L * (v2 - v1)) ∧
    (∀ L : α, 0 ≤ L → (∀ volt frequency : α, t.tempTables.Pairwise fun a b =>
        ∀ x ∈ a.get volt frequency, ∀ y ∈ b.get volt frequency, |y - x| ≤ L * (b.temp - a.temp)) →
      ∀ t1 t2 volt frequency x y : α, t1 ≤ t2 → t.get t1 volt frequency = some x →
        t.get t2 volt frequency = some y → |y - x| ≤ L * (t2 - t1)) := by
  refine ⟨fun L hL0 hL temp volt f1 f2 x y hf hx hy => ?_, fun L hL0 hL temp v1 v2 frequency x y hv hx hy => ?_,
    fun L hL0 hL t1 t2 volt frequency x y htemp hx hy => ?_⟩
  · -- frequency: through the voltage and the temperature interpolations
    exact PowerLinearTable.get_abs_sub_le_of_tempTables ht (fun tt htt _ hx' _ hy' =>
      PowerLinearTempTable.get_abs_sub_le_of_voltTables (ht.tempTables tt htt) (fun v hv _ hx'' _ hy'' =>
        PowerLinearVoltTable.get_abs_sub_le_frequency ((ht.tempTables tt htt).voltTables v hv) hL0
          (hL tt htt v hv) hf hx'' hy'') hx' hy') hx hy
  · -- voltage: through the temperature interpolation
    exact PowerLinearTable.get_abs_sub_le_of_tempTables ht (fun tt htt _ hx' _ hy' =>
      PowerLinearTempTable.get_abs_sub_le_volt (ht.tempTables tt htt) hL0 (hL tt htt frequency) hv hx' hy') hx hy
  · -- temperature
    have hg : ∀ tt ∈ t.tempTables, tt.get volt frequency = some ((tt.get volt frequency).getD 0) := fun tt htt =>
      eq_some_getD (PowerLinearTempTable.get_spec (ht.tempTables tt htt) volt frequency).choose_spec.1
    unfold PowerLinearTable.get at hx hy
    rw [lookup_congr _ _ hg] at hx hy
    exact lookup_abs_sub_le PowerLinearTempTable.temp _ (List.pairwise_map.1 ht.sorted) hL0
      ((hL volt frequency).imp_of_mem fun ha hb h => h _ (hg _ ha) _ (hg _ hb)) htemp hx hy

/-- Two temperatures with two voltages each: at 25, power 2 at frequency 100
and 4 at 200 for voltage 1 and `"any"` 5 for voltage 2; at 85, `"any"` 6 and 7.
The entries of each level move by at most 1/50 per unit of frequency, 3 per
unit of voltage and 1/10 per unit of temperature, and `get` by as much. -/
theorem get_lipschitz_two_frequencies :
    let t : PowerLinearTable ℚ := PowerLinearTable.ofConfig
      [(25, [(1, [(.freq 200, 4), (.freq 100, 2)]), (2, [(.any, 5)])]),
        (85, [(1, [(.any, 6)]), (2, [(.any, 7)])])]
    t.WellFormed ∧
      (∀ tt ∈ t.tempTables, ∀ v ∈ tt.voltTables,
        v.freqTables.Pairwise fun a b => |b.value - a.value| ≤ 1 / 50 * (b.freq - a.freq)) ∧
      (∀ tt ∈ t.tempTables, ∀ frequency : ℚ, tt.voltTables.Pairwise fun a b =>
        ∀ x ∈ a.get frequency, ∀ y ∈ b.get frequency, |y - x| ≤ 3 * (b.volt - a.volt)) ∧
      (∀ volt frequency : ℚ, t.tempTables.Pairwise fun a b =>
        ∀ x ∈ a.get volt frequency, ∀ y ∈ b.get volt frequency, |y - x| ≤ 1 / 10 * (b.temp - a.temp)) ∧
      (∀ x y, t.get 25 1 120 = some x → t.get 25 1 180 = some y → |y - x| ≤ 1 / 50 * (180 - 120)) ∧
      (∀ x y, t.get 30 1 150 = some x → t.get 30 2 150 = some y → |y - x| ≤ 3 * (2 - 1)) ∧
      (∀ x y, t.get 25 2 150 = some x → t.get 85 2 150 = some y → |y - x| ≤ 1 / 10 * (85 - 25)) := by
  intro t
  have ht : t.WellFormed := PowerLinearTable.ofConfig_wellFormed ⟨by decide, by decide⟩
  have htable : t = ⟨[⟨25, [⟨1, none, [⟨100, 2⟩, ⟨200, 4⟩]⟩, ⟨2, some ⟨0, 5⟩, []⟩]⟩,
      ⟨85, [⟨1, some ⟨0, 6⟩, []⟩, ⟨2, some ⟨0, 7⟩, []⟩]⟩]⟩ := by
    norm_num [t, PowerLinearTable.ofConfig, PowerLinearTempTable.ofConfig,
      PowerLinearVoltTable.ofConfig, PowerLinearVoltTable.addChild, List.insertionSort,
      List.orderedInsert]
  have h1 : ∀ tt ∈ t.tempTables, ∀ v ∈ tt.voltTables,
      v.freqTables.Pairwise fun a b => |b.value - a.value| ≤ 1 / 50 * (b.freq - a.freq) := by
    rw [htable]
    norm_num
  have h2 : ∀ tt ∈ t.tempTables, ∀ frequency : ℚ, tt.voltTables.Pairwise fun a b =>
      ∀ x ∈ a.get frequency, ∀ y ∈ b.get frequency, |y - x| ≤ 3 * (b.volt - a.volt) := by
    rw [htable]
    refine List.forall_mem_cons.2 ⟨fun frequency => List.pairwise_pair.2 fun x hx y hy => ?_,
      List.forall_mem_singleton.2 fun frequency => List.pairwise_pair.2 fun x hx y hy => ?_⟩
    · have hx24 := PowerLinearVoltTable.get_mem_Icc 2 4 _ (by decide) frequency x hx
      have hy5 : 5 = y := Option.mem_some_iff.1 hy
      refine abs_sub_le_iff.2 ⟨?_, ?_⟩ <;> norm_num <;> linarith
    · have hx6 : 6 = x := Option.mem_some_iff.1 hx
      have hy7 : 7 = y := Option.mem_some_iff.1 hy
      rw [← hx6, ← hy7]
      norm_num
  have h3 : ∀ volt frequency : ℚ, t.tempTables.Pairwise fun a b =>
      ∀ x ∈ a.get volt frequency, ∀ y ∈ b.get volt frequency, |y - x| ≤ 1 / 10 * (b.temp - a.temp) := by
    rw [htable]
    refine fun volt frequency => List.pairwise_pair.2 fun x hx y hy => ?_
    have hx25 := PowerLinearTempTable.get_mem_Icc 2 5 _ (by decide) volt frequency x hx
    have hy67 := PowerLinearTempTable.get_mem_Icc 6 7 _ (by decide) volt frequency y hy
    refine abs_sub_le_iff.2 ⟨?_, ?_⟩ <;> norm_num <;> linarith
  obtain ⟨hf, hv, htemp⟩ := get_lipschitz t ht
  exact ⟨ht, h1, h2, h3, fun x y => hf _ (by norm_num) h1 25 1 120 180 x y (by norm_num),
    fun x y => hv _ (by norm_num) h2 30 1 2 150 x y (by norm_num),
    fun x y => htemp _ (by norm_num) h3 25 85 2 150 x y (by norm_num)⟩

end Gvsoc.Power
