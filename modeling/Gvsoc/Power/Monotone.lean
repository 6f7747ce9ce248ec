import Gvsoc.Power.Range

/-! # `get` rises with its arguments

A power table is characterised at a few temperatures, voltages and
frequencies; between them `get` interpolates and outside them it takes the
nearest table. Where the power values rise with the key of a level, so does
what `get` gives at that level: the search loop brackets the query between the
last key below it and the first key past it, and weighs the two entries with a
weight in `[0, 1]` that grows with the query. The same bracketing makes
`lookup` rise with its entries, whatever the order of the keys, so a level
that rises with an argument passes it on to the levels above.
-/

namespace Gvsoc.Power

set_option autoImplicit false

variable {α : Type} [LinearOrderedField α]

/-! ## Where `lookup` takes its value -/

section Cases

variable {β : Type} (key : β → α) (q : α)

theorem lookup_nil (entry : β → Option α) : lookup ([] : List β) key entry q = none := rfl

/-- The tables split at the query: when every key is below it, `lookup` takes
the last table's entry; otherwise the first table past the keys below it is
keyed at the query or is the first table, and `lookup` takes its entry, or it
is keyed above the query and `lookup` weighs it with the last table below. -/
theorem lookup_cases (tables : List β) :
    tables = [] ∨
      (∃ pre lo, tables = pre ++ [lo] ∧ (∀ b ∈ pre ++ [lo], key b < q) ∧
        ∀ entry : β → Option α, lookup tables key entry q = entry lo) ∨
      (∃ pre hi rest, tables = pre ++ hi :: rest ∧ (∀ b ∈ pre, key b < q) ∧ q ≤ key hi ∧
        (pre = [] ∨ key hi = q) ∧ ∀ entry : β → Option α, lookup tables key entry q = entry hi) ∨
      (∃ pre lo hi rest, tables = pre ++ [lo] ++ hi :: rest ∧ (∀ b ∈ pre ++ [lo], key b < q) ∧
        q < key hi ∧ ∀ entry : β → Option α, lookup tables key entry q =
          (entry lo).bind fun valueAtLow => (entry hi).bind fun valueAtHigh =>
            some ((valueAtHigh - valueAtLow) * ((q - key lo) / (key hi - key lo)) + valueAtLow)) := by
  obtain ⟨pre, post, rfl, hpre, hpost⟩ := exists_split_below key q tables
  rcases post with _ | ⟨hi, rest⟩
  · rcases List.eq_nil_or_concat pre with rfl | ⟨pre, lo, rfl⟩
    · exact .inl rfl
    · rw [List.concat_eq_append, List.append_nil] at *
      exact .inr (.inl ⟨pre, lo, rfl, hpre, fun entry => lookup_above key entry q pre lo hpre⟩)
  · have hle : q ≤ key hi := not_lt.1 (hpost hi rfl)
    by_cases hq : key hi = q
    · exact .inr (.inr (.inl ⟨pre, hi, rest, rfl, hpre, hle, .inr hq,
        fun entry => lookup_at key entry q pre rest hi hpre hq⟩))
    · have hlt : q < key hi := lt_of_le_of_ne hle (Ne.symm hq)
      rcases List.eq_nil_or_concat pre with rfl | ⟨pre, lo, rfl⟩
      · exact .inr (.inr (.inl ⟨[], hi, rest, rfl, hpre, hle, .inl rfl,
          fun entry => lookup_below key entry q rest hi hlt⟩))
      · rw [List.concat_eq_append] at *
        refine .inr (.inr (.inr ⟨pre, lo, hi, rest, rfl, hpre, hlt, fun entry => ?_⟩))
        rw [List.append_assoc, List.singleton_append]
        exact lookup_between key entry q pre rest lo hi hpre hlt

end Cases

/-! ## Weighing two entries -/

theorem ratio_mem_Icc {lo hi q : α} (hlo : lo < q) (hhi : q < hi) :
    0 ≤ (q - lo) / (hi - lo) ∧ (q - lo) / (hi - lo) ≤ 1 :=
  ⟨div_nonneg (sub_nonneg.2 hlo.le) (sub_nonneg.2 (hlo.trans hhi).le),
    (div_le_one (sub_pos.2 (hlo.trans hhi))).2 (sub_le_sub_right hhi.le _)⟩

theorem interpolate_mono {a b a' b' r : α} (ha : a ≤ a') (hb : b ≤ b') (hr0 : 0 ≤ r) (hr1 : r ≤ 1) :
    (b - a) * r + a ≤ (b' - a') * r + a' := by
  have h : ∀ a b : α, (b - a) * r + a = r * b + (1 - r) * a := fun a b => by ring
  rw [h a b, h a' b']
  exact add_le_add (mul_le_mul_of_nonneg_left hb hr0) (mul_le_mul_of_nonneg_left ha (sub_nonneg.2 hr1))

theorem interpolate_mono_query {a b k0 k1 q1 q2 : α} (hab : a ≤ b) (hk : k0 ≤ k1) (hq : q1 ≤ q2) :
    (b - a) * ((q1 - k0) / (k1 - k0)) + a ≤ (b - a) * ((q2 - k0) / (k1 - k0)) + a :=
  add_le_add_right (mul_le_mul_of_nonneg_left
    (div_le_div_of_nonneg_right (sub_le_sub_right hq k0) (sub_nonneg.2 hk)) (sub_nonneg.2 hab)) a

theorem rel_last_of_pairwise {β : Type} {R : β → β → Prop} (hR : ∀ a, R a a) {pre : List β} {lo : β}
    (h : (pre ++ [lo]).Pairwise R) : ∀ b ∈ pre ++ [lo], R b lo := fun b hb => by
  rcases List.mem_append.1 hb with hb | hb
  · exact (List.pairwise_append.1 h).2.2 b hb lo (List.mem_singleton_self lo)
  · rw [List.mem_singleton.1 hb]
    exact hR lo

theorem rel_head_of_pairwise {β : Type} {R : β → β → Prop} (hR : ∀ a, R a a) {hi : β} {rest : List β}
    (h : (hi :: rest).Pairwise R) : ∀ b ∈ hi :: rest, R hi b := fun b hb => by
  rcases List.mem_cons.1 hb with rfl | hb
  · exact hR b
  · exact List.rel_of_pairwise_cons h hb

theorem bounds_of_split {β : Type} (key : β → α) (q : α) (f : β → α) {pre post : List β}
    (hk : (pre ++ post).Pairwise fun a b => key a ≤ key b) (hpre : ∀ b ∈ pre, key b < q)
    (hpost : ∀ b ∈ post.head?, q ≤ key b) {v : α} (hlo : ∀ b ∈ pre, f b ≤ v) (hhi : ∀ b ∈ post, v ≤ f b) :
    (∀ b ∈ pre ++ post, key b < q → f b ≤ v) ∧ ∀ b ∈ pre ++ post, q ≤ key b → v ≤ f b := by
  have hpost' : ∀ b ∈ post, q ≤ key b := by
    rcases post with _ | ⟨c, rest⟩
    · exact fun b hb => absurd hb (List.not_mem_nil b)
    · exact fun b hb => (hpost c rfl).trans
        (rel_head_of_pairwise (fun a => le_refl (key a)) (List.pairwise_append.1 hk).2.1 b hb)
  refine ⟨fun b hb hbq => ?_, fun b hb hqb => ?_⟩
  · rcases List.mem_append.1 hb with hb | hb
    · exact hlo b hb
    · exact absurd (hpost' b hb) (not_le.2 hbq)
  · rcases List.mem_append.1 hb with hb | hb
    · exact absurd (hpre b hb) (not_lt.2 hqb)
    · exact hhi b hb

/-! ## `lookup` rises with its entries and with the query -/

section Mono

variable {β : Type} (key : β → α) (entry : β → Option α)

/-- Over any tables, sorted or not, `lookup` rises with its entries. -/
theorem lookup_mono_entry (tables : List β) (entry' : β → Option α) (q : α)
    (h : ∀ b ∈ tables, ∀ x ∈ entry b, ∀ y ∈ entry' b, x ≤ y) :
    ∀ x ∈ lookup tables key entry q, ∀ y ∈ lookup tables key entry' q, x ≤ y := by
  rcases lookup_cases key q tables with rfl | ⟨pre, lo, rfl, -, hl⟩ | ⟨pre, hi, rest, rfl, -, -, -, hl⟩ |
    ⟨pre, lo, hi, rest, rfl, hpre, hq, hl⟩
  · exact fun x hx => absurd hx (Option.not_mem_none x)
  · rw [hl, hl]
    exact h lo (List.mem_append_right _ (List.mem_singleton_self lo))
  · rw [hl, hl]
    exact h hi (List.mem_append_right _ (List.mem_cons_self hi rest))
  · rw [hl, hl]
    intro x hx y hy
    obtain ⟨a, ha, hx⟩ := Option.bind_eq_some.1 hx
    obtain ⟨b, hb, hx⟩ := Option.bind_eq_some.1 hx
    obtain ⟨a', ha', hy⟩ := Option.bind_eq_some.1 hy
    obtain ⟨b', hb', hy⟩ := Option.bind_eq_some.1 hy
    rw [← Option.some_inj.1 hx, ← Option.some_inj.1 hy]
    have hloMem : lo ∈ pre ++ [lo] ++ hi :: rest := List.mem_append_left _ (List.mem_append_right _ (List.mem_singleton_self lo))
    have hhiMem : hi ∈ pre ++ [lo] ++ hi :: rest := List.mem_append_right _ (List.mem_cons_self hi rest)
    obtain ⟨hr0, hr1⟩ := ratio_mem_Icc (hpre lo (List.mem_append_right pre (List.mem_singleton_self lo))) hq
    exact interpolate_mono (h lo hloMem a ha a' ha') (h hi hhiMem b hb b' hb') hr0 hr1

variable {tables : List β} (f : β → α) (hf : ∀ b ∈ tables, entry b = some (f b))
  (hk : tables.Pairwise fun a b => key a ≤ key b) (hm : tables.Pairwise fun a b => f a ≤ f b)
include hf hk hm

theorem lookup_bounds (q : α) {v : α} (hv : lookup tables key entry q = some v) :
    (∀ b ∈ tables, key b < q → f b ≤ v) ∧ ∀ b ∈ tables, q ≤ key b → v ≤ f b := by
  rcases lookup_cases key q tables with rfl | ⟨pre, lo, rfl, hpre, hl⟩ | ⟨pre, hi, rest, rfl, hpre, hle, -, hl⟩ |
    ⟨pre, lo, hi, rest, rfl, hpre, hq, hl⟩
  · exact absurd hv (Option.not_mem_none v)
  · -- every key is below the query: the last entry
    have hlo := List.mem_append_right pre (List.mem_singleton_self lo)
    rw [hl, hf lo hlo, Option.some_inj] at hv
    subst hv
    exact ⟨fun b hb _ => rel_last_of_pairwise (fun a => le_refl (f a)) hm b hb,
      fun b hb hqb => absurd (hpre b hb) (not_lt.2 hqb)⟩
  · -- the entry of the first table past the keys below the query
    have hhi := List.mem_append_right pre (List.mem_cons_self hi rest)
    rw [hl, hf hi hhi, Option.some_inj] at hv
    subst hv
    obtain ⟨-, hmPost, hmCross⟩ := List.pairwise_append.1 hm
    exact bounds_of_split key q f hk hpre (fun b hb => Option.mem_some_iff.1 hb ▸ hle)
      (fun b hb => hmCross b hb hi (List.mem_cons_self hi rest)) (rel_head_of_pairwise (fun a => le_refl (f a)) hmPost)
  · -- a point of the segment between the last table below and the first past it
    have hloMem := List.mem_append_right pre (List.mem_singleton_self lo)
    have hhiMem := List.mem_cons_self hi rest
    obtain ⟨hmPre, hmPost, hmCross⟩ := List.pairwise_append.1 hm
    have hlohi : f lo ≤ f hi := hmCross lo hloMem hi hhiMem
    rw [hl, hf lo (List.mem_append_left _ hloMem), hf hi (List.mem_append_right _ hhiMem), Option.some_bind,
      Option.some_bind, Option.some_inj] at hv
    subst hv
    obtain ⟨hr0, hr1⟩ := ratio_mem_Icc (hpre lo hloMem) hq
    obtain ⟨hvLo, hvHi⟩ := interpolate_mem_Icc (f lo) (f hi) ⟨le_rfl, hlohi⟩ ⟨hlohi, le_rfl⟩ hr0 hr1
    exact bounds_of_split key q f hk hpre (fun b hb => Option.mem_some_iff.1 hb ▸ hq.le)
      (fun b hb => (rel_last_of_pairwise (fun a => le_refl (f a)) hmPre b hb).trans hvLo)
      (fun b hb => hvHi.trans (rel_head_of_pairwise (fun a => le_refl (f a)) hmPost b hb))

theorem lookup_le_of_le_query {q1 q2 : α} (hq : q1 ≤ q2) {x y : α}
    (hx : lookup tables key entry q1 = some x) (hy : lookup tables key entry q2 = some y) : x ≤ y := by
  rcases hq.lt_or_eq with hlt | rfl
  swap
  · exact (Option.some_inj.1 (hx.symm.trans hy)).le
  have hub := (lookup_bounds key entry f hf hk hm q1 hx).2
  have hlb := (lookup_bounds key entry f hf hk hm q2 hy).1
  rcases lookup_cases key q2 tables with rfl | ⟨pre, lo, rfl, hpre, hl⟩ | ⟨low, hi, rest, rfl, -, hle, -, hl⟩ |
    ⟨pre, lo, hi, rest, rfl, hpre, hq2, hl⟩
  · exact absurd hy (Option.not_mem_none y)
  · -- every key is below `q2`, and `y` is the last entry
    have hlo := List.mem_append_right pre (List.mem_singleton_self lo)
    by_cases hq1 : q1 ≤ key lo
    · exact (hub lo hlo hq1).trans (hlb lo hlo (hpre lo hlo))
    · have hpre1 : ∀ b ∈ pre ++ [lo], key b < q1 := fun b hb =>
        (rel_last_of_pairwise (fun a => le_refl (key a)) hk b hb).trans_lt (not_le.1 hq1)
      rw [lookup_above key entry q1 pre lo hpre1] at hx
      rw [hl] at hy
      exact (Option.some_inj.1 (hx.symm.trans hy)).le
  · -- `y` is the entry of the first table past the keys below `q2`
    have hhi := List.mem_append_right low (List.mem_cons_self hi rest)
    rw [hl, hf hi hhi, Option.some_inj] at hy
    exact hy ▸ hub hi hhi (hlt.le.trans hle)
  · have hloPre := List.mem_append_right pre (List.mem_singleton_self lo)
    have hloMem := List.mem_append_left (hi :: rest) hloPre
    have hhiMem := List.mem_append_right (pre ++ [lo]) (List.mem_cons_self hi rest)
    by_cases hq1 : q1 ≤ key lo
    · exact (hub lo hloMem hq1).trans (hlb lo hloMem (hpre lo hloPre))
    · -- `q1` lies on the same segment as `q2`
      have hpre1 : ∀ b ∈ pre ++ [lo], key b < q1 := fun b hb =>
        (rel_last_of_pairwise (fun a => le_refl (key a)) (List.pairwise_append.1 hk).1 b hb).trans_lt
          (not_le.1 hq1)
      have hx' := lookup_between key entry q1 pre rest lo hi hpre1 (hlt.trans hq2)
      rw [← List.singleton_append, ← List.append_assoc] at hx'
      have hlohi : f lo ≤ f hi := (List.pairwise_append.1 hm).2.2 lo hloPre hi (List.mem_cons_self hi rest)
      rw [hx', hf lo hloMem, hf hi hhiMem, Option.some_bind, Option.some_bind, Option.some_inj] at hx
      rw [hl, hf lo hloMem, hf hi hhiMem, Option.some_bind, Option.some_bind, Option.some_inj] at hy
      subst hx hy
      exact interpolate_mono_query hlohi ((hpre lo hloPre).trans hq2).le hlt.le

end Mono

/-- Where every table gives an entry and the entries rise along sorted keys,
`lookup` rises with the query. -/
theorem lookup_mono_query {β : Type} (key : β → α) (entry : β → Option α) {tables : List β}
    (hs : (tables.map key).Sorted (· ≤ ·))
    (hm : tables.Pairwise fun a b => ∀ x ∈ entry a, ∀ y ∈ entry b, x ≤ y)
    (hdef : ∀ b ∈ tables, ∃ x, entry b = some x) {q1 q2 : α} (hq : q1 ≤ q2) :
    ∀ x ∈ lookup tables key entry q1, ∀ y ∈ lookup tables key entry q2, x ≤ y := by
  have hf : ∀ b ∈ tables, entry b = some ((entry b).getD 0) := fun b hb => by
    obtain ⟨x, hx⟩ := hdef b hb
    rw [hx]
    rfl
  exact fun x hx y hy => lookup_le_of_le_query key entry _ hf (List.pairwise_map.1 hs)
    (hm.imp_of_mem fun ha hb h => h _ (hf _ ha) _ (hf _ hb)) hq hx hy

/-! ## Each level of a table -/

/-- Where a voltage table's power values rise with frequency, its `get` rises
with the frequency. -/
theorem PowerLinearVoltTable.get_mono_frequency {v : PowerLinearVoltTable α} (hv : v.WellFormed)
    (hm : (v.freqTables.map (·.value)).Sorted (· ≤ ·)) {f1 f2 : α} (hf : f1 ≤ f2) :
    ∀ x ∈ v.get f1, ∀ y ∈ v.get f2, x ≤ y := by
  unfold PowerLinearVoltTable.get
  split
  · exact fun x hx y hy => ((Option.mem_some_iff.1 hx).symm.trans (Option.mem_some_iff.1 hy)).le
  · exact lookup_mono_query (·.freq) (fun f => some f.get) hv.sorted
      ((List.pairwise_map.1 hm).imp fun h x hx y hy => Option.mem_some_iff.1 hx ▸ Option.mem_some_iff.1 hy ▸ h)
      (fun b _ => ⟨_, rfl⟩) hf

theorem PowerLinearTempTable.get_mono_frequency {t : PowerLinearTempTable α} (ht : t.WellFormed)
    (hm : ∀ v ∈ t.voltTables, (v.freqTables.map (·.value)).Sorted (· ≤ ·)) (volt : α) {f1 f2 : α}
    (hf : f1 ≤ f2) : ∀ x ∈ t.get volt f1, ∀ y ∈ t.get volt f2, x ≤ y := by
  unfold PowerLinearTempTable.get
  exact lookup_mono_entry _ _ _ _ _ fun v hv => PowerLinearVoltTable.get_mono_frequency (ht.voltTables v hv) (hm v hv) hf

theorem PowerLinearTempTable.get_mono_volt {t : PowerLinearTempTable α} (ht : t.WellFormed) (frequency : α)
    (hm : t.voltTables.Pairwise fun a b => ∀ x ∈ a.get frequency, ∀ y ∈ b.get frequency, x ≤ y)
    {v1 v2 : α} (hv : v1 ≤ v2) : ∀ x ∈ t.get v1 frequency, ∀ y ∈ t.get v2 frequency, x ≤ y := by
  unfold PowerLinearTempTable.get
  exact lookup_mono_query _ _ ht.sorted hm
    (fun v hv => (PowerLinearVoltTable.get_spec (ht.voltTables v hv) frequency).imp fun _ h => h.1) hv

/-- Where every level of a well-formed table rises with its key, `get` rises
with that argument: with frequency where the power values of every voltage
table rise with frequency, with voltage where at every frequency the voltage
tables of every temperature rise with voltage, and with temperature where at
every voltage and frequency the temperature tables rise with temperature. -/
theorem get_monotone (t : PowerLinearTable α) (ht : t.WellFormed) :
    ((∀ tt ∈ t.tempTables, ∀ v ∈ tt.voltTables, (v.freqTables.map (·.value)).Sorted (· ≤ ·)) →
      ∀ temp volt f1 f2 x y, f1 ≤ f2 → t.get temp volt f1 = some x → t.get temp volt f2 = some y →
        x ≤ y) ∧
    ((∀ tt ∈ t.tempTables, ∀ frequency, tt.voltTables.Pairwise fun a b =>
        ∀ x ∈ a.get frequency, ∀ y ∈ b.get frequency, x ≤ y) →
      ∀ temp v1 v2 frequency x y, v1 ≤ v2 → t.get temp v1 frequency = some x →
        t.get temp v2 frequency = some y → x ≤ y) ∧
    ((∀ volt frequency, t.tempTables.Pairwise fun a b =>
        ∀ x ∈ a.get volt frequency, ∀ y ∈ b.get volt frequency, x ≤ y) →
      ∀ t1 t2 volt frequency x y, t1 ≤ t2 → t.get t1 volt frequency = some x →
        t.get t2 volt frequency = some y → x ≤ y) := by
  unfold PowerLinearTable.get
  refine ⟨fun hm temp volt f1 f2 x y hf hx hy => ?_, fun hm temp v1 v2 frequency x y hv hx hy => ?_,
    fun hm t1 t2 volt frequency x y htemp hx hy => ?_⟩
  · exact lookup_mono_entry _ _ _ _ _
      (fun tt htt => tt.get_mono_frequency (ht.tempTables tt htt) (hm tt htt) volt hf) x hx y hy
  · exact lookup_mono_entry _ _ _ _ _
      (fun tt htt => tt.get_mono_volt (ht.tempTables tt htt) frequency (hm tt htt frequency) hv) x hx y hy
  · exact lookup_mono_query _ _ ht.sorted (hm volt frequency)
      (fun tt htt => (PowerLinearTempTable.get_spec (ht.tempTables tt htt) volt frequency).imp
        fun _ h => h.1) htemp x hx y hy

/-- Two temperatures with two voltages each: at 25, power 2 at frequency 100
and 4 at 200 for voltage 1 and `"any"` 5 for voltage 2; at 85, `"any"` 6 and 7.
The data of every level rise, so `get` rises with frequency, voltage and
temperature. -/
theorem get_monotone_two_frequencies :
    let t : PowerLinearTable ℚ := PowerLinearTable.ofConfig
      [(25, [(1, [(.freq 200, 4), (.freq 100, 2)]), (2, [(.any, 5)])]),
        (85, [(1, [(.any, 6)]), (2, [(.any, 7)])])]
    t.WellFormed ∧
      (∀ tt ∈ t.tempTables, ∀ v ∈ tt.voltTables, (v.freqTables.map (·.value)).Sorted (· ≤ ·)) ∧
      (∀ tt ∈ t.tempTables, ∀ frequency, tt.voltTables.Pairwise fun a b =>
        ∀ x ∈ a.get frequency, ∀ y ∈ b.get frequency, x ≤ y) ∧
      (∀ volt frequency, t.tempTables.Pairwise fun a b =>
        ∀ x ∈ a.get volt frequency, ∀ y ∈ b.get volt frequency, x ≤ y) ∧
      (∀ x y, t.get 25 1 120 = some x → t.get 25 1 180 = some y → x ≤ y) ∧
      (∀ x y, t.get 30 1 150 = some x → t.get 30 2 150 = some y → x ≤ y) ∧
      (∀ x y, t.get 25 2 150 = some x → t.get 85 2 150 = some y → x ≤ y) := by
  intro t
  have ht : t.WellFormed := PowerLinearTable.ofConfig_wellFormed ⟨by decide, by decide⟩
  have htable : t = ⟨[⟨25, [⟨1, none, [⟨100, 2⟩, ⟨200, 4⟩]⟩, ⟨2, some ⟨0, 5⟩, []⟩]⟩,
      ⟨85, [⟨1, some ⟨0, 6⟩, []⟩, ⟨2, some ⟨0, 7⟩, []⟩]⟩]⟩ := by
    norm_num [t, PowerLinearTable.ofConfig, PowerLinearTempTable.ofConfig,
      PowerLinearVoltTable.ofConfig, PowerLinearVoltTable.addChild, List.insertionSort,
      List.orderedInsert]
  have h1 : ∀ tt ∈ t.tempTables, ∀ v ∈ tt.voltTables, (v.freqTables.map (·.value)).Sorted (· ≤ ·) := by
    rw [htable]
    decide
  have h2 : ∀ tt ∈ t.tempTables, ∀ frequency, tt.voltTables.Pairwise fun a b =>
      ∀ x ∈ a.get frequency, ∀ y ∈ b.get frequency, x ≤ y := by
    rw [htable]
    refine List.forall_mem_cons.2 ⟨fun frequency => List.pairwise_pair.2 fun x hx y hy => ?_,
      List.forall_mem_singleton.2 fun frequency => List.pairwise_pair.2 fun x hx y hy => ?_⟩
    · have hx4 := (PowerLinearVoltTable.get_mem_Icc 2 4 _ (by decide) frequency x hx).2
      have hy5 : 5 = y := Option.mem_some_iff.1 hy
      linarith
    · have hx6 : 6 = x := Option.mem_some_iff.1 hx
      have hy7 : 7 = y := Option.mem_some_iff.1 hy
      linarith
  have h3 : ∀ volt frequency, t.tempTables.Pairwise fun a b =>
      ∀ x ∈ a.get volt frequency, ∀ y ∈ b.get volt frequency, x ≤ y := by
    rw [htable]
    refine fun volt frequency => List.pairwise_pair.2 fun x hx y hy => ?_
    have hx5 := (PowerLinearTempTable.get_mem_Icc 2 5 _ (by decide) volt frequency x hx).2
    have hy6 := (PowerLinearTempTable.get_mem_Icc 6 7 _ (by decide) volt frequency y hy).1
    linarith
  obtain ⟨hf, hv, htemp⟩ := get_monotone t ht
  exact ⟨ht, h1, h2, h3, fun x y => hf h1 25 1 120 180 x y (by norm_num),
    fun x y => hv h2 30 1 2 150 x y (by norm_num), fun x y => htemp h3 25 85 2 150 x y (by norm_num)⟩

end Gvsoc.Power
