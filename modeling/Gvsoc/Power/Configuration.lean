import Gvsoc.Power.Range

/-! # The configuration and the table built from it

The constructors read each level of the configuration in the order it lists
its entries, and sort the sub-tables by key. When the keys of every level are
distinct, which allows one `"any"` entry per voltage, the table does not
depend on the order in which the configuration lists its entries at any
level: a list of distinct keys sorted by key is the only one, whichever sort
made it. With a repeated key the order can matter: a later `"any"` entry
replaces an earlier one.

With distinct keys the table also gives back its configuration: `get` at a
configured temperature, voltage and frequency returns the configured value,
and at a voltage with an `"any"` entry it returns that entry's value at every
frequency.

Whatever the configuration, with repeated keys or not, the constructors put
in the table only configured power values, so `get` stays within any bounds
of the configured values.
-/

namespace Gvsoc.Power

set_option autoImplicit false

variable {α : Type} [LinearOrderedField α]

/-! ## Sorting by distinct keys -/

theorem sorted_lt_insertionSort {β : Type} (key : β → α) {l : List β} (hn : (l.map key).Nodup) :
    (l.insertionSort fun a b => key a ≤ key b).Sorted fun a b => key a < key b :=
  List.pairwise_map.1 ((sorted_insertionSort_map key l).lt_of_le
    (((List.perm_insertionSort _ l).map key).nodup_iff.2 hn))

/-- Sorting by a key gives the same list for any order of the input when the
keys are distinct. -/
theorem insertionSort_eq_of_perm {β : Type} (key : β → α) {l1 l2 : List β} (h : l1.Perm l2)
    (hd : (l1.map key).Nodup) :
    l1.insertionSort (fun a b => key a ≤ key b) = l2.insertionSort (fun a b => key a ≤ key b) := by
  haveI : IsAntisymm β fun a b => key a < key b := ⟨fun _ _ h1 h2 => absurd (h1.trans h2) (lt_irrefl _)⟩
  exact List.eq_of_perm_of_sorted
    (((List.perm_insertionSort _ l1).trans h).trans (List.perm_insertionSort _ l2).symm)
    (sorted_lt_insertionSort key hd) (sorted_lt_insertionSort key ((h.map key).nodup_iff.1 hd))

theorem map_eq_of_forall₂ {γ β : Type} (build : γ → β) {R : γ → γ → Prop} {c1 c : List γ}
    (h : List.Forall₂ R c1 c) (hR : ∀ x ∈ c1, ∀ y, R x y → build x = build y) :
    c1.map build = c.map build := by
  induction h with
  | nil => rfl
  | cons hxy _ ih =>
    rw [List.map_cons, List.map_cons, hR _ (List.mem_cons_self _ _) _ hxy,
      ih fun x hx => hR x (List.mem_cons_of_mem _ hx)]

/-- Sub-tables built from entries related one to one, then listed in any
order, sort to the same list when their keys are distinct. -/
theorem insertionSort_map_eq {γ β : Type} (build : γ → β) (key : β → α) {R : γ → γ → Prop}
    {c1 c c2 : List γ} (h1 : List.Forall₂ R c1 c) (h2 : c.Perm c2)
    (hR : ∀ x ∈ c1, ∀ y, R x y → build x = build y) (hd : ((c1.map build).map key).Nodup) :
    (c1.map build).insertionSort (fun a b => key a ≤ key b) =
      (c2.map build).insertionSort (fun a b => key a ≤ key b) := by
  rw [map_eq_of_forall₂ build h1 hR] at hd ⊢
  exact insertionSort_eq_of_perm key (h2.map build) hd

/-! ## A voltage's entries -/

theorem lastAny_perm (any : Option (PowerLinearFreqTable α)) {c1 c2 : List (FreqKey α × α)}
    (h : c1.Perm c2) (hd : (c1.map Prod.fst).Nodup) : lastAny any c1 = lastAny any c2 := by
  rw [lastAny_filter, lastAny_filter any c2]
  have hp := h.filter (·.1.isAny)
  rcases filter_isAny_subsingleton hd with h1 | ⟨x, h1⟩
  · rw [h1] at hp ⊢
    rw [hp.symm.eq_nil]
  · rw [h1] at hp ⊢
    rw [List.perm_singleton.1 hp.symm]

theorem PowerLinearVoltTable.ofConfig_perm (volt : α) {c1 c2 : List (FreqKey α × α)} (h : c1.Perm c2)
    (hd : (c1.map Prod.fst).Nodup) : ofConfig volt c1 = ofConfig volt c2 := by
  have hf : (freqEntries c1).Perm (freqEntries c2) := h.filterMap _
  rw [ofConfig_eq, ofConfig_eq, lastAny_perm none h hd, insertionSort_eq_of_perm (·.freq) hf (freqEntries_nodup hd)]

/-! ## Temperatures and the whole table -/

theorem nodup_volt_map_ofConfig {childs : List (α × List (FreqKey α × α))}
    (hd : (childs.map Prod.fst).Nodup) :
    ((childs.map fun x => PowerLinearVoltTable.ofConfig x.1 x.2).map (·.volt)).Nodup := by
  simpa only [List.map_map, Function.comp_def, PowerLinearVoltTable.ofConfig_volt] using hd

theorem nodup_temp_map_ofConfig {cfg : List (α × List (α × List (FreqKey α × α)))}
    (hd : (cfg.map Prod.fst).Nodup) :
    ((cfg.map fun x => PowerLinearTempTable.ofConfig x.1 x.2).map (·.temp)).Nodup := by
  simpa only [List.map_map, Function.comp_def, PowerLinearTempTable.ofConfig_temp] using hd

/-- The voltages of a temperature, up to their order and the order of each
voltage's entries. -/
def TempConfigEquiv (c1 c2 : List (α × List (FreqKey α × α))) : Prop :=
  ∃ c, List.Forall₂ (fun x y => x.1 = y.1 ∧ x.2.Perm y.2) c1 c ∧ c.Perm c2

/-- Two configurations that list the same entries at every level, each level
in any order. -/
def ConfigEquiv (cfg1 cfg2 : List (α × List (α × List (FreqKey α × α)))) : Prop :=
  ∃ c, List.Forall₂ (fun x y => x.1 = y.1 ∧ TempConfigEquiv x.2 y.2) cfg1 c ∧ c.Perm cfg2

theorem PowerLinearTempTable.ofConfig_equiv (temp : α) {c1 c2 : List (α × List (FreqKey α × α))}
    (h : TempConfigEquiv c1 c2) (hd : (c1.map Prod.fst).Nodup ∧ ∀ y ∈ c1, (y.2.map Prod.fst).Nodup) :
    ofConfig temp c1 = ofConfig temp c2 := by
  obtain ⟨c, h1, h2⟩ := h
  simp only [ofConfig, PowerLinearTempTable.mk.injEq, true_and]
  refine insertionSort_map_eq _ _ h1 h2 (fun x hx y hxy => ?_) (nodup_volt_map_ofConfig hd.1)
  rw [← hxy.1]
  exact PowerLinearVoltTable.ofConfig_perm x.1 hxy.2 (hd.2 x hx)

/-- When the keys of every level are distinct, the power table does not depend
on the order in which the configuration lists the temperatures, the voltages
of each temperature, or the entries of each voltage. -/
theorem ofConfig_order_independent {cfg1 cfg2 : List (α × List (α × List (FreqKey α × α)))}
    (h : ConfigEquiv cfg1 cfg2) (hd : KeysDistinct cfg1) :
    PowerLinearTable.ofConfig cfg1 = PowerLinearTable.ofConfig cfg2 := by
  obtain ⟨c, h1, h2⟩ := h
  simp only [PowerLinearTable.ofConfig, PowerLinearTable.mk.injEq]
  refine insertionSort_map_eq _ _ h1 h2 (fun x hx y hxy => ?_) (nodup_temp_map_ofConfig hd.1)
  rw [← hxy.1]
  exact PowerLinearTempTable.ofConfig_equiv x.1 hxy.2 ⟨(hd.2 x hx).1, (hd.2 x hx).2⟩

/-- Two temperatures listed in either order, and the frequencies of one voltage
listed in either order, give the same table. -/
theorem ofConfig_order_independent_swapped :
    let cfg1 : List (ℚ × List (ℚ × List (FreqKey ℚ × ℚ))) :=
      [(25, [(1, [(.freq 200, 4), (.freq 100, 2)])]), (85, [(1, [(.any, 3)])])]
    let cfg2 : List (ℚ × List (ℚ × List (FreqKey ℚ × ℚ))) :=
      [(85, [(1, [(.any, 3)])]), (25, [(1, [(.freq 100, 2), (.freq 200, 4)])])]
    ConfigEquiv cfg1 cfg2 ∧ KeysDistinct cfg1 ∧
      PowerLinearTable.ofConfig cfg1 = PowerLinearTable.ofConfig cfg2 := by
  intro cfg1 cfg2
  have h : ConfigEquiv cfg1 cfg2 :=
    ⟨[(25, [(1, [(.freq 100, 2), (.freq 200, 4)])]), (85, [(1, [(.any, 3)])])],
      .cons ⟨rfl, [(1, [(.freq 100, 2), (.freq 200, 4)])], .cons ⟨rfl, .swap _ _ _⟩ .nil, .refl _⟩
        (.cons ⟨rfl, _, .cons ⟨rfl, .refl _⟩ .nil, .refl _⟩ .nil),
      .swap _ _ _⟩
  have hfreq : ([.freq 200, .freq 100] : List (FreqKey ℚ)).Nodup :=
    List.nodup_cons.2 ⟨by norm_num, List.nodup_singleton _⟩
  have hd : KeysDistinct cfg1 :=
    ⟨by decide, List.forall_mem_cons.2 ⟨⟨by decide, List.forall_mem_singleton.2 hfreq⟩,
      List.forall_mem_singleton.2 ⟨by decide, List.forall_mem_singleton.2 (List.nodup_singleton _)⟩⟩⟩
  exact ⟨h, hd, ofConfig_order_independent h hd⟩

/-! ## The table gives back its configuration -/

/-- When the keys of every level are distinct, the table gives back its
configuration: at a configured temperature and voltage, `get` returns the
value of the voltage's `"any"` entry at every frequency, and, for a voltage
without one, the configured value at each configured frequency. -/
theorem get_ofConfig_configured {cfg : List (α × List (α × List (FreqKey α × α)))}
    (hd : KeysDistinct cfg) {temp volt : α} {tchilds : List (α × List (FreqKey α × α))}
    {vchilds : List (FreqKey α × α)} (ht : (temp, tchilds) ∈ cfg) (hv : (volt, vchilds) ∈ tchilds) :
    (∀ value, (.any, value) ∈ vchilds →
      ∀ frequency, (PowerLinearTable.ofConfig cfg).get temp volt frequency = some value) ∧
    ((∀ value, (.any, value) ∉ vchilds) → ∀ f value, (.freq f, value) ∈ vchilds →
      (PowerLinearTable.ofConfig cfg).get temp volt f = some value) :=
  (PowerLinearTable.ofConfig_builtFrom cfg).get_configured hd ht hv

/-- A voltage with frequencies 200 and 100 beside a voltage with an `"any"`
entry: the table gives back 4 at 200 and 2 at 100 on the first, and 3 at every
frequency on the second. -/
theorem get_ofConfig_configured_two_frequencies :
    let cfg : List (ℚ × List (ℚ × List (FreqKey ℚ × ℚ))) :=
      [(25, [(1, [(.freq 200, 4), (.freq 100, 2)]), (2, [(.any, 3)])])]
    KeysDistinct cfg ∧ (PowerLinearTable.ofConfig cfg).get 25 1 200 = some 4 ∧
      (PowerLinearTable.ofConfig cfg).get 25 1 100 = some 2 ∧
      (PowerLinearTable.ofConfig cfg).get 25 2 150 = some 3 := by
  intro cfg
  have hd : KeysDistinct cfg := by unfold KeysDistinct; decide
  have ht : (25, _) ∈ cfg := List.mem_singleton_self _
  have h1 := get_ofConfig_configured hd ht (List.mem_cons_self _ _)
  have h2 := get_ofConfig_configured hd ht (List.mem_cons_of_mem _ (List.mem_singleton_self _))
  have hno : ∀ value, (.any, value) ∉ ([(.freq 200, 4), (.freq 100, 2)] : List (FreqKey ℚ × ℚ)) := by
    simp
  exact ⟨hd, h1.2 hno 200 4 (by simp), h1.2 hno 100 2 (by simp), h2.1 3 (List.mem_singleton_self _) 150⟩

/-! ## The table takes its values from the configuration -/

/-- The power values a configuration lists, `"any"` entries included. -/
def configValues (cfg : List (α × List (α × List (FreqKey α × α)))) : List α :=
  cfg.flatMap fun x => x.2.flatMap fun y => y.2.map Prod.snd

theorem mem_lastAny {any : Option (PowerLinearFreqTable α)} {childs : List (FreqKey α × α)}
    {t : PowerLinearFreqTable α} (h : t ∈ lastAny any childs) :
    t ∈ any ∨ ∃ v, t = ⟨0, v⟩ ∧ (.any, v) ∈ childs := by
  induction childs generalizing any with
  | nil => exact .inl h
  | cons x xs ih =>
    obtain ⟨_ | f, v⟩ := x
    · rcases ih h with h | ⟨v', rfl, hv'⟩
      · exact .inr ⟨v, (Option.mem_some_iff.1 h).symm, List.mem_cons_self _ _⟩
      · exact .inr ⟨v', rfl, List.mem_cons_of_mem _ hv'⟩
    · rcases ih h with h | ⟨v', rfl, hv'⟩
      · exact .inl h
      · exact .inr ⟨v', rfl, List.mem_cons_of_mem _ hv'⟩

theorem PowerLinearVoltTable.values_ofConfig_subset (volt : α) (childs : List (FreqKey α × α)) :
    ∀ y ∈ (ofConfig volt childs).values, y ∈ childs.map Prod.snd := by
  intro y hy
  rw [ofConfig_eq, values, List.mem_append] at hy
  rcases hy with hy | hy
  · -- the `any` entry
    obtain ⟨t, ht, rfl⟩ := Option.map_eq_some'.1 (Option.mem_toList.1 hy)
    rcases mem_lastAny ht with h | ⟨v, rfl, hv⟩
    · exact absurd h (Option.not_mem_none _)
    · exact List.mem_map_of_mem _ hv
  · -- a frequency table
    obtain ⟨t, ht, rfl⟩ := List.mem_map.1 hy
    obtain ⟨⟨_ | f, v⟩, hx, hxt⟩ := List.mem_filterMap.1 ((List.perm_insertionSort _ _).mem_iff.1 ht)
    · exact absurd hxt (Option.some_ne_none _).symm
    · obtain rfl := Option.some_inj.1 hxt
      exact List.mem_map_of_mem _ hx

theorem PowerLinearTempTable.values_ofConfig_subset (temp : α) (childs : List (α × List (FreqKey α × α))) :
    ∀ y ∈ (ofConfig temp childs).values, y ∈ childs.flatMap fun x => x.2.map Prod.snd := by
  intro y hy
  obtain ⟨v, hv, hy⟩ := List.mem_flatMap.1 hy
  obtain ⟨x, hx, rfl⟩ := List.mem_map.1 ((List.perm_insertionSort _ _).mem_iff.1 hv)
  exact List.mem_flatMap.2 ⟨x, hx, PowerLinearVoltTable.values_ofConfig_subset x.1 x.2 y hy⟩

/-- The constructors invent no power value. -/
theorem PowerLinearTable.values_ofConfig_subset (cfg : List (α × List (α × List (FreqKey α × α)))) :
    ∀ y ∈ (ofConfig cfg).values, y ∈ configValues cfg := by
  intro y hy
  obtain ⟨t, ht, hy⟩ := List.mem_flatMap.1 hy
  obtain ⟨x, hx, rfl⟩ := List.mem_map.1 ((List.perm_insertionSort _ _).mem_iff.1 ht)
  exact List.mem_flatMap.2 ⟨x, hx, PowerLinearTempTable.values_ofConfig_subset x.1 x.2 y hy⟩

/-- For every configuration, sorted or not and with repeated keys or not, the
table built from it gives, at every temperature, voltage and frequency, only
values between any bounds of the configured power values. -/
theorem get_within_configured (cfg : List (α × List (α × List (FreqKey α × α)))) (lo hi : α)
    (h : ∀ y ∈ configValues cfg, lo ≤ y ∧ y ≤ hi) (temp volt frequency : α) :
    ∀ x ∈ (PowerLinearTable.ofConfig cfg).get temp volt frequency, lo ≤ x ∧ x ≤ hi :=
  lookup_mem_Icc lo hi _ _ _ _ fun tt htt => tt.get_mem_Icc lo hi
    (fun y hy => h y (PowerLinearTable.values_ofConfig_subset cfg y (List.mem_flatMap.2 ⟨tt, htt, hy⟩)))
    volt frequency

/-- Two `"any"` entries for one voltage, 1 and 2, and frequency entries 3 and 5:
whatever the table keeps, `get` stays within 1 and 5. -/
theorem get_within_configured_repeated_any :
    let cfg : List (ℚ × List (ℚ × List (FreqKey ℚ × ℚ))) :=
      [(25, [(1, [(.any, 1), (.any, 2)]), (2, [(.freq 200, 5), (.freq 100, 3)])])]
    (∀ y ∈ configValues cfg, 1 ≤ y ∧ y ≤ 5) ∧
      ∀ temp volt frequency : ℚ,
        ∀ x ∈ (PowerLinearTable.ofConfig cfg).get temp volt frequency, 1 ≤ x ∧ x ≤ 5 := by
  intro cfg
  have h : ∀ y ∈ configValues cfg, (1 : ℚ) ≤ y ∧ y ≤ 5 := by decide
  exact ⟨h, get_within_configured cfg 1 5 h⟩

end Gvsoc.Power
