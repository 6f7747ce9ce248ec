import Gvsoc.Power.Interpolation

/-! # What the constructors build

Each constructor reads its level of the configuration in order and sorts the
sub-tables it built by key. The comparison the code gives `std::sort`, `<=`, is
not a strict weak order, so the code leaves tables of equal keys in an order of
its own; the model's stable insertion sort is one order a sort by key may leave.
`BuiltFrom` says what every such order has in common: each level is a
permutation, sorted by key, of the sub-tables built from the configured entries,
and a voltage keeps the value of its last `"any"` entry. The constructors build
such tables, `get` on each of them with an entry at every level is the nested
clamped piecewise-linear interpolant of its entries, and with distinct keys it
gives back the configured value at every configured point.
-/

namespace Gvsoc.Power

set_option autoImplicit false

variable {α : Type} [LinearOrderedField α]

/-! ## The constructors' loops -/

theorem sorted_insertionSort_map {β : Type} (key : β → α) (l : List β) :
    ((l.insertionSort fun a b => key a ≤ key b).map key).Sorted (· ≤ ·) := by
  haveI : IsTotal β fun a b => key a ≤ key b := ⟨fun a b => le_total _ _⟩
  haveI : IsTrans β fun a b => key a ≤ key b := ⟨fun _ _ _ => le_trans⟩
  exact List.pairwise_map.2 (List.sorted_insertionSort _ l)

theorem foldl_addChild_nonempty (childs : List (FreqKey α × α)) (t : PowerLinearVoltTable α)
    (h : childs ≠ [] ∨ t.any.isSome ∨ t.freqTables ≠ []) :
    (childs.foldl PowerLinearVoltTable.addChild t).any.isSome ∨
      (childs.foldl PowerLinearVoltTable.addChild t).freqTables ≠ [] := by
  induction childs generalizing t with
  | nil => simpa using h
  | cons x xs ih =>
    refine ih _ (.inr ?_)
    obtain ⟨k, v⟩ := x
    cases k <;> simp [PowerLinearVoltTable.addChild]

/-- Every level of a configuration has an entry: a temperature, a voltage for
each temperature, and an `"any"` or frequency entry for each voltage. -/
def ConfigNonempty (cfg : List (α × List (α × List (FreqKey α × α)))) : Prop :=
  cfg ≠ [] ∧ ∀ x ∈ cfg, x.2 ≠ [] ∧ ∀ y ∈ x.2, y.2 ≠ []

/-! ## A voltage's entries -/

/-- The frequency of a key; `none` for `"any"`. -/
def FreqKey.toFreq : FreqKey α → Option α
  | .any => none
  | .freq f => some f

/-- The key `"any"`. -/
def FreqKey.isAny : FreqKey α → Bool
  | .any => true
  | .freq _ => false

/-- The frequency tables of a voltage's entries, in configuration order. -/
def freqEntries (childs : List (FreqKey α × α)) : List (PowerLinearFreqTable α) :=
  childs.filterMap fun x => x.1.toFreq.map fun f => ⟨f, x.2⟩

/-- The `any` entry the constructor's loop leaves from `any`: that of the last
`"any"` entry. -/
def lastAny (any : Option (PowerLinearFreqTable α)) (childs : List (FreqKey α × α)) :
    Option (PowerLinearFreqTable α) :=
  childs.foldl (fun acc x => if x.1.isAny then some ⟨0, x.2⟩ else acc) any

/-- The constructor's loop keeps the last `"any"` entry and appends the
frequency entries in order. -/
theorem foldl_addChild_eq (t : PowerLinearVoltTable α) (childs : List (FreqKey α × α)) :
    childs.foldl PowerLinearVoltTable.addChild t =
      ⟨t.volt, lastAny t.any childs, t.freqTables ++ freqEntries childs⟩ := by
  induction childs generalizing t with
  | nil => cases t; simp [lastAny, freqEntries]
  | cons x xs ih =>
    obtain ⟨_ | f, v⟩ := x <;>
      simp [PowerLinearVoltTable.addChild, ih, lastAny, freqEntries, FreqKey.isAny, FreqKey.toFreq]

theorem PowerLinearVoltTable.ofConfig_eq (volt : α) (childs : List (FreqKey α × α)) :
    ofConfig volt childs =
      ⟨volt, lastAny none childs, (freqEntries childs).insertionSort fun a b => a.freq ≤ b.freq⟩ := by
  simp only [ofConfig, foldl_addChild_eq, List.nil_append]

theorem lastAny_filter (any : Option (PowerLinearFreqTable α)) (childs : List (FreqKey α × α)) :
    lastAny any childs = lastAny any (childs.filter (·.1.isAny)) := by
  induction childs generalizing any with
  | nil => rfl
  | cons x xs ih =>
    obtain ⟨_ | f, v⟩ := x <;>
      simp only [lastAny, List.foldl_cons, List.filter_cons, FreqKey.isAny, if_true, if_false] at ih ⊢ <;>
      exact ih _

omit [LinearOrderedField α] in
/-- With distinct keys a voltage has at most one `"any"` entry. -/
theorem filter_isAny_subsingleton {childs : List (FreqKey α × α)} (hd : (childs.map Prod.fst).Nodup) :
    childs.filter (·.1.isAny) = [] ∨ ∃ x, childs.filter (·.1.isAny) = [x] := by
  have hsub := ((List.filter_sublist (p := (·.1.isAny)) childs).map Prod.fst).nodup hd
  have hall : ∀ x ∈ childs.filter (·.1.isAny), x.1 = .any := fun x hx => by
    obtain ⟨_ | f, v⟩ := x
    · rfl
    · simp [FreqKey.isAny] at hx
  generalize childs.filter (·.1.isAny) = l at hsub hall
  rcases l with _ | ⟨x, _ | ⟨y, rest⟩⟩
  · exact .inl rfl
  · exact .inr ⟨x, rfl⟩
  · rw [List.map_cons, List.map_cons, List.nodup_cons] at hsub
    exact absurd (List.mem_cons_self _ _) (hall x (List.mem_cons_self _ _) ▸
      hall y (List.mem_cons_of_mem _ (List.mem_cons_self _ _)) ▸ hsub.1)

omit [LinearOrderedField α] in
theorem filter_isAny_of_mem {childs : List (FreqKey α × α)} (hd : (childs.map Prod.fst).Nodup)
    {value : α} (h : (.any, value) ∈ childs) : childs.filter (·.1.isAny) = [(.any, value)] := by
  have hmem : (.any, value) ∈ childs.filter (·.1.isAny) := List.mem_filter.2 ⟨h, rfl⟩
  rcases filter_isAny_subsingleton hd with h1 | ⟨x, h1⟩
  · rw [h1] at hmem
    exact absurd hmem (List.not_mem_nil _)
  · rw [h1] at hmem ⊢
    rw [List.mem_singleton.1 hmem]

/-- A voltage with distinct keys keeps its `"any"` entry. -/
theorem lastAny_of_mem (any : Option (PowerLinearFreqTable α)) {childs : List (FreqKey α × α)}
    (hd : (childs.map Prod.fst).Nodup) {value : α} (h : (.any, value) ∈ childs) :
    lastAny any childs = some ⟨0, value⟩ := by
  rw [lastAny_filter, filter_isAny_of_mem hd h]
  rfl

/-- A voltage with no `"any"` entry keeps the `any` it starts from. -/
theorem lastAny_of_forall_ne (any : Option (PowerLinearFreqTable α)) {childs : List (FreqKey α × α)}
    (h : ∀ value, (.any, value) ∉ childs) : lastAny any childs = any := by
  rw [lastAny_filter, List.filter_eq_nil_iff.2]
  · rfl
  · rintro ⟨_ | f, v⟩ hx
    · exact absurd hx (h v)
    · simp [FreqKey.isAny]

omit [LinearOrderedField α] in
theorem freqEntries_nodup {childs : List (FreqKey α × α)} (hd : (childs.map Prod.fst).Nodup) :
    ((freqEntries childs).map (·.freq)).Nodup := by
  have hmap : (freqEntries childs).map (·.freq) = (childs.map Prod.fst).filterMap FreqKey.toFreq := by
    rw [freqEntries, List.map_filterMap, List.filterMap_map]
    congr 1
    funext x
    obtain ⟨_ | f, v⟩ := x <;> rfl
  rw [hmap]
  refine hd.filterMap fun a a' b ha ha' => ?_
  cases a <;> cases a' <;> simp_all [FreqKey.toFreq]

theorem PowerLinearVoltTable.ofConfig_volt (volt : α) (childs : List (FreqKey α × α)) :
    (ofConfig volt childs).volt = volt := by
  rw [ofConfig_eq]

theorem PowerLinearTempTable.ofConfig_temp (temp : α) (childs : List (α × List (FreqKey α × α))) :
    (ofConfig temp childs).temp = temp := rfl

/-- No temperature twice, no voltage twice within a temperature, and no
frequency and no `"any"` twice within a voltage. -/
def KeysDistinct (cfg : List (α × List (α × List (FreqKey α × α)))) : Prop :=
  (cfg.map Prod.fst).Nodup ∧ ∀ x ∈ cfg, (x.2.map Prod.fst).Nodup ∧ ∀ y ∈ x.2, (y.2.map Prod.fst).Nodup

/-! ## Tables built from a configuration -/

/-- A voltage table built from `childs` with its frequency tables in an order
sorted by frequency: the last `"any"` entry and the frequency entries. -/
structure PowerLinearVoltTable.BuiltFrom (volt : α) (childs : List (FreqKey α × α))
    (v : PowerLinearVoltTable α) : Prop where
  volt_eq : v.volt = volt
  any_eq : v.any = lastAny none childs
  perm : v.freqTables.Perm (freqEntries childs)
  sorted : (v.freqTables.map (·.freq)).Sorted (· ≤ ·)

/-- A temperature table built from `childs`: the voltage tables built from its
entries, in an order sorted by voltage. -/
structure PowerLinearTempTable.BuiltFrom (temp : α) (childs : List (α × List (FreqKey α × α)))
    (t : PowerLinearTempTable α) : Prop where
  temp_eq : t.temp = temp
  built : ∃ vs, List.Forall₂ (fun x v => PowerLinearVoltTable.BuiltFrom x.1 x.2 v) childs vs ∧
    t.voltTables.Perm vs
  sorted : (t.voltTables.map (·.volt)).Sorted (· ≤ ·)

/-- A power table built from `cfg`: the temperature tables built from its
entries, in an order sorted by temperature. -/
structure PowerLinearTable.BuiltFrom (cfg : List (α × List (α × List (FreqKey α × α))))
    (t : PowerLinearTable α) : Prop where
  built : ∃ ts, List.Forall₂ (fun x tt => PowerLinearTempTable.BuiltFrom x.1 x.2 tt) cfg ts ∧
    t.tempTables.Perm ts
  sorted : (t.tempTables.map (·.temp)).Sorted (· ≤ ·)

theorem forall₂_map_self {γ β : Type} {R : γ → β → Prop} {f : γ → β} {l : List γ}
    (h : ∀ x ∈ l, R x (f x)) : List.Forall₂ R l (l.map f) :=
  List.forall₂_map_right_iff.2 (List.forall₂_same.2 h)

theorem exists_of_forall₂_right {γ β : Type} {R : γ → β → Prop} {l1 : List γ} {l2 : List β}
    (h : List.Forall₂ R l1 l2) {b : β} (hb : b ∈ l2) : ∃ a ∈ l1, R a b := by
  induction h with
  | nil => exact absurd hb (List.not_mem_nil b)
  | cons hab _ ih =>
    rcases List.mem_cons.1 hb with rfl | hb
    · exact ⟨_, List.mem_cons_self _ _, hab⟩
    · obtain ⟨a, ha, hR⟩ := ih hb
      exact ⟨a, List.mem_cons_of_mem _ ha, hR⟩

theorem exists_of_forall₂_left {γ β : Type} {R : γ → β → Prop} {l1 : List γ} {l2 : List β}
    (h : List.Forall₂ R l1 l2) {a : γ} (ha : a ∈ l1) : ∃ b ∈ l2, R a b :=
  exists_of_forall₂_right (List.Forall₂.flip (R := flip R) h) ha

omit [LinearOrderedField α] in
theorem map_key_eq_of_forall₂ {γ β : Type} {R : γ → β → Prop} (f : γ → α) (g : β → α)
    (hR : ∀ a b, R a b → g b = f a) {l1 : List γ} {l2 : List β} (h : List.Forall₂ R l1 l2) :
    l2.map g = l1.map f := by
  induction h with
  | nil => rfl
  | cons hab _ ih => rw [List.map_cons, List.map_cons, hR _ _ hab, ih]

omit [LinearOrderedField α] in
theorem ne_nil_of_forall₂_perm {γ β : Type} {R : γ → β → Prop} {l : List γ} {bs ts : List β}
    (h : List.Forall₂ R l bs) (hp : ts.Perm bs) (hne : l ≠ []) : ts ≠ [] := by
  rwa [← List.length_pos, hp.length_eq, ← h.length_eq, List.length_pos]

theorem PowerLinearVoltTable.ofConfig_builtFrom (volt : α) (childs : List (FreqKey α × α)) :
    (ofConfig volt childs).BuiltFrom volt childs := by
  rw [ofConfig_eq]
  exact ⟨rfl, rfl, List.perm_insertionSort _ _, sorted_insertionSort_map _ _⟩

theorem PowerLinearTempTable.ofConfig_builtFrom (temp : α) (childs : List (α × List (FreqKey α × α))) :
    (ofConfig temp childs).BuiltFrom temp childs :=
  ⟨rfl, ⟨_, forall₂_map_self fun x _ => PowerLinearVoltTable.ofConfig_builtFrom x.1 x.2,
    List.perm_insertionSort _ _⟩, sorted_insertionSort_map _ _⟩

theorem PowerLinearTable.ofConfig_builtFrom (cfg : List (α × List (α × List (FreqKey α × α)))) :
    (ofConfig cfg).BuiltFrom cfg :=
  ⟨⟨_, forall₂_map_self fun x _ => PowerLinearTempTable.ofConfig_builtFrom x.1 x.2,
    List.perm_insertionSort _ _⟩, sorted_insertionSort_map _ _⟩

/-! ## Their well-formedness -/

theorem lastAny_isSome_or_freqEntries {childs : List (FreqKey α × α)} (h : childs ≠ []) :
    (lastAny none childs).isSome ∨ freqEntries childs ≠ [] := by
  have hne := foldl_addChild_nonempty childs ⟨0, none, []⟩ (.inl h)
  rwa [foldl_addChild_eq, List.nil_append] at hne

theorem PowerLinearVoltTable.BuiltFrom.wellFormed {volt : α} {childs : List (FreqKey α × α)}
    {v : PowerLinearVoltTable α} (h : v.BuiltFrom volt childs) (hne : childs ≠ []) : v.WellFormed := by
  refine ⟨h.sorted, ?_⟩
  rw [h.any_eq]
  exact (lastAny_isSome_or_freqEntries hne).imp_right fun hf h0 => hf (List.nil_perm.1 (h0 ▸ h.perm))

theorem PowerLinearTempTable.BuiltFrom.wellFormed {temp : α} {childs : List (α × List (FreqKey α × α))}
    {t : PowerLinearTempTable α} (h : t.BuiltFrom temp childs) (hne : childs ≠ [] ∧ ∀ y ∈ childs, y.2 ≠ []) :
    t.WellFormed := by
  obtain ⟨vs, hvs, hperm⟩ := h.built
  refine ⟨h.sorted, ne_nil_of_forall₂_perm hvs hperm hne.1, fun v hv => ?_⟩
  obtain ⟨x, hx, hxv⟩ := exists_of_forall₂_right hvs (hperm.mem_iff.1 hv)
  exact hxv.wellFormed (hne.2 x hx)

theorem PowerLinearTable.BuiltFrom.wellFormed {cfg : List (α × List (α × List (FreqKey α × α)))}
    {t : PowerLinearTable α} (h : t.BuiltFrom cfg) (hne : ConfigNonempty cfg) : t.WellFormed := by
  obtain ⟨ts, hts, hperm⟩ := h.built
  refine ⟨h.sorted, ne_nil_of_forall₂_perm hts hperm hne.1, fun tt htt => ?_⟩
  obtain ⟨x, hx, hxt⟩ := exists_of_forall₂_right hts (hperm.mem_iff.1 htt)
  exact hxt.wellFormed (hne.2 x hx)

theorem PowerLinearTable.ofConfig_wellFormed {cfg : List (α × List (α × List (FreqKey α × α)))}
    (h : ConfigNonempty cfg) : (ofConfig cfg).WellFormed :=
  (ofConfig_builtFrom cfg).wellFormed h

/-! ## The configured points -/

theorem lookup_of_mem_sorted {β : Type} (key : β → α) (entry : β → Option α) {tables : List β}
    (hs : (tables.map key).Sorted (· ≤ ·)) (hn : (tables.map key).Nodup) {b : β} (hb : b ∈ tables)
    {q : α} (hq : key b = q) : lookup tables key entry q = entry b := by
  have hlt := List.pairwise_map.1 (hs.lt_of_le hn)
  obtain ⟨pre, rest, rfl⟩ := List.append_of_mem hb
  exact lookup_at key entry q pre rest b
    (fun c hc => hq ▸ (List.pairwise_append.1 hlt).2.2 c hc b (List.mem_cons_self _ _)) hq

/-- A level built from the entries of `l`, one sub-table per entry in a
key-sorted order: `lookup` at an entry's key takes the sub-table built from it. -/
theorem lookup_of_forall₂_perm {γ β : Type} {R : γ → β → Prop} (fst : γ → α) (key : β → α)
    (hR : ∀ a b, R a b → key b = fst a) {l : List γ} {bs ts : List β} (h : List.Forall₂ R l bs)
    (hp : ts.Perm bs) (hs : (ts.map key).Sorted (· ≤ ·)) (hd : (l.map fst).Nodup) {a : γ} (ha : a ∈ l) :
    ∃ b, R a b ∧ ∀ entry : β → Option α, lookup ts key entry (fst a) = entry b := by
  obtain ⟨b, hb, hab⟩ := exists_of_forall₂_left h ha
  have hn : (ts.map key).Nodup := (hp.map _).nodup_iff.2 (map_key_eq_of_forall₂ fst key hR h ▸ hd)
  exact ⟨b, hab, fun entry => lookup_of_mem_sorted _ entry hs hn (hp.mem_iff.2 hb) (hR _ _ hab)⟩

theorem PowerLinearVoltTable.BuiltFrom.get_any {volt : α} {childs : List (FreqKey α × α)}
    {v : PowerLinearVoltTable α} (h : v.BuiltFrom volt childs) (hd : (childs.map Prod.fst).Nodup)
    {value : α} (hmem : (.any, value) ∈ childs) (frequency : α) : v.get frequency = some value := by
  unfold PowerLinearVoltTable.get
  rw [h.any_eq, lastAny_of_mem none hd hmem]
  rfl

theorem PowerLinearVoltTable.BuiltFrom.get_freq {volt : α} {childs : List (FreqKey α × α)}
    {v : PowerLinearVoltTable α} (h : v.BuiltFrom volt childs) (hd : (childs.map Prod.fst).Nodup)
    (hany : ∀ value, (.any, value) ∉ childs) {f value : α} (hmem : (.freq f, value) ∈ childs) :
    v.get f = some value := by
  have hn : (v.freqTables.map (·.freq)).Nodup := (h.perm.map _).nodup_iff.2 (freqEntries_nodup hd)
  unfold PowerLinearVoltTable.get
  simp only [h.any_eq, lastAny_of_forall_ne none hany]
  exact lookup_of_mem_sorted _ _ h.sorted hn (h.perm.mem_iff.2 (List.mem_filterMap.2 ⟨_, hmem, rfl⟩)) rfl

theorem PowerLinearTempTable.BuiltFrom.get_eq {temp : α} {childs : List (α × List (FreqKey α × α))}
    {t : PowerLinearTempTable α} (h : t.BuiltFrom temp childs) (hd : (childs.map Prod.fst).Nodup)
    {volt : α} {vchilds : List (FreqKey α × α)} (hv : (volt, vchilds) ∈ childs) :
    ∃ v : PowerLinearVoltTable α, v.BuiltFrom volt vchilds ∧ ∀ frequency, t.get volt frequency = v.get frequency := by
  obtain ⟨vs, hvs, hperm⟩ := h.built
  obtain ⟨v, hvb, hget⟩ := lookup_of_forall₂_perm Prod.fst (·.volt) (fun _ _ h => h.volt_eq) hvs hperm
    h.sorted hd hv
  exact ⟨v, hvb, fun _ => hget _⟩

theorem PowerLinearTable.BuiltFrom.get_eq {cfg : List (α × List (α × List (FreqKey α × α)))}
    {t : PowerLinearTable α} (h : t.BuiltFrom cfg) (hd : (cfg.map Prod.fst).Nodup)
    {temp : α} {tchilds : List (α × List (FreqKey α × α))} (ht : (temp, tchilds) ∈ cfg) :
    ∃ tt : PowerLinearTempTable α, tt.BuiltFrom temp tchilds ∧
      ∀ volt frequency, t.get temp volt frequency = tt.get volt frequency := by
  obtain ⟨ts, hts, hperm⟩ := h.built
  obtain ⟨tt, hb, hget⟩ := lookup_of_forall₂_perm Prod.fst (·.temp) (fun _ _ h => h.temp_eq) hts hperm
    h.sorted hd ht
  exact ⟨tt, hb, fun _ _ => hget _⟩

/-- With distinct keys, a table built from a configuration gives back its
values: at a configured temperature and voltage, the value of the voltage's
`"any"` entry at every frequency, or the configured value at each configured
frequency of a voltage without one. -/
theorem PowerLinearTable.BuiltFrom.get_configured {cfg : List (α × List (α × List (FreqKey α × α)))}
    {t : PowerLinearTable α} (h : t.BuiltFrom cfg) (hd : KeysDistinct cfg) {temp volt : α}
    {tchilds : List (α × List (FreqKey α × α))} {vchilds : List (FreqKey α × α)}
    (ht : (temp, tchilds) ∈ cfg) (hv : (volt, vchilds) ∈ tchilds) :
    (∀ value, (.any, value) ∈ vchilds → ∀ frequency, t.get temp volt frequency = some value) ∧
    ((∀ value, (.any, value) ∉ vchilds) → ∀ f value, (.freq f, value) ∈ vchilds →
      t.get temp volt f = some value) := by
  obtain ⟨tt, htt, hget⟩ := h.get_eq hd.1 ht
  obtain ⟨v, hvb, hvget⟩ := htt.get_eq (hd.2 _ ht).1 hv
  have hvd := (hd.2 _ ht).2 _ hv
  exact ⟨fun _ hmem frequency => (hget volt frequency).trans ((hvget frequency).trans (hvb.get_any hvd hmem frequency)),
    fun hany _ _ hmem => (hget volt _).trans ((hvget _).trans (hvb.get_freq hvd hany hmem))⟩

/-! ## `get` on the tables the constructors build -/

/-- The constructors build from every configuration a table whose every level is
a key-sorted permutation of the sub-tables built from the configured entries,
each voltage with its last `"any"` entry. Every such table built from a
configuration with an entry at every level is well formed, and on every well
formed table `get` answers every query with the nested clamped
piecewise-linear interpolant of its entries: over the temperatures, of the
interpolants over each temperature's voltages, of each voltage's `any` value or
interpolant over its frequencies. With distinct keys, every table built from a
configuration gives back the configured value at every configured point. -/
theorem get_interpolates :
    (∀ cfg : List (α × List (α × List (FreqKey α × α))), (PowerLinearTable.ofConfig cfg).BuiltFrom cfg) ∧
    (∀ (cfg : List (α × List (α × List (FreqKey α × α)))) (t : PowerLinearTable α),
      t.BuiltFrom cfg → ConfigNonempty cfg → t.WellFormed) ∧
    (∀ t : PowerLinearTable α, t.WellFormed → ∀ temp volt frequency : α,
      ∃ x, t.get temp volt frequency = some x ∧ t.interpolated temp volt frequency = some x) ∧
    (∀ (cfg : List (α × List (α × List (FreqKey α × α)))) (t : PowerLinearTable α),
      t.BuiltFrom cfg → KeysDistinct cfg →
      ∀ (temp : α) (tchilds : List (α × List (FreqKey α × α))), (temp, tchilds) ∈ cfg →
      ∀ (volt : α) (vchilds : List (FreqKey α × α)), (volt, vchilds) ∈ tchilds →
        (∀ value, (.any, value) ∈ vchilds → ∀ frequency, t.get temp volt frequency = some value) ∧
        ((∀ value, (.any, value) ∉ vchilds) → ∀ f value, (.freq f, value) ∈ vchilds →
          t.get temp volt f = some value)) :=
  ⟨PowerLinearTable.ofConfig_builtFrom, fun _ _ h hne => h.wellFormed hne,
    fun _ ht => PowerLinearTable.get_spec ht, fun _ _ h hd _ _ ht _ _ hv => h.get_configured hd ht hv⟩

theorem get_interpolates_midpoint :
    let cfg : List (ℚ × List (ℚ × List (FreqKey ℚ × ℚ))) :=
      [(25, [(1, [(.freq 200, 4), (.freq 100, 2)])])]
    ConfigNonempty cfg ∧ KeysDistinct cfg ∧ (PowerLinearTable.ofConfig cfg).get 25 1 150 = some 3 ∧
      (PowerLinearTable.ofConfig cfg).interpolated 25 1 150 = some 3 ∧
      (PowerLinearTable.ofConfig cfg).get 25 1 200 = some 4 := by
  intro cfg
  have hcfg : ConfigNonempty cfg := ⟨List.cons_ne_nil _ _,
    List.forall_mem_singleton.2 ⟨List.cons_ne_nil _ _, List.forall_mem_singleton.2 (List.cons_ne_nil _ _)⟩⟩
  have hd : KeysDistinct cfg := by unfold KeysDistinct; decide
  have htable : PowerLinearTable.ofConfig cfg = ⟨[⟨25, [⟨1, none, [⟨100, 2⟩, ⟨200, 4⟩]⟩]⟩]⟩ := by
    norm_num [cfg, PowerLinearTable.ofConfig, PowerLinearTempTable.ofConfig,
      PowerLinearVoltTable.ofConfig, PowerLinearVoltTable.addChild, List.insertionSort,
      List.orderedInsert]
  have hTemp := lookup_at (fun t : PowerLinearTempTable ℚ => t.temp) (·.get 1 150) 25 [] []
    ⟨25, [⟨1, none, [⟨100, 2⟩, ⟨200, 4⟩]⟩]⟩ (by simp) rfl
  have hVolt := lookup_at (fun v : PowerLinearVoltTable ℚ => v.volt) (·.get 150) 1 [] []
    ⟨1, none, [⟨100, 2⟩, ⟨200, 4⟩]⟩ (by simp) rfl
  have hFreq := lookup_between (fun f : PowerLinearFreqTable ℚ => f.freq) (fun f => some f.get) 150
    [] [] ⟨100, 2⟩ ⟨200, 4⟩ (by norm_num) (by norm_num)
  simp only [List.nil_append] at hTemp hVolt hFreq
  have h3 : (PowerLinearTable.ofConfig cfg).get 25 1 150 = some 3 := by
    rw [htable, PowerLinearTable.get, hTemp, PowerLinearTempTable.get, hVolt, PowerLinearVoltTable.get]
    simp only [hFreq]
    simp only [PowerLinearFreqTable.get, Option.some_bind]
    norm_num
  have hb := get_interpolates.1 cfg
  obtain ⟨x, hget, hspec⟩ := get_interpolates.2.2.1 _ (get_interpolates.2.1 cfg _ hb hcfg) 25 1 150
  have hgrid := (get_interpolates.2.2.2 cfg _ hb hd 25 _ (List.mem_singleton_self _) 1 _
    (List.mem_singleton_self _)).2 (by simp) 200 4 (by simp)
  exact ⟨hcfg, hd, h3, hspec.trans (hget.symm.trans h3), hgrid⟩

end Gvsoc.Power
