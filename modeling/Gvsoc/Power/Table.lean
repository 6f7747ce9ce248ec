import Mathlib

/-! # `power_table.cpp`

A power table gives a power value by temperature, voltage and frequency. Each
level keeps its sub-tables sorted by key, and its `get` searches the keys for
the two sub-tables around the query and interpolates linearly between them,
or takes the nearest one outside the key range. The three `get` functions
share their search and interpolation, which `lookup` states once.

Values are taken in a linearly ordered field, standing for `double` in exact
arithmetic. A vector access at an index out of range, which the code does not
guard, gives `none`. The keys are taken as `my_stod` returns them.
-/

namespace Gvsoc.Power

set_option autoImplicit false

variable {α : Type} [LinearOrderedField α]

/-- `PowerLinearFreqTable`. -/
structure PowerLinearFreqTable (α : Type) where
  freq : α
  value : α

/-- `PowerLinearVoltTable`: the `any` entry, when there is one, and the
frequency tables. -/
structure PowerLinearVoltTable (α : Type) where
  volt : α
  any : Option (PowerLinearFreqTable α)
  freqTables : List (PowerLinearFreqTable α)

/-- `PowerLinearTempTable`. -/
structure PowerLinearTempTable (α : Type) where
  temp : α
  voltTables : List (PowerLinearVoltTable α)

/-- `PowerLinearTable`. -/
structure PowerLinearTable (α : Type) where
  tempTables : List (PowerLinearTempTable α)

/-- `v[i]` for an `int` index `i`: `none` out of range. -/
def entryAt {β : Type} (v : List β) (i : Int) : Option β :=
  if 0 ≤ i then v[i.toNat]? else none

/-- The search loop of the three `get` functions, from index `i` with `low`
found so far; it returns `low` and `high` as the loop leaves them, `-1` for
an index it did not set. -/
def scanFrom (q : α) : List α → Nat → Int → Int × Int
  | [], _, low => (low, -1)
  | k :: ks, i, low =>
    if k = q then (i, i) else if k > q then (low, i) else scanFrom q ks (i + 1) i

/-- The search loop over the keys in table order, from `low = high = -1`. -/
def scan (keys : List α) (q : α) : Int × Int := scanFrom q keys 0 (-1)

/-- The two steps after the loop: an unset index takes the other's value. -/
def clampIndices (bounds : Int × Int) : Int × Int :=
  let high := if bounds.2 = -1 then bounds.1 else bounds.2
  let low := if bounds.1 = -1 then high else bounds.1
  (low, high)

/-- The body of the three `get` functions: search the keys for `q`, then take
the entry of the table found or interpolate between the two. -/
def lookup {β : Type} (tables : List β) (key : β → α) (entry : β → Option α) (q : α) :
    Option α :=
  let bounds := clampIndices (scan (tables.map key) q)
  if bounds.2 = bounds.1 then (entryAt tables bounds.1).bind entry
  else do
    let lo ← entryAt tables bounds.1
    let hi ← entryAt tables bounds.2
    let valueAtLow ← entry lo
    let valueAtHigh ← entry hi
    let ratio := (q - key lo) / (key hi - key lo)
    pure ((valueAtHigh - valueAtLow) * ratio + valueAtLow)

/-- `PowerLinearFreqTable::get`. -/
def PowerLinearFreqTable.get (t : PowerLinearFreqTable α) : α := t.value

/-- `PowerLinearVoltTable::get`. -/
def PowerLinearVoltTable.get (t : PowerLinearVoltTable α) (frequency : α) : Option α :=
  match t.any with
  | some any => some any.get
  | none => lookup t.freqTables (·.freq) (fun f => some f.get) frequency

/-- `PowerLinearTempTable::get`. -/
def PowerLinearTempTable.get (t : PowerLinearTempTable α) (volt frequency : α) : Option α :=
  lookup t.voltTables (·.volt) (·.get frequency) volt

/-- `PowerLinearTable::get`. -/
def PowerLinearTable.get (t : PowerLinearTable α) (temp volt frequency : α) : Option α :=
  lookup t.tempTables (·.temp) (·.get volt frequency) temp

/-! ## Construction from the configuration -/

/-- A key of a voltage's configuration: `"any"` or a frequency. -/
inductive FreqKey (α : Type) where
  | any
  | freq (f : α)
  deriving DecidableEq, Repr

/-- One iteration of the loop of the `PowerLinearVoltTable` constructor: an
`"any"` child replaces the `any` entry, any other child adds a frequency
table. -/
def PowerLinearVoltTable.addChild (t : PowerLinearVoltTable α) (x : FreqKey α × α) :
    PowerLinearVoltTable α :=
  match x.1 with
  | .any => { t with any := some ⟨0, x.2⟩ }
  | .freq f => { t with freqTables := t.freqTables ++ [⟨f, x.2⟩] }

/-- `PowerLinearVoltTable::PowerLinearVoltTable`. The `any` pointer starts
null; `std::sort` with its `<=` comparison is taken to leave the frequency
tables in non-decreasing order. -/
def PowerLinearVoltTable.ofConfig (volt : α) (childs : List (FreqKey α × α)) :
    PowerLinearVoltTable α :=
  let t := childs.foldl PowerLinearVoltTable.addChild ⟨volt, none, []⟩
  { t with freqTables := t.freqTables.insertionSort fun a b => a.freq ≤ b.freq }

/-- `PowerLinearTempTable::PowerLinearTempTable`. -/
def PowerLinearTempTable.ofConfig (temp : α) (childs : List (α × List (FreqKey α × α))) :
    PowerLinearTempTable α where
  temp := temp
  voltTables := (childs.map fun x => PowerLinearVoltTable.ofConfig x.1 x.2).insertionSort
    fun a b => a.volt ≤ b.volt

/-- `PowerLinearTable::PowerLinearTable`. -/
def PowerLinearTable.ofConfig (childs : List (α × List (α × List (FreqKey α × α)))) :
    PowerLinearTable α where
  tempTables := (childs.map fun x => PowerLinearTempTable.ofConfig x.1 x.2).insertionSort
    fun a b => a.temp ≤ b.temp

end Gvsoc.Power
