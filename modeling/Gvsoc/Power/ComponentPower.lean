import Mathlib

/-! # `component_power.cpp`

Every component of the simulated system owns a `component_power` holding the
power traces registered through `new_power_trace`; the components below it are
the ones `get_childs` returns. `power_get_energy_from_self_and_childs` adds the
energy of the component's own traces to the two accumulators and then calls
`power_get_energy_from_childs`, which does the same for the subtree of every
child. Over any tree the two functions add the energy of every trace of the
subtree once.

Energies are taken in an additive monoid, standing for `double` in exact
arithmetic; the two `double *` accumulators are passed in and returned.
-/

namespace Gvsoc.Power

set_option autoImplicit false

/-- A `power_trace`, by the dynamic and leakage energy its `get_energy`
reports. Modelled from the spec: `power_trace` is not under src/. -/
structure PowerTrace (α : Type) where
  dynamic : α
  leakage : α
  deriving DecidableEq, Repr

/-- A component's `component_power`: its `traces` and the components
`get_childs` returns. Modelled from the spec: `vp::component` is not under src/. -/
inductive ComponentPower (α : Type) where
  | mk (traces : List (PowerTrace α)) (childs : List (ComponentPower α))

namespace ComponentPower

variable {α : Type}

/-- `traces`. -/
def traces : ComponentPower α → List (PowerTrace α)
  | mk traces _ => traces

/-- `top.get_childs()`. -/
def childs : ComponentPower α → List (ComponentPower α)
  | mk _ childs => childs

@[simp] theorem traces_mk (ts : List (PowerTrace α)) (cs : List (ComponentPower α)) :
    (mk ts cs).traces = ts := rfl

@[simp] theorem childs_mk (ts : List (PowerTrace α)) (cs : List (ComponentPower α)) :
    (mk ts cs).childs = cs := rfl

/-- `component_power::new_power_trace`, where `initFailed` is what
`trace->init` returns: a trace whose `init` fails is not registered. -/
def newPowerTrace (c : ComponentPower α) (trace : PowerTrace α) (initFailed : Bool) :
    ComponentPower α × Int :=
  if initFailed then (c, -1) else (mk (c.traces ++ [trace]) c.childs, 0)

section Energy

variable [Add α]

/-- The loop of `power_get_energy_from_self_and_childs` over the component's
traces. -/
def addTraces (traces : List (PowerTrace α)) (dynamic leakage : α) : α × α :=
  traces.foldl (fun acc x => (acc.1 + x.dynamic, acc.2 + x.leakage)) (dynamic, leakage)

mutual

/-- `component_power::power_get_energy_from_self_and_childs`, from the values
of `*dynamic` and `*leakage` to the values it leaves in them. -/
def powerGetEnergyFromSelfAndChilds : ComponentPower α → α → α → α × α
  | mk traces childs, dynamic, leakage =>
    let acc := addTraces traces dynamic leakage
    powerGetEnergyFromChildList childs acc.1 acc.2

/-- The loop of `power_get_energy_from_childs` over the children. -/
def powerGetEnergyFromChildList : List (ComponentPower α) → α → α → α × α
  | [], dynamic, leakage => (dynamic, leakage)
  | x :: xs, dynamic, leakage =>
    let acc := x.powerGetEnergyFromSelfAndChilds dynamic leakage
    powerGetEnergyFromChildList xs acc.1 acc.2

end

/-- `component_power::power_get_energy_from_childs`. -/
def powerGetEnergyFromChilds (c : ComponentPower α) (dynamic leakage : α) : α × α :=
  powerGetEnergyFromChildList c.childs dynamic leakage

/-- `power_get_energy_from_self_and_childs` adds the component's traces, then
calls `power_get_energy_from_childs`. -/
theorem powerGetEnergyFromSelfAndChilds_eq (c : ComponentPower α) (dynamic leakage : α) :
    c.powerGetEnergyFromSelfAndChilds dynamic leakage =
      c.powerGetEnergyFromChilds (addTraces c.traces dynamic leakage).1
        (addTraces c.traces dynamic leakage).2 := by
  cases c
  rfl

end Energy

mutual

/-- The components of the subtree rooted at a component, itself first. -/
def components : ComponentPower α → List (ComponentPower α)
  | mk traces childs => mk traces childs :: componentsOf childs

/-- The components of the subtrees rooted at the components of a list. -/
def componentsOf : List (ComponentPower α) → List (ComponentPower α)
  | [] => []
  | x :: xs => x.components ++ componentsOf xs

end

section Sums

variable [AddMonoid α]

theorem addTraces_eq_sum (traces : List (PowerTrace α)) (dynamic leakage : α) :
    addTraces traces dynamic leakage =
      (dynamic + (traces.map PowerTrace.dynamic).sum, leakage + (traces.map PowerTrace.leakage).sum) := by
  induction traces generalizing dynamic leakage with
  | nil => simp [addTraces]
  | cons x xs ih =>
    rw [addTraces, List.foldl_cons, ← addTraces, ih]
    simp only [List.map_cons, List.sum_cons, add_assoc]

mutual

theorem selfAndChilds_eq_sum :
    ∀ (c : ComponentPower α) (dynamic leakage : α),
      c.powerGetEnergyFromSelfAndChilds dynamic leakage =
        (dynamic + (c.components.map fun x => (x.traces.map PowerTrace.dynamic).sum).sum,
          leakage + (c.components.map fun x => (x.traces.map PowerTrace.leakage).sum).sum)
  | mk traces childs, dynamic, leakage => by
    rw [powerGetEnergyFromSelfAndChilds, addTraces_eq_sum, childList_eq_sum childs, components]
    simp only [List.map_cons, List.sum_cons, traces_mk, add_assoc]

theorem childList_eq_sum :
    ∀ (cs : List (ComponentPower α)) (dynamic leakage : α),
      powerGetEnergyFromChildList cs dynamic leakage =
        (dynamic + ((componentsOf cs).map fun x => (x.traces.map PowerTrace.dynamic).sum).sum,
          leakage + ((componentsOf cs).map fun x => (x.traces.map PowerTrace.leakage).sum).sum)
  | [], dynamic, leakage => by simp [powerGetEnergyFromChildList, componentsOf]
  | x :: xs, dynamic, leakage => by
    rw [powerGetEnergyFromChildList, selfAndChilds_eq_sum x, childList_eq_sum xs, componentsOf]
    simp only [List.map_append, List.sum_append, add_assoc]

end

/-- Over any component tree and any energies of its traces,
`power_get_energy_from_self_and_childs` adds to the accumulators the energy of
every trace of every component of the subtree, each once, and
`power_get_energy_from_childs` that of the subtrees of the children only. -/
theorem energy_counts_each_trace_once (c : ComponentPower α) (dynamic leakage : α) :
    c.powerGetEnergyFromSelfAndChilds dynamic leakage =
        (dynamic + (c.components.map fun x => (x.traces.map PowerTrace.dynamic).sum).sum,
          leakage + (c.components.map fun x => (x.traces.map PowerTrace.leakage).sum).sum) ∧
      c.powerGetEnergyFromChilds dynamic leakage =
        (dynamic + ((componentsOf c.childs).map fun x => (x.traces.map PowerTrace.dynamic).sum).sum,
          leakage + ((componentsOf c.childs).map fun x => (x.traces.map PowerTrace.leakage).sum).sum) :=
  ⟨selfAndChilds_eq_sum c dynamic leakage, childList_eq_sum c.childs dynamic leakage⟩

example : powerGetEnergyFromSelfAndChilds
    (mk [⟨1, 2⟩] [mk [⟨3, 4⟩, ⟨5, 6⟩] [], mk [] [mk [⟨7, 8⟩] []]] : ComponentPower Nat) 10 20 =
      (26, 40) := by
  decide

end Sums

/-! ## Registering a trace anywhere in the tree -/

/-- The component at an address below `c`, child index after child index;
`none` when the address leaves the tree. -/
def componentAt (c : ComponentPower α) : List Nat → Option (ComponentPower α)
  | [] => some c
  | i :: rest => c.childs[i]?.bind fun x => x.componentAt rest

/-- The tree after the component at `path` becomes `f` of it. A
`component_power` is changed in place, and every ancestor sees the change
through its children; an address that leaves the tree changes nothing. -/
def modifyAt (f : ComponentPower α → ComponentPower α) : ComponentPower α → List Nat → ComponentPower α
  | c, [] => f c
  | c, i :: rest => mk c.traces (c.childs.modify (fun x => modifyAt f x rest) i)

theorem modifyAt_of_forall_eq (f : ComponentPower α → ComponentPower α) (hf : ∀ x, f x = x) :
    ∀ (c : ComponentPower α) (path : List Nat), c.modifyAt f path = c
  | c, [] => hf c
  | mk traces childs, i :: rest => by
    have hg : (fun x => modifyAt f x rest) = id := funext fun x => modifyAt_of_forall_eq f hf x rest
    rw [modifyAt, hg, List.modify_id, traces_mk, childs_mk]

section Subtree

variable [AddCommMonoid α]

/-- The energy of the traces of the subtree rooted at `c`, by the part `w` of
each trace's energy. -/
def subtreeEnergy (w : PowerTrace α → α) (c : ComponentPower α) : α :=
  (c.components.map fun x => (x.traces.map w).sum).sum

theorem sum_map_componentsOf (g : ComponentPower α → α) (cs : List (ComponentPower α)) :
    ((componentsOf cs).map g).sum = (cs.map fun x => (x.components.map g).sum).sum := by
  induction cs with
  | nil => rfl
  | cons x xs ih => rw [componentsOf, List.map_append, List.sum_append, ih, List.map_cons, List.sum_cons]

theorem subtreeEnergy_mk (w : PowerTrace α → α) (ts : List (PowerTrace α)) (cs : List (ComponentPower α)) :
    subtreeEnergy w (mk ts cs) = (ts.map w).sum + (cs.map (subtreeEnergy w)).sum := by
  rw [subtreeEnergy, components, List.map_cons, List.sum_cons, sum_map_componentsOf, traces_mk]
  rfl

theorem selfAndChilds_eq_subtreeEnergy (c : ComponentPower α) (dynamic leakage : α) :
    c.powerGetEnergyFromSelfAndChilds dynamic leakage =
      (dynamic + subtreeEnergy PowerTrace.dynamic c, leakage + subtreeEnergy PowerTrace.leakage c) :=
  selfAndChilds_eq_sum c dynamic leakage

theorem subtreeEnergy_newPowerTrace (w : PowerTrace α → α) (c : ComponentPower α) (trace : PowerTrace α) :
    subtreeEnergy w (c.newPowerTrace trace false).1 = subtreeEnergy w c + w trace := by
  cases c with
  | mk ts cs =>
    rw [newPowerTrace, if_neg Bool.false_ne_true, traces_mk, childs_mk, subtreeEnergy_mk, subtreeEnergy_mk,
      List.map_append, List.sum_append, List.map_singleton, List.sum_singleton, add_right_comm]

theorem sum_map_modify {β : Type} (h : β → α) (g : β → β) (δ : α) :
    ∀ {l : List β} {i : Nat} (hi : i < l.length), h (g l[i]) = h l[i] + δ →
      ((l.modify g i).map h).sum = (l.map h).sum + δ
  | a :: l, 0, _, hg => by
    have hga : h (g a) = h a + δ := hg
    rw [List.modify_zero_cons, List.map_cons, List.sum_cons, hga, List.map_cons, List.sum_cons, add_right_comm]
  | a :: l, i + 1, hi, hg => by
    rw [List.modify_succ_cons, List.map_cons, List.sum_cons,
      sum_map_modify h g δ (Nat.lt_of_succ_lt_succ hi) hg, List.map_cons, List.sum_cons, add_assoc]

/-- A change that adds `δ` to the energy of the component it changes adds `δ`
to the energy of every ancestor. -/
theorem subtreeEnergy_modifyAt (w : PowerTrace α → α) (f : ComponentPower α → ComponentPower α) (δ : α)
    (hf : ∀ x, subtreeEnergy w (f x) = subtreeEnergy w x + δ) :
    ∀ (c : ComponentPower α) (path : List Nat), (c.componentAt path).isSome →
      subtreeEnergy w (c.modifyAt f path) = subtreeEnergy w c + δ
  | c, [], _ => hf c
  | mk traces childs, i :: rest, h => by
    have hi : i < childs.length := by
      by_contra hge
      rw [componentAt, childs_mk, List.getElem?_eq_none (not_lt.1 hge)] at h
      simp at h
    rw [componentAt, childs_mk, List.getElem?_eq_getElem hi, Option.some_bind] at h
    rw [modifyAt, traces_mk, childs_mk, subtreeEnergy_mk, subtreeEnergy_mk,
      sum_map_modify _ _ δ hi (subtreeEnergy_modifyAt w f δ hf childs[i] rest h), add_assoc]

/-- Registering a trace on any component of the tree raises the energy the
top component reports by that trace's energy, once; a trace whose `init`
fails leaves the whole tree as it was. -/
theorem newPowerTrace_anywhere_counts_once (c : ComponentPower α) (path : List Nat)
    (h : (c.componentAt path).isSome) (trace : PowerTrace α) (dynamic leakage : α) :
    (c.modifyAt (fun x => (x.newPowerTrace trace false).1) path).powerGetEnergyFromSelfAndChilds
        dynamic leakage =
      ((c.powerGetEnergyFromSelfAndChilds dynamic leakage).1 + trace.dynamic,
        (c.powerGetEnergyFromSelfAndChilds dynamic leakage).2 + trace.leakage) ∧
      c.modifyAt (fun x => (x.newPowerTrace trace true).1) path = c := by
  refine ⟨?_, modifyAt_of_forall_eq _ (fun _ => rfl) c path⟩
  rw [selfAndChilds_eq_subtreeEnergy, selfAndChilds_eq_subtreeEnergy,
    subtreeEnergy_modifyAt _ _ _ (fun x => subtreeEnergy_newPowerTrace _ x trace) c path h,
    subtreeEnergy_modifyAt _ _ _ (fun x => subtreeEnergy_newPowerTrace _ x trace) c path h, add_assoc, add_assoc]

/-- A trace registered on a grandchild. -/
theorem newPowerTrace_anywhere_grandchild :
    ((mk [⟨1, 2⟩] [mk [⟨3, 4⟩] [], mk [] [mk [⟨7, 8⟩] []]] : ComponentPower Nat).componentAt [1, 0]).isSome ∧
      ((mk [⟨1, 2⟩] [mk [⟨3, 4⟩] [], mk [] [mk [⟨7, 8⟩] []]] : ComponentPower Nat).modifyAt
          (fun x => (x.newPowerTrace ⟨5, 6⟩ false).1) [1, 0]).powerGetEnergyFromSelfAndChilds 0 0 =
        (((mk [⟨1, 2⟩] [mk [⟨3, 4⟩] [], mk [] [mk [⟨7, 8⟩] []]] : ComponentPower Nat).powerGetEnergyFromSelfAndChilds
            0 0).1 + 5,
          ((mk [⟨1, 2⟩] [mk [⟨3, 4⟩] [], mk [] [mk [⟨7, 8⟩] []]] : ComponentPower Nat).powerGetEnergyFromSelfAndChilds
            0 0).2 + 6) ∧
      (mk [⟨1, 2⟩] [mk [⟨3, 4⟩] [], mk [] [mk [⟨7, 8⟩] []]] : ComponentPower Nat).modifyAt
          (fun x => (x.newPowerTrace ⟨5, 6⟩ true).1) [1, 0] =
        mk [⟨1, 2⟩] [mk [⟨3, 4⟩] [], mk [] [mk [⟨7, 8⟩] []]] :=
  ⟨rfl, newPowerTrace_anywhere_counts_once _ [1, 0] (by rfl) ⟨5, 6⟩ 0 0⟩

end Subtree

end ComponentPower

end Gvsoc.Power
