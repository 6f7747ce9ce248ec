import Gvsoc.Cpu.Accounting

/-! # One request in flight

The LSU owns a single request slot. It is safe to reuse only if the slot is
never submitted while an earlier submission is outstanding. That holds for
every run of a disciplined caller except one: `data_misaligned_req` answers
`IO_REQ_INVALID` when the memory accepts the first half of a split access
pending, which it reports as unimplemented, and that half is then still
outstanding when the caller moves on.
-/

namespace Gvsoc.Cpu

set_option autoImplicit false

variable {P : Platform}

/-- The memory does not accept the first half of a split access pending, the
combination `data_misaligned_req` reports as unimplemented. -/
def NoPendingFirstHalf (_ : Sys P) : Event P → Prop
  | .dataReq addr _ size _ reply _ => Crosses addr size → reply.status ≠ .pending
  | _ => True

/-- At most one request in flight: nothing is outstanding once the caller's
access is resolved, nothing while the second half is armed, never two requests,
and no submission so far was made over an outstanding one. -/
structure OneInFlight (s : Sys P) : Prop where
  idle : s.waiting = false → s.iss.data.outstanding = []
  armed : s.iss.exec.armed = true → s.waiting = true ∧ s.iss.data.outstanding = []
  single : s.iss.data.outstanding.length ≤ 1
  clean : s.iss.data.overlapped = false

theorem OneInFlight.unarmed {s : Sys P} (h : OneInFlight s) (hw : s.waiting = false) :
    s.iss.exec.armed = false := by
  cases hx : s.iss.exec.armed
  · rfl
  · simp [(h.armed hx).1] at hw

theorem oneInFlight_step {s : Sys P} {e : Event P} (hd : Disciplined s e) (he : Environment s e)
    (hs : NoPendingFirstHalf s e) (h : OneInFlight s) : OneInFlight (s.step e) := by
  cases e with
  | dataReq addr dataPtr size isWrite reply registration =>
    have ho := h.idle hd
    have ha := h.unarmed hd
    simp only [Sys.step, dataReq_eq]
    split
    · rename_i hc
      have hp : reply.status ≠ .pending := hs hc
      cases reply <;> constructor <;>
        simp_all [dataMisalignedReq_eq, Port.submit, Reply.status, Exec.insnStall, Exec.insnHold, h.clean]
    · cases reply <;> constructor <;>
        simp [dataReqAligned_eq, Port.submit, Reply.status, Exec.insnStall, ho, ha, h.clean]
  | atomic addr size regIn regOut opcode reply =>
    have ho := h.idle hd
    have ha := h.unarmed hd
    simp only [Sys.step]
    cases ht : Lsu.atomicTranslation s.iss addr opcode with
    | none => rw [atomic_none _ _ _ _ _ _ _ ht]; constructor <;> simp [ho, ha, h.clean]
    | some p =>
      cases reply <;> constructor <;>
        simp [atomic_ok, atomic_invalid, atomic_pending, ht, Port.submit, Reply.status, Exec.insnStall, ho, ha,
          h.clean]
  | execMisaligned reply =>
    obtain ⟨hw, ho⟩ := h.armed he.2.1
    simp only [Sys.step, execMisaligned_eq]
    cases reply <;> constructor <;>
      simp [resumed, Port.submit, Reply.status, Exec.insnStall, Exec.switchToFullMode, hw, ho, h.clean]
  | dataResponse latency result =>
    obtain ⟨req, rest, hrest⟩ := List.exists_cons_of_ne_nil he.1
    have hnil : rest = [] := by simpa [hrest] using h.single
    have ha : s.iss.exec.armed = false := by
      cases hx : s.iss.exec.armed
      · rfl
      · simp [(h.armed hx).2] at hrest
    simp only [Sys.step, Lsu.dataResponse, respond_cons _ _ _ hrest]
    constructor <;> split <;> simp [Exec.stalledDec, hnil, ha, h.clean]
  | reset active =>
    -- a reset touches only the LSU's own fields, which the invariant does not read
    cases active <;> exact ⟨h.idle, h.armed, h.single, h.clean⟩

theorem oneInFlight_init (iss : Iss P) : OneInFlight (Sys.init iss) :=
  ⟨fun _ => rfl, fun h => by simp [Sys.init] at h, by simp [Sys.init, Port.idle], rfl⟩

/-- The invariant holds in every state of a run whose steps are disciplined,
happen in the environment, and never have a split's first half pending. -/
theorem OneInFlight.of_reachable {admissible : Sys P → Event P → Prop} {iss : Iss P} {s : Sys P}
    (hAdm : ∀ s e, admissible s e → Disciplined s e ∧ Environment s e ∧ NoPendingFirstHalf s e)
    (h : Reachable admissible (Sys.init iss) s) : OneInFlight s :=
  h.induction OneInFlight (oneInFlight_init iss) fun _ _ _ hs ha =>
    let ⟨hd, he, hn⟩ := hAdm _ _ ha
    oneInFlight_step hd he hn hs

/-- Over every run of a disciplined caller in which the memory never accepts a
split access's first half pending, the request slot is never submitted while
an earlier submission is outstanding, and an access that answered
`IO_REQ_OK` or `IO_REQ_INVALID` leaves nothing outstanding. -/
theorem one_in_flight {iss : Iss P} {s : Sys P}
    (h : Reachable (fun s e => Disciplined s e ∧ Environment s e ∧ NoPendingFirstHalf s e)
      (Sys.init iss) s) :
    s.iss.data.overlapped = false ∧ (s.waiting = false → s.iss.data.outstanding = []) := by
  have hInv : OneInFlight s := OneInFlight.of_reachable (fun _ _ h => h) h
  exact ⟨hInv.clean, hInv.idle⟩

/-- An aligned load accepted pending, then its response. -/
theorem one_in_flight_pending_load :
    let s := ((Sys.init bareCore).step (.dataReq 16 ⟨.buffer 0, 0⟩ 4 false .pending ⟨.loadResume, 5, 4⟩)).step
      (.dataResponse 2 0)
    Reachable (fun s e => Disciplined s e ∧ Environment s e ∧ NoPendingFirstHalf s e)
        (Sys.init bareCore) s ∧
      (s.iss.data.overlapped = false ∧ (s.waiting = false → s.iss.data.outstanding = [])) := by
  have hr : Reachable (fun s e => Disciplined s e ∧ Environment s e ∧ NoPendingFirstHalf s e)
      (Sys.init bareCore) (((Sys.init bareCore).step
        (.dataReq 16 ⟨.buffer 0, 0⟩ 4 false .pending ⟨.loadResume, 5, 4⟩)).step (.dataResponse 2 0)) :=
    (Reachable.init.step ⟨rfl, ⟨trivial, trivial⟩, by simp only [NoPendingFirstHalf]; decide⟩).step
      ⟨trivial, ⟨by simp only [MemoryAnswers]; decide, trivial⟩, trivial⟩
  exact ⟨hr, one_in_flight hr⟩

/-- A split access whose first half the memory accepts pending answers
`IO_REQ_INVALID` while that half is outstanding, and the caller's next access
submits the request slot over it. -/
theorem pending_first_half_overlaps :
    ¬ ∀ (iss : Iss rv32) (s : Sys rv32),
      Reachable (fun s e => Disciplined s e ∧ Environment s e) (Sys.init iss) s →
        s.iss.data.overlapped = false := by
  intro h
  let buf : Ptr := ⟨.buffer 0, 0⟩
  let r : Registration := ⟨.loadResume, 0, 0⟩
  have hr : Reachable (fun s e => Disciplined s e ∧ Environment s e) (Sys.init bareCore)
      (((Sys.init bareCore).step (.dataReq 3 buf 4 false .pending r)).step
        (.dataReq 16 buf 4 false (.ok 0 0) r)) :=
    (Reachable.init.step ⟨rfl, trivial, trivial⟩).step
      ⟨by simp only [Disciplined]; decide, trivial, trivial⟩
  exact absurd (h _ _ hr) (by decide)

end Gvsoc.Cpu
