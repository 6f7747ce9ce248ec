import Gvsoc.Cpu.PendingRecord

/-! # Resuming the instruction

An access that answers `IO_REQ_PENDING` is finished by its resume action:
`data_response` runs it for a request the memory answers later, and
`exec_misaligned` for a split access once its second half completes. In the
supported case, where the memory completes both halves of a split access at
once, no access is resumed twice and none that answered `IO_REQ_OK` or
`IO_REQ_INVALID` is resumed at all. `data_response` skips the resume while
`misaligned_size` is nonzero, and `exec_misaligned` leaves the size of the
second half it completed recorded, so an access that the memory answers later
and that comes after a split access is never resumed.
-/

namespace Gvsoc.Cpu

set_option autoImplicit false

variable {P : Platform}

@[simp] theorem Iss.respond_exec (s : Iss P) (latency : Nat) (result : Reg P) :
    (s.respond latency result).exec = s.exec := by
  unfold Iss.respond; split <;> simp

@[simp] theorem Iss.respond_misalignedSize (s : Iss P) (latency : Nat) (result : Reg P) :
    (s.respond latency result).lsu.misalignedSize = s.lsu.misalignedSize := by
  unfold Iss.respond; split <;> rfl

/-- Only `exec_misaligned` and `data_response` run a resume action, each at most
once: `exec_misaligned` when its second half completes at once, `data_response`
when no second half is recorded. -/
theorem step_terminated (s : Sys P) (e : Event P) :
    (s.step e).iss.exec.terminated = s.iss.exec.terminated +
      match e with
      | .execMisaligned reply => if reply.status = .ok then 1 else 0
      | .dataResponse .. => if s.iss.lsu.misalignedSize = 0 then 1 else 0
      | _ => 0 := by
  cases e with
  | dataReq addr dataPtr size isWrite reply registration =>
    simp only [Sys.step, dataReq_eq]
    split <;> split <;> cases reply <;>
      simp [dataMisalignedReq_eq, dataReqAligned_eq, Reply.status, Exec.insnStall, Exec.insnHold]
  | atomic addr size regIn regOut opcode reply =>
    simp only [Sys.step]
    cases ht : Lsu.atomicTranslation s.iss addr opcode with
    | none => rw [atomic_none _ _ _ _ _ _ _ ht]; rfl
    | some p =>
      cases reply <;> simp [atomic_ok, atomic_invalid, atomic_pending, ht, Exec.insnStall]
  | execMisaligned reply =>
    simp only [Sys.step, execMisaligned_eq]
    cases reply <;> simp [Reply.status, Exec.insnStall, Exec.switchToFullMode]
  | dataResponse latency result =>
    simp only [Sys.step, Lsu.dataResponse]
    split <;> simp_all [Exec.stalledDec]
  | reset active => cases active <;> rfl

theorem step_waiting (s : Sys P) (e : Event P) :
    (s.step e).waiting =
      match e with
      | .dataReq addr dataPtr size isWrite reply _ =>
        decide ((Lsu.dataReq s.iss reply addr dataPtr size isWrite).2 = .pending)
      | .atomic addr _ _ _ opcode reply =>
        (Lsu.atomicTranslation s.iss addr opcode).isSome && decide (reply.status = .pending)
      | .reset _ => s.waiting
      | _ => s.waiting && !resumed s.iss (s.step e).iss := by
  cases e <;> rfl

theorem step_pendingAccesses (s : Sys P) (e : Event P) :
    (s.step e).pendingAccesses = s.pendingAccesses +
      match e with
      | .dataReq addr dataPtr size isWrite reply _ =>
        if (Lsu.dataReq s.iss reply addr dataPtr size isWrite).2 = .pending then 1 else 0
      | .atomic addr _ _ _ opcode reply =>
        if (Lsu.atomicTranslation s.iss addr opcode).isSome && decide (reply.status = .pending)
        then 1 else 0
      | _ => 0 := by
  cases e <;> rfl

/-- The resume count: the resume actions run since the start, and one more for
the access still waiting, make the accesses that answered `IO_REQ_PENDING`. -/
structure ResumeCount (start : Iss P) (s : Sys P) : Prop where
  inFlight : OneInFlight s
  count : s.iss.exec.terminated + (if s.waiting then 1 else 0) = start.exec.terminated + s.pendingAccesses

theorem resumeCount_step {start : Iss P} {s : Sys P} {e : Event P} (hd : Disciplined s e)
    (he : Environment s e) (hs : Supported s e) (h : ResumeCount start s) :
    ResumeCount start (s.step e) := by
  obtain ⟨hInv, hCount⟩ := h
  refine ⟨oneInFlight_step hd he hs.noPendingFirstHalf hInv, ?_⟩
  rw [step_terminated, step_waiting, step_pendingAccesses]
  cases e with
  | dataReq | atomic =>
    have hw : s.waiting = false := hd
    simp only [hw, Bool.false_eq_true, if_false, Nat.add_zero] at hCount
    dsimp only
    split <;> simp_all
    omega
  | execMisaligned reply =>
    have hw := (hInv.armed he.2.1).1
    have hok : reply.status = .ok := hs
    simp [hw, hok, resumed, step_terminated] at hCount ⊢
    omega
  | dataResponse latency result =>
    have hw : s.waiting = true := by
      cases hx : s.waiting
      · exact absurd (hInv.idle hx) he.1
      · rfl
    simp only [resumed, step_terminated, hw, if_true] at hCount ⊢
    split <;> simp <;> omega
  | reset active => simpa using hCount

/-- In every supported run of a disciplined caller, the resume actions run so
far, with one more for an access still waiting, are as many as the accesses
that answered `IO_REQ_PENDING`: no access is resumed twice, and no access that
answered `IO_REQ_OK` or `IO_REQ_INVALID` is resumed. -/
theorem resume_at_most_once {iss : Iss P} {s : Sys P}
    (h : Reachable (fun s e => Disciplined s e ∧ Environment s e ∧ Supported s e) (Sys.init iss) s) :
    s.iss.exec.terminated + (if s.waiting then 1 else 0) = iss.exec.terminated + s.pendingAccesses :=
  (h.induction (ResumeCount iss) ⟨oneInFlight_init iss, by simp [Sys.init, Lsu.reset]⟩
    (fun _ _ _ hs ⟨hd, he, hsup⟩ => resumeCount_step hd he hsup hs)).count

/-- A load the memory answers later, resumed by its response. -/
theorem resume_at_most_once_pending_load :
    let s := ((Sys.init bareCore).step
      (.dataReq 16 ⟨.buffer 0, 0⟩ 4 false .pending ⟨.loadResume, 5, 4⟩)).step (.dataResponse 2 0)
    Reachable (fun s e => Disciplined s e ∧ Environment s e ∧ Supported s e) (Sys.init bareCore) s ∧
      s.iss.exec.terminated + (if s.waiting then 1 else 0) =
        bareCore.exec.terminated + s.pendingAccesses := by
  have hr : Reachable (fun s e => Disciplined s e ∧ Environment s e ∧ Supported s e)
      (Sys.init bareCore) (((Sys.init bareCore).step
        (.dataReq 16 ⟨.buffer 0, 0⟩ 4 false .pending ⟨.loadResume, 5, 4⟩)).step (.dataResponse 2 0)) :=
    (Reachable.init.step ⟨rfl, ⟨trivial, trivial⟩, fun hc => absurd hc (by decide)⟩).step
      ⟨trivial, ⟨by simp only [MemoryAnswers]; decide, trivial⟩, trivial⟩
  exact ⟨hr, resume_at_most_once hr⟩

/-! ## Runs without split accesses -/

/-- The caller never passes `data_req` an access that crosses a granule
boundary. -/
def Unsplit (_ : Sys P) : Event P → Prop
  | .dataReq addr _ size _ _ _ => ¬Crosses addr size
  | _ => True

theorem Unsplit.noPendingFirstHalf {s : Sys P} {e : Event P} (h : Unsplit s e) :
    NoPendingFirstHalf s e := by
  cases e with
  | dataReq => exact fun hc => absurd hc h
  | _ => trivial

/-- Only a split access whose first half completes at once arms the
instruction event, and `exec_misaligned` disarms it. -/
theorem step_armed (s : Sys P) (e : Event P) :
    (s.step e).iss.exec.armed =
      match e with
      | .dataReq addr _ size _ reply _ =>
        (decide (Crosses addr size) && decide (reply.status = .ok)) || s.iss.exec.armed
      | .execMisaligned _ => false
      | _ => s.iss.exec.armed := by
  cases e with
  | dataReq addr dataPtr size isWrite reply registration =>
    simp only [Sys.step, dataReq_eq]
    split <;> split <;> cases reply <;>
      simp_all [dataMisalignedReq_eq, dataReqAligned_eq, Reply.status, Exec.insnStall, Exec.insnHold]
  | atomic addr size regIn regOut opcode reply =>
    simp only [Sys.step]
    cases ht : Lsu.atomicTranslation s.iss addr opcode with
    | none => rw [atomic_none _ _ _ _ _ _ _ ht]
    | some p =>
      cases reply <;> simp [atomic_ok, atomic_invalid, atomic_pending, ht, Exec.insnStall]
  | execMisaligned reply =>
    simp only [Sys.step, execMisaligned_eq]
    cases reply <;> simp [Reply.status, Exec.insnStall, Exec.switchToFullMode]
  | dataResponse latency result =>
    simp only [Sys.step, Lsu.dataResponse]
    split <;> simp [Exec.stalledDec]
  | reset active => cases active <;> rfl

/-- Without split accesses no second half is ever recorded or armed, so an
access waiting for its resume has its request outstanding. -/
structure Live (s : Sys P) : Prop where
  inFlight : OneInFlight s
  record : s.iss.lsu.misalignedSize = 0
  unarmed : s.iss.exec.armed = false
  waiting : s.waiting = true → s.iss.data.outstanding ≠ []

theorem live_step {s : Sys P} {e : Event P} (hd : Disciplined s e) (he : Environment s e)
    (hu : Unsplit s e) (h : Live s) : Live (s.step e) := by
  obtain ⟨hInv, hRecord, hUnarmed, hWaiting⟩ := h
  refine ⟨oneInFlight_step hd he hu.noPendingFirstHalf hInv, ?_, ?_, ?_⟩
  · rw [step_misalignedSize]
    cases e with
    | dataReq addr dataPtr size isWrite reply registration =>
      have hc : ¬Crosses addr size := hu
      simp [hc, hRecord]
    | reset active => cases active <;> simp [hRecord]
    | _ => exact hRecord
  · rw [step_armed]
    cases e with
    | dataReq addr dataPtr size isWrite reply registration =>
      have hc : ¬Crosses addr size := hu
      simp [hc, hUnarmed]
    | execMisaligned => rfl
    | _ => exact hUnarmed
  · cases e with
    | dataReq addr dataPtr size isWrite reply registration =>
      have hc : ¬Crosses addr size := hu
      simp only [Sys.step, dataReq_eq, hc, if_false]
      cases reply <;> simp [dataReqAligned_eq, Reply.status, Port.submit]
    | atomic addr size regIn regOut opcode reply =>
      simp only [Sys.step]
      cases ht : Lsu.atomicTranslation s.iss addr opcode with
      | none => simp
      | some p => cases reply <;> simp [atomic_pending, ht, Reply.status, Port.submit]
    | execMisaligned => exact absurd he.2.1 (by simp [hUnarmed])
    | dataResponse latency result =>
      simp [step_waiting, resumed, step_terminated, hRecord]
    | reset active => cases active <;> exact hWaiting

theorem live_init (iss : Iss P) : Live (Sys.init iss) :=
  ⟨oneInFlight_init iss, by simp [Sys.init, Lsu.reset], rfl, fun h => absurd h (by simp [Sys.init])⟩

/-- In every run of a disciplined caller in which `data_req` never splits an
access, an access waiting for its resume still has its request outstanding,
and every `data_response` runs the resume action: an access that answered
`IO_REQ_PENDING` is resumed by the response to its request. -/
theorem resume_without_split {iss : Iss P} {s : Sys P}
    (h : Reachable (fun s e => Disciplined s e ∧ Environment s e ∧ Unsplit s e) (Sys.init iss) s) :
    (s.waiting = true → s.iss.data.outstanding ≠ []) ∧
      ∀ latency result,
        (s.step (.dataResponse latency result)).iss.exec.terminated = s.iss.exec.terminated + 1 := by
  have hLive : Live s :=
    h.induction Live (live_init iss) fun _ _ _ hs ⟨hd, he, hu⟩ => live_step hd he hu hs
  exact ⟨hLive.waiting, fun _ _ => by simp [step_terminated, hLive.record]⟩

/-- A load at address 16 that the memory answers later. -/
theorem resume_without_split_pending_load :
    let s := (Sys.init bareCore).step (.dataReq 16 ⟨.buffer 0, 0⟩ 4 false .pending ⟨.loadResume, 5, 4⟩)
    Reachable (fun s e => Disciplined s e ∧ Environment s e ∧ Unsplit s e) (Sys.init bareCore) s ∧
      ((s.waiting = true → s.iss.data.outstanding ≠ []) ∧
        ∀ latency result,
          (s.step (.dataResponse latency result)).iss.exec.terminated = s.iss.exec.terminated + 1) := by
  have hr : Reachable (fun s e => Disciplined s e ∧ Environment s e ∧ Unsplit s e)
      (Sys.init bareCore)
      ((Sys.init bareCore).step (.dataReq 16 ⟨.buffer 0, 0⟩ 4 false .pending ⟨.loadResume, 5, 4⟩)) :=
    Reachable.init.step ⟨rfl, ⟨trivial, trivial⟩, by simp only [Unsplit]; decide⟩
  exact ⟨hr, resume_without_split hr⟩

/-- A load of 4 bytes at address 3 is split and both halves complete at once;
the caller then loads 4 bytes at address 16, which the memory answers later.
Its `data_response` finds the first access's second half still recorded and
does not resume it, and no later event can: the instruction waits forever. -/
theorem lost_wakeup_after_split :
    let r : Registration := ⟨.loadResume, 5, 4⟩
    let s := ((((Sys.init bareCore).step (.dataReq 3 ⟨.buffer 0, 0⟩ 4 false (.ok 0 0) r)).step
      (.execMisaligned (.ok 0 0))).step (.dataReq 16 ⟨.buffer 0, 0⟩ 4 false .pending r)).step
      (.dataResponse 0 0)
    Reachable (fun s e => Disciplined s e ∧ Environment s e ∧ Supported s e) (Sys.init bareCore) s ∧
      s.pendingAccesses = 2 ∧ s.iss.exec.terminated = 1 ∧ s.waiting = true ∧
      s.iss.data.outstanding = [] ∧ s.iss.exec.armed = false := by
  refine ⟨(((Reachable.init.step ⟨rfl, ⟨trivial, trivial⟩, fun _ => rfl⟩).step
    ⟨trivial, ⟨trivial, by decide⟩, rfl⟩).step
      ⟨by simp only [Disciplined]; decide, ⟨trivial, trivial⟩, fun hc => absurd hc (by decide)⟩).step
        ⟨trivial, ⟨by simp only [MemoryAnswers]; decide, trivial⟩, trivial⟩, ?_⟩
  decide

end Gvsoc.Cpu
