import Gvsoc.Cpu.InFlight

/-! # The pending-access record

`data_response` resumes the instruction only when `misaligned_size` is zero:
a nonzero size stands for a split access whose second half is still to come.
The split path of `data_req` is the only operation that writes the record, and
`reset(true)` the only one that clears its size. So the size is zero until the
first split access after a reset, and from then until the next `reset(true)`
the record holds the second half of a split access whose first half the memory
has received. Nothing clears it when that second half completes, and the split
path records it before it submits the first half, so a completed or a rejected
split access leaves it recorded.
-/

namespace Gvsoc.Cpu

set_option autoImplicit false

variable {P : Platform}

/-- The pipeline's loads and stores are 1 to `G` bytes wide. -/
def SizedAccesses (_ : Sys P) : Event P → Prop
  | .dataReq _ _ size _ _ _ => AccessSize P size
  | _ => True

/-- Both halves of every split access complete at once: the case the split
path supports. -/
def Supported (_ : Sys P) : Event P → Prop
  | .dataReq addr _ size _ reply _ => Crosses addr size → reply.status = .ok
  | .execMisaligned reply => reply.status = .ok
  | _ => True

theorem Supported.noPendingFirstHalf {s : Sys P} {e : Event P} (h : Supported s e) :
    NoPendingFirstHalf s e := by
  cases e with
  | dataReq addr dataPtr size isWrite reply registration =>
    exact fun hc => by simp [h hc]
  | _ => trivial

/-- `misaligned_addr`, `misaligned_size`, `misaligned_data` and
`misaligned_is_write`. -/
def Lsu.pendingRecord (l : Lsu P) : Addr P × Int × Ptr × Bool :=
  (l.misalignedAddr, l.misalignedSize, l.misalignedData, l.misalignedIsWrite)

/-- The record `data_misaligned_req` writes for a split access: its second half. -/
def secondHalf (addr : Addr P) (dataPtr : Ptr) (size : Int) (isWrite : Bool) : Addr P × Int × Ptr × Bool :=
  (splitAddr addr size, size - splitSize addr size, dataPtr.add (splitSize addr size), isWrite)

/-- Only the split path writes the record, and `reset(true)` clears its size. -/
theorem step_pendingRecord (s : Sys P) (e : Event P) :
    (s.step e).iss.lsu.pendingRecord =
      match e with
      | .dataReq addr dataPtr size isWrite _ _ =>
        if Crosses addr size then secondHalf addr dataPtr size isWrite else s.iss.lsu.pendingRecord
      | .reset active =>
        if active then { s.iss.lsu with misalignedSize := 0 }.pendingRecord else s.iss.lsu.pendingRecord
      | _ => s.iss.lsu.pendingRecord := by
  cases e with
  | dataReq addr dataPtr size isWrite reply registration =>
    simp only [Sys.step, dataReq_eq]
    split <;> split <;>
      simp [dataMisalignedReq_eq, dataReqAligned_eq, Registration.install, Lsu.pendingRecord, secondHalf, *]
  | atomic addr size regIn regOut opcode reply =>
    simp only [Sys.step]
    cases ht : Lsu.atomicTranslation s.iss addr opcode with
    | none => rw [atomic_none _ _ _ _ _ _ _ ht]
    | some p => cases reply <;> simp [atomic_ok, atomic_invalid, atomic_pending, ht, Lsu.pendingRecord]
  | execMisaligned reply =>
    simp only [Sys.step, execMisaligned_eq]
    cases reply <;> simp [Reply.status, Lsu.pendingRecord]
  | dataResponse latency result =>
    simp only [Sys.step, Lsu.dataResponse, Iss.respond]
    split <;> split <;> simp [Lsu.pendingRecord]
  | reset active => cases active <;> rfl

theorem step_misalignedSize (s : Sys P) (e : Event P) :
    (s.step e).iss.lsu.misalignedSize =
      match e with
      | .dataReq addr _ size _ _ _ =>
        if Crosses addr size then size - splitSize addr size else s.iss.lsu.misalignedSize
      | .reset active => if active then 0 else s.iss.lsu.misalignedSize
      | _ => s.iss.lsu.misalignedSize := by
  have h := congrArg (·.2.1) (step_pendingRecord s e)
  cases e <;> simpa only [apply_ite (fun r : Addr P × Int × Ptr × Bool => r.2.1), Lsu.pendingRecord,
    secondHalf] using h

theorem step_issued (s : Sys P) (e : Event P) :
    (s.step e).iss.data.issued = s.iss.data.issued ++
      match e with
      | .dataReq addr dataPtr size isWrite _ _ =>
        [alignedReq addr dataPtr (if Crosses addr size then splitSize addr size else size) isWrite]
      | .atomic addr size regIn regOut opcode _ =>
        if (Lsu.atomicTranslation s.iss addr opcode).isSome then
          [atomicReq s.iss addr size regIn regOut opcode] else []
      | .execMisaligned _ =>
        [alignedReq s.iss.lsu.misalignedAddr s.iss.lsu.misalignedData s.iss.lsu.misalignedSize
          s.iss.lsu.misalignedIsWrite]
      | .dataResponse .. | .reset _ => [] := by
  cases e with
  | dataReq addr dataPtr size isWrite reply registration =>
    simp only [Sys.step, dataReq_eq]
    split <;> split <;> simp [dataMisalignedReq_eq, dataReqAligned_eq, Port.submit, *]
  | atomic addr size regIn regOut opcode reply =>
    simp only [Sys.step]
    cases ht : Lsu.atomicTranslation s.iss addr opcode with
    | none => simp [atomic_none _ _ _ _ _ _ _ ht]
    | some p => cases reply <;> simp [atomic_ok, atomic_invalid, atomic_pending, ht, Port.submit]
  | execMisaligned reply =>
    simp only [Sys.step, execMisaligned_eq]
    cases reply <;> simp [Reply.status, Port.submit]
  | dataResponse latency result =>
    simp only [Sys.step, Lsu.dataResponse, Iss.respond]
    split <;> split <;> simp
  | reset active => cases active <;> simp [Sys.step, Lsu.reset]

theorem step_splitSinceReset (s : Sys P) (e : Event P) :
    (s.step e).splitSinceReset =
      match e with
      | .dataReq addr _ size _ _ _ => s.splitSinceReset || decide (Crosses addr size)
      | .reset active => !active && s.splitSinceReset
      | _ => s.splitSinceReset := by
  cases e <;> rfl

/-- The record as the split path and `reset(true)` leave it: no size before the
first split access after a reset, and after it the second half of a split
access whose first half the memory has received. -/
structure RecordKept (s : Sys P) : Prop where
  zero : s.splitSinceReset = false → s.iss.lsu.misalignedSize = 0
  half : s.splitSinceReset = true → ∃ addr dataPtr size isWrite, AccessSize P size ∧ Crosses addr size ∧
    alignedReq addr dataPtr (splitSize addr size) isWrite ∈ s.iss.data.issued ∧
    s.iss.lsu.pendingRecord = secondHalf addr dataPtr size isWrite

theorem recordKept_of_kept {s s' : Sys P} (h : RecordKept s)
    (hRec : s'.iss.lsu.pendingRecord = s.iss.lsu.pendingRecord) (hSince : s'.splitSinceReset = s.splitSinceReset)
    (hLog : s.iss.data.issued ⊆ s'.iss.data.issued) : RecordKept s' := by
  refine ⟨fun h' => ?_, fun h' => ?_⟩
  · exact (congrArg (·.2.1) hRec).trans (h.zero (hSince ▸ h'))
  · obtain ⟨addr, dataPtr, size, isWrite, hSize, hc, hIssued, hHalf⟩ := h.half (hSince ▸ h')
    exact ⟨addr, dataPtr, size, isWrite, hSize, hc, hLog hIssued, hRec.trans hHalf⟩

theorem recordKept_step {s : Sys P} {e : Event P} (hs : SizedAccesses s e) (h : RecordKept s) :
    RecordKept (s.step e) := by
  have hLog : s.iss.data.issued ⊆ (s.step e).iss.data.issued := by
    rw [step_issued]
    exact List.subset_append_left _ _
  have hRec := step_pendingRecord s e
  cases e with
  | dataReq addr dataPtr size isWrite reply registration =>
    by_cases hc : Crosses addr size
    · -- the split path records this access's second half
      refine ⟨fun h' => absurd h' (by simp [step_splitSinceReset, hc]),
        fun _ => ⟨addr, dataPtr, size, isWrite, hs, hc, ?_, by simpa [hc] using hRec⟩⟩
      simp [step_issued, hc]
    · exact recordKept_of_kept h (by simpa [hc] using hRec) (by simp [step_splitSinceReset, hc]) hLog
  | reset active =>
    cases active
    · exact recordKept_of_kept h hRec (by simp [step_splitSinceReset]) hLog
    · exact ⟨fun _ => congrArg (·.2.1) hRec, fun h' => absurd h' (by simp [step_splitSinceReset])⟩
  | atomic | execMisaligned | dataResponse => exact recordKept_of_kept h hRec rfl hLog

/-- In every run of 1 to `G` byte accesses, `misaligned_size` is zero until the
first access after a `reset(true)` that `data_req` splits; from then until the
next `reset(true)` the record (`misaligned_addr`, `misaligned_size`,
`misaligned_data`, `misaligned_is_write`) is the second half of a split access
whose first half the memory has received, also after that second half has
completed. -/
theorem pending_record {iss : Iss P} {s : Sys P}
    (h : Reachable SizedAccesses (Sys.init iss) s) :
    (s.splitSinceReset = false → s.iss.lsu.misalignedSize = 0) ∧
      (s.splitSinceReset = true → ∃ addr dataPtr size isWrite, AccessSize P size ∧ Crosses addr size ∧
        alignedReq addr dataPtr (splitSize addr size) isWrite ∈ s.iss.data.issued ∧
        s.iss.lsu.pendingRecord = secondHalf addr dataPtr size isWrite) := by
  have hInv : RecordKept s :=
    h.induction RecordKept ⟨fun _ => rfl, fun h => absurd h (by simp [Sys.init])⟩
      (fun _ _ _ hs he => recordKept_step he hs)
  exact ⟨hInv.zero, hInv.half⟩

/-- No record at the start; after a load of 4 bytes at address 3 split into 1
and 3 bytes, both halves completed at once, the record holds the second half of
a split access whose first half the memory received. -/
theorem pending_record_split_load :
    let s : Sys rv32 := ((Sys.init bareCore).step
      (.dataReq 3 ⟨.buffer 0, 0⟩ 4 false (.ok 0 0) ⟨.loadResume, 0, 0⟩)).step (.execMisaligned (.ok 0 0))
    (Sys.init bareCore).iss.lsu.misalignedSize = 0 ∧
      Reachable SizedAccesses (Sys.init bareCore) s ∧ s.splitSinceReset = true ∧
      ∃ addr dataPtr size isWrite, AccessSize rv32 size ∧ Crosses addr size ∧
        alignedReq addr dataPtr (splitSize addr size) isWrite ∈ s.iss.data.issued ∧
        s.iss.lsu.pendingRecord = secondHalf addr dataPtr size isWrite := by
  intro s
  have hr : Reachable SizedAccesses (Sys.init bareCore) s :=
    (Reachable.init.step (by simp only [SizedAccesses, AccessSize]; decide)).step trivial
  exact ⟨(pending_record (s := Sys.init bareCore) .init).1 rfl, hr, by decide, (pending_record hr).2 (by decide)⟩

/-- A load of 4 bytes at address 3 is split and the memory completes both
halves at once: the access is resolved, nothing is outstanding and no second
half is armed, yet `misaligned_size` still holds the second half's 3 bytes. -/
theorem record_left_after_split :
    let s : Sys rv32 := ((Sys.init bareCore).step
      (.dataReq 3 ⟨.buffer 0, 0⟩ 4 false (.ok 0 0) ⟨.loadResume, 5, 4⟩)).step (.execMisaligned (.ok 0 0))
    Reachable (fun s e => Disciplined s e ∧ Environment s e ∧ Supported s e ∧ SizedAccesses s e)
        (Sys.init bareCore) s ∧
      s.waiting = false ∧ s.iss.data.outstanding = [] ∧ s.iss.exec.armed = false ∧
      s.iss.lsu.misalignedSize = 3 := by
  refine ⟨(Reachable.init.step ⟨rfl, ⟨trivial, trivial⟩, fun _ => rfl,
    by simp only [SizedAccesses, AccessSize]; decide⟩).step ⟨trivial, ⟨trivial, by decide⟩, rfl, trivial⟩, ?_⟩
  decide

end Gvsoc.Cpu
