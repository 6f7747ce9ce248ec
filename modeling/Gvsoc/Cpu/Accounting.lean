import Gvsoc.Cpu.System

/-! # Stall balance and timing accounting over a run

Two conservation laws of the LSU, over every run in which the memory answers
only the requests it holds. The stall count the LSU adds to the pipeline is
the number of its requests the memory holds outstanding. The timing model
receives the latency of each completed request once, one misaligned event per
split access and one load event and one cycle per second half.
-/

namespace Gvsoc.Cpu

set_option autoImplicit false

variable {P : Platform}

@[simp] theorem Port.submit_outstanding_length (port : Port P) (req : IoReq P) (reply : Reply P) :
    ((port.submit req reply).outstanding.length : Int) =
      port.outstanding.length + if reply.status = .pending then 1 else 0 := by
  unfold Port.submit; split <;> simp_all

@[simp] theorem Port.submit_completed_sum (port : Port P) (req : IoReq P) (reply : Reply P) :
    (port.submit req reply).completed.sum = port.completed.sum + reply.latency := by
  cases reply <;> simp [Port.submit, Reply.status, Reply.latency]

/-! ## Stall balance -/

/-- The pipeline's stall count, less the requests the memory holds outstanding. -/
def balance (s : Iss P) : Int := s.exec.stalled - s.data.outstanding.length

/-- Every event keeps the balance: a pending answer stalls the instruction once,
and `data_response` releases it once per request answered. -/
theorem balance_step {s : Sys P} {e : Event P} (he : MemoryAnswers s e) :
    balance (s.step e).iss = balance s.iss := by
  cases e with
  | dataReq addr dataPtr size isWrite reply registration =>
    simp only [Sys.step, dataReq_eq]
    split <;> cases reply <;>
      simp [dataReqAligned_eq, dataMisalignedReq_eq, balance, Reply.status, Exec.insnStall,
        Exec.insnHold]
  | atomic addr size regIn regOut opcode reply =>
    simp only [Sys.step]
    cases ht : Lsu.atomicTranslation s.iss addr opcode with
    | none => rw [atomic_none _ _ _ _ _ _ _ ht]
    | some p =>
      cases reply <;> simp [atomic_ok, atomic_invalid, atomic_pending, ht, balance,
        Reply.status, Exec.insnStall]
  | execMisaligned reply =>
    simp only [Sys.step, execMisaligned_eq]
    cases reply <;> simp [balance, Reply.status, Exec.insnStall, Exec.switchToFullMode]
  | dataResponse latency result =>
    obtain ⟨req, rest, hrest⟩ := List.exists_cons_of_ne_nil he
    simp only [Sys.step, Lsu.dataResponse, respond_cons _ _ _ hrest]
    split <;> simp [balance, Exec.stalledDec, hrest] <;> omega
  | reset active =>
    simp only [Sys.step, Lsu.reset]
    split <;> rfl

/-- Over every run in which the memory sends one `data_response` per request it
accepted pending, the `insn_stall` calls of the LSU less its `stalled_dec`
calls equal the requests outstanding at the memory: the LSU's share of the
stall count never goes negative and is zero when nothing is outstanding. -/
theorem stall_balance {iss : Iss P} {s : Sys P} (h : Reachable MemoryAnswers (Sys.init iss) s) :
    s.iss.exec.stalled - iss.exec.stalled = s.iss.data.outstanding.length ∧
      iss.exec.stalled ≤ s.iss.exec.stalled ∧
      (s.iss.data.outstanding = [] → s.iss.exec.stalled = iss.exec.stalled) := by
  have hb : balance s.iss = iss.exec.stalled :=
    h.induction (fun s => balance s.iss = iss.exec.stalled) (by simp [balance, Sys.init, Lsu.reset, Port.idle])
      (fun _ _ _ hs he => (balance_step he).trans hs)
  unfold balance at hb
  refine ⟨by omega, by omega, fun hnil => ?_⟩
  simp only [hnil, List.length_nil] at hb
  omega

/-- An aligned load the memory accepts pending leaves one stall and one
outstanding request. -/
theorem stall_balance_pending_load :
    let s := (Sys.init bareCore).step (.dataReq 16 ⟨.buffer 0, 0⟩ 4 false .pending ⟨.loadResume, 5, 4⟩)
    Reachable MemoryAnswers (Sys.init bareCore) s ∧
      (s.iss.exec.stalled - bareCore.exec.stalled = s.iss.data.outstanding.length ∧
        bareCore.exec.stalled ≤ s.iss.exec.stalled ∧
        (s.iss.data.outstanding = [] → s.iss.exec.stalled = bareCore.exec.stalled)) :=
  ⟨Reachable.init.step trivial, stall_balance (Reachable.init.step trivial)⟩

/-! ## Timing accounting -/

/-- The timing model's totals over a run from `start`: the latency accounted is
the sum of the latencies of the requests the memory completed, with one
misaligned event per split access and one load event and one cycle per second
half. -/
structure TimingAccounted (start : Iss P) (s : Sys P) : Prop where
  stallLoad : s.iss.timing.stallLoad = start.timing.stallLoad + s.iss.data.completed.sum
  eventMisaligned : s.iss.timing.eventMisaligned = start.timing.eventMisaligned + s.splits
  eventLoad : s.iss.timing.eventLoad = start.timing.eventLoad + s.secondHalves
  cycles : s.iss.timing.cycles = start.timing.cycles + s.secondHalves

theorem timingAccounted_step {start : Iss P} {s : Sys P} {e : Event P} (he : MemoryAnswers s e)
    (h : TimingAccounted start s) : TimingAccounted start (s.step e) := by
  obtain ⟨h1, h2, h3, h4⟩ := h
  cases e with
  | dataReq addr dataPtr size isWrite reply registration =>
    simp only [Sys.step, dataReq_eq]
    split <;> cases reply <;> constructor <;>
      simp [dataReqAligned_eq, dataMisalignedReq_eq, Reply.status, Reply.latency,
        Timing.stallLoadAccount, Timing.eventMisalignedAccount, *] <;> omega
  | atomic addr size regIn regOut opcode reply =>
    simp only [Sys.step]
    cases ht : Lsu.atomicTranslation s.iss addr opcode with
    | none => rw [atomic_none _ _ _ _ _ _ _ ht]; exact ⟨h1, h2, h3, h4⟩
    | some p =>
      cases reply <;> constructor <;>
        simp [atomic_ok, atomic_invalid, atomic_pending, ht, Reply.latency,
          Timing.stallLoadAccount, Nat.add_assoc, *]
  | execMisaligned reply =>
    simp only [Sys.step, execMisaligned_eq]
    cases reply <;> constructor <;>
      simp [Reply.status, Reply.latency, Timing.stallLoadAccount, Timing.eventLoadAccount,
        Timing.cycleAccount, Exec.switchToFullMode, *] <;> omega
  | dataResponse latency result =>
    obtain ⟨req, rest, hrest⟩ := List.exists_cons_of_ne_nil he
    simp only [Sys.step, Lsu.dataResponse, respond_cons _ _ _ hrest]
    constructor <;> split <;> simp [Timing.stallLoadAccount, Exec.stalledDec, *] <;> omega
  | reset active =>
    simp only [Sys.step, Lsu.reset]
    split <;> exact ⟨h1, h2, h3, h4⟩

/-- Over every run in which the memory answers only requests it holds, the
latency passed to `stall_load_account` is the sum of the latencies of the
completed requests, each once; `event_misaligned_account` runs once per split
access, and `event_load_account(1)` and `cycle_account` once per second half. -/
theorem timing_accounted {iss : Iss P} {s : Sys P} (h : Reachable MemoryAnswers (Sys.init iss) s) :
    TimingAccounted iss s :=
  h.induction (TimingAccounted iss) ⟨by simp [Sys.init, Lsu.reset, Port.idle],
      by simp [Sys.init, Lsu.reset], by simp [Sys.init, Lsu.reset], by simp [Sys.init, Lsu.reset]⟩
    (fun _ _ _ hs he => timingAccounted_step he hs)

/-- A split store whose halves both complete at once, with latencies 2 and 3. -/
theorem timing_accounted_split_store :
    let s := ((Sys.init bareCore).step (.dataReq 3 ⟨.buffer 0, 0⟩ 4 true (.ok 2 0) ⟨.storeResume, 0, 0⟩)).step
      (.execMisaligned (.ok 3 0))
    Reachable MemoryAnswers (Sys.init bareCore) s ∧ TimingAccounted bareCore s :=
  ⟨(Reachable.init.step trivial).step trivial,
    timing_accounted ((Reachable.init.step trivial).step trivial)⟩

end Gvsoc.Cpu
