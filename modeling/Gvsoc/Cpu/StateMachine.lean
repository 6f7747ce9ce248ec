import Gvsoc.Cpu.Wakeup

/-! # The state machine of the design

Between calls the LSU is idle, waits for the response to an access the memory
accepted pending, or waits a cycle to issue a split access's second half. A
submission from idle completes or is rejected at once, or moves to one of the
waiting states; the response, or the second half, completes the access, runs
its resume action once and returns to idle. `PhaseStep` states this machine
over its state and the count of resume actions run, and `Sys.abstract` reads
both off a run of the LSU.

Every step of a supported run is a step of the machine but one: a response
that finds a second half recorded leaves its access waiting and runs no resume
action. Runs without split accesses are runs of the machine.
-/

namespace Gvsoc.Cpu

set_option autoImplicit false

variable {P : Platform}

/-- The states of the machine that last beyond one call: `IDLE`,
`WAITING_RESPONSE` and `WAITING_SPLIT`. -/
inductive Phase where
  | idle
  | waitingResponse
  | waitingSplit
  deriving DecidableEq, Repr

/-- What moves the machine: a submission by `data_req` or `atomic`, the
deferred second half, a response of the memory, a reset. -/
inductive Label where
  | submit
  | secondHalf
  | response
  | reset
  deriving DecidableEq, Repr

/-- The machine over its state and the number of resume actions run: a
submission from idle completes or is rejected at once, waits for its response,
or holds for its second half; the response, or the second half, completes the
waiting access and runs its resume action once; a reset leaves the machine
where it is. -/
inductive PhaseStep : Phase × Nat → Label → Phase × Nat → Prop
  | complete (n : Nat) : PhaseStep (.idle, n) .submit (.idle, n)
  | suspend (n : Nat) : PhaseStep (.idle, n) .submit (.waitingResponse, n)
  | hold (n : Nat) : PhaseStep (.idle, n) .submit (.waitingSplit, n)
  | respond (n : Nat) : PhaseStep (.waitingResponse, n) .response (.idle, n + 1)
  | secondHalf (n : Nat) : PhaseStep (.waitingSplit, n) .secondHalf (.idle, n + 1)
  | reset (a : Phase × Nat) : PhaseStep a .reset a

theorem PhaseStep.submit_of_idle (p : Phase) (n : Nat) : PhaseStep (.idle, n) .submit (p, n) := by
  cases p
  · exact .complete n
  · exact .suspend n
  · exact .hold n

/-- The machine's label of an event. -/
def Event.label : Event P → Label
  | .dataReq .. | .atomic .. => .submit
  | .execMisaligned _ => .secondHalf
  | .dataResponse .. => .response
  | .reset _ => .reset

/-- The machine's state in a run: waiting for the second half while the
instruction event is armed, else waiting for a response while the caller
waits, else idle. -/
def Sys.phase (s : Sys P) : Phase :=
  if s.iss.exec.armed then .waitingSplit else if s.waiting then .waitingResponse else .idle

/-- The machine's state and the number of resume actions run, read off a run. -/
def Sys.abstract (s : Sys P) : Phase × Nat := (s.phase, s.iss.exec.terminated)

theorem OneInFlight.phase_idle {s : Sys P} (h : OneInFlight s) (hw : s.waiting = false) :
    s.phase = .idle := by
  simp [Sys.phase, h.unarmed hw, hw]

theorem OneInFlight.awaiting {s : Sys P} (h : OneInFlight s) (ho : s.iss.data.outstanding ≠ []) :
    s.waiting = true ∧ s.iss.exec.armed = false := by
  constructor
  · cases hx : s.waiting
    · exact absurd (h.idle hx) ho
    · rfl
  · cases hx : s.iss.exec.armed
    · rfl
    · exact absurd (h.armed hx).2 ho

/-- Every admissible step of a state with one request in flight is a step of
the machine, provided a second half it issues completes at once, except a
response that finds a second half recorded. -/
theorem OneInFlight.phaseStep {s : Sys P} {e : Event P} (h : OneInFlight s) (hd : Disciplined s e)
    (he : Environment s e) (hs : Supported s e) :
    PhaseStep s.abstract e.label (s.step e).abstract ∨
      e.label = .response ∧ s.iss.lsu.misalignedSize ≠ 0 ∧ s.phase = .waitingResponse ∧
        (s.step e).abstract = s.abstract := by
  cases e with
  | dataReq | atomic =>
    left
    rw [Sys.abstract, Sys.abstract, h.phase_idle hd, step_terminated]
    exact .submit_of_idle _ _
  | execMisaligned reply =>
    left
    have harmed : s.iss.exec.armed = true := he.2.1
    have hok : reply.status = .ok := hs
    have hp : s.phase = .waitingSplit := by simp [Sys.phase, harmed]
    have hp' : (s.step (.execMisaligned reply)).phase = .idle := by
      simp [Sys.phase, step_armed, step_waiting, resumed, step_terminated, hok]
    rw [Sys.abstract, Sys.abstract, hp, hp', step_terminated]
    simpa [hok] using PhaseStep.secondHalf s.iss.exec.terminated
  | dataResponse latency result =>
    obtain ⟨hw, ha⟩ := h.awaiting he.1
    have hp : s.phase = .waitingResponse := by simp [Sys.phase, hw, ha]
    have ha' : (s.step (.dataResponse latency result)).iss.exec.armed = false := by
      simp [step_armed, ha]
    by_cases hr : s.iss.lsu.misalignedSize = 0
    · left
      have hIdle : (s.step (.dataResponse latency result)).phase = .idle := by
        simp [Sys.phase, ha', step_waiting, resumed, step_terminated, hr]
      rw [Sys.abstract, Sys.abstract, hp, hIdle, step_terminated]
      simpa [hr] using PhaseStep.respond s.iss.exec.terminated
    · right
      refine ⟨rfl, hr, hp, ?_⟩
      simp [Sys.abstract, Sys.phase, ha', ha, hw, step_waiting, resumed, step_terminated, hr]
  | reset active =>
    -- a reset touches only the LSU's own fields, which the abstraction does not read
    left
    cases active <;> exact .reset _

/-- Every admissible step from a state of a supported run is a step of the
machine, except a response that finds a second half recorded: that response
leaves its access waiting and runs no resume action. -/
theorem step_refines {iss : Iss P} {s : Sys P}
    (h : Reachable (fun s e => Disciplined s e ∧ Environment s e ∧ Supported s e) (Sys.init iss) s)
    {e : Event P} (hd : Disciplined s e) (he : Environment s e) (hs : Supported s e) :
    PhaseStep s.abstract e.label (s.step e).abstract ∨
      e.label = .response ∧ s.iss.lsu.misalignedSize ≠ 0 ∧ s.phase = .waitingResponse ∧
        (s.step e).abstract = s.abstract :=
  (OneInFlight.of_reachable (fun _ _ ⟨hd, he, hs⟩ => ⟨hd, he, hs.noPendingFirstHalf⟩) h).phaseStep
    hd he hs

/-- The response to a load the memory accepted pending. -/
theorem step_refines_pending_load :
    let s : Sys rv32 :=
      (Sys.init bareCore).step (.dataReq 16 ⟨.buffer 0, 0⟩ 4 false .pending ⟨.loadResume, 5, 4⟩)
    let e : Event rv32 := .dataResponse 2 0
    Reachable (fun s e => Disciplined s e ∧ Environment s e ∧ Supported s e) (Sys.init bareCore) s ∧
      Disciplined s e ∧ Environment s e ∧ Supported s e ∧
      (PhaseStep s.abstract e.label (s.step e).abstract ∨
        e.label = .response ∧ s.iss.lsu.misalignedSize ≠ 0 ∧ s.phase = .waitingResponse ∧
          (s.step e).abstract = s.abstract) := by
  have hr : Reachable (fun s e => Disciplined s e ∧ Environment s e ∧ Supported s e)
      (Sys.init bareCore)
      ((Sys.init bareCore).step (.dataReq 16 ⟨.buffer 0, 0⟩ 4 false .pending ⟨.loadResume, 5, 4⟩)) :=
    Reachable.init.step ⟨rfl, ⟨trivial, trivial⟩, fun hc => absurd hc (by decide)⟩
  have he : Environment ((Sys.init bareCore).step
      (.dataReq 16 ⟨.buffer 0, 0⟩ 4 false .pending ⟨.loadResume, 5, 4⟩)) (.dataResponse 2 0) :=
    ⟨by simp only [MemoryAnswers]; decide, trivial⟩
  exact ⟨hr, trivial, he, trivial, step_refines hr trivial he trivial⟩

/-! ## Runs without split accesses -/

theorem Live.supported {s : Sys P} {e : Event P} (h : Live s) (he : Environment s e)
    (hu : Unsplit s e) : Supported s e := by
  cases e with
  | dataReq => exact fun hc => absurd hc hu
  | execMisaligned => exact absurd he.2.1 (by simp [h.unarmed])
  | _ => trivial

theorem Live.phaseStep {s : Sys P} {e : Event P} (h : Live s) (hd : Disciplined s e)
    (he : Environment s e) (hu : Unsplit s e) : PhaseStep s.abstract e.label (s.step e).abstract :=
  (h.inFlight.phaseStep hd he (h.supported he hu)).resolve_right fun ⟨_, hr, _⟩ => hr h.record

end Gvsoc.Cpu
