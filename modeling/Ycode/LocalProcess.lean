import Ycode.RustStr
import Ycode.BoundedQueue
import Ycode.Runs

/-!
# The event stream of a running process

Two tasks forward the output pipes, a third waits for the exit. They share the entry of the process behind
a lock, and each locked section is one step. The events are numbered from the entry's counter, old output
is evicted, and whichever task comes last emits `closed`.
-/
namespace LocalProcess

open RustStr
open List hiding after

inductive ExecOutputStream where
  | stdout | stderr | pty
  deriving DecidableEq

structure ProcessOutputChunk where
  seq : Nat
  stream : ExecOutputStream
  chunk : List UInt8
  deriving DecidableEq

inductive ExecProcessEvent where
  | output (chunk : ProcessOutputChunk)
  | exited (seq : Nat) (exitCode : Int)
  | closed (seq : Nat)
  | failed (message : Str)
  deriving DecidableEq

namespace ExecProcessEvent

def seq : ExecProcessEvent → Option Nat
  | .output chunk => some chunk.seq
  | .exited seq _ => some seq
  | .closed seq => some seq
  | .failed _ => none

def chunk? : ExecProcessEvent → Option ProcessOutputChunk
  | .output chunk => some chunk
  | _ => none

def exitCode? : ExecProcessEvent → Option Int
  | .exited _ exitCode => some exitCode
  | _ => none

def isClosed : ExecProcessEvent → Bool
  | .closed _ => true
  | _ => false

end ExecProcessEvent

def retainedOutputBytesPerProcess : Nat := 1024 * 1024

def retainedOutputChunksPerProcess : Nat := 50000

abbrev RetainedOutputChunk := ProcessOutputChunk

structure RunningProcess where
  tty : Bool
  output : List RetainedOutputChunk
  retainedBytes : Nat
  nextSeq : Nat
  exitCode : Option Int
  openStreams : Nat
  closed : Bool

def startProcess (tty : Bool) : RunningProcess :=
  { tty, output := [], retainedBytes := 0, nextSeq := 1, exitCode := none, openStreams := 2, closed := false }

def chunkLen (chunk : RetainedOutputChunk) : Nat := chunk.chunk.length

-- each locked section returns the entry and the event that it publishes

def streamOutput (stream : ExecOutputStream) (bytes : List UInt8) (process : RunningProcess) :
    RunningProcess × ExecProcessEvent :=
  let chunk : ProcessOutputChunk := ⟨process.nextSeq, stream, bytes⟩
  let (output, retainedBytes) := BoundedQueue.evict chunkLen retainedOutputBytesPerProcess
    retainedOutputChunksPerProcess (process.output ++ [chunk]) (process.retainedBytes + bytes.length)
  ({ process with nextSeq := process.nextSeq + 1, output, retainedBytes }, .output chunk)

def watchExit (exitCode : Int) (process : RunningProcess) : RunningProcess × ExecProcessEvent :=
  ({ process with nextSeq := process.nextSeq + 1, exitCode := some exitCode }, .exited process.nextSeq exitCode)

def finishOutputStream (process : RunningProcess) : RunningProcess :=
  { process with
    openStreams := if process.openStreams > 0 then process.openStreams - 1 else process.openStreams }

def maybeEmitClosed (process : RunningProcess) : RunningProcess × Option ExecProcessEvent :=
  if process.closed ∨ process.openStreams ≠ 0 ∨ process.exitCode = none then (process, none)
  else ({ process with closed := true, nextSeq := process.nextSeq + 1 }, some (.closed process.nextSeq))

inductive Pipe where
  | stdout | stderr
  deriving DecidableEq

def streamOf (tty : Bool) : Pipe → ExecOutputStream
  | .stdout => if tty then .pty else .stdout
  | .stderr => if tty then .pty else .stderr

/-- Where a task stands; `closing` is before its call of `maybeEmitClosed`. -/
inductive Stage where
  | running | closing | done
  deriving DecidableEq

/-- The entry in the process map, the event log, which outlives it, and the three tasks. -/
structure Tasks where
  process : Option RunningProcess
  events : List ExecProcessEvent
  streams : Pipe → Stage
  exit : Stage

def spawn (tty : Bool) : Tasks :=
  { process := some (startProcess tty), events := [], streams := fun _ => .running, exit := .running }

inductive Action where
  /-- The pipe's receiver yields a chunk. -/
  | receive (pipe : Pipe) (bytes : List UInt8)
  /-- The pipe's receiver has ended. -/
  | finish (pipe : Pipe)
  | exit (exitCode : Int)
  /-- The last step of a stream's task. -/
  | closeStream (pipe : Pipe)
  /-- The last step of the task that waits for the exit. -/
  | closeExit
  /-- The retention time after `closed` is over. -/
  | expire

def Tasks.setStream (tasks : Tasks) (pipe : Pipe) (stage : Stage) : Tasks :=
  { tasks with streams := Function.update tasks.streams pipe stage }

def Tasks.emitClosed (tasks : Tasks) : Tasks :=
  match tasks.process with
  | none => tasks
  | some process =>
    let (process, event) := maybeEmitClosed process
    { tasks with process := some process, events := tasks.events ++ event.toList }

/-- One locked section; an action whose task stands elsewhere changes nothing. -/
def step (tasks : Tasks) : Action → Tasks
  | .receive pipe bytes =>
    if tasks.streams pipe ≠ .running then tasks
    else match tasks.process with
      | none => tasks.setStream pipe .done
      | some process =>
        let (process, event) := streamOutput (streamOf process.tty pipe) bytes process
        { tasks with process := some process, events := tasks.events ++ [event] }
  | .finish pipe =>
    if tasks.streams pipe ≠ .running then tasks
    else match tasks.process with
      | none => tasks.setStream pipe .done
      | some process => { tasks with process := some (finishOutputStream process) }.setStream pipe .closing
  | .exit exitCode =>
    if tasks.exit ≠ .running then tasks
    else match tasks.process with
      | none => { tasks with exit := .closing }
      | some process =>
        let (process, event) := watchExit exitCode process
        { tasks with process := some process, events := tasks.events ++ [event], exit := .closing }
  | .closeStream pipe =>
    if tasks.streams pipe ≠ .closing then tasks else tasks.emitClosed.setStream pipe .done
  | .closeExit => if tasks.exit ≠ .closing then tasks else { tasks.emitClosed with exit := .done }
  | .expire =>
    match tasks.process with
    | none => tasks
    | some process => if process.closed then { tasks with process := none } else tasks

/-- All three tasks have returned. -/
def Tasks.completed (tasks : Tasks) : Prop := (∀ pipe, tasks.streams pipe = .done) ∧ tasks.exit = .done

section Invariant

def outputs (events : List ExecProcessEvent) : List ProcessOutputChunk := events.filterMap (·.chunk?)

def exits (events : List ExecProcessEvent) : List Int := events.filterMap (·.exitCode?)

def hasClosed (events : List ExecProcessEvent) : Bool := events.any (·.isClosed)

/-- The events carry the numbers one, two, three and so on. -/
def Numbered (events : List ExecProcessEvent) : Prop :=
  events.map (·.seq) = (List.range events.length).map fun i => some (i + 1)

theorem numbered_append : Numbered (events ++ [event]) ↔ Numbered events ∧ event.seq = some (events.length + 1) := by
  unfold Numbered
  rw [map_append, length_append, length_singleton, range_succ, map_append, map_singleton, map_singleton]
  constructor
  · intro h
    obtain ⟨hi, hl⟩ := append_inj' h rfl
    exact ⟨hi, singleton_inj.mp hl⟩
  · rintro ⟨hi, hl⟩
    rw [hi, hl]

theorem Numbered.seq_le (h : Numbered events) (hm : event ∈ events) (hs : event.seq = some seq) :
    0 < seq ∧ seq ≤ events.length := by
  have hm : some seq ∈ events.map (·.seq) := mem_map.mpr ⟨event, hm, hs⟩
  rw [h] at hm
  obtain ⟨i, hi, he⟩ := mem_map.mp hm
  have := mem_range.mp hi
  cases he
  omega

def openPipes (streams : Pipe → Stage) : Nat :=
  (if streams .stdout = .running then 1 else 0) + (if streams .stderr = .running then 1 else 0)

theorem openPipes_eq_zero : openPipes streams = 0 ↔ ∀ pipe, streams pipe ≠ .running := by
  constructor
  · intro h pipe hr
    unfold openPipes at h
    cases pipe <;> simp [hr] at h
  · intro h
    simp [openPipes, h]

/-- One pipe less is open once its task has moved on. -/
theorem openPipes_update (hr : streams pipe = .running) (hs : stage ≠ .running) :
    openPipes (Function.update streams pipe stage) + 1 = openPipes streams := by
  unfold openPipes
  cases pipe with
  | stdout =>
    simp [hr, hs]
    omega
  | stderr => simp [hr, hs]

/-- What the entry says about the events so far and about the tasks. -/
structure Entry (tasks : Tasks) (process : RunningProcess) : Prop where
  nextSeq : process.nextSeq = tasks.events.length + 1
  retained : process.output <:+ outputs tasks.events
  fits : BoundedQueue.Fits chunkLen retainedOutputBytesPerProcess retainedOutputChunksPerProcess
    (process.output, process.retainedBytes)
  exitCode : process.exitCode = (exits tasks.events).head?
  closed : process.closed = hasClosed tasks.events
  openStreams : process.openStreams = openPipes tasks.streams

structure Consistent (tasks : Tasks) : Prop where
  numbered : Numbered tasks.events
  entry : ∀ process, tasks.process = some process → Entry tasks process
  gone : tasks.process = none → hasClosed tasks.events
  oneExit : (exits tasks.events).length = if tasks.exit = .running then 0 else 1
  /-- `closed` comes last, when no task publishes anything more. -/
  last : hasClosed tasks.events → (∀ pipe, tasks.streams pipe ≠ .running) ∧ tasks.exit ≠ .running ∧
    ∃ before seq, tasks.events = before ++ [.closed seq] ∧ hasClosed before = false
  /-- As long as `closed` is not out, some task can still emit it. -/
  live : hasClosed tasks.events ∨ (∃ pipe, tasks.streams pipe ≠ .done) ∨ tasks.exit ≠ .done

@[simp] theorem outputs_append : outputs (events ++ [event]) = outputs events ++ event.chunk?.toList := by
  cases event <;> simp [outputs, ExecProcessEvent.chunk?]

@[simp] theorem exits_append : exits (events ++ [event]) = exits events ++ event.exitCode?.toList := by
  cases event <;> simp [exits, ExecProcessEvent.exitCode?]

@[simp] theorem hasClosed_append : hasClosed (events ++ [event]) = (hasClosed events || event.isClosed) := by
  simp [hasClosed]

theorem consistent_spawn : Consistent (spawn tty) where
  numbered := rfl
  entry := by
    rintro process ⟨⟩
    exact ⟨rfl, suffix_refl _, ⟨rfl, Nat.zero_le _, Nat.zero_le _⟩, rfl, rfl, rfl⟩
  gone := by simp [spawn]
  oneExit := rfl
  last := by simp [spawn, hasClosed]
  live := .inr (.inr (by simp [spawn]))

section

variable (h : Consistent tasks)
include h

theorem Consistent.open_of_stream (hr : tasks.streams pipe = .running) : hasClosed tasks.events = false := by
  by_contra hc
  exact (h.last (by simpa using hc)).1 pipe hr

theorem Consistent.open_of_exit (hr : tasks.exit = .running) : hasClosed tasks.events = false := by
  by_contra hc
  exact (h.last (by simpa using hc)).2.1 hr

/-- An entry whose stream or exit is outstanding is in the map. -/
theorem Consistent.present (ho : hasClosed tasks.events = false) : ∃ process, tasks.process = some process := by
  cases hp : tasks.process with
  | some process => exact ⟨process, rfl⟩
  | none =>
    rw [h.gone hp] at ho
    cases ho

theorem Consistent.receive (pipe : Pipe) (bs : List UInt8) : Consistent (step tasks (.receive pipe bs)) := by
  by_cases hr : tasks.streams pipe = .running
  swap
  · simpa [step, hr] using h
  have ho := h.open_of_stream hr
  obtain ⟨proc, hp⟩ := h.present ho
  have he := h.entry proc hp
  have hb : proc.retainedBytes + bs.length =
      BoundedQueue.total chunkLen (proc.output ++ [⟨proc.nextSeq, streamOf proc.tty pipe, bs⟩]) := by
    have hc : proc.retainedBytes = BoundedQueue.total chunkLen proc.output := he.fits.recorded
    simp [chunkLen, hc]
  simp only [step, hr, ne_eq, not_true_eq_false, if_false, hp, streamOutput, hb]
  constructor
  · exact numbered_append.mpr ⟨h.numbered, by simp [ExecProcessEvent.seq, he.nextSeq]⟩
  · rintro _ ⟨⟩
    constructor
    · simp [he.nextSeq]
    · refine (BoundedQueue.evict_suffix ..).trans ?_
      obtain ⟨evicted, hv⟩ := he.retained
      exact ⟨evicted, by simp [ExecProcessEvent.chunk?, ← hv]⟩
    · exact BoundedQueue.evict_fits ..
    · simp [ExecProcessEvent.exitCode?, he.exitCode]
    · simp [ExecProcessEvent.isClosed, he.closed]
    · exact he.openStreams
  · simp
  · simpa [ExecProcessEvent.exitCode?] using h.oneExit
  · simp [ho, ExecProcessEvent.isClosed]
  · exact .inr (.inl ⟨pipe, by simp [hr]⟩)

theorem Consistent.finish (pipe : Pipe) : Consistent (step tasks (.finish pipe)) := by
  by_cases hr : tasks.streams pipe = .running
  swap
  · simpa [step, hr] using h
  have ho := h.open_of_stream hr
  obtain ⟨proc, hp⟩ := h.present ho
  have he := h.entry proc hp
  simp only [step, hr, ne_eq, not_true_eq_false, if_false, hp]
  constructor
  · exact h.numbered
  · rintro _ ⟨⟩
    refine ⟨he.nextSeq, he.retained, he.fits, he.exitCode, he.closed, ?_⟩
    have hl : openPipes (Function.update tasks.streams pipe .closing) + 1 = openPipes tasks.streams :=
      openPipes_update hr (by simp)
    have hc := he.openStreams
    simp only [finishOutputStream, Tasks.setStream]
    split <;> omega
  · simp [Tasks.setStream]
  · exact h.oneExit
  · simp [Tasks.setStream, ho]
  · exact .inr (.inl ⟨pipe, by simp [Tasks.setStream]⟩)

theorem Consistent.exit (code : Int) : Consistent (step tasks (.exit code)) := by
  by_cases hr : tasks.exit = .running
  swap
  · simpa [step, hr] using h
  have ho := h.open_of_exit hr
  obtain ⟨proc, hp⟩ := h.present ho
  have he := h.entry proc hp
  have hn : exits tasks.events = [] := eq_nil_of_length_eq_zero (by simpa [hr] using h.oneExit)
  simp only [step, hr, ne_eq, not_true_eq_false, if_false, hp, watchExit]
  constructor
  · exact numbered_append.mpr ⟨h.numbered, by simp [ExecProcessEvent.seq, he.nextSeq]⟩
  · rintro _ ⟨⟩
    refine ⟨by simp [he.nextSeq], by simpa [ExecProcessEvent.chunk?] using he.retained, he.fits,
      by simp [ExecProcessEvent.exitCode?, hn], by simp [ExecProcessEvent.isClosed, he.closed], he.openStreams⟩
  · simp
  · simp [ExecProcessEvent.exitCode?, hn]
  · simp [ho, ExecProcessEvent.isClosed]
  · exact .inr (.inr (by simp))

/-- `maybeEmitClosed` emits unless `closed` is out, a stream is open or the exit is outstanding. -/
theorem maybeEmitClosed_cases (hp : tasks.process = some process) :
    (maybeEmitClosed process = (process, none) ∧
      (hasClosed tasks.events ∨ (∃ pipe, tasks.streams pipe = .running) ∨ tasks.exit = .running)) ∨
    (maybeEmitClosed process =
        ({ process with closed := true, nextSeq := process.nextSeq + 1 }, some (.closed process.nextSeq)) ∧
      hasClosed tasks.events = false ∧ (∀ pipe, tasks.streams pipe ≠ .running) ∧ tasks.exit ≠ .running) := by
  have he := h.entry process hp
  have hexit : process.exitCode = none ↔ tasks.exit = .running := by
    rw [he.exitCode, head?_eq_none_iff, ← length_eq_zero_iff, h.oneExit]
    split <;> simp_all
  by_cases hq : process.closed ∨ process.openStreams ≠ 0 ∨ process.exitCode = none
  · refine .inl ⟨by rw [maybeEmitClosed, if_pos hq], ?_⟩
    rcases hq with hc | ho | hn
    · exact .inl (he.closed ▸ hc)
    · rw [he.openStreams, ne_eq, openPipes_eq_zero, not_forall] at ho
      obtain ⟨pipe, hpipe⟩ := ho
      exact .inr (.inl ⟨pipe, not_not.mp hpipe⟩)
    · exact .inr (.inr (hexit.mp hn))
  · refine .inr ⟨by rw [maybeEmitClosed, if_neg hq], ?_⟩
    obtain ⟨hc, hrest⟩ := not_or.mp hq
    obtain ⟨ho, hn⟩ := not_or.mp hrest
    refine ⟨by simpa [he.closed] using hc, openPipes_eq_zero.mp ?_, fun hr => hn (hexit.mpr hr)⟩
    rw [← he.openStreams]
    exact not_not.mp ho

/-- What the call of `maybeEmitClosed` establishes, whatever stage its task is in. -/
theorem Consistent.emitClosed : Consistent tasks.emitClosed ∧ (hasClosed tasks.emitClosed.events ∨
      (∃ pipe, tasks.streams pipe = .running) ∨ tasks.exit = .running) := by
  unfold Tasks.emitClosed
  cases hp : tasks.process with
  | none => exact ⟨h, .inl (h.gone hp)⟩
  | some process =>
    have he := h.entry process hp
    rcases maybeEmitClosed_cases h hp with ⟨heq, hw⟩ | ⟨heq, ho, hs, hexit⟩
    · have hsame : ({ tasks with process := some process, events := tasks.events ++ [] } : Tasks) = tasks := by
        rw [append_nil, ← hp]
      simp only [heq, Option.toList_none]
      rw [hsame]
      exact ⟨h, by rwa [append_nil]⟩
    · simp only [heq, Option.toList_some]
      refine ⟨?_, .inl (by simp [ExecProcessEvent.isClosed])⟩
      constructor
      · exact numbered_append.mpr ⟨h.numbered, by simp [ExecProcessEvent.seq, he.nextSeq]⟩
      · rintro _ ⟨⟩
        exact ⟨by simp [he.nextSeq], by simpa [ExecProcessEvent.chunk?] using he.retained, he.fits,
          by simpa [ExecProcessEvent.exitCode?] using he.exitCode, by simp [ExecProcessEvent.isClosed],
          he.openStreams⟩
      · simp
      · simpa [ExecProcessEvent.exitCode?] using h.oneExit
      · exact fun _ => ⟨hs, hexit, tasks.events, process.nextSeq, rfl, ho⟩
      · exact .inl (by simp [ExecProcessEvent.isClosed])

end

@[simp] theorem emitClosed_streams (tasks : Tasks) : tasks.emitClosed.streams = tasks.streams := by
  unfold Tasks.emitClosed
  cases tasks.process <;> rfl

@[simp] theorem emitClosed_exit (tasks : Tasks) : tasks.emitClosed.exit = tasks.exit := by
  unfold Tasks.emitClosed
  cases tasks.process <;> rfl

theorem openPipes_congr (h : ∀ pipe, streams pipe = .running ↔ streams' pipe = .running) :
    openPipes streams = openPipes streams' := by
  simp only [openPipes, h]

/-- A task that is past its publishing may move on, as long as another one remains to emit `closed`. -/
theorem Consistent.advance (h : Consistent tasks) {exit : Stage}
    (hs : ∀ pipe, streams pipe = .running ↔ tasks.streams pipe = .running)
    (hexit : exit = .running ↔ tasks.exit = .running)
    (hlive : hasClosed tasks.events ∨ (∃ pipe, tasks.streams pipe = .running) ∨ tasks.exit = .running) :
    Consistent { tasks with streams, exit } := by
  constructor
  · exact h.numbered
  · intro proc hp
    have he := h.entry proc hp
    exact ⟨he.nextSeq, he.retained, he.fits, he.exitCode, he.closed, he.openStreams.trans (openPipes_congr hs).symm⟩
  · exact h.gone
  · rw [h.oneExit]
    simp only [hexit]
  · intro hc
    obtain ⟨hpipes, hr, hl⟩ := h.last hc
    exact ⟨fun pipe => mt (hs pipe).mp (hpipes pipe), mt hexit.mp hr, hl⟩
  · rcases hlive with hc | ⟨pipe, hpipe⟩ | hr
    · exact .inl hc
    · exact .inr (.inl ⟨pipe, by simp [(hs pipe).mpr hpipe]⟩)
    · exact .inr (.inr (by simp [hexit.mpr hr]))

theorem Consistent.closeStream (h : Consistent tasks) (pipe : Pipe) :
    Consistent (step tasks (.closeStream pipe)) := by
  by_cases hc : tasks.streams pipe = .closing
  swap
  · simpa [step, hc] using h
  obtain ⟨he, hl⟩ := h.emitClosed
  simp only [step, hc, ne_eq, not_true_eq_false, if_false]
  refine he.advance (fun x => ?_) Iff.rfl (by simpa using hl)
  by_cases ho : x = pipe
  · subst ho
    simp [hc]
  · simp [ho]

theorem Consistent.closeExit (h : Consistent tasks) : Consistent (step tasks .closeExit) := by
  by_cases hc : tasks.exit = .closing
  swap
  · simpa [step, hc] using h
  obtain ⟨he, hl⟩ := h.emitClosed
  simp only [step, hc, ne_eq, not_true_eq_false, if_false]
  exact he.advance (fun _ => Iff.rfl) (by simp [hc]) (by simpa using hl)

theorem Consistent.expire (h : Consistent tasks) : Consistent (step tasks .expire) := by
  cases hp : tasks.process with
  | none => simpa [step, hp] using h
  | some proc =>
    by_cases hc : proc.closed
    · simp only [step, hp, hc, if_true]
      have hg : hasClosed tasks.events := (h.entry proc hp).closed ▸ hc
      exact ⟨h.numbered, by simp, fun _ => hg, h.oneExit, h.last, h.live⟩
    · simpa [step, hp, hc] using h

theorem step_consistent (tasks : Tasks) (a : Action) (h : Consistent tasks) : Consistent (step tasks a) := by
  cases a with
  | receive pipe bs => exact h.receive pipe bs
  | finish pipe => exact h.finish pipe
  | exit code => exact h.exit code
  | closeStream pipe => exact h.closeStream pipe
  | closeExit => exact h.closeExit
  | expire => exact h.expire

theorem run_consistent (tty : Bool) (acts : List Action) : Consistent (Runs.run step (spawn tty) acts) :=
  Runs.invariant step_consistent (consistent_spawn) acts

end Invariant

/-- Nothing is published after `closed`. -/
theorem step_events_of_closed (h : Consistent tasks) (hc : hasClosed tasks.events) (a : Action) :
    (step tasks a).events = tasks.events := by
  obtain ⟨hs, hexit, _⟩ := h.last hc
  have he : tasks.emitClosed.events = tasks.events := by
    unfold Tasks.emitClosed
    cases hp : tasks.process with
    | none => rfl
    | some proc =>
      have hd : proc.closed = true := (h.entry proc hp).closed.trans hc
      simp [maybeEmitClosed, hd]
  cases a with
  | receive pipe bs => simp [step, hs]
  | finish pipe => simp [step, hs]
  | exit code => simp [step, hexit]
  | expire =>
    simp only [step]
    split
    · rfl
    · split <;> rfl
  | _ =>
    simp only [step]
    split
    · rfl
    · exact he

theorem run_events_of_closed (h : Consistent tasks) (hc : hasClosed tasks.events)
    (acts : List Action) : (Runs.run step tasks acts).events = tasks.events := by
  induction acts generalizing tasks with
  | nil => rfl
  | cons a acts ih =>
    have hs := step_events_of_closed h hc a
    rw [Runs.run_cons, ih (step_consistent tasks a h) (hs ▸ hc), hs]

theorem Numbered.outputs_sorted (h : Numbered evs) : (outputs evs).Pairwise fun a b => a.seq < b.seq := by
  induction evs using List.reverseRecOn with
  | nil => exact List.Pairwise.nil
  | append_singleton evs ev ih =>
    obtain ⟨hi, hl⟩ := numbered_append.mp h
    rw [outputs_append]
    refine pairwise_append.mpr ⟨ih hi, ?_, fun c hc new hn => ?_⟩
    · cases ev.chunk? <;> simp
    · obtain ⟨earlier, he, hs⟩ := mem_filterMap.mp hc
      cases earlier with
      | output c' =>
        cases hs
        have hle := hi.seq_le he rfl
        cases ev with
        | output last =>
          simp only [ExecProcessEvent.chunk?, Option.toList_some, mem_singleton] at hn
          simp only [ExecProcessEvent.seq, Option.some.injEq] at hl
          rw [hn, hl]
          omega
        | _ => cases hn
      | _ => cases hs

theorem append_cons_eq_concat (hn : item ∉ first) (he : before ++ item :: after = first ++ [last]) :
    after = [] ∧ before = first := by
  rcases eq_nil_or_concat after with rfl | ⟨init, end', rfl⟩
  · exact ⟨rfl, append_inj_left' he rfl⟩
  · rw [concat_eq_append, ← cons_append, ← append_assoc] at he
    have hi : before ++ item :: init = first := append_inj_left' he rfl
    rw [← hi] at hn
    simp at hn

theorem closed_notMem (h : hasClosed events = false) : .closed seq ∉ events := by
  intro hm
  have hc := any_eq_false.mp h _ hm
  exact hc rfl

/-- In every interleaving the events are numbered from one on without a gap, the retained output is the newest
part of what was produced and fits its limits, and `closed` comes exactly once, after the exit and after the
end of both streams. -/
theorem event_stream (tty : Bool) (actions : List Action) :
    let tasks := Runs.run step (spawn tty) actions
    tasks.events.map (·.seq) = (List.range tasks.events.length).map (fun i => some (i + 1)) ∧
      (∀ process, tasks.process = some process →
        process.output <:+ outputs tasks.events ∧ process.output.Pairwise (fun a b => a.seq < b.seq) ∧
          process.retainedBytes = (process.output.map (·.chunk.length)).sum ∧
          process.retainedBytes ≤ retainedOutputBytesPerProcess ∧
          process.output.length ≤ retainedOutputChunksPerProcess) ∧
      (∀ before seq after, tasks.events = before ++ .closed seq :: after →
        after = [] ∧ hasClosed before = false ∧ (exits before).length = 1 ∧
          (∀ pipe, tasks.streams pipe ≠ .running) ∧
          ∀ more, (Runs.run step (spawn tty) (actions ++ more)).events = tasks.events) ∧
      (tasks.completed → ∃ before seq, tasks.events = before ++ [.closed seq]) := by
  intro tasks
  have h : Consistent tasks := run_consistent tty actions
  refine ⟨h.numbered, ?_, ?_, ?_⟩
  · intro process hp
    have he := h.entry process hp
    exact ⟨he.retained, h.numbered.outputs_sorted.sublist he.retained.sublist, he.fits.recorded,
      he.fits.total_le, he.fits.length_le⟩
  · intro before seq after hsplit
    have hc : hasClosed tasks.events = true := by simp [hsplit, hasClosed, ExecProcessEvent.isClosed]
    obtain ⟨hs, hexit, first, last, heq, hf⟩ := h.last hc
    rw [hsplit] at heq
    obtain ⟨rfl, rfl⟩ := append_cons_eq_concat (closed_notMem hf) heq
    refine ⟨rfl, hf, ?_, hs, fun more => ?_⟩
    · have ho := h.oneExit
      rw [hsplit, exits_append, if_neg hexit] at ho
      simpa [ExecProcessEvent.exitCode?] using ho
    · rw [Runs.run_append]
      exact run_events_of_closed h hc more
  · intro ⟨hs, hexit⟩
    rcases h.live with hc | ⟨pipe, hpipe⟩ | hr
    · obtain ⟨_, _, before, seq, heq, _⟩ := h.last hc
      exact ⟨before, seq, heq⟩
    · exact absurd (hs pipe) hpipe
    · exact absurd hexit hr

structure ReadResponse where
  chunks : List ProcessOutputChunk
  nextSeq : Nat
  exited : Bool
  exitCode : Option Int
  closed : Bool
  failure : Option Str

/-- The loop over the retained chunks; returns the chunks and the next number. -/
def readChunks (maxBytes : Nat) :
    List RetainedOutputChunk → List ProcessOutputChunk → Nat → Nat → List ProcessOutputChunk × Nat
  | [], chunks, _, nextSeq => (chunks, nextSeq)
  | retained :: rest, chunks, totalBytes, nextSeq =>
    if chunks ≠ [] ∧ totalBytes + retained.chunk.length > maxBytes then (chunks, nextSeq)
    else if totalBytes + retained.chunk.length ≥ maxBytes then (chunks ++ [retained], retained.seq + 1)
    else readChunks maxBytes rest (chunks ++ [retained]) (totalBytes + retained.chunk.length) (retained.seq + 1)

/-- The response that one look at the entry gives. -/
def execRead (afterSeq maxBytes : Option Nat) (process : RunningProcess) : ReadResponse :=
  let retained := process.output.filter fun chunk => afterSeq.getD 0 < chunk.seq
  let (chunks, nextSeq) := readChunks (maxBytes.getD usizeMax) retained [] 0 process.nextSeq
  { chunks
    nextSeq := if maxBytes.isNone then process.nextSeq else nextSeq
    exited := process.exitCode.isSome
    exitCode := process.exitCode
    closed := process.closed
    failure := none }

theorem readChunks_all (h : totalBytes + BoundedQueue.total chunkLen retained < maxBytes) :
    (readChunks maxBytes retained chunks totalBytes nextSeq).1 = chunks ++ retained := by
  induction retained generalizing chunks totalBytes nextSeq with
  | nil => simp [readChunks]
  | cons first retained ih =>
    rw [BoundedQueue.total_cons, chunkLen] at h
    rw [readChunks, if_neg (by omega), if_neg (by omega), ih (by omega), append_assoc]
    rfl

/-- Without a byte limit a read returns everything that is retained. -/
theorem execRead_chunks (afterSeq : Nat)
    (h : BoundedQueue.Fits chunkLen retainedOutputBytesPerProcess retainedOutputChunksPerProcess
      (process.output, process.retainedBytes)) :
    (execRead (some afterSeq) none process).chunks = process.output.filter fun c => afterSeq < c.seq := by
  have ht : BoundedQueue.total chunkLen (process.output.filter fun c => afterSeq < c.seq) ≤
      BoundedQueue.total chunkLen process.output :=
    BoundedQueue.total_le_of_sublist chunkLen filter_sublist
  have hl : BoundedQueue.total chunkLen process.output ≤ retainedOutputBytesPerProcess := h.total_items_le
  have hm : retainedOutputBytesPerProcess < usizeMax := by decide
  exact (readChunks_all (by simp only [Option.getD_none, Option.getD_some]; omega)).trans (nil_append _)

end LocalProcess
