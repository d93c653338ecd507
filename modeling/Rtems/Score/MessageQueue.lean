import Mathlib.Data.List.Count
import Rtems.Lib.Run
import Rtems.Lib.SearchTree
import Rtems.Score.Objects

/-!
# Message queues

The CORE message queue handler with message priorities and blocking sends: `coremsgsubmit.c`,
`coremsgseize.c`, `coremsginsert.c`, `coremsgbroadcast.c`, `coremsgflush.c`, and the sizes in
`coremsg.c`.

* `MessageQueue`, `step`: the control block with its buffers, the wait queue that senders and
  receivers share, and what is done under its lock;
* `InTurn`: the order of the pending messages, `Ledger`: what became of each message;
* **`messages_exact`**: counts, waiting threads, deliveries and order, after any actions;
* `coreMessageQueueInitialize`, **`messageBuffers_fit_iff`**: the memory of the buffers.
-/

namespace Rtems

open Function SearchTree List

/-- `CORE_message_queue_Submit_types`, an `int`. -/
abbrev SubmitType := { z : ℤ // -2147483648 ≤ z ∧ z ≤ 2147483647 }

/-- `CORE_MESSAGE_QUEUE_SEND_REQUEST`, which is `INT_MAX`. -/
def SubmitType.send : SubmitType := ⟨2147483647, by decide⟩

/-- `CORE_MESSAGE_QUEUE_URGENT_REQUEST`, which is `INT_MIN`. -/
def SubmitType.urgent : SubmitType := ⟨-2147483648, by decide⟩

/-- A message, with the number of the call that submits it. -/
structure Message where
  serial : ℕ
  submitType : SubmitType
  data : List (BitVec 8)
  deriving DecidableEq

/-- What a thread on the wait queue waits for. The queue does not tell. -/
inductive Purpose
  | receive
  | send
  deriving DecidableEq

/-- `count` is the submit type of a sender, later the priority of a message. -/
structure WaitInformation where
  purpose : Purpose
  serial : ℕ
  data : List (BitVec 8)
  count : SubmitType
  deriving DecidableEq

inductive MessageStatus
  | invalidSize
  | tooMany
  | waitInIsr
  | unsatisfied
  deriving DecidableEq

/-- What became of a message, a receiver or a call. -/
inductive MessageEvent
  | submitted (m : Message)
  | delivered (t : Thread) (m : Message)
  | flushed (m : Message)
  | broadcasted (t : Thread) (data : List (BitVec 8))
  | timedOut (t : Thread)
  | refused (status : MessageStatus)
  deriving DecidableEq

/-- `CORE_message_queue_Control`, the buffers, the wait information and a record. -/
structure MessageQueue where
  maximumPendingMessages : ℕ
  maximumMessageSize : ℕ
  numberOfPendingMessages : ℕ
  pendingMessages : List ℕ
  inactiveMessages : List ℕ
  contents : ℕ → Message
  waitQueue : List Thread
  wait : Thread → WaitInformation
  calls : ℕ
  log : List MessageEvent

/-- What is done under the lock; `first` waits first. A broadcast is made of passes. -/
inductive MessageAction
  | submit (executing : Thread) (data : List (BitVec 8)) (submitType : SubmitType) (wait : Bool)
      (inIsr : Bool) (first : ℕ)
  | seize (executing : Thread) (wait : Bool) (first : ℕ)
  | broadcast (data : List (BitVec 8)) (first : ℕ)
  | flush
  | timeout (theThread : Thread)
  deriving DecidableEq

def WaitInformation.message (w : WaitInformation) : Message := ⟨w.serial, w.count, w.data⟩

namespace MessageQueue

variable (s : MessageQueue)

/-- The pending messages, in the order of their chain. -/
def messages : List Message := s.pendingMessages.map s.contents

def note (es : List MessageEvent) : MessageQueue := { s with log := s.log ++ es }

/-- `_Thread_queue_First_locked`. -/
def first (i : ℕ) : Option Thread := s.waitQueue[i % s.waitQueue.length]?

def insertMessage (b : ℕ) (m : Message) : MessageQueue :=
  let contents := update s.contents b m
  { s with
    contents := contents
    numberOfPendingMessages := s.numberOfPendingMessages + 1
    pendingMessages :=
      if m.submitType = .send then s.pendingMessages ++ [b]
      else if m.submitType ≠ .urgent then
        insertBehind (fun b => (contents b).submitType) b s.pendingMessages
      else b :: s.pendingMessages }

/-- `_Thread_queue_Extract_critical`. -/
def extract (t : Thread) : MessageQueue := { s with waitQueue := s.waitQueue.erase t }

/-- `_Thread_queue_Enqueue`, with the wait information. -/
def enqueue (t : Thread) (w : WaitInformation) : MessageQueue :=
  { s with waitQueue := s.waitQueue ++ [t], wait := update s.wait t w }

/-- `_CORE_message_queue_Dequeue_receiver`, and whether one waits. -/
def dequeueReceiver (submitType : SubmitType) (i : ℕ) (es : Thread → List MessageEvent) :
    Option (MessageQueue × Bool) :=
  if s.numberOfPendingMessages ≠ 0 then some (s, false)
  else
    match s.first i with
    | none => some (s, false)
    | some t =>
      if (s.wait t).purpose = .receive then
        let s₁ := { s with wait := update s.wait t { s.wait t with count := submitType } }
        some ((s₁.extract t).note (es t), true)
      else none

/-- `_CORE_message_queue_Submit` without a receiver: it is pending, or fails. -/
def queueMessage (executing : Thread) (m : Message) (wait inIsr : Bool) : MessageQueue :=
  match s.inactiveMessages with
  | b :: rest => ({ s with inactiveMessages := rest }.insertMessage b m).note [.submitted m]
  | [] =>
    if wait = false then s.note [.refused .tooMany]
    else if inIsr = true then s.note [.refused .waitInIsr]
    else s.enqueue executing ⟨.send, m.serial, m.data, m.submitType⟩

def submit (executing : Thread) (data : List (BitVec 8)) (submitType : SubmitType)
    (wait inIsr : Bool) (i : ℕ) : Option MessageQueue :=
  if data.length > s.maximumMessageSize then some (s.note [.refused .invalidSize])
  else do
    let m : Message := ⟨s.calls, submitType, data⟩
    let s₁ := { s with calls := s.calls + 1 }
    let (s₂, found) ← s₁.dequeueReceiver submitType i fun t => [.submitted m, .delivered t m]
    some (if found then s₂ else s₂.queueMessage executing m wait inIsr)

/-- `_CORE_message_queue_Get_pending_message`, and what the seize returns. -/
def getPendingMessage (executing : Thread) (b : ℕ) (rest : List ℕ) : MessageQueue :=
  let m := s.contents b
  { s with
    pendingMessages := rest
    numberOfPendingMessages := s.numberOfPendingMessages - 1
    wait := update s.wait executing { s.wait executing with count := m.submitType } }.note
      [.delivered executing m]

/-- `_CORE_message_queue_Seize`. Old wait information is no message. -/
def seize (executing : Thread) (wait : Bool) (i : ℕ) : Option MessageQueue :=
  match s.pendingMessages with
  | b :: rest =>
    let s₁ := s.getPendingMessage executing b rest
    match s₁.first i with
    | none => some { s₁ with inactiveMessages := s₁.inactiveMessages ++ [b] }
    | some t =>
      if (s₁.wait t).purpose = .send then
        let m := (s₁.wait t).message
        some (((s₁.insertMessage b m).extract t).note [.submitted m])
      else none
  | [] =>
    if wait = false then some (s.note [.refused .unsatisfied])
    else some (s.enqueue executing { s.wait executing with purpose := .receive })

/-- A pass of the loop of `_CORE_message_queue_Broadcast`. -/
def broadcast (data : List (BitVec 8)) (i : ℕ) : Option MessageQueue :=
  if data.length > s.maximumMessageSize then some (s.note [.refused .invalidSize])
  else (s.dequeueReceiver ⟨0, by decide⟩ i fun t => [.broadcasted t data]).map Prod.fst

def flush : MessageQueue :=
  if s.numberOfPendingMessages ≠ 0 then
    { s with
      numberOfPendingMessages := 0
      inactiveMessages := s.pendingMessages ++ s.inactiveMessages
      pendingMessages := [] }.note (s.messages.map .flushed)
  else s

/-- A thread that calls does not wait, and a flush is made when no thread waits to send. -/
def Admits : MessageAction → Prop
  | .submit executing _ _ _ inIsr _ => inIsr = true ∨ executing ∉ s.waitQueue
  | .seize executing _ _ => executing ∉ s.waitQueue
  | .broadcast _ _ => True
  | .flush => ∀ t ∈ s.waitQueue, (s.wait t).purpose = .receive
  | .timeout t => t ∈ s.waitQueue

instance (a : MessageAction) : Decidable (s.Admits a) := by
  cases a <;> unfold Admits <;> infer_instance

def perform : MessageAction → Option MessageQueue
  | .submit executing data submitType wait inIsr i =>
    s.submit executing data submitType wait inIsr i
  | .seize executing wait i => s.seize executing wait i
  | .broadcast data i => s.broadcast data i
  | .flush => some s.flush
  | .timeout t => some ((s.extract t).note [.timedOut t])

def step (a : MessageAction) : Option MessageQueue := if s.Admits a then s.perform a else none

/-- `_CORE_message_queue_Initialize`. -/
def initial (maximumPendingMessages maximumMessageSize : ℕ) : MessageQueue where
  maximumPendingMessages := maximumPendingMessages
  maximumMessageSize := maximumMessageSize
  numberOfPendingMessages := 0
  pendingMessages := []
  inactiveMessages := List.range maximumPendingMessages
  contents _ := ⟨0, .send, []⟩
  waitQueue := []
  wait _ := ⟨.receive, 0, [], .send⟩
  calls := 0
  log := []

def Reachable (maximumPendingMessages maximumMessageSize : ℕ) (s : MessageQueue) : Prop :=
  ∃ as, PartialRun.run step (initial maximumPendingMessages maximumMessageSize) as = some s

end MessageQueue

/-! ## What the log says -/

/-- The messages that were submitted with success, in turn. -/
def submitted (log : List MessageEvent) : List Message :=
  log.filterMap fun e => match e with
    | .submitted m => some m
    | _ => none

/-- The messages that were delivered, in turn, each one to one receiver. -/
def delivered (log : List MessageEvent) : List Message :=
  log.filterMap fun e => match e with
    | .delivered _ m => some m
    | _ => none

def flushed (log : List MessageEvent) : List Message :=
  log.filterMap fun e => match e with
    | .flushed m => some m
    | _ => none

section Log

variable (log : List MessageEvent) (t : Thread) (m : Message) (es : List MessageEvent)

@[simp] theorem submitted_append : submitted (log ++ es) = submitted log ++ submitted es :=
  filterMap_append

@[simp] theorem delivered_append : delivered (log ++ es) = delivered log ++ delivered es :=
  filterMap_append

@[simp] theorem flushed_append : flushed (log ++ es) = flushed log ++ flushed es :=
  filterMap_append

theorem submitted_flushes (l : List Message) : submitted (l.map .flushed) = [] := by
  simp [submitted, filterMap_map]

theorem delivered_flushes (l : List Message) : delivered (l.map .flushed) = [] := by
  simp [delivered, filterMap_map]

theorem flushed_flushes (l : List Message) : flushed (l.map .flushed) = l := by
  simp [flushed, filterMap_map]

end Log

/-! ## The order of the pending messages -/

def turn (k : SubmitType) (l : List Message) : List Message := if k = .urgent then l.reverse else l

/-- The order of pending messages: by submit type, then by submission. -/
structure InTurn (ms l : List Message) : Prop where
  sorted : l.Pairwise fun a b => a.submitType ≤ b.submitType
  same : ∀ k, l.filter (fun m => m.submitType = k) =
    turn k (ms.filter fun m => m.submitType = k ∧ m ∈ l)

section InTurn

variable {ms l : List Message} {m : Message}

theorem turn_filter (k : SubmitType) (p : Message → Bool) (l : List Message) :
    (turn k l).filter p = turn k (l.filter p) := by
  rw [turn, turn]
  split_ifs
  · exact filter_reverse
  · rfl

theorem InTurn.nil (ms : List Message) : InTurn ms [] := by
  refine ⟨List.Pairwise.nil, fun k => ?_⟩
  rw [filter_nil, filter_eq_nil_iff.mpr (by simp), turn]
  simp

theorem InTurn.tail (h : InTurn ms (m :: l)) (hm : m ∉ l) : InTurn ms l := by
  refine ⟨(pairwise_cons.mp h.sorted).2, fun k => ?_⟩
  have hl : l.filter (fun a => a.submitType = k) =
      ((m :: l).filter fun a => a.submitType = k).filter (fun a => a ≠ m) := by
    rw [filter_filter, filter_cons_of_neg (by simp)]
    refine filter_congr fun a ha => ?_
    have : a ≠ m := fun h => hm (h ▸ ha)
    simp [this]
  rw [hl, h.same k, turn_filter, filter_filter]
  refine congrArg _ (filter_congr fun a _ => ?_)
  rw [Bool.eq_iff_iff]
  simp only [Bool.and_eq_true, decide_eq_true_eq, mem_cons]
  constructor
  · rintro ⟨hne, hk, rfl | ha⟩
    · exact absurd rfl hne
    · exact ⟨hk, ha⟩
  · rintro ⟨hk, ha⟩; exact ⟨fun h => hm (h ▸ ha), hk, .inr ha⟩

theorem InTurn.pass (h : InTurn ms l) (hm : m ∉ l) : InTurn (ms ++ [m]) l := by
  refine ⟨h.sorted, fun k => ?_⟩
  rw [h.same k, filter_append, filter_cons_of_neg (by simp [hm]), filter_nil, append_nil]

theorem filter_pending (k : SubmitType) (hm : m ∉ ms) {l' : List Message}
    (hl' : ∀ a, a ∈ l' ↔ a = m ∨ a ∈ l) :
    (ms ++ [m]).filter (fun a => a.submitType = k ∧ a ∈ l') =
      ms.filter (fun a => a.submitType = k ∧ a ∈ l) ++ if m.submitType = k then [m] else [] := by
  rw [filter_append]
  congr 1
  · refine filter_congr fun a ha => ?_
    have : a ≠ m := fun h => hm (h ▸ ha)
    simp [hl', this]
  · by_cases hk : m.submitType = k
    · simp [hk, hl']
    · simp [hk]

theorem SubmitType.urgent_le (k : SubmitType) : .urgent ≤ k := k.2.1

theorem SubmitType.le_send (k : SubmitType) : k ≤ .send := k.2.2

theorem InTurn.urgent (h : InTurn ms l) (hm : m ∉ ms) (hu : m.submitType = .urgent) :
    InTurn (ms ++ [m]) (m :: l) := by
  refine ⟨pairwise_cons.mpr ⟨fun a _ => ?_, h.sorted⟩, fun k => ?_⟩
  · rw [hu]; exact SubmitType.urgent_le _
  · rw [filter_pending k hm (fun a => mem_cons), filter_cons, h.same k]
    by_cases hk : m.submitType = k
    · rw [← hk, hu]; simp [turn]
    · simp [hk]

theorem InTurn.behind (h : InTurn ms l) (hm : m ∉ ms) (hu : m.submitType ≠ .urgent) :
    InTurn (ms ++ [m]) (insertBehind Message.submitType m l) := by
  refine ⟨pairwise_insertBehind h.sorted, fun k => ?_⟩
  have hins : (insertBehind Message.submitType m l).filter (fun a => a.submitType = k) =
      l.filter (fun a => a.submitType = k) ++ if m.submitType = k then [m] else [] := by
    convert filter_insertBehind h.sorted k
  rw [filter_pending k hm (fun a => mem_insertBehind), hins, h.same k]
  by_cases hk : m.submitType = k
  · subst hk; simp [turn, hu]
  · simp [hk]

end InTurn

/-! ## What became of the messages -/

/-- Every submitted message was delivered once, is pending or was flushed. -/
structure Ledger (log : List MessageEvent) (pending : List Message) : Prop where
  nodup : ((submitted log).map Message.serial).Nodup
  account : ∀ m, (submitted log).count m =
    (delivered log).count m + pending.count m + (flushed log).count m
  inTurn : InTurn (submitted log) pending

section Ledger

variable {log es : List MessageEvent} {l : List Message} {m : Message} {t : Thread}

theorem Ledger.append {u v w l' : List Message} (hs : submitted es = u) (hd : delivered es = v)
    (hf : flushed es = w) (hnodup : ((submitted log ++ u).map Message.serial).Nodup)
    (haccount : ∀ a, (submitted log).count a + u.count a = (delivered log).count a + v.count a +
      l'.count a + ((flushed log).count a + w.count a))
    (hturn : InTurn (submitted log ++ u) l') : Ledger (log ++ es) l' := by
  subst hs hd hf
  refine ⟨?_, fun a => ?_, ?_⟩
  · rw [submitted_append]; exact hnodup
  · rw [submitted_append, delivered_append, flushed_append, count_append, count_append, count_append]
    exact haccount a
  · rw [submitted_append]; exact hturn

section

variable (h : Ledger log l)

include h

theorem Ledger.count_le (m : Message) : (submitted log).count m ≤ 1 :=
  nodup_iff_count_le_one.mp (List.Nodup.of_map _ h.nodup) m

theorem Ledger.nodup_pending : l.Nodup := by
  refine nodup_iff_count_le_one.mpr fun m => ?_
  have := h.account m
  have := h.count_le m
  omega

theorem Ledger.mem_submitted (hm : m ∈ l) : m ∈ submitted log := by
  have := h.account m; have := count_pos_iff.mpr hm; exact count_pos_iff.mp (by omega)

theorem Ledger.quiet (hs : submitted es = []) (hd : delivered es = [])
    (hf : flushed es = []) : Ledger (log ++ es) l := by
  refine .append hs hd hf ?_ h.account ?_
  · rw [append_nil]; exact h.nodup
  · rw [append_nil]; exact h.inTurn

theorem Ledger.nodup_submit (hfresh : ∀ a ∈ submitted log, a.serial ≠ m.serial) :
    ((submitted log ++ [m]).map Message.serial).Nodup := by
  rw [map_append, nodup_append]
  refine ⟨h.nodup, nodup_singleton _, fun a ha b hb => ?_⟩
  obtain ⟨x, hx, rfl⟩ := mem_map.mp ha
  obtain rfl := mem_singleton.mp hb
  exact hfresh x hx

theorem Ledger.pass (hfresh : ∀ a ∈ submitted log, a.serial ≠ m.serial) :
    Ledger (log ++ [.submitted m, .delivered t m]) l := by
  have hm : m ∉ submitted log := fun hm => hfresh m hm rfl
  have hl : m ∉ l := fun hml => hm (h.mem_submitted hml)
  refine .append (u := [m]) (v := [m]) (w := []) rfl rfl rfl (h.nodup_submit hfresh) (fun a => ?_)
    (h.inTurn.pass hl)
  rw [h.account a, count_nil]
  omega

theorem Ledger.submit {l' : List Message} (hperm : l'.Perm (m :: l))
    (hfresh : ∀ a ∈ submitted log, a.serial ≠ m.serial)
    (hturn : InTurn (submitted log ++ [m]) l') : Ledger (log ++ [.submitted m]) l' := by
  refine .append (u := [m]) (v := []) (w := []) rfl rfl rfl (h.nodup_submit hfresh) (fun a => ?_) hturn
  rw [h.account a, hperm.count_eq]
  simp only [count_cons, count_nil]
  omega

end

theorem Ledger.deliver (h : Ledger log (m :: l)) : Ledger (log ++ [.delivered t m]) l := by
  refine .append (u := []) (v := [m]) (w := []) rfl rfl rfl ?_ (fun a => ?_) ?_
  · rw [append_nil]; exact h.nodup
  · rw [h.account a]; simp only [count_cons, count_nil]; omega
  · rw [append_nil]; exact h.inTurn.tail (nodup_cons.mp h.nodup_pending).1

theorem Ledger.flush (h : Ledger log l) : Ledger (log ++ l.map .flushed) [] := by
  refine .append (submitted_flushes l) (delivered_flushes l) (flushed_flushes l) ?_ (fun a => ?_) (.nil _)
  · rw [append_nil]; exact h.nodup
  · rw [h.account a, count_nil]; omega

end Ledger

namespace MessageQueue

/-! ## The invariant -/

/-- The buffers are on the two chains or in `hand`. Receivers wait when nothing is pending, senders
when no buffer is inactive. -/
structure Ok (hand : List ℕ) (s : MessageQueue) : Prop where
  positive : 0 < s.maximumPendingMessages
  length : s.pendingMessages.length + s.inactiveMessages.length + hand.length =
    s.maximumPendingMessages
  number : s.numberOfPendingMessages = s.pendingMessages.length
  nodup : (s.pendingMessages ++ s.inactiveMessages ++ hand).Nodup
  waiters : s.waitQueue.Nodup
  receivers : ∀ t ∈ s.waitQueue, (s.wait t).purpose = .receive → s.pendingMessages = []
  senders : ∀ t ∈ s.waitQueue, (s.wait t).purpose = .send → s.inactiveMessages = []
  ledger : Ledger s.log s.messages
  old : ∀ m ∈ submitted s.log, m.serial < s.calls
  waiting : ∀ t ∈ s.waitQueue, (s.wait t).purpose = .send → (s.wait t).serial < s.calls ∧
    ∀ m ∈ submitted s.log, m.serial ≠ (s.wait t).serial
  distinct : ∀ t ∈ s.waitQueue, ∀ u ∈ s.waitQueue, (s.wait t).purpose = .send →
    (s.wait u).purpose = .send → (s.wait t).serial = (s.wait u).serial → t = u

/-- A message of a call that is neither submitted nor waiting. -/
structure Fresh (s : MessageQueue) (n : ℕ) : Prop where
  lt : n < s.calls
  submitted : ∀ a ∈ submitted s.log, a.serial ≠ n
  waiting : ∀ u ∈ s.waitQueue, (s.wait u).purpose = .send → (s.wait u).serial ≠ n

variable {s : MessageQueue} {t : Thread} {m : Message} {b i : ℕ} {hand : List ℕ}

theorem first_eq_none : s.first i = none ↔ s.waitQueue = [] := by
  rw [first, getElem?_eq_none_iff]
  constructor
  · intro h
    by_contra hne
    have := Nat.mod_lt i (length_pos_iff.mpr hne)
    omega
  · intro h; simp [h]

theorem mem_of_first (h : s.first i = some t) : t ∈ s.waitQueue := mem_of_getElem? h

theorem purpose_cases (w : WaitInformation) : w.purpose = .receive ∨ w.purpose = .send := by
  cases w.purpose with
  | receive => exact .inl rfl
  | send => exact .inr rfl

theorem insertMessage_spec {log : List MessageEvent} (h : Ledger log s.messages)
    (hb : b ∉ s.pendingMessages) (hfresh : ∀ a ∈ submitted log, a.serial ≠ m.serial) :
    Ledger (log ++ [.submitted m]) (s.insertMessage b m).messages ∧
      (s.insertMessage b m).pendingMessages.Perm (b :: s.pendingMessages) := by
  have hm : m ∉ submitted log := fun hm => hfresh m hm rfl
  have hmap : s.pendingMessages.map (update s.contents b m) = s.messages := by
    refine map_congr_left fun a ha => ?_
    have : a ≠ b := fun h => hb (h ▸ ha)
    simp [this]
  have hself : update s.contents b m b = m := by simp
  by_cases hu : m.submitType = .urgent
  · have hsend : SubmitType.urgent ≠ .send := by decide
    simp only [insertMessage, messages, hsend, hu, ne_eq, not_true_eq_false, if_false]
    rw [map_cons, hself, hmap]
    exact ⟨h.submit (List.Perm.refl _) hfresh (h.inTurn.urgent hm hu), List.Perm.refl _⟩
  · have hturn := h.inTurn.behind hm hu
    have hledger := h.submit perm_insertBehind hfresh hturn
    by_cases hsend : m.submitType = .send
    · simp only [insertMessage, messages, hsend, if_true]
      rw [map_append, map_singleton, hself, hmap]
      have happ : insertBehind Message.submitType m s.messages = s.messages ++ [m] := by
        have hle : ∀ a ∈ s.messages, a.submitType ≤ m.submitType := by
          intro a _; rw [hsend]; exact SubmitType.le_send _
        have := insertBehind_append_of_le (r := []) hle
        rwa [append_nil] at this
      rw [← happ]
      exact ⟨hledger, perm_append_singleton _ _⟩
    · simp only [insertMessage, messages, hsend, hu, ne_eq, not_false_eq_true, if_true, if_false]
      rw [map_insertBehind, hself, hmap]
      exact ⟨hledger, perm_insertBehind⟩

/-! ## Parts of the actions -/

theorem Ok.note {es : List MessageEvent} (h : s.Ok hand) (hs : submitted es = [])
    (hd : delivered es = []) (hf : flushed es = []) : (s.note es).Ok hand := by
  refine { h with ledger := h.ledger.quiet hs hd hf, old := ?_, waiting := ?_ }
  · intro m hm; rw [MessageQueue.note, submitted_append, hs, append_nil] at hm; exact h.old m hm
  · intro t ht hp
    rw [MessageQueue.note, submitted_append, hs, append_nil]
    exact h.waiting t ht hp

theorem Ok.extract (h : s.Ok hand) (t : Thread) : (s.extract t).Ok hand :=
  { h with
    waiters := h.waiters.erase t
    receivers := fun u hu => h.receivers u (mem_of_mem_erase hu)
    senders := fun u hu => h.senders u (mem_of_mem_erase hu)
    waiting := fun u hu => h.waiting u (mem_of_mem_erase hu)
    distinct := fun u hu v hv =>
      h.distinct u (mem_of_mem_erase hu) v (mem_of_mem_erase hv) }

theorem Ok.not_mem_extract (h : s.Ok hand) (t : Thread) : t ∉ (s.extract t).waitQueue :=
  h.waiters.not_mem_erase

theorem Ok.setWait (h : s.Ok hand) (ht : t ∉ s.waitQueue) (w : WaitInformation) :
    Ok hand { s with wait := update s.wait t w } := by
  have hw : ∀ u ∈ s.waitQueue, update s.wait t w u = s.wait u := by
    intro u hu
    have : u ≠ t := fun h => ht (h ▸ hu)
    simp [this]
  refine { h with
    receivers := fun u hu => ?_, senders := fun u hu => ?_, waiting := fun u hu => ?_
    distinct := fun u hu v hv => ?_ }
  · simpa only [hw u hu] using h.receivers u hu
  · simpa only [hw u hu] using h.senders u hu
  · simpa only [hw u hu] using h.waiting u hu
  · simpa only [hw u hu, hw v hv] using h.distinct u hu v hv

theorem Ok.enqueue {w : WaitInformation} (h : s.Ok hand) (ht : t ∉ s.waitQueue)
    (hrecv : w.purpose = .receive → s.pendingMessages = [])
    (hsend : w.purpose = .send → s.inactiveMessages = [] ∧ s.Fresh w.serial) :
    (s.enqueue t w).Ok hand := by
  have hset := h.setWait ht w
  have hself : update s.wait t w t = w := by simp
  have hcases : ∀ u, u ∈ s.waitQueue ++ [t] → u ∈ s.waitQueue ∨ u = t := by
    intro u hu; simpa using hu
  have hne : ∀ u ∈ s.waitQueue, (update s.wait t w u).purpose = .send →
      w.purpose = .send → (update s.wait t w u).serial ≠ w.serial := by
    intro u hu hp hw
    have : u ≠ t := fun h => ht (h ▸ hu)
    rw [update_of_ne this] at hp ⊢
    exact (hsend hw).2.waiting u hu hp
  refine ⟨h.positive, h.length, h.number, h.nodup, ?_, fun u hu => ?_, fun u hu => ?_, h.ledger,
    h.old, fun u hu => ?_, fun u hu v hv => ?_⟩
  · exact nodup_append.mpr ⟨h.waiters, nodup_singleton t, fun a ha b hb hab =>
      ht (mem_singleton.mp hb ▸ hab ▸ ha)⟩
  · rcases hcases u hu with hu | rfl
    · exact hset.receivers u hu
    · change (update s.wait u w u).purpose = _ → _; rw [hself]; exact hrecv
  · rcases hcases u hu with hu | rfl
    · exact hset.senders u hu
    · change (update s.wait u w u).purpose = _ → _; rw [hself]; exact fun hw => (hsend hw).1
  · rcases hcases u hu with hu | rfl
    · exact hset.waiting u hu
    · change (update s.wait u w u).purpose = _ →
        (update s.wait u w u).serial < _ ∧ ∀ m ∈ _, _ ≠ (update s.wait u w u).serial
      rw [hself]
      exact fun hw => ⟨(hsend hw).2.lt, (hsend hw).2.submitted⟩
  · rcases hcases u hu with hu' | rfl <;> rcases hcases v hv with hv' | rfl
    · exact hset.distinct u hu' v hv'
    · intro hpu hpv heq
      change (update s.wait v w v).purpose = _ at hpv
      change _ = (update s.wait v w v).serial at heq
      rw [hself] at hpv heq
      exact absurd heq (hne u hu' hpu hpv)
    · intro hpu hpv heq
      change (update s.wait u w u).purpose = _ at hpu
      change (update s.wait u w u).serial = _ at heq
      rw [hself] at hpu heq
      exact absurd heq.symm (hne v hv' hpv hpu)
    · exact fun _ _ _ => rfl

theorem Ok.take {rest : List ℕ} (h : s.Ok []) (hp : s.pendingMessages = b :: rest) : ({ s with
        pendingMessages := rest
        numberOfPendingMessages := s.numberOfPendingMessages - 1 }.note
      [.delivered t (s.contents b)]).Ok [b] := by
  have hlen := h.length
  have hnum := h.number
  have hnodup := h.nodup
  rw [hp] at hlen hnum hnodup
  refine ⟨h.positive, ?_, ?_, ?_, h.waiters, fun u hu hr => ?_, h.senders, ?_, ?_, ?_, h.distinct⟩
  · simp only [MessageQueue.note, length_cons, length_nil] at hlen ⊢; omega
  · simp only [MessageQueue.note, length_cons] at hnum ⊢; omega
  · simp only [MessageQueue.note, append_nil, cons_append] at hnodup ⊢
    exact (perm_append_singleton b _).nodup_iff.mpr hnodup
  · rw [h.receivers u hu hr] at hp; cases hp
  · have hledger := h.ledger; rw [messages, hp, map_cons] at hledger; exact hledger.deliver
  · intro m hm; exact h.old m (by simpa [MessageQueue.note, submitted] using hm)
  · intro u hu hsend
    refine ⟨(h.waiting u hu hsend).1, fun m hm => (h.waiting u hu hsend).2 m ?_⟩
    simpa [MessageQueue.note, submitted] using hm

theorem Ok.allocate {rest : List ℕ} (h : s.Ok []) (hi : s.inactiveMessages = b :: rest) :
    Ok [b] { s with inactiveMessages := rest } := by
  have hlen := h.length
  have hnodup := h.nodup
  rw [hi] at hlen hnodup
  refine { h with length := ?_, nodup := ?_, senders := fun u hu hs => ?_ }
  · omega
  · rw [append_nil] at hnodup
    refine (List.Perm.nodup_iff ?_).mpr hnodup
    rw [append_assoc]
    exact List.Perm.append_left _ (perm_append_singleton b rest)
  · rw [h.senders u hu hs] at hi; cases hi

theorem Ok.free (h : s.Ok [b]) (hw : s.waitQueue = []) :
    Ok [] { s with inactiveMessages := s.inactiveMessages ++ [b] } := by
  have hlen := h.length
  refine { h with length := ?_, nodup := ?_, senders := fun u hu => ?_ }
  · simp only [length_append, length_cons, length_nil] at hlen ⊢; omega
  · rw [append_nil, ← append_assoc]; exact h.nodup
  · rw [hw] at hu; cases hu

theorem Ok.serials (h : s.Ok hand) (hm : s.Fresh m.serial) (es : List MessageEvent)
    (hes : submitted es = [m]) :
    (∀ a ∈ submitted (s.log ++ es), a.serial < s.calls) ∧
      ∀ u ∈ s.waitQueue, (s.wait u).purpose = .send → (s.wait u).serial < s.calls ∧
        ∀ a ∈ submitted (s.log ++ es), a.serial ≠ (s.wait u).serial := by
  rw [submitted_append, hes]
  refine ⟨fun a ha => ?_, fun u hu hs => ⟨(h.waiting u hu hs).1, fun a ha => ?_⟩⟩
  · rcases mem_append.mp ha with ha | ha
    · exact h.old a ha
    · rw [mem_singleton.mp ha]; exact hm.lt
  · rcases mem_append.mp ha with ha | ha
    · exact (h.waiting u hu hs).2 a ha
    · rw [mem_singleton.mp ha]; exact (hm.waiting u hu hs).symm

theorem Ok.insert (h : s.Ok [b]) (hw : ∀ u ∈ s.waitQueue, (s.wait u).purpose = .send)
    (hm : s.Fresh m.serial) : ((s.insertMessage b m).note [.submitted m]).Ok [] := by
  have hb : b ∉ s.pendingMessages := by
    intro hb
    have := h.nodup
    rw [nodup_append] at this
    exact this.2.2 b (mem_append_left _ hb) b (mem_singleton_self b) rfl
  obtain ⟨hledger, hperm⟩ := insertMessage_spec h.ledger hb hm.submitted
  have hlen := h.length
  have hplen := hperm.length_eq
  obtain ⟨hold, hwaiting⟩ := h.serials hm [.submitted m] rfl
  rw [length_cons] at hplen
  refine ⟨h.positive, ?_, ?_, ?_, h.waiters, fun u hu hr => ?_, h.senders, hledger, hold, hwaiting,
    h.distinct⟩
  · change (s.insertMessage b m).pendingMessages.length + s.inactiveMessages.length + 0 =
      s.maximumPendingMessages
    simp only [length_cons, length_nil] at hlen
    omega
  · change s.numberOfPendingMessages + 1 = (s.insertMessage b m).pendingMessages.length
    rw [hplen, h.number]
  · change ((s.insertMessage b m).pendingMessages ++ s.inactiveMessages ++ []).Nodup
    rw [append_nil, (hperm.append_right _).nodup_iff]
    exact (perm_append_singleton b _).nodup_iff.mp h.nodup
  · exact absurd ((hw u hu).symm.trans hr) (by decide)

theorem Ok.pass (h : s.Ok hand) (hm : s.Fresh m.serial) :
    (s.note [.submitted m, .delivered t m]).Ok hand := by
  obtain ⟨hold, hwaiting⟩ := h.serials hm [.submitted m, .delivered t m] rfl
  exact { h with ledger := h.ledger.pass hm.submitted, old := hold, waiting := hwaiting }

/-! ## The actions -/

theorem Ok.waiters_alike (h : s.Ok []) (hn : s.numberOfPendingMessages = 0) (ht : t ∈ s.waitQueue) :
    (s.wait t).purpose = .receive := by
  rcases purpose_cases (s.wait t) with hp | hp
  · exact hp
  · have hlen := h.length
    rw [h.senders t ht hp, ← h.number, hn] at hlen
    have := h.positive
    simp only [length_nil] at hlen
    omega

theorem Ok.dequeueReceiver (h : s.Ok []) (k : SubmitType) (i : ℕ)
    (es : Thread → List MessageEvent) :
    (s.dequeueReceiver k i es = some (s, false) ∧ ∀ u ∈ s.waitQueue, (s.wait u).purpose = .send) ∨
      ∃ (t : Thread) (s' : MessageQueue), s.dequeueReceiver k i es = some (s'.note (es t), true) ∧
        s'.Ok [] ∧ s'.calls = s.calls ∧ s'.log = s.log ∧ ∀ u ∈ s'.waitQueue, u ∈ s.waitQueue ∧
          s'.wait u = s.wait u := by
  simp only [MessageQueue.dequeueReceiver]
  by_cases hn : s.numberOfPendingMessages = 0
  · rw [if_neg (not_not.mpr hn)]
    cases hf : s.first i with
    | none =>
      refine .inl ⟨rfl, fun u hu => ?_⟩
      rw [first_eq_none.mp hf] at hu
      cases hu
    | some t =>
      have ht := mem_of_first hf
      refine .inr ⟨t, _, if_pos (h.waiters_alike hn ht),
        (h.extract t).setWait (h.not_mem_extract t) { s.wait t with count := k }, rfl, rfl,
        fun u hu => ⟨mem_of_mem_erase hu, ?_⟩⟩
      have hut : u ≠ t := by rintro rfl; exact h.not_mem_extract u hu
      exact update_of_ne hut _ _
  · rw [if_pos hn]
    refine .inl ⟨rfl, fun u hu => ?_⟩
    rcases purpose_cases (s.wait u) with hp | hp
    · rw [h.number, h.receivers u hu hp] at hn; exact absurd rfl hn
    · exact hp

theorem Ok.call (h : s.Ok hand) :
    Ok hand { s with calls := s.calls + 1 } ∧ Fresh { s with calls := s.calls + 1 } s.calls := by
  refine ⟨{ h with old := fun m hm => ?_, waiting := fun t ht hp => ?_ }, Nat.lt_succ_self _,
    fun m hm => ?_, fun u hu hp => ?_⟩
  · exact (h.old m hm).trans (Nat.lt_succ_self _)
  · exact ⟨(h.waiting t ht hp).1.trans (Nat.lt_succ_self _), (h.waiting t ht hp).2⟩
  · exact (h.old m hm).ne
  · exact (h.waiting u hu hp).1.ne

section

variable (h : s.Ok [])

include h

theorem Ok.queueMessage (wait inIsr : Bool) (ht : inIsr = true ∨ t ∉ s.waitQueue)
    (hsenders : ∀ u ∈ s.waitQueue, (s.wait u).purpose = .send) (hm : s.Fresh m.serial) :
    (s.queueMessage t m wait inIsr).Ok [] := by
  rw [MessageQueue.queueMessage]
  split
  · next b rest hi => exact (h.allocate hi).insert hsenders ⟨hm.lt, hm.submitted, hm.waiting⟩
  · next hi =>
    split_ifs with hwait hisr
    · exact h.note rfl rfl rfl
    · exact h.note rfl rfl rfl
    · exact h.enqueue (ht.resolve_left hisr) (fun hp => by cases hp) fun _ => ⟨hi, hm⟩

theorem Ok.submit (data : List (BitVec 8)) (k : SubmitType) (wait inIsr : Bool) (i : ℕ)
    (ht : inIsr = true ∨ t ∉ s.waitQueue) :
    ∃ s', s.submit t data k wait inIsr i = some s' ∧ s'.Ok [] := by
  simp only [MessageQueue.submit]
  split
  · exact ⟨_, rfl, h.note rfl rfl rfl⟩
  · obtain ⟨hok, hfresh⟩ := h.call
    obtain ⟨hnone, hsenders⟩ | ⟨r, s', hfound, hok', hcalls, hlog, hwait⟩ :=
      hok.dequeueReceiver k i fun t => [.submitted ⟨s.calls, k, data⟩, .delivered t ⟨s.calls, k, data⟩]
    · rw [hnone]; exact ⟨_, rfl, hok.queueMessage wait inIsr ht hsenders hfresh⟩
    · rw [hfound]
      refine ⟨_, rfl, hok'.pass ⟨?_, ?_, fun u hu hp => ?_⟩⟩
      · rw [hcalls]; exact hfresh.lt
      · rw [hlog]; exact hfresh.submitted
      · rw [(hwait u hu).2] at hp ⊢; exact hfresh.waiting u (hwait u hu).1 hp

theorem Ok.seize (wait : Bool) (i : ℕ) (ht : t ∉ s.waitQueue) :
    ∃ s', s.seize t wait i = some s' ∧ s'.Ok [] := by
  simp only [MessageQueue.seize]
  cases hp : s.pendingMessages with
  | nil =>
    cases wait with
    | false => exact ⟨_, rfl, h.note rfl rfl rfl⟩
    | true => exact ⟨_, rfl, h.enqueue ht (fun _ => hp) fun hs => by cases hs⟩
  | cons b rest =>
    have htake : (s.getPendingMessage t b rest).Ok [b] := (h.take hp).setWait ht _
    -- whoever waits waits to send, since a message was pending
    have hsend : ∀ u ∈ (s.getPendingMessage t b rest).waitQueue,
        ((s.getPendingMessage t b rest).wait u).purpose = .send := by
      intro u hu
      have hut : u ≠ t := by rintro rfl; exact ht hu
      have hw : (s.getPendingMessage t b rest).wait u = s.wait u := update_of_ne hut _ _
      rw [hw]
      rcases purpose_cases (s.wait u) with hr | hr
      · rw [h.receivers u hu hr] at hp; cases hp
      · exact hr
    simp only
    cases hf : (s.getPendingMessage t b rest).first i with
    | none => exact ⟨_, rfl, htake.free (first_eq_none.mp hf)⟩
    | some u =>
      have hu := mem_of_first hf
      refine ⟨_, if_pos (hsend u hu), ?_⟩
      refine Ok.insert (htake.extract u)
        (fun v hv => hsend v (mem_of_mem_erase hv)) ⟨?_, ?_, fun v hv hs heq => ?_⟩
      · exact (htake.waiting u hu (hsend u hu)).1
      · exact (htake.waiting u hu (hsend u hu)).2
      · have huv := htake.distinct v (mem_of_mem_erase hv) u hu hs (hsend u hu) heq
        exact htake.not_mem_extract u (huv ▸ hv)

theorem Ok.broadcast (data : List (BitVec 8)) (i : ℕ) :
    ∃ s', s.broadcast data i = some s' ∧ s'.Ok [] := by
  simp only [MessageQueue.broadcast]
  split
  · exact ⟨_, rfl, h.note rfl rfl rfl⟩
  · obtain ⟨hnone, -⟩ | ⟨r, s', hfound, hok', -⟩ :=
      h.dequeueReceiver ⟨0, by decide⟩ i fun t => [.broadcasted t data]
    · exact ⟨s, by rw [hnone]; rfl, h⟩
    · exact ⟨_, by rw [hfound]; rfl, hok'.note rfl rfl rfl⟩

theorem Ok.flush (hw : ∀ t ∈ s.waitQueue, (s.wait t).purpose = .receive) : s.flush.Ok [] := by
  simp only [MessageQueue.flush]
  split
  · have hlen := h.length
    have hsub : submitted (s.log ++ s.messages.map .flushed) = submitted s.log := by
      rw [submitted_append, submitted_flushes, append_nil]
    refine ⟨h.positive, ?_, rfl, ?_, h.waiters, fun _ _ _ => rfl, fun u hu hs => ?_, h.ledger.flush,
      ?_, ?_, h.distinct⟩
    · simp only [MessageQueue.note, length_append, length_nil] at hlen ⊢; omega
    · simpa [MessageQueue.note] using h.nodup
    · exact absurd ((hw u hu).symm.trans hs) (by decide)
    · change ∀ m ∈ submitted (s.log ++ s.messages.map .flushed), m.serial < s.calls
      rw [hsub]
      exact h.old
    · change ∀ t ∈ s.waitQueue, (s.wait t).purpose = .send → (s.wait t).serial < s.calls ∧
        ∀ m ∈ submitted (s.log ++ s.messages.map .flushed), m.serial ≠ (s.wait t).serial
      rw [hsub]
      exact h.waiting
  · exact h

theorem Ok.step {a : MessageAction} (ha : s.Admits a) : ∃ s', s.step a = some s' ∧ s'.Ok [] := by
  rw [MessageQueue.step, if_pos ha]
  cases a with
  | submit t data k wait inIsr i => exact h.submit data k wait inIsr i ha
  | seize t wait i => exact h.seize wait i ha
  | broadcast data i => exact h.broadcast data i
  | flush => exact ⟨_, rfl, h.flush ha⟩
  | timeout t => exact ⟨_, rfl, (h.extract t).note rfl rfl rfl⟩

end

theorem Ok.initial {n : ℕ} (hn : 0 < n) (size : ℕ) : (initial n size).Ok [] := by
  refine ⟨hn, ?_, rfl, ?_, nodup_nil, ?_, ?_, ⟨nodup_nil, fun _ => rfl, InTurn.nil _⟩,
    ?_, ?_, ?_⟩
  · simp [MessageQueue.initial]
  · simpa [MessageQueue.initial] using nodup_range
  all_goals
    intro t ht
    cases ht

theorem Reachable.ok {n size : ℕ} (hn : 0 < n) (hs : Reachable n size s) : s.Ok [] := by
  obtain ⟨as, hrun⟩ := hs
  refine PartialRun.run_invariant step (fun s a s' h hstep => ?_) (Ok.initial hn size) hrun
  by_cases ha : s.Admits a
  · obtain ⟨s1, hs1, hok⟩ := h.step ha
    rw [hs1] at hstep
    cases hstep
    exact hok
  · rw [MessageQueue.step, if_neg ha] at hstep; cases hstep

/-- **No message is lost, duplicated or out of order**, if there is a buffer. -/
theorem messages_exact {n size : ℕ} (hn : 0 < n) (hs : Reachable n size s) :
    s.pendingMessages.length + s.inactiveMessages.length = s.maximumPendingMessages ∧
    s.numberOfPendingMessages = s.pendingMessages.length ∧
    (∀ t ∈ s.waitQueue, (s.wait t).purpose = .receive → s.pendingMessages = []) ∧
    (∀ t ∈ s.waitQueue, (s.wait t).purpose = .send → s.inactiveMessages = []) ∧
    (∀ m, (submitted s.log).count m ≤ 1 ∧ (submitted s.log).count m =
      (delivered s.log).count m + s.messages.count m + (flushed s.log).count m) ∧
    (s.messages.Pairwise fun a b => a.submitType ≤ b.submitType) ∧
    (∀ k, s.messages.filter (fun m => m.submitType = k) = if k = .urgent then
        ((submitted s.log).filter fun m => m.submitType = k ∧ m ∈ s.messages).reverse
      else (submitted s.log).filter fun m => m.submitType = k ∧ m ∈ s.messages) ∧
    ∀ a, s.Admits a → (s.step a).isSome = true := by
  have h := hs.ok hn
  refine ⟨h.length, h.number, h.receivers, h.senders, fun m => ?_, h.ledger.inTurn.sorted,
    h.ledger.inTurn.same, fun a ha => ?_⟩
  · exact ⟨h.ledger.count_le m, h.ledger.account m⟩
  · obtain ⟨s', hs', -⟩ := h.step ha; simp [hs']

theorem messages_exact_two : ∃ s : MessageQueue, Reachable 2 8 s ∧
    s.messages = [⟨0, .send, [1]⟩, ⟨2, .send, [3]⟩] ∧
    (submitted s.log).count ⟨2, .send, [3]⟩ =
      (delivered s.log).count ⟨2, .send, [3]⟩ + 1 + (flushed s.log).count ⟨2, .send, [3]⟩ := by
  obtain ⟨s, hrun, hmessages⟩ := PartialRun.exists_of_any
      (o := PartialRun.run step (initial 2 8) [.submit 1 [1] .send true false 0, .submit 1 [2] ⟨7,
        by decide⟩ true false 0, .submit 2 [3] .send true false 0, .seize 3 true 0])
      (P := fun s => s.messages = [⟨0, .send, [1]⟩, ⟨2, .send, [3]⟩]) (by decide +kernel)
  have hreach : Reachable 2 8 s := ⟨_, hrun⟩
  obtain ⟨-, -, -, -, haccount, -⟩ := messages_exact (by decide) hreach
  have hm := (haccount ⟨2, .send, [3]⟩).2
  rw [hmessages] at hm
  exact ⟨s, hreach, hmessages, hm⟩

end MessageQueue

/-! ## Message buffers -/

/-- `sizeof(CORE_message_queue_Buffer_control)` with pointers of four bytes. -/
def bufferControlSize (messagePriority : Bool) : ℕ := if messagePriority then 20 else 16

/-- `size_t_mult32_with_overflow`, whose product is a `long long`. -/
def sizeTMult32WithOverflow (a b : ℕ) : Option (Option ℕ) :=
  if a * b < 2 ^ 63 then some (if a * b > 2 ^ 32 - 1 then none else some (a * b)) else none

/-- The nodes that the loop of `_Chain_Initialize` writes. -/
def chainNodes (nodeSize : ℕ) : ℕ → ℕ → List ℕ
  | 0, _ => []
  | count + 1, next => next :: chainNodes nodeSize count (next + nodeSize)

/-- `_CORE_message_queue_Initialize` with a `size_t` of 32 bits: size, address and nodes of the
allocation; an overflow of `long long` is undefined. -/
def coreMessageQueueInitialize (messagePriority : Bool) (workspaceAllocate : ℕ → Option ℕ)
    (maximumPendingMessages maximumMessageSize : ℕ) : Option (Option (ℕ × ℕ × List ℕ)) :=
  let alignedMessageSize := (maximumMessageSize + 3) % 2 ^ 32 / 4 * 4
  if alignedMessageSize < maximumMessageSize then some none
  else
    let nodeSize := (alignedMessageSize + bufferControlSize messagePriority) % 2 ^ 32
    (sizeTMult32WithOverflow maximumPendingMessages nodeSize).map fun r => r.bind fun required =>
      (workspaceAllocate required).map fun start =>
        (required, start, chainNodes nodeSize maximumPendingMessages start)

theorem mem_chainNodes {nodeSize count next a : ℕ} (h : a ∈ chainNodes nodeSize count next) :
    next ≤ a ∧ a + nodeSize ≤ next + count * nodeSize := by
  induction count generalizing next with
  | zero => cases h
  | succ count ih =>
    rw [Nat.succ_mul]
    rcases mem_cons.mp h with rfl | h
    · omega
    · have := ih h; omega

/-- The memory of a message buffer as a number: the aligned size and the control. -/
def bufferSize (messagePriority : Bool) (size : ℕ) : ℕ :=
  (size + 3) / 4 * 4 + bufferControlSize messagePriority

/-- **The allocation is as large as its buffers** if and only if no overflow is left unnoticed. -/
theorem messageBuffers_fit_iff (p : Bool) {count size : ℕ} (hc : 0 < count) (hc' : count < 2 ^ 32)
    (hs : size < 2 ^ 32) :
    (∀ workspaceAllocate, ∃ r, coreMessageQueueInitialize p workspaceAllocate count size = some r ∧
      ∀ required start nodes, r = some (required, start, nodes) →
        required = count * bufferSize p size ∧
        ∀ a ∈ nodes, start ≤ a ∧ a + bufferSize p size ≤ start + required) ↔
      2 ^ 32 ≤ size + 3 ∨ bufferSize p size < 2 ^ 32 ∧ count * bufferSize p size < 2 ^ 63 ∨
      2 ^ 32 ≤ bufferSize p size ∧ 2 ^ 32 ≤ count * (bufferSize p size - 2 ^ 32) := by
  have hp : bufferControlSize p ≤ 20 := by cases p <;> decide
  unfold coreMessageQueueInitialize bufferSize sizeTMult32WithOverflow
  by_cases hal : 2 ^ 32 ≤ size + 3
  · exact iff_of_true (fun alloc => ⟨none, if_pos (by omega), fun _ _ _ h => nomatch h⟩) (.inl hal)
  simp only [Nat.mod_eq_of_lt (Nat.lt_of_not_le hal),
    if_neg (show ¬ (size + 3) / 4 * 4 < size by omega)]
  obtain ⟨n, hn⟩ : ∃ n, (size + 3) / 4 * 4 + bufferControlSize p = n := ⟨_, rfl⟩
  rw [hn]
  by_cases hlt : n < 2 ^ 32
  · -- the size of a buffer is right, and its product is or is refused
    rw [Nat.mod_eq_of_lt hlt]
    refine ⟨fun h => ?_, fun h alloc => ?_⟩
    · by_contra hno
      obtain ⟨r, hr, -⟩ := h fun _ => none
      rw [if_neg (by omega)] at hr
      cases hr
    · rw [if_pos (by omega)]
      refine ⟨_, rfl, fun required start nodes hr => ?_⟩
      split_ifs at hr
      · cases hr
      · obtain ⟨start', -, he⟩ := Option.map_eq_some_iff.mp hr
        cases he
        exact ⟨rfl, fun a ha => mem_chainNodes ha⟩
  · -- the size of a buffer is wrong
    rw [show n % 2 ^ 32 = n - 2 ^ 32 by omega]
    have hle : count * (n - 2 ^ 32) ≤ count * 20 := Nat.mul_le_mul_left _ (by omega)
    rw [if_pos (by omega)]
    refine ⟨fun h => ?_, fun h alloc => ⟨none, ?_, fun _ _ _ h => nomatch h⟩⟩
    · by_contra hno
      obtain ⟨r, hr, heq⟩ := h fun _ => some 0
      rw [if_neg (by omega)] at hr
      cases hr
      have := Nat.eq_of_mul_eq_mul_left hc (heq _ _ _ rfl).1
      omega
    · rw [if_pos (by omega)]; rfl

theorem messageBuffers_fit_ten : ∃ r, coreMessageQueueInitialize false (fun _ => some 0) 10 30 =
    some r ∧ ∀ required start nodes, r = some (required, start, nodes) → required = 10 * 48 := by
  have h := (messageBuffers_fit_iff false (by decide : 0 < 10) (by decide)
    (by decide : 30 < 2 ^ 32)).mpr (.inr (.inl (by decide)))
  obtain ⟨r, hr, hfit⟩ := h fun _ => some 0
  exact ⟨r, hr, fun required start nodes he => (hfit required start nodes he).1⟩

/-- The buffer for a message of `2 ^ 32 - 4` bytes is allocated with 12 bytes. -/
theorem not_messageBuffers_fit : coreMessageQueueInitialize false (fun _ => some 0) 1 (2 ^ 32 - 4) =
    some (some (12, 0, [0])) := by
  decide +kernel

end Rtems
