import Mathlib.Algebra.Order.Group.Multiset
import Mathlib.Data.List.DropRight
import Mathlib.Data.List.Pairwise
import UnixCommons.Library.Runs

/-!
# Planner

A planner keeps goals with the times they are to be delivered at, and one worker thread
that delivers them. Callers add to the list and remove from it under a lock. The worker
reads the clock, takes the lock, moves what is due to a list of its own, and gives up
the lock before it calls the goals; with nothing due it waits on a condition until the
first time in the list or until a caller puts something in front of it.

The machine has a step for each stretch of a thread that no other thread can come
between: a caller's locked section, the worker's reading of the clock, its locked
sections, and the start and the end of each call of a goal. A wait may end at any
moment and for any reason. Times are counted in microseconds.

What has been scheduled, delivered, unscheduled and cleared is recorded beside the
state of the source, and a message carries the number of the call that scheduled it;
no step reads these.
-/

namespace UnixCommons.Generics

open List

variable {Goal : Type}

/-- An element of the queue. -/
structure TimedMessage (Goal : Type) where
  time : Nat
  goal : Goal
  ticket : Nat
deriving DecidableEq

/-- A call of a goal: when it started and which shift of the delivery time was in force. -/
structure Delivery (Goal : Type) where
  message : TimedMessage Goal
  moment : Nat
  shift : Nat

/-- Where the worker is. -/
inductive Worker where
  /-- at the head of the loop -/
  | top
  /-- has read the clock, is about to take the lock -/
  | locking (curTime : Nat)
  /-- has found nothing due, is about to take the lock to wait -/
  | idle (absTime : Option Nat)
  /-- waits, with the lock given up -/
  | waiting (absTime : Option Nat)
  /-- was woken by a new event, is about to read the clock -/
  | awake (absTime : Option Nat)
  /-- at the head of the loop over the pending messages -/
  | delivering
  /-- in the call of the first pending message -/
  | calling
  /-- has left the loop -/
  | finished
deriving DecidableEq

/-- The planner with its worker and the clock. -/
structure PlannerJob (Goal : Type) where
  messages : List (TimedMessage Goal)
  haveNewEvents : Bool
  deliveryTimeShift : Nat
  terminating : Bool
  clock : Nat
  worker : Worker
  pending : List (TimedMessage Goal)
  scheduled : List (TimedMessage Goal)
  delivered : List (Delivery Goal)
  unscheduled : List (TimedMessage Goal)
  cleared : List (TimedMessage Goal)

/-- Why nothing was scheduled. -/
inductive ScheduleFault where
  | goalIsNull

/-- How a wait on the condition ends. -/
inductive WaitResult where
  | normal
  | timedOut
  | failed

namespace PlannerJob

/-- A planner that has been constructed. -/
def new (clock : Nat) : PlannerJob Goal where
  messages := []
  haveNewEvents := false
  deliveryTimeShift := 0
  terminating := false
  clock := clock
  worker := .top
  pending := []
  scheduled := []
  delivered := []
  unscheduled := []
  cleared := []

/-- The search for a place goes from the end over messages that are not earlier. -/
def schedule (goal : Option Goal) (time : Int) (job : PlannerJob Goal) :
    Except ScheduleFault (PlannerJob Goal) :=
  match goal with
  | none => .error .goalIsNull
  | some goal =>
    let message := ⟨time.toNat, goal, job.scheduled.length⟩
    let notEarlier (other : TimedMessage Goal) : Bool := !decide (other.time < message.time)
    let before := job.messages.rdropWhile notEarlier
    .ok { job with
      messages := before ++ message :: job.messages.rtakeWhile notEarlier
      haveNewEvents := job.haveNewEvents || before.isEmpty
      scheduled := job.scheduled ++ [message] }

/-- Removes all entries of a goal and tells how many there were. -/
def unschedule [DecidableEq Goal] (goal : Goal) (job : PlannerJob Goal) : Nat × PlannerJob Goal :=
  let removed := job.messages.filter fun message => decide (message.goal = goal)
  (removed.length,
    { job with
      messages := job.messages.filter fun message => !decide (message.goal = goal)
      unscheduled := job.unscheduled ++ removed })

/-- `clear`. -/
def clear (job : PlannerJob Goal) : PlannerJob Goal :=
  { job with messages := [], cleared := job.cleared ++ job.messages }

/-- `terminate`. -/
def terminate (job : PlannerJob Goal) : PlannerJob Goal :=
  { job with terminating := true, haveNewEvents := true }

/-- The time a message is due at, earlier by the shift if delivery times are adjusted. -/
def dueTime (adjustment : Bool) (shift : Nat) (message : TimedMessage Goal) : Nat :=
  if adjustment then
    if message.time > shift then message.time - shift else 0
  else message.time

/-- The overdue messages at the front, those left, and when the first of these is due. -/
def pump (adjustment : Bool) (shift curTime : Nat) :
    List (TimedMessage Goal) → List (TimedMessage Goal) × List (TimedMessage Goal) × Option Nat
  | [] => ([], [], none)
  | message :: rest =>
    let absTime := dueTime adjustment shift message
    if absTime ≤ curTime then
      let (taken, left, next) := pump adjustment shift curTime rest
      (message :: taken, left, next)
    else ([], message :: rest, some absTime)

/-- What `timed_wait` returns; `none` if it throws. Without a time it never times out. -/
def timedWait (absTime : Option Nat) (result : WaitResult) : Option Bool :=
  match result, absTime with
  | .normal, _ => some true
  | .timedOut, some _ => some false
  | .timedOut, none => none
  | .failed, _ => none

/-- The end of the section in which the worker waits for new events. -/
def leaveWait (absTime : Option Nat) (newEventInSchedule : Bool) (job : PlannerJob Goal) :
    PlannerJob Goal :=
  if job.terminating then { job with worker := .finished }
  else if newEventInSchedule then { job with haveNewEvents := false, worker := .awake absTime }
  else { job with worker := .delivering }

/-- The worker takes back the lock after a wait. -/
def wake (result : WaitResult) (job : PlannerJob Goal) : PlannerJob Goal :=
  match job.worker with
  | .waiting absTime =>
    let newEventInSchedule := (timedWait absTime result).getD false
    leaveWait absTime (newEventInSchedule && job.haveNewEvents) job
  | _ => job

/-- The next step of the worker; one that waits makes none of its own. -/
def work (adjustment : Bool) (job : PlannerJob Goal) : PlannerJob Goal :=
  match job.worker with
  | .top => { job with worker := .locking job.clock }
  | .locking curTime =>
    if job.terminating then { job with worker := .finished }
    else
      let (taken, left, absTime) := pump adjustment job.deliveryTimeShift curTime job.messages
      let pending := job.pending ++ taken
      { job with
        messages := left
        pending := pending
        worker := if pending.isEmpty then .idle absTime else .delivering }
  | .idle absTime =>
    if job.haveNewEvents then leaveWait absTime true job
    else { job with worker := .waiting absTime }
  | .waiting _ => job
  | .awake absTime =>
    { job with
      worker := .top
      deliveryTimeShift :=
        match adjustment, absTime with
        | true, some absTime =>
          if job.clock > absTime then (job.clock - absTime) / 2 else job.deliveryTimeShift
        | _, _ => job.deliveryTimeShift }
  | .delivering =>
    match job.pending with
    | [] => { job with worker := .top }
    | message :: _ =>
      { job with
        worker := .calling
        delivered := job.delivered ++
          [⟨message, job.clock, if adjustment then job.deliveryTimeShift else 0⟩] }
  | .calling => { job with worker := .delivering, pending := job.pending.tail }
  | .finished => job

end PlannerJob

/-- What can happen to a planner. -/
inductive PlannerEvent (Goal : Type) where
  | schedule (goal : Option Goal) (time : Int)
  | unschedule (goal : Goal)
  | clear
  | terminate
  | tick (elapsed : Nat)
  | work
  | wake (result : WaitResult)

/-- One event. A call that throws changes nothing. -/
def PlannerEvent.step [DecidableEq Goal] (adjustment : Bool) :
    PlannerEvent Goal → PlannerJob Goal → PlannerJob Goal
  | schedule goal time, job =>
    match job.schedule goal time with
    | .ok next => next
    | .error _ => job
  | unschedule goal, job => (job.unschedule goal).2
  | clear, job => job.clear
  | terminate, job => job.terminate
  | tick elapsed, job => { job with clock := job.clock + elapsed }
  | work, job => job.work adjustment
  | wake result, job => job.wake result

namespace PlannerJob

/-- The messages the worker has taken and not yet called. -/
def taken (job : PlannerJob Goal) : List (TimedMessage Goal) :=
  if job.worker = .calling then job.pending.tail else job.pending

/-- How much earlier than scheduled a message may be called. -/
def allowance (adjustment : Bool) (job : PlannerJob Goal) : Nat :=
  if adjustment then job.deliveryTimeShift else 0

/-- What all reachable states have in common. -/
structure Orderly (adjustment : Bool) (job : PlannerJob Goal) : Prop where
  /-- the queue is sorted by time -/
  sorted : job.messages.Pairwise fun first second => first.time ≤ second.time
  /-- everything scheduled is in one place -/
  accounted : job.scheduled.Perm (job.messages ++ (job.taken ++
    (job.delivered.map Delivery.message ++ (job.unscheduled ++ job.cleared))))
  /-- the tickets count the calls -/
  tickets : job.scheduled.map TimedMessage.ticket = List.range job.scheduled.length
  /-- what was taken is due -/
  due : ∀ message ∈ job.taken, message.time ≤ job.clock + job.allowance adjustment
  /-- the worker holds messages only to deliver them -/
  resting : job.worker ≠ .delivering → job.worker ≠ .calling → job.pending = []
  /-- the worker's reading of the clock is not ahead of it -/
  seen : ∀ curTime, job.worker = .locking curTime → curTime ≤ job.clock
  /-- nothing was called too early -/
  prompt : ∀ delivery ∈ job.delivered,
    delivery.message.time ≤ delivery.moment + delivery.shift ∧
      (adjustment = false → delivery.shift = 0)

theorem new_orderly {adjustment : Bool} {clock : Nat} :
    (new clock : PlannerJob Goal).Orderly adjustment where
  sorted := .nil
  accounted := .refl _
  tickets := rfl
  due := nofun
  resting _ _ := rfl
  seen := nofun
  prompt := nofun

variable {adjustment : Bool} {job : PlannerJob Goal}

/-- Nothing is taken out of an empty schedule. -/
theorem taken_of_empty (empty : job.pending = []) : job.taken = [] := by
  unfold taken
  rw [empty]
  split <;> rfl

/-- A worker that holds no messages moves on. -/
theorem Orderly.moved (orderly : job.Orderly adjustment) (empty : job.pending = [])
    {haveNewEvents : Bool} {shift : Nat} {worker : Worker}
    (seen : ∀ curTime, worker = .locking curTime → curTime ≤ job.clock) :
    Orderly adjustment { job with
      worker := worker, haveNewEvents := haveNewEvents, deliveryTimeShift := shift } := by
  have none : taken { job with
      worker := worker, haveNewEvents := haveNewEvents, deliveryTimeShift := shift } = [] :=
    taken_of_empty empty
  refine { orderly with accounted := ?_, due := ?_, resting := fun _ _ => empty, seen := seen }
  · have accounted := orderly.accounted
    rw [taken_of_empty empty] at accounted
    rw [none]
    exact accounted
  · rw [none]
    nofun

variable {messages : List (TimedMessage Goal)}

/-- In a sorted queue all messages before the place found are earlier. -/
theorem earlier_before {time : Nat}
    (sorted : messages.Pairwise fun first second => first.time ≤ second.time) :
    ∀ other ∈ messages.rdropWhile fun other => !decide (other.time < time), other.time < time := by
  induction messages using List.reverseRecOn with
  | nil => nofun
  | append_singleton front last ih =>
    obtain ⟨sortedFront, _, below⟩ := pairwise_append.mp sorted
    by_cases earlier : last.time < time
    · rw [rdropWhile_concat_neg _ _ _ (by simp [earlier])]
      intro other member
      rcases mem_append.mp member with inside | atEnd
      · exact lt_of_le_of_lt (below other inside last mem_cons_self) earlier
      · rw [mem_singleton.mp atEnd]
        exact earlier
    · rw [rdropWhile_concat_pos _ _ _ (by simp [earlier])]
      exact ih sortedFront

/-- The queue stays sorted. -/
theorem placed_sorted {message : TimedMessage Goal}
    (sorted : messages.Pairwise fun first second => first.time ≤ second.time) :
    ((messages.rdropWhile fun other => !decide (other.time < message.time)) ++
      message :: messages.rtakeWhile fun other => !decide (other.time < message.time)).Pairwise
        fun first second => first.time ≤ second.time := by
  have earlier := @earlier_before Goal messages message.time sorted
  have later : ∀ other ∈ messages.rtakeWhile fun other => !decide (other.time < message.time),
      message.time ≤ other.time := by
    intro other member
    simpa using mem_rtakeWhile_imp member
  rw [← rdropWhile_append_rtakeWhile (p := fun other => !decide (other.time < message.time))
    (l := messages)] at sorted
  obtain ⟨first, second, across⟩ := pairwise_append.mp sorted
  refine pairwise_append.mpr ⟨first, pairwise_cons.mpr ⟨later, second⟩, ?_⟩
  intro other inFirst next inSecond
  rcases mem_cons.mp inSecond with rfl | inSecond
  · exact le_of_lt (earlier other inFirst)
  · exact across other inFirst next inSecond

section

variable (orderly : job.Orderly adjustment)
include orderly

/-- `schedule` keeps the planner orderly. -/
theorem Orderly.schedule {goal : Option Goal} {time : Int} {next : PlannerJob Goal}
    (scheduled : job.schedule goal time = .ok next) : next.Orderly adjustment := by
  cases goal with
  | none => cases scheduled
  | some goal =>
    cases scheduled
    refine { orderly with sorted := placed_sorted orderly.sorted, accounted := ?_, tickets := ?_ }
    · have accounted := orderly.accounted
      rw [← rdropWhile_append_rtakeWhile (p := fun other => !decide (other.time < time.toNat))
        (l := job.messages), append_assoc] at accounted
      rw [append_assoc]
      exact (perm_append_singleton _ _).trans
        ((accounted.cons _).trans perm_middle.symm)
    · rw [map_append, orderly.tickets, length_append, length_singleton,
        range_succ]
      rfl

/-- `unschedule` keeps the planner orderly. -/
theorem Orderly.unschedule [DecidableEq Goal] {goal : Goal} :
    (job.unschedule goal).2.Orderly adjustment := by
  refine { orderly with sorted := orderly.sorted.filter _, accounted := ?_ }
  have parts := filter_append_perm (fun message => decide (message.goal = goal)) job.messages
  refine orderly.accounted.trans ((parts.symm.append_right _).trans ?_)
  dsimp only [PlannerJob.unschedule]
  simp only [← Multiset.coe_eq_coe, ← Multiset.coe_add]
  ac_rfl

/-- `clear` keeps the planner orderly. -/
theorem Orderly.clear : job.clear.Orderly adjustment := by
  refine { orderly with sorted := .nil, accounted := orderly.accounted.trans ?_ }
  dsimp only [PlannerJob.clear]
  simp only [← Multiset.coe_eq_coe, ← Multiset.coe_add]
  ac_rfl

/-- The passing of time keeps the planner orderly. -/
theorem Orderly.tick {elapsed : Nat} :
    Orderly adjustment { job with clock := job.clock + elapsed } := by
  refine { orderly with due := ?_, seen := ?_ }
  · intro message member
    have due := orderly.due message member
    exact le_trans due (Nat.add_le_add_right (Nat.le_add_right _ _) _)
  · intro curTime locking
    exact le_trans (orderly.seen curTime locking) (Nat.le_add_right _ _)

end

/-- The messages taken by the worker and those left. -/
theorem pump_spec {shift curTime : Nat} (messages : List (TimedMessage Goal)) :
    (pump adjustment shift curTime messages).1 ++ (pump adjustment shift curTime messages).2.1 =
        messages ∧
      ∀ message ∈ (pump adjustment shift curTime messages).1,
        message.time ≤ curTime + if adjustment then shift else 0 := by
  induction messages with
  | nil => exact ⟨rfl, nofun⟩
  | cons message rest ih =>
    obtain ⟨whole, early⟩ := ih
    rw [pump]
    split
    next overdue =>
      refine ⟨congrArg (message :: ·) whole, forall_mem_cons.mpr ⟨?_, early⟩⟩
      unfold dueTime at overdue
      split_ifs at overdue ⊢ <;> omega
    next => exact ⟨rfl, nofun⟩

variable (orderly : job.Orderly adjustment)
include orderly

/-- The worker takes what is due. -/
theorem Orderly.pump {curTime : Nat} (locking : job.worker = .locking curTime)
    (notTerminating : job.terminating = false) : (job.work adjustment).Orderly adjustment := by
  have empty := orderly.resting (by simp [locking]) (by simp [locking])
  obtain ⟨whole, early⟩ := pump_spec job.messages
  have accounted := orderly.accounted
  have sorted := orderly.sorted
  rw [taken_of_empty empty, ← whole] at accounted
  rw [← whole] at sorted
  rw [PlannerJob.work, locking]
  dsimp only
  rw [notTerminating, empty]
  generalize PlannerJob.pump adjustment job.deliveryTimeShift curTime job.messages = pumped at *
  obtain ⟨taken, left, absTime⟩ := pumped
  cases taken with
  | nil =>
    exact { orderly with
      sorted := sorted
      accounted := accounted
      due := nofun
      resting := fun _ _ => rfl
      seen := nofun }
  | cons message rest =>
    refine { orderly with
      sorted := (pairwise_append.mp sorted).2.1
      accounted := accounted.trans ?_
      due := ?_
      resting := fun notDelivering => absurd rfl notDelivering
      seen := nofun }
    · change ((message :: rest ++ left) ++ _).Perm (left ++ ((message :: rest) ++ _))
      simp only [← Multiset.coe_eq_coe, ← Multiset.coe_add]
      ac_rfl
    · intro other member
      have seen := orderly.seen curTime locking
      exact le_trans (early other member) (Nat.add_le_add_right seen _)

/-- The call of the first message starts. -/
theorem Orderly.call (delivering : job.worker = .delivering) {message : TimedMessage Goal}
    {rest : List (TimedMessage Goal)} (pending : job.pending = message :: rest) :
    (job.work adjustment).Orderly adjustment := by
  have before : job.taken = message :: rest := by
    rw [taken, delivering, pending]
    rfl
  have accounted := orderly.accounted
  have due := orderly.due
  rw [before] at accounted due
  obtain ⟨first, others⟩ := forall_mem_cons.mp due
  rw [PlannerJob.work, delivering]
  rw [pending]
  refine { orderly with
    accounted := accounted.trans ?_
    due := others
    resting := fun _ notCalling => absurd rfl notCalling
    seen := nofun
    prompt := ?_ }
  · change (job.messages ++ ((message :: rest) ++ _)).Perm (job.messages ++ (rest ++ _))
    rw [map_append, map_singleton, ← singleton_append]
    simp only [← Multiset.coe_eq_coe, ← Multiset.coe_add]
    ac_rfl
  · intro delivery member
    rcases mem_append.mp member with earlier | last
    · exact orderly.prompt delivery earlier
    · rw [mem_singleton.mp last]
      exact ⟨first, fun unadjusted => by rw [unadjusted]; rfl⟩

/-- The call has returned. -/
theorem Orderly.popFront (calling : job.worker = .calling) :
    (job.work adjustment).Orderly adjustment := by
  have before : job.taken = job.pending.tail := by
    rw [taken, if_pos calling]
  have accounted := orderly.accounted
  have due := orderly.due
  rw [before] at accounted due
  rw [PlannerJob.work, calling]
  exact { orderly with
    accounted := accounted
    due := due
    resting := fun notDelivering => absurd rfl notDelivering
    seen := nofun }

/-- The end of a wait keeps the planner orderly. -/
theorem Orderly.leaveWait (empty : job.pending = []) {absTime : Option Nat}
    {newEventInSchedule : Bool} :
    (job.leaveWait absTime newEventInSchedule).Orderly adjustment := by
  unfold PlannerJob.leaveWait
  split
  · exact orderly.moved empty nofun
  · split
    · exact orderly.moved empty nofun
    · exact orderly.moved empty nofun

/-- A wake-up keeps the planner orderly. -/
theorem Orderly.wake {result : WaitResult} : (job.wake result).Orderly adjustment := by
  unfold PlannerJob.wake
  split
  next absTime waiting =>
    exact orderly.leaveWait (orderly.resting (by simp [waiting]) (by simp [waiting]))
  next => exact orderly

/-- Every step of the worker keeps the planner orderly. -/
theorem Orderly.work :
    (job.work adjustment).Orderly adjustment := by
  cases place : job.worker with
  | top =>
    have empty := orderly.resting (by simp [place]) (by simp [place])
    rw [PlannerJob.work, place]
    exact orderly.moved empty (by rintro _ ⟨⟩; exact le_refl _)
  | locking curTime =>
    cases ending : job.terminating with
    | false => exact orderly.pump place ending
    | true =>
      have empty := orderly.resting (by simp [place]) (by simp [place])
      rw [PlannerJob.work, place]
      dsimp only
      rw [if_pos ending]
      exact orderly.moved empty nofun
  | idle absTime =>
    have empty := orderly.resting (by simp [place]) (by simp [place])
    rw [PlannerJob.work, place]
    dsimp only
    split
    · exact orderly.leaveWait empty
    · exact orderly.moved empty nofun
  | waiting absTime =>
    rw [PlannerJob.work, place]
    exact orderly
  | awake absTime =>
    have empty := orderly.resting (by simp [place]) (by simp [place])
    rw [PlannerJob.work, place]
    exact orderly.moved empty nofun
  | delivering =>
    cases pending : job.pending with
    | nil =>
      have next : job.work adjustment = { job with worker := .top } := by
        rw [PlannerJob.work, place]
        rw [pending]
      rw [next]
      exact orderly.moved pending nofun
    | cons message rest => exact orderly.call place pending
  | calling => exact orderly.popFront place
  | finished =>
    rw [PlannerJob.work, place]
    exact orderly

end PlannerJob

variable {job : PlannerJob Goal} {adjustment : Bool}

/-- One event keeps the order. -/
theorem PlannerEvent.step_orderly [DecidableEq Goal] (event : PlannerEvent Goal)
    (orderly : job.Orderly adjustment) : (event.step adjustment job).Orderly adjustment := by
  cases event with
  | schedule goal time =>
    rw [step]
    split
    next scheduled => exact orderly.schedule scheduled
    next => exact orderly
  | unschedule goal => exact orderly.unschedule
  | clear => exact orderly.clear
  | terminate => exact { orderly with }
  | tick elapsed => exact orderly.tick
  | work => exact orderly.work
  | wake result => exact orderly.wake

/-- Nothing is cleared but by `clear`. -/
theorem PlannerEvent.step_cleared [DecidableEq Goal] {event : PlannerEvent Goal}
    (notClear : event ≠ .clear) : (event.step adjustment job).cleared = job.cleared := by
  have left : ∀ absTime newEvent, (job.leaveWait absTime newEvent).cleared = job.cleared := by
    intro absTime newEvent
    unfold PlannerJob.leaveWait
    split_ifs <;> rfl
  cases event with
  | schedule goal time => cases goal <;> rfl
  | unschedule goal => rfl
  | clear => exact absurd rfl notClear
  | terminate | tick => rfl
  | work =>
    change (job.work adjustment).cleared = job.cleared
    unfold PlannerJob.work
    split
    · rfl
    · split_ifs <;> rfl
    · split_ifs
      · exact left _ _
      · rfl
    · rfl
    · rfl
    · split <;> rfl
    · rfl
    · rfl
  | wake result =>
    change (job.wake result).cleared = job.cleared
    unfold PlannerJob.wake
    split
    · exact left _ _
    · rfl

/-- What can have become of a message. -/
inductive Standing where
  | pending
  | taken
  | delivered
  | unscheduled
deriving DecidableEq

namespace PlannerJob

/-- The messages of a standing. -/
def standing (job : PlannerJob Goal) : Standing → List (TimedMessage Goal)
  | .pending => job.messages
  | .taken => job.taken
  | .delivered => job.delivered.map Delivery.message
  | .unscheduled => job.unscheduled

/-- Every message has one standing and is listed there once. -/
theorem Orderly.one_standing (orderly : job.Orderly adjustment) (uncleared : job.cleared = []) :
    (∀ message ∈ job.scheduled, ∃! standing, message ∈ job.standing standing) ∧
      ∀ standing, (job.standing standing).Nodup ∧ job.standing standing ⊆ job.scheduled := by
  let all : List Standing := [.pending, .taken, .delivered, .unscheduled]
  have every : ∀ standing, standing ∈ all := by
    intro standing
    cases standing <;> decide
  have accounted : job.scheduled.Perm (all.flatMap job.standing) := by
    have accounted := orderly.accounted
    rw [uncleared] at accounted
    exact accounted
  have distinct : job.scheduled.Nodup := by
    apply List.Nodup.of_map TimedMessage.ticket
    rw [orderly.tickets]
    exact nodup_range
  obtain ⟨once, apart⟩ := nodup_flatMap.mp (accounted.nodup_iff.mp distinct)
  refine ⟨fun message member => ?_, fun standing => ⟨once standing (every standing), ?_⟩⟩
  · obtain ⟨standing, _, here⟩ := mem_flatMap.mp (accounted.mem_iff.mp member)
    refine ⟨standing, here, fun other there => ?_⟩
    by_contra different
    have symmetric : Std.Symm (Function.onFun List.Disjoint job.standing) :=
      ⟨fun _ _ disjoint => List.Disjoint.symm disjoint⟩
    exact apart.forall (every other) (every standing) different there here
  · intro message member
    exact accounted.mem_iff.mpr (mem_flatMap.mpr ⟨standing, every standing, member⟩)

/-- The planner after some events. -/
def reached [DecidableEq Goal] (adjustment : Bool) (clock : Nat)
    (events : List (PlannerEvent Goal)) : PlannerJob Goal :=
  Runs.after (PlannerEvent.step adjustment) events (new clock)

/-- Nothing is cleared in a run without `clear`. -/
theorem reached_cleared [DecidableEq Goal] {clock : Nat} {events : List (PlannerEvent Goal)}
    (uncleared : ∀ event ∈ events, event ≠ .clear) :
    (reached adjustment clock events).cleared = [] := by
  have along : Runs.Along (PlannerEvent.step adjustment) (fun event _ => event ≠ .clear) events
      (new clock) :=
    .of_forall (fun event member _ => uncleared event member) _
  exact along.invariant
    (fun _ (job : PlannerJob Goal) (none : job.cleared = []) notClear =>
      (PlannerEvent.step_cleared notClear).trans none) rfl

/-- **Nothing is lost, delivered twice or delivered early.** After any events the queue
is sorted, every message scheduled has exactly one standing and is listed there once,
and no message was called before its time, less the shift in force if delivery times
are adjusted. -/
theorem runs_account [DecidableEq Goal] (adjustment : Bool) (clock : Nat)
    {events : List (PlannerEvent Goal)} (uncleared : ∀ event ∈ events, event ≠ .clear) :
    ((reached adjustment clock events).messages.Pairwise fun first second =>
        first.time ≤ second.time) ∧
      (∀ message ∈ (reached adjustment clock events).scheduled,
        ∃! standing, message ∈ (reached adjustment clock events).standing standing) ∧
      (∀ standing, ((reached adjustment clock events).standing standing).Nodup ∧
        (reached adjustment clock events).standing standing ⊆
          (reached adjustment clock events).scheduled) ∧
      ∀ delivery ∈ (reached adjustment clock events).delivered,
        delivery.message.time ≤ delivery.moment + delivery.shift ∧
          (adjustment = false → delivery.message.time ≤ delivery.moment) := by
  have orderly : (reached adjustment clock events).Orderly adjustment :=
    Runs.after_invariant (fun event _ => event.step_orderly) events new_orderly
  obtain ⟨one, listed⟩ := orderly.one_standing (reached_cleared uncleared)
  refine ⟨orderly.sorted, one, listed, fun delivery member => ?_⟩
  obtain ⟨early, unshifted⟩ := orderly.prompt delivery member
  refine ⟨early, fun unadjusted => ?_⟩
  rw [unshifted unadjusted] at early
  exact early

/-- Whatever is cleared in a run, a message is in one place, and there once. -/
theorem runs_partition [DecidableEq Goal] (adjustment : Bool) (clock : Nat)
    (events : List (PlannerEvent Goal)) :
    let job := reached adjustment clock events
    job.scheduled.Nodup ∧ job.scheduled.Perm (job.messages ++ (job.taken ++
      (job.delivered.map Delivery.message ++ (job.unscheduled ++ job.cleared)))) := by
  intro job
  have orderly : job.Orderly adjustment :=
    Runs.after_invariant (fun event _ => event.step_orderly) events new_orderly
  refine ⟨.of_map TimedMessage.ticket ?_, orderly.accounted⟩
  rw [orderly.tickets]
  exact nodup_range

/-- A goal is put before another one while the worker waits, and the worker gets to run
only after the time it waited for. -/
def overrun : List (PlannerEvent Unit) :=
  [.schedule (some ()) 10, .work, .work, .work, .work, .work, .work, .work, .tick 9,
    .schedule (some ()) 5, .wake .normal, .tick 5, .work]

/-- The two goals are delivered, then one more is scheduled and the worker goes through
its loop again. -/
def laterGoal : List (PlannerEvent Unit) :=
  [.work, .work, .work, .work, .work, .work, .work, .schedule (some ()) 20, .tick 4,
    .work, .work, .work]

/-- With delivery times adjusted a goal is called early. -/
theorem adjusted_early :
    ∃ delivery ∈ (reached true 0 (overrun ++ laterGoal)).delivered,
      delivery.moment < delivery.message.time := by
  decide

theorem overrun_account :
    ((reached false 0 (overrun ++ laterGoal)).messages.Pairwise fun first second =>
        first.time ≤ second.time) ∧
      (∀ message ∈ (reached false 0 (overrun ++ laterGoal)).scheduled,
        ∃! standing, message ∈ (reached false 0 (overrun ++ laterGoal)).standing standing) ∧
      (∀ standing, ((reached false 0 (overrun ++ laterGoal)).standing standing).Nodup ∧
        (reached false 0 (overrun ++ laterGoal)).standing standing ⊆
          (reached false 0 (overrun ++ laterGoal)).scheduled) ∧
      ∀ delivery ∈ (reached false 0 (overrun ++ laterGoal)).delivered,
        delivery.message.time ≤ delivery.moment + delivery.shift ∧
          (false = false → delivery.message.time ≤ delivery.moment) :=
  runs_account false 0 (by simp [overrun, laterGoal])

end PlannerJob

end UnixCommons.Generics
