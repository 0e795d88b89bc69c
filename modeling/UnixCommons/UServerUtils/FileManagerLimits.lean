import UnixCommons.UServerUtils.FileManagerRuns

/-!
# The completion ring and the limits of a batch

`on_semaphore_ready` takes one event more than the free places of the rings less one. With
a place left in both rings that keeps the operations within the completion ring. But the
read of the semaphore is submitted again while the ring is full of operations; when it
completes the subtraction wraps around, and the batch is limited by the submission ring
only.
-/

namespace UnixCommons.UServerUtils.FileManager

open List Runs

/-- The thread is about to call `on_semaphore_ready`. -/
def SemaphoreReady (state : State) : Prop :=
  state.position = .waiting ∧ ∃ pointer result rest,
    state.completed = (⟨pointer, .semaphore⟩, result) :: rest

/-- The reads and writes fit the completion ring, and the subtractions of
`on_semaphore_ready` do not wrap around. -/
structure WithinLimits (config : Config) (state : State) : Prop where
  outstanding : (requests state.outstanding).length ≤ config.cqEntries
  sqLimit : SemaphoreReady state → (config.sqEntries - state.ring.length - 1 : Int) % 4294967296 =
    config.sqEntries - state.ring.length - 1
  cqLimit : SemaphoreReady state → (config.cqEntries - state.numberRemainOperations - 1) % 4294967296 =
    config.cqEntries - state.numberRemainOperations - 1

/-- A completed read of the semaphore meets a place in both rings. -/
def HasRoom (config : Config) (state : State) : Prop :=
  SemaphoreReady state → 0 < config.sqEntries ∧ (requests state.outstanding).length < config.cqEntries

variable {config : Config} {state next : State} {action : Action}

/-- The events of a batch still to be taken find room for their operations. -/
def Reserves (config : Config) (state : State) : Prop :=
  state.numberRemainOperations + state.position.count ≤ config.cqEntries

/-- Of a batch that met room every step leaves room for the rest. -/
theorem Fires.reserves (fires : Fires config state action next) (sound : Sound state)
    (reserves : Reserves config state) (room : HasRoom config state) : Reserves config next := by
  have remain := sound.remain
  unfold Reserves at reserves ⊢
  cases fires with
  | join | refuse | raise | close | closeAdd | complete => exact reserves
  | finish top | wait top | rearm top =>
    rw [top] at reserves
    exact reserves
  | @handle entry result rest waiting completed =>
    rw [waiting] at reserves
    obtain ⟨pointer, type⟩ := entry
    cases type with
    | semaphore =>
      have free := (room ⟨waiting, pointer, result, rest, completed⟩).2
      simp only [handleCompletion, maxQueueElements, Position.count]
      omega
    | operation request =>
      simp only [handleCompletion, Position.count] at reserves ⊢
      omega
  | @takeClose _ count _ taking | @takeRefused _ count _ _ taking | @takeAccepted _ count _ _ taking =>
    have left := Sound.count_next count
    simp only [taking, Position.count] at reserves left ⊢
    omega

/-- With the events of the batch reserved for, the limits hold exactly if there is room. -/
theorem withinLimits_iff
    (small : config.sqEntries < 4294967296 ∧ config.cqEntries < 4294967296) (sound : Sound state) (reserves : Reserves config state) :
    WithinLimits config state ↔ HasRoom config state := by
  have remain := sound.remain
  have ring := sound.ring
  unfold Reserves at reserves
  constructor
  · rintro ⟨-, sqLimit, cqLimit⟩ ready
    have sq := sqLimit ready
    have cq := cqLimit ready
    rw [ring, length_nil] at sq
    omega
  · intro room
    refine ⟨by omega, fun ready => ?_, fun ready => ?_⟩
    · have free := room ready
      rw [ring, length_nil]
      omega
    · have free := room ready
      omega

/-- As long as every submit accepts all of the ring, the operations never exceed the
completion ring and no limit wraps around exactly if every completed read of the semaphore
meets a place in both rings. -/
theorem limits_kept_iff (config : Config)
    (small : config.sqEntries < 4294967296 ∧ config.cqEntries < 4294967296) (actions : List Action)
    (admitted : Along (step config) (Admitted config) actions initial) :
    Along (step config) (fun _ => WithinLimits config) actions initial ↔
      Along (step config) (fun _ => HasRoom config) actions initial := by
  refine admitted.congr (fun _ state (kept : Sound state ∧ Reserves config state) _ =>
    withinLimits_iff small kept.1 kept.2) ?_ ⟨initial_sound, Int.natCast_nonneg _⟩
  rintro action state ⟨sound, reserves⟩ first room
  refine ⟨sound.stepped first, ?_⟩
  unfold step
  cases fired : fire config action state with
  | none => exact reserves
  | some next => exact (fires_of_fire sound.ring first fired).reserves sound reserves room

theorem limits_kept_served :
    Along (step (plainConfig true)) (fun _ => WithinLimits (plainConfig true)) served initial ↔
      Along (step (plainConfig true)) (fun _ => HasRoom (plainConfig true)) served initial :=
  limits_kept_iff (plainConfig true) (by decide) served (by decide)

/-- Two requests, of which the first is still outstanding when the read of the semaphore
completes for the second. -/
def fullRing : List Action :=
  [.emplace true, .add, .emplace true, .add, .turn ⟨true, 1⟩, .complete 0 8, .handle,
    .take ⟨true, 1⟩, .turn ⟨true, 1⟩, .complete 1 8, .handle, .take ⟨true, 1⟩]

/-- With rings of one place two operations are outstanding. -/
theorem ring_exceeded :
    Along (step ⟨true, 1, 1⟩) (Admitted ⟨true, 1, 1⟩) fullRing initial ∧
      (requests (Runs.after (step ⟨true, 1, 1⟩) fullRing initial).outstanding).length = 2 := by
  decide

end UnixCommons.UServerUtils.FileManager
