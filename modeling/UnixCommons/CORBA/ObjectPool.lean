import Mathlib.Data.List.Basic

/-!
# A pool of remote objects

`ObjectPool::get_object` chooses a connection by a policy and counts one more use of it
under the lock of the pool. Under the lock of the connection it then looks whether the
connection has become bad, resolves the object if that is needed, and hands out a handler
with the object. A handler is released under the lock of the pool; its connection is the
first one whose object is the object of the handler.

Calls of `get_object` that are under way are a list, so there may be any number of them,
and an action is what one call does between two accesses to shared data. What the
resolver answers, the clock and the random numbers belong to the actions. A handler is
listed with the connection it was obtained from, which the source does not record.
-/

namespace UnixCommons.CORBACommons.ObjectPool

universe u

/-- How a connection is chosen. -/
inductive PolicyType where
  | loop
  | rand
  | badSwitch
  | persistent
  | precise
  deriving DecidableEq, Repr

inductive GiveOnce where
  | notGiven
  | first
  | others
  deriving DecidableEq, Repr

/-- A connection with its state and the number of its uses. -/
structure ConnData (Object : Type u) where
  /-- Nothing stands for a nil reference. -/
  object : Option Object := none
  resolve : Bool := false
  isBad : Bool := false
  badMarkTime : Int := 0
  badnessDescription : List Char := []
  madeGood : Bool := false
  useCount : Int := 0
  useMax : Int
  giveOnce : GiveOnce := .others
  deriving DecidableEq, Repr

/-- The exceptions of `get_object`, with the description of the connection they quote. -/
inductive Error where
  | noGoodReference
  | noFreeObject
  | badObject (description : List Char)
  | invalidReference (description : List Char)
  deriving DecidableEq, Repr

/-- The configuration of the pool. -/
structure Config where
  timeout : Int
  objectOnce : Bool
  allBadNoWait : Bool
  reresolve : Bool
  policy : PolicyType
  deriving DecidableEq, Repr

/-- Where a call of `get_object` stands with the connection it has chosen. -/
inductive Stage where
  /-- The lock of the connection is to be taken. -/
  | chosen
  /-- The lock is held and the resolver is at work. -/
  | resolving
  /-- The lock is held and the object is nil; the use is to be given back. -/
  | unresolved (error : List Char)
  deriving DecidableEq, Repr

/-- A call of `get_object` with the connection it has chosen. -/
structure Call where
  conn : Nat
  stage : Stage
  deriving DecidableEq, Repr

/-- The pool, the calls under way and the handlers outside. -/
structure State (Object : Type u) where
  objects : List (ConnData Object)
  lastObject : Nat
  calls : List Call
  /-- The handlers outside: the connection each was obtained from, and its object. -/
  handlers : List (Nat × Object)
  errors : List Error
  deriving DecidableEq, Repr

variable {Object : Type u} [DecidableEq Object]

/-! ## Policies -/

namespace ConnData

/-- The flag `busy` of `ChoosePolicy::usable` -/
def busy (conn : ConnData Object) : Bool :=
  (conn.useMax ≠ 0 && conn.useMax ≤ conn.useCount) || conn.giveOnce = .first

def softSuitable (conn : ConnData Object) : Bool := !conn.isBad && !conn.busy

def hardSuitable (conn : ConnData Object) : Bool := conn.softSuitable && !conn.madeGood

end ConnData

/-- The connection at a position is suitable. -/
def suitableAt (objects : List (ConnData Object)) (index : Nat) : Bool :=
  (objects[index]?).any ConnData.softSuitable

/-- `cycle_next`: the nearest suitable connection behind a position, around the end. Without
one the loop never ends. -/
def cycleNext (objects : List (ConnData Object)) (index : Nat) : Option Nat :=
  ((List.range objects.length).map fun distance => (index + 1 + distance) % objects.length).find?
    (suitableAt objects)

/-- The index itself, or the next suitable one. -/
def checkAndCycleNext (objects : List (ConnData Object)) (index : Nat) : Option Nat :=
  if suitableAt objects index then some index else cycleNext objects index

/-- `get_valid_object` of each policy: the position chosen, if the search ends. -/
def getValidObject (policy : PolicyType) (objects : List (ConnData Object)) (lastObject key random : Nat) :
    Except Error (Option Nat) :=
  match policy with
  | .loop => .ok (cycleNext objects lastObject)
  | .badSwitch =>
    if (objects[lastObject]?).any ConnData.hardSuitable then .ok (some lastObject)
    else .ok (cycleNext objects lastObject)
  | .rand => .ok (checkAndCycleNext objects (random % objects.length))
  | .persistent => .ok (checkAndCycleNext objects (key % objects.length))
  | .precise =>
    match objects[key]? with
    | some conn => if conn.isBad then .error (.badObject conn.badnessDescription) else .ok (some key)
    | none => .ok (cycleNext objects lastObject)

/-- The policies that remember the object they chose. -/
def remembers (policy : PolicyType) (objects : List (ConnData Object)) (key : Nat) : Bool :=
  match policy with
  | .loop | .badSwitch => true
  | .rand | .persistent => false
  | .precise => decide (objects.length ≤ key)

/-! ## The pool -/

/-- `check_bad_refs_` for one connection. -/
def ConnData.checkBadRef (config : Config) (force : Bool) (now : Int) (conn : ConnData Object) :
    ConnData Object :=
  if conn.isBad then
    if force ∨ conn.badMarkTime + config.timeout ≤ now then
      { conn with
        resolve := conn.resolve || config.reresolve
        isBad := false
        madeGood := true
        giveOnce := if config.objectOnce then .notGiven else conn.giveOnce }
    else
      conn
  else
    { conn with madeGood := false }

/-- Bad connections are made good again when their time is over. -/
def checkBadRefs (config : Config) (force : Bool) (now : Int) (objects : List (ConnData Object)) :
    List (ConnData Object) :=
  objects.map (ConnData.checkBadRef config force now)

/-- `check_all_are_bad_or_busy_` -/
def checkAllAreBadOrBusy (objects : List (ConnData Object)) : Except Error Unit :=
  if objects.any ConnData.softSuitable then .ok ()
  else if objects.all ConnData.isBad then .error .noGoodReference
  else .error .noFreeObject

/-- The checks at the beginning of `get_object`: the connections they leave, and what they
raise. -/
def check (config : Config) (now : Int) (objects : List (ConnData Object)) :
    List (ConnData Object) × Except Error Unit :=
  if config.allBadNoWait then
    match checkAllAreBadOrBusy objects with
    | .ok () => (checkBadRefs config false now objects, .ok ())
    | .error .noGoodReference =>
      let forced := checkBadRefs config true now objects
      (forced, checkAllAreBadOrBusy forced)
    | .error error => (objects, .error error)
  else
    let checked := checkBadRefs config false now objects
    (checked, checkAllAreBadOrBusy checked)

/-- One more use of a connection. -/
def ConnData.use (conn : ConnData Object) : ConnData Object :=
  { conn with
    useCount := conn.useCount + 1
    giveOnce := if conn.giveOnce = .notGiven then .first else conn.giveOnce }

/-- `release_object_` of a connection; an empty description releases it as good. -/
def ConnData.release (description : List Char) (now : Int) (conn : ConnData Object) : ConnData Object :=
  if description = [] then
    { conn with
      useCount := conn.useCount - 1
      giveOnce := .others }
  else
    { conn with
      useCount := conn.useCount - 1
      isBad := true
      badnessDescription := "released object as bad, with reason: ".toList ++ description
      badMarkTime := now }

/-- The first part of `get_object`, under the lock of the pool. -/
def choose (config : Config) (key random : Nat) (now : Int) (state : State Object) : State Object :=
  let (objects, outcome) := check config now state.objects
  let checked := { state with objects := objects }
  match outcome with
  | .error error => { checked with errors := state.errors ++ [error] }
  | .ok () =>
    match getValidObject config.policy objects state.lastObject key random with
    | .error error => { checked with errors := state.errors ++ [error] }
    | .ok none => checked
    | .ok (some index) =>
      { checked with
        objects := objects.modify index ConnData.use
        lastObject := if remembers config.policy objects key then index else state.lastObject
        calls := state.calls ++ [⟨index, .chosen⟩] }

/-- Another call holds the lock of the connection. -/
def locked (state : State Object) (conn : Nat) : Bool :=
  state.calls.any fun call => call.conn = conn && call.stage ≠ .chosen

/-- A call hands out a handler and returns. -/
def State.handOut (state : State Object) (index conn : Nat) (object : Object) : State Object :=
  { state with
    calls := state.calls.eraseIdx index
    handlers := state.handlers ++ [(conn, object)] }

/-- The second part of `get_object`, under the lock of the connection, up to the work of
the resolver. -/
def examine (config : Config) (index : Nat) (state : State Object) : State Object :=
  match state.calls[index]? with
  | some ⟨conn, .chosen⟩ =>
    if locked state conn then
      state
    else
      match state.objects[conn]? with
      | none => state
      | some data =>
        if data.isBad then
          { state with
            calls := state.calls.eraseIdx index
            errors := state.errors ++ [.invalidReference data.badnessDescription] }
        else if config.reresolve && data.resolve then
          { state with
            objects := state.objects.set conn { data with resolve := false }
            calls := state.calls.set index ⟨conn, .resolving⟩ }
        else
          match data.object with
          | none => { state with calls := state.calls.set index ⟨conn, .resolving⟩ }
          | some object => state.handOut index conn object
  | _ => state

/-- The resolver answers: an object, a nil reference or the text of an exception. -/
def resolved (index : Nat) (answer : Except (List Char) (Option Object)) (state : State Object) :
    State Object :=
  match state.calls[index]? with
  | some ⟨conn, .resolving⟩ =>
    match answer with
    | .ok (some object) =>
      { state with
        objects := state.objects.modify conn fun data => { data with object := some object }
      }.handOut index conn object
    | .ok none =>
      { state with
        objects := state.objects.modify conn fun data => { data with object := none }
        calls := state.calls.set index ⟨conn, .unresolved "failed to resolve".toList⟩ }
    | .error text =>
      { state with
        objects := state.objects.modify conn fun data => { data with object := none }
        calls := state.calls.set index ⟨conn, .unresolved (if text = [] then "failed to resolve".toList
          else "failed to resolve: ".toList ++ text)⟩ }
  | _ => state

/-- A call that got no object gives its use back and raises an exception. -/
def giveBack (index : Nat) (now : Int) (state : State Object) : State Object :=
  match state.calls[index]? with
  | some ⟨conn, .unresolved error⟩ =>
    { state with
      objects := state.objects.modify conn (ConnData.release error now)
      calls := state.calls.eraseIdx index
      errors := state.errors ++
        [.invalidReference ("released object as bad, with reason: ".toList ++ error)] }
  | _ => state

/-- `get_conndata_`: the first connection with the object. -/
def getConnData (objects : List (ConnData Object)) (object : Object) : Option Nat :=
  objects.findIdx? fun conn => conn.object = some object

/-- What `release` and `release_bad` of a handler tell the pool. -/
def description : Option (List Char) → List Char
  | none => []
  | some [] => "reason unknown".toList
  | some reason => reason

/-- `release_object_` of an object. If no connection has it, the source goes on with a
connection that does not exist; the model leaves the connections as they are. -/
def releaseByObject (objects : List (ConnData Object)) (object : Object) (description : List Char)
    (now : Int) : List (ConnData Object) :=
  match getConnData objects object with
  | some conn => objects.modify conn (ConnData.release description now)
  | none => objects

/-- A handler is released, with a reason to be bad or without. -/
def releaseHandler (index : Nat) (reason : Option (List Char)) (now : Int) (state : State Object) :
    State Object :=
  match state.handlers[index]? with
  | none => state
  | some (_, object) =>
    { state with
      handlers := state.handlers.eraseIdx index
      objects := releaseByObject state.objects object (description reason) now }

/-- The actions of the callers. -/
inductive Action (Object : Type u) where
  | choose (key random : Nat) (now : Int)
  | examine (call : Nat)
  | resolved (call : Nat) (answer : Except (List Char) (Option Object))
  | giveBack (call : Nat) (now : Int)
  | release (handler : Nat) (reason : Option (List Char)) (now : Int)

/-- One action. -/
def step (config : Config) : Action Object → State Object → State Object
  | .choose key random now, state => choose config key random now state
  | .examine call, state => examine config call state
  | .resolved call answer, state => resolved call answer state
  | .giveBack call now, state => giveBack call now state
  | .release handler reason now, state => releaseHandler handler reason now state

/-- The pool as its constructor leaves it, for the numbers of the references. -/
def initial (counts : List Int) : State Object where
  objects := counts.map fun count => { useMax := count }
  lastObject := 0
  calls := []
  handlers := []
  errors := []

end UnixCommons.CORBACommons.ObjectPool
