import SolInfer.Lib.Dict
import SolInfer.Lib.Python

set_option autoImplicit false

/-! # The registry of LoRA adapters

`srt/lora/lora_registry.py` with the counters of `srt/utils/common.py`, and the tasks of the tokenizer
manager that use it: requests acquire adapters by name and release the ids they got, and loads and
unloads run one at a time under `lora_update_lock` (`srt/managers/tokenizer_control_mixin.py`).

A task can be interrupted at every `await`. A section under the writer lock has no `await` inside, so it is
one step here, taken while no reader holds the lock; `release` keeps the reader lock while its decrements
are awaited. -/

namespace Lora

/-- The fields of a `LoRARef` that the registry reads. -/
structure LoRARef where
  loraId : String
  loraName : String
  pinned : Bool
deriving DecidableEq

/-- The registry: the adapters in LRU order by name, and the address of the counter of each id.
    `heap` holds the counts of all `ConcurrentCounter` objects, also of those no longer registered. -/
structure LoRARegistry where
  registry : Dict String LoRARef
  counters : Dict String Nat
  heap : List Int
  readers : Nat
deriving DecidableEq

namespace LoRARegistry

variable (r : LoRARegistry)

/-- `self._registry.keys()`, printed. -/
def keysRepr : String :=
  "odict_keys([" ++ ", ".intercalate (r.registry.keys.map fun name => s!"'{name}'") ++ "])"

def registerAdapter (ref : LoRARef) : Except PyError LoRARegistry :=
  if r.registry.contains ref.loraName then
    .error (.valueError
      s!"LoRA with name {ref.loraName} already exists. Loaded LoRAs: {r.keysRepr}")
  else .ok { r with
    registry := r.registry.set ref.loraName ref
    counters := r.counters.set ref.loraId r.heap.length
    heap := r.heap ++ [0] }

/-- `unregister`: the removed id. -/
def unregister (loraName : String) : Except PyError (String × LoRARegistry) :=
  match r.registry.get? loraName with
  | none =>
    .error (.valueError s!"LoRA with name {loraName} does not exist. Loaded LoRAs: {r.keysRepr}")
  | some ref => .ok (ref.loraId, { r with registry := r.registry.erase loraName })

/-- `self._registry.move_to_end(name)`. -/
def moveToEnd (name : String) : LoRARegistry :=
  match r.registry.get? name with
  | some ref => { r with registry := (r.registry.erase name).set name ref }
  | none => r

def notLoaded (name : String) : PyError :=
  .valueError (s!"The following requested LoRA adapters are not loaded: {name}\n" ++
    s!"Loaded adapters: {r.keysRepr}.")

/-- `_lookup` for each of the names. The adapters found before one is missing stay moved to the end. -/
def lookupAll (r : LoRARegistry) : List (Option String) → LoRARegistry × Except PyError (List String)
  | [] => (r, .ok [])
  | none :: names => r.lookupAll names
  | some name :: names =>
    match r.registry.get? name with
    | none => (r, .error (r.notLoaded name))
    | some ref =>
      let (r, ids) := (r.moveToEnd name).lookupAll names
      (r, ids.map (ref.loraId :: ·))

/-- `self._counters[id]` for each of the ids. -/
def counterObjects (ids : List String) : Except PyError (List (String × Nat)) :=
  ids.mapM fun id =>
    match r.counters.get? id with
    | some a => .ok (id, a)
    | none => .error (.keyError id)

/-- `increment` and `decrement` of a counter object. -/
def add (n : Int) (a : Nat) : LoRARegistry := { r with heap := r.heap.modify a (· + n) }

/-- `get_unregistered_loras`; only its effect on the LRU order. -/
def getUnregisteredLoras (names : List String) : LoRARegistry := names.foldl moveToEnd r

/-- `lru_lora_name(exclude_pinned=True)`. -/
def lruLoraName : Option String :=
  (r.registry.entries.find? fun e => !e.2.pinned).map Prod.fst

end LoRARegistry

/-! ## Tasks -/

/-- The argument of `acquire`: one name, or a list of names and `None`s. -/
inductive LoraPath where
  | one (name : String)
  | many (names : List (Option String))
deriving DecidableEq

def LoraPath.names : LoraPath → List (Option String)
  | .one name => [some name]
  | .many names => names

/-- Where a call of `acquire` stands. -/
inductive Acquire where
  | requested (path : LoraPath)
  /-- The ids are looked up; their counters are not. -/
  | lookedUp (ids : List String)
  /-- The ids that are counted and not given to a `release`, and the increments to come. Without the latter
      the call has returned. -/
  | counting (held : List String) (pending : List (String × Nat))
  | raised (e : PyError)
deriving DecidableEq

/-- Where a call of `release` stands. -/
inductive Release where
  | requested (ids : List String)
  /-- It has the reader lock. -/
  | entered (ids : List String)
  | decrementing (pending : List (String × Nat))
  | returned
  | raised (e : PyError)
deriving DecidableEq

/-- Where the load or unload stands that has `lora_update_lock`. `evicting` is the name of the adapter that is
    unloaded to make room at the end of a load. -/
inductive Update where
  | idle
  | loading (ref : LoRARef)
  | registering (ref : LoRARef)
  | makingRoom
  | unregistering (loraName : String) (evicting : Option String)
  | unregistered (loraId : String) (evicting : Option String)
  | waiting (loraId : String) (counter : Nat) (evicting : Option String)
  | unloading (loraId : String) (evicting : Option String)
deriving DecidableEq

/-- The registry, the adapters loaded in the backend, the tasks, the exceptions of loads and unloads, and
    the ids made so far. -/
structure State where
  reg : LoRARegistry
  backend : List String
  update : Update
  acquires : List Acquire
  releases : List Release
  updateErrors : List PyError
  minted : List String
deriving DecidableEq

def State.new : State := ⟨⟨Dict.empty, Dict.empty, [], 0⟩, [], .idle, [], [], [], []⟩

namespace State

variable (st : State)

/-! ### `acquire` -/

def lookup (i : Nat) : Option State :=
  match st.acquires[i]? with
  | some (.requested path) =>
    if st.reg.readers = 0 then
      match st.reg.lookupAll path.names with
      | (reg, .ok ids) => some { st with reg := reg, acquires := st.acquires.set i (.lookedUp ids) }
      | (reg, .error e) => some { st with reg := reg, acquires := st.acquires.set i (.raised e) }
    else none
  | _ => none

def startCounting (i : Nat) : Option State :=
  match st.acquires[i]? with
  | some (.lookedUp ids) =>
    match st.reg.counterObjects ids with
    | .ok pending => some { st with acquires := st.acquires.set i (.counting [] pending) }
    | .error e => some { st with acquires := st.acquires.set i (.raised e) }
  | _ => none

def increment (i j : Nat) : Option State :=
  match st.acquires[i]? with
  | some (.counting held pending) =>
    match pending[j]? with
    | some (id, a) => some { st with
        reg := st.reg.add 1 a
        acquires := st.acquires.set i (.counting (id :: held) (pending.eraseIdx j)) }
    | none => none
  | _ => none

/-! ### `release` -/

/-- A call of `release` with ids of an `acquire` that has returned. -/
def release (i : Nat) (ids : List String) : Option State :=
  match st.acquires[i]? with
  | some (.counting held []) =>
    if ids.Subperm held then some { st with
      acquires := st.acquires.set i (.counting (held.diff ids) [])
      releases := st.releases ++ [.requested ids] }
    else none
  | _ => none

def enterReader (k : Nat) : Option State :=
  match st.releases[k]? with
  | some (.requested ids) => some { st with
      reg := { st.reg with readers := st.reg.readers + 1 }
      releases := st.releases.set k (.entered ids) }
  | _ => none

/-- The counters are looked up and their decrements started; an exception leaves the reader lock. -/
def startDecrementing (k : Nat) : Option State :=
  match st.releases[k]? with
  | some (.entered ids) =>
    match st.reg.counterObjects ids with
    | .ok pending => some { st with releases := st.releases.set k (.decrementing pending) }
    | .error e => some { st with
        reg := { st.reg with readers := st.reg.readers - 1 }
        releases := st.releases.set k (.raised e) }
  | _ => none

def decrement (k j : Nat) : Option State :=
  match st.releases[k]? with
  | some (.decrementing pending) =>
    match pending[j]? with
    | some (_, a) => some { st with
        reg := st.reg.add (-1) a
        releases := st.releases.set k (.decrementing (pending.eraseIdx j)) }
    | none => none
  | _ => none

def exitReader (k : Nat) : Option State :=
  match st.releases[k]? with
  | some (.decrementing []) => some { st with
      reg := { st.reg with readers := st.reg.readers - 1 }
      releases := st.releases.set k .returned }
  | _ => none

/-! ### Loads and unloads -/

/-- A load takes `lora_update_lock` and makes a new id. -/
def load (ref : LoRARef) : Option State :=
  if st.update = .idle ∧ ref.loraId ∉ st.minted then
    some { st with update := .loading ref, minted := ref.loraId :: st.minted }
  else none

def backendLoaded (success : Bool) : Option State :=
  match st.update with
  | .loading ref =>
    if success then some { st with backend := ref.loraId :: st.backend, update := .registering ref }
    else some { st with update := .makingRoom }
  | _ => none

def failUpdate (e : PyError) : State :=
  { st with update := .idle, updateErrors := e :: st.updateErrors }

def register : Option State :=
  match st.update with
  | .registering ref =>
    if st.reg.readers = 0 then
      match st.reg.registerAdapter ref with
      | .ok reg => some { st with reg := reg, update := .makingRoom }
      | .error e => some (st.failUpdate e)
    else none
  | _ => none

/-- The test of the loop that unloads the least recently used adapters. -/
def makeRoom (maxLoadedLoras : Option Nat) : Option State :=
  match st.update with
  | .makingRoom =>
    if maxLoadedLoras.all (st.reg.registry.keys.length ≤ ·) then some { st with update := .idle }
    else
      match st.reg.lruLoraName with
      | some name => some { st with update := .unregistering name (some name) }
      | none => some (st.failUpdate (.valueError
          ("Didn't find any LoRA adapters when trying to evict LRU LoRA adapter. " ++
            s!"LoRA registry is: {st.reg.keysRepr}")))
  | _ => none

/-- An unload takes `lora_update_lock`. -/
def unload (loraName : String) : Option State :=
  if st.update = .idle then some { st with update := .unregistering loraName none } else none

def unregister : Option State :=
  match st.update with
  | .unregistering name evicting =>
    if st.reg.readers = 0 then
      match st.reg.unregister name with
      | .ok (id, reg) => some { st with reg := reg, update := .unregistered id evicting }
      | .error e => some (st.failUpdate e)
    else none
  | _ => none

/-- The assertions of `wait_for_unload`; the first one looks for the id among the names. -/
def startWaiting : Option State :=
  match st.update with
  | .unregistered id evicting =>
    if st.reg.registry.contains id then
      some (st.failUpdate (.assertionError
        ("wait_for_unload should only be called after the LoRA adapter has been unregistered. ")))
    else
      match st.reg.counters.get? id with
      | some a => some { st with update := .waiting id a evicting }
      | none => some (st.failUpdate (.assertionError
          "The LoRA ID should still have a counter if it has been registered before."))
  | _ => none

/-- `wait_for_zero` returns, and the counter is deleted. -/
def deleteCounter : Option State :=
  match st.update with
  | .waiting id a evicting =>
    if st.reg.heap[a]? = some 0 then
      if st.reg.counters.contains id then some { st with
        reg := { st.reg with counters := st.reg.counters.erase id }
        update := .unloading id evicting }
      else some (st.failUpdate (.keyError id))
    else none
  | _ => none

/-- The answer of the backend to an unload: the message of an error, if there is one. -/
def backendUnloaded (error : Option String) : Option State :=
  match st.update with
  | .unloading id evicting =>
    match error, evicting with
    | none, none => some { st with backend := st.backend.filter (· ≠ id), update := .idle }
    | none, some _ => some { st with backend := st.backend.filter (· ≠ id), update := .makingRoom }
    | some _, none => some { st with update := .idle }
    | some message, some name => some (st.failUpdate (.valueError
        s!"Error while unloading LRU LoRA adapter '{name}': {message}"))
  | _ => none

end State

/-! ## Runs -/

inductive Event where
  | acquire (path : LoraPath)
  | lookup (i : Nat)
  | startCounting (i : Nat)
  | increment (i j : Nat)
  | release (i : Nat) (ids : List String)
  | enterReader (k : Nat)
  | startDecrementing (k : Nat)
  | decrement (k j : Nat)
  | exitReader (k : Nat)
  | getUnregisteredLoras (names : List String)
  | load (ref : LoRARef)
  | backendLoaded (success : Bool)
  | register
  | makeRoom
  | unload (loraName : String)
  | unregister
  | startWaiting
  | deleteCounter
  | backendUnloaded (error : Option String)
deriving DecidableEq

def step (maxLoadedLoras : Option Nat) (st : State) : Event → Option State
  | .acquire path => some { st with acquires := st.acquires ++ [.requested path] }
  | .lookup i => st.lookup i
  | .startCounting i => st.startCounting i
  | .increment i j => st.increment i j
  | .release i ids => st.release i ids
  | .enterReader k => st.enterReader k
  | .startDecrementing k => st.startDecrementing k
  | .decrement k j => st.decrement k j
  | .exitReader k => st.exitReader k
  | .getUnregisteredLoras names =>
    if st.reg.readers = 0 then some { st with reg := st.reg.getUnregisteredLoras names } else none
  | .load ref => st.load ref
  | .backendLoaded success => st.backendLoaded success
  | .register => st.register
  | .makeRoom => st.makeRoom maxLoadedLoras
  | .unload loraName => st.unload loraName
  | .unregister => st.unregister
  | .startWaiting => st.startWaiting
  | .deleteCounter => st.deleteCounter
  | .backendUnloaded error => st.backendUnloaded error

end Lora
