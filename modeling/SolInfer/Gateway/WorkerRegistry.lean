import SolInfer.Lib.Buckets
import SolInfer.Lib.Run

set_option autoImplicit false

/-! # Worker registry

`sgl-model-gateway/src/core/worker_registry.rs`: the workers of the gateway and the indexes over them, by
model, type, connection mode and URL, and the hash ring of each model. -/

namespace Gateway

inductive WorkerType where
  | regular
  | prefill (bootstrapPort : Option UInt16)
  | decode
deriving DecidableEq, Repr

inductive ConnectionMode where
  | http
  | grpc (port : Option UInt16)
deriving DecidableEq, Repr

/-- A worker object; `object` tells apart two objects with the same properties. -/
structure Worker where
  url : String
  modelId : String
  workerType : WorkerType
  connectionMode : ConnectionMode
  object : Nat
deriving DecidableEq, Repr

abbrev WorkerId := String

/-! ## Hash rings -/

def virtualNodesPerWorker : Nat := 150

/-- Ring positions and worker URLs, sorted by position. -/
structure HashRing where
  entries : List (Nat × String)
deriving DecidableEq, Repr

section Registry

-- `position` gives the first bytes of the hash of a URL and the number of a virtual node.
variable (position : String → Nat → Nat)

/-- `HashRing::new`. -/
def HashRing.new (workers : List Worker) : HashRing where
  entries := (workers.flatMap fun w =>
    (List.range virtualNodesPerWorker).map fun vnode => (position w.url vnode, w.url)).mergeSort
      fun a b => a.1 ≤ b.1

/-! ## The registry -/

structure WorkerRegistry where
  workers : Dict WorkerId Worker
  modelIndex : Dict String (List Worker)
  hashRings : Dict String HashRing
  typeWorkers : Dict WorkerType (List WorkerId)
  connectionWorkers : Dict ConnectionMode (List WorkerId)
  urlToId : Dict String WorkerId

namespace WorkerRegistry

def new : WorkerRegistry := ⟨.empty, .empty, .empty, .empty, .empty, .empty⟩

def rebuildHashRing (modelId : String) (r : WorkerRegistry) : WorkerRegistry :=
  match r.modelIndex.get? modelId with
  | some workers => { r with hashRings := r.hashRings.set modelId (HashRing.new position workers) }
  | none => { r with hashRings := r.hashRings.erase modelId }

variable (r : WorkerRegistry) (url : String)

def idFor (newId : WorkerId) : WorkerId :=
  (r.urlToId.get? url).getD newId

/-- `register`; `newId` is what `WorkerId::new` returns. -/
def register (worker : Worker) (newId : WorkerId) (r : WorkerRegistry) : WorkerId × WorkerRegistry :=
  let workerId := r.idFor worker.url newId
  let r := { r with
    workers := r.workers.set workerId worker
    urlToId := r.urlToId.set worker.url workerId
    modelIndex := r.modelIndex.push worker.modelId worker }
  let r := r.rebuildHashRing position worker.modelId
  (workerId, { r with
    typeWorkers := r.typeWorkers.push worker.workerType workerId
    connectionWorkers := r.connectionWorkers.push worker.connectionMode workerId })

def reserveIdForUrl (newId : WorkerId) (r : WorkerRegistry) : WorkerId × WorkerRegistry :=
  let workerId := r.idFor url newId
  (workerId, { r with urlToId := r.urlToId.set url workerId })

def remove (workerId : WorkerId) (r : WorkerRegistry) : Option Worker × WorkerRegistry :=
  match r.workers.get? workerId with
  | none => (none, r)
  | some worker =>
    let r := { r with
      workers := r.workers.erase workerId
      urlToId := r.urlToId.erase worker.url
      modelIndex := r.modelIndex.retain worker.modelId (fun w => w.url ≠ worker.url) }
    let r := r.rebuildHashRing position worker.modelId
    (some worker, { r with
      typeWorkers := r.typeWorkers.retain worker.workerType fun id => id ≠ workerId
      connectionWorkers := r.connectionWorkers.retain worker.connectionMode (fun id => id ≠ workerId) })

def removeByUrl (r : WorkerRegistry) : Option Worker × WorkerRegistry :=
  match r.urlToId.get? url with
  | none => (none, r)
  | some workerId => remove position workerId { r with urlToId := r.urlToId.erase url }

/-! ## Queries -/

def get (workerId : WorkerId) : Option Worker := r.workers.get? workerId

def getByUrl : Option Worker :=
  (r.urlToId.get? url).bind r.get

def getByModel (modelId : String) : List Worker := r.modelIndex.bucket modelId

def getHashRing (modelId : String) : Option HashRing := r.hashRings.get? modelId

def getByType (workerType : WorkerType) : List Worker :=
  (r.typeWorkers.bucket workerType).filterMap r.get

def getByConnection (connectionMode : ConnectionMode) : List Worker :=
  (r.connectionWorkers.bucket connectionMode).filterMap r.get

/-! ## Runs -/

inductive Event where
  | register (worker : Worker) (newId : WorkerId)
  | reserveIdForUrl (url : String) (newId : WorkerId)
  | remove (workerId : WorkerId)
  | removeByUrl (url : String)

def step : Event → Option WorkerRegistry
  | .register worker newId => some (register position worker newId r).2
  | .reserveIdForUrl url newId => some (reserveIdForUrl url newId r).2
  | .remove workerId => some (remove position workerId r).2
  | .removeByUrl url => some (removeByUrl position url r).2

def Fresh (id : WorkerId) : Prop :=
  r.workers.get? id = none ∧ ∀ url, r.urlToId.get? url ≠ some id

def Admitted : Event → Prop
  | .register _ newId => r.Fresh newId
  | .reserveIdForUrl _ newId => r.Fresh newId
  | _ => True

end WorkerRegistry

end Registry

/-! ## Coherence of the worker registry

The indexes agree with the table of workers as long as no URL is registered twice. `register` adds the new
object of a known URL to the indexes and leaves the old one in them. -/

open Function Dict

namespace WorkerRegistry

variable {position : String → Nat → Nat} {r r' : WorkerRegistry} {worker w : Worker}
  {id newId : WorkerId} {url : String}

/-! ## Coherence -/

/-- What the indexes say of the workers. -/
structure Coherent (position : String → Nat → Nat) (r : WorkerRegistry) : Prop where
  /-- The model index holds the current object of each URL with that model, -/
  model : ∀ modelId w, w ∈ r.getByModel modelId ↔ w.modelId = modelId ∧ ∃ id, r.get id = some w
  /-- each URL once, -/
  once : ∀ modelId, ((r.getByModel modelId).map Worker.url).Nodup
  /-- and the ring is that of these workers. -/
  ring : ∀ modelId, r.getHashRing modelId = (r.modelIndex.get? modelId).map (HashRing.new position)
  /-- Each id is in the type index once, under its current type, -/
  types : Dict.Indexes Worker.workerType r.get r.typeWorkers
  /-- and so in the connection index. -/
  connections : Dict.Indexes Worker.connectionMode r.get r.connectionWorkers
  /-- The URL of each worker is mapped to its id. -/
  urls : ∀ id w, r.get id = some w → r.urlToId.get? w.url = some id

/-- Different URLs have different ids, also while they are only reserved. -/
structure IdsApart (r : WorkerRegistry) : Prop where
  owner : ∀ url id w, r.urlToId.get? url = some id → r.get id = some w → w.url = url
  apart : ∀ url url' id, r.urlToId.get? url = some id → r.urlToId.get? url' = some id → url = url'

theorem coherent_new : Coherent position new := by
  refine ⟨?_, ?_, fun _ => rfl, indexes_empty _, indexes_empty _, ?_⟩
  · intro modelId w
    simp [getByModel, get, new, Dict.bucket]
  · intro modelId
    simp [getByModel, new, Dict.bucket]
  · intro id w hw
    cases hw

theorem idsApart_new : IdsApart new := by
  refine ⟨?_, ?_⟩
  · intro url id w hurl
    cases hurl
  · intro url url' id hurl
    cases hurl

theorem Coherent.eq_of_url_eq (h : Coherent position r) {id' : WorkerId} {w' : Worker}
    (hw : r.get id = some w) (hw' : r.get id' = some w') (hurl : w.url = w'.url) :
    id = id' ∧ w = w' := by
  have hid := h.urls id w hw
  rw [hurl, h.urls id' w' hw'] at hid
  obtain rfl : id' = id := Option.some.inj hid
  rw [hw] at hw'
  exact ⟨rfl, Option.some.inj hw'⟩

/-! ## Rings -/

/-- The rings of all models, except for one of them, are those of their workers. -/
def RingsBut (position : String → Nat → Nat) (modelId : String) (r : WorkerRegistry) : Prop :=
  ∀ m, modelId ≠ m → r.getHashRing m = (r.modelIndex.get? m).map (HashRing.new position)

theorem rebuildHashRing_eq (position : String → Nat → Nat) (modelId : String) (r : WorkerRegistry) :
    ∃ rings, r.rebuildHashRing position modelId = { r with hashRings := rings } ∧
      (RingsBut position modelId r →
        ∀ m, rings.get? m = (r.modelIndex.get? m).map (HashRing.new position)) := by
  have hrings : RingsBut position modelId r →
      ∀ m, (r.rebuildHashRing position modelId).hashRings.get? m =
        (r.modelIndex.get? m).map (HashRing.new position) := by
    intro h m
    unfold rebuildHashRing
    by_cases hm : modelId = m
    · subst hm
      split <;> simp_all
    · have hother : r.hashRings.get? m = _ := h m hm
      split <;> simp [get?_set_of_ne, get?_erase_of_ne, hm, hother]
  unfold rebuildHashRing at hrings ⊢
  split <;> exact ⟨_, rfl, by simpa [*] using hrings⟩

/-! ## Registering -/

section Register

theorem register_eq (position : String → Nat → Nat) (worker : Worker) (newId : WorkerId)
    (r : WorkerRegistry) :
    ∃ rings, register position worker newId r = (r.idFor worker.url newId, { r with
      workers := r.workers.set (r.idFor worker.url newId) worker
      urlToId := r.urlToId.set worker.url (r.idFor worker.url newId)
      modelIndex := r.modelIndex.push worker.modelId worker
      hashRings := rings
      typeWorkers := r.typeWorkers.push worker.workerType (r.idFor worker.url newId)
      connectionWorkers := r.connectionWorkers.push worker.connectionMode (r.idFor worker.url newId) }) ∧
    (RingsBut position worker.modelId r → ∀ m, rings.get? m =
      ((r.modelIndex.push worker.modelId worker).get? m).map (HashRing.new position)) := by
  obtain ⟨rings, heq, hrings⟩ := rebuildHashRing_eq position worker.modelId { r with
    workers := r.workers.set (r.idFor worker.url newId) worker
    urlToId := r.urlToId.set worker.url (r.idFor worker.url newId)
    modelIndex := r.modelIndex.push worker.modelId worker }
  refine ⟨rings, by simp only [register, heq], fun hold => hrings fun m hm => ?_⟩
  simp only [Dict.push, get?_set_of_ne _ _ hm]
  exact hold m hm

theorem register_get :
    (register position worker newId r).2.get =
      update r.get (r.idFor worker.url newId) (some worker) := by
  obtain ⟨rings, heq, _⟩ := register_eq position worker newId r
  rw [heq]
  funext id
  simp only [get, get?_set, update_apply, eq_comm]

theorem get_idFor (hurl : r.getByUrl url = none) (hfresh : r.Fresh newId) :
    r.get (r.idFor url newId) = none := by
  unfold idFor
  cases hid : r.urlToId.get? url with
  | none => exact hfresh.1
  | some id => simpa [getByUrl, hid] using hurl

theorem Coherent.register (h : Coherent position r) (hurl : r.getByUrl worker.url = none)
    (hfresh : r.Fresh newId) : Coherent position (register position worker newId r).2 := by
  have hget : (WorkerRegistry.register position worker newId r).2.get = _ := register_get
  obtain ⟨rings, heq, hrings⟩ := register_eq position worker newId r
  have hnew := get_idFor hurl hfresh
  have hother : ∀ id w, r.get id = some w → w.url ≠ worker.url := by
    intro id w hw heq
    have hid := h.urls id w hw
    rw [heq] at hid
    simp [getByUrl, hid, hw] at hurl
  have hne : ∀ {id w}, r.get id = some w → id ≠ r.idFor worker.url newId := by
    rintro id w hw rfl
    rw [hnew] at hw
    cases hw
  have hmodels : ∀ modelId, (WorkerRegistry.register position worker newId r).2.getByModel modelId =
      if worker.modelId = modelId then r.getByModel modelId ++ [worker] else r.getByModel modelId := by
    intro modelId
    simp only [heq, getByModel, bucket_push]
  rw [heq] at hget hmodels ⊢
  refine ⟨?_, ?_, hrings fun m _ => h.ring m, ?_, ?_, ?_⟩
  · intro modelId w
    rw [hmodels, hget]
    -- the new worker is the only one that was added to the table
    have hcurrent : (∃ id, update r.get (r.idFor worker.url newId) (some worker) id = some w) ↔
        w = worker ∨ ∃ id, r.get id = some w := by
      constructor
      · rintro ⟨id, hid⟩
        by_cases heq : id = r.idFor worker.url newId
        · rw [heq, update_self] at hid
          exact .inl (Option.some.inj hid).symm
        · rw [update_of_ne heq] at hid
          exact .inr ⟨id, hid⟩
      · rintro (rfl | ⟨id, hid⟩)
        · exact ⟨_, update_self ..⟩
        · exact ⟨id, by rw [update_of_ne (hne hid), hid]⟩
    rw [hcurrent]
    have hold := h.model modelId w
    by_cases hmodel : worker.modelId = modelId
    · rw [if_pos hmodel, List.mem_append, List.mem_singleton, hold]
      constructor
      · rintro (⟨hw, hex⟩ | rfl)
        · exact ⟨hw, .inr hex⟩
        · exact ⟨hmodel, .inl rfl⟩
      · rintro ⟨hw, rfl | hex⟩
        · exact .inr rfl
        · exact .inl ⟨hw, hex⟩
    · rw [if_neg hmodel, hold]
      constructor
      · rintro ⟨hw, hex⟩
        exact ⟨hw, .inr hex⟩
      · rintro ⟨hw, rfl | hex⟩
        · exact absurd hw hmodel
        · exact ⟨hw, hex⟩
  · intro modelId
    rw [hmodels]
    split
    · rw [List.map_append, List.nodup_append']
      refine ⟨h.once modelId, List.nodup_singleton _, ?_⟩
      intro url hmem hurl
      obtain ⟨w, hw, rfl⟩ := List.mem_map.1 hmem
      obtain ⟨_, id, hid⟩ := (h.model modelId w).1 hw
      exact hother id w hid (by simpa using hurl)
    · exact h.once modelId
  · rw [hget]
    exact (indexes_push_iff h.types).2 hnew
  · rw [hget]
    exact (indexes_push_iff h.connections).2 hnew
  · intro id w hw
    rw [hget] at hw
    by_cases heq : id = r.idFor worker.url newId
    · rw [heq, update_self] at hw
      cases hw
      rw [heq, get?_set_self]
    · rw [update_of_ne heq] at hw
      rw [get?_set_of_ne _ _ (Ne.symm (hother id w hw))]
      exact h.urls id w hw

/-- **Registering** keeps the indexes coherent exactly for a URL that no worker has. -/
theorem coherent_register_iff (h : Coherent position r) (hfresh : r.Fresh newId) :
    Coherent position (register position worker newId r).2 ↔ r.getByUrl worker.url = none := by
  refine ⟨fun hafter => ?_, fun hurl => h.register hurl hfresh⟩
  have hnone : r.get (r.idFor worker.url newId) = none := by
    have htypes := hafter.types
    rw [register_get] at htypes
    obtain ⟨rings, heq, _⟩ := register_eq position worker newId r
    rw [heq] at htypes
    exact (indexes_push_iff h.types).1 htypes
  unfold getByUrl
  cases hid : r.urlToId.get? worker.url with
  | none => rfl
  | some id => simpa [idFor, hid] using hnone

theorem IdsApart.idFor (h : IdsApart r) (hfresh : r.Fresh newId) {url' : String}
    (hurl' : r.urlToId.get? url' = some (r.idFor url newId)) : url' = url := by
  unfold WorkerRegistry.idFor at hurl'
  cases hid : r.urlToId.get? url with
  | none =>
    rw [hid, Option.getD_none] at hurl'
    exact absurd hurl' (hfresh.2 url')
  | some id =>
    rw [hid, Option.getD_some] at hurl'
    exact h.apart url' url id hurl' hid

theorem IdsApart.set_urlToId (h : IdsApart r) (hfresh : r.Fresh newId) (urls : Dict String WorkerId)
    (hurls : urls = r.urlToId.set url (r.idFor url newId)) (u u' : String) (i : WorkerId)
    (hu : urls.get? u = some i) (hu' : urls.get? u' = some i) : u = u' := by
  rw [hurls, get?_set] at hu hu'
  split at hu
  next heq =>
    split at hu'
    next heq' => exact heq.symm.trans heq'
    · cases hu
      exact heq.symm.trans (h.idFor hfresh hu').symm
  · split at hu'
    next heq' =>
      cases hu'
      exact (h.idFor hfresh hu).trans heq'
    · exact h.apart u u' i hu hu'

theorem IdsApart.register (h : IdsApart r) (hfresh : r.Fresh newId) :
    IdsApart (register position worker newId r).2 := by
  obtain ⟨rings, heq, _⟩ := register_eq position worker newId r
  refine ⟨?_, ?_⟩
  · intro url id w hid hw
    rw [register_get] at hw
    rw [heq, get?_set] at hid
    split at hid
    next heq =>
      cases hid
      rw [update_self] at hw
      cases hw
      exact heq
    next hne =>
      by_cases heq : id = r.idFor worker.url newId
      · subst heq
        exact absurd (h.idFor hfresh hid).symm hne
      · rw [update_of_ne heq] at hw
        exact h.owner url id w hid hw
  · intro u u' i hu hu'
    exact h.set_urlToId hfresh _ (by rw [heq]) u u' i hu hu'

end Register

/-! ## Reserving -/

theorem Coherent.reserveIdForUrl (h : Coherent position r) :
    Coherent position (reserveIdForUrl url newId r).2 := by
  refine { h with urls := ?_ }
  intro id w hw
  have hid := h.urls id w hw
  simp only [WorkerRegistry.reserveIdForUrl, get?_set]
  split
  next heq =>
    rw [idFor, heq, hid]
    rfl
  · exact hid

theorem IdsApart.reserveIdForUrl (h : IdsApart r) (hfresh : r.Fresh newId) :
    IdsApart (reserveIdForUrl url newId r).2 := by
  refine ⟨?_, ?_⟩
  · intro url' id w hid hw
    change r.get id = some w at hw
    simp only [WorkerRegistry.reserveIdForUrl, get?_set] at hid
    split at hid
    next heq =>
      cases hid
      unfold WorkerRegistry.idFor at hw
      cases hold : r.urlToId.get? url with
      | none =>
        rw [hold, Option.getD_none] at hw
        rw [show r.get newId = none from hfresh.1] at hw
        cases hw
      | some id =>
        rw [hold, Option.getD_some] at hw
        exact (h.owner url id w hold hw).trans heq
    · exact h.owner url' id w hid hw
  · intro u u' i hu hu'
    exact h.set_urlToId hfresh _ rfl u u' i hu hu'

/-! ## Removing -/

theorem IdsApart.forget (h : IdsApart r) : IdsApart { r with urlToId := r.urlToId.erase url } := by
  refine ⟨?_, ?_⟩
  · intro u i w hu hw
    exact h.owner u i w (get?_erase_eq_some.1 hu).2 hw
  · intro u u' i hu hu'
    exact h.apart u u' i (get?_erase_eq_some.1 hu).2 (get?_erase_eq_some.1 hu').2

section Remove

variable (hid : r.get id = some worker)

include hid

theorem remove_eq (position : String → Nat → Nat) :
    ∃ rings, remove position id r = (some worker, { r with
      workers := r.workers.erase id
      urlToId := r.urlToId.erase worker.url
      modelIndex := r.modelIndex.retain worker.modelId fun w => w.url ≠ worker.url
      hashRings := rings
      typeWorkers := r.typeWorkers.retain worker.workerType fun i => i ≠ id
      connectionWorkers := r.connectionWorkers.retain worker.connectionMode (fun i => i ≠ id) }) ∧
    (RingsBut position worker.modelId r → ∀ m, rings.get? m =
      ((r.modelIndex.retain worker.modelId (fun w => w.url ≠ worker.url)).get? m).map
        (HashRing.new position)) := by
  unfold get at hid
  obtain ⟨rings, heq, hrings⟩ := rebuildHashRing_eq position worker.modelId { r with
    workers := r.workers.erase id
    urlToId := r.urlToId.erase worker.url
    modelIndex := r.modelIndex.retain worker.modelId (fun w => w.url ≠ worker.url) }
  refine ⟨rings, by simp only [remove, hid, heq], fun hold => hrings fun m hm => ?_⟩
  simp only [Dict.retain, get?_modify, if_neg hm]
  exact hold m hm

theorem Coherent.remove (h : Coherent position r) : Coherent position (remove position id r).2 := by
  obtain ⟨rings, heq, hrings⟩ := remove_eq hid position
  have hget : (WorkerRegistry.remove position id r).2.get = update r.get id none := by
    rw [heq]
    funext i
    simp only [get, get?_erase, update_apply, eq_comm]
  rw [heq] at hget ⊢
  refine ⟨?_, ?_, ?_, ?_, ?_, ?_⟩
  · intro modelId w
    rw [hget]
    have hold := h.model modelId w
    -- the workers left are those with another URL
    have hcurrent : (∃ i, update r.get id none i = some w) ↔
        w.url ≠ worker.url ∧ ∃ i, r.get i = some w := by
      constructor
      · rintro ⟨i, hi⟩
        by_cases hii : i = id
        · rw [hii, update_self] at hi
          cases hi
        · rw [update_of_ne hii] at hi
          exact ⟨fun hurl => hii (h.eq_of_url_eq hi hid hurl).1, i, hi⟩
      · rintro ⟨hurl, i, hi⟩
        refine ⟨i, ?_⟩
        rw [update_of_ne, hi]
        rintro rfl
        rw [hid] at hi
        cases hi
        exact hurl rfl
    rw [hcurrent]
    simp only [getByModel, bucket_retain] at hold ⊢
    by_cases hmodel : worker.modelId = modelId
    · rw [if_pos hmodel, List.mem_filter, hold]
      simp only [decide_eq_true_eq]
      tauto
    · rw [if_neg hmodel, hold]
      constructor
      · rintro ⟨hw, i, hi⟩
        refine ⟨hw, fun hurl => hmodel ?_, i, hi⟩
        rw [← (h.eq_of_url_eq hi hid hurl).2]
        exact hw
      · rintro ⟨hw, _, hex⟩
        exact ⟨hw, hex⟩
  · intro modelId
    have hold := h.once modelId
    simp only [getByModel, bucket_retain] at hold ⊢
    split
    · exact hold.sublist (List.filter_sublist.map _)
    · exact hold
  · exact hrings fun m _ => h.ring m
  · rw [hget]
    exact h.types.retain hid
  · rw [hget]
    exact h.connections.retain hid
  · intro i w hi
    rw [hget] at hi
    have hii : i ≠ id := by
      rintro rfl
      rw [update_self] at hi
      cases hi
    rw [update_of_ne hii] at hi
    have hurl : worker.url ≠ w.url := fun heq => hii (h.eq_of_url_eq hi hid heq.symm).1
    rw [get?_erase_of_ne _ hurl]
    exact h.urls i w hi

theorem IdsApart.remove (h : IdsApart r) : IdsApart (remove position id r).2 := by
  obtain ⟨rings, heq, _⟩ := remove_eq hid position
  rw [heq]
  refine ⟨?_, h.forget.apart⟩
  intro url i w hurl hw
  exact h.forget.owner url i w hurl (get?_erase_eq_some.1 hw).2

theorem removeByUrl_eq (h : IdsApart r) (hurl : r.urlToId.get? url = some id) :
    removeByUrl position url r = remove position id r := by
  have howner := h.owner url id worker hurl hid
  unfold get at hid
  subst howner
  simp only [removeByUrl, hurl, remove, hid, erase_erase_self]

end Remove

theorem removeByUrl_of_reserved (hurl : r.urlToId.get? url = some id) (hid : r.get id = none) :
    removeByUrl position url r = (none, { r with urlToId := r.urlToId.erase url }) := by
  unfold get at hid
  simp only [removeByUrl, hurl, remove, hid]

theorem Coherent.forget (h : Coherent position r) (hurl : r.urlToId.get? url = some id)
    (hid : r.get id = none) : Coherent position { r with urlToId := r.urlToId.erase url } := by
  refine { h with urls := ?_ }
  intro i w hi
  have hmapped := h.urls i w hi
  have hne : url ≠ w.url := by
    rintro rfl
    rw [hurl] at hmapped
    cases hmapped
    rw [show r.get id = some w from hi] at hid
    cases hid
  rw [get?_erase_of_ne _ hne]
  exact hmapped

/-! ## Runs -/

/-- No URL is registered while a worker has it. -/
def Careful (r : WorkerRegistry) : Event → Prop
  | .register worker newId => r.getByUrl worker.url = none ∧ r.Fresh newId
  | e => r.Admitted e

theorem coherent_step {e : Event} (h : Coherent position r ∧ IdsApart r) (hcareful : r.Careful e)
    (hstep : step position r e = some r') : Coherent position r' ∧ IdsApart r' := by
  obtain ⟨hcoherent, hapart⟩ := h
  cases e with
  | register worker newId =>
    cases hstep
    obtain ⟨hurl, hfresh⟩ := hcareful
    exact ⟨hcoherent.register hurl hfresh, hapart.register hfresh⟩
  | reserveIdForUrl url newId =>
    cases hstep
    exact ⟨hcoherent.reserveIdForUrl, hapart.reserveIdForUrl hcareful⟩
  | remove id =>
    cases hstep
    cases hid : r.get id with
    | none =>
      unfold get at hid
      simp only [remove, hid]
      exact ⟨hcoherent, hapart⟩
    | some worker => exact ⟨hcoherent.remove hid, hapart.remove hid⟩
  | removeByUrl url =>
    cases hstep
    cases hurl : r.urlToId.get? url with
    | none =>
      simp only [removeByUrl, hurl]
      exact ⟨hcoherent, hapart⟩
    | some id =>
      cases hid : r.get id with
      | none =>
        rw [removeByUrl_of_reserved hurl hid]
        exact ⟨hcoherent.forget hurl hid, hapart.forget⟩
      | some worker =>
        rw [removeByUrl_eq hid hapart hurl]
        exact ⟨hcoherent.remove hid, hapart.remove hid⟩

structure Gone (id : WorkerId) (w : Worker) (r : WorkerRegistry) : Prop where
  get : r.get id = none
  url : r.getByUrl w.url = none
  model : ∀ modelId, w ∉ r.getByModel modelId
  ring : ∀ modelId, ∀ ring ∈ r.getHashRing modelId, w.url ∉ ring.entries.map Prod.snd
  types : ∀ workerType, w ∉ r.getByType workerType
  connections : ∀ connectionMode, w ∉ r.getByConnection connectionMode

theorem mem_ring_entries {workers : List Worker}
    (hmem : url ∈ (HashRing.new position workers).entries.map Prod.snd) :
    ∃ w ∈ workers, w.url = url := by
  obtain ⟨entry, hentry, rfl⟩ := List.mem_map.1 hmem
  simp only [HashRing.new, List.mem_mergeSort, List.mem_flatMap, List.mem_map] at hentry
  obtain ⟨w, hw, _, _, rfl⟩ := hentry
  exact ⟨w, hw, rfl⟩

theorem Coherent.gone (h : Coherent position r) (hapart : IdsApart r) (hid : r.get id = none)
    (hurl : ∀ i w', r.get i = some w' → w'.url ≠ w.url) : Gone id w r := by
  refine ⟨hid, ?_, ?_, ?_, ?_, ?_⟩
  · unfold getByUrl
    cases hmapped : r.urlToId.get? w.url with
    | none => rfl
    | some i =>
      cases hi : r.get i with
      | none => simpa using hi
      | some w' => exact absurd (hapart.owner w.url i w' hmapped hi) (hurl i w' hi)
  · intro modelId hmem
    obtain ⟨_, i, hi⟩ := (h.model modelId w).1 hmem
    exact hurl i w hi rfl
  · intro modelId ring hring hmem
    rw [h.ring modelId] at hring
    obtain ⟨workers, hworkers, rfl⟩ := Option.map_eq_some_iff.1 hring
    obtain ⟨w', hw', heq⟩ := mem_ring_entries hmem
    have hindexed : w' ∈ r.getByModel modelId := by
      rw [getByModel, Dict.bucket, hworkers]
      exact hw'
    obtain ⟨_, i, hi⟩ := (h.model modelId w').1 hindexed
    exact hurl i w' hi heq
  · intro workerType hmem
    obtain ⟨i, _, hi⟩ := List.mem_filterMap.1 hmem
    exact hurl i w hi rfl
  · intro connectionMode hmem
    obtain ⟨i, _, hi⟩ := List.mem_filterMap.1 hmem
    exact hurl i w hi rfl

theorem gone_remove (h : Coherent position r) (hapart : IdsApart r) (hid : r.get id = some w) :
    Gone id w (remove position id r).2 := by
  obtain ⟨rings, heq, _⟩ := remove_eq hid position
  refine (h.remove hid).gone (hapart.remove hid) ?_ ?_
  · rw [heq]
    exact get?_erase_self _ _
  · intro i w' hi hurl
    rw [heq] at hi
    simp only [WorkerRegistry.get, get?_erase] at hi
    split at hi
    · cases hi
    next hne => exact hne (h.eq_of_url_eq hid hi hurl.symm).1

/-- **The indexes of the registry stay coherent** in every run in which no URL is registered while a worker
    has it, and a worker that is removed, by id or by URL, is in no index. -/
theorem registry_coherent (h : Run.Reaches (step position) Careful new r) :
    Coherent position r ∧ ∀ id w, r.get id = some w →
      Gone id w (remove position id r).2 ∧ Gone id w (removeByUrl position w.url r).2 := by
  obtain ⟨hcoherent, hapart⟩ := h.invariant (I := fun r => Coherent position r ∧ IdsApart r)
    ⟨coherent_new, idsApart_new⟩ fun _ _ _ hr hcareful hstep => coherent_step hr hcareful hstep
  refine ⟨hcoherent, fun id w hid => ?_⟩
  have hgone := gone_remove hcoherent hapart hid
  rw [removeByUrl_eq hid hapart (hcoherent.urls id w hid)]
  exact ⟨hgone, hgone⟩

instance : Decidable (r.Fresh id) :=
  decidable_of_iff (r.workers.get? id = none ∧ id ∉ r.urlToId.values) (by
    refine and_congr_right fun _ => ?_
    constructor
    · intro hnot url hurl
      exact hnot (List.mem_map.2 ⟨(url, id), Dict.mem_entries.2 hurl, rfl⟩)
    · intro hall hmem
      obtain ⟨⟨url, i⟩, hentry, rfl⟩ := List.mem_map.1 hmem
      exact hall url (Dict.mem_entries.1 hentry))

instance (e : Event) : Decidable (r.Admitted e) := by
  unfold Admitted
  split <;> infer_instance

instance (e : Event) : Decidable (r.Careful e) := by
  unfold Careful
  split <;> infer_instance

theorem registry_coherent_two_workers :
    ∃ r, Run.Reaches (step (fun _ vnode => vnode)) Careful new r ∧
      Coherent (fun _ vnode => vnode) r ∧ r.getByModel "m" = [⟨"v", "m", .decode, .http, 2⟩] ∧
      r.get "a" = none := by
  have hrun : (Run.exec (fun r e => if Careful r e then step (fun _ vnode => vnode) r e else none) new
      [.reserveIdForUrl "u" "a", .register ⟨"u", "m", .regular, .http, 1⟩ "b",
        .register ⟨"v", "m", .decode, .http, 2⟩ "b", .remove "a"]).map
      (fun r => (r.getByModel "m", r.get "a")) =
      some ([⟨"v", "m", .decode, .http, 2⟩], none) := by decide +kernel
  obtain ⟨r, hexec, hvalues⟩ := Option.map_eq_some_iff.1 hrun
  obtain ⟨hmodel, hget⟩ := Prod.mk.inj hvalues
  have hreach := Run.reaches_of_exec_guarded hexec
  exact ⟨r, hreach, (registry_coherent hreach).1, hmodel, hget⟩

/-- A URL that is registered again with another model: its id is in the type index twice, and the index of
    the first model returns the old object, also after the worker was removed. -/
theorem register_again_incoherent :
    ∃ r, Run.Reaches (step (fun _ vnode => vnode)) Admitted new r ∧
      r.get "a" = some ⟨"u", "n", .regular, .http, 2⟩ ∧
      r.getByModel "m" = [⟨"u", "m", .regular, .http, 1⟩] ∧
      r.typeWorkers.bucket .regular = ["a", "a"] ∧
      (removeByUrl (fun _ vnode => vnode) "u" r).2.getByModel "m" =
        [⟨"u", "m", .regular, .http, 1⟩] := by
  have hrun : (Run.exec (fun r e => if Admitted r e then step (fun _ vnode => vnode) r e else none) new
      [.register ⟨"u", "m", .regular, .http, 1⟩ "a", .register ⟨"u", "n", .regular, .http, 2⟩ "b"]).map
      (fun r => (r.get "a", r.getByModel "m", r.typeWorkers.bucket .regular,
        (removeByUrl (fun _ vnode => vnode) "u" r).2.getByModel "m")) =
      some (some ⟨"u", "n", .regular, .http, 2⟩, [⟨"u", "m", .regular, .http, 1⟩], ["a", "a"],
        [⟨"u", "m", .regular, .http, 1⟩]) := by decide +kernel
  obtain ⟨r, hexec, hvalues⟩ := Option.map_eq_some_iff.1 hrun
  simp only [Prod.mk.injEq] at hvalues
  obtain ⟨hget, hmodel, htypes, hremoved⟩ := hvalues
  exact ⟨r, Run.reaches_of_exec_guarded hexec, hget, hmodel, htypes, hremoved⟩

end WorkerRegistry

end Gateway
