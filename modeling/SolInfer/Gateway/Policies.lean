import SolInfer.Gateway.Tree
import SolInfer.Gateway.WorkerRegistry
import Mathlib.Data.List.MinMax
import Mathlib.Data.List.Rotate
import Mathlib.Data.Rat.Defs

set_option autoImplicit false

/-! # Load balancing policies

`sgl-model-gateway/src/policies`: the cache-aware, bucket, consistent-hashing and prefix-hash policies and
what they remember between requests. Results of the random number generator and orders of iteration are
inputs of a call, hashes are parameters. -/

namespace Gateway

/-- What the policies use of `f32` and `f64`. -/
class Floats (F : Type) where
  ofNat : Nat → F
  mul : F → F → F
  div : F → F → F
  lt : F → F → Bool
  le : F → F → Bool

instance : Floats Rat where
  ofNat n := n
  mul := (· * ·)
  div := (· / ·)
  lt a b := decide (a < b)
  le a b := decide (a ≤ b)

/-- What other crates give: a constant, the first bytes of the `blake3` hash of a text as a number, and the
    `xxh3` hash of some tokens. -/
class Crates where
  unknownModelId : String
  hashPosition : String → Nat
  xxh3 : List UInt32 → Nat

variable [Crates]

def usizeMax : Nat := 2 ^ 64 - 1

/-- Addition of `usize`, as a release build does it. -/
def usizeAdd (a b : Nat) : Nat := (a + b) % 2 ^ 64

/-! ## Workers -/

inductive CircuitState where
  | closed
  | opened
  | halfOpen
deriving DecidableEq, Repr

structure CircuitBreaker where
  state : CircuitState
  lastStateChangeMs : Nat
  timeoutDurationMs : Nat
deriving DecidableEq, Repr

/-- `check_and_update_state_returning`: an open breaker is half-open after its timeout. -/
def CircuitBreaker.stateAt (b : CircuitBreaker) (nowMs : Nat) : CircuitState :=
  if b.state = .opened ∧ b.timeoutDurationMs ≤ nowMs - b.lastStateChangeMs then .halfOpen else b.state

def CircuitBreaker.canExecute (b : CircuitBreaker) (nowMs : Nat) : Bool :=
  match b.stateAt nowMs with
  | .closed => true
  | .opened => false
  | .halfOpen => true

structure Backend extends Worker where
  isHealthy : Bool
  circuitBreaker : CircuitBreaker
  load : Nat
deriving DecidableEq, Repr

def Backend.isAvailable (nowMs : Nat) (w : Backend) : Bool :=
  w.isHealthy && w.circuitBreaker.canExecute nowMs

def getHealthyWorkerIndices (nowMs : Nat) (workers : List Backend) : List Nat :=
  (workers.zipIdx.filter fun x => x.1.isAvailable nowMs).map Prod.snd

/-- `workers.iter().enumerate().filter(|(_, w)| w.is_healthy())`. -/
def healthyWorkers (workers : List Backend) : List (Backend × Nat) :=
  workers.zipIdx.filter fun x => x.1.isHealthy

def loadOf (workers : List Backend) (i : Nat) : Nat := (workers[i]?.map Backend.load).getD 0

def normalizeModelKey (modelId : String) : String :=
  if modelId = "" then Crates.unknownModelId else modelId

abbrev HeaderMap := Dict String (Option String)

/-- `SelectWorkerInfo`; a header value is `none` if it is no text. -/
structure SelectWorkerInfo where
  requestText : Option (List Char)
  tokens : Option (List UInt32)
  headers : Option HeaderMap
  hashRing : Option HashRing

variable (nowMs : Nat) (headers : Option HeaderMap)

def extractHeaderValue (name : String) : Option String :=
  ((headers.bind fun h => h.get? name).bind id).filter (· ≠ "")

def extractTargetWorker : Option String :=
  extractHeaderValue headers "x-smg-target-worker"

def extractRoutingKey : Option String :=
  extractHeaderValue headers "x-smg-routing-key"

/-- What a call does not determine itself: a random number, the first key in the iteration of the tenants
    of a node and of the URLs with the fewest characters, and a new id. -/
structure Choices where
  random : Nat
  firstTenant : Dict TenantId Nat → Nat
  firstUrl : Nat
  newId : String

/-- A random element of the healthy indices, of which there is at least one. -/
def Choices.randomOf (c : Choices) (indices : List Nat) : Nat :=
  (indices[c.random % indices.length]?).getD 0

/-! ## Cache-aware -/

structure CacheAwareConfig (F : Type) where
  cacheThreshold : F
  balanceAbsThreshold : Nat
  balanceRelThreshold : F

/-- The trees by pool and model, and the epoch that they share. -/
structure CacheAwarePolicy (F : Type) where
  config : CacheAwareConfig F
  trees : Dict String Tree
  epoch : Nat

def poolTag : WorkerType → String
  | .regular => "regular"
  | .prefill _ => "prefill"
  | .decode => "decode"

def treeKeyForWorker (w : Worker) : String := poolTag w.workerType ++ "::" ++ normalizeModelKey w.modelId

section CacheAware

variable {F : Type} [Floats F]

variable (config : CacheAwareConfig F) (p : CacheAwarePolicy F) (workers : List Backend)

def CacheAwarePolicy.put (key : String) (tree : Tree) : CacheAwarePolicy F :=
  { p with trees := p.trees.set key tree, epoch := tree.epoch }

/-- Change the tree of a key, if there is one; the trees share the epoch. -/
def CacheAwarePolicy.update (key : String) (f : Tree → Tree) : CacheAwarePolicy F :=
  match p.trees.get? key with
  | some tree => p.put key (f { tree with epoch := p.epoch })
  | none => p

def CacheAwarePolicy.addWorker (w : Worker) : CacheAwarePolicy F :=
  let key := treeKeyForWorker w
  let p := if p.trees.contains key then p else { p with trees := p.trees.set key (.new p.epoch) }
  p.update key fun tree => tree.insert [] w.url

/-- `init_workers`; the groups in the order of their first workers. -/
def CacheAwarePolicy.initWorkers (workers : List Worker) : CacheAwarePolicy F :=
  ((workers.map treeKeyForWorker).dedup.flatMap fun key =>
    workers.filter fun w => treeKeyForWorker w = key).foldl addWorker p

def CacheAwarePolicy.removeWorker (w : Worker) : CacheAwarePolicy F :=
  p.update (treeKeyForWorker w) fun tree => tree.removeTenant w.url

def CacheAwarePolicy.removeWorkerByUrl (url : String) : CacheAwarePolicy F :=
  p.trees.keys.foldl (fun p key => p.update key fun tree => tree.removeTenant url) p

/-- `evict_cache`, by a call or by the background task. -/
def CacheAwarePolicy.evictCache (nextEntry : List (Nat × TenantId × List Char) → Nat)
    (p : CacheAwarePolicy F) (maxSize : Nat) : CacheAwarePolicy F :=
  p.trees.keys.foldl
    (fun p key => p.update key fun tree => (tree.evictTenantBySize nextEntry maxSize).1) p

def loadBounds : Nat × Nat :=
  let (minLoad, maxLoad) :=
    workers.foldl (fun (b : Nat × Nat) w => (min b.1 w.load, max b.2 w.load)) (usizeMax, 0)
  (if minLoad = usizeMax then 0 else minLoad, maxLoad)

def CacheAwareConfig.isImbalanced : Bool :=
  let (minLoad, maxLoad) := loadBounds workers
  decide (config.balanceAbsThreshold < maxLoad - minLoad) &&
    Floats.lt (Floats.mul (Floats.ofNat minLoad) config.balanceRelThreshold) (Floats.ofNat maxLoad)

def CacheAwareConfig.isHit (result : PrefixMatchResult) : Bool :=
  let matchRate : F :=
    if result.inputCharCount = 0 then Floats.ofNat 0
    else Floats.div (Floats.ofNat result.matchedCharCount) (Floats.ofNat result.inputCharCount)
  Floats.lt config.cacheThreshold matchRate

def CacheAwarePolicy.selectWorkerMinLoad (requestText : Option (List Char))
    (healthyIndices : List Nat) (treeKey : String) : Option Nat × CacheAwarePolicy F :=
  match healthyIndices.argmin (loadOf workers) with
  | none => (none, p)
  | some minLoadIdx =>
    match requestText, workers[minLoadIdx]? with
    | some text, some w => (some minLoadIdx, p.update treeKey fun tree => tree.insert text w.url)
    | _, _ => (some minLoadIdx, p)

/-- The worker that owns a match; only `is_healthy` is checked. -/
def hitIdx (tenant : String) : Option Nat :=
  (workers.findIdx? fun w => decide (w.url = tenant)).filter fun i =>
    (workers[i]?.map Backend.isHealthy).getD false

def CacheAwarePolicy.selectByMatch (healthyIndices : List Nat) (treeKey : String) (text : List Char)
    (result : PrefixMatchResult) : Option Nat × CacheAwarePolicy F :=
  let selectedIdx :=
    if p.config.isHit result then hitIdx workers result.tenant
    else healthyIndices.argmin (loadOf workers)
  match selectedIdx.bind fun i => workers[i]?.map fun w => (i, w) with
  | some (idx, w) => (some idx, p.update treeKey fun tree => tree.insert text w.url)
  | none =>
    (healthyIndices.head?,
      if p.config.isHit result then p.update treeKey fun tree => tree.removeTenant result.tenant else p)

/-- `select_worker` of the cache-aware policy. -/
def CacheAwarePolicy.selectWorker (c : Choices) (nowMs : Nat) (workers : List Backend)
    (info : SelectWorkerInfo) : Option Nat × CacheAwarePolicy F :=
  let healthyIndices := getHealthyWorkerIndices nowMs workers
  match healthyIndices.head?.bind (workers[·]?) with
  | none => (none, p)
  | some pivot =>
    let treeKey := treeKeyForWorker pivot.toWorker
    if p.config.isImbalanced workers then
      p.selectWorkerMinLoad workers info.requestText healthyIndices treeKey
    else
      let text := info.requestText.getD []
      match p.trees.get? treeKey with
      | some tree =>
        let (result, tree) := { tree with epoch := p.epoch }.prefixMatchWithCounts c.firstTenant text
        (p.put treeKey tree).selectByMatch workers healthyIndices treeKey text result
      | none => (some (c.randomOf healthyIndices), p)

end CacheAware

/-! ## Bucket -/

structure Boundary where
  url : String
  lower : Nat
  upper : Nat
deriving DecidableEq, Repr

structure SequencerRequest where
  id : String
  charCnt : Nat
  timestamp : Nat
  prefillWorkerUrl : String
deriving DecidableEq, Repr

structure Bucket where
  lMax : Nat
  bucketCnt : Nat
  prefillWorkerUrls : List String
  loadTotal : Nat
  period : Nat
  bucketLoad : Nat
  boundary : List Boundary
  requestList : List SequencerRequest
  tReqLoads : Dict String Nat
  charsPerUrl : Dict String Nat

namespace Bucket

def new (period : Nat) : Bucket := ⟨4096, 0, [], 0, period, 0, [], [], .empty, .empty⟩

variable (b : Bucket)

def initPrefillWorkerUrls (urls : List String) : Bucket :=
  let b := { b with
    bucketCnt := urls.length
    prefillWorkerUrls := urls
    charsPerUrl := urls.foldl (fun d url => d.set url 0) .empty }
  if urls.length = 0 then { b with boundary := [] }
  else
    let gap := b.lMax / urls.length
    { b with
      lMax := usizeMax
      boundary := urls.zipIdx.map fun (url, i) =>
        ⟨url, i * gap, if i = urls.length - 1 then usizeMax else usizeAdd ((i + 1) * gap) usizeMax⟩ }

/-- A request is out of the window of `period` milliseconds; times are in nanoseconds. -/
def expired (now : Nat) (req : SequencerRequest) : Bool :=
  if req.timestamp ≤ now then b.period * 1000000 < now - req.timestamp else true

def forget (req : SequencerRequest) : Bucket :=
  { b with
    tReqLoads := b.tReqLoads.erase req.id
    charsPerUrl := b.charsPerUrl.modify req.prefillWorkerUrl (· - req.charCnt) }

def postProcessRequest (id : String) (now charCnt : Nat) (url : String) : Bucket :=
  let b := { b with charsPerUrl := b.charsPerUrl.set url (usizeAdd ((b.charsPerUrl.get? url).getD 0) charCnt) }
  let removed := b.requestList.takeWhile (b.expired now)
  let loadTotal := b.loadTotal - (removed.map SequencerRequest.charCnt).sum
  let rest := b.requestList.dropWhile (b.expired now)
  let b := removed.foldl forget b
  { b with
    tReqLoads := b.tReqLoads.set id charCnt
    requestList := rest ++ [⟨id, charCnt, now, url⟩]
    loadTotal := min (loadTotal + charCnt) usizeMax }

/-- The binary search of `find_boundary`; every round narrows the range. -/
def searchBoundary (boundary : List Boundary) (n : Nat) : Nat → Nat → Nat → Option String
  | 0, _, _ => none
  | fuel + 1, left, right =>
    if left < right then
      let mid := left + (right - left) / 2
      match boundary[mid]? with
      | none => none
      | some b =>
        if n < b.lower then searchBoundary boundary n fuel left mid
        else if b.upper < n then searchBoundary boundary n fuel (mid + 1) right
        else some b.url
    else none

def findBoundary (charCount : Nat) : Option String :=
  searchBoundary b.boundary charCount (b.boundary.length + 1) 0 b.boundary.length

def updateWorkersCnt : Bucket :=
  let added := b.prefillWorkerUrls.filter fun url => !b.charsPerUrl.contains url
  let stale := b.charsPerUrl.keys.filter fun url =>
    decide (url ∉ b.prefillWorkerUrls) && (b.charsPerUrl.get? url == some 0)
  { b with
    bucketCnt := b.prefillWorkerUrls.length
    charsPerUrl := stale.foldl Dict.erase (added.foldl (fun d url => d.set url 0) b.charsPerUrl) }

/-- The load at which the loads from `idx` on add up to that of a bucket, and its index; without one the
    index after the last load. -/
def fillBucket (single : Nat) : Nat → Nat → List Nat → Option Nat × Nat
  | _, idx, [] => (none, idx)
  | acc, idx, load :: loads =>
    if single ≤ usizeAdd acc load then (some load, idx)
    else fillBucket single (usizeAdd acc load) (idx + 1) loads

/-- The loop of `adjust_boundary`. -/
def adjustLoop (single : Nat) (histLoad : List Nat) : List String → Nat → Nat → List Boundary
  | [], _, _ => []
  | url :: urls, upperBound, lastLoadIndex =>
    -- in every branch the last URL takes all that is left
    if urls = [] then [⟨url, upperBound, usizeMax⟩]
    else
      let realLoad := usizeAdd upperBound single
      match fillBucket single 0 lastLoadIndex (histLoad.drop lastLoadIndex) with
      | (some load, idx) =>
        if load ≤ upperBound then
          ⟨url, upperBound, realLoad⟩ :: adjustLoop single histLoad urls (usizeAdd realLoad 1) (idx + 1)
        else ⟨url, upperBound, load⟩ :: adjustLoop single histLoad urls (usizeAdd load 1) (idx + 1)
      | (none, idx) =>
        ⟨url, upperBound, realLoad⟩ :: adjustLoop single histLoad urls (usizeAdd realLoad 1) idx

def adjustBoundary : Bucket :=
  if b.tReqLoads.keys = [] then b
  else
    let b := b.updateWorkersCnt
    if b.bucketCnt = 0 then b
    else
      let single := b.loadTotal / b.bucketCnt
      if single ≤ 2 * b.bucketLoad ∧ b.bucketLoad ≤ 2 * single ∧ b.bucketLoad ≠ 0 then b
      else
        { b with
          bucketLoad := single
          boundary := adjustLoop single (b.tReqLoads.values.mergeSort (· ≤ ·)) b.prefillWorkerUrls 0 0 }

def leastLoaded : List String :=
  (b.charsPerUrl.entries.filter fun x => b.charsPerUrl.entries.all fun y => x.2 ≤ y.2).map Prod.fst

end Bucket

structure BucketConfig (F : Type) where
  balanceAbsThreshold : Nat
  balanceRelThreshold : F
  bucketAdjustIntervalSecs : Nat

structure BucketPolicy (F : Type) where
  config : BucketConfig F
  buckets : Dict String Bucket

namespace BucketPolicy

variable {F : Type} [Floats F]

variable (p : BucketPolicy F)

def entry (modelKey : String) : Bucket :=
  (p.buckets.get? modelKey).getD (.new (p.config.bucketAdjustIntervalSecs * 1000))

/-- `init_prefill_worker_urls`; the groups in the order of their first workers. -/
def initPrefillWorkerUrls (workers : List Worker) : BucketPolicy F :=
  (workers.map fun w => normalizeModelKey w.modelId).dedup.foldl (fun p key =>
    { p with buckets := p.buckets.set key ((p.entry key).initPrefillWorkerUrls
      ((workers.filter fun w => normalizeModelKey w.modelId = key).map Worker.url)) }) p

def addPrefillUrl (w : Worker) : BucketPolicy F :=
  let key := normalizeModelKey w.modelId
  let b := p.entry key
  let urls := if w.url ∈ b.prefillWorkerUrls then b.prefillWorkerUrls else b.prefillWorkerUrls ++ [w.url]
  { p with buckets := p.buckets.set key (b.initPrefillWorkerUrls urls) }

/-- `remove_prefill_url`; without URLs the boundaries stay. -/
def removePrefillUrl (w : Worker) : BucketPolicy F :=
  let key := normalizeModelKey w.modelId
  match p.buckets.get? key with
  | none => p
  | some b =>
    let urls := b.prefillWorkerUrls.filter (· ≠ w.url)
    let b := { b with
      prefillWorkerUrls := urls
      charsPerUrl := b.charsPerUrl.erase w.url
      bucketCnt := urls.length }
    { p with buckets := p.buckets.set key (if 0 < urls.length then b.initPrefillWorkerUrls urls else b) }

def adjustBoundaries : BucketPolicy F :=
  p.buckets.entries.foldl (fun p x => { p with buckets := p.buckets.set x.1 x.2.adjustBoundary }) p

def isImbalanced (b : Bucket) : Bool :=
  let maxLoad := (b.charsPerUrl.values.max?).getD 0
  let minLoad := (b.charsPerUrl.values.min?).getD 0
  decide (p.config.balanceAbsThreshold < maxLoad - minLoad) &&
    Floats.lt (Floats.mul p.config.balanceRelThreshold (Floats.ofNat minLoad)) (Floats.ofNat maxLoad)

def randomUrl (c : Choices) (workers : List Backend) (healthyIndices : List Nat) : String :=
  ((workers[c.randomOf healthyIndices]?).map fun w => w.url).getD ""

def chooseUrl (c : Choices) (b : Bucket) (workers : List Backend) (healthyIndices : List Nat)
    (charCount : Nat) : String :=
  if p.isImbalanced b then
    (b.leastLoaded[c.firstUrl % b.leastLoaded.length]?).getD (randomUrl c workers healthyIndices)
  else
    match b.findBoundary charCount with
    | some url => if url ≠ "" then url else randomUrl c workers healthyIndices
    | none => randomUrl c workers healthyIndices

/-- `select_worker` of the bucket policy. -/
def selectWorker (c : Choices) (nowMs : Nat) (workers : List Backend) (info : SelectWorkerInfo) :
    Option Nat × BucketPolicy F :=
  let healthyIndices := getHealthyWorkerIndices nowMs workers
  match healthyIndices.head?.bind (workers[·]?) with
  | none => (none, p)
  | some first =>
    let charCount := (info.requestText.map List.length).getD 0
    let modelKey := normalizeModelKey first.modelId
    match p.buckets.get? modelKey with
    | some b =>
      let url := p.chooseUrl c b workers healthyIndices charCount
      let b := b.postProcessRequest c.newId (nowMs * 1000000) charCount url
      (workers.findIdx? fun w => w.url = url, { p with buckets := p.buckets.set modelKey b })
    | none =>
      let url := randomUrl c workers healthyIndices
      (workers.findIdx? fun w => w.url = url, p)

end BucketPolicy

/-! ## Hash rings -/

def HashRing.clockwise (ring : HashRing) (key : String) : List String :=
  let start := (ring.entries.takeWhile fun e => decide (e.1 < Crates.hashPosition key)).length
  (ring.entries.rotate start).map Prod.snd

/-- The walk of `find_healthy_url`, with the URLs that were checked. -/
def firstHealthy (isHealthy : String → Bool) : List String → List String → Option String
  | _, [] => none
  | checked, url :: urls =>
    if url ∈ checked then firstHealthy isHealthy checked urls
    else if isHealthy url then some url
    else firstHealthy isHealthy (url :: checked) urls

def HashRing.findHealthyUrl (ring : HashRing) (key : String) (isHealthy : String → Bool) : Option String :=
  if ring.entries = [] then none else firstHealthy isHealthy [] (ring.clockwise key)

def healthyUrlMap (workers : List Backend) : Dict String (Backend × Nat) :=
  (healthyWorkers workers).foldl (fun d x => d.set x.1.url x) .empty

/-! ## Consistent hashing -/

def findByConsistentHash (workers : List Backend) (info : SelectWorkerInfo) (key : String) : Option Nat :=
  let healthyUrlToIdx := healthyUrlMap workers
  if healthyUrlToIdx.keys = [] then none
  else
    match info.hashRing with
    | some ring =>
      (ring.findHealthyUrl key healthyUrlToIdx.contains).bind fun url =>
        (healthyUrlToIdx.get? url).map Prod.snd
    | none =>
      let healthyIndices := (healthyUrlToIdx.values.map Prod.snd).mergeSort (· ≤ ·)
      healthyIndices[Crates.hashPosition key % healthyIndices.length]?

def implicitKey : Option String :=
  ((headers.bind fun h =>
    ((h.get? "authorization").or (h.get? "x-forwarded-for")).or (h.get? "cookie")).bind id).filter (· ≠ "")

/-- The text as an index, if it is a decimal number (with an optional plus sign). -/
def parseUsize (s : String) : Option Nat :=
  let digits := if s.toList.head? = some '+' then s.toList.tail else s.toList
  let n := digits.foldl (fun n ch => 10 * n + (ch.toNat - '0'.toNat)) 0
  if digits ≠ [] ∧ digits.all Char.isDigit ∧ n ≤ usizeMax then some n else none

/-- `select_worker` of the consistent-hashing policy. -/
def selectConsistentHashing (c : Choices) (workers : List Backend) (info : SelectWorkerInfo) : Option Nat :=
  if workers = [] then none
  else
    match extractTargetWorker info.headers with
    | some s => (parseUsize s).filter fun i => (workers[i]?.map Backend.isHealthy).getD false
    | none =>
      match (extractRoutingKey info.headers).or (implicitKey info.headers) with
      | some key => findByConsistentHash workers info key
      | none =>
        let healthy := healthyWorkers workers
        if healthy.length = 0 then none else healthy[c.random % healthy.length]?.map Prod.snd

/-! ## Prefix hash -/

structure PrefixHashConfig (G : Type) where
  prefixTokenCount : Nat
  loadFactor : G

variable {G : Type} [Floats G]

/-- `format!("{:016x}", n)`. -/
def hex16 (n : Nat) : String := String.ofList ((Nat.toDigits 16 n).leftpad 16 '0')

def PrefixHashConfig.loadOk (config : PrefixHashConfig G) (workerLoad totalLoad numWorkers : Nat) : Bool :=
  if totalLoad = 0 ∨ numWorkers = 0 then true
  else
    let avgLoad : G := Floats.div (Floats.ofNat (usizeAdd totalLoad 1)) (Floats.ofNat numWorkers)
    Floats.le (Floats.ofNat workerLoad) (Floats.mul avgLoad config.loadFactor)

def PrefixHashConfig.accepts (config : PrefixHashConfig G) (workers : List Backend) (w : Backend) : Bool :=
  let healthy := healthyWorkers workers
  config.loadOk w.load (healthy.foldl (fun n x => usizeAdd n x.1.load) 0) healthy.length

def PrefixHashConfig.findWorkerWithLoadBalance (config : PrefixHashConfig G) (workers : List Backend)
    (info : SelectWorkerInfo) (prefixHash : Nat) : Option Nat :=
  let healthy := healthyWorkers workers
  if healthy = [] then none
  else
    let urlMap := healthyUrlMap workers
    let initial := info.hashRing.bind fun ring =>
      (ring.findHealthyUrl (hex16 prefixHash) urlMap.contains).bind urlMap.get?
    match initial with
    | some (worker, idx) =>
      if config.accepts workers worker then some idx
      else
        match (healthy.filter fun x => config.accepts workers x.1).argmin fun x => x.1.load with
        | some x => some x.2
        | none => some idx
    | none => (healthy.argmin fun x => x.1.load).map Prod.snd

/-- `select_worker` of the prefix-hash policy. -/
def PrefixHashConfig.selectWorker (config : PrefixHashConfig G) (workers : List Backend)
    (info : SelectWorkerInfo) : Option Nat :=
  if workers = [] then none
  else
    match info.tokens with
    | some tokens =>
      if tokens = [] then none
      else
        config.findWorkerWithLoadBalance workers info (Crates.xxh3 (tokens.take config.prefixTokenCount))
    | none => none

/-! ## Policies -/

inductive Policy (F G : Type) where
  | cacheAware (p : CacheAwarePolicy F)
  | bucket (p : BucketPolicy F)
  | consistentHashing
  | prefixHash (config : PrefixHashConfig G)

variable {F : Type} [Floats F]

def Policy.selectWorker (c : Choices) (nowMs : Nat) (workers : List Backend) (info : SelectWorkerInfo) :
    Policy F G → Option Nat × Policy F G
  | .cacheAware p =>
    let (idx, p) := p.selectWorker c nowMs workers info
    (idx, .cacheAware p)
  | .bucket p =>
    let (idx, p) := p.selectWorker c nowMs workers info
    (idx, .bucket p)
  | .consistentHashing => (selectConsistentHashing c workers info, .consistentHashing)
  | .prefixHash config => (config.selectWorker workers info, .prefixHash config)

/-- What changes the memory of a policy. -/
inductive PolicyEvent where
  | select (c : Choices) (nowMs : Nat) (workers : List Backend) (info : SelectWorkerInfo)
  | initWorkers (workers : List Worker)
  | addWorker (w : Worker)
  | removeWorker (w : Worker)
  | removeWorkerByUrl (url : String)
  | evictCache (nextEntry : List (Nat × TenantId × List Char) → Nat) (maxSize : Nat)
  | adjustBoundary

def Policy.step : Policy F G → PolicyEvent → Option (Policy F G)
  | p, .select c nowMs workers info => some (p.selectWorker c nowMs workers info).2
  | .cacheAware p, .initWorkers workers => some (.cacheAware (p.initWorkers workers))
  | .cacheAware p, .addWorker w => some (.cacheAware (p.addWorker w))
  | .cacheAware p, .removeWorker w => some (.cacheAware (p.removeWorker w))
  | .cacheAware p, .removeWorkerByUrl url => some (.cacheAware (p.removeWorkerByUrl url))
  | .cacheAware p, .evictCache nextEntry maxSize => some (.cacheAware (p.evictCache nextEntry maxSize))
  | .bucket p, .initWorkers workers => some (.bucket (p.initPrefillWorkerUrls workers))
  | .bucket p, .addWorker w => some (.bucket (p.addPrefillUrl w))
  | .bucket p, .removeWorker w => some (.bucket (p.removePrefillUrl w))
  | .bucket p, .adjustBoundary => some (.bucket p.adjustBoundaries)
  | _, _ => none

/-! ## What is asked of a selection -/

/-- `None` exactly when no worker is available, or else the index of an available one. -/
def Right (workers : List Backend) (idx : Option Nat) : Prop :=
  (idx = none ↔ ∀ w ∈ workers, w.isAvailable nowMs = false) ∧
    ∀ i, idx = some i → ∃ w, workers[i]? = some w ∧ w.isAvailable nowMs = true

/-- The URL is that of an available worker. -/
def Serves (workers : List Backend) (url : String) : Prop :=
  ∃ w ∈ workers, w.url = url ∧ w.isAvailable nowMs = true

/-- The first available worker: it tells which tree and which bucket are used. -/
def firstAvailable (workers : List Backend) : Option Backend :=
  workers.find? fun w => w.isAvailable nowMs

/-- On a hit, the worker that owns the match can execute if it is healthy. -/
def CacheAwarePolicy.Trusted (p : CacheAwarePolicy F) (nowMs : Nat) (workers : List Backend)
    (info : SelectWorkerInfo) : Prop :=
  ∀ first tree firstTenant, firstAvailable nowMs workers = some first →
    p.trees.get? (treeKeyForWorker first.toWorker) = some tree →
    p.config.isImbalanced workers = false →
    let result := (Tree.prefixMatchWithCounts firstTenant tree (info.requestText.getD [])).1
    p.config.isHit result = true →
    ∀ w ∈ workers, w.url = result.tenant → w.isHealthy = true → w.circuitBreaker.canExecute nowMs = true

/-- The URL for the length of the text, or out of balance every URL with the fewest characters, is that of
    an available worker. -/
def BucketPolicy.Trusted (p : BucketPolicy F) (nowMs : Nat) (workers : List Backend)
    (info : SelectWorkerInfo) : Prop :=
  ∀ first b, firstAvailable nowMs workers = some first →
    p.buckets.get? (normalizeModelKey first.modelId) = some b →
    if p.isImbalanced b then ∀ url ∈ b.leastLoaded, Serves nowMs workers url
    else ∀ url, b.findBoundary ((info.requestText.map List.length).getD 0) = some url → url ≠ "" →
      Serves nowMs workers url

def healthyUrl (workers : List Backend) (url : String) : Bool :=
  workers.any fun w => w.isHealthy && w.url == url

/-- The first healthy worker on the ring, clockwise from a key. -/
def FirstOnRing (workers : List Backend) (ring : HashRing) (key : String) (w : Backend) : Prop :=
  w ∈ workers ∧ (ring.clockwise key).find? (healthyUrl workers) = some w.url

/-- The healthy worker to which the key leads can execute; without a key, every healthy worker can. -/
def ConsistentHashingTrusted (workers : List Backend) (info : SelectWorkerInfo) : Prop :=
  let healthy := workers.filter Backend.isHealthy
  ∀ w ∈ healthy,
    (match (extractRoutingKey info.headers).or (implicitKey info.headers), info.hashRing with
      | some key, some ring => FirstOnRing workers ring key w
      | some key, none => healthy[Crates.hashPosition key % healthy.length]? = some w
      | none, _ => True) →
    w.circuitBreaker.canExecute nowMs = true

/-- The healthy worker with the least load, the first one of several, can execute if no ring is given; with
    a ring it is the first healthy worker on the ring if its load is acceptable or no load is, and else the
    one with the least acceptable load. -/
def PrefixHashConfig.Trusted (config : PrefixHashConfig G) (nowMs : Nat) (workers : List Backend)
    (info : SelectWorkerInfo) : Prop :=
  let healthy := workers.filter Backend.isHealthy
  let accepted := healthy.filter (config.accepts workers)
  ∀ w ∈ healthy,
    (match info.hashRing with
      | some ring => ∃ first, FirstOnRing workers ring
          (hex16 (Crates.xxh3 ((info.tokens.getD []).take config.prefixTokenCount))) first ∧
          if first ∈ accepted ∨ accepted = [] then w = first else accepted.argmin Backend.load = some w
      | none => healthy.argmin Backend.load = some w) →
    w.circuitBreaker.canExecute nowMs = true

/-- What a policy remembers leads to workers whose circuit breakers allow them. -/
def Policy.Trusted (nowMs : Nat) (workers : List Backend) (info : SelectWorkerInfo) : Policy F G → Prop
  | .cacheAware p => p.Trusted nowMs workers info
  | .bucket p => p.Trusted nowMs workers info
  | .consistentHashing => ConsistentHashingTrusted nowMs workers info
  | .prefixHash config => config.Trusted nowMs workers info

end Gateway
