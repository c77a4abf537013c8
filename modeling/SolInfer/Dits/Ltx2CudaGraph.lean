import SolInfer.Lib.Dict
import SolInfer.Lib.Python

set_option autoImplicit false

/-! # Model calls through a CUDA graph

`_LTX2CudaGraphModelCall` of `ltx_2_denoising.py`. The first calls run the model; the next one captures its
kernels into a graph, without running them, and later ones copy their tensors into static buffers and replay
the graph. The capturing call returns the output buffers before any replay has filled them. -/

open List

namespace Ltx2.CudaGraph

/-! ## Arguments and their key -/

structure TensorInfo where
  shape : List Nat
  dtype : String
  device : String
  requiresGrad : Bool
deriving DecidableEq

/-- A non-tensor argument; a finite float is the rational it denotes. The `repr` of an object need not tell
    what it holds. -/
inductive Value where
  | none
  | bool (b : Bool)
  | int (n : Int)
  | float (q : ℚ)
  | str (s : String)
  | tuple (items : List Value)
  | list (items : List Value)
  | dict (entries : List (String × Value))
  | object (repr : String) (attributes : List (String × Value))

/-- A keyword argument; `T` are the contents of a tensor. -/
inductive Arg (T : Type) where
  | tensor (info : TensorInfo) (data : T)
  | other (v : Value)

/-- What Python code sees of an argument without reading a tensor. -/
def Arg.kind {T : Type} : Arg T → Arg Unit
  | .tensor info _ => .tensor info ()
  | .other v => .other v

/-- A signature, up to Python's equality: `True`, `1` and `1.0` are equal. -/
inductive Signature where
  | none
  | num (q : ℚ)
  | str (s : String)
  | tuple (items : List Signature)

mutual

/-- `_ltx2_cuda_graph_non_tensor_signature`. -/
def nonTensorSignature : Value → Signature
  | .none => .none
  | .bool b => .num (if b then 1 else 0)
  | .int n => .num n
  | .float q => .num q
  | .str s => .str s
  | .tuple items => .tuple (signatures items)
  | .list items => .tuple (signatures items)
  | .dict entries => .tuple (((entrySignatures entries).mergeSort fun a b => decide (a.1 ≤ b.1)).map
      fun e => .tuple [.str e.1, e.2])
  | .object repr _ => .str repr

def signatures : List Value → List Signature
  | [] => []
  | v :: vs => nonTensorSignature v :: signatures vs

def entrySignatures : List (String × Value) → List (String × Signature)
  | [] => []
  | (key, v) :: entries => (key, nonTensorSignature v) :: entrySignatures entries

end

/-- The item of the key for an argument. That of a tensor begins with the text `tensor`, which tells it
    apart. -/
inductive KeyItem where
  | tensor (info : TensorInfo)
  | value (s : Signature)

variable {T : Type}

abbrev Kwargs (T : Type) := Dict String (Arg T)

def keyItem : Arg T → KeyItem
  | .tensor info _ => .tensor info
  | .other v => .value (nonTensorSignature v)

/-- The part of `_ltx2_cuda_graph_key` that depends on the arguments. -/
def cudaGraphKey (modelKwargs : Kwargs T) : List (String × KeyItem) :=
  (modelKwargs.entries.mergeSort fun a b => decide (a.1 ≤ b.1)).map fun e => (e.1, keyItem e.2)

/-! ## The call -/

/-- A model: the Python part of its output does not depend on the contents of tensors; the kernels compute
    the contents of the output tensors. -/
structure Model (T : Type) where
  numOutputs : Nat
  python : (String → Option (Arg Unit)) → Value
  kernels : (String → Option (Arg T)) → Fin numOutputs → T

variable (model : Model T) (kwargs : Kwargs T)

def kinds (name : String) : Option (Arg Unit) := (kwargs.get? name).map Arg.kind

abbrev Model.Output (model : Model T) := Value × (Fin model.numOutputs → T)

/-- `model(**model_kwargs)`. -/
def Model.eager : model.Output :=
  (model.python (kinds kwargs), model.kernels kwargs.get?)

/-- `_LTX2CudaGraphModelCall`; `graph` holds the static arguments at the capture. -/
structure ModelCall (T : Type) where
  warmupRemaining : Nat
  graph : Option (Kwargs T)
  staticKwargs : Kwargs T

/-- The static argument for an argument; `uninit` is what `torch.empty_like` finds in memory. -/
def Arg.emptyLike (uninit : T) : Arg T → Arg T
  | .tensor info _ => .tensor info uninit
  | .other v => .other v

/-- `__init__`. -/
def ModelCall.new (warmupCalls : Nat) (uninit : T) (modelKwargs : Kwargs T) : ModelCall T where
  warmupRemaining := warmupCalls
  graph := none
  staticKwargs := modelKwargs.entries.foldl (fun d e => d.set e.1 (e.2.emptyLike uninit)) Dict.empty

/-- One round of `_copy_inputs`. -/
def copyInput (static : Kwargs T) (e : String × Arg T) : Except PyError (Kwargs T) :=
  match static.get? e.1, e.2 with
  | none, _ => .error (.keyError e.1)
  | some (.tensor info _), .tensor _ data => .ok (static.set e.1 (.tensor info data))
  | some (.other _), .tensor _ _ => .error (.assertionError "")
  | some _, .other v => .ok (static.set e.1 (.other v))

def copyInputs (static modelKwargs : Kwargs T) : Except PyError (Kwargs T) :=
  modelKwargs.entries.foldlM copyInput static

/-- What the kernels of a graph read: the static buffers as they are now, and the other arguments as they
    were at the capture. -/
def graphArgs (captured static : Kwargs T) (name : String) : Option (Arg T) :=
  match captured.get? name with
  | some (.tensor _ _) => static.get? name
  | arg => arg

/-- `__call__`; `memory` is what the output buffers hold that the capture allocates. -/
def ModelCall.call (memory : Fin model.numOutputs → T) (s : ModelCall T) (modelKwargs : Kwargs T) :
    Except PyError (model.Output × ModelCall T) :=
  match s.graph with
  | none =>
    if 0 < s.warmupRemaining then
      .ok (model.eager modelKwargs, { s with warmupRemaining := s.warmupRemaining - 1 })
    else do
      let static ← copyInputs s.staticKwargs modelKwargs
      return ((model.python (kinds static), memory), { s with graph := some static, staticKwargs := static })
  | some captured => do
    let static ← copyInputs s.staticKwargs modelKwargs
    return ((model.python (kinds captured), model.kernels (graphArgs captured static)),
      { s with staticKwargs := static })

def ModelCall.calls (model : Model T) (memory : Fin model.numOutputs → T) :
    ModelCall T → List (Kwargs T) → Except PyError (List model.Output)
  | _, [] => .ok []
  | s, c :: rest => do
    let (out, s) ← s.call model memory c
    let outs ← s.calls model memory rest
    return out :: outs

/-! ## Copying -/

def itemAt (name : String) : Option KeyItem := (kwargs.get? name).map keyItem

/-- Arguments with the same names and the same tensors, up to their contents. -/
def Alike (a b : Kwargs T) : Prop :=
  ∀ name, (itemAt a name).isSome = (itemAt b name).isSome ∧
    ∀ info, itemAt a name = some (.tensor info) ↔ itemAt b name = some (.tensor info)

theorem mem_cudaGraphKey {kwargs : Kwargs T} {name : String} {item : KeyItem} :
    (name, item) ∈ cudaGraphKey kwargs ↔ itemAt kwargs name = some item := by
  simp only [cudaGraphKey, mem_map, mem_mergeSort, itemAt, Option.map_eq_some_iff]
  constructor
  · rintro ⟨⟨n, arg⟩, hmem, heq⟩
    cases heq
    exact ⟨arg, Dict.mem_entries.1 hmem, rfl⟩
  · rintro ⟨arg, hget, rfl⟩
    exact ⟨(name, arg), Dict.mem_entries.2 hget, rfl⟩

theorem alike_of_key {a b : Kwargs T} (h : cudaGraphKey a = cudaGraphKey b) : Alike a b := by
  have hitem : ∀ name, itemAt a name = itemAt b name := by
    intro name
    refine Option.ext fun item => ?_
    rw [← mem_cudaGraphKey, h, mem_cudaGraphKey]
  exact fun name => by rw [hitem]; exact ⟨rfl, fun _ => Iff.rfl⟩

theorem foldlM_copyInput {l : List (String × Arg T)} (hnodup : (l.map Prod.fst).Nodup) {static : Kwargs T}
    (h : ∀ e ∈ l, (itemAt static e.1).isSome ∧
      ∀ info, keyItem e.2 = .tensor info → itemAt static e.1 = some (.tensor info)) :
    ∃ static', l.foldlM copyInput static = .ok static' ∧
      ∀ name, static'.get? name = (Dict.lookup name l).or (static.get? name) := by
  induction l generalizing static with
  | nil => exact ⟨static, rfl, fun _ => rfl⟩
  | cons e rest ih =>
    obtain ⟨hnot, hnodup⟩ := nodup_cons.1 hnodup
    obtain ⟨hsome, htensor⟩ := h e mem_cons_self
    have hstep : copyInput static e = .ok (static.set e.1 e.2) := by
      obtain ⟨name, arg⟩ := e
      obtain ⟨item, hitem⟩ := Option.isSome_iff_exists.1 hsome
      obtain ⟨old, hold, -⟩ := Option.map_eq_some_iff.1 hitem
      rw [copyInput, show static.get? (name, arg).1 = some old from hold]
      cases arg with
      | other v => cases old <;> rfl
      | tensor info data =>
        have hinfo := htensor info rfl
        rw [itemAt, show static.get? (name, Arg.tensor info data).1 = some old from hold] at hinfo
        cases old with
        | other v => cases hinfo
        | tensor info' data' => cases hinfo; rfl
    have hkeep : ∀ e' ∈ rest, itemAt (static.set e.1 e.2) e'.1 = itemAt static e'.1 := by
      intro e' he'
      rw [itemAt, itemAt, Dict.get?_set_of_ne]
      rintro heq
      exact hnot (heq ▸ mem_map_of_mem he')
    obtain ⟨static', hrun, hget⟩ := ih hnodup (fun e' he' => by
      rw [hkeep e' he']
      exact h e' (.tail _ he'))
    refine ⟨static', by rw [foldlM_cons, hstep]; exact hrun, fun name => ?_⟩
    rw [hget, Dict.get?_set, Dict.lookup]
    by_cases hname : e.1 = name
    · have hnone : Dict.lookup name rest = none := Dict.lookup_eq_none.2 (hname ▸ hnot)
      simp [hname, hnone]
    · simp [hname]

theorem copyInputs_eq {static kwargs : Kwargs T} (h : Alike static kwargs) :
    ∃ static', copyInputs static kwargs = .ok static' ∧ ∀ name, static'.get? name = kwargs.get? name := by
  have hitems : ∀ e ∈ kwargs.entries, itemAt kwargs e.1 = some (keyItem e.2) :=
    fun e he => congrArg (Option.map keyItem) (Dict.mem_entries.1 he)
  obtain ⟨static', hrun, hget⟩ := foldlM_copyInput kwargs.nodup (fun e he => by
    refine ⟨by rw [(h e.1).1, hitems e he]; rfl, fun info hinfo => ?_⟩
    rw [(h e.1).2, hitems e he, hinfo])
  refine ⟨static', hrun, fun name => ?_⟩
  rw [hget]
  cases hk : kwargs.get? name with
  | some arg => exact congrArg (Option.or · _) hk
  | none =>
    have hstatic : (itemAt static name).isSome = false := by
      rw [(h name).1, itemAt, hk]
      rfl
    rw [show Dict.lookup name kwargs.entries = none from hk, Option.none_or]
    simpa [itemAt] using hstatic

theorem Alike.congr_left {a a' b : Kwargs T} (h : Alike a b) (heq : ∀ name, a'.get? name = a.get? name) :
    Alike a' b := fun name => by rw [itemAt, heq]; exact h name

/-! ## The outputs -/

variable (model : Model T) (memory : Fin model.numOutputs → T) {s : ModelCall T} {c : Kwargs T}

/-- What a replay of the graph captured by one call returns for another. -/
def replayed (captured kwargs : Kwargs T) : model.Output :=
  (model.python (kinds captured), model.kernels (graphArgs captured kwargs))

theorem kinds_congr {a b : Kwargs T} (h : ∀ name, a.get? name = b.get? name) : kinds a = kinds b :=
  funext fun name => congrArg (Option.map Arg.kind) (h name)

theorem calls_cons {s' : ModelCall T} {rest : List (Kwargs T)} {out : model.Output}
    {outs : List model.Output} (hcall : s.call model memory c = .ok (out, s'))
    (hrest : s'.calls model memory rest = .ok outs) :
    s.calls model memory (c :: rest) = .ok (out :: outs) := by
  rw [ModelCall.calls, hcall]
  exact Except.bind_eq_ok.2 ⟨(out, s'), rfl, Except.bind_eq_ok.2 ⟨outs, hrest, rfl⟩⟩

theorem calls_of_graph {captured : Kwargs T} (l : List (Kwargs T)) {graph : Kwargs T}
    (hgraph : s.graph = some graph) (heq : ∀ name, graph.get? name = captured.get? name)
    (halike : ∀ c ∈ l, Alike s.staticKwargs c) (hl : ∀ c ∈ l, ∀ d ∈ l, Alike c d) :
    s.calls model memory l = .ok (l.map (replayed model captured)) := by
  induction l generalizing s with
  | nil => rfl
  | cons c rest ih =>
    obtain ⟨static, hcopy, hget⟩ := copyInputs_eq (halike c mem_cons_self)
    have hout : replayed model captured c
        = (model.python (kinds graph), model.kernels (graphArgs graph static)) := by
      rw [replayed, kinds_congr heq]
      refine congrArg (fun args => (_, model.kernels args)) (funext fun name => ?_)
      rw [graphArgs, graphArgs, heq, hget]
    have hcall : s.call model memory c
        = .ok (replayed model captured c, { s with staticKwargs := static }) := by
      rw [ModelCall.call, hgraph, hout]
      exact Except.bind_eq_ok.2 ⟨static, hcopy, rfl⟩
    refine calls_cons model memory hcall (ih hgraph (fun d hd => ?_) (fun d hd d' hd' => ?_))
    · exact (hl c mem_cons_self d (.tail _ hd)).congr_left hget
    · exact hl d (.tail _ hd) d' (.tail _ hd')

/-- The outputs of all calls: those of the model in the warm-up, the memory of the output buffers at the
    capture, and replays after it. -/
theorem calls_of_warmup (w : Nat) (l : List (Kwargs T)) (hgraph : s.graph = none)
    (hw : s.warmupRemaining = w) (halike : ∀ c ∈ l, Alike s.staticKwargs c)
    (hl : ∀ c ∈ l, ∀ d ∈ l, Alike c d) :
    s.calls model memory l = .ok ((l.take w).map model.eager ++ match l.drop w with
      | [] => []
      | c :: rest => (model.python (kinds c), memory) :: rest.map (replayed model c)) := by
  induction l generalizing s w with
  | nil => simp [ModelCall.calls]
  | cons c rest ih =>
    have hrest : ∀ d ∈ rest, ∀ d' ∈ rest, Alike d d' :=
      fun d hd d' hd' => hl d (.tail _ hd) d' (.tail _ hd')
    cases w with
    | zero =>
      obtain ⟨static, hcopy, hget⟩ := copyInputs_eq (halike c mem_cons_self)
      have hcall : s.call model memory c = .ok ((model.python (kinds c), memory),
          { s with graph := some static, staticKwargs := static }) := by
        rw [ModelCall.call, hgraph, ← kinds_congr hget]
        simp only [hw, lt_irrefl, if_false]
        exact Except.bind_eq_ok.2 ⟨static, hcopy, rfl⟩
      refine calls_cons model memory hcall (calls_of_graph model memory rest rfl hget ?_ hrest)
      exact fun d hd => (hl c mem_cons_self d (.tail _ hd)).congr_left hget
    | succ w =>
      have hcall : s.call model memory c
          = .ok (model.eager c, { s with warmupRemaining := s.warmupRemaining - 1 }) := by
        rw [ModelCall.call, hgraph]
        exact if_pos (hw ▸ Nat.succ_pos w)
      refine calls_cons model memory hcall (ih w hgraph ?_ (fun d hd => ?_) hrest)
      · exact congrArg (· - 1) hw
      · exact halike d (.tail _ hd)

/-! ## Which calls return what the model would -/

/-- Whatever the model is and the memory holds, call `i` returns what the model returns for its arguments. -/
def ReturnsEager (w : Nat) (calls : List (Kwargs T)) (i : Nat) : Prop :=
  ∀ (model : Model T) (memory : Fin model.numOutputs → T) (uninit : T) (first c : Kwargs T),
    calls.head? = some first → calls[i]? = some c →
    ∃ outs, (ModelCall.new w uninit first).calls model memory calls = .ok outs ∧
      outs[i]? = some (model.eager c)

def SameValues (a b : Kwargs T) : Prop :=
  ∀ name v, a.get? name = some (.other v) ↔ b.get? name = some (.other v)

theorem alike_new (w : Nat) (uninit : T) (kwargs : Kwargs T) :
    Alike (ModelCall.new w uninit kwargs).staticKwargs kwargs := by
  have hentries : (ModelCall.new w uninit kwargs).staticKwargs.entries
      = kwargs.entries.map fun e => (e.1, e.2.emptyLike uninit) :=
    Dict.entries_foldl_set kwargs.nodup nofun
  have hitem : ∀ name, itemAt (ModelCall.new w uninit kwargs).staticKwargs name = itemAt kwargs name := by
    intro name
    rw [itemAt, Dict.get?, hentries, Dict.lookup_map, Option.map_map]
    refine congrArg (Option.map · _) (funext fun arg => ?_)
    cases arg <;> rfl
  exact fun name => by rw [hitem]; exact ⟨rfl, fun _ => Iff.rfl⟩

theorem replayed_eq {captured : Kwargs T} (halike : Alike captured c) (hvalues : SameValues captured c) :
    replayed model captured c = model.eager c := by
  have hname : ∀ name, kinds captured name = kinds c name ∧ graphArgs captured c name = c.get? name := by
    intro name
    obtain ⟨hsome, htensor⟩ := halike name
    rw [kinds, kinds, graphArgs]
    cases hc : captured.get? name with
    | none =>
      rw [itemAt, itemAt, hc] at hsome
      cases hd : c.get? name with
      | none => exact ⟨rfl, rfl⟩
      | some arg => rw [hd] at hsome; cases hsome
    | some arg =>
      cases arg with
      | other v => rw [(hvalues name v).1 hc]; exact ⟨rfl, rfl⟩
      | tensor info data =>
        obtain ⟨arg, harg, hitem⟩ := Option.map_eq_some_iff.1
          ((htensor info).1 (by rw [itemAt, hc]; rfl))
        rw [harg]
        cases arg with
        | other v => cases hitem
        | tensor info' data' => cases hitem; exact ⟨rfl, rfl⟩
  rw [replayed, Model.eager, funext fun name => (hname name).1, funext fun name => (hname name).2]

theorem exists_output {w : Nat} {calls : List (Kwargs T)}
    (hkey : ∀ c ∈ calls, ∀ d ∈ calls, cudaGraphKey c = cudaGraphKey d) {uninit : T} {first : Kwargs T}
    (hfirst : calls.head? = some first) {i : Nat} (hi : calls[i]? = some c) :
    ∃ outs, (ModelCall.new w uninit first).calls model memory calls = .ok outs ∧
      (i < w → outs[i]? = some (model.eager c)) ∧
      (i = w → outs[i]? = some (model.python (kinds c), memory)) ∧
      ∀ captured, calls[w]? = some captured → w < i → outs[i]? = some (replayed model captured c) := by
  have halike : ∀ c ∈ calls, ∀ d ∈ calls, Alike c d := fun c hc d hd => alike_of_key (hkey c hc d hd)
  have hstatic : ∀ c ∈ calls, Alike (ModelCall.new w uninit first).staticKwargs c := by
    intro c hc name
    have hnew := alike_new w uninit first name
    have hcall := halike first (mem_of_head? hfirst) c hc name
    exact ⟨hnew.1.trans hcall.1, fun info => (hnew.2 info).trans (hcall.2 info)⟩
  refine ⟨_, calls_of_warmup model memory w calls rfl rfl hstatic halike, ?_⟩
  obtain ⟨hlt, hget⟩ := List.getElem?_eq_some_iff.1 hi
  refine ⟨fun hw => ?_, ?_⟩
  · rw [List.getElem?_append_left (by simp; omega), List.getElem?_map, List.getElem?_take_of_lt hw, hi]
    rfl
  · by_cases hle : w ≤ i
    · have hw : w < calls.length := by omega
      have hlen : ((calls.take w).map model.eager).length = w := by simp; omega
      rw [getElem?_append_right (hlen.symm ▸ hle), hlen, drop_eq_getElem_cons hw]
      refine ⟨?_, fun captured hcaptured hwi => ?_⟩
      · rintro rfl
        rw [Nat.sub_self, hget]
        rfl
      · obtain ⟨k, rfl⟩ := Nat.exists_eq_add_of_lt hwi
        rw [getElem?_eq_getElem hw] at hcaptured
        cases hcaptured
        rw [show w + k + 1 - w = k + 1 by omega, getElem?_cons_succ, getElem?_map,
          getElem?_drop, show w + 1 + k = w + k + 1 by omega, hi]
        rfl
    · exact ⟨fun h => absurd h.ge hle, fun _ _ h => absurd h.le hle⟩

/-- The value of a non-tensor argument, boxed. -/
def shown : Option (Arg Unit) → Value
  | some (.other v) => .tuple [v]
  | _ => .none

theorem shown_eq {kwargs : Kwargs T} {name : String} {v : Value} :
    shown (kinds kwargs name) = .tuple [v] ↔ kwargs.get? name = some (.other v) := by
  rw [kinds]
  rcases kwargs.get? name with _ | ⟨info, data⟩ | u <;> simp [shown, Arg.kind]

/-- **A call returns what the model would exactly when it is a warm-up call, or a replay with the non-tensor
    values of the capturing call**, for any calls that share their key; the capturing call does not. -/
theorem returnsEager_iff [Nontrivial T] {w : Nat} {calls : List (Kwargs T)}
    (hkey : ∀ c ∈ calls, ∀ d ∈ calls, cudaGraphKey c = cudaGraphKey d) {i : Nat} {c : Kwargs T}
    (hi : calls[i]? = some c) :
    ReturnsEager w calls i ↔
      i < w ∨ w < i ∧ ∃ captured, calls[w]? = some captured ∧ SameValues captured c := by
  obtain ⟨a, b, hab⟩ := exists_pair_ne T
  constructor
  · intro h
    obtain ⟨first, hfirst⟩ : ∃ first, calls.head? = some first := by
      cases calls with
      | nil => cases hi
      | cons first rest => exact ⟨first, rfl⟩
    rcases lt_trichotomy i w with hw | rfl | hw
    · exact .inl hw
    · -- a constant model and other contents of the output buffer
      obtain ⟨outs, hrun, heager⟩ := h ⟨1, fun _ => .none, fun _ _ => a⟩ (fun _ => b) a first c hfirst hi
      obtain ⟨outs', hrun', -, hcapture, -⟩ :=
        exists_output ⟨1, fun _ => .none, fun _ _ => a⟩ (fun _ => b) hkey hfirst hi
      rw [hrun] at hrun'
      cases hrun'
      rw [hcapture rfl] at heager
      exact absurd (congrFun (congrArg Prod.snd (Option.some.inj heager)) 0).symm hab
    · obtain ⟨captured, hcaptured⟩ : ∃ captured, calls[w]? = some captured :=
        ⟨_, List.getElem?_eq_getElem (hw.trans (List.getElem?_eq_some_iff.1 hi).1)⟩
      refine .inr ⟨hw, captured, hcaptured, fun name => ?_⟩
      -- a model that returns the value of the name
      obtain ⟨outs, hrun, heager⟩ :=
        h ⟨0, fun k => shown (k name), fun _ j => j.elim0⟩ (fun j => j.elim0) a first c hfirst hi
      obtain ⟨outs', hrun', -, -, hreplay⟩ :=
        exists_output ⟨0, fun k => shown (k name), fun _ j => j.elim0⟩ (fun j => j.elim0) hkey hfirst hi
      rw [hrun] at hrun'
      cases hrun'
      rw [hreplay captured hcaptured hw] at heager
      have hshown : shown (kinds captured name) = shown (kinds c name) :=
        congrArg Prod.fst (Option.some.inj heager)
      intro v
      rw [← shown_eq, hshown, shown_eq]
  · rintro (hw | ⟨hw, captured, hcaptured, hvalues⟩) model memory uninit first c' hfirst hi'
    · obtain ⟨outs, hrun, heager, -⟩ := exists_output model memory hkey hfirst hi'
      exact ⟨outs, hrun, heager hw⟩
    · obtain ⟨outs, hrun, -, -, hreplay⟩ := exists_output model memory hkey hfirst hi'
      rw [hi] at hi'
      cases hi'
      have halike := alike_of_key (hkey captured (mem_of_getElem? hcaptured) c (mem_of_getElem? hi))
      exact ⟨outs, hrun, by rw [hreplay captured hcaptured hw, replayed_eq model halike hvalues]⟩

def tensorCall (n : Nat) : Kwargs Nat :=
  Dict.empty.set "x" (.tensor ⟨[1], "float32", "cuda:0", false⟩ n)

theorem cudaGraphKey_tensorCall (n : Nat) :
    cudaGraphKey (tensorCall n) = [("x", .tensor ⟨[1], "float32", "cuda:0", false⟩)] := by
  rw [cudaGraphKey, show (tensorCall n).entries = [("x", _)] from rfl, mergeSort_singleton]
  rfl

theorem returnsEager_replay :
    ReturnsEager 1 [tensorCall 3, tensorCall 4, tensorCall 5] 2 ∧
      ¬ ReturnsEager 1 [tensorCall 3, tensorCall 4, tensorCall 5] 1 := by
  have hkey : ∀ c ∈ [tensorCall 3, tensorCall 4, tensorCall 5],
      ∀ d ∈ [tensorCall 3, tensorCall 4, tensorCall 5], cudaGraphKey c = cudaGraphKey d := by
    intro c hc d hd
    fin_cases hc <;> fin_cases hd <;> simp only [cudaGraphKey_tensorCall]
  refine ⟨(returnsEager_iff hkey rfl).2 (.inr ⟨by decide, tensorCall 4, rfl, fun name v => ?_⟩),
    fun h => ?_⟩
  · simp [tensorCall, Dict.get?_set]
  · rcases (returnsEager_iff hkey (c := tensorCall 4) rfl).1 h with hw | ⟨hw, -⟩
    · exact absurd hw (by decide)
    · exact absurd hw (by decide)

/-- After one warm-up call, the call that captures the graph returns whatever its output buffer held. -/
theorem capture_returns_memory :
    let model : Model Nat := ⟨1, fun _ => .none, fun args _ => match args "x" with
      | some (.tensor _ n) => n + 1
      | _ => 0⟩
    ∃ outs, (ModelCall.new 1 0 (tensorCall 3)).calls model (fun _ => 77) [tensorCall 3, tensorCall 4] = .ok outs ∧
      (outs.map fun out => out.2 0) = [4, 77] ∧ (model.eager (tensorCall 4)).2 0 = 5 ∧
      cudaGraphKey (tensorCall 3) = cudaGraphKey (tensorCall 4) :=
  ⟨_, rfl, rfl, rfl, by rw [cudaGraphKey_tensorCall, cudaGraphKey_tensorCall]⟩

end Ltx2.CudaGraph
