import SolInfer.Lib.Run
import SolInfer.Lib.Tally
import SolInfer.Lora.Registry

set_option autoImplicit false

/-! # LoRA adapters stay loaded while they are in use

An id is looked up under the writer lock and counted later. As long as no adapter is unregistered between
the two, every counter is the number of acquisitions that are granted and not released, and the backend
keeps an adapter until its counter is zero. -/

open List Dict

namespace Lora

open Tally

/-! ## What the tasks hold -/

namespace Acquire

/-- The ids that are counted and not given to a `release`. -/
def held : Acquire → List String
  | .counting held _ => held
  | _ => []

def pending : Acquire → List (String × Nat)
  | .counting _ pending => pending
  | _ => []

/-- The ids that are looked up and not counted. -/
def uncounted : Acquire → List String
  | .lookedUp ids => ids
  | .counting _ pending => pending.map Prod.fst
  | _ => []

theorem mem_uncounted_of_pending {t : Acquire} {p : String × Nat} (h : p ∈ t.pending) :
    p.1 ∈ t.uncounted := by
  cases t with
  | counting held pending => exact mem_map_of_mem h
  | _ => cases h

end Acquire

variable {t : Release}

namespace Release

/-- The ids whose decrements are to come. -/
def held : Release → List String
  | .requested ids => ids
  | .entered ids => ids
  | .decrementing pending => pending.map Prod.fst
  | _ => []

def pending : Release → List (String × Nat)
  | .decrementing pending => pending
  | _ => []

theorem mem_held_of_pending {p : String × Nat} (h : p ∈ t.pending) : p.1 ∈ t.held := by
  cases t with
  | decrementing pending => exact mem_map_of_mem h
  | _ => cases h

end Release

/-- The number of acquisitions of an id that are granted and not released. -/
def State.granted (st : State) (id : String) : Nat :=
  tally Acquire.held st.acquires id + tally Release.held st.releases id

def LoRARegistry.Registered (r : LoRARegistry) (id : String) : Prop :=
  ∃ name ref, r.registry.get? name = some ref ∧ ref.loraId = id

/-! ## The registry -/

variable {ids : List String} {id : String}

namespace LoRARegistry

variable {r : LoRARegistry}

theorem get?_moveToEnd (r : LoRARegistry) (name name' : String) :
    (r.moveToEnd name).registry.get? name' = r.registry.get? name' := by
  rw [moveToEnd]
  split
  next ref href =>
    rw [get?_set, get?_erase]
    split
    next heq => rw [← heq, href]
    · rfl
  · rfl

/-- Registries that differ in the order of the adapters only. -/
structure SameUpToOrder (r r' : LoRARegistry) : Prop where
  get? : ∀ name, r'.registry.get? name = r.registry.get? name
  counters : r'.counters = r.counters
  heap : r'.heap = r.heap

theorem SameUpToOrder.refl (r : LoRARegistry) : SameUpToOrder r r := ⟨fun _ => rfl, rfl, rfl⟩

theorem sameUpToOrder_readers (r : LoRARegistry) (readers : Nat) :
    SameUpToOrder r { r with readers := readers } := ⟨fun _ => rfl, rfl, rfl⟩

theorem SameUpToOrder.registered {r r' : LoRARegistry} (h : SameUpToOrder r r') :
    r'.Registered id ↔ r.Registered id := by
  simp only [Registered, h.get?]

theorem sameUpToOrder_moveToEnd (r : LoRARegistry) (name : String) :
    SameUpToOrder r (r.moveToEnd name) := by
  refine ⟨get?_moveToEnd r name, ?_, ?_⟩ <;> rw [moveToEnd] <;> split <;> rfl

theorem SameUpToOrder.trans {r₁ r₂ r₃ : LoRARegistry} (h : SameUpToOrder r₁ r₂)
    (h' : SameUpToOrder r₂ r₃) : SameUpToOrder r₁ r₃ :=
  ⟨fun name => (h'.get? name).trans (h.get? name), h'.counters.trans h.counters, h'.heap.trans h.heap⟩

theorem sameUpToOrder_getUnregisteredLoras (names : List String) (r : LoRARegistry) :
    SameUpToOrder r (r.getUnregisteredLoras names) := by
  induction names generalizing r with
  | nil => exact SameUpToOrder.refl r
  | cons name rest ih => exact (sameUpToOrder_moveToEnd r name).trans (ih (r.moveToEnd name))

theorem lookupAll_spec (names : List (Option String)) (r : LoRARegistry) :
    SameUpToOrder r (r.lookupAll names).1 ∧
    (∀ ids, (r.lookupAll names).2 = .ok ids → ∀ id ∈ ids, r.Registered id) ∧
    ∀ e, (r.lookupAll names).2 = .error e → ∃ name, some name ∈ names ∧
      r.registry.get? name = none ∧ ∃ r' : LoRARegistry, e = r'.notLoaded name := by
  induction names generalizing r with
  | nil =>
    refine ⟨SameUpToOrder.refl r, fun ids hids id hid => ?_, fun e he => ?_⟩
    · cases hids
      cases hid
    · cases he
  | cons first rest ih =>
    cases first with
    | none =>
      obtain ⟨hsame, hok, herror⟩ := ih r
      refine ⟨hsame, hok, fun e he => ?_⟩
      obtain ⟨name, hmem, hrest⟩ := herror e he
      exact ⟨name, mem_cons_of_mem _ hmem, hrest⟩
    | some name =>
      rw [lookupAll]
      cases hget : r.registry.get? name with
      | none =>
        refine ⟨SameUpToOrder.refl r, fun ids hids => ?_, fun e he => ?_⟩
        · cases hids
        · cases he
          exact ⟨name, mem_cons_self, hget, r, rfl⟩
      | some ref =>
        obtain ⟨hsame, hok, herror⟩ := ih (r.moveToEnd name)
        refine ⟨(sameUpToOrder_moveToEnd r name).trans hsame, fun ids hids id hid => ?_, fun e he => ?_⟩
        · obtain ⟨ids', hids', rfl⟩ := Except.map_eq_ok.1 hids
          rcases mem_cons.1 hid with rfl | hid
          · exact ⟨name, ref, hget, rfl⟩
          · obtain ⟨name', ref', hget', rfl⟩ := hok ids' hids' id hid
            exact ⟨name', ref', (get?_moveToEnd r name name').symm.trans hget', rfl⟩
        · obtain ⟨name', hmem, hnone, hmsg⟩ := herror e (Except.map_eq_error.1 he)
          exact ⟨name', mem_cons_of_mem _ hmem, (get?_moveToEnd r name name').symm.trans hnone, hmsg⟩

theorem counterObjects_spec (h : ∀ id ∈ ids, id ∈ r.counters.keys) :
    ∃ pending, r.counterObjects ids = .ok pending ∧ pending.map Prod.fst = ids ∧
      ∀ p ∈ pending, r.counters.get? p.1 = some p.2 := by
  induction ids with
  | nil => exact ⟨[], rfl, rfl, nofun⟩
  | cons id rest ih =>
    obtain ⟨a, ha⟩ := Dict.mem_keys.1 (h id mem_cons_self)
    obtain ⟨ps, hps, hfst, hget⟩ := ih fun id' hid' => h id' (.tail _ hid')
    refine ⟨(id, a) :: ps, ?_, by rw [map_cons, hfst], forall_mem_cons.2 ⟨ha, hget⟩⟩
    rw [counterObjects, mapM_cons, ha]
    exact Except.bind_eq_ok.2 ⟨(id, a), rfl, Except.bind_eq_ok.2 ⟨ps, hps, rfl⟩⟩

end LoRARegistry

/-! ## The invariant -/

def missingCounter : PyError → Bool
  | .keyError _ => true
  | .assertionError msg =>
    msg = "The LoRA ID should still have a counter if it has been registered before."
  | _ => false

/-- What holds of the load or unload that has the lock. -/
def UpdateInv (reg : LoRARegistry) (backend minted : List String) : Update → Prop
  | .loading ref => ref.loraId ∉ reg.counters.keys ∧ ref.loraId ∈ minted
  | .registering ref => ref.loraId ∉ reg.counters.keys ∧ ref.loraId ∈ minted ∧ ref.loraId ∈ backend
  | .unregistered id _ => id ∈ reg.counters.keys ∧ ¬ reg.Registered id
  | .waiting id a _ => reg.counters.get? id = some a ∧ ¬ reg.Registered id
  | .unloading id _ => id ∉ reg.counters.keys
  | _ => True

/-- What holds of a call of `acquire`. -/
structure AcquireInv (r : LoRARegistry) (t : Acquire) : Prop where
  /-- An id between its lookup and its counting is registered. -/
  uncounted : ∀ id ∈ t.uncounted, r.Registered id
  pending : ∀ p ∈ t.pending, r.counters.get? p.1 = some p.2
  raised : ∀ e, t = .raised e → missingCounter e = false

/-- What holds of a call of `release`. -/
structure ReleaseInv (r : LoRARegistry) (t : Release) : Prop where
  pending : ∀ p ∈ t.pending, r.counters.get? p.1 = some p.2
  raised : ∀ e, t = .raised e → missingCounter e = false

structure Inv (st : State) : Prop where
  /-- Every counter is the number of acquisitions. -/
  counter : ∀ id a, st.reg.counters.get? id = some a → st.reg.heap[a]? = some (st.granted id : Int)
  counter_inj : ∀ id id' a, st.reg.counters.get? id = some a → st.reg.counters.get? id' = some a → id = id'
  registered : ∀ id, st.reg.Registered id → id ∈ st.reg.counters.keys ∧ id ∈ st.backend
  registered_inj : ∀ name name' ref ref', st.reg.registry.get? name = some ref →
    st.reg.registry.get? name' = some ref' → ref.loraId = ref'.loraId → name = name'
  acquires : ∀ t ∈ st.acquires, AcquireInv st.reg t
  releases : ∀ t ∈ st.releases, ReleaseInv st.reg t
  granted : ∀ id, 0 < st.granted id → id ∈ st.reg.counters.keys ∧ id ∈ st.backend
  minted : ∀ id ∈ st.reg.counters.keys, id ∈ st.minted
  update : UpdateInv st.reg st.backend st.minted st.update
  updateErrors : ∀ e ∈ st.updateErrors, missingCounter e = false

theorem inv_new : Inv State.new where
  counter := nofun
  counter_inj := nofun
  registered := nofun
  registered_inj := nofun
  acquires := nofun
  releases := nofun
  granted := nofun
  minted := nofun
  update := trivial
  updateErrors := nofun

variable {st st' : State} {reg : LoRARegistry} {i k : Nat}

/-! ## Steps that change what the tasks do -/

section

variable {r r' : LoRARegistry} (hsame : r.SameUpToOrder r')
include hsame

theorem AcquireInv.congr {t : Acquire} (h : AcquireInv r t) : AcquireInv r' t where
  uncounted id hid := hsame.registered.2 (h.uncounted id hid)
  pending := by rw [hsame.counters]; exact h.pending
  raised := h.raised

theorem ReleaseInv.congr (h : ReleaseInv r t) : ReleaseInv r' t where
  pending := by rw [hsame.counters]; exact h.pending
  raised := h.raised

theorem updateInv_congr {backend minted : List String} (u : Update) :
    UpdateInv r' backend minted u ↔ UpdateInv r backend minted u := by
  cases u <;> simp only [UpdateInv, hsame.registered, hsame.counters]

end

section

variable (h : Inv st)
include h

section

variable (hsame : st.reg.SameUpToOrder reg)
include hsame

theorem Inv.retask {acquires : List Acquire} {releases : List Release}
    (hacquires : ∀ t ∈ acquires, AcquireInv st.reg t)
    (hreleases : ∀ t ∈ releases, ReleaseInv st.reg t)
    (hgranted : ∀ id, tally Acquire.held acquires id + tally Release.held releases id = st.granted id) :
    Inv { st with reg := reg, acquires := acquires, releases := releases } where
  counter id a ha := by
    rw [hsame.counters] at ha
    show reg.heap[a]? = some ((tally Acquire.held acquires id + tally Release.held releases id : Nat) : Int)
    rw [hgranted, hsame.heap]
    exact h.counter id a ha
  counter_inj := by rw [hsame.counters]; exact h.counter_inj
  registered id hid := by rw [hsame.counters]; exact h.registered id (hsame.registered.1 hid)
  registered_inj := by simp only [hsame.get?]; exact h.registered_inj
  acquires t ht := (hacquires t ht).congr hsame
  releases t ht := (hreleases t ht).congr hsame
  granted id hid := by
    rw [hsame.counters]
    exact h.granted id ((hgranted id).symm ▸ hid)
  minted := by rw [hsame.counters]; exact h.minted
  update := (updateInv_congr hsame st.update).2 h.update
  updateErrors := h.updateErrors

theorem Inv.setAcquire {t t' : Acquire} (hi : st.acquires[i]? = some t) (ht' : AcquireInv st.reg t')
    (hheld : t'.held = t.held) : Inv { st with reg := reg, acquires := st.acquires.set i t' } := by
  refine h.retask hsame (Run.forall_mem_set h.acquires ht' i) h.releases fun id => ?_
  rw [tally_set_of_count Acquire.held hi (fun a => by rw [hheld])]
  rfl

theorem Inv.setRelease {t' : Release} (hk : st.releases[k]? = some t) (ht' : ReleaseInv st.reg t')
    (hheld : t'.held = t.held) : Inv { st with reg := reg, releases := st.releases.set k t' } := by
  refine h.retask hsame h.acquires (Run.forall_mem_set h.releases ht' k) fun id => ?_
  rw [tally_set_of_count Release.held hk (fun a => by rw [hheld])]
  rfl

end

theorem Inv.lookup (hstep : st.lookup i = some st') : Inv st' := by
  rw [State.lookup] at hstep
  split at hstep
  next path hi =>
    split at hstep
    · obtain ⟨hsame, hok, herror⟩ := LoRARegistry.lookupAll_spec path.names st.reg
      split at hstep
      next reg ids hres =>
        rw [hres] at hsame hok
        cases hstep
        exact h.setAcquire hsame hi ⟨hok ids rfl, nofun, nofun⟩ rfl
      next reg e hres =>
        rw [hres] at hsame herror
        cases hstep
        refine h.setAcquire hsame hi ⟨fun id hid => ?_, fun p hp => ?_, fun e' he => ?_⟩ rfl
        · cases hid
        · cases hp
        · obtain ⟨name, -, -, r', rfl⟩ := herror e rfl
          cases he
          rfl
    · cases hstep
  · cases hstep

/-- Every id that is looked up has a counter, so that counting does not raise. -/
theorem Inv.startCounting_eq (hstep : st.startCounting i = some st') :
    ∃ ids pending, st.acquires[i]? = some (.lookedUp ids) ∧ pending.map Prod.fst = ids ∧
      (∀ p ∈ pending, st.reg.counters.get? p.1 = some p.2) ∧
      st' = { st with acquires := st.acquires.set i (.counting [] pending) } := by
  rw [State.startCounting] at hstep
  split at hstep
  next ids hi =>
    have hinv := h.acquires _ (mem_of_getElem? hi)
    obtain ⟨pending, hpending, hfst, hget⟩ := LoRARegistry.counterObjects_spec fun id (hid : id ∈ ids) =>
      (h.registered id (hinv.uncounted id hid)).1
    rw [hpending] at hstep
    exact ⟨ids, pending, hi, hfst, hget, (Option.some.inj hstep).symm⟩
  · cases hstep

theorem Inv.startCounting (hstep : st.startCounting i = some st') : Inv st' := by
  obtain ⟨ids, pending, hi, hfst, hget, rfl⟩ := h.startCounting_eq hstep
  have hinv := h.acquires _ (mem_of_getElem? hi)
  refine h.setAcquire (LoRARegistry.SameUpToOrder.refl _) hi
    ⟨fun id hid => hinv.uncounted id ?_, hget, nofun⟩ rfl
  exact hfst ▸ hid

theorem Inv.acquire (path : LoraPath) : Inv { st with acquires := st.acquires ++ [.requested path] } := by
  refine h.retask (LoRARegistry.SameUpToOrder.refl _) ?_ h.releases fun id => ?_
  · exact forall_mem_append.2 ⟨h.acquires, forall_mem_singleton.2 ⟨nofun, nofun, nofun⟩⟩
  · rw [tally_append]
    rfl

theorem Inv.release (hstep : st.release i ids = some st') : Inv st' := by
  rw [State.release] at hstep
  split at hstep
  next held hi =>
    split at hstep
    next hsub =>
      cases hstep
      refine h.retask (LoRARegistry.SameUpToOrder.refl _) (Run.forall_mem_set h.acquires ?_ i) ?_ fun id => ?_
      · exact ⟨nofun, nofun, nofun⟩
      · exact forall_mem_append.2 ⟨h.releases, forall_mem_singleton.2 ⟨nofun, nofun⟩⟩
      · -- the ids move from the request to the release
        have hmoved := tally_set Acquire.held hi (.counting (held.diff ids) []) id
        have hle := hsub.count_le id
        rw [tally_append, State.granted]
        simp only [Acquire.held, Release.held, count_diff] at hmoved ⊢
        omega
    · cases hstep
  · cases hstep

theorem Inv.enterReader (hstep : st.enterReader k = some st') : Inv st' := by
  rw [State.enterReader] at hstep
  split at hstep
  next ids hk =>
    cases hstep
    exact h.setRelease (LoRARegistry.sameUpToOrder_readers _ _) hk ⟨nofun, nofun⟩ rfl
  · cases hstep

end

theorem granted_of_release (hk : st.releases[k]? = some t) (hid : id ∈ t.held) : 0 < st.granted id :=
  Nat.add_pos_right _ (tally_pos Release.held (mem_of_getElem? hk) hid)

theorem Inv.startDecrementing (h : Inv st) (hstep : st.startDecrementing k = some st') : Inv st' := by
  rw [State.startDecrementing] at hstep
  split at hstep
  next ids hk =>
    obtain ⟨pending, hpending, hfst, hget⟩ := LoRARegistry.counterObjects_spec fun id (hid : id ∈ ids) =>
      (h.granted id (granted_of_release hk hid)).1
    rw [hpending] at hstep
    cases hstep
    exact h.setRelease (LoRARegistry.SameUpToOrder.refl _) hk ⟨hget, nofun⟩ hfst
  · cases hstep

theorem Inv.exitReader (h : Inv st) (hstep : st.exitReader k = some st') : Inv st' := by
  rw [State.exitReader] at hstep
  split at hstep
  next hk =>
    cases hstep
    exact h.setRelease (LoRARegistry.sameUpToOrder_readers _ _) hk ⟨nofun, nofun⟩ rfl
  · cases hstep

/-! ## Counting -/

theorem getElem?_add (r : LoRARegistry) (n : Int) (a b : Nat) :
    (r.add n a).heap[b]? = if a = b then r.heap[b]?.map (· + n) else r.heap[b]? := by
  rw [LoRARegistry.add, getElem?_modify]
  split <;> simp

section

variable (h : Inv st)
include h

/-- A step that counts for one id: its counter and its acquisitions change together. -/
theorem Inv.count {a : Nat} (ha : st.reg.counters.get? id = some a) {n : Int}
    {acquires : List Acquire} {releases : List Release}
    (hacquires : ∀ t ∈ acquires, AcquireInv st.reg t)
    (hreleases : ∀ t ∈ releases, ReleaseInv st.reg t) (hbackend : id ∈ st.backend)
    (hgranted : ∀ id', ((tally Acquire.held acquires id' + tally Release.held releases id' : Nat) : Int)
      = st.granted id' + if id = id' then n else 0) :
    Inv { st with reg := st.reg.add n a, acquires := acquires, releases := releases } where
  __ := h
  counter id' b hb := by
    show (st.reg.add n a).heap[b]?
      = some ((tally Acquire.held acquires id' + tally Release.held releases id' : Nat) : Int)
    rw [getElem?_add, hgranted, h.counter id' b hb]
    by_cases hid : id = id'
    · subst hid
      rw [if_pos (Option.some.inj (ha.symm.trans hb)), if_pos rfl]
      rfl
    · rw [if_neg (fun hab : a = b => hid (h.counter_inj id id' b (hab ▸ ha) hb)), if_neg hid, add_zero]
  acquires t ht := { hacquires t ht with }
  releases t ht := { hreleases t ht with }
  granted id' hid' := by
    by_cases hid : id = id'
    · exact hid ▸ ⟨Dict.mem_keys.2 ⟨a, ha⟩, hbackend⟩
    · have heq := hgranted id'
      rw [if_neg hid, add_zero, Nat.cast_inj] at heq
      exact h.granted id' (heq ▸ hid')

theorem Inv.increment {j : Nat} (hstep : st.increment i j = some st') : Inv st' := by
  rw [State.increment] at hstep
  split at hstep
  next held pending hi =>
    split at hstep
    next id a hj =>
      cases hstep
      have hinv := h.acquires _ (mem_of_getElem? hi)
      have hp : (id, a) ∈ pending := mem_of_getElem? hj
      have ha : st.reg.counters.get? id = some a := hinv.pending _ hp
      have hreg := h.registered id (hinv.uncounted id (mem_map_of_mem hp))
      have hmoved := tally_set Acquire.held hi (.counting (id :: held) (pending.eraseIdx j))
      simp only [Acquire.held, count_cons, beq_iff_eq] at hmoved
      have hsub := eraseIdx_sublist pending j
      refine h.count ha (Run.forall_mem_set h.acquires ?_ i) h.releases hreg.2 fun id' => ?_
      · exact ⟨fun id' hid' => hinv.uncounted id' ((hsub.map Prod.fst).subset hid'),
          fun p hp => hinv.pending p (hsub.subset hp), nofun⟩
      · have := hmoved id'
        rw [State.granted]
        split_ifs at this ⊢ <;> omega
    · cases hstep
  · cases hstep

theorem Inv.decrement {j : Nat} (hstep : st.decrement k j = some st') : Inv st' := by
  rw [State.decrement] at hstep
  split at hstep
  next pending hk =>
    split at hstep
    next id a hj =>
      cases hstep
      have hinv := h.releases _ (mem_of_getElem? hk)
      have hp : (id, a) ∈ pending := mem_of_getElem? hj
      have ha : st.reg.counters.get? id = some a := hinv.pending _ hp
      have hbackend := (h.granted id (granted_of_release hk (mem_map_of_mem hp))).2
      have hmoved := tally_set Release.held hk (.decrementing (pending.eraseIdx j))
      simp only [Release.held, count_map_eraseIdx hj] at hmoved
      refine h.count ha h.acquires (Run.forall_mem_set h.releases ?_ k) hbackend fun id' => ?_
      · exact ⟨fun p hp => hinv.pending p ((eraseIdx_sublist pending j).subset hp), nofun⟩
      · have := hmoved id'
        rw [State.granted]
        split_ifs at this ⊢ <;> omega
    · cases hstep
  · cases hstep

/-! ## Loads and unloads -/

theorem Inv.withUpdate {u : Update} (hu : UpdateInv st.reg st.backend st.minted u) :
    Inv { st with update := u } := { h with update := hu }

theorem Inv.failUpdate {e : PyError} (he : missingCounter e = false) : Inv (st.failUpdate e) := by
  refine { h with update := trivial, updateErrors := fun e' he' => ?_ }
  rcases mem_cons.1 he' with rfl | he'
  · exact he
  · exact h.updateErrors e' he'

theorem Inv.load {ref : LoRARef} (hstep : st.load ref = some st') : Inv st' := by
  rw [State.load] at hstep
  split at hstep
  next hfree =>
    cases hstep
    have hnew : ref.loraId ∉ st.reg.counters.keys := fun hmem => hfree.2 (h.minted _ hmem)
    exact { h with
      minted := fun id hid => mem_cons_of_mem _ (h.minted id hid)
      update := ⟨hnew, mem_cons_self⟩ }
  · cases hstep

theorem Inv.backendLoaded {success : Bool} (hstep : st.backendLoaded success = some st') : Inv st' := by
  rw [State.backendLoaded] at hstep
  split at hstep
  next ref hupdate =>
    have hu := h.update
    rw [hupdate] at hu
    split at hstep
    · cases hstep
      exact { h with
        registered := fun id hid => (h.registered id hid).imp_right (mem_cons_of_mem _)
        granted := fun id hid => (h.granted id hid).imp_right (mem_cons_of_mem _)
        update := ⟨hu.1, hu.2, mem_cons_self⟩ }
    · cases hstep
      exact h.withUpdate trivial
  · cases hstep

theorem Inv.registerAdapter {ref : LoRARef} (hnew : ref.loraId ∉ st.reg.counters.keys)
    (hminted : ref.loraId ∈ st.minted) (hbackend : ref.loraId ∈ st.backend)
    (hreg : st.reg.registerAdapter ref = .ok reg) :
    Inv { st with reg := reg, update := .makingRoom } := by
  rw [LoRARegistry.registerAdapter] at hreg
  split at hreg
  · cases hreg
  next hname =>
  cases hreg
  have hfree : st.reg.registry.get? ref.loraName = none := by
    rw [Dict.contains, Option.not_isSome_iff_eq_none] at hname
    exact hname
  -- the counters and names of before stay, and the new ones meet none of them
  have hget : ∀ id a, st.reg.counters.get? id = some a →
      (st.reg.counters.set ref.loraId st.reg.heap.length).get? id = some a := by
    refine fun id a ha => Dict.get?_set_eq_some.2 (.inr ⟨?_, ha⟩)
    rintro rfl
    exact hnew (Dict.mem_keys.2 ⟨a, ha⟩)
  have hkeep : ∀ name ref', st.reg.registry.get? name = some ref' →
      (st.reg.registry.set ref.loraName ref).get? name = some ref' := by
    refine fun name ref' href => Dict.get?_set_eq_some.2 (.inr ⟨?_, href⟩)
    rintro rfl
    rw [hfree] at href
    cases href
  have hlt : ∀ id a, st.reg.counters.get? id = some a → a < st.reg.heap.length :=
    fun id a ha => (List.getElem?_eq_some_iff.1 (h.counter id a ha)).1
  have hold : ∀ name ref', st.reg.registry.get? name = some ref' → ref'.loraId ≠ ref.loraId :=
    fun name ref' href heq => hnew (heq ▸ (h.registered _ ⟨name, ref', href, rfl⟩).1)
  have hkeys : ∀ id ∈ st.reg.counters.keys,
      id ∈ (st.reg.counters.set ref.loraId st.reg.heap.length).keys :=
    fun id hid => Dict.mem_keys_set.2 (.inr hid)
  have hzero : st.granted ref.loraId = 0 :=
    Nat.eq_zero_of_not_pos fun hpos => hnew (h.granted _ hpos).1
  constructor
  · intro id a ha
    show (st.reg.heap ++ [0])[a]? = some (st.granted id : Int)
    rcases Dict.get?_set_eq_some.1 ha with ⟨rfl, rfl⟩ | ⟨-, ha⟩
    · rw [hzero, getElem?_concat_length]
      rfl
    · rw [getElem?_append_left (hlt id a ha)]
      exact h.counter id a ha
  · intro id id' a ha ha'
    rcases Dict.get?_set_eq_some.1 ha with ⟨rfl, rfl⟩ | ⟨-, ha⟩ <;>
      rcases Dict.get?_set_eq_some.1 ha' with ⟨rfl, hlen⟩ | ⟨-, ha'⟩
    · rfl
    · exact absurd (hlt id' _ ha') (lt_irrefl _)
    · exact absurd (hlt id a ha) (hlen ▸ lt_irrefl _)
    · exact h.counter_inj id id' a ha ha'
  · rintro id ⟨name, ref', href, rfl⟩
    rcases Dict.get?_set_eq_some.1 href with ⟨rfl, rfl⟩ | ⟨-, href⟩
    · exact ⟨Dict.mem_keys_set.2 (.inl rfl), hbackend⟩
    · have := h.registered _ ⟨name, ref', href, rfl⟩
      exact ⟨hkeys _ this.1, this.2⟩
  · intro name₁ name₂ ref₁ ref₂ h₁ h₂ heq
    rcases Dict.get?_set_eq_some.1 h₁ with ⟨rfl, rfl⟩ | ⟨-, hold₁⟩ <;>
      rcases Dict.get?_set_eq_some.1 h₂ with ⟨rfl, rfl⟩ | ⟨-, hold₂⟩
    · rfl
    · exact absurd heq.symm (hold name₂ ref₂ hold₂)
    · exact absurd heq (hold name₁ ref₁ hold₁)
    · exact h.registered_inj _ _ _ _ hold₁ hold₂ heq
  · intro t ht
    refine ⟨fun id hid => ?_, fun p hp => hget _ _ ((h.acquires t ht).pending p hp), (h.acquires t ht).raised⟩
    obtain ⟨name, ref', href, rfl⟩ := (h.acquires t ht).uncounted id hid
    exact ⟨name, ref', hkeep name ref' href, rfl⟩
  · intro t ht
    exact ⟨fun p hp => hget _ _ ((h.releases t ht).pending p hp), (h.releases t ht).raised⟩
  · exact fun id hid => ⟨hkeys id (h.granted id hid).1, (h.granted id hid).2⟩
  · intro id hid
    rcases Dict.mem_keys_set.1 hid with rfl | hid
    · exact hminted
    · exact h.minted id hid
  · trivial
  · exact h.updateErrors

theorem Inv.register (hstep : st.register = some st') : Inv st' := by
  rw [State.register] at hstep
  split at hstep
  next ref hupdate =>
    have hu := h.update
    rw [hupdate] at hu
    split at hstep
    · split at hstep
      next reg hreg =>
        cases hstep
        exact h.registerAdapter hu.1 hu.2.1 hu.2.2 hreg
      next e he =>
        cases hstep
        rw [LoRARegistry.registerAdapter] at he
        split at he
        · cases he
          exact h.failUpdate rfl
        · cases he
    · cases hstep
  · cases hstep

theorem Inv.makeRoom {maxLoadedLoras : Option Nat} (hstep : st.makeRoom maxLoadedLoras = some st') :
    Inv st' := by
  rw [State.makeRoom] at hstep
  split at hstep
  · split at hstep
    · cases hstep
      exact h.withUpdate trivial
    · split at hstep
      · cases hstep
        exact h.withUpdate trivial
      · cases hstep
        exact h.failUpdate rfl
  · cases hstep

end

/-- An unregistering step while an id of that adapter is looked up and not counted. -/
def interrupts (st : State) : Event → Bool
  | .unregister =>
    match st.update with
    | .unregistering name _ =>
      match st.reg.registry.get? name with
      | some ref => st.acquires.any fun t => t.uncounted.contains ref.loraId
      | none => false
    | _ => false
  | _ => false

theorem Inv.unregister (h : Inv st) (hcond : interrupts st .unregister = false)
    (hstep : st.unregister = some st') : Inv st' := by
  rw [State.unregister] at hstep
  split at hstep
  next name evicting hupdate =>
    split at hstep
    · rw [LoRARegistry.unregister] at hstep
      cases hget : st.reg.registry.get? name with
      | none =>
        rw [hget] at hstep
        cases hstep
        exact h.failUpdate rfl
      | some ref =>
        rw [hget] at hstep
        cases hstep
        have hclear : ∀ t ∈ st.acquires, ref.loraId ∉ t.uncounted := by
          simpa [interrupts, hupdate, hget] using hcond
        refine { h with
          registered := ?_
          registered_inj := ?_
          acquires := fun t ht => ?_
          releases := fun t ht => { h.releases t ht with }
          update := ⟨(h.registered _ ⟨name, ref, hget, rfl⟩).1, ?_⟩ }
        · rintro id ⟨name', ref', href, rfl⟩
          exact h.registered _ ⟨name', ref', (Dict.get?_erase_eq_some.1 href).2, rfl⟩
        · exact fun name₁ name₂ ref₁ ref₂ h₁ h₂ =>
            h.registered_inj _ _ _ _ (Dict.get?_erase_eq_some.1 h₁).2 (Dict.get?_erase_eq_some.1 h₂).2
        · refine ⟨fun id hid => ?_, (h.acquires t ht).pending, (h.acquires t ht).raised⟩
          obtain ⟨name', ref', href, rfl⟩ := (h.acquires t ht).uncounted id hid
          refine ⟨name', ref', Dict.get?_erase_eq_some.2 ⟨?_, href⟩, rfl⟩
          rintro rfl
          rw [hget] at href
          cases href
          exact hclear t ht hid
        · rintro ⟨name', ref', href, heq⟩
          obtain ⟨hne, href⟩ := Dict.get?_erase_eq_some.1 href
          exact hne (h.registered_inj _ _ _ _ href hget heq)
    · cases hstep
  · cases hstep

theorem Inv.startWaiting (h : Inv st) (hstep : st.startWaiting = some st') : Inv st' := by
  rw [State.startWaiting] at hstep
  split at hstep
  next id evicting hupdate =>
    have hu := h.update
    rw [hupdate] at hu
    split at hstep
    · cases hstep
      exact h.failUpdate (by decide)
    · obtain ⟨a, ha⟩ := Dict.mem_keys.1 hu.1
      rw [ha] at hstep
      cases hstep
      exact h.withUpdate ⟨ha, hu.2⟩
  · cases hstep

theorem Inv.deleteCounter (h : Inv st) (hstep : st.deleteCounter = some st') : Inv st' := by
  rw [State.deleteCounter] at hstep
  split at hstep
  next id a evicting hupdate =>
    have hu := h.update
    rw [hupdate] at hu
    obtain ⟨ha, hnot⟩ := hu
    split at hstep
    next hzero =>
      rw [if_pos (by rw [Dict.contains, ha]; rfl)] at hstep
      cases hstep
      have hfree : st.granted id = 0 := by
        have := (h.counter id a ha).symm.trans hzero
        simpa using this
      -- no other id loses its counter, and nothing waits for this one
      have hold : ∀ {id' b}, (st.reg.counters.erase id).get? id' = some b →
          st.reg.counters.get? id' = some b := fun hb => (Dict.get?_erase_eq_some.1 hb).2
      have hkeys : ∀ id', id' ≠ id → id' ∈ st.reg.counters.keys →
          id' ∈ (st.reg.counters.erase id).keys := by
        intro id' hne hmem
        obtain ⟨b, hb⟩ := Dict.mem_keys.1 hmem
        exact Dict.mem_keys.2 ⟨b, Dict.get?_erase_eq_some.2 ⟨hne, hb⟩⟩
      have hregistered : ∀ id', st.reg.Registered id' → id' ≠ id := by
        rintro id' hreg rfl
        exact hnot hreg
      have hgranted : ∀ id', 0 < st.granted id' → id' ≠ id := by
        rintro id' hpos rfl
        omega
      refine ⟨fun id' b hb => h.counter id' b (hold hb),
        fun id₁ id₂ b h₁ h₂ => h.counter_inj _ _ b (hold h₁) (hold h₂),
        fun id' hreg => ⟨hkeys id' (hregistered id' hreg) (h.registered id' hreg).1,
          (h.registered id' hreg).2⟩, h.registered_inj, fun t ht => ?_, fun t ht => ?_,
        fun id' hpos => ⟨hkeys id' (hgranted id' hpos) (h.granted id' hpos).1, (h.granted id' hpos).2⟩,
        fun id' hmem => ?_, ?_, h.updateErrors⟩
      · refine ⟨(h.acquires t ht).uncounted, fun p hp => ?_, (h.acquires t ht).raised⟩
        have hne := hregistered p.1 ((h.acquires t ht).uncounted p.1 (Acquire.mem_uncounted_of_pending hp))
        exact Dict.get?_erase_eq_some.2 ⟨hne, (h.acquires t ht).pending p hp⟩
      · refine ⟨fun p hp => Dict.get?_erase_eq_some.2 ⟨hgranted p.1 ?_, (h.releases t ht).pending p hp⟩,
          (h.releases t ht).raised⟩
        exact Nat.add_pos_right _ (tally_pos Release.held ht (Release.mem_held_of_pending hp))
      · obtain ⟨b, hb⟩ := Dict.mem_keys.1 hmem
        exact h.minted id' (Dict.mem_keys.2 ⟨b, hold hb⟩)
      · exact Dict.get?_eq_none.1 (get?_erase_self _ id)
    · cases hstep
  · cases hstep

theorem Inv.dropAdapter (h : Inv st) (hid : id ∉ st.reg.counters.keys) {u : Update}
    (hu : ∀ backend, UpdateInv st.reg backend st.minted u) :
    Inv { st with backend := st.backend.filter (· ≠ id), update := u } := by
  have hkeep : ∀ id', id' ∈ st.reg.counters.keys ∧ id' ∈ st.backend →
      id' ∈ st.reg.counters.keys ∧ id' ∈ st.backend.filter (· ≠ id) := by
    rintro id' ⟨hmem, hback⟩
    refine ⟨hmem, mem_filter.2 ⟨hback, decide_eq_true ?_⟩⟩
    rintro rfl
    exact hid hmem
  exact { h with
    registered := fun id' h' => hkeep id' (h.registered id' h')
    granted := fun id' h' => hkeep id' (h.granted id' h')
    update := hu _ }

theorem Inv.backendUnloaded (h : Inv st) {error : Option String}
    (hstep : st.backendUnloaded error = some st') : Inv st' := by
  rw [State.backendUnloaded] at hstep
  split at hstep
  next id evicting hupdate =>
    have hu := h.update
    rw [hupdate] at hu
    cases error with
    | none =>
      cases evicting with
      | none => cases hstep; exact h.dropAdapter hu fun _ => trivial
      | some name => cases hstep; exact h.dropAdapter hu fun _ => trivial
    | some message =>
      cases evicting with
      | none => cases hstep; exact h.withUpdate trivial
      | some name => cases hstep; exact h.failUpdate rfl
  · cases hstep

/-! ## The results -/

variable {maxLoadedLoras : Option Nat} {e : Event}

theorem Inv.step (h : Inv st) (hcond : interrupts st e = false)
    (hstep : step maxLoadedLoras st e = some st') : Inv st' := by
  cases e with
  | acquire path => cases hstep; exact h.acquire path
  | lookup i => exact h.lookup hstep
  | startCounting i => exact h.startCounting hstep
  | increment i j => exact h.increment hstep
  | release i ids => exact h.release hstep
  | enterReader k => exact h.enterReader hstep
  | startDecrementing k => exact h.startDecrementing hstep
  | decrement k j => exact h.decrement hstep
  | exitReader k => exact h.exitReader hstep
  | getUnregisteredLoras names =>
    rw [Lora.step] at hstep
    split at hstep
    · cases hstep
      exact h.retask (LoRARegistry.sameUpToOrder_getUnregisteredLoras names st.reg) h.acquires
        h.releases fun _ => rfl
    · cases hstep
  | load ref => exact h.load hstep
  | backendLoaded success => exact h.backendLoaded hstep
  | register => exact h.register hstep
  | makeRoom => exact h.makeRoom hstep
  | unload loraName =>
    rw [Lora.step, State.unload] at hstep
    split at hstep
    · cases hstep
      exact h.withUpdate trivial
    · cases hstep
  | unregister => exact h.unregister hcond hstep
  | startWaiting => exact h.startWaiting hstep
  | deleteCounter => exact h.deleteCounter hstep
  | backendUnloaded error => exact h.backendUnloaded hstep

/-- A call of `acquire` raises at the lookup, for a name that is not registered, and no counter changes. -/
def RaisesOnlyUnregistered (maxLoadedLoras : Option Nat) (st : State) : Prop :=
  ∀ (e : Event) (st' : State) (i : Nat) (err : PyError), step maxLoadedLoras st e = some st' →
    st'.acquires[i]? = some (.raised err) → st.acquires[i]? ≠ some (.raised err) →
    ∃ (path : LoraPath) (name : String), st.acquires[i]? = some (.requested path) ∧
      some name ∈ path.names ∧ st.reg.registry.get? name = none ∧
      (∃ r : LoRARegistry, err = r.notLoaded name) ∧
      st'.reg.counters = st.reg.counters ∧ st'.reg.heap = st.reg.heap

/-- The guarantees for adapters in use. -/
structure Safe (maxLoadedLoras : Option Nat) (st : State) : Prop where
  raises : RaisesOnlyUnregistered maxLoadedLoras st
  /-- An adapter stays loaded from the acquisition to the release. -/
  loaded : ∀ id, 0 < st.granted id → id ∈ st.backend
  /-- Every counter is the number of acquisitions that are granted and not released. -/
  counted : ∀ id a, st.reg.counters.get? id = some a → st.reg.heap[a]? = some (st.granted id : Int)
  /-- No operation has failed because a counter is missing. -/
  noneMissing : ∀ err, .raised err ∈ st.acquires ∨ .raised err ∈ st.releases ∨ err ∈ st.updateErrors →
    missingCounter err = false

theorem acquires_step (hstep : step maxLoadedLoras st e = some st') :
    st'.acquires = st.acquires ∨ (∃ path, st'.acquires = st.acquires ++ [.requested path]) ∨
      ∃ i t', st'.acquires = st.acquires.set i t' ∧
        ∀ err, t' = .raised err → e = .lookup i ∨ e = .startCounting i := by
  cases e
  case acquire path =>
    cases hstep
    exact .inr (.inl ⟨path, rfl⟩)
  all_goals
    simp only [Lora.step, State.lookup, State.startCounting, State.increment, State.release,
      State.enterReader, State.startDecrementing, State.decrement, State.exitReader, State.load,
      State.backendLoaded, State.register, State.makeRoom, State.unload, State.unregister,
      State.startWaiting, State.deleteCounter, State.backendUnloaded] at hstep
    repeat' split at hstep
    all_goals cases hstep
    all_goals first
      | exact .inl rfl
      | exact .inr (.inr ⟨_, _, rfl, fun _ _ => .inl rfl⟩)
      | exact .inr (.inr ⟨_, _, rfl, fun _ _ => .inr rfl⟩)
      | exact .inr (.inr ⟨_, _, rfl, nofun⟩)

theorem raises_lookup {err : PyError} (hstep : st.lookup i = some st')
    (hi : i < st.acquires.length) (heq : st'.acquires = st.acquires.set i (.raised err)) :
    ∃ (path : LoraPath) (name : String), st.acquires[i]? = some (.requested path) ∧
      some name ∈ path.names ∧ st.reg.registry.get? name = none ∧
      (∃ r : LoRARegistry, err = r.notLoaded name) ∧
      st'.reg.counters = st.reg.counters ∧ st'.reg.heap = st.reg.heap := by
  have hself : st'.acquires[i]? = some (.raised err) := by rw [heq, getElem?_set_self hi]
  rw [State.lookup] at hstep
  split at hstep
  next path hpath =>
    split at hstep
    · obtain ⟨hsame, -, herror⟩ := LoRARegistry.lookupAll_spec path.names st.reg
      split at hstep
      · cases hstep
        rw [getElem?_set_self hi] at hself
        cases hself
      next reg e hres =>
        rw [hres] at hsame herror
        cases hstep
        rw [getElem?_set_self hi] at hself
        cases hself
        obtain ⟨name, hmem, hnone, hmsg⟩ := herror err rfl
        exact ⟨path, name, hpath, hmem, hnone, hmsg, hsame.counters, hsame.heap⟩
    · cases hstep
  · cases hstep

theorem Inv.startCounting_ne_raised (h : Inv st) {err : PyError}
    (hstep : st.startCounting i = some st') : st'.acquires[i]? ≠ some (.raised err) := by
  obtain ⟨ids, pending, hi, -, -, rfl⟩ := h.startCounting_eq hstep
  rw [List.getElem?_set_self (List.getElem?_eq_some_iff.1 hi).1]
  intro heq
  cases heq

theorem Inv.raises (h : Inv st) : RaisesOnlyUnregistered maxLoadedLoras st := by
  intro e st' i err hstep hraised hbefore
  rcases acquires_step hstep with heq | ⟨path, heq⟩ | ⟨j, t', heq, hevent⟩
  · rw [heq] at hraised
    exact absurd hraised hbefore
  · rw [heq, getElem?_append] at hraised
    split at hraised
    · exact absurd hraised hbefore
    · have := mem_of_getElem? hraised
      cases mem_singleton.1 this
  · rw [heq, getElem?_set] at hraised
    split at hraised
    next hij =>
      subst hij
      split at hraised
      next hlt =>
        cases hraised
        rcases hevent err rfl with rfl | rfl
        · exact raises_lookup hstep hlt heq
        · exact absurd (heq ▸ getElem?_set_self hlt) (h.startCounting_ne_raised hstep)
      · cases hraised
    · exact absurd hraised hbefore

theorem Inv.safe (h : Inv st) : Safe maxLoadedLoras st where
  raises := h.raises
  loaded id hid := (h.granted id hid).2
  counted := h.counter
  noneMissing err hraised := by
    rcases hraised with hraised | hraised | hraised
    · exact (h.acquires _ hraised).raised err rfl
    · exact (h.releases _ hraised).raised err rfl
    · exact h.updateErrors err hraised

/-- **In every run in which no adapter is unregistered while one of its ids is looked up and not counted,
    an adapter is not unloaded while it is in use, every counter is right, and none is missing.** -/
theorem safe_of_no_interrupt
    (h : Run.Reaches (step maxLoadedLoras) (fun st e => interrupts st e = false) State.new st) :
    Safe maxLoadedLoras st :=
  (h.invariant inv_new (fun _ _ _ hs hcond hstep => hs.step hcond hstep)).safe

/-! ## Two runs -/

def loadAdapter : List Event := [.load ⟨"1", "a", false⟩, .backendLoaded true, .register, .makeRoom]

/-- A request acquires the adapter, which is then unregistered; the unload waits for the release. -/
def sharedRun : List Event :=
  loadAdapter ++ [.acquire (.many [some "a", none]), .lookup 0, .startCounting 0, .increment 0 0,
    .unload "a", .unregister, .startWaiting, .acquire (.one "a"), .lookup 1]

def sharedState : State :=
  (Run.exec (fun st e => if interrupts st e = false then step none st e else none)
    State.new sharedRun).getD State.new

theorem safe_sharedRun :
    (sharedState.granted "1" = 1 ∧ sharedState.deleteCounter = none) ∧ Safe none sharedState := by
  have hrun : Run.exec (fun st e => if interrupts st e = false then step none st e else none)
      State.new sharedRun = some sharedState := by decide +kernel
  exact ⟨by decide +kernel, safe_of_no_interrupt (Run.reaches_of_exec_guarded hrun)⟩

/-- The adapter is unloaded between the lookup of its counter and the increment. -/
def interruptedRun : List Event :=
  loadAdapter ++ [.acquire (.many [some "a"]), .lookup 0, .startCounting 0,
    .unload "a", .unregister, .startWaiting, .deleteCounter, .backendUnloaded none, .increment 0 0]

/-- The request has an adapter that is not loaded, and its release raises. -/
theorem not_safe_interruptedRun :
    ∃ st, Run.exec (step none) State.new interruptedRun = some st ∧ ¬ Safe none st ∧
      st.granted "1" = 1 ∧ "1" ∉ st.backend ∧
      ∃ st', Run.exec (step none) st [.release 0 ["1"], .enterReader 0, .startDecrementing 0] = some st' ∧
        st'.releases = [.raised (.keyError "1")] := by
  refine ⟨(Run.exec (step none) State.new interruptedRun).getD State.new, by decide +kernel, ?_,
    by decide +kernel, by decide +kernel, ?_⟩
  · intro hsafe
    have := hsafe.loaded "1" (by decide +kernel)
    revert this
    decide +kernel
  · exact ⟨(Run.exec (step none) State.new (interruptedRun ++
      [.release 0 ["1"], .enterReader 0, .startDecrementing 0])).getD State.new,
      by decide +kernel, by decide +kernel⟩

end Lora
