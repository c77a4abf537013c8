import SolInfer.Gateway.Policies.Proofs

set_option autoImplicit false

/-! # Consistent hashing moves only the keys it must

A walk meets the virtual nodes at or after the key first and those before it last, both in the order of their
positions, so that rings are walked in the same order wherever they share nodes. -/

open List

namespace Gateway

variable {position : String → Nat → Nat} {workers : List Worker} {entries : List (Nat × String)}

/-! ## The entries -/

def virtualNodes (position : String → Nat → Nat) (workers : List Worker) : List (Nat × String) :=
  workers.flatMap fun w => (range virtualNodesPerWorker).map fun vnode => (position w.url vnode, w.url)

/-- All virtual nodes have different positions, so that all workers have different URLs. -/
def PositionsApart (position : String → Nat → Nat) (workers : List Worker) : Prop :=
  ((virtualNodes position workers).map Prod.fst).Nodup

theorem new_perm : (HashRing.new position workers).entries.Perm (virtualNodes position workers) :=
  mergeSort_perm ..

theorem new_sorted : (HashRing.new position workers).entries.Pairwise fun a b => a.1 ≤ b.1 :=
  (pairwise_mergeSort (fun a b c hab hbc => by simp at *; omega) (fun a b => by simp; omega) _).imp
    of_decide_eq_true

theorem new_eq (hpos : PositionsApart position workers) (hsorted : entries.Pairwise fun a b => a.1 ≤ b.1)
    (hperm : entries.Perm (virtualNodes position workers)) : HashRing.new position workers = ⟨entries⟩ := by
  refine congrArg HashRing.mk ((new_perm.trans hperm.symm).eq_of_pairwise ?_ new_sorted hsorted)
  intro a b ha hb hab hba
  exact inj_on_of_nodup_map hpos (new_perm.subset ha) (hperm.subset hb) (le_antisymm hab hba)

theorem virtualNodes_filter (stays : String → Bool) : virtualNodes position (workers.filter (stays ·.url)) =
    (virtualNodes position workers).filter (stays ·.2) := by
  induction workers with
  | nil => rfl
  | cons w ws ih =>
    simp only [virtualNodes, flatMap_cons, filter_append, filter_map, Function.comp_def] at ih ⊢
    cases hw : stays w.url <;> simp [hw, ih]

/-! ## The walk -/

theorem takeWhile_dropWhile_eq {α : Type*} {p : α → Bool} {l : List α}
    (h : l.Pairwise fun a b => p b = true → p a = true) :
    l.takeWhile p = l.filter p ∧ l.dropWhile p = l.filter fun a => !p a := by
  induction l with
  | nil => exact ⟨rfl, rfl⟩
  | cons a l ih =>
    obtain ⟨ha, hl⟩ := pairwise_cons.1 h
    cases hp : p a with
    | true => simpa [hp] using ih hl
    | false =>
      have hnone : ∀ b ∈ l, p b = false := fun b hb => by simpa [hp] using ha b hb
      have hall : l.filter (fun a => !p a) = l := filter_eq_self.2 fun b hb => by simp [hnone b hb]
      simpa [hp, hall] using hnone

section

variable [Crates] (key : String)

theorem clockwise_eq (hsorted : entries.Pairwise fun a b => a.1 ≤ b.1) :
    HashRing.clockwise ⟨entries⟩ key = ((entries.filter fun e => !decide (e.1 < Crates.hashPosition key)) ++
      entries.filter fun e => e.1 < Crates.hashPosition key).map Prod.snd := by
  obtain ⟨htake, hdrop⟩ := takeWhile_dropWhile_eq (p := fun e => e.1 < Crates.hashPosition key)
    (hsorted.imp fun hab hb => by simp at *; omega)
  rw [← htake, ← hdrop, ← rotate_append_length_eq, takeWhile_append_dropWhile]
  rfl

theorem clockwise_filter (hpos : PositionsApart position workers) (stays : String → Bool) :
    (HashRing.new position (workers.filter (stays ·.url))).clockwise key =
      ((HashRing.new position workers).clockwise key).filter stays := by
  have hstay : PositionsApart position (workers.filter (stays ·.url)) := by
    rw [PositionsApart, virtualNodes_filter]
    exact hpos.sublist (filter_sublist.map _)
  rw [new_eq hstay (new_sorted.filter _) ((new_perm.filter _).trans (.of_eq (virtualNodes_filter stays).symm)),
    clockwise_eq key (new_sorted.filter _), clockwise_eq key new_sorted, filter_map, filter_append]
  simp only [filter_filter, Function.comp_def, Bool.and_comm]

theorem mem_clockwise {url : String} :
    url ∈ (HashRing.new position workers).clockwise key ↔ ∃ w ∈ workers, w.url = url := by
  rw [HashRing.clockwise, map_rotate, mem_rotate]
  refine ⟨WorkerRegistry.mem_ring_entries, ?_⟩
  rintro ⟨w, hw, rfl⟩
  have hnode : (position w.url 0, w.url) ∈ virtualNodes position workers :=
    mem_flatMap.2 ⟨w, hw, mem_map.2 ⟨0, mem_range.2 (by decide), rfl⟩⟩
  exact mem_map_of_mem (new_perm.symm.subset hnode)

/-- **A key moves only when its worker goes.** Workers that are not healthy count as workers that are not there,
the order of the workers does not matter, and a key has no worker only when no worker is healthy. -/
theorem findHealthyUrl_minimal (position : String → Nat → Nat) (workers : List Worker) (key : String)
    (isHealthy stays : String → Bool) (hpos : PositionsApart position workers) :
    let find (ws : List Worker) (healthy : String → Bool) :=
      (HashRing.new position ws).findHealthyUrl key healthy
    (∀ url, find workers isHealthy = some url → stays url = true →
      find (workers.filter (stays ·.url)) isHealthy = some url) ∧
    (find workers fun url => isHealthy url && stays url) = find (workers.filter (stays ·.url)) isHealthy ∧
    (∀ listed, listed.Perm workers → find listed isHealthy = find workers isHealthy) ∧
    (find workers isHealthy = none ↔ ∀ w ∈ workers, isHealthy w.url = false) := by
  simp only [findHealthyUrl_eq, clockwise_filter key hpos, find?_filter]
  refine ⟨fun url hfind hstays => ?_, ?_, fun listed hperm => ?_, ?_⟩
  · obtain ⟨hhealthy, before, behind, hwalk, hbefore⟩ := find?_eq_some_iff_append.1 hfind
    refine find?_eq_some_iff_append.2 ⟨by simp [hhealthy, hstays], before, behind, hwalk, fun u hu => ?_⟩
    have := hbefore u hu
    simp_all
  · simp only [Bool.and_comm, Bool.decide_and, Bool.decide_eq_true]
  · rw [new_eq hpos new_sorted (new_perm.trans (hperm.flatMap_right _))]
  · rw [find?_eq_none]
    constructor
    · exact fun h w hw => Bool.eq_false_iff.2 (h _ ((mem_clockwise key).2 ⟨w, hw, rfl⟩))
    · intro h url hurl
      obtain ⟨w, hw, rfl⟩ := (mem_clockwise key).1 hurl
      simp [h w hw]

end

attribute [local instance] lengthHashes

def lengthPosition (url : String) (vnode : Nat) : Nat := url.length * 1000 + vnode

def twoWorkers : List Worker := [(workerAt "a" true).toWorker, (workerAt "bb" true).toWorker]

/-- The key of the first worker stays there when the second one leaves, and when the first one leaves it goes to
the second one. -/
theorem findHealthyUrl_two_workers :
    ((HashRing.new lengthPosition (twoWorkers.filter (·.url == "a"))).findHealthyUrl "key" fun _ => true)
        = some "a" ∧
      ((HashRing.new lengthPosition (twoWorkers.filter (·.url == "bb"))).findHealthyUrl "key" fun _ => true)
        = some "bb" := by
  have hsorted : ((virtualNodes lengthPosition twoWorkers).map Prod.fst).Pairwise (· < ·) :=
    isChain_iff_pairwise.1 (by decide +kernel)
  have hpos : PositionsApart lengthPosition twoWorkers := hsorted.imp Nat.ne_of_lt
  have hring : HashRing.new lengthPosition twoWorkers = ⟨virtualNodes lengthPosition twoWorkers⟩ :=
    new_eq hpos (pairwise_map.1 (hsorted.imp Nat.le_of_lt)) (.refl _)
  obtain ⟨hkeeps, -⟩ := findHealthyUrl_minimal lengthPosition twoWorkers "key" (fun _ => true) (· == "a") hpos
  obtain ⟨-, hmoves, -⟩ := findHealthyUrl_minimal lengthPosition twoWorkers "key" (fun _ => true) (· == "bb") hpos
  simp only [hring] at hkeeps hmoves
  exact ⟨hkeeps "a" (by decide +kernel) rfl, hmoves.symm.trans (by decide +kernel)⟩

end Gateway
