import SolInfer.Lib.Python
import SolInfer.Lib.Slices

set_option autoImplicit false

/-! # Zigzag packing of sequences

Of every packed sequence, cut into `2 * cp_size` chunks, context parallel rank `r` holds chunks `r` and
`2 * cp_size - 1 - r`. `_resolve_unshard_params` and `_thd_concat` of `comparator/aligner/unsharder` put the
ranks together, `comparator/aligner/reorderer/executor.py` undoes the zigzag. A tensor is the list of its
slices along the dim. -/

open List Slices

namespace Comparator

variable {α : Type}

/-! ## Cutting and joining tensors -/

/-- `t.split(sizes, dim)` -/
def split (sizes : List Nat) (t : List α) : Except PyError (List (List α)) :=
  if sizes.sum = t.length then .ok (sizes.splitLengths t)
  else .error (.runtimeError "split_with_sizes expects split_sizes to sum exactly to the dim size")

/-- `torch.cat(parts, dim)` -/
def cat : List (List α) → Except PyError (List α)
  | [] => .error (.runtimeError "torch.cat(): expected a non-empty list of Tensors")
  | part :: parts => .ok (part :: parts).flatten

/-- `t.chunk(n, dim)`: pieces of `⌈len / n⌉` slices, of which there can be fewer than `n`. -/
def chunk (n : Nat) (t : List α) : List (List α) :=
  let size := (t.length + n - 1) / n
  -- An empty dim is cut into `n` empty pieces.
  let count := if size = 0 then n else (t.length + size - 1) / size
  (replicate count size).splitLengths t

/-- `zip(*rows)` -/
def zipRows {β : Type} : List (List β) → List (List β)
  | [] => []
  | [row] => row.map ([·])
  | row :: rows => zipWith cons row (zipRows rows)

/-- `[x]` where something remains. -/
def ifRemains {β : Type} (remainder : Nat) (x : β) : List β := if 0 < remainder then [x] else []

/-- The sizes `_thd_concat` and `_reorder_zigzag_to_natural_thd` split a dim by; `what` names the lengths. -/
def splitSizes (what : String) (dim size : Nat) (lens : List Nat) : Except PyError (List Nat) :=
  let total := lens.sum
  if size < total then
    .error (.valueError s!"sum({what})={total} exceeds tensor dim size {size} along dim={dim}")
  else .ok (lens ++ ifRemains (size - total) (size - total))

/-! ## The code -/

inductive ParallelAxis where
  | tp | cp | ep | sp | dp | etp | edp | attnTp | attnDp | moeEp | moeTp | moeDp | recomputePseudo

inductive Reduction where
  | partialSum

structure ParallelModifier where
  axis : ParallelAxis
  reduction : Option Reduction

structure AxisInfo where
  axisRank : Nat
  axisSize : Nat
  size_pos : 0 < axisSize
  rank_lt : axisRank < axisSize

inductive UnsharderParams where
  | concat (dimName : String)
  | cpThdConcat (dimName : String) (seqLensPerRank : List Nat)
  | pick
  | reduceSum
deriving DecidableEq

/-- `TOKEN_DIM_NAME` -/
def tokenDimName : String := "t"

/-- `_resolve_unshard_params` -/
def resolveUnshardParams (modifier : ParallelModifier) (dimName : String)
    (parallelInfos : List (ParallelAxis → Option AxisInfo)) (thdGlobalSeqLens : Option (List Nat)) :
    Except PyError UnsharderParams :=
  if modifier.reduction.isSome then .ok .reduceSum
  else
    match modifier.axis, thdGlobalSeqLens with
    | .cp, some lens =>
      if dimName = tokenDimName then
        match parallelInfos with
        | [] => .error (.indexError "list index out of range")
        | infos :: _ =>
          match infos .cp with
          | none => .error (.keyError "ParallelAxis.CP")
          | some info =>
            let axisSize := info.axisSize
            match lens.find? (· % axisSize ≠ 0) with
            | some s => .error (.valueError
                (s!"THD seq_len {s} is not divisible by cp_size {axisSize}. " ++
                  "Sequences must be padded to a multiple of cp_size for CP zigzag."))
            | none => .ok (.cpThdConcat dimName (lens.map (· / axisSize)))
      else .ok (.concat dimName)
    | _, _ => .ok (.concat dimName)

/-- `_thd_concat` -/
def thdConcat (dim : Nat) (orderedTensors : List (List α)) (seqLensPerRank : List Nat) :
    Except PyError (List α) :=
  match orderedTensors.head? with
  | none => .error (.indexError "list index out of range")
  | some first => do
    let sizes ← splitSizes "seq_lens_per_rank" dim first.length seqLensPerRank
    let perRankSplits ← orderedTensors.mapM (split sizes)
    let perSeq ← (zipRows perRankSplits).mapM cat
    cat perSeq

/-- The `order` in which `_reorder_zigzag_to_natural` takes the chunks. -/
def order (cpSize : Nat) : List Nat :=
  let numChunks := cpSize * 2
  (range cpSize).map (2 * ·) ++ (range cpSize).map (numChunks - 2 * · - 1)

/-- `chunks[i]` -/
def pick (chunks : List (List α)) (i : Nat) : Except PyError (List α) :=
  (chunks[i]?).elim (.error (.indexError "tuple index out of range")) .ok

/-- `_reorder_zigzag_to_natural` -/
def reorderZigzagToNatural (cpSize : Nat) (tensor : List α) : Except PyError (List α) := do
  let picked ← (order cpSize).mapM (pick (chunk (cpSize * 2) tensor))
  cat picked

/-- `_reorder_zigzag_to_natural_thd` -/
def reorderZigzagToNaturalThd (dim cpSize : Nat) (seqLens : List Nat) (tensor : List α) :
    Except PyError (List α) := do
  let sizes ← splitSizes "seq_lens" dim tensor.length seqLens
  let segments ← split sizes tensor
  let reordered ← (segments.take seqLens.length).mapM (reorderZigzagToNatural cpSize)
  cat (reordered ++ segments.drop seqLens.length)

/-! ## Cutting what was joined -/

theorem bind_of_ok {ε β γ : Type} {x : Except ε β} {b : β} (h : x = .ok b) (f : β → Except ε γ) :
    x >>= f = f b := by
  rw [h]
  rfl

theorem split_flatten (pieces : List (List α)) : split (pieces.map length) pieces.flatten = .ok pieces := by
  rw [split, if_pos length_flatten.symm, splitLengths_flatten]

theorem map_ifRemains {β γ : Type} (f : β → γ) (n : Nat) (x : β) : (ifRemains n x).map f = ifRemains n (f x) :=
  apply_ite (map f) ..

theorem flatten_ifRemains (pieces : List (List α)) (t : List α) :
    (pieces ++ ifRemains t.length t).flatten = pieces.flatten ++ t := by
  cases t <;> simp [ifRemains]

theorem splitSizes_flatten (what : String) (dim : Nat) (pieces : List (List α)) (t : List α) :
    splitSizes what dim (pieces.flatten ++ t).length (pieces.map length)
      = .ok ((pieces ++ ifRemains t.length t).map length) := by
  rw [length_append, length_flatten, splitSizes, if_neg (by omega), Nat.add_sub_cancel_left, map_append]
  cases t <;> rfl

theorem chunk_flatten {m : Nat} (pieces : List (List α)) (hne : pieces ≠ [])
    (hm : ∀ piece ∈ pieces, piece.length = m) : chunk pieces.length pieces.flatten = pieces := by
  have hpos : 0 < pieces.length := length_pos_iff.2 hne
  have hlens : pieces.map length = replicate pieces.length m :=
    eq_replicate_iff.2 ⟨length_map .., by simpa using hm⟩
  have hlen : pieces.flatten.length = pieces.length * m := by
    rw [length_flatten, hlens, sum_replicate, smul_eq_mul]
  have hsize : (pieces.length * m + pieces.length - 1) / pieces.length = m := by
    rw [Nat.add_sub_assoc hpos, Nat.mul_add_div hpos, Nat.div_eq_of_lt (by omega), Nat.add_zero]
  have hcount : (if m = 0 then pieces.length else (pieces.length * m + m - 1) / m) = pieces.length := by
    split
    next => rfl
    next hm0 =>
      have hm0 : 0 < m := Nat.pos_of_ne_zero hm0
      rw [Nat.add_sub_assoc hm0, Nat.mul_comm, Nat.mul_add_div hm0, Nat.div_eq_of_lt (by omega), Nat.add_zero]
  rw [chunk, hlen, hsize, hcount, ← hlens, splitLengths_flatten]

theorem cat_eq {parts : List (List α)} (hne : parts ≠ []) : cat parts = .ok parts.flatten := by
  cases parts with
  | nil => exact absurd rfl hne
  | cons part parts => rfl

theorem zipRows_map {β γ κ : Type} {rows : List β} (hne : rows ≠ []) (columns : List γ)
    (entry : β → γ → κ) :
    zipRows (rows.map fun r => columns.map (entry r)) = columns.map fun c => rows.map fun r => entry r c := by
  induction rows with
  | nil => exact absurd rfl hne
  | cons r rest ih =>
    cases rest with
    | nil => simp [zipRows]
    | cons r' rest =>
      have hrest := ih (cons_ne_nil _ _)
      rw [map_cons] at hrest
      rw [map_cons, map_cons, zipRows, hrest, zipWith_map, zipWith_self]
      · rfl
      · exact nofun

/-! ## The packing -/

/-- A sequence, as the `2 * cp_size` equal chunks it is cut into. -/
structure Seq (α : Type) (cpSize : Nat) where
  size : Nat
  chunks : Nat → List α
  length_chunks : ∀ k < cpSize * 2, (chunks k).length = size

/-- What ranks hold: sequences, and shares of the tail. -/
structure Packing (α : Type) (cpSize : Nat) where
  seqs : List (Seq α cpSize)
  tail : Nat
  tails : Nat → List α
  length_tails : ∀ r < cpSize, (tails r).length = tail

variable {cpSize : Nat}

def gather (cpSize : Nat) (held : Nat → List α) : List α := (range cpSize).flatMap held

namespace Seq

variable (q : Seq α cpSize)

def tokens : List α := gather (cpSize * 2) q.chunks

/-- What rank `r` holds of the sequence. -/
def share (r : Nat) : List α := q.chunks r ++ q.chunks (cpSize * 2 - 1 - r)

end Seq

namespace Packing

variable (p : Packing α cpSize)

def seqLens : List Nat := p.seqs.map fun q => q.tokens.length

/-- The tensor of rank `r`. -/
def tensor (r : Nat) : List α := p.seqs.flatMap (·.share r) ++ p.tails r

end Packing

theorem length_gather {n m : Nat} {held : Nat → List α} (h : ∀ r < n, (held r).length = m) :
    (gather n held).length = n * m := by
  rw [gather, length_flatMap, map_congr_left fun r hr => h r (mem_range.1 hr)]
  simp

/-- The chunk at place `j` of the shares of all ranks. -/
def place (cpSize j : Nat) : Nat := if j % 2 = 0 then j / 2 else cpSize * 2 - 1 - j / 2

theorem place_lt {j : Nat} (hj : j < cpSize * 2) : place cpSize j < cpSize * 2 := by
  rw [place]
  split <;> omega

theorem map_place_order (cpSize : Nat) : (order cpSize).map (place cpSize) = range (cpSize * 2) := by
  rw [order, Nat.mul_two, range_add, map_append, map_map, map_map]
  congr 1
  · refine (map_congr_left fun i _ => ?_).trans (map_id _)
    simp [place]
  · refine map_congr_left fun i hi => ?_
    have := mem_range.1 hi
    rw [Function.comp_apply, place, if_neg (by omega)]
    omega

theorem lt_of_mem_order {i : Nat} (hi : i ∈ order cpSize) : i < cpSize * 2 := by
  simp only [order, mem_append, mem_map, mem_range] at hi
  omega

theorem gather_pairs (f : Nat → List α) (n : Nat) :
    gather n (fun r => f (2 * r) ++ f (2 * r + 1)) = gather (n * 2) f := by
  unfold gather
  induction n with
  | zero => rfl
  | succ n ih =>
    rw [range_succ, flatMap_append, ih, Nat.succ_mul, range_succ, range_succ, Nat.mul_comm n 2]
    simp

namespace Seq

variable (q : Seq α cpSize)

theorem length_tokens : q.tokens.length = cpSize * 2 * q.size := length_gather q.length_chunks

theorem length_share {r : Nat} (hr : r < cpSize) : (q.share r).length = q.tokens.length / cpSize := by
  rw [share, length_append, q.length_chunks r (by omega), q.length_chunks _ (by omega), q.length_tokens,
    Nat.mul_assoc, Nat.mul_div_cancel_left _ (by omega), Nat.two_mul]

theorem length_gather_share : (gather cpSize q.share).length = q.tokens.length := by
  rw [length_gather fun _ => q.length_share, q.length_tokens, Nat.mul_assoc]
  exact Nat.mul_div_cancel' (Nat.dvd_mul_right ..)

theorem gather_share : gather cpSize q.share = gather (cpSize * 2) (q.chunks ∘ place cpSize) := by
  rw [← gather_pairs]
  refine congrArg (gather cpSize) (funext fun r => ?_)
  rw [share, Function.comp_apply, Function.comp_apply, place, place, if_pos (by omega), if_neg (by omega),
    Nat.mul_div_cancel_left r (by omega), show (2 * r + 1) / 2 = r by omega]

theorem reorder_share (hcp : 0 < cpSize) :
    reorderZigzagToNatural cpSize (gather cpSize q.share) = .ok q.tokens := by
  have hchunks := chunk_flatten ((range (cpSize * 2)).map (q.chunks ∘ place cpSize)) (by simp; omega)
    (forall_mem_map.2 fun j hj => q.length_chunks _ (place_lt (mem_range.1 hj)))
  rw [length_map, length_range, ← flatMap_def, ← gather, ← gather_share] at hchunks
  have hpick : (order cpSize).mapM (pick (chunk (cpSize * 2) (gather cpSize q.share)))
      = .ok ((order cpSize).map (q.chunks ∘ place cpSize)) := by
    nth_rewrite 1 [hchunks, ← map_id (order cpSize)]
    refine mapM_map_ok (order cpSize) fun i hi => ?_
    simp [pick, lt_of_mem_order hi]
  rw [← map_map, map_place_order] at hpick
  rw [reorderZigzagToNatural, hpick]
  exact (cat_eq (by simp; omega)).trans (congrArg _ (flatMap_def ..).symm)

end Seq

/-! ## The round trip -/

section

variable (p : Packing α cpSize) (hcp : 0 < cpSize) (dim : Nat)
include hcp

theorem thdConcat_tensors :
    thdConcat dim ((range cpSize).map p.tensor) (p.seqLens.map (· / cpSize))
      = cat (p.seqs.map (gather cpSize ·.share) ++ ifRemains p.tail (gather cpSize p.tails)) := by
  let columns : List (Nat → List α) := p.seqs.map Seq.share ++ ifRemains p.tail p.tails
  let sizes := p.seqLens.map (· / cpSize) ++ ifRemains p.tail p.tail
  have hpieces : ∀ r < cpSize, columns.map (· r)
      = p.seqs.map (·.share r) ++ ifRemains (p.tails r).length (p.tails r) := by
    intro r hr
    rw [p.length_tails r hr, map_append, map_map, map_ifRemains]
    rfl
  have hlens : ∀ r < cpSize, (p.seqs.map (·.share r)).map length = p.seqLens.map (· / cpSize) := by
    intro r hr
    rw [Packing.seqLens, map_map, map_map]
    exact map_congr_left fun q _ => q.length_share hr
  have hsizes : ∀ r < cpSize, (columns.map (· r)).map length = sizes := by
    intro r hr
    rw [hpieces r hr, map_append, hlens r hr, map_ifRemains, p.length_tails r hr]
  have hsplitSizes : splitSizes "seq_lens_per_rank" dim (p.tensor 0).length (p.seqLens.map (· / cpSize))
      = .ok sizes := by
    rw [← hlens 0 hcp, Packing.tensor, flatMap_def, splitSizes_flatten, ← hpieces 0 hcp, hsizes 0 hcp]
  have hsplit : ((range cpSize).map p.tensor).mapM (split sizes)
      = .ok ((range cpSize).map fun r => columns.map (· r)) := by
    refine mapM_map_ok _ fun r hr => ?_
    have hr := mem_range.1 hr
    rw [Packing.tensor, flatMap_def, ← flatten_ifRemains, ← hpieces r hr, ← hsizes r hr, split_flatten]
  have hrange : range cpSize ≠ [] := by simpa using hcp.ne'
  have hcat : (zipRows ((range cpSize).map fun r => columns.map (· r))).mapM cat
      = .ok (columns.map (gather cpSize)) := by
    rw [zipRows_map hrange]
    refine mapM_map_ok _ fun c _ => ?_
    rw [cat_eq (by rwa [ne_eq, map_eq_nil_iff]), gather, flatMap_def]
  rw [map_append, map_map, map_ifRemains] at hcat
  rw [thdConcat, head?_map, head?_range, if_neg (by omega)]
  exact (bind_of_ok hsplitSizes _).trans ((bind_of_ok hsplit _).trans (bind_of_ok hcat _))

/-- **The zigzag is undone**: joined and reordered, the ranks give the sequences and then the tail shares. -/
theorem reorder_thdConcat (hne : p.seqs = [] → 0 < p.tail) :
    (thdConcat dim ((range cpSize).map p.tensor) (p.seqLens.map (· / cpSize)) >>=
        reorderZigzagToNaturalThd dim cpSize p.seqLens)
      = .ok (p.seqs.flatMap Seq.tokens ++ gather cpSize p.tails) := by
  let zigzags := p.seqs.map (gather cpSize ·.share)
  let t := gather cpSize p.tails
  have htail : ifRemains p.tail t = ifRemains t.length t := by
    simp only [ifRemains, t, length_gather p.length_tails, Nat.mul_pos_iff_of_pos_left hcp]
  have hnonempty : ∀ {l : List (List α)}, l.length = p.seqs.length → l ++ ifRemains p.tail t ≠ [] := by
    intro l hl h
    obtain ⟨rfl, hrest⟩ := append_eq_nil_iff.1 h
    rw [ifRemains, if_pos (hne (length_eq_zero_iff.1 hl.symm))] at hrest
    cases hrest
  have hlens : zigzags.map length = p.seqLens := by
    rw [map_map]
    exact map_congr_left fun q _ => q.length_gather_share
  have hlen : zigzags.length = p.seqLens.length := (length_map ..).symm.trans (congrArg length hlens)
  have hsizes := splitSizes_flatten "seq_lens" dim zigzags t
  have hsplit := split_flatten (zigzags ++ ifRemains t.length t)
  have hreorder : zigzags.mapM (reorderZigzagToNatural cpSize) = .ok (p.seqs.map Seq.tokens) :=
    mapM_map_ok _ fun q _ => q.reorder_share hcp
  rw [hlens] at hsizes
  rw [flatten_ifRemains] at hsplit
  rw [thdConcat_tensors p hcp dim, cat_eq (hnonempty (length_map ..)), htail, flatten_ifRemains]
  refine (bind_of_ok rfl _).trans ((bind_of_ok hsizes _).trans ((bind_of_ok hsplit _).trans ?_))
  rw [← hlen, take_left, drop_left, hreorder, ← htail, flatMap_def]
  refine (cat_eq (hnonempty (length_map ..))).trans ?_
  rw [htail, flatten_ifRemains]

end

/-! ## Which lengths get a plan -/

/-- Packings of these lengths, with `tail` slices in each share of the tail, are undone, and lengths that cannot
    be cut into `2 * cp_size` chunks get no plan. -/
structure Undone (α : Type) (info : AxisInfo) (lens : List Nat) (tail : Nat) : Prop where
  round_trip : ∀ (p : Packing α info.axisSize) (dim : Nat), p.seqLens = lens → p.tail = tail →
    (thdConcat dim ((range info.axisSize).map p.tensor) (lens.map (· / info.axisSize)) >>=
        reorderZigzagToNaturalThd dim info.axisSize lens)
      = .ok (p.seqs.flatMap Seq.tokens ++ gather info.axisSize p.tails)
  rejected : (∃ s ∈ lens, ¬ info.axisSize * 2 ∣ s) → ∀ infos rest, infos .cp = some info →
    ∃ e, resolveUnshardParams ⟨.cp, none⟩ tokenDimName (infos :: rest) (some lens) = .error e

theorem resolve_error_iff {info : AxisInfo} {infos : ParallelAxis → Option AxisInfo} (h : infos .cp = some info)
    (rest : List (ParallelAxis → Option AxisInfo)) (lens : List Nat) :
    (∃ e, resolveUnshardParams ⟨.cp, none⟩ tokenDimName (infos :: rest) (some lens) = .error e) ↔
      ∃ s ∈ lens, ¬ info.axisSize ∣ s := by
  simp only [resolveUnshardParams, h, Nat.dvd_iff_mod_eq_zero]
  cases hfind : lens.find? (· % info.axisSize ≠ 0) with
  | none => simpa using hfind
  | some s =>
    have hs := find?_some hfind
    simpa using ⟨s, mem_of_find?_eq_some hfind, by simpa using hs⟩

/-- **Zigzag packing**: it is undone, and lengths that cannot be cut are refused, exactly when there is something
    to join and the lengths are refused for `cp_size` already or all quotients are even. -/
theorem undone_iff (α : Type) (info : AxisInfo) (lens : List Nat) (tail : Nat) :
    Undone α info lens tail ↔ (lens = [] → 0 < tail) ∧
      ((∃ s ∈ lens, ¬ info.axisSize ∣ s) ∨ ∀ s ∈ lens, 2 ∣ s / info.axisSize) := by
  have hcut : ∀ s, info.axisSize ∣ s → (2 ∣ s / info.axisSize ↔ info.axisSize * 2 ∣ s) :=
    fun s => Nat.dvd_div_iff_mul_dvd
  constructor
  · intro h
    refine ⟨fun hnil => Nat.pos_of_ne_zero fun h0 => ?_, or_iff_not_imp_left.2 fun hall s hs => ?_⟩
    · -- Nothing to join: `torch.cat` of no tensor raises.
      subst hnil h0
      let p : Packing α info.axisSize := ⟨[], 0, fun _ => [], fun _ _ => rfl⟩
      have hrun := h.round_trip p 0 rfl rfl
      rw [show [] = p.seqLens from rfl, thdConcat_tensors p info.size_pos] at hrun
      cases hrun
    · have hs' : info.axisSize ∣ s := by_contra fun h => hall ⟨s, hs, h⟩
      refine (hcut s hs').2 (by_contra fun hno => hall ?_)
      have herror := h.rejected ⟨s, hs, hno⟩ (fun _ => some info) [] rfl
      exact (resolve_error_iff rfl [] lens).1 herror
  · rintro ⟨hne, hlens⟩
    refine ⟨fun p dim hp htail => ?_, fun ⟨s, hs, hno⟩ infos rest hinfo => ?_⟩
    · subst hp htail
      exact reorder_thdConcat p info.size_pos dim fun h => hne (map_eq_nil_iff.2 h)
    · refine (resolve_error_iff hinfo rest lens).2 (hlens.elim id fun heven => ⟨s, hs, fun hs' => hno ?_⟩)
      exact (hcut s hs').1 (heven s hs)

/-- Two ranks and a sequence of two tokens: the plan is made, and the reordering runs out of chunks. -/
theorem two_tokens_accepted : ∃ info : AxisInfo, info.axisSize = 2 ∧ ¬ 2 * 2 ∣ 2 ∧
    resolveUnshardParams ⟨.cp, none⟩ tokenDimName [fun _ => some info] (some [2])
      = .ok (.cpThdConcat tokenDimName [1]) ∧
    (thdConcat 0 [[10], [11]] [1] >>= reorderZigzagToNaturalThd 0 2 [2])
      = .error (.indexError "tuple index out of range") :=
  ⟨⟨0, 2, by decide, by decide⟩, rfl, by decide, rfl, by decide⟩

end Comparator
