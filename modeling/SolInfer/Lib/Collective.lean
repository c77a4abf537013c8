import Mathlib

set_option autoImplicit false

/-! # Programs with a collective operation

The ranks of a group each run a program of their own, and meet in all-gathers: a rank hands in a tensor
and gets the tensors of all ranks, in the order of the ranks. A group runs only as long as all ranks make
the same sequence of calls: when one has returned while another still waits, or the shapes differ, it is
stuck. -/

namespace Collective

variable {T S α β γ : Type} {n : Nat} {v : Fin n → α} {trace : List S}

/-- The program of a rank. -/
inductive Prog (T α : Type) where
  | ret (value : α)
  | gather (x : T) (next : List T → Prog T α)

namespace Prog

def bind (f : α → Prog T β) : Prog T α → Prog T β
  | .ret value => f value
  | .gather x next => .gather x fun xs => (next xs).bind f

def allGather (x : T) : Prog T (List T) := .gather x .ret

/-- The results of a program for each element of a list, in its order. -/
def traverse (f : α → Prog T β) : List α → Prog T (List β)
  | [] => .ret []
  | a :: rest => (f a).bind fun b => (traverse f rest).bind fun bs => .ret (b :: bs)

theorem bind_assoc (p : Prog T α) (f : α → Prog T β) (g : β → Prog T γ) :
    (p.bind f).bind g = p.bind (fun a => (f a).bind g) := by
  induction p with
  | ret value => rfl
  | gather x next ih => exact congrArg (Prog.gather x) (funext ih)

end Prog

/-- A run of all ranks to their ends: the shapes of the calls, which all ranks make in this sequence, and
    what each rank returns. -/
inductive Runs (shape : T → S) : (Fin n → Prog T α) → List S → (Fin n → α) → Prop where
  | done {p : Fin n → Prog T α} {v : Fin n → α} : (∀ r, p r = .ret (v r)) → Runs shape p [] v
  | gather {p : Fin n → Prog T α} {x : Fin n → T} {next : Fin n → List T → Prog T α} {s : S}
      {trace : List S} {v : Fin n → α} :
      (∀ r, p r = .gather (x r) (next r)) → (∀ r, shape (x r) = s) →
      Runs shape (fun r => next r (List.ofFn x)) trace v → Runs shape p (s :: trace) v

theorem Runs.unique {shape : T → S} (hn : 0 < n) {p : Fin n → Prog T α} {trace' : List S}
    {v' : Fin n → α} (h : Runs shape p trace v) (h' : Runs shape p trace' v') :
    trace' = trace ∧ v' = v := by
  induction h generalizing trace' v' with
  | done hp =>
    cases h' with
    | done hp' =>
      refine ⟨rfl, funext fun r => ?_⟩
      exact (Prog.ret.inj ((hp r).symm.trans (hp' r))).symm
    | gather hp' _ _ => cases (hp ⟨0, hn⟩).symm.trans (hp' ⟨0, hn⟩)
  | gather hp hshape _ ih =>
    cases h' with
    | done hp' => cases (hp ⟨0, hn⟩).symm.trans (hp' ⟨0, hn⟩)
    | gather hp' hshape' hrest =>
      have hx := fun r => (Prog.gather.inj ((hp r).symm.trans (hp' r))).1
      have hnext := fun r => (Prog.gather.inj ((hp r).symm.trans (hp' r))).2
      cases funext hx
      cases funext hnext
      obtain ⟨htrace, hv⟩ := ih hrest
      have hs := (hshape ⟨0, hn⟩).symm.trans (hshape' ⟨0, hn⟩)
      exact ⟨by rw [hs, htrace], hv⟩

/-! ## Rules

`Yields p trace v` says that the ranks run `p` together, with the calls `trace`, and go on with the values
`v`. -/

def Yields (shape : T → S) (p : Fin n → Prog T α) (trace : List S) (v : Fin n → α) : Prop :=
  ∀ (β : Type) (f : Fin n → α → Prog T β) (trace' : List S) (w : Fin n → β),
    Runs shape (fun r => f r (v r)) trace' w → Runs shape (fun r => (p r).bind (f r)) (trace ++ trace') w

variable {shape : T → S}

theorem Yields.ret (v : Fin n → α) : Yields shape (fun r => .ret (v r)) [] v :=
  fun _ _ _ _ h => h

theorem Yields.allGather {x : Fin n → T} {s : S} (h : ∀ r, shape (x r) = s) :
    Yields shape (fun r => Prog.allGather (x r)) [s] (fun _ => List.ofFn x) :=
  fun _ _ _ _ hrest => .gather (fun _ => rfl) h hrest

theorem Yields.bind {p : Fin n → Prog T α} {f : Fin n → α → Prog T β} {trace' : List S}
    {w : Fin n → β} (hp : Yields shape p trace v) (hf : Yields shape (fun r => f r (v r)) trace' w) :
    Yields shape (fun r => (p r).bind (f r)) (trace ++ trace') w := by
  intro γ g trace'' u hrest
  simp only [Prog.bind_assoc, List.append_assoc]
  exact hp _ _ _ _ (hf _ _ _ _ hrest)

/-- **Traversal rule**: the ranks go through lists of one length together. The lists are given by their
    columns, each of which holds an element for every rank. -/
theorem Yields.traverse {f : Fin n → α → Prog T β} {t : (Fin n → α) → List S}
    {w : (Fin n → α) → Fin n → β} (columns : List (Fin n → α))
    (h : ∀ x ∈ columns, Yields shape (fun r => f r (x r)) (t x) (w x)) :
    Yields shape (fun r => Prog.traverse (f r) (columns.map (fun x => x r))) (columns.flatMap t)
      (fun r => columns.map (fun x => w x r)) := by
  induction columns with
  | nil => exact Yields.ret _
  | cons x rest ih =>
    have hx := h x List.mem_cons_self
    have hrest := ih fun y hy => h y (List.mem_cons_of_mem x hy)
    have hcons := hrest.bind (f := fun r bs => .ret (w x r :: bs)) (Yields.ret _)
    rw [List.append_nil] at hcons
    exact hx.bind hcons

theorem Yields.runs {p : Fin n → Prog T α} (h : Yields shape p trace v) (f : Fin n → α → β) :
    Runs shape (fun r => (p r).bind (fun a => .ret (f r a))) trace (fun r => f r (v r)) := by
  have hrun := h β (fun r a => .ret (f r a)) [] (fun r => f r (v r)) (.done fun _ => rfl)
  rwa [List.append_nil] at hrun

theorem exists_columns {xs : Fin n → List α} {m : Nat} (h : ∀ r, (xs r).length = m) :
    ∃ columns : List (Fin n → α), columns.length = m ∧ ∀ r, xs r = columns.map (fun x => x r) := by
  refine ⟨List.ofFn (fun (i : Fin m) r => (xs r).get (i.cast (h r).symm)), List.length_ofFn, ?_⟩
  intro r
  refine List.ext_getElem (by simp [h r]) fun i hi hi' => ?_
  simp

end Collective
