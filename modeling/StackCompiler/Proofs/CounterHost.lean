import StackCompiler.Proofs.Likeness

/-!
A host with more to observe than vectors. It counts the calls of one of its functions, which returns
the count, and leaves all else to the host of cells. Two runs on it are alike if they have counted
the same and their cells are alike.
-/

namespace StackCompiler

/-- Cells, and how often `tick` has been called. -/
structure Counter where
  cells : Cell.Heap
  count : Int64

namespace Counter

variable {α : Type}

def inner (s : Store Cell Counter) : Store Cell Cell.Heap :=
  ⟨s.vars, s.heap.cells⟩

def lift (x : Action Cell Cell.Heap α) : Action Cell Counter α := fun s =>
  match x (inner s) with
  | .ok a t => .ok a ⟨t.vars, t.heap, s.heap.count⟩
  | .error e t => .error e ⟨t.vars, t.heap, s.heap.count⟩

def tick : Action Cell Counter Cell := fun s =>
  .ok (.constant (.int s.heap.count)) ⟨s.vars, s.heap.cells, s.heap.count + 1⟩

def call (f : Cell) (args : List Cell) : Action Cell Counter Cell :=
  if f = .constant (.symbol "tick") then tick else lift (Cell.callMaker f args)

end Counter

def Runtime.counter : Runtime where
  Value := Cell
  Heap := Counter
  constant := .constant
  isNil := Runtime.cells.isNil
  isNil_iff := Runtime.cells.isNil_iff
  unary _ _ := throw ()
  binary _ _ _ := throw ()
  concat _ := throw ()
  arrayRef a i := Counter.lift (Cell.get a i)
  arraySet a i v := Counter.lift (Cell.set a i v)
  call := Counter.call

def VectorView.counter : VectorView .counter where
  contents h := Cell.contents h.cells
  leads s := Cell.Leads s.heap.cells
  exposed s a := ∃ name, Cell.Leads s.heap.cells (s.vars name) a

namespace Counter

variable {α : Type} {x y : Action Cell Cell.Heap α} {a : Cell} {elems vs rs : List Cell}
  {s s' t : Store Cell Counter}

theorem lift_ok {b : α} (h : lift x s = .ok b s') :
    x (inner s) = .ok b (inner s') ∧ s'.heap.count = s.heap.count := by
  unfold lift at h
  cases hx : x (inner s) with
  | ok c u =>
      rw [hx] at h
      cases h
      exact ⟨rfl, rfl⟩
  | error e u =>
      rw [hx] at h
      cases h

/-! ### What steps do to vectors -/

theorem step_inner (h : VectorView.makers.Step vs (inner s) (inner s') rs) :
    VectorView.counter.Step vs s s' rs where
  grows := h.grows
  spares a hides := by
    have hspared := h.spares a ⟨hides.made, hides.exposed, hides.leads⟩
    exact ⟨hspared.contents, hspared.exposed, hspared.leads, hspared.results⟩

theorem changes_inner (h : VectorView.makers.Changes a elems (inner s) (inner s')) :
    VectorView.counter.Changes a elems s s' :=
  ⟨h.contents, h.others, h.vars, h.leads, h.exposed⟩

theorem inner_changes (h : VectorView.counter.Changes a elems s s') :
    VectorView.makers.Changes a elems (inner s) (inner s') :=
  ⟨h.contents, h.others, h.vars, h.leads, h.exposed⟩

theorem makes_inner (h : VectorView.makers.Makes a elems (inner s) (inner s')) :
    VectorView.counter.Makes a elems s s' :=
  ⟨changes_inner h.toChanges, h.fresh⟩

theorem inner_makes (h : VectorView.counter.Makes a elems s s') :
    VectorView.makers.Makes a elems (inner s) (inner s') :=
  ⟨inner_changes h.toChanges, h.fresh⟩

end Counter

def VectorHost.counter : VectorHost .counter where
  toVectorView := .counter
  not_leads_constant s c a h := by cases h
  exposed_of_var h := ⟨_, h⟩
  step_unary h := absurd h throw_ne_ok
  step_binary h := absurd h throw_ne_ok
  step_concat h := absurd h throw_ne_ok
  step_arrayRef h := Counter.step_inner (VectorHost.makers.step_arrayRef (Counter.lift_ok h).1)
  step_arraySet h := Counter.step_inner (VectorHost.makers.step_arraySet (Counter.lift_ok h).1)
  step_call {f args s r s'} h := by
    change Counter.call f args s = .ok r s' at h
    unfold Counter.call at h
    split at h
    · cases h
      refine Counter.step_inner (.same fun a _ v hv hleads => ?_)
      rw [List.mem_singleton.1 hv] at hleads
      cases hleads
    · exact Counter.step_inner (VectorHost.makers.step_call (Counter.lift_ok h).1)
  vector vs s := ⟨_, _, rfl, Counter.makes_inner (VectorView.makes_allocate vs)⟩
  makeVector n v s _ := ⟨_, _, rfl, Counter.makes_inner (VectorView.makes_allocate _)⟩
  set {a elems s} i v hcells _ _ := by
    cases a with
    | constant c => cases hcells
    | vector place =>
        exact ⟨_, rfl, Counter.changes_inner (VectorView.changes_set (s := Counter.inner s) hcells)⟩

/-! ### Runs that are alike -/

namespace Counter

open Cell

/-- Both runs have counted the same, and their cells correspond. -/
def correspondence : Correspondence .counter where
  Link := Links
  le := Links.Le
  value l := Cell.Alike l.pairs
  own l a := ∃ q ∈ l.own, a = .vector q
  store l s t := l.Joins (inner s) (inner t) ∧ s.heap.count = t.heap.count

variable {l : Links} {f g : Cell} {us vs : List Cell} {s t : Store Cell Counter}

theorem alike_lift {α : Type} {rel : Links → α → α → Prop} {x y : Action Cell Cell.Heap α}
    (h : ∀ {s t}, l.Joins s t →
      Outcome (fun a s' b t' => ∃ l', l.Le l' ∧ l'.Joins s' t' ∧ rel l' a b) (x s) (y t))
    (hstore : correspondence.store l s t) :
    Outcome (fun a s' b t' => ∃ l', l.Le l' ∧ correspondence.store l' s' t' ∧ rel l' a b)
      (lift x s) (lift y t) := by
  have hstep := h hstore.1
  unfold lift
  generalize x (inner s) = r at hstep ⊢
  generalize y (inner t) = r' at hstep ⊢
  cases hstep with
  | ok h =>
      obtain ⟨l', hle, hjoins, hrel⟩ := h
      exact .ok ⟨l', hle, ⟨hjoins, hstore.2⟩, hrel⟩
  | error e u v => exact .error e _ _

theorem alike_call (hfg : Cell.Alike l.pairs f g) (h : List.Forall₂ (Cell.Alike l.pairs) us vs)
    (hstore : correspondence.store l s t) :
    Outcome (fun a s' b t' =>
        ∃ l', l.Le l' ∧ correspondence.store l' s' t' ∧ Cell.Alike l'.pairs a b)
      (call f us s) (call g vs t) := by
  have hname : f = .constant (.symbol "tick") ↔ g = .constant (.symbol "tick") := by
    cases hfg <;> simp
  unfold call
  split
  · rename_i hf
    rw [if_pos (hname.1 hf)]
    -- both are told the same count
    have hcount := hstore.2
    refine .ok ⟨l, ⟨List.Subset.refl _, List.Subset.refl _⟩, ⟨hstore.1, ?_⟩, ?_⟩
    · simp only [hcount]
    · rw [hcount]
      exact .constant _
  · rename_i hf
    rw [if_neg (mt hname.2 hf)]
    exact alike_lift (alike_callMaker hfg h) hstore

/-- The functions that make vectors do not count. -/
theorem count_of_callNamed {name : String} {args : List Cell} {a : Cell} {w w' : World .counter}
    (hname : name ≠ "tick") (h : Run.callNamed name args w = .ok a w') :
    w'.store.heap.count = w.store.heap.count := by
  obtain ⟨s, hs, rfl⟩ := Run.callNamed_eq_ok.1 h
  change call (.constant (.symbol name)) args w.store = .ok a s at hs
  rw [call, if_neg (by simpa using hname)] at hs
  exact (lift_ok hs).2

def likeness : Likeness VectorView.counter where
  toCorrespondence := correspondence
  le_refl l := ⟨List.Subset.refl _, List.Subset.refl _⟩
  le_trans h h' := ⟨List.Subset.trans h.1 h'.1, List.Subset.trans h.2 h'.2⟩
  value_le h huv := Cell.Alike.mono h.1 huv
  own_le h hown := by
    obtain ⟨q, hq, ha⟩ := hown
    exact ⟨q, h.2 hq, ha⟩
  constant l c := .constant c
  isNil h := by cases h <;> rfl
  var x h := h.1.vars x
  unary _ := fun w v _ => .error Stop.panic w v
  binary _ _ := fun w v _ => .error Stop.panic w v
  concat _ := fun w v _ => .error Stop.panic w v
  arrayRef hab hij := Correspondence.alike_primitive fun _ _ => alike_lift (alike_get hab hij)
  arraySet hab hij huv :=
    Correspondence.alike_primitive fun _ _ => alike_lift (alike_set hab hij huv)
  call {l f g us vs} hfg h := fun w v =>
    Correspondence.alike_primitive (C := correspondence) (fun _ _ => alike_call hfg h)
      ⟨w.store, w.calls ++ [(f, us)]⟩ ⟨v.store, v.calls ++ [(g, vs)]⟩
  make h hcall hmakes := by
    obtain ⟨l', hle, hjoins, hown⟩ := h.1.make (inner_makes hmakes)
    exact ⟨l', hle, ⟨hjoins, h.2.trans (count_of_callNamed (by decide) hcall).symm⟩, hown⟩
  fill {l s i a u v elems w w'} h hown _ hset hchanges := by
    obtain ⟨q, hq, rfl⟩ := hown
    obtain ⟨t, ht, rfl⟩ := Run.primitive_eq_ok.1 hset
    have hcount := (lift_ok (x := Cell.set (.vector q) (.constant (.int i)) v) ht).2
    exact ⟨h.1.fill hq (inner_changes hchanges), h.2.trans hcount.symm⟩
  adopt h hown hcontents hcall hmakes huv := by
    obtain ⟨q, hq, rfl⟩ := hown
    obtain ⟨l', hjoins, hab, hmono⟩ := h.1.adopt hq hcontents (inner_makes hmakes) huv
    exact ⟨l', ⟨hjoins, (count_of_callNamed (by decide) hcall).trans h.2⟩, hab, hmono⟩

end Counter

end StackCompiler
