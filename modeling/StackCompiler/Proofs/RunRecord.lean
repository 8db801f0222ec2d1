import StackCompiler.Proofs.PackageRun

/-!
The record of a run is only a record. `stepFollows_call` ties a call with the record to two others.
Without the record, the call is the evaluation of the function's block: both return the same, or
both stop, in the same state of the host. And if the call is strict, it is the same call until the
first breach, with the same moments until then.
-/

namespace StackCompiler

open Source

def mapState {ε σ τ α : Type} (f : σ → τ) : EStateM.Result ε σ α → EStateM.Result ε τ α
  | .ok a s => .ok a (f s)
  | .error e s => .error e (f s)

theorem finalState_mapState {ε σ τ α : Type} (f : σ → τ) (r : EStateM.Result ε σ α) :
    finalState (mapState f r) = f (finalState r) := by
  cases r with
  | ok _ _ | error _ _ => rfl

/-! ### The record of a computation -/

namespace Memory

variable {H : Runtime} {m m₁ m' : Memory H}

/-- The record goes on: breaches stay, and further moments come after them. -/
structure Extends (m m' : Memory H) : Prop where
  isStrict : m'.isStrict = m.isStrict
  breaches : m.breaches <:+ m'.breaches
  moments : ∀ moment ∈ m'.moments, moment ∈ m.moments ∨ m.breaches <:+ moment.breaches

theorem Extends.refl (m : Memory H) : m.Extends m :=
  ⟨rfl, List.suffix_refl _, fun _ h => .inl h⟩

theorem Extends.trans (h : m.Extends m₁) (h₁ : m₁.Extends m') : m.Extends m' where
  isStrict := h₁.isStrict.trans h.isStrict
  breaches := h.breaches.trans h₁.breaches
  moments moment hmoment := by
    obtain hmoment | hlater := h₁.moments moment hmoment
    · exact h.moments moment hmoment
    · exact .inr (h.breaches.trans hlater)

theorem Extends.breaches_eq_nil (h : m.Extends m') (h' : m'.breaches = []) : m.breaches = [] :=
  List.suffix_nil.1 (h' ▸ h.breaches)

theorem extends_withFrames (frames : List (Frame H.Value)) : m.Extends (m.withFrames frames) := by
  refine ⟨rfl, List.suffix_refl _, fun moment hmoment => ?_⟩
  obtain rfl | hmoment := List.mem_cons.1 hmoment
  · exact .inr (List.suffix_refl _)
  · exact .inl hmoment

/-- The memory of a run that ends at its first breach. -/
def strictly (m : Memory H) : Memory H :=
  { m with isStrict := true }

end Memory

/-- A computation extends the record. Where no breach has been noted, the strict computation does
the same, or the computation comes to a breach and the strict one ends with all moments before it.
-/
structure Records {ε σ α : Type} {H : Runtime} (memory : σ → Memory H) (strictly : σ → σ)
    (x : EStateM ε σ α) : Prop where
  grows : ∀ s, (memory s).Extends (memory (finalState (x s)))
  agrees : ∀ s, (memory s).isStrict = false → (memory (finalState (x s))).breaches = [] →
    x (strictly s) = mapState strictly (x s)
  stops : ∀ s, (memory s).isStrict = false → (memory s).breaches = [] →
    (memory (finalState (x s))).breaches ≠ [] → ∃ e t, x (strictly s) = .error e t ∧
      ∀ moment ∈ (memory (finalState (x s))).moments, moment.breaches = [] →
        moment ∈ (memory t).moments

namespace Records

variable {ε σ α β : Type} {H : Runtime} {memory : σ → Memory H} {strictly : σ → σ}

/-- A computation that notes no breach. -/
theorem of_keeps {x : EStateM ε σ α} (hgrows : ∀ s, (memory s).Extends (memory (finalState (x s))))
    (hkeeps : ∀ s, (memory (finalState (x s))).breaches = (memory s).breaches)
    (hstrict : ∀ s, x (strictly s) = mapState strictly (x s)) : Records memory strictly x where
  grows := hgrows
  agrees s _ _ := hstrict s
  stops s _ hnone hsome := absurd ((hkeeps s).trans hnone) hsome

theorem of_pure (a : α) : Records memory strictly (pure a : EStateM ε σ α) :=
  of_keeps (fun s => .refl (memory s)) (fun _ => rfl) fun _ => rfl

theorem of_throw (e : ε) : Records memory strictly (throw e : EStateM ε σ α) :=
  of_keeps (fun s => .refl (memory s)) (fun _ => rfl) fun _ => rfl

theorem bind {x : EStateM ε σ α} {f : α → EStateM ε σ β} (hx : Records memory strictly x)
    (hf : ∀ a, Records memory strictly (f a)) : Records memory strictly (x >>= f) where
  grows s := by
    have hgrows := hx.grows s
    cases hs : x s with
    | ok a t =>
        rw [hs] at hgrows
        rw [bind_of_ok hs]
        exact hgrows.trans ((hf a).grows t)
    | error e t =>
        rw [hs] at hgrows
        rw [bind_of_error hs]
        exact hgrows
  agrees s hgoing hnone := by
    have hgrows := hx.grows s
    have hagrees := hx.agrees s hgoing
    cases hs : x s with
    | ok a t =>
        rw [hs] at hgrows hagrees
        rw [bind_of_ok hs] at hnone ⊢
        rw [bind_of_ok (hagrees (((hf a).grows t).breaches_eq_nil hnone))]
        exact (hf a).agrees t (hgrows.isStrict.trans hgoing) hnone
    | error e t =>
        rw [hs] at hagrees
        rw [bind_of_error hs] at hnone ⊢
        rw [bind_of_error (hagrees hnone)]
        rfl
  stops s hgoing hnone hsome := by
    have hgrows := hx.grows s
    have hagrees := hx.agrees s hgoing
    have hstops := hx.stops s hgoing hnone
    cases hs : x s with
    | ok a t =>
        rw [hs] at hgrows hagrees hstops
        rw [bind_of_ok hs] at hsome ⊢
        by_cases ht : (memory t).breaches = []
        · obtain ⟨e, u, hu, hmoments⟩ :=
            (hf a).stops t (hgrows.isStrict.trans hgoing) ht hsome
          exact ⟨e, u, (bind_of_ok (hagrees ht) f).trans hu, hmoments⟩
        -- the strict computation has ended, and what `f` adds comes after the breach
        · obtain ⟨e, u, hu, hmoments⟩ := hstops ht
          refine ⟨e, u, bind_of_error hu f, fun moment hmoment hfree => ?_⟩
          obtain hmoment | hlater := ((hf a).grows t).moments moment hmoment
          · exact hmoments moment hmoment hfree
          · rw [hfree] at hlater
            exact absurd (List.suffix_nil.1 hlater) ht
    | error e t =>
        rw [hs] at hstops
        rw [bind_of_error hs] at hsome ⊢
        obtain ⟨e', u, hu, hmoments⟩ := hstops hsome
        exact ⟨e', u, bind_of_error hu f, hmoments⟩

/-- What is written down before the first breach is written down by the strict computation too. -/
theorem mem_strict_moments {x : EStateM ε σ α} (hx : Records memory strictly x)
    (hstrictly : ∀ s, (memory (strictly s)).moments = (memory s).moments) {s : σ}
    (hgoing : (memory s).isStrict = false) (hnone : (memory s).breaches = [])
    {moment : Moment H.Value} (hmoment : moment ∈ (memory (finalState (x s))).moments)
    (hfree : moment.breaches = []) :
    moment ∈ (memory (finalState (x (strictly s)))).moments := by
  by_cases hend : (memory (finalState (x s))).breaches = []
  · rw [hx.agrees s hgoing hend, finalState_mapState, hstrictly]
    exact hmoment
  · obtain ⟨e, t, ht, hmoments⟩ := hx.stops s hgoing hnone hend
    rw [ht]
    exact hmoments moment hmoment hfree

end Records

namespace Deployment

variable {D : Deployment} {calls : D.Calls} {plain : D.PlainCalls} {α β : Type}

def forget (s : Store D.host.Value (Memory D.host)) : Store D.host.Value D.host.Heap :=
  ⟨s.vars, s.heap.heap⟩

def forgetWorld (plain : D.PlainCalls) (w : World (D.runtime calls)) :
    World (D.plainRuntime plain) :=
  ⟨forget w.store, w.calls⟩

def strictStore (s : Store D.host.Value (Memory D.host)) : Store D.host.Value (Memory D.host) :=
  ⟨s.vars, s.heap.strictly⟩

def strictWorld (w : World (D.runtime calls)) : World (D.runtime calls) :=
  ⟨strictStore w.store, w.calls⟩

abbrev RunRecords (x : Run (D.runtime calls) α) : Prop :=
  Records (fun w => w.store.heap) strictWorld x

theorem records_frame : RunRecords (frame : Run (D.runtime calls) _) :=
  .of_keeps (fun w => .refl w.store.heap) (fun _ => rfl) fun _ => rfl

theorem records_setFrame (fr : Frame D.host.Value) :
    RunRecords (setFrame fr : Run (D.runtime calls) _) :=
  .of_keeps (fun _ => Memory.extends_withFrames _) (fun _ => rfl) fun _ => rfl

theorem records_require (holds : (String → D.host.Value) → Bool) (breach : Breach) :
    RunRecords (require holds breach : Run (D.runtime calls) _) where
  grows w := by
    unfold require
    split
    · exact .refl _
    · split
      · exact .refl _
      · exact ⟨rfl, List.suffix_cons _ _, fun _ h => .inl h⟩
  agrees w hgoing hnone := by
    unfold require at hnone ⊢
    rw [hgoing] at hnone ⊢
    split at hnone
    · rename_i hholds
      rw [if_pos hholds]
      exact if_pos hholds
    · exact absurd hnone (List.cons_ne_nil _ _)
  stops w hgoing hnone hsome := by
    unfold require at hsome ⊢
    rw [hgoing] at hsome ⊢
    split at hsome
    · exact absurd hnone hsome
    · rename_i hholds
      refine ⟨.stuck, strictWorld w, if_neg hholds, fun moment hmoment _ => ?_⟩
      rw [if_neg hholds] at hmoment
      exact hmoment

theorem records_primitive {x : Action D.host.Value (Memory D.host) α}
    (h : Records Store.heap strictStore x) :
    RunRecords (Run.primitive x : Run (D.runtime calls) α) where
  grows w := by
    have hgrows := h.grows w.store
    unfold Run.primitive
    cases hs : x w.store with
    | ok a s | error e s =>
        rw [hs] at hgrows
        exact hgrows
  agrees w hgoing hnone := by
    have hagrees := h.agrees w.store hgoing
    unfold Run.primitive at hnone ⊢
    cases hs : x w.store with
    | ok a s | error e s =>
        rw [hs] at hagrees hnone
        simp only [strictWorld, hagrees hnone, mapState]
  stops w hgoing hnone hsome := by
    have hstops := h.stops w.store hgoing hnone
    unfold Run.primitive at hsome ⊢
    cases hs : x w.store with
    | ok a s | error e s =>
        rw [hs] at hstops hsome
        obtain ⟨e, t, ht, hmoments⟩ := hstops hsome
        exact ⟨.panic, ⟨t, w.calls⟩, by simp only [strictWorld, ht], hmoments⟩

/-! ### Runs and their record -/

/-- A step of the host keeps a record, does the same without it, and changes no frame. -/
structure StepFollows (x : Action D.host.Value (Memory D.host) α)
    (y : Action D.host.Value D.host.Heap α) : Prop where
  records : Records Store.heap strictStore x
  forgets : ∀ s, s.heap.isStrict = false → y (forget s) = mapState forget (x s)
  frames : ∀ s a s', x s = .ok a s' → s'.heap.frames = s.heap.frames

/-- All calls of functions of the package do the same without the record. -/
abbrev CallsFollow (calls : D.Calls) (plain : D.PlainCalls) : Prop :=
  ∀ g args, StepFollows (calls g args) (plain g args)

/-- A computation keeps a record, does the same without it, and changes no frame. -/
structure Follows (x : Run (D.runtime calls) α) (y : Run (D.plainRuntime plain) α) : Prop where
  records : RunRecords x
  forgets : ∀ w, w.store.heap.isStrict = false →
    y (forgetWorld plain w) = mapState (forgetWorld plain) (x w)
  frames : ∀ w a w', x w = .ok a w' → w'.store.heap.frames = w.store.heap.frames

theorem stepFollows_onHeap (x : Action D.host.Value D.host.Heap α) :
    StepFollows (Memory.onHeap x) x where
  records := by
    refine .of_keeps (fun s => ?_) (fun s => ?_) fun s => ?_
    · unfold Memory.onHeap
      cases x ⟨s.vars, s.heap.heap⟩ with
      | ok _ _ | error _ _ => exact ⟨rfl, List.suffix_refl _, fun _ h => .inl h⟩
    · unfold Memory.onHeap
      cases x ⟨s.vars, s.heap.heap⟩ with
      | ok _ _ | error _ _ => rfl
    · simp only [Memory.onHeap, strictStore, Memory.strictly]
      cases x ⟨s.vars, s.heap.heap⟩ with
      | ok _ _ | error _ _ => rfl
  forgets s _ := by
    simp only [Memory.onHeap, forget]
    cases x ⟨s.vars, s.heap.heap⟩ with
    | ok _ _ | error _ _ => rfl
  frames s a s' h := by
    unfold Memory.onHeap at h
    split at h
    · cases h
      rfl
    · cases h

theorem stepFollows_dispatch (hcalls : CallsFollow calls plain)
    (f : D.host.Value) (args : List D.host.Value) :
    StepFollows ((D.runtime calls).call f args) ((D.plainRuntime plain).call f args) := by
  show StepFollows (D.dispatch calls _ f args) (D.dispatch plain _ f args)
  unfold dispatch
  cases D.callee? f with
  | some g => exact hcalls g args
  | none =>
      cases args with
      | nil => exact stepFollows_onHeap _
      | cons target rest =>
          dsimp only
          split
          · cases D.callee? target with
            | some g => exact hcalls g rest
            | none => exact stepFollows_onHeap _
          · exact stepFollows_onHeap _

namespace Follows

theorem of_pure (a : α) :
    Follows (pure a : Run (D.runtime calls) α) (pure a : Run (D.plainRuntime plain) α) where
  records := .of_pure a
  forgets _ _ := rfl
  frames w b w' h := by
    obtain ⟨-, rfl⟩ := pure_eq_ok.1 h
    rfl

theorem of_throw (e : Stop) :
    Follows (throw e : Run (D.runtime calls) α) (throw e : Run (D.plainRuntime plain) α) where
  records := .of_throw e
  forgets _ _ := rfl
  frames _ _ _ h := absurd h throw_ne_ok

theorem bind {x : Run (D.runtime calls) α} {y : Run (D.plainRuntime plain) α}
    {f : α → Run (D.runtime calls) β} {g : α → Run (D.plainRuntime plain) β} (hx : Follows x y)
    (hf : ∀ a, Follows (f a) (g a)) : Follows (x >>= f) (y >>= g) where
  records := hx.records.bind fun a => (hf a).records
  forgets w hgoing := by
    have hy := hx.forgets w hgoing
    have hgrows := hx.records.grows w
    cases hw : x w with
    | ok a u =>
        rw [hw] at hy hgrows
        rw [bind_of_ok hy, bind_of_ok hw]
        exact (hf a).forgets u (hgrows.isStrict.trans hgoing)
    | error e u =>
        rw [hw] at hy
        rw [bind_of_error hy, bind_of_error hw]
        rfl
  frames w b w' h := by
    obtain ⟨a, u, hu, h⟩ := bind_eq_ok.1 h
    exact ((hf a).frames u b w' h).trans (hx.frames w a u hu)

theorem primitive {x : Action D.host.Value (Memory D.host) α}
    {y : Action D.host.Value D.host.Heap α} (h : StepFollows x y) :
    Follows (Run.primitive x : Run (D.runtime calls) α)
      (Run.primitive y : Run (D.plainRuntime plain) α) where
  records := records_primitive h.records
  forgets w hgoing := by
    have hy := h.forgets w.store hgoing
    simp only [Run.primitive, forgetWorld, hy]
    cases x w.store with
    | ok _ _ | error _ _ => rfl
  frames w a w' hw := by
    obtain ⟨s, hs, rfl⟩ := Run.primitive_eq_ok.1 hw
    exact h.frames _ _ _ hs

theorem readVar (name : String) :
    Follows (Run.readVar name : Run (D.runtime calls) _)
      (Run.readVar name : Run (D.plainRuntime plain) _) where
  records := .of_keeps (fun w => .refl w.store.heap) (fun _ => rfl) fun _ => rfl
  forgets _ _ := rfl
  frames w a w' h := by
    cases h
    rfl

theorem writeVar (name : String) (v : D.host.Value) :
    Follows (Run.writeVar name v : Run (D.runtime calls) _)
      (Run.writeVar name v : Run (D.plainRuntime plain) _) where
  records := .of_keeps (fun w => .refl w.store.heap) (fun _ => rfl) fun _ => rfl
  forgets _ _ := rfl
  frames w a w' h := by
    cases h
    rfl

theorem call (hcalls : CallsFollow calls plain) (f : D.host.Value)
    (args : List D.host.Value) :
    Follows (Run.call f args : Run (D.runtime calls) _)
      (Run.call f args : Run (D.plainRuntime plain) _) := by
  have hstep : Follows (Run.primitive ((D.runtime calls).call f args) : Run (D.runtime calls) _)
      (Run.primitive ((D.plainRuntime plain).call f args) : Run (D.plainRuntime plain) _) :=
    .primitive (stepFollows_dispatch hcalls f args)
  -- the call is logged first, in both worlds alike
  exact {
    records := {
      grows := fun w => hstep.records.grows ⟨w.store, w.calls ++ [(f, args)]⟩
      agrees := fun w => hstep.records.agrees ⟨w.store, w.calls ++ [(f, args)]⟩
      stops := fun w => hstep.records.stops ⟨w.store, w.calls ++ [(f, args)]⟩ }
    forgets := fun w => hstep.forgets ⟨w.store, w.calls ++ [(f, args)]⟩
    frames := fun w => hstep.frames ⟨w.store, w.calls ++ [(f, args)]⟩ }

/-- A note in the record is nothing without it. -/
theorem note (holds : (String → D.host.Value) → Bool) (breach : Breach) :
    Follows (Deployment.require holds breach : Run (D.runtime calls) Unit)
      (pure () : Run (D.plainRuntime plain) Unit) where
  records := records_require holds breach
  forgets w hgoing := by
    unfold Deployment.require
    rw [hgoing]
    split
    · rfl
    · rfl
  frames w a w' h := by
    unfold Deployment.require at h
    split at h
    · cases h
      rfl
    · split at h
      · cases h
      · cases h
        rfl

theorem require {x : Run (D.runtime calls) α} {y : Run (D.plainRuntime plain) α}
    (holds : (String → D.host.Value) → Bool) (breach : Breach) (hx : Follows x y) :
    Follows (do Deployment.require holds breach; x) y := by
  have hboth : Follows (do Deployment.require holds breach; x)
      (pure () >>= fun _ => y : Run (D.plainRuntime plain) α) :=
    (note holds breach).bind fun _ => hx
  rwa [pure_bind] at hboth

end Follows

/-! ### Evaluation -/

theorem follows_callValue (hcalls : CallsFollow calls plain)
    (asked : List Kind) (args : List Form) (target : D.host.Value) (vs : List D.host.Value) :
    Follows (callValue asked args target vs : Run (D.runtime calls) _)
      (Run.callNamed Host.funcall (target :: vs) : Run (D.plainRuntime plain) _) :=
  .require _ _ (.call hcalls _ _)

mutual
/-- The value of a form is the same without the record. -/
theorem follows_evalAs (hcalls : CallsFollow calls plain)
    (env : List (String × D.host.Value)) (asked : List Kind) (f : Form) :
    Follows (evalAs env asked f : Run (D.runtime calls) _)
      (evalValue (D.plainRuntime plain) env f) := by
  cases f with
  | bool _ | char _ | int _ | float _ | str _ | symbol _ => exact .of_pure _
  | var name =>
      simp only [evalAs, evalValue]
      cases List.lookup name env with
      | some v => exact .of_pure v
      | none => exact .readVar name
  | array elems =>
      simp only [evalAs, evalValue]
      exact .bind (follows_evalAllAs hcalls env [] elems) fun vs => .call hcalls _ vs
  | sparseArray ctor stores =>
      simp only [evalAs, evalValue]
      exact .bind (follows_evalAs hcalls env asked ctor) fun a =>
        .bind (follows_storesAs hcalls env a stores) fun _ => .of_pure a
  | copy source =>
      simp only [evalAs, evalValue]
      exact .bind (follows_evalAs hcalls env [] source) fun a => .call hcalls _ _
  | get source index =>
      simp only [evalAs, evalValue]
      exact .bind (follows_evalAs hcalls env [] source) fun a =>
        .bind (follows_evalAs hcalls env [] index) fun i => .primitive (stepFollows_onHeap _)
  | op kind family args =>
      simp only [evalAs, evalValue]
      cases kind.operation? family with
      | none => exact .of_throw _
      | some plan =>
          cases plan with
          | concat =>
              exact .bind (follows_evalAllAs hcalls env [] args) fun vs =>
                .primitive (stepFollows_onHeap _)
          | host name =>
              exact .bind (follows_evalAllAs hcalls env [] args) fun vs => .call hcalls _ vs
          | fold i => exact follows_chainAs hcalls env i args
          | foldNot i =>
              exact .bind (follows_chainAs hcalls env i args) fun v =>
                .primitive (stepFollows_onHeap _)
  | unary kind family arg =>
      cases kind with
      | neg =>
          cases family with
          | int | float =>
              simp only [evalAs, evalValue]
              exact .bind (follows_evalAs hcalls env [] arg) fun v =>
                .primitive (stepFollows_onHeap _)
          | string => exact .of_throw _
      | bitNot =>
          cases family with
          | int =>
              simp only [evalAs, evalValue]
              exact .bind (follows_evalAs hcalls env [] arg) fun v => .call hcalls _ _
          | float | string => exact .of_throw _
  | not arg =>
      simp only [evalAs, evalValue]
      exact .bind (follows_evalAs hcalls env [] arg) fun v => .primitive (stepFollows_onHeap _)
  | and left right =>
      simp only [evalAs, evalValue]
      refine .bind (follows_evalAs hcalls env [] left) fun v => ?_
      split
      · exact .of_pure v
      · exact follows_evalAs hcalls env [] right
  | or left right =>
      simp only [evalAs, evalValue]
      refine .bind (follows_evalAs hcalls env [] left) fun v => ?_
      split
      · exact follows_evalAs hcalls env [] right
      · exact .of_pure v
  | call name args =>
      simp only [evalAs, evalValue]
      split
      · rename_i hname
        rw [hname]
        exact follows_funcallAs hcalls env asked args
      · exact .bind (follows_evalAllAs hcalls env _ args) fun vs => .call hcalls _ vs
  | dynCall callee args =>
      simp only [evalAs, evalValue]
      exact .bind (follows_evalAs hcalls env [] callee) fun target =>
        .bind (follows_evalAllAs hcalls env _ args) fun vs =>
          follows_callValue hcalls asked args target vs
  | resultRef index =>
      simp only [evalAs, evalValue]
      cases Host.resultVar? index with
      | some var => exact .readVar var
      | none => exact .of_throw _
  | block _ | branch _ _ _ | loop _ _ _ | ret _ | breakLoop | continueLoop | bind _ _ | rebind _ _
  | set _ _ _ => exact .of_throw _
termination_by structural f

theorem follows_evalAllAs (hcalls : CallsFollow calls plain)
    (env : List (String × D.host.Value)) (kinds : List Kind) (fs : List Form) :
    Follows (evalAllAs env kinds fs : Run (D.runtime calls) _)
      (evalValues (D.plainRuntime plain) env fs) := by
  cases fs with
  | nil => exact .of_pure _
  | cons f fs =>
      simp only [evalAllAs, evalValues]
      exact .bind (follows_evalAs hcalls env _ f) fun v =>
        .bind (follows_evalAllAs hcalls env _ fs) fun vs => .of_pure _
termination_by structural fs

theorem follows_funcallAs (hcalls : CallsFollow calls plain)
    (env : List (String × D.host.Value)) (asked : List Kind) (fs : List Form) :
    Follows (funcallAs env asked fs : Run (D.runtime calls) _)
      (evalValues (D.plainRuntime plain) env fs >>= Run.callNamed Host.funcall) := by
  cases fs with
  | nil =>
      simp only [funcallAs, evalValues, pure_bind]
      exact .require _ _ (.call hcalls _ _)
  | cons f fs =>
      simp only [funcallAs, evalValues, bind_assoc, pure_bind]
      exact .bind (follows_evalAs hcalls env [] f) fun target =>
        .bind (follows_evalAllAs hcalls env _ fs) fun vs =>
          follows_callValue hcalls asked fs target vs
termination_by structural fs

theorem follows_chainAs (hcalls : CallsFollow calls plain)
    (env : List (String × D.host.Value)) (i : BinaryInstr) (fs : List Form) :
    Follows (chainAs env i fs : Run (D.runtime calls) _)
      (evalChain (D.plainRuntime plain) env i fs) := by
  cases fs with
  | nil => exact .of_throw _
  | cons f fs =>
      simp only [chainAs, evalChain]
      exact .bind (follows_evalAs hcalls env [] f) fun v => follows_chainRestAs hcalls env i v fs
termination_by structural fs

theorem follows_chainRestAs (hcalls : CallsFollow calls plain)
    (env : List (String × D.host.Value)) (i : BinaryInstr) (left : D.host.Value) (fs : List Form) :
    Follows (chainRestAs env i left fs : Run (D.runtime calls) _)
      (evalChainRest (D.plainRuntime plain) env i left fs) := by
  cases fs with
  | nil => exact .of_pure _
  | cons f fs =>
      simp only [chainRestAs, evalChainRest]
      exact .bind (follows_evalAs hcalls env [] f) fun right =>
        .bind (.primitive (stepFollows_onHeap _)) fun v => follows_chainRestAs hcalls env i v fs
termination_by structural fs

theorem follows_storesAs (hcalls : CallsFollow calls plain)
    (env : List (String × D.host.Value)) (a : D.host.Value) (stores : List (Int64 × Form)) :
    Follows (storesAs env a stores : Run (D.runtime calls) _)
      (evalStores (D.plainRuntime plain) env a stores) := by
  match stores with
  | [] => exact .of_pure _
  | (index, f) :: rest =>
      simp only [storesAs, evalStores]
      exact .bind (follows_evalAs hcalls env [] f) fun v =>
        .bind (.primitive (stepFollows_onHeap _)) fun _ => follows_storesAs hcalls env a rest
termination_by structural stores
end

theorem follows_storeResults (hcalls : CallsFollow calls plain)
    (env : List (String × D.host.Value)) (kinds : List Kind) (vars : List String)
    (fs : List Form) {k : List (String × D.host.Value) → Run (D.runtime calls) α}
    {k' : Run (D.plainRuntime plain) α} (hk : ∀ stored, Follows (k stored) k') :
    Follows (storeResults env kinds vars fs >>= k)
      (evalResults (D.plainRuntime plain) env vars fs >>= fun _ => k') := by
  induction fs generalizing kinds vars k with
  | nil =>
      cases vars with
      | nil | cons _ _ =>
          simp only [storeResults, evalResults, pure_bind]
          exact hk []
  | cons f fs ih =>
      cases vars with
      | nil =>
          show Follows (throw .stuck : Run (D.runtime calls) α) (throw .stuck)
          exact .of_throw _
      | cons var vars =>
          simp only [storeResults, evalResults, bind_assoc, pure_bind]
          exact .bind (follows_evalAs hcalls env _ f) fun v =>
            .bind (.writeVar var v) fun _ => ih _ vars fun stored => hk _

/-! ### Statements -/

/-- The outcome on the innermost frame as one in its environment. -/
def withEnv (plain : D.PlainCalls) : EStateM.Result Stop (World (D.runtime calls)) α →
    EStateM.Result Stop (World (D.plainRuntime plain)) (α × Env (D.plainRuntime plain))
  | .ok a w => .ok (a, (w.store.heap.frames.headD []).env) (forgetWorld plain w)
  | .error e w => .error e (forgetWorld plain w)

/-- A computation on the innermost frame keeps a record, does the same in the environment of that
frame without it, and changes no other frame. -/
structure Tracks (x : Run (D.runtime calls) α)
    (y : Env (D.plainRuntime plain) → Run (D.plainRuntime plain)
      (α × Env (D.plainRuntime plain))) : Prop where
  records : RunRecords x
  forgets : ∀ w fr rest, w.store.heap.isStrict = false → w.store.heap.frames = fr :: rest →
    y fr.env (forgetWorld plain w) = withEnv plain (x w)
  frames : ∀ w fr rest a w', w.store.heap.frames = fr :: rest → x w = .ok a w' →
    ∃ fr', w'.store.heap.frames = fr' :: rest

namespace Tracks

theorem congr {x : Run (D.runtime calls) α}
    {y y' : Env (D.plainRuntime plain) → Run (D.plainRuntime plain)
      (α × Env (D.plainRuntime plain))} (h : Tracks x y) (heq : ∀ env, y' env = y env) :
    Tracks x y' := by
  rwa [funext heq]

theorem of_follows {x : Run (D.runtime calls) α} {y : Run (D.plainRuntime plain) α}
    (h : Follows x y) : Tracks x fun env => do let a ← y; return (a, env) where
  records := h.records
  forgets w fr rest hgoing hframes := by
    have hy := h.forgets w hgoing
    cases hw : x w with
    | ok a u =>
        rw [hw] at hy
        rw [bind_of_ok hy]
        have hu := (h.frames w a u hw).trans hframes
        simp only [withEnv, hu]
        rfl
    | error e u =>
        rw [hw] at hy
        exact bind_of_error hy _
  frames w fr rest a w' hframes hw := ⟨fr, (h.frames w a w' hw).trans hframes⟩

theorem frame {x : Frame D.host.Value → Run (D.runtime calls) α}
    {y : Env (D.plainRuntime plain) → Env (D.plainRuntime plain) → Run (D.plainRuntime plain)
      (α × Env (D.plainRuntime plain))} (h : ∀ fr, Tracks (x fr) (y fr.env)) :
    Tracks (do let fr ← Deployment.frame; x fr) fun env => y env env where
  records := records_frame.bind fun fr => (h fr).records
  forgets w fr rest hgoing hframes := by
    have hhead : (Deployment.frame >>= x) w = x fr w := by
      show x (w.store.heap.frames.headD []) w = x fr w
      rw [hframes, List.headD_cons]
    rw [hhead]
    exact (h fr).forgets w fr rest hgoing hframes
  frames w fr rest a w' hframes hw := by
    obtain ⟨fr', u, hu, hw⟩ := bind_eq_ok.1 hw
    cases hu
    exact (h _).frames w fr rest a w' hframes hw

theorem setFrame {x : Run (D.runtime calls) α}
    {y : Env (D.plainRuntime plain) → Run (D.plainRuntime plain)
      (α × Env (D.plainRuntime plain))} (fr : Frame D.host.Value) (hx : Tracks x y) :
    Tracks (do Deployment.setFrame fr; x) fun _ => y fr.env where
  records := (records_setFrame fr).bind fun _ => hx.records
  forgets w _ rest hgoing hframes := by
    have hnext : (withFrame fr w).store.heap.frames = fr :: rest := by
      simp only [withFrame, Memory.withFrames, hframes, List.tail_cons]
    exact hx.forgets (withFrame fr w) fr rest hgoing hnext
  frames w _ rest a w' hframes hw := by
    have hnext : (withFrame fr w).store.heap.frames = fr :: rest := by
      simp only [withFrame, Memory.withFrames, hframes, List.tail_cons]
    exact hx.frames (withFrame fr w) fr rest a w' hnext hw

theorem bind {x : Run (D.runtime calls) α}
    {y : Env (D.plainRuntime plain) → Run (D.plainRuntime plain)
      (α × Env (D.plainRuntime plain))} {f : α → Run (D.runtime calls) β}
    {g : α × Env (D.plainRuntime plain) → Run (D.plainRuntime plain)
      (β × Env (D.plainRuntime plain))} (hx : Tracks x y)
    (hf : ∀ a, Tracks (f a) fun env => g (a, env)) : Tracks (x >>= f) fun env => y env >>= g where
  records := hx.records.bind fun a => (hf a).records
  forgets w fr rest hgoing hframes := by
    have hy := hx.forgets w fr rest hgoing hframes
    have hgrows := hx.records.grows w
    cases hw : x w with
    | ok a u =>
        rw [hw] at hy hgrows
        obtain ⟨fr', hu⟩ := hx.frames w fr rest a u hframes hw
        simp only [withEnv, hu] at hy
        rw [bind_of_ok hy, bind_of_ok hw]
        exact (hf a).forgets u fr' rest (hgrows.isStrict.trans hgoing) hu
    | error e u =>
        rw [hw] at hy
        rw [bind_of_error hy, bind_of_error hw]
        rfl
  frames w fr rest b w' hframes hw := by
    obtain ⟨a, u, hu, hw⟩ := bind_eq_ok.1 hw
    obtain ⟨fr', hframes'⟩ := hx.frames w fr rest a u hframes hu
    exact (hf a).frames u fr' rest b w' hframes' hw

/-- What comes first leaves the environment as it is. -/
theorem bind_value {x : Run (D.runtime calls) α}
    {y : Env (D.plainRuntime plain) → Run (D.plainRuntime plain) α}
    {f : α → Run (D.runtime calls) β}
    {g : α → Env (D.plainRuntime plain) → Run (D.plainRuntime plain)
      (β × Env (D.plainRuntime plain))} (hx : Tracks x fun env => do let a ← y env; return (a, env))
    (hf : ∀ a, Tracks (f a) (g a)) : Tracks (x >>= f) fun env => y env >>= fun a => g a env := by
  have hboth : Tracks (x >>= f) fun env => (do let a ← y env; return (a, env)) >>=
      fun r => g r.1 r.2 := hx.bind hf
  exact hboth.congr fun env => by simp only [bind_assoc, pure_bind]

theorem of_pure (a : α) :
    Tracks (pure a : Run (D.runtime calls) _)
      fun env => (pure (a, env) : Run (D.plainRuntime plain) _) :=
  (of_follows (.of_pure a)).congr fun _ => (pure_bind _ _).symm

theorem of_throw (e : Stop) :
    Tracks (throw e : Run (D.runtime calls) α)
      fun _ => (throw e : Run (D.plainRuntime plain) _) :=
  of_follows (.of_throw e)

theorem valueOf (hcalls : CallsFollow calls plain) (asked : List Kind) (f : Form) :
    Tracks (valueOf asked f : Run (D.runtime calls) _)
      fun env => do let v ← evalValue (D.plainRuntime plain) env f; return (v, env) :=
  frame (y := fun inner env => do
      let v ← evalValue (D.plainRuntime plain) inner f
      return (v, env))
    fun fr => of_follows (follows_evalAs hcalls fr.env asked f)

theorem ite {x x' : Run (D.runtime calls) α}
    {y y' : Env (D.plainRuntime plain) → Run (D.plainRuntime plain)
      (α × Env (D.plainRuntime plain))} (b : Bool) (hx : Tracks x y) (hx' : Tracks x' y') :
    Tracks (if b then x else x') fun env => if b then y env else y' env := by
  cases b with
  | true => exact hx
  | false => exact hx'

theorem inBlock {x : Run (D.runtime calls) (Flow D.host.Value)}
    {y : Env (D.plainRuntime plain) → Run (D.plainRuntime plain)
      (Flow D.host.Value × Env (D.plainRuntime plain))} (h : Tracks x y) :
    Tracks (Deployment.inBlock x) fun env => endBlock env (y env) := by
  refine frame (y := fun outer env => endBlock outer (y env)) fun outer => h.bind fun flow => ?_
  refine frame (y := fun inner _ => pure (flow, lowest outer.env.length inner)) fun inner => ?_
  exact (setFrame _ (of_pure flow)).congr fun _ => by rw [Frame.lowest_env]

theorem rounds {test : Run (D.runtime calls) D.host.Value}
    {test' : Env (D.plainRuntime plain) → Run (D.plainRuntime plain) D.host.Value}
    {body post : Run (D.runtime calls) (Flow D.host.Value)}
    {body' post' : Env (D.plainRuntime plain) → Run (D.plainRuntime plain)
      (Flow D.host.Value × Env (D.plainRuntime plain))}
    (htest : Tracks test fun env => do let c ← test' env; return (c, env))
    (hbody : Tracks body body') (hpost : Tracks post post') (n : Nat) :
    Tracks (Deployment.rounds test body post n) (execRounds test' body' post' n) := by
  induction n with
  | zero => exact .of_throw _
  | succ n ih =>
      rw [Deployment.rounds]
      refine .congr ?_ fun env => execRounds.eq_2 test' body' post' env n
      refine htest.bind_value fun c => .ite _ (.of_pure _) (hbody.bind fun flow => ?_)
      cases flow with
      | ret v => exact .of_pure _
      | breakLoop => exact .of_pure _
      | next | continueLoop =>
          refine hpost.bind fun flow => ?_
          cases flow with
          | next => exact ih
          | ret v => exact .of_pure _
          | breakLoop | continueLoop => exact .of_throw _

theorem require {x : Run (D.runtime calls) α}
    {y : Env (D.plainRuntime plain) → Run (D.plainRuntime plain)
      (α × Env (D.plainRuntime plain))} (holds : (String → D.host.Value) → Bool) (breach : Breach)
    (hx : Tracks x y) : Tracks (do Deployment.require holds breach; x) y :=
  ((of_follows (.note holds breach)).bind_value fun _ => hx).congr fun _ => (pure_bind _ _).symm

end Tracks

theorem update?_env {fr : Frame D.host.Value} {name : String} {v : D.host.Value} :
    Env.update? (R := D.plainRuntime plain) name v fr.env =
      (fr.find? name).map fun _ => (fr.update name v).env := by
  induction fr with
  | nil => rfl
  | cons x fr ih =>
      simp only [Frame.env, List.map_cons, Env.update?, Frame.find?, List.find?_cons,
        Frame.update] at ih ⊢
      by_cases hx : x.name = name
      · simp [hx]
      · simp only [hx, if_false, decide_false, ih, Option.map_map]
        rfl

theorem tracks_assign (name : String) (kind : Kind) (v : D.host.Value) :
    Tracks (do assign name kind v; return .next : Run (D.runtime calls) (Flow D.host.Value))
      fun env => (Env.update? (R := D.plainRuntime plain) name v env).elim
        (do Run.writeVar name v; return (.next, env)) fun env => return (.next, env) := by
  simp only [assign, bind_assoc]
  refine .frame (y := fun inner env => (Env.update? (R := D.plainRuntime plain) name v inner).elim
    (do Run.writeVar name v; return (Flow.next, env)) fun env => return (Flow.next, env))
      fun fr => ?_
  rw [update?_env]
  cases fr.find? name with
  | none =>
      exact ((Tracks.of_follows (.writeVar name v)).bind_value fun _ => .of_pure Flow.next).congr
        fun env => rfl
  | some x =>
      simp only [bind_assoc]
      exact .require _ _ (.setFrame _ (.of_pure Flow.next))

theorem tracks_yieldAs (hcalls : CallsFollow calls plain)
    (asked : List Kind) (results : List Form) :
    Tracks (do let fr ← frame; yieldAs fr.env asked results : Run (D.runtime calls) _)
      (execForm (D.plainRuntime plain) D.fuel (.ret results)) := by
  cases results with
  | nil => exact .frame (y := fun _ env => pure (_, env)) fun fr => .of_pure _
  | cons first rest =>
      refine (Tracks.frame (y := fun inner env => (do
        let v ← evalValue (D.plainRuntime plain) inner first
        evalResults (D.plainRuntime plain) inner Host.resultVars rest
        return Flow.ret v) >>= fun flow => pure (flow, env)) fun fr => .of_follows ?_).congr
          fun env => ?_
      · exact .bind (follows_evalAs hcalls fr.env _ first) fun v =>
          follows_storeResults hcalls fr.env _ _ rest fun stored => .require _ _ (.of_pure _)
      · simp only [execForm, bind_assoc, pure_bind]

mutual
/-- A typed form runs as its form does in the environment of the innermost frame. -/
theorem tracks_exec (hcalls : CallsFollow calls plain) (t : TypedForm) :
    Tracks (exec t : Run (D.runtime calls) _)
      (execForm (D.plainRuntime plain) D.fuel t.form) := by
  cases t with
  | block body => exact (tracks_execAll hcalls body).inBlock
  | branch cond body els =>
      have hcond := Tracks.valueOf hcalls [] cond
      have hbody := (tracks_execAll hcalls body).inBlock
      cases els with
      | none =>
          exact (hcond.bind_value fun c => .ite _ (.of_pure _) hbody).congr fun env => rfl
      | some other =>
          exact (hcond.bind_value fun c => .ite _ (tracks_exec hcalls other) hbody).congr
            fun env => rfl
  | loop cond body post =>
      have hcond := Tracks.valueOf hcalls [] cond
      have hbody := (tracks_execAll hcalls body).inBlock
      cases post with
      | none => exact hcond.rounds hbody (.of_pure _) D.fuel
      | some after => exact hcond.rounds hbody (tracks_exec hcalls after) D.fuel
  | bind asked name kind init =>
      refine ((Tracks.valueOf hcalls asked init).bind_value fun v => ?_).congr fun env => rfl
      exact .frame (y := fun inner _ => pure (Flow.next, (name, v) :: inner))
        fun fr => .setFrame _ (.of_pure _)
  | rebind asked name kind value =>
      refine ((Tracks.valueOf hcalls asked value).bind_value fun v =>
        tracks_assign name kind v).congr fun env => ?_
      simp only [TypedForm.form, execForm]
      congr
      funext v
      cases Env.update? (R := D.plainRuntime plain) name v env with
      | none | some _ => rfl
  | set asked target index value =>
      exact ((Tracks.valueOf hcalls [] target).bind_value fun a =>
        (Tracks.valueOf hcalls [] index).bind_value fun i =>
          (Tracks.valueOf hcalls asked value).bind_value fun v =>
            (Tracks.of_follows (.primitive (stepFollows_onHeap _))).bind_value fun _ =>
              .of_pure _).congr fun env => rfl
  | ret asked results => exact tracks_yieldAs hcalls asked results
  | breakLoop => exact .of_pure _
  | continueLoop => exact .of_pure _
  | value asked f hf =>
      exact ((Tracks.valueOf hcalls asked f).bind_value fun _ => .of_pure _).congr
        (execForm_of_isStatement hf)
termination_by structural t

theorem tracks_execAll (hcalls : CallsFollow calls plain) (ts : List TypedForm) :
    Tracks (execAll ts : Run (D.runtime calls) _)
      (execForms (D.plainRuntime plain) D.fuel (typedForms ts)) := by
  cases ts with
  | nil => exact .of_pure _
  | cons t ts =>
      rw [execAll]
      refine .congr ?_ fun env => execForms.eq_2 _ _ env _ _
      refine (tracks_exec hcalls t).bind fun flow => ?_
      cases flow with
      | next => exact tracks_execAll hcalls ts
      | breakLoop | continueLoop | ret _ => exact .of_pure _
termination_by structural ts
end

/-! ### Bodies and calls -/

theorem records_execBody (hcalls : CallsFollow calls plain) (f : Function) (body : List TypedForm) :
    RunRecords (execBody f body : Run (D.runtime calls) _) := by
  refine (tracks_execAll hcalls body).records.bind fun flow => ?_
  cases flow with
  | next => exact (records_require _ _).bind fun _ => .of_pure _
  | ret v => exact .of_pure v
  | breakLoop | continueLoop => exact .of_throw _

/-- A body runs as its block is evaluated. -/
theorem evalBody_forget (hcalls : CallsFollow calls plain)
    (f : Function) (body : List TypedForm) (args : List D.host.Value)
    {w : World (D.runtime calls)} {rest : List (Frame D.host.Value)}
    (hgoing : w.store.heap.isStrict = false)
    (hframes : w.store.heap.frames = Frame.ofArgs f.params args :: rest) :
    evalBody (D.plainRuntime plain) D.fuel (f.params.map Param.name) (typedForms body) args
      (forgetWorld plain w) = mapState (forgetWorld plain) (execBody f body w) := by
  have hbody := tracks_execAll hcalls body
  have hall := hbody.forgets w _ rest hgoing hframes
  have hgrows := hbody.records.grows w
  rw [Frame.env_ofArgs] at hall
  unfold execBody
  cases hw : (execAll body : Run (D.runtime calls) _) w with
  | ok flow u =>
      rw [hw] at hall hgrows
      rw [bind_of_ok hw]
      refine (bind_of_ok hall _).trans ?_
      cases flow with
      | next =>
          have hend : Follows (do
              require (fun _ => f.results.length ≤ 1) .kinds
              return D.host.constant (.symbol Host.nil) : Run (D.runtime calls) _)
              (pure (D.host.constant (.symbol Host.nil)) : Run (D.plainRuntime plain) _) :=
            .require _ _ (.of_pure _)
          exact hend.forgets u (hgrows.isStrict.trans hgoing)
      | ret v => rfl
      | breakLoop | continueLoop => rfl
  | error e u =>
      rw [hw] at hall
      rw [bind_of_error hw]
      exact bind_of_error hall _

theorem stepFollows_error :
    StepFollows (throw () : Action D.host.Value (Memory D.host) α) (throw ()) where
  records := .of_throw ()
  forgets _ _ := rfl
  frames _ _ _ h := absurd h throw_ne_ok

/-- A computation on a frame of its own, which ends with it. -/
theorem records_leave (f : Function) (args : List D.host.Value)
    {x : Run (D.runtime calls) D.host.Value} (hx : RunRecords x) :
    Records Store.heap strictStore fun s => leave s (x (entered f args s)) where
  grows s := by
    have hgrows : s.heap.Extends (finalState (x (entered f args s))).store.heap :=
      .trans (Memory.extends_withFrames _) (hx.grows (entered f args s))
    cases hw : x (entered f args s) with
    | ok v w =>
        rw [hw] at hgrows
        exact ⟨hgrows.isStrict, hgrows.breaches, hgrows.moments⟩
    | error e w =>
        rw [hw] at hgrows
        exact hgrows
  agrees s hgoing hnone := by
    have hagrees := hx.agrees (entered f args s) hgoing
    have hstrict : (entered f args (strictStore s) : World (D.runtime calls)) =
        strictWorld (entered f args s) := rfl
    rw [hstrict]
    cases hw : x (entered f args s) with
    | ok v w | error e w =>
        rw [hw] at hagrees hnone
        rw [hagrees hnone]
        rfl
  stops s hgoing hnone hsome := by
    have hstops := hx.stops (entered f args s) hgoing hnone
    have hstrict : (entered f args (strictStore s) : World (D.runtime calls)) =
        strictWorld (entered f args s) := rfl
    rw [hstrict]
    cases hw : x (entered f args s) with
    | ok v w | error e w =>
        rw [hw] at hstops hsome
        obtain ⟨e', t, ht, hmoments⟩ := hstops hsome
        rw [ht]
        exact ⟨(), t.store, rfl, hmoments⟩

/-- A call with the record is the evaluation of the function's block without it. -/
theorem stepFollows_enter (hcalls : CallsFollow calls plain)
    (f : Function) (args : List D.host.Value) :
    StepFollows (D.enter calls f args) (D.plainEnter plain f args) := by
  have hblock : Block.ofFunction D.environment f =
      typedForms <$> TypedForm.ofStmts D.environment f.results false f.body :=
    (TypedForm.map_ofStmts D.environment f.results false f.body).symm
  unfold enter plainEnter
  rw [hblock]
  cases TypedForm.ofStmts D.environment f.results false f.body with
  | error e => exact stepFollows_error
  | ok body =>
      by_cases hlength : f.params.length = args.length
      · simp only [if_pos hlength]
        refine ⟨records_leave f args (records_execBody hcalls f body), fun s hgoing => ?_,
          fun s v s' h => ?_⟩
        · have hbody := evalBody_forget hcalls f body args (w := entered f args s) hgoing rfl
          have hstart : forgetWorld plain (entered f args s : World (D.runtime calls)) =
            ⟨forget s, []⟩ := rfl
          rw [hstart] at hbody
          dsimp only [Functor.map, Except.map]
          rw [hbody]
          cases (execBody f body : Run (D.runtime calls) _) (entered f args s) with
          | ok _ _ | error _ _ => rfl
        · cases hw : (execBody f body : Run (D.runtime calls) _) (entered f args s) with
          | ok u w =>
              rw [hw] at h
              cases h
              rfl
          | error e w =>
              rw [hw] at h
              cases h
      · simp only [if_neg hlength]
        exact stepFollows_error

/-- A call does the same without the record, and if it is strict until its first breach, however
deep calls are nested. -/
theorem stepFollows_call (D : Deployment) (depth : Nat) (f : Function)
    (args : List D.host.Value) :
    StepFollows (D.call depth f args) (D.plainCall depth f args) := by
  induction depth generalizing f args with
  | zero => exact stepFollows_error
  | succ depth ih => exact stepFollows_enter ih f args

end Deployment

end StackCompiler
