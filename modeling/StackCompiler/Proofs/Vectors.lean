import StackCompiler.Proofs.Ownership
import StackCompiler.Proofs.PackageRun

/-!
Vectors of a host in a strict run of a package. A variable of an array kind holds a vector, and the
heap knows which vectors have been allocated. `ensures_evalAs` shows what evaluation does to them:
it frees none, no two array variables come to hold the same one, and the value of a form that makes
an array is a vector that did not exist before.
-/

namespace StackCompiler

open Source

/-! ### Vectors -/

/-- A step of the host that frees no vector and leaves the variables of results alone. -/
def Runtime.IsSteady {H : Runtime} {α : Type} (allocated : H.Heap → H.Value → Prop)
    (x : Action H.Value H.Heap α) : Prop :=
  ∀ s a s', x s = .ok a s' → (∀ v, allocated s.heap v → allocated s'.heap v) ∧
    ∀ var ∈ Host.resultVars, s'.vars var = s.vars var

/-- The vectors of a host: which values are vectors, which of them a heap has allocated, and what it
keeps in them. Functions of the host return only vectors that they have allocated themselves, and a
store into a vector changes no other. -/
structure Vectors (H : Runtime) where
  isVector : H.Value → Bool
  allocated : H.Heap → H.Value → Prop
  contents : H.Heap → H.Value → List H.Value
  isVector_constant : ∀ c, isVector (H.constant c) = false
  symbol_inj : ∀ {a b}, H.constant (.symbol a) = H.constant (.symbol b) → a = b
  isSteady_unary : ∀ i v, Runtime.IsSteady allocated (H.unary i v)
  isSteady_binary : ∀ i v w, Runtime.IsSteady allocated (H.binary i v w)
  isSteady_concat : ∀ vs, Runtime.IsSteady allocated (H.concat vs)
  isSteady_arrayRef : ∀ a i, Runtime.IsSteady allocated (H.arrayRef a i)
  isSteady_arraySet : ∀ a i v, Runtime.IsSteady allocated (H.arraySet a i v)
  isSteady_call : ∀ f args, Runtime.IsSteady allocated (H.call f args)
  call_allocates : ∀ {f args s v s'}, H.call f args s = .ok v s' → isVector v = true →
    ¬allocated s.heap v ∧ allocated s'.heap v
  contents_arraySet : ∀ {a i v s s'}, H.arraySet a i v s = .ok () s' →
    ∀ b, b ≠ a → contents s'.heap b = contents s.heap b

namespace Vectors

open Deployment

section

variable {H : Runtime} (V : Vectors H)

/-- The vectors that array variables hold. -/
def held (frames : List (Frame H.Value)) : List H.Value :=
  (frames.flatten.filter fun x => x.kind.isArray && V.isVector x.value).map Variable.value

/-- The vectors among values that are of array kinds. -/
def among (kinds : List Kind) (vs : List H.Value) : List H.Value :=
  ((kinds.zip vs).filter fun (kind, v) => kind.isArray && V.isVector v).map Prod.snd

/-- No two array variables ever held the same vector. -/
def Apart (m : Memory H) : Prop :=
  ∀ moment ∈ m.moments, (V.held moment.frames).Nodup

/-- All is well so far in a strict run: array variables hold different vectors, and always did. -/
structure Sound (m : Memory H) : Prop where
  isStrict : m.isStrict = true
  nodup : (V.held m.frames).Nodup
  allocated : ∀ v ∈ V.held m.frames, V.allocated m.heap v
  apart : V.Apart m

def Grows (h h' : H.Heap) : Prop :=
  ∀ v, V.allocated h v → V.allocated h' v

/-- What evaluation does to a store. If it is quiet, results stay where they are. -/
structure Advances (quiet : Prop) (s s' : Store H.Value (Memory H)) : Prop where
  frames : s'.heap.frames = s.heap.frames
  isStrict : s'.heap.isStrict = s.heap.isStrict
  grows : V.Grows s.heap.heap s'.heap.heap
  apart : V.Apart s'.heap
  vars : quiet → ∀ var ∈ Host.resultVars, s'.vars var = s.vars var

/-- Different vectors that have been allocated between two heaps. -/
structure Made (h h' : H.Heap) (vs : List H.Value) : Prop where
  nodup : vs.Nodup
  unknown : ∀ v ∈ vs, ¬V.allocated h v
  allocated : ∀ v ∈ vs, V.allocated h' v

/-- What a step guarantees if it returns. If it does not, no two array variables held the same
vector until then. -/
def Meets {α : Type} (x : Action H.Value (Memory H) α) (s : Store H.Value (Memory H))
    (post : α → Store H.Value (Memory H) → Prop) : Prop :=
  match x s with
  | .ok a s' => post a s'
  | .error _ s' => V.Apart s'.heap

end

section

variable {H : Runtime} {V : Vectors H} {h h₁ h' : H.Heap} {s s₁ s' : Store H.Value (Memory H)}
  {q q₁ : Prop} {vs ws : List H.Value}

@[simp] theorem among_nil (kinds : List Kind) : V.among kinds [] = [] := by
  simp [among]

@[simp] theorem among_cons (kind : Kind) (kinds : List Kind) (v : H.Value) :
    V.among (kind :: kinds) (v :: vs) =
      (if kind.isArray && V.isVector v then [v] else []) ++ V.among kinds vs := by
  simp only [among, List.zip_cons_cons, List.filter_cons]
  split <;> simp

@[simp] theorem held_cons (fr : Frame H.Value) (frames : List (Frame H.Value)) :
    V.held (fr :: frames) = V.held [fr] ++ V.held frames := by
  simp [held]

theorem Grows.refl : V.Grows h h := fun _ hv => hv

theorem Grows.trans (hgrows : V.Grows h h₁) (hgrows₁ : V.Grows h₁ h') : V.Grows h h' :=
  fun v hv => hgrows₁ v (hgrows v hv)

theorem Advances.refl (hs : V.Apart s.heap) : V.Advances q s s :=
  ⟨rfl, rfl, .refl, hs, fun _ _ _ => rfl⟩

theorem Advances.trans (hq : V.Advances q s s₁) (hq₁ : V.Advances q₁ s₁ s') {r : Prop}
    (hr : r → q ∧ q₁) : V.Advances r s s' where
  frames := hq₁.frames.trans hq.frames
  isStrict := hq₁.isStrict.trans hq.isStrict
  grows := hq.grows.trans hq₁.grows
  apart := hq₁.apart
  vars hquiet var hvar := (hq₁.vars (hr hquiet).2 var hvar).trans (hq.vars (hr hquiet).1 var hvar)

theorem Advances.of_imp (hs : V.Advances q s s') (hq : q₁ → q) : V.Advances q₁ s s' :=
  { hs with vars := fun hquiet => hs.vars (hq hquiet) }

theorem Sound.advance (hs : V.Sound s.heap) (hq : V.Advances q s s') : V.Sound s'.heap where
  isStrict := hq.isStrict.trans hs.isStrict
  nodup := by
    rw [hq.frames]
    exact hs.nodup
  allocated v hv := by
    rw [hq.frames] at hv
    exact hq.grows v (hs.allocated v hv)
  apart := hq.apart

theorem Made.nil : V.Made h h' [] := ⟨List.nodup_nil, by simp, by simp⟩

theorem Made.sublist (hmade : V.Made h h' vs) (hsub : ws.Sublist vs) : V.Made h h' ws :=
  ⟨hmade.nodup.sublist hsub, fun v hv => hmade.unknown v (hsub.subset hv),
    fun v hv => hmade.allocated v (hsub.subset hv)⟩

theorem Made.later (hmade : V.Made h h₁ vs) (hgrows : V.Grows h₁ h') : V.Made h h' vs :=
  { hmade with allocated := fun v hv => hgrows v (hmade.allocated v hv) }

theorem Made.earlier (hgrows : V.Grows h h₁) (hmade : V.Made h₁ h' vs) : V.Made h h' vs :=
  { hmade with unknown := fun v hv hknown => hmade.unknown v hv (hgrows v hknown) }

/-- What is made later is different from what was made before. -/
theorem Made.append (hgrows : V.Grows h h₁) (hgrows₁ : V.Grows h₁ h') (hvs : V.Made h h₁ vs)
    (hws : V.Made h₁ h' ws) : V.Made h h' (vs ++ ws) where
  nodup := by
    refine List.nodup_append.2 ⟨hvs.nodup, hws.nodup, fun v hv w hw heq => ?_⟩
    subst heq
    exact hws.unknown v hw (hvs.allocated v hv)
  unknown := List.forall_mem_append.2 ⟨hvs.unknown, (Made.earlier hgrows hws).unknown⟩
  allocated := List.forall_mem_append.2 ⟨(hvs.later hgrows₁).allocated, hws.allocated⟩

/-- Vectors that are made while array variables hold others are none of these. -/
theorem Made.nodup_append_held {m : Memory H} (hmade : V.Made m.heap h' vs) (hs : V.Sound m) :
    (vs ++ V.held m.frames).Nodup := by
  refine List.nodup_append.2 ⟨hmade.nodup, hs.nodup, fun v hv w hw heq => ?_⟩
  subst heq
  exact hmade.unknown v hv (hs.allocated v hw)

end

/-! ### Steps and calls -/

section

variable {D : Deployment} (V : Vectors D.host) {calls : D.Calls}

/-- What a computation guarantees of the store if it returns. If it does not, no two array variables
held the same vector until then. -/
def Ensures {α : Type} (x : Run (D.runtime calls) α) (w : World (D.runtime calls))
    (post : α → Store D.host.Value (Memory D.host) → Prop) : Prop :=
  match x w with
  | .ok a w' => post a w'.store
  | .error _ w' => V.Apart w'.store.heap

/-- Functions of the package keep array variables apart if they are given arrays that nobody holds,
and the arrays among their results are new. -/
def IsKept (calls : D.Calls) : Prop :=
  ∀ g ∈ D.package.functions, ∀ args s, V.Sound s.heap →
    (V.among (g.params.map Param.kind) args ++ V.held s.heap.frames).Nodup →
    (∀ v ∈ V.among (g.params.map Param.kind) args, V.allocated s.heap.heap v) →
    V.Meets (calls g args) s fun v s' => V.Advances False s s' ∧
      V.Made s.heap.heap s'.heap.heap (V.among g.results (v :: Host.resultVars.map s'.vars))

/-- What the value of a form guarantees where these kinds are asked for: evaluation advances, an
array that is made by it is new, and so are the results of a function that it calls. -/
structure Yields (asked : List Kind) (f : Form) (s : Store D.host.Value (Memory D.host))
    (v : D.host.Value) (s' : Store D.host.Value (Memory D.host)) : Prop where
  advances : V.Advances (f.Every fun g => g.isQuiet D.package = true) s s'
  made : f.makes D.package asked = true → V.Made s.heap.heap s'.heap.heap ([v].filter V.isVector)
  results : ∀ given, f.results? D.package asked = some given →
    V.Made s.heap.heap s'.heap.heap (V.among given (v :: Host.resultVars.map s'.vars))

structure YieldsAll (kinds : List Kind) (fs : List Form)
    (s : Store D.host.Value (Memory D.host)) (vs : List D.host.Value)
    (s' : Store D.host.Value (Memory D.host)) : Prop where
  advances : V.Advances (EveryIn (fun g => g.isQuiet D.package = true) fs) s s'
  made : givesNew D.package kinds fs = true →
    V.Made s.heap.heap s'.heap.heap (V.among kinds vs)

end

section

variable {D : Deployment} {V : Vectors D.host} {calls : D.Calls} {α β : Type}
  {w : World (D.runtime calls)} {s : Store D.host.Value (Memory D.host)}

namespace Ensures

theorem of_pure {post : α → Store D.host.Value (Memory D.host) → Prop} {a : α}
    (h : post a w.store) : V.Ensures (pure a : Run (D.runtime calls) α) w post := h

theorem of_throw {post : α → Store D.host.Value (Memory D.host) → Prop} (e : Stop)
    (h : V.Apart w.store.heap) : V.Ensures (throw e : Run (D.runtime calls) α) w post := h

theorem readVar {name : String} {post : D.host.Value → Store D.host.Value (Memory D.host) → Prop}
    (h : post (w.store.vars name) w.store) :
    V.Ensures (Run.readVar name : Run (D.runtime calls) _) w post := h

theorem bind {x : Run (D.runtime calls) α} {f : α → Run (D.runtime calls) β}
    {mid : α → Store D.host.Value (Memory D.host) → Prop}
    {post : β → Store D.host.Value (Memory D.host) → Prop} (hx : V.Ensures x w mid)
    (hf : ∀ a w', mid a w'.store → V.Ensures (f a) w' post) : V.Ensures (x >>= f) w post := by
  unfold Ensures at hx ⊢
  cases h : x w with
  | ok a w' =>
      rw [h] at hx
      rw [bind_of_ok h]
      exact hf a w' hx
  | error e w' =>
      rw [h] at hx
      rw [bind_of_error h]
      exact hx

theorem imp {x : Run (D.runtime calls) α}
    {post post' : α → Store D.host.Value (Memory D.host) → Prop} (hx : V.Ensures x w post)
    (h : ∀ a s', post a s' → post' a s') : V.Ensures x w post' := by
  unfold Ensures at hx ⊢
  cases hw : x w with
  | ok a w' =>
      rw [hw] at hx
      exact h a _ hx
  | error e w' =>
      rw [hw] at hx
      exact hx

theorem primitive {x : Action D.host.Value (Memory D.host) α}
    {post : α → Store D.host.Value (Memory D.host) → Prop} (hx : V.Meets x w.store post) :
    V.Ensures (Run.primitive x : Run (D.runtime calls) α) w post := by
  unfold Meets at hx
  unfold Ensures Run.primitive
  cases h : x w.store with
  | ok a s' | error e s' =>
      rw [h] at hx
      exact hx

theorem call {f : D.host.Value} {args : List D.host.Value}
    {post : D.host.Value → Store D.host.Value (Memory D.host) → Prop}
    (h : V.Meets ((D.runtime calls).call f args) w.store post) :
    V.Ensures (Run.call f args : Run (D.runtime calls) _) w post := by
  have hlogged : V.Meets ((D.runtime calls).call f args)
      (World.mk (R := D.runtime calls) w.store (w.calls ++ [(f, args)])).store post := h
  exact Ensures.primitive hlogged

/-- A strict run ends where a condition does not hold. -/
theorem require {x : Run (D.runtime calls) α} {holds : (String → D.host.Value) → Bool}
    {breach : Breach} {post : α → Store D.host.Value (Memory D.host) → Prop}
    (hs : V.Sound w.store.heap) (hx : holds w.store.vars = true → V.Ensures x w post) :
    V.Ensures (do Deployment.require holds breach; x) w post := by
  cases hholds : holds w.store.vars with
  | true =>
      have hnote : (Deployment.require holds breach : Run (D.runtime calls) Unit) w = .ok () w := by
        simp only [Deployment.require, hholds, if_true]
      unfold Ensures
      rw [bind_of_ok hnote]
      exact hx hholds
  | false =>
      have hnote : (Deployment.require holds breach : Run (D.runtime calls) Unit) w =
          .error .stuck w := by
        simp only [Deployment.require, hholds, hs.isStrict, Bool.false_eq_true, if_false, if_true]
      unfold Ensures
      rw [bind_of_error hnote]
      exact hs.apart

end Ensures

theorem Meets.imp {x : Action D.host.Value (Memory D.host) α}
    {post post' : α → Store D.host.Value (Memory D.host) → Prop} (hx : V.Meets x s post)
    (h : ∀ a s', post a s' → post' a s') : V.Meets x s post' := by
  unfold Meets at hx ⊢
  cases hs : x s with
  | ok a s' =>
      rw [hs] at hx
      exact h a s' hx
  | error e s' =>
      rw [hs] at hx
      exact hx

/-- A steady step of the host advances. -/
theorem Meets.apart {x : Action D.host.Value (Memory D.host) α}
    {post : α → Store D.host.Value (Memory D.host) → Prop} (hx : V.Meets x s post)
    (h : ∀ a s', post a s' → V.Apart s'.heap) : V.Apart (finalState (x s)).heap := by
  unfold Meets at hx
  cases hs : x s with
  | ok a s' =>
      rw [hs] at hx
      exact h a s' hx
  | error e s' =>
      rw [hs] at hx
      exact hx

theorem meets_onHeap {x : Action D.host.Value D.host.Heap α}
    (hx : Runtime.IsSteady V.allocated x) (hs : V.Apart s.heap) :
    V.Meets (Memory.onHeap x) s fun _ s' => V.Advances True s s' := by
  unfold Meets Memory.onHeap
  cases h : x ⟨s.vars, s.heap.heap⟩ with
  | ok a t =>
      obtain ⟨hallocated, hvars⟩ := hx _ _ _ h
      exact ⟨rfl, rfl, hallocated, hs, fun _ => hvars⟩
  | error e t => exact hs

/-- A function of the host makes the vector that it returns. -/
theorem meets_onHeap_call (f : D.host.Value) (args : List D.host.Value) (hs : V.Apart s.heap) :
    V.Meets (Memory.onHeap (D.host.call f args)) s fun v s' =>
      V.Advances True s s' ∧ V.Made s.heap.heap s'.heap.heap ([v].filter V.isVector) := by
  have hsteady : V.Meets (Memory.onHeap (D.host.call f args)) s fun _ s' => V.Advances True s s' :=
    meets_onHeap (V.isSteady_call f args) hs
  unfold Meets Memory.onHeap at hsteady ⊢
  cases h : D.host.call f args ⟨s.vars, s.heap.heap⟩ with
  | ok v t =>
      rw [h] at hsteady
      refine ⟨hsteady, ?_⟩
      cases hv : V.isVector v with
      | false =>
          simp only [List.filter_cons, hv, Bool.false_eq_true, if_false, List.filter_nil]
          exact .nil
      | true =>
          simp only [List.filter_cons, hv, if_true, List.filter_nil]
          obtain ⟨hunknown, hallocated⟩ := V.call_allocates h hv
          exact ⟨by simp, by simpa using hunknown, by simpa using hallocated⟩
  | error e t => exact hs

/-- Functions of the package are found by their names. -/
theorem callee?_symbol (V : Vectors D.host) (name : String) :
    D.callee? (D.host.constant (.symbol name)) = D.package.find? name := by
  have hname : (fun g : Function =>
      decide (D.host.constant (.symbol g.name) = D.host.constant (.symbol name))) =
        fun g => g.name == name := by
    funext g
    rw [Bool.eq_iff_iff, decide_eq_true_eq, beq_iff_eq]
    exact ⟨V.symbol_inj, fun h => by rw [h]⟩
  unfold Deployment.callee? Package.find?
  rw [hname]

theorem mem_of_find? {P : Package} {name : String} {g : Function} (h : P.find? name = some g) :
    g ∈ P.functions :=
  List.mem_of_find?_eq_some h

section

variable {h h' : D.host.Heap} {asked given : List Kind} {v : D.host.Value} {vs : List D.host.Value}

/-- What is returned first is new, if it is an array. -/
theorem Made.first (hmade : V.Made h h' (V.among given (v :: vs)))
    (hstarts : startsWithArray given = true) : V.Made h h' ([v].filter V.isVector) := by
  refine hmade.sublist ?_
  cases given with
  | nil => cases hstarts
  | cons kind rest =>
      have hkind : kind.isArray = true := hstarts
      rw [among_cons, hkind, Bool.true_and, List.filter_cons, List.filter_nil]
      exact List.sublist_append_left _ _

theorem among_of_not_any (hasked : asked.any Kind.isArray = false) : V.among asked vs = [] := by
  induction asked generalizing vs with
  | nil => simp [among]
  | cons kind asked ih =>
      simp only [List.any_cons, Bool.or_eq_false_iff] at hasked
      cases vs with
      | nil => simp
      | cons v vs => simp [hasked.1, ih hasked.2]

/-- A function with one result leaves no other arrays. -/
theorem Made.among_first (hmade : V.Made h h' ([v].filter V.isVector))
    (hone : asked.tail.any Kind.isArray = false) : V.Made h h' (V.among asked (v :: vs)) := by
  cases asked with
  | nil => exact .nil
  | cons kind asked =>
      rw [List.tail_cons] at hone
      rw [among_cons, among_of_not_any hone, List.append_nil]
      refine hmade.sublist ?_
      rw [List.filter_cons, List.filter_nil]
      cases kind.isArray with
      | false => exact List.nil_sublist _
      | true => exact List.Sublist.refl _

/-- Arrays that are asked for are among those that are given. -/
theorem among_sublist (hlength : asked.length = given.length)
    (hgives : givesArrays asked given = true) :
    (V.among asked vs).Sublist (V.among given vs) := by
  induction asked generalizing given vs with
  | nil => simp [among]
  | cons kind asked ih =>
      cases given with
      | nil => cases hlength
      | cons other given =>
          cases vs with
          | nil => simp
          | cons v vs =>
              simp only [givesArrays, List.zip_cons_cons, List.all_cons, Bool.and_eq_true,
                Bool.or_eq_true, Bool.not_eq_true'] at hgives
              have hrest : (V.among asked vs).Sublist (V.among given vs) :=
                ih (Nat.succ.inj hlength) hgives.2
              rw [among_cons, among_cons]
              refine List.Sublist.append ?_ hrest
              obtain hkind | hother := hgives.1
              · simp [hkind]
              · rw [hother]
                split
                · rename_i hboth
                  rw [Bool.and_eq_true] at hboth
                  simp [hboth.2]
                · exact List.nil_sublist _

end

/-- A call by name of a function that is not one of the package. -/
theorem ensures_callNamed_host {name : String} (hname : name ≠ Host.funcall)
    (hfind : D.package.find? name = none) (args : List D.host.Value)
    (hs : V.Apart w.store.heap) :
    V.Ensures (Run.callNamed name args : Run (D.runtime calls) _) w fun v s' =>
      V.Advances True w.store s' ∧
        V.Made w.store.heap.heap s'.heap.heap ([v].filter V.isVector) := by
  refine Ensures.call ?_
  show V.Meets (D.dispatch _ _ _ _) w.store _
  unfold Deployment.dispatch
  rw [callee?_symbol V, hfind]
  cases args with
  | nil => exact meets_onHeap_call _ _ hs
  | cons target rest =>
      dsimp only
      rw [if_neg fun h => hname (V.symbol_inj h)]
      exact meets_onHeap_call _ _ hs

theorem ensures_callNamed_helper (hspares : D.package.sparesHelpers = true) {name : String}
    (hname : name ∈ Host.helpers) (args : List D.host.Value) (hs : V.Apart w.store.heap) :
    V.Ensures (Run.callNamed name args : Run (D.runtime calls) _) w fun v s' =>
      V.Advances True w.store s' ∧
        V.Made w.store.heap.heap s'.heap.heap ([v].filter V.isVector) := by
  exact ensures_callNamed_host (ne_funcall_of_mem_helpers hname) (find?_helper hspares hname) args
    hs

/-- A call by name of a function of the package, which is given only new arrays. -/
theorem ensures_callNamed (hcalls : V.IsKept calls) {name : String} {g : Function}
    (hfind : D.package.find? name = some g) {args : List D.host.Value}
    {s : Store D.host.Value (Memory D.host)} {q : Prop} (hs : V.Sound s.heap)
    (hadvances : V.Advances q s w.store)
    (hmade : V.Made s.heap.heap w.store.heap.heap (V.among (g.params.map Param.kind) args)) :
    V.Ensures (Run.callNamed name args : Run (D.runtime calls) _) w fun v s' =>
      V.Advances False w.store s' ∧ V.Made w.store.heap.heap s'.heap.heap
        (V.among g.results (v :: Host.resultVars.map s'.vars)) := by
  refine Ensures.call ?_
  show V.Meets (D.dispatch _ _ _ _) w.store _
  unfold Deployment.dispatch
  rw [callee?_symbol V, hfind]
  refine hcalls g (mem_of_find? hfind) args w.store (hs.advance hadvances) ?_ hmade.allocated
  rw [hadvances.frames]
  exact hmade.nodup_append_held hs

/-- A call of a function value that respects the kinds of the call. -/
theorem ensures_callValue (hcalls : V.IsKept calls) (hspares : D.package.sparesHelpers = true)
    {asked : List Kind} {args : List Form} {target : D.host.Value} {vs : List D.host.Value}
    {s : Store D.host.Value (Memory D.host)} {q : Prop} (hs : V.Sound s.heap)
    (hadvances : V.Advances q s w.store)
    (hmade : ∀ g, D.callee? target = some g → passesNew D.package g args = true →
      V.Made s.heap.heap w.store.heap.heap (V.among (g.params.map Param.kind) vs)) :
    V.Ensures (Deployment.callValue asked args target vs : Run (D.runtime calls) _) w fun v s' =>
      V.Advances False w.store s' ∧ V.Made w.store.heap.heap s'.heap.heap
        (V.among asked (v :: Host.resultVars.map s'.vars)) := by
  have hs' := hs.advance hadvances
  refine .require hs' fun hfits => .call ?_
  show V.Meets (D.dispatch _ _ _ _) w.store _
  unfold Deployment.dispatch
  rw [callee?_symbol V, find?_funcall hspares]
  dsimp only
  rw [if_pos rfl]
  simp only [Deployment.fits] at hfits
  cases hcallee : D.callee? target with
  | none =>
      rw [hcallee] at hfits
      exact (meets_onHeap_call _ _ hadvances.apart).imp fun v s' h =>
        ⟨h.1.of_imp False.elim, h.2.among_first (by simpa using hfits)⟩
  | some g =>
      simp only [hcallee, Bool.and_eq_true, Bool.or_eq_true, Bool.not_eq_true',
        decide_eq_true_eq] at hfits
      have hargs := hmade g hcallee hfits.1
      refine (hcalls g (List.mem_of_find?_eq_some hcallee) vs w.store hs' ?_ hargs.allocated).imp
        fun v s' h => ⟨h.1, ?_⟩
      · rw [hadvances.frames]
        exact hargs.nodup_append_held hs
      · obtain hnone | ⟨hlength, hgives⟩ := hfits.2
        · rw [among_of_not_any hnone]
          exact .nil
        · exact h.2.sublist (among_sublist hlength hgives)

/-! ### Evaluation -/

section

variable {asked : List Kind} {s' : Store D.host.Value (Memory D.host)} {f : Form}
  {v : D.host.Value}

theorem results?_eq_none (hcall : f.isCall = false) : f.results? D.package asked = none := by
  cases f with
  | call _ _ | dynCall _ _ => cases hcall
  | _ => rfl

/-- A call that leaves results is not quiet: they may have been stored over others. -/
theorem not_every_isQuiet {given : List Kind} (hgiven : f.results? D.package asked = some given)
    (hquiet : f.Every fun g => g.isQuiet D.package = true) : False := by
  have hself : f.isQuiet D.package = true := hquiet f (mem_parts_self f)
  rw [isQuiet_of_results? hgiven] at hself
  cases hself

/-- A form that makes no array and calls no function by name. -/
theorem Yields.plain (hnew : f.isNew D.package = false) (hcall : f.isCall = false)
    (h : V.Advances (f.Every fun g => g.isQuiet D.package = true) s s') :
    V.Yields asked f s v s' where
  advances := h
  made hmade := by
    rw [Form.makes, hnew, Bool.and_false] at hmade
    cases hmade
  results given hgiven := by
    rw [results?_eq_none hcall] at hgiven
    cases hgiven

/-- A form that makes an array, but calls no function by name. -/
theorem Yields.new (hcall : f.isCall = false)
    (h : V.Advances (f.Every fun g => g.isQuiet D.package = true) s s')
    (hmade : V.Made s.heap.heap s'.heap.heap ([v].filter V.isVector)) :
    V.Yields asked f s v s' where
  advances := h
  made _ := hmade
  results given hgiven := by
    rw [results?_eq_none hcall] at hgiven
    cases hgiven

/-- A call that leaves results. -/
theorem Yields.results_of {given : List Kind} (hgiven : f.results? D.package asked = some given)
    (h : V.Advances (f.Every fun g => g.isQuiet D.package = true) s s')
    (hmade : V.Made s.heap.heap s'.heap.heap
      (V.among given (v :: Host.resultVars.map s'.vars))) : V.Yields asked f s v s' where
  advances := h
  made hmakes := hmade.first (startsWithArray_of_makes hgiven hmakes)
  results _ h := by
    cases hgiven.symm.trans h
    exact hmade

/-- A value is new if its kind is an array, and its form makes one then. -/
theorem Yields.made_of_kind {kind : Kind} (h : V.Yields [kind] f s v s')
    (hkind : (!kind.isArray || f.isNew D.package) = true) :
    V.Made s.heap.heap s'.heap.heap (if kind.isArray && V.isVector v then [v] else []) := by
  cases harray : kind.isArray with
  | false => exact .nil
  | true =>
      rw [harray, Bool.not_true, Bool.false_or] at hkind
      have hmade := h.made (by simp [Form.makes, startsWithArray, harray, hkind])
      rwa [List.filter_cons, List.filter_nil] at hmade

theorem Yields.constant (hf : f.isAtom = true) (c : Constant) (hs : V.Apart s.heap) :
    V.Yields asked f s (D.host.constant c) s := by
  refine .new ?_ (.refl hs) ?_
  · cases f with
    | call _ _ | dynCall _ _ => cases hf
    | _ => rfl
  · simp only [List.filter_cons, V.isVector_constant, Bool.false_eq_true, if_false, List.filter_nil]
    exact .nil

/-- A step of the host after a computation. It makes no array. -/
theorem ensures_then_primitive {x : Run (D.runtime calls) α} {q : Prop}
    {step : α → Action D.host.Value D.host.Heap D.host.Value}
    (hx : V.Ensures x w fun _ s' => V.Advances q w.store s')
    (hstep : ∀ a, Runtime.IsSteady V.allocated (step a)) (hnew : f.isNew D.package = false)
    (hcall : f.isCall = false) (hq : (f.Every fun g => g.isQuiet D.package = true) → q) :
    V.Ensures (do let a ← x; Run.primitive (Memory.onHeap (step a))) w
      (V.Yields asked f w.store) := by
  refine .bind hx fun a w₁ h₁ => ?_
  refine .imp (.primitive (meets_onHeap (hstep a) h₁.apart)) fun v s' h => .plain hnew hcall ?_
  exact h₁.trans h fun hquiet => ⟨hq hquiet, trivial⟩

/-- A call of one of the host's own functions after a computation. -/
theorem ensures_then_helper (hspares : D.package.sparesHelpers = true)
    {x : Run (D.runtime calls) α} {q : Prop} {name : String} (hname : name ∈ Host.helpers)
    (args : α → List D.host.Value) (hx : V.Ensures x w fun _ s' => V.Advances q w.store s') :
    V.Ensures (do let a ← x; Run.callNamed name (args a)) w fun v s' =>
      V.Advances q w.store s' ∧ V.Made w.store.heap.heap s'.heap.heap ([v].filter V.isVector) := by
  refine .bind hx fun a w₁ h₁ => ?_
  refine .imp (ensures_callNamed_helper hspares hname (args a) h₁.apart) fun v s' h => ?_
  exact ⟨h₁.trans h.1 fun hq => ⟨hq, trivial⟩, .earlier h₁.grows h.2⟩

/-- A call of a function value, after the function and the arguments have been evaluated. -/
theorem ensures_apply (hcalls : V.IsKept calls) (hspares : D.package.sparesHelpers = true)
    {env : List (String × D.host.Value)} {callee : Form} {args : List Form}
    (hs : V.Sound w.store.heap)
    (hcallee : V.Ensures (evalAs env [] callee) w (V.Yields [] callee w.store))
    (hargs : ∀ (kinds : List Kind) (w₁ : World (D.runtime calls)), V.Sound w₁.store.heap →
      V.Ensures (evalAllAs env kinds args) w₁ (V.YieldsAll kinds args w₁.store)) :
    V.Ensures (do
        let target ← evalAs env [] callee
        let vs ← evalAllAs env (paramKinds (D.callee? target)) args
        callValue asked args target vs) w fun v s' =>
      V.Advances False w.store s' ∧ V.Made w.store.heap.heap s'.heap.heap
        (V.among asked (v :: Host.resultVars.map s'.vars)) := by
  refine .bind hcallee fun target w₁ h₁ => ?_
  refine .bind (hargs _ w₁ (hs.advance h₁.advances)) fun vs w₂ h₂ => ?_
  have hadvances : V.Advances False w.store w₂.store := h₁.advances.trans h₂.advances False.elim
  refine .imp (ensures_callValue hcalls hspares hs hadvances fun g hg hpasses => ?_)
    fun v s' h => ⟨hadvances.trans h.1 False.elim, .earlier hadvances.grows h.2⟩
  rw [hg] at h₂
  exact .earlier h₁.advances.grows (h₂.made hpasses)

theorem operation?_host {kind : OpKind} {family : Family} {name : String}
    (h : kind.operation? family = some (.host name)) : name ∈ Host.helpers := by
  cases kind <;> cases family <;> cases h <;> decide

mutual
/-- Evaluation keeps array variables apart, and what a form makes is new. -/
theorem ensures_evalAs (hcalls : V.IsKept calls) (hspares : D.package.sparesHelpers = true)
    (env : List (String × D.host.Value)) (asked : List Kind) (f : Form)
    (hf : f.Every (Form.isTactful D.package)) {w : World (D.runtime calls)}
    (hs : V.Sound w.store.heap) :
    V.Ensures (evalAs env asked f) w (V.Yields asked f w.store) := by
  cases f with
  | bool _ | char _ | int _ | float _ | str _ | symbol _ =>
      exact .of_pure (.constant rfl _ hs.apart)
  | var name =>
      simp only [evalAs, evalValue]
      cases List.lookup name env with
      | some v => exact .of_pure (.plain rfl rfl (.refl hs.apart))
      | none => exact .readVar (.plain rfl rfl (.refl hs.apart))
  | array elems =>
      simp only [Form.every_array] at hf
      have helems := (ensures_evalAllAs hcalls hspares env [] elems hf.2 hs).imp
        fun _ _ h => h.advances
      simp only [evalAs]
      exact (ensures_then_helper hspares (by decide) id helems).imp fun v s' h =>
        .new rfl (h.1.of_imp fun hq => (Form.every_array.1 hq).2) h.2
  | sparseArray ctor stores =>
      simp only [Form.every_sparseArray] at hf
      simp only [evalAs]
      refine .bind (ensures_evalAs hcalls hspares env asked ctor hf.2.1 hs) fun a w₁ h₁ => ?_
      refine .bind (ensures_storesAs hcalls hspares env a stores hf.2.2 (hs.advance h₁.advances))
        fun _ w₂ h₂ => .of_pure ?_
      -- the vector is the one of `ctor`, which stays new while elements are stored into it
      exact ⟨h₁.advances.trans h₂ fun hq => ((Form.every_sparseArray _).1 hq).2,
        fun hmakes => (h₁.made hmakes).later h₂.grows, fun _ h => by cases h⟩
  | copy source =>
      simp only [Form.every_copy] at hf
      have hsource := (ensures_evalAs hcalls hspares env [] source hf.2 hs).imp
        fun _ _ h => h.advances
      simp only [evalAs]
      exact (ensures_then_helper hspares (by decide) (fun a => [a]) hsource).imp fun v s' h =>
        .new rfl (h.1.of_imp fun hq => (Form.every_copy.1 hq).2) h.2
  | get source index =>
      simp only [Form.every_get] at hf
      simp only [evalAs]
      refine .bind (ensures_evalAs hcalls hspares env [] source hf.2.1 hs) fun a w₁ h₁ => ?_
      refine .bind (ensures_evalAs hcalls hspares env [] index hf.2.2 (hs.advance h₁.advances))
        fun i w₂ h₂ => ?_
      refine .imp (.primitive (meets_onHeap (V.isSteady_arrayRef a i) h₂.advances.apart))
        fun v s' h => .plain rfl rfl ?_
      exact (h₁.advances.trans h₂.advances fun hq => (Form.every_get.1 hq).2).trans h
        fun hq => ⟨hq, trivial⟩
  | op kind family args =>
      simp only [Form.every_op] at hf
      simp only [evalAs]
      have hquiet : ((Form.op kind family args).Every fun g => g.isQuiet D.package = true) →
          EveryIn (fun g => g.isQuiet D.package = true) args :=
        fun hq => ((Form.every_op _ _).1 hq).2
      have hargs := (ensures_evalAllAs hcalls hspares env [] args hf.2 hs).imp
        fun _ _ h => h.advances
      cases hplan : kind.operation? family with
      | none => exact .of_throw _ hs.apart
      | some plan =>
          cases plan with
          | concat =>
              exact ensures_then_primitive hargs V.isSteady_concat rfl rfl hquiet
          | host name =>
              exact (ensures_then_helper hspares (operation?_host hplan) id hargs).imp
                fun v s' h => .plain rfl rfl (h.1.of_imp hquiet)
          | fold i =>
              exact (ensures_chainAs hcalls hspares env i args hf.2 hs).imp
                fun v s' h => .plain rfl rfl (h.of_imp hquiet)
          | foldNot i =>
              exact ensures_then_primitive (ensures_chainAs hcalls hspares env i args hf.2 hs)
                (V.isSteady_unary .not) rfl rfl hquiet
  | unary kind family arg =>
      simp only [Form.every_unary] at hf
      have harg := (ensures_evalAs hcalls hspares env [] arg hf.2 hs).imp fun _ _ h => h.advances
      cases kind with
      | neg =>
          cases family with
          | int | float =>
              simp only [evalAs]
              exact ensures_then_primitive harg (V.isSteady_unary .negate) rfl rfl
                fun hq => ((Form.every_unary _ _).1 hq).2
          | string => exact .of_throw _ hs.apart
      | bitNot =>
          cases family with
          | int =>
              simp only [evalAs]
              exact (ensures_then_helper hspares (by decide) (fun v => [v]) harg).imp fun v s' h =>
                .plain rfl rfl (h.1.of_imp fun hq => ((Form.every_unary _ _).1 hq).2)
          | float | string => exact .of_throw _ hs.apart
  | not arg =>
      simp only [Form.every_not] at hf
      simp only [evalAs]
      exact ensures_then_primitive ((ensures_evalAs hcalls hspares env [] arg hf.2 hs).imp
        fun _ _ h => h.advances) (V.isSteady_unary .not) rfl rfl fun hq => (Form.every_not.1 hq).2
  | and left right =>
      simp only [Form.every_and] at hf
      simp only [evalAs]
      refine .bind (ensures_evalAs hcalls hspares env [] left hf.2.1 hs) fun v w₁ h₁ => ?_
      split
      · exact .of_pure (.plain rfl rfl (h₁.advances.of_imp fun hq => (Form.every_and.1 hq).2.1))
      · refine .imp (ensures_evalAs hcalls hspares env [] right hf.2.2 (hs.advance h₁.advances))
          fun v s' h => .plain rfl rfl ?_
        exact h₁.advances.trans h.advances fun hq => (Form.every_and.1 hq).2
  | or left right =>
      simp only [Form.every_or] at hf
      simp only [evalAs]
      refine .bind (ensures_evalAs hcalls hspares env [] left hf.2.1 hs) fun v w₁ h₁ => ?_
      split
      · refine .imp (ensures_evalAs hcalls hspares env [] right hf.2.2 (hs.advance h₁.advances))
          fun v s' h => .plain rfl rfl ?_
        exact h₁.advances.trans h.advances fun hq => (Form.every_or.1 hq).2
      · exact .of_pure (.plain rfl rfl (h₁.advances.of_imp fun hq => (Form.every_or.1 hq).2.1))
  | call name args =>
      simp only [Form.every_call] at hf
      simp only [evalAs]
      split
      · rename_i hname
        subst hname
        refine .imp (ensures_funcallAs hcalls hspares env asked args hf.2 hs) fun v s' h => ?_
        have hgiven : (Form.call Host.funcall args).results? D.package asked = some asked := by
          simp [Form.results?, find?_funcall hspares]
        exact .results_of hgiven (h.1.of_imp (not_every_isQuiet hgiven)) h.2
      · rename_i hname
        refine .bind (ensures_evalAllAs hcalls hspares env _ args hf.2 hs) fun vs w₁ h₁ => ?_
        cases hfind : D.package.find? name with
        | none =>
            refine .imp (ensures_callNamed_host hname hfind vs h₁.advances.apart) fun v s' h => ?_
            exact ⟨h₁.advances.trans h.1 fun hq => ⟨((Form.every_call _).1 hq).2, trivial⟩,
              fun _ => .earlier h₁.advances.grows h.2,
              fun _ hgiven => by simp [Form.results?, hfind, hname] at hgiven⟩
        | some g =>
            rw [hfind] at h₁
            refine .imp (ensures_callNamed hcalls hfind hs h₁.advances (h₁.made (hf.1 g hfind)))
              fun v s' h => ?_
            have hgiven : (Form.call name args).results? D.package asked = some g.results := by
              simp [Form.results?, hfind]
            have hadvances : V.Advances False w.store s' := h₁.advances.trans h.1 False.elim
            exact .results_of hgiven (hadvances.of_imp (not_every_isQuiet hgiven))
              (.earlier h₁.advances.grows h.2)
  | dynCall callee args =>
      simp only [Form.every_dynCall] at hf
      simp only [evalAs]
      refine (ensures_apply hcalls hspares hs
        (ensures_evalAs hcalls hspares env [] callee hf.2.1 hs) fun kinds w₁ hs₁ =>
          ensures_evalAllAs hcalls hspares env kinds args hf.2.2 hs₁).imp fun v s' h => ?_
      have hgiven : (Form.dynCall callee args).results? D.package asked = some asked := rfl
      exact .results_of hgiven (h.1.of_imp (not_every_isQuiet hgiven)) h.2
  | resultRef index =>
      simp only [evalAs, evalValue]
      cases Host.resultVar? index with
      | some var => exact .readVar (.plain rfl rfl (.refl hs.apart))
      | none => exact .of_throw _ hs.apart
  | block _ | branch _ _ _ | loop _ _ _ | ret _ | breakLoop | continueLoop | bind _ _ | rebind _ _
  | set _ _ _ => exact .of_throw _ hs.apart
termination_by structural f

theorem ensures_evalAllAs (hcalls : V.IsKept calls) (hspares : D.package.sparesHelpers = true)
    (env : List (String × D.host.Value)) (kinds : List Kind) (fs : List Form)
    (hfs : EveryIn (Form.isTactful D.package) fs) {w : World (D.runtime calls)}
    (hs : V.Sound w.store.heap) :
    V.Ensures (evalAllAs env kinds fs) w (V.YieldsAll kinds fs w.store) := by
  cases fs with
  | nil => exact .of_pure ⟨.refl hs.apart, fun _ => by simpa using .nil⟩
  | cons f fs =>
      rw [everyIn_cons] at hfs
      simp only [evalAllAs]
      refine .bind (ensures_evalAs hcalls hspares env _ f hfs.1 hs) fun v w₁ h₁ => ?_
      refine .bind (ensures_evalAllAs hcalls hspares env _ fs hfs.2 (hs.advance h₁.advances))
        fun vs w₂ h₂ => .of_pure ?_
      refine ⟨h₁.advances.trans h₂.advances fun hq => everyIn_cons.1 hq, fun hkinds => ?_⟩
      cases kinds with
      | nil => exact .nil
      | cons kind kinds =>
          simp only [givesNew, List.zip_cons_cons, List.all_cons, Bool.and_eq_true] at hkinds
          rw [among_cons]
          exact .append h₁.advances.grows h₂.advances.grows (h₁.made_of_kind hkinds.1)
            (h₂.made hkinds.2)
termination_by structural fs

theorem ensures_funcallAs (hcalls : V.IsKept calls) (hspares : D.package.sparesHelpers = true)
    (env : List (String × D.host.Value)) (asked : List Kind) (fs : List Form)
    (hfs : EveryIn (Form.isTactful D.package) fs) {w : World (D.runtime calls)}
    (hs : V.Sound w.store.heap) :
    V.Ensures (funcallAs env asked fs) w fun v s' =>
      V.Advances False w.store s' ∧ V.Made w.store.heap.heap s'.heap.heap
        (V.among asked (v :: Host.resultVars.map s'.vars)) := by
  cases fs with
  | nil =>
      simp only [funcallAs]
      refine .require hs fun hone => .call ?_
      show V.Meets (D.dispatch _ _ _ _) w.store _
      unfold Deployment.dispatch
      rw [callee?_symbol V, find?_funcall hspares]
      exact (meets_onHeap_call _ _ hs.apart).imp fun v s' h =>
        ⟨h.1.of_imp False.elim, h.2.among_first (by simpa using hone)⟩
  | cons callee args =>
      rw [everyIn_cons] at hfs
      simp only [funcallAs]
      exact ensures_apply hcalls hspares hs
        (ensures_evalAs hcalls hspares env [] callee hfs.1 hs) fun kinds w₁ hs₁ =>
          ensures_evalAllAs hcalls hspares env kinds args hfs.2 hs₁
termination_by structural fs

theorem ensures_chainAs (hcalls : V.IsKept calls) (hspares : D.package.sparesHelpers = true)
    (env : List (String × D.host.Value)) (i : BinaryInstr) (fs : List Form)
    (hfs : EveryIn (Form.isTactful D.package) fs) {w : World (D.runtime calls)}
    (hs : V.Sound w.store.heap) :
    V.Ensures (chainAs env i fs) w fun _ s' =>
      V.Advances (EveryIn (fun g => g.isQuiet D.package = true) fs) w.store s' := by
  cases fs with
  | nil => exact .of_throw _ hs.apart
  | cons f fs =>
      rw [everyIn_cons] at hfs
      simp only [chainAs]
      refine .bind (ensures_evalAs hcalls hspares env [] f hfs.1 hs) fun v w₁ h₁ => ?_
      refine .imp (ensures_chainRestAs hcalls hspares env i v fs hfs.2 (hs.advance h₁.advances))
        fun v s' h => ?_
      exact h₁.advances.trans h fun hq => everyIn_cons.1 hq
termination_by structural fs

theorem ensures_chainRestAs (hcalls : V.IsKept calls)
    (hspares : D.package.sparesHelpers = true) (env : List (String × D.host.Value))
    (i : BinaryInstr) (left : D.host.Value) (fs : List Form)
    (hfs : EveryIn (Form.isTactful D.package) fs) {w : World (D.runtime calls)}
    (hs : V.Sound w.store.heap) :
    V.Ensures (chainRestAs env i left fs) w fun _ s' =>
      V.Advances (EveryIn (fun g => g.isQuiet D.package = true) fs) w.store s' := by
  cases fs with
  | nil => exact .of_pure (.refl hs.apart)
  | cons f fs =>
      rw [everyIn_cons] at hfs
      simp only [chainRestAs]
      refine .bind (ensures_evalAs hcalls hspares env [] f hfs.1 hs) fun right w₁ h₁ => ?_
      refine .bind (.primitive (meets_onHeap (V.isSteady_binary i left right) h₁.advances.apart))
        fun v w₂ h₂ => ?_
      have hadvances : V.Advances _ w.store w₂.store :=
        h₁.advances.trans h₂ fun hq => ⟨hq, trivial⟩
      refine .imp (ensures_chainRestAs hcalls hspares env i v fs hfs.2 (hs.advance hadvances))
        fun v s' h => ?_
      exact hadvances.trans h fun hq => everyIn_cons.1 hq
termination_by structural fs

theorem ensures_storesAs (hcalls : V.IsKept calls) (hspares : D.package.sparesHelpers = true)
    (env : List (String × D.host.Value)) (a : D.host.Value) (stores : List (Int64 × Form))
    (hstores : EveryIn (Form.isTactful D.package) (stores.map (·.2)))
    {w : World (D.runtime calls)} (hs : V.Sound w.store.heap) :
    V.Ensures (storesAs env a stores) w fun _ s' =>
      V.Advances (EveryIn (fun g => g.isQuiet D.package = true) (stores.map (·.2))) w.store s' := by
  match stores with
  | [] => exact .of_pure (.refl hs.apart)
  | (index, f) :: rest =>
      rw [List.map_cons, everyIn_cons] at hstores
      simp only [storesAs]
      refine .bind (ensures_evalAs hcalls hspares env [] f hstores.1 hs) fun v w₁ h₁ => ?_
      refine .bind (.primitive (meets_onHeap (V.isSteady_arraySet a _ v) h₁.advances.apart))
        fun _ w₂ h₂ => ?_
      have hadvances : V.Advances _ w.store w₂.store :=
        h₁.advances.trans h₂ fun hq => ⟨hq, trivial⟩
      refine .imp (ensures_storesAs hcalls hspares env a rest hstores.2 (hs.advance hadvances))
        fun _ s' h => ?_
      exact hadvances.trans h fun hq => everyIn_cons.1 hq
termination_by structural stores
end

end

end

end Vectors

end StackCompiler
