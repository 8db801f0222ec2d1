import StackCompiler.Proofs.RunRecord
import StackCompiler.Proofs.WaitingVectors

/-!
Arrays are values. `isKept_call` shows that in a strict run of a package that respects kinds, array
variables never share a vector: what a variable takes is a vector that nobody holds, and what waits
for an owner is held by nobody until then. By `stepFollows_call` this holds of every run until its
first breach.
-/

namespace StackCompiler

open Source

namespace Vectors

open Deployment

section

variable {D : Deployment} (V : Vectors D.host)

/-- What the value of a form may be used for: it is unowned if the form has made it, and a variable
may take it if it is supplied. -/
structure Supplies (asked : List Kind) (waiting : List Holder) (f : Form) (v : D.host.Value)
    (s : Store D.host.Value (Memory D.host)) : Prop where
  owns : V.Owns (f.waits D.package asked waiting) s
  makes : f.makes D.package asked = true → V.Unowned v (f.waits D.package asked waiting) s
  isSupplied : f.IsSupplied D.package asked (f.waits D.package asked waiting) →
    ∀ name kind, Kind.isArray kind = true →
      V.Unowned v (takenBy name kind f (f.waits D.package asked waiting)) s

/-- What running forms of a function with these results guarantees: array variables hold different
vectors, and the arrays among the results are new. -/
structure Goes (results : List Kind) (h : D.host.Heap) (flow : Flow D.host.Value)
    (s : Store D.host.Value (Memory D.host)) : Prop where
  sound : V.Sound s.heap
  grows : V.Grows h s.heap.heap
  returned : ∀ v, flow = .ret v →
    V.Made h s.heap.heap (V.among results (v :: Host.resultVars.map s.vars))

end

section

variable {D : Deployment} {V : Vectors D.host} {calls : D.Calls} {w : World (D.runtime calls)}
  {waiting : List Holder} {f : Form} {asked results : List Kind} {h : D.host.Heap}
  {s : Store D.host.Value (Memory D.host)}

theorem Goes.of_ne {flow : Flow D.host.Value} (hs : V.Sound s.heap) (hgrows : V.Grows h s.heap.heap)
    (hflow : ∀ v, flow ≠ .ret v) : V.Goes results h flow s :=
  ⟨hs, hgrows, fun v hv => absurd hv (hflow v)⟩

theorem Goes.earlier {h₁ : D.host.Heap} {flow : Flow D.host.Value} (hgrows : V.Grows h h₁)
    (hgoes : V.Goes results h₁ flow s) : V.Goes results h flow s :=
  ⟨hgoes.sound, hgrows.trans hgoes.grows, fun v hv => .earlier hgrows (hgoes.returned v hv)⟩

/-- What a form reads that may wait. -/
theorem value?_of_evalAs {v : D.host.Value} {w' : World (D.runtime calls)}
    (hv : evalAs (w.store.heap.frames.headD []).env asked f w = .ok v w')
    {holder : Holder} (hholder : Holder.ofForm? f = some holder) :
    Holder.value? (H := D.host) w'.store holder = some v ∨
      holder.isNamed = true ∧ Holder.value? (H := D.host) w'.store holder = none := by
  cases f with
  | var name =>
      cases hholder
      simp only [evalAs, evalValue] at hv
      cases hlookup : List.lookup name (w.store.heap.frames.headD []).env with
      | some u =>
          rw [hlookup] at hv
          cases hv
          exact .inl hlookup
      | none =>
          rw [hlookup] at hv
          cases hv
          exact .inr ⟨rfl, hlookup⟩
  | resultRef index =>
      cases hholder
      simp only [evalAs, evalValue] at hv
      cases hvar : Host.resultVar? index with
      | some var =>
          rw [hvar] at hv
          cases hv
          exact .inl (by simp [Holder.value?, hvar])
      | none =>
          rw [hvar] at hv
          exact absurd hv throw_ne_ok
  | _ => cases hholder

theorem ensures_valueOf (hcalls : V.IsKept calls) (hspares : D.package.sparesHelpers = true)
    (asked : List Kind) (hf : f.Every (Form.isTactful D.package))
    (howns : V.Owns waiting w.store) :
    V.Ensures (valueOf asked f) w fun v s' =>
      V.Advances False w.store s' ∧ V.Supplies asked waiting f v s' := by
  have hyields := ensures_evalAs hcalls hspares (w.store.heap.frames.headD []).env asked f hf
    howns.sound
  have heval : (valueOf asked f : Run (D.runtime calls) _) w =
      evalAs (w.store.heap.frames.headD []).env asked f w := rfl
  unfold Ensures at hyields ⊢
  rw [heval]
  cases hv : (evalAs (w.store.heap.frames.headD []).env asked f : Run (D.runtime calls) _) w with
  | error e w' =>
      rw [hv] at hyields
      exact hyields
  | ok v w' =>
      rw [hv] at hyields
      obtain ⟨howns', hmakes⟩ := howns.evaluate hyields
      refine ⟨hyields.advances.of_imp False.elim, howns', hmakes, ?_⟩
      rintro (hsupplied | ⟨holder, hholder, hread⟩) name kind hkind
      · exact (hmakes hsupplied).subset (List.filter_subset_self _)
      · have hvalue : Holder.value? (H := D.host) w'.store holder = some v := by
          obtain hvalue | ⟨hnamed, hnone⟩ := value?_of_evalAs hv hread
          · exact hvalue
          · cases holder with
            | named name =>
                have hbound := howns'.bound name hholder
                rw [hnone] at hbound
                cases hbound
            | result index => cases hnamed
        intro hvector
        obtain ⟨hallocated, hheld, -⟩ := howns'.vacant holder hholder v hvalue hvector
        refine ⟨hallocated, hheld, fun other hother hvalue' => ?_⟩
        obtain ⟨hother, hne⟩ := List.mem_filter.1 hother
        have heq := howns'.inj holder hholder other hother v hvector hvalue hvalue'
        simp [hkind, hread, heq] at hne

/-! ### Statements -/

theorem Ensures.frame {α : Type} {k : Frame D.host.Value → Run (D.runtime calls) α}
    {post : α → Store D.host.Value (Memory D.host) → Prop}
    (hk : V.Ensures (k (w.store.heap.frames.headD [])) w post) :
    V.Ensures (do let fr ← Deployment.frame; k fr) w post := hk

theorem Ensures.setFrame {α : Type} {fr : Frame D.host.Value} {x : Run (D.runtime calls) α}
    {post : α → Store D.host.Value (Memory D.host) → Prop}
    (hx : V.Ensures x (withFrame fr w) post) :
    V.Ensures (do Deployment.setFrame fr; x) w post := hx

theorem not_mem_takenBy {name : String} {kind : Kind} :
    Holder.named name ∉ takenBy name kind f waiting := by
  simp [takenBy]

/-- Forms run one after the other. -/
theorem ensures_execAll_cons {t : TypedForm} {ts : List TypedForm}
    (ht : V.Ensures (exec t) w fun flow s' => V.Goes results w.store.heap.heap flow s' ∧
      (flow = .next → V.Owns waiting s'))
    (hts : ∀ w' : World (D.runtime calls), V.Owns waiting w'.store →
      V.Ensures (execAll ts) w' (V.Goes results w'.store.heap.heap)) :
    V.Ensures (execAll (t :: ts)) w (V.Goes results w.store.heap.heap) := by
  refine .bind ht fun flow w' hflow => ?_
  cases flow with
  | next => exact .imp (hts w' (hflow.2 rfl)) fun flow s' => .earlier hflow.1.grows
  | breakLoop | continueLoop | ret _ => exact .of_pure hflow.1

/-- A block, a branch or a loop leaves nothing that waits. -/
theorem ensures_execAll_cons_sound {t : TypedForm} {ts : List TypedForm}
    (ht : V.Ensures (exec t) w (V.Goes results w.store.heap.heap))
    (hts : ∀ w' : World (D.runtime calls), V.Owns [] w'.store →
      V.Ensures (execAll ts) w' (V.Goes results w'.store.heap.heap)) :
    V.Ensures (execAll (t :: ts)) w (V.Goes results w.store.heap.heap) :=
  ensures_execAll_cons (.imp ht fun _ _ h => ⟨h, fun _ => .of_sound h.sound⟩) hts

/-- What follows a jump is not run. -/
theorem ensures_execAll_cons_jump {t : TypedForm} {ts : List TypedForm}
    (ht : V.Ensures (exec t) w fun flow s' =>
      V.Goes results w.store.heap.heap flow s' ∧ flow ≠ .next) :
    V.Ensures (execAll (t :: ts)) w (V.Goes results w.store.heap.heap) := by
  refine .bind ht fun flow w' hflow => ?_
  cases flow with
  | next => exact absurd rfl hflow.2
  | breakLoop | continueLoop | ret _ => exact .of_pure hflow.1

theorem execAll_singleton (t : TypedForm) : (execAll [t] : Run (D.runtime calls) _) = exec t := by
  funext w
  show (exec t >>= _) w = _
  cases ht : exec t w with
  | ok flow w' =>
      rw [bind_of_ok ht]
      cases flow with
      | next | breakLoop | continueLoop | ret _ => rfl
  | error e w' => rw [bind_of_error ht]

theorem ensures_inBlock {x : Run (D.runtime calls) (Flow D.host.Value)}
    (hx : V.Ensures x w (V.Goes results w.store.heap.heap)) :
    V.Ensures (inBlock x) w (V.Goes results w.store.heap.heap) := by
  refine .frame (.bind hx fun flow w' hgoes => .frame (.setFrame (.of_pure ?_)))
  exact ⟨hgoes.sound.leave _, hgoes.grows, hgoes.returned⟩

/-- A loop keeps array variables apart if its parts do. -/
theorem ensures_rounds {test : Run (D.runtime calls) D.host.Value}
    {body post : Run (D.runtime calls) (Flow D.host.Value)}
    (htest : ∀ w' : World (D.runtime calls), V.Sound w'.store.heap →
      V.Ensures test w' fun _ s' => V.Sound s'.heap ∧ V.Grows w'.store.heap.heap s'.heap.heap)
    (hbody : ∀ w' : World (D.runtime calls), V.Sound w'.store.heap →
      V.Ensures body w' (V.Goes results w'.store.heap.heap))
    (hpost : ∀ w' : World (D.runtime calls), V.Sound w'.store.heap →
      V.Ensures post w' (V.Goes results w'.store.heap.heap))
    (n : Nat) (hs : V.Sound w.store.heap) :
    V.Ensures (rounds test body post n) w (V.Goes results w.store.heap.heap) := by
  induction n generalizing w with
  | zero => exact .of_throw _ hs.apart
  | succ n ih =>
      refine .bind (htest w hs) fun c w₁ h₁ => ?_
      split
      · exact .of_pure (.of_ne h₁.1 h₁.2 (by simp))
      · refine .bind (hbody w₁ h₁.1) fun flow w₂ h₂ => ?_
        have hgoes := h₂.earlier h₁.2
        cases flow with
        | next | continueLoop =>
            refine .bind (hpost w₂ h₂.sound) fun flow w₃ h₃ => ?_
            have hgoes₃ := h₃.earlier hgoes.grows
            cases flow with
            | next => exact .imp (ih h₃.sound) fun flow s' => .earlier hgoes₃.grows
            | ret v => exact .of_pure hgoes₃
            | breakLoop | continueLoop => exact .of_throw _ h₃.sound.apart
        | breakLoop => exact .of_pure (.of_ne hgoes.sound hgoes.grows (by simp))
        | ret v => exact .of_pure hgoes

theorem ensures_exec_branch (hcalls : V.IsKept calls) (hspares : D.package.sparesHelpers = true)
    {cond : Form} {body : List TypedForm} {els : Option TypedForm}
    (hcond : cond.Every (Form.isTactful D.package))
    (hbody : ∀ w' : World (D.runtime calls), V.Sound w'.store.heap →
      V.Ensures (execAll body) w' (V.Goes results w'.store.heap.heap))
    (hels : ∀ t, els = some t → ∀ w' : World (D.runtime calls), V.Sound w'.store.heap →
      V.Ensures (exec t) w' (V.Goes results w'.store.heap.heap))
    (hs : V.Sound w.store.heap) :
    V.Ensures (exec (.branch cond body els)) w (V.Goes results w.store.heap.heap) := by
  have hvalue := ensures_valueOf hcalls hspares [] hcond (Owns.of_sound hs)
  cases els with
  | none =>
      refine .bind hvalue fun c w₁ h₁ => ?_
      split
      · exact .of_pure (.of_ne h₁.2.owns.sound h₁.1.grows (by simp))
      · exact .imp (ensures_inBlock (hbody w₁ h₁.2.owns.sound)) fun _ _ => .earlier h₁.1.grows
  | some other =>
      refine .bind hvalue fun c w₁ h₁ => ?_
      split
      · exact .imp (hels other rfl w₁ h₁.2.owns.sound) fun _ _ => .earlier h₁.1.grows
      · exact .imp (ensures_inBlock (hbody w₁ h₁.2.owns.sound)) fun _ _ => .earlier h₁.1.grows

theorem ensures_exec_loop (hcalls : V.IsKept calls) (hspares : D.package.sparesHelpers = true)
    {cond : Form} {body : List TypedForm} {post : Option TypedForm}
    (hcond : cond.Every (Form.isTactful D.package))
    (hbody : ∀ w' : World (D.runtime calls), V.Sound w'.store.heap →
      V.Ensures (execAll body) w' (V.Goes results w'.store.heap.heap))
    (hpost : ∀ t, post = some t → ∀ w' : World (D.runtime calls), V.Sound w'.store.heap →
      V.Ensures (exec t) w' (V.Goes results w'.store.heap.heap))
    (hs : V.Sound w.store.heap) :
    V.Ensures (exec (.loop cond body post)) w (V.Goes results w.store.heap.heap) := by
  have htest : ∀ w' : World (D.runtime calls), V.Sound w'.store.heap →
      V.Ensures (valueOf [] cond) w' fun _ s' =>
        V.Sound s'.heap ∧ V.Grows w'.store.heap.heap s'.heap.heap :=
    fun w' hs' => .imp (ensures_valueOf hcalls hspares [] hcond (Owns.of_sound hs'))
      fun c s' h => ⟨h.2.owns.sound, h.1.grows⟩
  have hblock : ∀ w' : World (D.runtime calls), V.Sound w'.store.heap →
      V.Ensures (inBlock (execAll body)) w' (V.Goes results w'.store.heap.heap) :=
    fun w' hs' => ensures_inBlock (hbody w' hs')
  cases post with
  | none =>
      exact ensures_rounds htest hblock (fun w' hs' => .of_pure (.of_ne hs' .refl (by simp)))
        D.fuel hs
  | some after => exact ensures_rounds htest hblock (hpost after rfl) D.fuel hs

theorem ensures_exec_bind (hcalls : V.IsKept calls) (hspares : D.package.sparesHelpers = true)
    {name : String} {kind : Kind} {init : Form} (hinit : init.Every (Form.isTactful D.package))
    (hkind : kind.isArray = true →
      init.IsSupplied D.package asked (init.waits D.package asked waiting))
    (howns : V.Owns waiting w.store) :
    V.Ensures (exec (.bind asked name kind init)) w fun flow s' =>
      V.Goes results w.store.heap.heap flow s' ∧
        (flow = .next → V.Owns (boundTo D.package asked name kind init waiting) s') := by
  refine .bind (ensures_valueOf hcalls hspares asked hinit howns) fun v w₁ h₁ => ?_
  obtain ⟨hadvances, hsupplies⟩ := h₁
  have htaken : V.Owns (takenBy name kind init (init.waits D.package asked waiting)) w₁.store :=
    hsupplies.owns.subset (List.filter_subset_self _)
  have hbound := (htaken.bind not_mem_takenBy fun harray =>
    hsupplies.isSupplied (hkind harray) name kind harray).1
  refine .frame (.setFrame (.of_pure ⟨.of_ne hbound.sound hadvances.grows (by simp), fun _ => ?_⟩))
  unfold boundTo
  split
  · rename_i hwaits
    rw [Bool.and_eq_true, Bool.not_eq_true'] at hwaits
    exact htaken.bind_waiting not_mem_takenBy hwaits.1
      ((hsupplies.makes hwaits.2).subset (List.filter_subset_self _))
  · exact hbound

theorem notMem_resultVars {name : String} (h : isReserved name = false) :
    name ∉ Host.resultVars := by
  intro hmem
  simp [isReserved, hmem] at h

theorem Owns.writeVar (howns : V.Owns waiting w.store) {name : String}
    (hname : name ∉ Host.resultVars) (v : D.host.Value) :
    V.Owns waiting (w.store.setVar name v) ∧
      V.Grows w.store.heap.heap (w.store.setVar name v).heap.heap := by
  have hadvances : V.Advances True w.store (w.store.setVar name v) :=
    ⟨rfl, rfl, .refl, howns.sound.apart, fun _ var hvar => by
      have hne : var ≠ name := fun heq => hname (heq ▸ hvar)
      simp [Store.setVar, hne]⟩
  exact ⟨howns.advance hadvances (List.Subset.refl _) fun holder _ =>
    Holder.value?_of_vars hadvances.frames (hadvances.vars trivial) holder, .refl⟩

theorem ensures_exec_rebind (hcalls : V.IsKept calls) (hspares : D.package.sparesHelpers = true)
    {name : String} {kind : Kind} {value : Form} (hname : isReserved name = false)
    (hvalue : value.Every (Form.isTactful D.package))
    (hkind : kind.isArray = true →
      value.IsSupplied D.package asked (value.waits D.package asked waiting))
    (howns : V.Owns waiting w.store) :
    V.Ensures (exec (.rebind asked name kind value)) w fun flow s' =>
      V.Goes results w.store.heap.heap flow s' ∧ (flow = .next →
        V.Owns (takenBy name kind value (value.waits D.package asked waiting)) s') := by
  refine .bind (ensures_valueOf hcalls hspares asked hvalue howns) fun v w₁ h₁ => ?_
  obtain ⟨hadvances, hsupplies⟩ := h₁
  have htaken : V.Owns (takenBy name kind value (value.waits D.package asked waiting)) w₁.store :=
    hsupplies.owns.subset (List.filter_subset_self _)
  have hassign : V.Ensures (assign name kind v) w₁ fun _ s' =>
      V.Owns (takenBy name kind value (value.waits D.package asked waiting)) s' ∧
        V.Grows w₁.store.heap.heap s'.heap.heap := by
    refine .frame ?_
    cases hfind : (w₁.store.heap.frames.headD []).find? name with
    | none => exact htaken.writeVar (notMem_resultVars hname) v
    | some x =>
        refine .require htaken.sound fun hx => ?_
        have hx := of_decide_eq_true hx
        subst hx
        exact ⟨htaken.rebind hfind not_mem_takenBy fun harray =>
          hsupplies.isSupplied (hkind harray) name x.kind harray, .refl⟩
  refine .bind hassign fun _ w₂ h₂ => .of_pure ?_
  exact ⟨.of_ne h₂.1.sound (hadvances.grows.trans h₂.2) (by simp), fun _ => h₂.1⟩

theorem keeps_subset_waits : f.keeps D.package waiting ⊆ f.waits D.package asked waiting := by
  unfold Form.waits
  cases hgiven : f.results? D.package asked with
  | none => exact List.Subset.refl _
  | some given =>
      rw [Form.keeps, if_neg fun hall => not_every_isQuiet hgiven (List.all_eq_true.1 hall)]
      exact List.subset_append_left _ _

theorem ensures_exec_set (hcalls : V.IsKept calls) (hspares : D.package.sparesHelpers = true)
    {target index value : Form} (htarget : target.Every (Form.isTactful D.package))
    (hindex : index.Every (Form.isTactful D.package))
    (hvalue : value.Every (Form.isTactful D.package)) (howns : V.Owns waiting w.store) :
    V.Ensures (exec (.set asked target index value)) w fun flow s' =>
      V.Goes results w.store.heap.heap flow s' ∧ (flow = .next →
        V.Owns (value.waits D.package asked
          (index.keeps D.package (target.keeps D.package waiting))) s') := by
  refine .bind (ensures_valueOf hcalls hspares [] htarget howns) fun a w₁ h₁ => ?_
  refine .bind (ensures_valueOf hcalls hspares [] hindex (h₁.2.owns.subset keeps_subset_waits))
    fun i w₂ h₂ => ?_
  refine .bind (ensures_valueOf hcalls hspares asked hvalue
    (h₂.2.owns.subset keeps_subset_waits)) fun v w₃ h₃ => ?_
  refine .bind (.primitive (meets_onHeap (V.isSteady_arraySet a i v) h₃.2.owns.sound.apart))
    fun _ w₄ h₄ => .of_pure ?_
  have howns₄ := h₃.2.owns.advance h₄ (List.Subset.refl _) fun holder _ =>
    Holder.value?_of_vars h₄.frames (h₄.vars trivial) holder
  exact ⟨.of_ne howns₄.sound
    (h₁.1.grows.trans (h₂.1.grows.trans (h₃.1.grows.trans h₄.grows))) (by simp), fun _ => howns₄⟩

theorem ensures_exec_value (hcalls : V.IsKept calls) (hspares : D.package.sparesHelpers = true)
    {hstatement : f.isStatement = false} (hf : f.Every (Form.isTactful D.package))
    (howns : V.Owns waiting w.store) :
    V.Ensures (exec (.value asked f hstatement)) w fun flow s' =>
      V.Goes results w.store.heap.heap flow s' ∧
        (flow = .next → V.Owns (f.waits D.package asked waiting) s') := by
  refine .bind (ensures_valueOf hcalls hspares asked hf howns) fun v w₁ h₁ => .of_pure ?_
  exact ⟨.of_ne h₁.2.owns.sound h₁.1.grows (by simp), fun _ => h₁.2.owns⟩

/-! ### Results -/

theorem among_take (kinds : List Kind) (vs : List D.host.Value) :
    V.among kinds (vs.take kinds.length) = V.among kinds vs := by
  induction kinds generalizing vs with
  | nil => simp [among]
  | cons kind kinds ih =>
      cases vs with
      | nil => rfl
      | cons v vs => simp [ih]

/-- Further results are new where they are arrays, and each is stored in its variable. -/
theorem ensures_storeResults (hcalls : V.IsKept calls) (hspares : D.package.sparesHelpers = true)
    (env : List (String × D.host.Value)) {vars : List String} {fs : List Form} {kinds : List Kind}
    (hfs : EveryIn (Form.isTactful D.package) fs)
    (hnew : givesNew D.package kinds fs = true) (hs : V.Sound w.store.heap) :
    V.Ensures (storeResults env kinds vars fs) w fun stored s' => V.Advances False w.store s' ∧
      stored.map Prod.fst = vars.take fs.length ∧
      V.Made w.store.heap.heap s'.heap.heap (V.among kinds (stored.map Prod.snd)) := by
  induction fs generalizing vars kinds w with
  | nil =>
      cases vars with
      | nil | cons _ _ => exact .of_pure ⟨.refl hs.apart, by simp, by simpa using .nil⟩
  | cons f fs ih =>
      cases vars with
      | nil => exact .of_throw _ hs.apart
      | cons var vars =>
          rw [everyIn_cons] at hfs
          refine .bind (ensures_evalAs hcalls hspares env _ f hfs.1 hs) fun v w₁ h₁ => ?_
          have hwrite : V.Ensures (Run.writeVar var v : Run (D.runtime calls) Unit) w₁ fun _ s' =>
              V.Advances False w₁.store s' :=
            ⟨rfl, rfl, .refl, h₁.advances.apart, False.elim⟩
          refine .bind hwrite fun _ w₂ h₂ => ?_
          have hadvances : V.Advances False w.store w₂.store :=
            h₁.advances.trans h₂ False.elim
          have hs₂ := hs.advance hadvances
          cases kinds with
          | nil =>
              have hnone : givesNew D.package [] fs = true := rfl
              refine .bind (ih hfs.2 hnone hs₂) fun stored w₃ h₃ => .of_pure ?_
              exact ⟨hadvances.trans h₃.1 False.elim, by simp [h₃.2.1], .nil⟩
          | cons kind kinds =>
              simp only [givesNew, List.zip_cons_cons, List.all_cons, Bool.and_eq_true] at hnew
              refine .bind (ih hfs.2 hnew.2 hs₂) fun stored w₃ h₃ => .of_pure ?_
              refine ⟨hadvances.trans h₃.1 False.elim, by simp [h₃.2.1], ?_⟩
              rw [List.map_cons, among_cons]
              exact .append hadvances.grows h₃.1.grows
                ((h₁.made_of_kind hnew.1).later h₂.grows) h₃.2.2

/-- A function returns new arrays, since a strict run ends where a result would be lost. -/
theorem ensures_yieldAs (hcalls : V.IsKept calls) (hspares : D.package.sparesHelpers = true)
    (env : List (String × D.host.Value)) {fs : List Form}
    (hfs : EveryIn (Form.isTactful D.package) fs) (hlength : fs.length = results.length)
    (hnew : givesNew D.package results fs = true) (hs : V.Sound w.store.heap) :
    V.Ensures (yieldAs env results fs) w fun flow s' =>
      V.Goes results w.store.heap.heap flow s' ∧ flow ≠ .next := by
  cases fs with
  | nil =>
      cases results with
      | nil => exact .of_pure ⟨⟨hs, .refl, fun v _ => .nil⟩, by simp⟩
      | cons _ _ => cases hlength
  | cons f fs =>
      cases results with
      | nil => cases hlength
      | cons kind kinds =>
          rw [everyIn_cons] at hfs
          simp only [givesNew, List.zip_cons_cons, List.all_cons, Bool.and_eq_true] at hnew
          refine .bind (ensures_evalAs hcalls hspares env _ f hfs.1 hs) fun v w₁ h₁ => ?_
          refine .bind (ensures_storeResults hcalls hspares env hfs.2 hnew.2
            (hs.advance h₁.advances)) fun stored w₂ h₂ => ?_
          obtain ⟨hadvances, hvars, hmade⟩ := h₂
          have hs₂ := (hs.advance h₁.advances).advance hadvances
          refine .require hs₂ fun hkept => .of_pure ?_
          refine ⟨⟨hs₂, h₁.advances.grows.trans hadvances.grows, ?_⟩, by simp⟩
          rintro _ ⟨⟩
          have hstored : stored.map Prod.snd =
              (Host.resultVars.map w₂.store.vars).take kinds.length := by
            rw [← Nat.succ.inj hlength, ← List.map_take, ← hvars, List.map_map]
            refine List.map_congr_left fun pair hpair => ?_
            exact (of_decide_eq_true (List.all_eq_true.1 hkept pair hpair)).symm
          rw [hstored, List.tail_cons, among_take] at hmade
          rw [among_cons]
          exact .append h₁.advances.grows hadvances.grows (h₁.made_of_kind hnew.1) hmade

/-! ### Bodies and calls -/

/-- Typed forms that give array variables only arrays that nobody owns keep these apart. -/
theorem ensures_execAll (hcalls : V.IsKept calls) (hspares : D.package.sparesHelpers = true)
    {ts : List TypedForm} (hts : Owned D.package results waiting ts)
    (howns : V.Owns waiting w.store) :
    V.Ensures (execAll ts) w (V.Goes results w.store.heap.heap) := by
  induction hts generalizing w with
  | nil => exact .of_pure (.of_ne howns.sound .refl (by simp))
  | weaken hsub _ ih => exact ih (howns.subset hsub.subset)
  | block _ _ ihbody ih =>
      exact ensures_execAll_cons_sound (ensures_inBlock (ihbody (.of_sound howns.sound)))
        fun w' => ih
  | branch hcond _ _ _ ihbody ihels ih =>
      refine ensures_execAll_cons_sound (ensures_exec_branch hcalls hspares hcond
        (fun w' hs => ihbody (.of_sound hs)) (fun t ht w' hs => ?_) howns.sound) fun w' => ih
      rw [← execAll_singleton]
      exact ihels t ht (.of_sound hs)
  | loop hcond _ _ _ ihbody ihpost ih =>
      refine ensures_execAll_cons_sound (ensures_exec_loop hcalls hspares hcond
        (fun w' hs => ihbody (.of_sound hs)) (fun t ht w' hs => ?_) howns.sound) fun w' => ih
      rw [← execAll_singleton]
      exact ihpost t ht (.of_sound hs)
  | bind hinit hkind _ ih =>
      exact ensures_execAll_cons (ensures_exec_bind hcalls hspares hinit hkind howns) fun w' => ih
  | rebind hname hvalue hkind _ ih =>
      exact ensures_execAll_cons (ensures_exec_rebind hcalls hspares hname hvalue hkind howns)
        fun w' => ih
  | set htarget hindex hvalue _ ih =>
      exact ensures_execAll_cons (ensures_exec_set hcalls hspares htarget hindex hvalue howns)
        fun w' => ih
  | ret hfs hlength hnew =>
      exact ensures_execAll_cons_jump
        (.frame (ensures_yieldAs hcalls hspares _ hfs hlength hnew howns.sound))
  | breakLoop | continueLoop =>
      exact ensures_execAll_cons_jump (.of_pure ⟨.of_ne howns.sound .refl (by simp), by simp⟩)
  | value hf _ ih =>
      exact ensures_execAll_cons (ensures_exec_value hcalls hspares hf howns) fun w' => ih

theorem ensures_execBody (hcalls : V.IsKept calls) (hspares : D.package.sparesHelpers = true)
    {g : Function} {body : List TypedForm} (hbody : Owned D.package g.results [] body)
    (hs : V.Sound w.store.heap) :
    V.Ensures (execBody g body) w fun v s' => V.Sound s'.heap ∧
      V.Grows w.store.heap.heap s'.heap.heap ∧
      V.Made w.store.heap.heap s'.heap.heap
        (V.among g.results (v :: Host.resultVars.map s'.vars)) := by
  refine .bind (ensures_execAll hcalls hspares hbody (.of_sound hs)) fun flow w' hgoes => ?_
  cases flow with
  | next =>
      refine .require hgoes.sound fun hlength => .of_pure ⟨hgoes.sound, hgoes.grows, ?_⟩
      match hresults : g.results with
      | [] => exact .nil
      | [kind] =>
          rw [among_cons, V.isVector_constant, Bool.and_false]
          exact .nil
      | _ :: _ :: _ =>
          rw [hresults] at hlength
          simp at hlength
  | ret v => exact .of_pure ⟨hgoes.sound, hgoes.grows, hgoes.returned v rfl⟩
  | breakLoop | continueLoop => exact .of_throw _ hgoes.sound.apart

theorem held_ofArgs (params : List Param) (args : List D.host.Value) :
    V.held [Frame.ofArgs params args] = (V.among (params.map Param.kind) args).reverse := by
  simp [held, among, Frame.ofArgs, List.zip_map_left, List.filter_map, Function.comp_def]

/-- A call starts with parameters that share no vector. -/
theorem Sound.enter {m : Memory D.host} (hs : V.Sound m) {params : List Param}
    {args : List D.host.Value}
    (hnodup : (V.among (params.map Param.kind) args ++ V.held m.frames).Nodup)
    (hallocated : ∀ v ∈ V.among (params.map Param.kind) args, V.allocated m.heap v) :
    V.Sound (m.withFrames (Frame.ofArgs params args :: m.frames)) := by
  have hheld : (V.held (Frame.ofArgs params args :: m.frames)).Perm
      (V.among (params.map Param.kind) args ++ V.held m.frames) := by
    rw [held_cons, held_ofArgs]
    exact (List.reverse_perm _).append_right _
  have hframes := hheld.nodup_iff.2 hnodup
  refine ⟨hs.isStrict, hframes, fun v hv => ?_, List.forall_mem_cons.2 ⟨hframes, hs.apart⟩⟩
  obtain hv | hv := List.mem_append.1 (hheld.subset hv)
  · exact hallocated v hv
  · exact hs.allocated v hv

/-- A function that respects kinds keeps array variables apart if what it calls does. -/
theorem isKept_enter (hcalls : V.IsKept calls)
    (hkinded : D.package.isKinded D.environment = true)
    (hspares : D.package.sparesHelpers = true) : V.IsKept (D.enter calls) := by
  intro g hg args s hs hnodup hallocated
  unfold Meets enter
  cases hbody : TypedForm.ofStmts D.environment g.results false g.body with
  | error e => exact hs.apart
  | ok body =>
      have howned := ownedFirst_ofStmts hspares g.body hbody (List.all_eq_true.1 hkinded g hg) []
        .nil
      rw [List.append_nil] at howned
      dsimp only
      by_cases hlength : g.params.length = args.length
      · rw [if_pos hlength]
        have hrun := ensures_execBody (w := entered g args s) hcalls hspares howned
          (hs.enter hnodup hallocated)
        unfold Ensures at hrun
        split at hrun
        · rename_i v w' hw
          rw [hw]
          exact ⟨⟨rfl, hrun.1.isStrict.trans hs.isStrict.symm, hrun.2.1, hrun.1.apart, False.elim⟩,
            hrun.2.2⟩
        · rename_i e w' hw
          rw [hw]
          exact hrun
      · rw [if_neg hlength]
        exact hs.apart

/-- Calls keep array variables apart, however deep they are nested. -/
theorem isKept_call (hkinded : D.package.isKinded D.environment = true)
    (hspares : D.package.sparesHelpers = true) (depth : Nat) : V.IsKept (D.call depth) := by
  induction depth with
  | zero => exact fun g _ args s hs _ _ => hs.apart
  | succ depth ih => exact isKept_enter ih hkinded hspares

end

end Vectors

/-! ### Value semantics -/

section

variable {H : Runtime} (V : Vectors H)

/-- A store of an element through the first variable leaves the array of the second as it is. -/
def Vectors.Spares (x y : Variable H.Value) : Prop :=
  ∀ i v s s', H.arraySet x.value i v s = .ok () s' →
    V.contents s'.heap y.value = V.contents s.heap y.value

def Vectors.AreSeparate (x y : Variable H.Value) : Prop :=
  x.kind.isArray = true → y.kind.isArray = true → V.isVector x.value = true →
    x.value ≠ y.value ∧ V.Spares x y ∧ V.Spares y x

variable {V}

theorem Vectors.sound_start {D : Deployment} {V : Vectors D.host}
    {s : Store D.host.Value D.host.Heap} :
    V.Sound (Deployment.strictStore (Deployment.start s)).heap :=
  ⟨rfl, List.nodup_nil, fun _ hv => absurd hv List.not_mem_nil,
    fun _ h => absurd h List.not_mem_nil⟩

theorem Vectors.pairwise_areSeparate {frames : List (Frame H.Value)}
    (h : (V.held frames).Nodup) : frames.flatten.Pairwise V.AreSeparate := by
  rw [Vectors.held, List.Nodup, List.pairwise_map, List.pairwise_filter] at h
  refine h.imp fun {x y} hne hx hy hvector => ?_
  have hvalues : x.value ≠ y.value := fun heq => by
    have hvector' : V.isVector y.value = true := heq ▸ hvector
    exact hne (by simp [hx, hvector]) (by simp [hy, hvector']) heq
  exact ⟨hvalues, fun i v s s' h => V.contents_arraySet h y.value hvalues.symm,
    fun i v s s' h => V.contents_arraySet h x.value hvalues⟩

end

namespace Deployment

/-- Arrays are values: in a run of a package that respects kinds, whatever its host, no two
variables of array kinds share an array at any moment before the first breach. Without the record,
the run is the evaluation of the function's block, whether or not it returns. -/
theorem variables_share_no_array (D : Deployment) (V : Vectors D.host)
    (hkinded : D.package.isKinded D.environment = true)
    (hspares : D.package.sparesHelpers = true) {f : Function}
    (hf : f ∈ D.package.functions) (args : List D.host.Value)
    (s : Store D.host.Value D.host.Heap)
    (hunshared : (V.among (f.params.map Param.kind) args).Nodup)
    (hallocated : ∀ v ∈ V.among (f.params.map Param.kind) args, V.allocated s.heap v)
    (depth : Nat) :
    (∀ moment ∈ D.moments depth f args s, moment.breaches = [] →
      moment.frames.flatten.Pairwise V.AreSeparate) ∧
      D.plainCall depth f args s = mapState forget (D.call depth f args (start s)) := by
  have hfollows := stepFollows_call D depth f args
  have hnodup : (V.among (f.params.map Param.kind) args ++ V.held []).Nodup := by
    simpa [Vectors.held] using hunshared
  have hcall := Vectors.isKept_call hkinded hspares depth f hf args (strictStore (start s))
    Vectors.sound_start hnodup hallocated
  refine ⟨fun moment hmoment hfree => Vectors.pairwise_areSeparate ?_,
    hfollows.forgets (start s) rfl⟩
  have hstrict := hfollows.records.mem_strict_moments (fun _ => rfl) rfl rfl hmoment hfree
  exact hcall.apart (fun _ _ hpost => hpost.1.apart) moment hstrict

end Deployment

/-! ### A host of cells -/

/-- A value of a small host: a constant, or the place of a vector. -/
inductive Cell where
  | constant (c : Constant)
  | vector (place : Nat)
  deriving DecidableEq

namespace Cell

/-- The heap of a small host: its vectors in the order in which they were made. -/
abbrev Heap := List (List Cell)

def allocate (elems : List Cell) : Action Cell Heap Cell := fun s =>
  .ok (.vector s.heap.length) { s with heap := s.heap ++ [elems] }

def get (a i : Cell) : Action Cell Heap Cell := fun s =>
  match a, i with
  | .vector place, .constant (.int n) =>
    match (s.heap.getD place [])[n.toNatClampNeg]? with
    | some v => .ok v s
    | none => .error () s
  | _, _ => .error () s

def set (a i v : Cell) : Action Cell Heap Unit := fun s =>
  match a, i with
  | .vector place, .constant (.int n) =>
    .ok () { s with heap := s.heap.modify place (·.set n.toNatClampNeg v) }
  | _, _ => .error () s

def call (f : Cell) (args : List Cell) : Action Cell Heap Cell := fun s =>
  if f = .constant (.symbol Host.vector) then allocate args s
  else
    match args with
    | [.vector place] =>
      if f = .constant (.symbol Host.copySequence) then allocate (s.heap.getD place []) s
      else .error () s
    | _ => .error () s

end Cell

/-- A host that knows constants and vectors, and functions that make vectors. -/
def Runtime.cells : Runtime where
  Value := Cell
  Heap := Cell.Heap
  constant := .constant
  isNil v := v = .constant (.symbol Host.nil)
  isNil_iff := by simp
  unary _ _ := throw ()
  binary _ _ _ := throw ()
  concat _ := throw ()
  arrayRef := Cell.get
  arraySet := Cell.set
  call := Cell.call

section

open Cell

theorem Cell.isSteady_throw {α : Type} {known : Cell.Heap → Cell → Prop} :
    Runtime.IsSteady (H := .cells) known (throw () : Action Cell Cell.Heap α) :=
  fun _ _ _ h => absurd h throw_ne_ok

theorem Cell.call_cases {f : Cell} {args : List Cell} {s s' : Store Cell Cell.Heap} {v : Cell}
    (h : Cell.call f args s = .ok v s') :
    ∃ elems, v = .vector s.heap.length ∧ s' = { s with heap := s.heap ++ [elems] } := by
  unfold Cell.call at h
  split at h
  · cases h
    exact ⟨_, rfl, rfl⟩
  · split at h
    · split at h
      · cases h
        exact ⟨_, rfl, rfl⟩
      · cases h
    · cases h

theorem Cell.set_cases {a i v : Cell} {s s' : Store Cell Cell.Heap}
    (h : Cell.set a i v s = .ok () s') :
    ∃ place change, a = .vector place ∧ s' = { s with heap := s.heap.modify place change } := by
  unfold Cell.set at h
  split at h
  · cases h
    exact ⟨_, _, rfl, rfl⟩
  · cases h

theorem Cell.get_cases {a i v : Cell} {s s' : Store Cell Cell.Heap}
    (h : Cell.get a i s = .ok v s') : s' = s := by
  unfold Cell.get at h
  split at h
  · split at h
    · cases h
      rfl
    · cases h
  · cases h

theorem Cell.getD_modify {heap : Cell.Heap} {place other : Nat} {change : List Cell → List Cell}
    (hne : place ≠ other) : (heap.modify place change).getD other [] = heap.getD other [] := by
  simp [List.getD_eq_getElem?_getD, hne]

def Vectors.cells : Vectors .cells where
  isVector
    | .vector _ => true
    | .constant _ => false
  allocated heap
    | .vector place => place < heap.length
    | .constant _ => False
  contents heap
    | .vector place => heap.getD place []
    | .constant _ => []
  isVector_constant _ := rfl
  symbol_inj h := by
    cases h
    rfl
  isSteady_unary _ _ := Cell.isSteady_throw
  isSteady_binary _ _ _ := Cell.isSteady_throw
  isSteady_concat _ := Cell.isSteady_throw
  isSteady_arrayRef a i s v s' h := by
    rw [Cell.get_cases h]
    exact ⟨fun _ h => h, fun _ _ => rfl⟩
  isSteady_arraySet a i v s _ s' h := by
    obtain ⟨place, elem, -, rfl⟩ := Cell.set_cases h
    refine ⟨fun b hb => ?_, fun _ _ => rfl⟩
    cases b with
    | constant _ => exact hb
    | vector _ => simpa using hb
  isSteady_call f args s v s' h := by
    obtain ⟨elems, -, rfl⟩ := Cell.call_cases h
    refine ⟨fun b hb => ?_, fun _ _ => rfl⟩
    cases b with
    | constant _ => exact hb
    | vector place =>
        have hplace : place < s.heap.length := hb
        simp only [List.length_append, List.length_singleton]
        omega
  call_allocates h _ := by
    obtain ⟨elems, rfl, rfl⟩ := Cell.call_cases h
    simp
  contents_arraySet h b hb := by
    obtain ⟨place, elem, rfl, rfl⟩ := Cell.set_cases h
    cases b with
    | constant _ => rfl
    | vector other =>
        exact Cell.getD_modify fun heq => hb (by rw [heq])

end

/-! ### Runs of small packages -/

namespace Deployment

def onCells (functions : List Function) : Deployment where
  package := ⟨"main", functions⟩
  environment := ⟨⟨functions.map fun f => (.ofName f.name, ⟨f.name, .value⟩)⟩, .empty⟩
  host := .cells
  sameValue := inferInstanceAs (DecidableEq Cell)
  fuel := 1

def oneCell : Store Cell Cell.Heap :=
  ⟨fun _ => .constant (.symbol Host.nil), [[.constant (.int 0)]]⟩

namespace Sample

def single : Kind := .array .int 1

def ints : Kind := .slice .int

def zero : Expr := .ofLiteral (.int 0)

def callOf (name : String) (args : List Expr) (kind : Kind) : Expr :=
  .call (.function name) args kind {}

def twice : Function where
  name := "twice"
  params := [⟨"a", single⟩]
  results := [single, single]
  body := [.ret [.ofName "a" single, .ofName "a" single] {}]

def keep : Function where
  name := "keep"
  params := [⟨"a", single⟩]
  results := [single]
  body := [.ret [.ofName "a" single] {}]

def fresh : Function where
  name := "fresh"
  params := [⟨"i", .int⟩]
  results := [single]
  body := [.ret [.array [(none, .ofName "i" .int)] single {}] {}]

/-- Calls a function value, here the symbol that names a function of the package. -/
def callOfValue (name : String) (args : List Expr) (kind : Kind) : Expr :=
  .call (.intrinsic "DynCall")
    (.call (.intrinsic "Intern") [.ofLiteral (.str name)] (.scalar .object) {} :: args) kind {}

/-- Gets arrays through function values of different kinds, swaps two of them, and stores into one
of them. -/
def swap : Function where
  name := "swap"
  params := [⟨"a", single⟩]
  results := []
  body := [
    .assign [.ofDefinition "x" single, .ofDefinition "y" single] .define
      [callOfValue "keep" [.ofName "a" single] single, callOfValue "fresh" [zero] single] {},
    .assign [.ofDefinition "p" single, .ofDefinition "q" single] .define
      [callOfValue "twice" [.ofName "a" single] (.tuple 2)] {},
    .assign [.ofName "x" single, .ofName "p" single] .assign
      [.ofName "p" single, .ofName "x" single] {},
    .assign [.ofIndex (.ofName "x" single) zero .int] .assign [zero] {}]

def second : Function where
  name := "second"
  params := [⟨"s", ints⟩]
  results := [.int, ints]
  body := [.ret [zero, .ofName "s" ints] {}]

def ignore : Function where
  name := "ignore"
  params := [⟨"s", ints⟩]
  results := [.int]
  body := [.expr (callOf "second" [.ofName "s" ints] (.tuple 2)) {}, .ret [zero] {}]

/-- Returns a new array between two numbers, the second of which comes from `ignore`. -/
def between : Function where
  name := "between"
  params := [⟨"s", ints⟩]
  results := [.int, single, .int]
  body := [.ret [zero, .array [(none, zero)] single {}, callOf "ignore" [.ofName "s" ints] .int] {}]

def getBoth : Function where
  name := "getBoth"
  params := [⟨"s", ints⟩]
  results := []
  body := [
    .assign [.ofName "_" .int, .ofDefinition "a" single, .ofName "_" .int] .define
      [callOf "between" [.ofName "s" ints] (.tuple 3)] {},
    .assign [.ofName "_" .int, .ofDefinition "b" single, .ofName "_" .int] .define
      [callOf "between" [.ofName "s" ints] (.tuple 3)] {}]

end Sample

open Sample

def swapping : Deployment := onCells [twice, keep, fresh, swap]

/-- The arrays of `swap` stay apart, also while they wait in temporaries. -/
theorem variables_share_no_array_swap :
    swapping.package.isKinded swapping.environment = true ∧
      swapping.package.sparesHelpers = true ∧ swap ∈ swapping.package.functions ∧
      (∀ moment ∈ swapping.moments 2 swap [Cell.vector 0] oneCell, moment.breaches = []) ∧
      (∃ moment ∈ swapping.moments 2 swap [Cell.vector 0] oneCell,
        (Vectors.cells.held moment.frames).length = 5) ∧
      ∀ moment ∈ swapping.moments 2 swap [Cell.vector 0] oneCell,
        moment.frames.flatten.Pairwise Vectors.cells.AreSeparate := by
  have hkinded : swapping.package.isKinded swapping.environment = true := by decide +kernel
  have hspares : swapping.package.sparesHelpers = true := by decide +kernel
  have hswap : swap ∈ swapping.package.functions := by
    simp [swapping, onCells]
  have hunshared : [Cell.vector 0].Nodup := by decide
  have hallocated : ∀ v ∈ [Cell.vector 0], Vectors.cells.allocated oneCell.heap v := by
    rintro v (_ | ⟨_, ⟨⟩⟩)
    exact Nat.zero_lt_one
  have hfree : ∀ moment ∈ swapping.moments 2 swap [Cell.vector 0] oneCell,
      moment.breaches = [] := by decide +kernel
  exact ⟨hkinded, hspares, hswap, hfree, by decide +kernel, fun moment hmoment =>
    (variables_share_no_array swapping .cells hkinded hspares hswap [Cell.vector 0] oneCell
      hunshared hallocated 2).1 moment hmoment (hfree moment hmoment)⟩

def losing : Deployment := onCells [second, ignore, between, getBoth]

/-- A lost result makes variables share an array: `between` stores its array as a result, then calls
`ignore`, and `second` puts the slice in its place. Both arrays of `getBoth` are that slice. -/
theorem lost_result_shares_array :
    losing.package.isKinded losing.environment = true ∧ losing.package.sparesHelpers = true ∧
      ∃ moment ∈ losing.moments 4 getBoth [Cell.vector 0] oneCell, .kinds ∉ moment.breaches ∧
        ∃ a ∈ moment.frames.flatten, ∃ b ∈ moment.frames.flatten, a.name = "a" ∧ b.name = "b" ∧
          a.kind.isArray = true ∧ b.kind.isArray = true ∧
          Vectors.cells.isVector a.value = true ∧ a.value = b.value := by
  exact ⟨by decide +kernel, by decide +kernel, by decide +kernel⟩

end Deployment

end StackCompiler
