import StackCompiler.Proofs.Vectors

/-!
Vectors that wait for an owner in a run. What waits is held by nobody. `Owns.evaluate` shows that
evaluation keeps it so, also where a function leaves results, and `Owns.bind` and `Owns.rebind` that
variables may take what is unowned.
-/

namespace StackCompiler

open Source

/-! ### Vectors that wait -/

namespace Holder

variable {H : Runtime} {s s' : Store H.Value (Memory H)}

def value? (s : Store H.Value (Memory H)) : Holder → Option H.Value
  | named name => (s.heap.frames.headD []).env.lookup name
  | result index => (Host.resultVar? index).map s.vars

theorem value?_of_isNamed {holder : Holder} (hnamed : holder.isNamed = true)
    (hframes : s'.heap.frames = s.heap.frames) : holder.value? s' = holder.value? s := by
  cases holder with
  | named name => simp only [Holder.value?, hframes]
  | result index => cases hnamed

theorem value?_of_vars (hframes : s'.heap.frames = s.heap.frames)
    (hvars : ∀ var ∈ Host.resultVars, s'.vars var = s.vars var) (holder : Holder) :
    holder.value? s' = holder.value? s := by
  cases holder with
  | named name => simp only [Holder.value?, hframes]
  | result index =>
      cases index with
      | zero => rfl
      | succ index =>
          simp only [Holder.value?, Host.resultVar?]
          cases h : Host.resultVars[index]? with
          | none => rfl
          | some var => simp [hvars var (List.mem_of_getElem? h)]

end Holder

namespace Vectors

section

variable {H : Runtime} (V : Vectors H)

/-- Nobody holds the value and it does not wait, or it is no vector. -/
def Unowned (v : H.Value) (waiting : List Holder) (s : Store H.Value (Memory H)) : Prop :=
  V.isVector v = true → V.allocated s.heap.heap v ∧ v ∉ V.held s.heap.frames ∧
    ∀ holder ∈ waiting, holder.value? s ≠ some v

/-- Vectors that wait are held by nobody, and no two places have the same. -/
structure Owns (waiting : List Holder) (s : Store H.Value (Memory H)) : Prop where
  sound : V.Sound s.heap
  bound : ∀ name, .named name ∈ waiting → (Holder.value? s (.named name)).isSome = true
  vacant : ∀ holder ∈ waiting, ∀ v, holder.value? s = some v → V.Unowned v [] s
  inj : ∀ holder ∈ waiting, ∀ other ∈ waiting, ∀ v, V.isVector v = true →
    holder.value? s = some v → other.value? s = some v → holder = other

end

section

variable {H : Runtime} {V : Vectors H} {s s' : Store H.Value (Memory H)}
  {waiting waiting' : List Holder} {v : H.Value}

theorem Unowned.subset (h : V.Unowned v waiting s) (hsub : waiting' ⊆ waiting) :
    V.Unowned v waiting' s :=
  fun hv => ⟨(h hv).1, (h hv).2.1, fun holder hholder => (h hv).2.2 holder (hsub hholder)⟩

theorem Owns.of_sound (h : V.Sound s.heap) : V.Owns [] s :=
  ⟨h, by simp, by simp, by simp⟩

theorem Owns.subset (h : V.Owns waiting s) (hsub : waiting' ⊆ waiting) : V.Owns waiting' s where
  sound := h.sound
  bound name hname := h.bound name (hsub hname)
  vacant holder hholder := h.vacant holder (hsub hholder)
  inj holder hholder other hother := h.inj holder (hsub hholder) other (hsub hother)

/-- A place where an unowned vector waits may be added. -/
theorem Owns.cons (h : V.Owns waiting s) {name : String}
    (hvalue : Holder.value? s (.named name) = some v) (hv : V.Unowned v waiting s) :
    V.Owns (.named name :: waiting) s where
  sound := h.sound
  bound other hother := by
    obtain heq | hother := List.mem_cons.1 hother
    · cases heq
      rw [hvalue]
      rfl
    · exact h.bound other hother
  vacant := by
    rw [List.forall_mem_cons]
    refine ⟨fun u hu => ?_, h.vacant⟩
    rw [hvalue] at hu
    cases hu
    exact hv.subset (List.nil_subset _)
  inj := by
    simp only [List.forall_mem_cons]
    refine ⟨⟨fun _ _ _ _ => trivial, fun other hother u hu hnamed hvalue' => ?_⟩,
      fun holder hholder => ⟨fun u hu hvalue' hnamed => ?_, h.inj holder hholder⟩⟩
    · rw [hvalue] at hnamed
      cases hnamed
      exact absurd hvalue' ((hv hu).2.2 other hother)
    · rw [hvalue] at hnamed
      cases hnamed
      exact absurd hvalue' ((hv hu).2.2 holder hholder)

/-! ### After a value has been evaluated -/

theorem among_results (kinds : List Kind) (i : Nat) :
    V.among kinds ((Host.resultVars.drop i).map s.vars) =
      ((Holder.results (i + 1) kinds).filterMap (Holder.value? s)).filter V.isVector := by
  induction kinds generalizing i with
  | nil => simp [among, Holder.results]
  | cons kind kinds ih =>
      have hrest := ih (i + 1)
      cases h : Host.resultVars[i]? with
      | none =>
          have hdrop : ∀ j, i ≤ j → Host.resultVars.drop j = [] := fun j hj =>
            List.drop_eq_nil_of_le (le_trans (List.getElem?_eq_none_iff.1 h) hj)
          rw [hdrop i le_rfl, List.map_nil, among_nil]
          rw [hdrop (i + 1) (by omega), List.map_nil, among_nil] at hrest
          rw [Holder.results]
          split
          · simpa [Holder.value?, Host.resultVar?, h] using hrest
          · exact hrest
      | some var =>
          obtain ⟨hi, rfl⟩ := List.getElem?_eq_some_iff.1 h
          rw [List.drop_eq_getElem_cons hi, List.map_cons, among_cons, hrest, Holder.results]
          have hvalue : Holder.value? s (.result (i + 1)) = some (s.vars Host.resultVars[i]) := by
            simp [Holder.value?, Host.resultVar?, h]
          cases kind.isArray with
          | false => simp
          | true =>
              simp only [Bool.true_and, if_true, List.filterMap_cons, hvalue, List.filter_cons]
              split
              · rfl
              · rfl

theorem eq_of_nodup_filterMap {α β : Type} {l : List α} {f : α → Option β} {p : β → Bool}
    (hnodup : ((l.filterMap f).filter p).Nodup) {a b : α} {c : β} (ha : a ∈ l) (hb : b ∈ l)
    (hfa : f a = some c) (hfb : f b = some c) (hc : p c = true) : a = b := by
  induction l with
  | nil => cases ha
  | cons x l ih =>
      have hmem : ∀ y ∈ l, f y = some c → c ∈ (l.filterMap f).filter p := fun y hy hfy =>
        List.mem_filter.2 ⟨List.mem_filterMap.2 ⟨y, hy, hfy⟩, hc⟩
      have hrest : ((l.filterMap f).filter p).Nodup :=
        hnodup.sublist (((List.sublist_cons_self x l).filterMap f).filter p)
      have hhead : f x = some c → c ∉ (l.filterMap f).filter p := by
        intro hx
        rw [List.filterMap_cons_some hx, List.filter_cons, if_pos hc, List.nodup_cons] at hnodup
        exact hnodup.1
      obtain rfl | ha' := List.mem_cons.1 ha
      · obtain rfl | hb' := List.mem_cons.1 hb
        · rfl
        · exact absurd (hmem b hb' hfb) (hhead hfa)
      · obtain rfl | hb' := List.mem_cons.1 hb
        · exact absurd (hmem a ha' hfa) (hhead hfb)
        · exact ih hrest ha' hb'

/-- The results that a function of the package has left are new and different. -/
theorem Made.results {kinds : List Kind} {h : H.Heap}
    (hmade : V.Made h s.heap.heap (V.among kinds (Host.resultVars.map s.vars))) {holder : Holder}
    (hholder : holder ∈ Holder.results 1 kinds) {v : H.Value} (hvalue : holder.value? s = some v)
    (hv : V.isVector v = true) :
    v ∈ V.among kinds (Host.resultVars.map s.vars) ∧
      ∀ other ∈ Holder.results 1 kinds, other.value? s = some v → holder = other := by
  have heq : V.among kinds (Host.resultVars.map s.vars) =
      ((Holder.results 1 kinds).filterMap (Holder.value? s)).filter V.isVector :=
    among_results kinds 0
  rw [heq] at hmade ⊢
  exact ⟨List.mem_filter.2 ⟨List.mem_filterMap.2 ⟨holder, hholder, hvalue⟩, hv⟩,
    fun other hother hvalue' =>
      eq_of_nodup_filterMap hmade.nodup hholder hother hvalue hvalue' hv⟩

/-- The results that a function of the package has left wait beside what was known before. -/
theorem Owns.withResults {kinds : List Kind} {h : H.Heap} (howns : V.Owns waiting s)
    (hmade : V.Made h s.heap.heap (V.among kinds (Host.resultVars.map s.vars)))
    (hheld : ∀ v ∈ V.held s.heap.frames, V.allocated h v)
    (hknown : ∀ holder ∈ waiting, ∀ v, holder.value? s = some v → V.isVector v = true →
      V.allocated h v) : V.Owns (waiting ++ Holder.results 1 kinds) s where
  sound := howns.sound
  bound name hname := by
    obtain hname | hname := List.mem_append.1 hname
    · exact howns.bound name hname
    · obtain ⟨later, -, heq⟩ := Holder.mem_results hname
      cases heq
  vacant := by
    refine List.forall_mem_append.2 ⟨howns.vacant, fun holder hholder v hv hvector => ?_⟩
    have hmem := (hmade.results hholder hv hvector).1
    exact ⟨hmade.allocated v hmem, fun hv => hmade.unknown v hmem (hheld v hv), by simp⟩
  inj holder hholder other hother v hvector hv hv' := by
    obtain hholder | hholder := List.mem_append.1 hholder
    · obtain hother | hother := List.mem_append.1 hother
      · exact howns.inj holder hholder other hother v hvector hv hv'
      · exact absurd (hknown holder hholder v hv hvector)
          (hmade.unknown v (hmade.results hother hv' hvector).1)
    · obtain hother | hother := List.mem_append.1 hother
      · exact absurd (hknown other hother v hv' hvector)
          (hmade.unknown v (hmade.results hholder hv hvector).1)
      · exact (hmade.results hholder hv hvector).2 other hother hv'

/-- What was known before and is unchanged still waits. -/
theorem Owns.advance {q : Prop} (h : V.Owns waiting s) (hadvances : V.Advances q s s')
    (hsub : waiting' ⊆ waiting)
    (hvalue : ∀ holder ∈ waiting', holder.value? s' = holder.value? s) : V.Owns waiting' s' where
  sound := h.sound.advance hadvances
  bound name hname := by
    rw [hvalue _ hname]
    exact h.bound name (hsub hname)
  vacant holder hholder v hv hvector := by
    rw [hvalue _ hholder] at hv
    obtain ⟨hallocated, hheld, -⟩ := h.vacant holder (hsub hholder) v hv hvector
    rw [hadvances.frames]
    exact ⟨hadvances.grows v hallocated, hheld, by simp⟩
  inj holder hholder other hother v hvector hv hv' := by
    rw [hvalue _ hholder] at hv
    rw [hvalue _ hother] at hv'
    exact h.inj holder (hsub hholder) other (hsub hother) v hvector hv hv'

/-- A new vector is unowned. -/
theorem Made.unowned {q : Prop} (hmade : V.Made s.heap.heap s'.heap.heap ([v].filter V.isVector))
    (h : V.Owns waiting s) (hadvances : V.Advances q s s') (hsub : waiting' ⊆ waiting)
    (hvalue : ∀ holder ∈ waiting', holder.value? s' = holder.value? s) :
    V.Unowned v waiting' s' := by
  intro hvector
  have hmem : v ∈ [v].filter V.isVector := by simp [hvector]
  refine ⟨hmade.allocated v hmem, fun hheld => ?_, fun holder hholder hv => ?_⟩
  · rw [hadvances.frames] at hheld
    exact hmade.unknown v hmem (h.sound.allocated v hheld)
  · rw [hvalue _ hholder] at hv
    exact hmade.unknown v hmem (h.vacant holder (hsub hholder) v hv hvector).1

end

section

variable {D : Deployment} {V : Vectors D.host} {asked given : List Kind} {f : Form}
  {s s' : Store D.host.Value (Memory D.host)} {v : D.host.Value} {waiting : List Holder}

/-- The first result is none of the others, if it is an array. -/
theorem Made.notMem_rest {h h' : D.host.Heap} {vs : List D.host.Value}
    (hmade : V.Made h h' (V.among given (v :: vs))) (hstarts : startsWithArray given = true)
    (hvector : V.isVector v = true) : v ∉ V.among given.tail vs := by
  cases given with
  | nil => cases hstarts
  | cons kind rest =>
      have hkind : kind.isArray = true := hstarts
      have hnodup := hmade.nodup
      rw [among_cons, hkind, hvector] at hnodup
      exact (List.nodup_cons.1 hnodup).1

/-- What waits after a form has been evaluated that leaves no results. -/
theorem Yields.keeps (hyields : V.Yields asked f s v s') :
    f.keeps D.package waiting ⊆ waiting ∧
      ∀ holder ∈ f.keeps D.package waiting, holder.value? s' = holder.value? s := by
  unfold Form.keeps
  split
  · rename_i hquiet
    have hvars := hyields.advances.vars (List.all_eq_true.1 hquiet)
    exact ⟨List.Subset.refl _, fun holder _ =>
      Holder.value?_of_vars hyields.advances.frames hvars holder⟩
  · exact ⟨List.filter_subset_self _, fun holder hholder =>
      Holder.value?_of_isNamed (List.mem_filter.1 hholder).2 hyields.advances.frames⟩

/-- After a function of the package may have been called, its results wait. -/
theorem Owns.evaluate_call (h : V.Owns waiting s) (hyields : V.Yields asked f s v s')
    (hgiven : f.results? D.package asked = some given) :
    V.Owns (waiting.filter Holder.isNamed ++ Holder.results 1 given.tail) s' ∧
      (f.makes D.package asked = true →
        V.Unowned v (waiting.filter Holder.isNamed ++ Holder.results 1 given.tail) s') := by
  have hadvances := hyields.advances
  have hsub : waiting.filter Holder.isNamed ⊆ waiting := List.filter_subset_self _
  have hvalue : ∀ holder ∈ waiting.filter Holder.isNamed, holder.value? s' = holder.value? s :=
    fun holder hholder =>
      Holder.value?_of_isNamed (List.mem_filter.1 hholder).2 hadvances.frames
  have hmade := hyields.results given hgiven
  have hrest : V.Made s.heap.heap s'.heap.heap
      (V.among given.tail (Host.resultVars.map s'.vars)) := by
    refine hmade.sublist ?_
    cases given with
    | nil => exact List.Sublist.refl _
    | cons kind kinds =>
        rw [among_cons]
        exact List.sublist_append_right _ _
  refine ⟨(h.advance hadvances hsub hvalue).withResults hrest (fun u hu => ?_)
    (fun holder hholder u hu hvector => ?_), fun hmakes hvector => ?_⟩
  · rw [hadvances.frames] at hu
    exact h.sound.allocated u hu
  · rw [hvalue holder hholder] at hu
    exact (h.vacant holder (hsub hholder) u hu hvector).1
  · obtain ⟨hallocated, hheld, hwaiting⟩ :=
      (hyields.made hmakes).unowned h hadvances hsub hvalue hvector
    refine ⟨hallocated, hheld, List.forall_mem_append.2 ⟨hwaiting, fun holder hholder hv => ?_⟩⟩
    have hmem := (hrest.results hholder hv hvector).1
    exact hmade.notMem_rest (startsWithArray_of_makes hgiven hmakes) hvector hmem

/-- After a form has been evaluated, arrays wait as they should, and an array that it has made is
unowned. -/
theorem Owns.evaluate (h : V.Owns waiting s) (hyields : V.Yields asked f s v s') :
    V.Owns (f.waits D.package asked waiting) s' ∧ (f.makes D.package asked = true →
      V.Unowned v (f.waits D.package asked waiting) s') := by
  unfold Form.waits
  cases hgiven : f.results? D.package asked with
  | some given => exact h.evaluate_call hyields hgiven
  | none =>
      obtain ⟨hsub, hvalue⟩ : f.keeps D.package waiting ⊆ waiting ∧
          ∀ holder ∈ f.keeps D.package waiting, holder.value? s' = holder.value? s :=
        hyields.keeps
      exact ⟨h.advance hyields.advances hsub hvalue,
        fun hmakes => (hyields.made hmakes).unowned h hyields.advances hsub hvalue⟩

end

/-! ### Variables -/

section

variable {D : Deployment} {V : Vectors D.host} {calls : D.Calls} {w : World (D.runtime calls)}
  {waiting : List Holder} {fr : Frame D.host.Value}

open Deployment

theorem held_headD_tail {H : Runtime} (V : Vectors H) (frames : List (Frame H.Value)) :
    V.held (frames.headD [] :: frames.tail) = V.held frames := by
  cases frames with
  | nil => rfl
  | cons fr rest => rfl

theorem held_insert {H : Runtime} (V : Vectors H) (before after : Frame H.Value)
    (x : Variable H.Value) (frames : List (Frame H.Value)) :
    V.held ((before ++ x :: after) :: frames) = V.held [before] ++
      ((if x.kind.isArray && V.isVector x.value then [x.value] else []) ++
        V.held (after :: frames)) := by
  simp only [held, List.flatten_cons, List.flatten_nil, List.append_nil, List.append_assoc,
    List.filter_append, List.map_append, List.cons_append, List.filter_cons]
  split <;> simp

/-- Array variables may change as long as they take unowned vectors and nothing that waits. -/
theorem Owns.setFrame (h : V.Owns waiting w.store)
    (hnodup : (V.held (fr :: w.store.heap.frames.tail)).Nodup)
    (hheld : ∀ v ∈ V.held (fr :: w.store.heap.frames.tail),
      v ∈ V.held w.store.heap.frames ∨ V.isVector v = true ∧ V.Unowned v waiting w.store)
    (hlookup : ∀ name, .named name ∈ waiting →
      fr.env.lookup name = (w.store.heap.frames.headD []).env.lookup name) :
    V.Owns waiting (withFrame fr w).store ∧ ∀ holder ∈ waiting,
      holder.value? (H := D.host) (withFrame fr w).store = holder.value? w.store := by
  have hvalue : ∀ holder ∈ waiting,
      holder.value? (H := D.host) (withFrame fr w).store = holder.value? w.store := by
    intro holder hholder
    cases holder with
    | named name => exact hlookup name hholder
    | result index => rfl
  refine ⟨⟨⟨h.sound.isStrict, hnodup, fun v hv => ?_, ?_⟩, fun name hname => ?_,
    fun holder hholder v hv hvector => ?_,
    fun holder hholder other hother v hvector hv hv' => ?_⟩, hvalue⟩
  · obtain hv | ⟨hvector, hv⟩ := hheld v hv
    · exact h.sound.allocated v hv
    · exact (hv hvector).1
  · exact List.forall_mem_cons.2 ⟨hnodup, h.sound.apart⟩
  · rw [hvalue _ hname]
    exact h.bound name hname
  · rw [hvalue _ hholder] at hv
    obtain ⟨hallocated, hunheld, -⟩ := h.vacant holder hholder v hv hvector
    refine ⟨hallocated, fun hmem => ?_, by simp⟩
    obtain hmem | ⟨-, hunowned⟩ := hheld v hmem
    · exact hunheld hmem
    · exact (hunowned hvector).2.2 holder hholder hv
  · rw [hvalue _ hholder] at hv
    rw [hvalue _ hother] at hv'
    exact h.inj holder hholder other hother v hvector hv hv'

theorem Sound.leave (h : V.Sound w.store.heap) (n : Nat) :
    V.Sound (withFrame (lowest n (w.store.heap.frames.headD [])) w).store.heap := by
  have hsub : (V.held (lowest n (w.store.heap.frames.headD []) :: w.store.heap.frames.tail)).Sublist
      (V.held w.store.heap.frames) := by
    rw [← held_headD_tail V w.store.heap.frames, held_cons,
      held_cons (w.store.heap.frames.headD [])]
    refine List.Sublist.append ?_ (List.Sublist.refl _)
    simp only [held, List.flatten_cons, List.flatten_nil, List.append_nil]
    exact ((List.drop_sublist _ _).filter _).map _
  have howns := (Owns.of_sound h).setFrame (h.nodup.sublist hsub)
    (fun v hv => .inl (hsub.subset hv)) (by simp)
  exact howns.1.sound

/-- A new variable takes an unowned vector. -/
theorem Owns.bind (h : V.Owns waiting w.store) {name : String} {kind : Kind} {v : D.host.Value}
    (hname : .named name ∉ waiting)
    (hv : kind.isArray = true → V.Unowned v waiting w.store) :
    V.Owns waiting (withFrame (⟨name, kind, v⟩ :: w.store.heap.frames.headD []) w).store ∧
      ∀ holder ∈ waiting, holder.value? (H := D.host)
        (withFrame (⟨name, kind, v⟩ :: w.store.heap.frames.headD []) w).store =
          holder.value? w.store := by
  have heq : V.held ((⟨name, kind, v⟩ :: w.store.heap.frames.headD []) ::
      w.store.heap.frames.tail) =
        (if kind.isArray && V.isVector v then [v] else []) ++ V.held w.store.heap.frames := by
    rw [← held_headD_tail V w.store.heap.frames]
    exact held_insert V [] _ _ _
  refine h.setFrame ?_ (fun u hu => ?_) fun other hother => ?_
  · rw [heq]
    split
    · rename_i harray
      rw [Bool.and_eq_true] at harray
      exact List.nodup_cons.2 ⟨(hv harray.1 harray.2).2.1, h.sound.nodup⟩
    · exact h.sound.nodup
  · rw [heq] at hu
    obtain hu | hu := List.mem_append.1 hu
    · split at hu
      · rename_i harray
        rw [Bool.and_eq_true] at harray
        rw [List.mem_singleton.1 hu]
        exact .inr ⟨harray.2, hv harray.1⟩
      · cases hu
    · exact .inl hu
  · have hne : (other == name) = false := beq_false_of_ne fun heq => hname (heq ▸ hother)
    simp [Frame.env, List.lookup_cons, hne]

/-- A new variable of another kind lets an unowned vector wait. -/
theorem Owns.bind_waiting (h : V.Owns waiting w.store) {name : String} {kind : Kind}
    {v : D.host.Value} (hname : .named name ∉ waiting) (hkind : kind.isArray = false)
    (hv : V.Unowned v waiting w.store) : V.Owns (.named name :: waiting)
      (withFrame (⟨name, kind, v⟩ :: w.store.heap.frames.headD []) w).store := by
  obtain ⟨howns, hvalue⟩ := h.bind (v := v) hname fun harray => by
    rw [hkind] at harray
    cases harray
  have hheld : V.held ((⟨name, kind, v⟩ :: w.store.heap.frames.headD []) ::
      w.store.heap.frames.tail) = V.held w.store.heap.frames := by
    rw [← held_headD_tail V w.store.heap.frames]
    refine (held_insert V [] _ _ _).trans ?_
    simp [hkind, held]
  refine howns.cons (v := v) ?_ fun hvector => ?_
  · simp [Holder.value?, Frame.env, withFrame, Memory.withFrames]
  · obtain ⟨hallocated, hunheld, hwaiting⟩ := hv hvector
    refine ⟨hallocated, fun hmem => hunheld (hheld ▸ hmem), fun holder hholder => ?_⟩
    rw [hvalue holder hholder]
    exact hwaiting holder hholder

theorem update_eq {Value : Type} {fr : Frame Value} {name : String} {x : Variable Value} (v : Value)
    (h : fr.find? name = some x) : ∃ before after : Frame Value, x.name = name ∧
      fr = before ++ x :: after ∧ fr.update name v = before ++ { x with value := v } :: after := by
  induction fr with
  | nil => cases h
  | cons y fr ih =>
      simp only [Frame.find?, List.find?_cons] at h
      by_cases hy : y.name = name
      · simp only [hy, decide_true, Option.some.injEq] at h
        subst h
        exact ⟨[], fr, hy, rfl, by simp [Frame.update, hy]⟩
      · simp only [hy, decide_false] at h
        obtain ⟨before, after, hx, rfl, hupdate⟩ := ih h
        exact ⟨y :: before, after, hx, rfl, by simp [Frame.update, hy, hupdate]⟩

theorem lookup_replace {Value : Type} (before after : Frame Value) (x : Variable Value) (v : Value)
    {other : String} (hne : other ≠ x.name) :
    (Frame.env (before ++ { x with value := v } :: after)).lookup other =
      (Frame.env (before ++ x :: after)).lookup other := by
  have hbeq : (other == x.name) = false := beq_false_of_ne hne
  simp [Frame.env, List.lookup_append, List.lookup_cons, hbeq]

/-- A variable takes another vector, which is unowned. -/
theorem Owns.rebind (h : V.Owns waiting w.store) {name : String} {x : Variable D.host.Value}
    (hfind : (w.store.heap.frames.headD []).find? name = some x) {v : D.host.Value}
    (hname : .named name ∉ waiting)
    (hv : x.kind.isArray = true → V.Unowned v waiting w.store) :
    V.Owns waiting (withFrame ((w.store.heap.frames.headD []).update name v) w).store := by
  obtain ⟨before, after, rfl, hframe, hupdate⟩ := update_eq v hfind
  have hold := held_insert V before after x w.store.heap.frames.tail
  rw [← hframe, held_headD_tail] at hold
  have hothers : (V.held [before] ++ V.held (after :: w.store.heap.frames.tail)).Sublist
      (V.held w.store.heap.frames) := by
    rw [hold]
    exact List.Sublist.append (List.Sublist.refl _) (List.sublist_append_right _ _)
  have hnew := held_insert V before after { x with value := v } w.store.heap.frames.tail
  rw [← hupdate] at hnew
  refine (h.setFrame ?_ (fun u hu => ?_) fun other hother => ?_).1
  · rw [hnew]
    split
    · rename_i harray
      rw [Bool.and_eq_true] at harray
      refine List.perm_middle.nodup_iff.2 (List.nodup_cons.2 ⟨fun hmem => ?_, ?_⟩)
      · exact (hv harray.1 harray.2).2.1 (hothers.subset hmem)
      · exact h.sound.nodup.sublist hothers
    · exact h.sound.nodup.sublist hothers
  · rw [hnew, List.mem_append, List.mem_append] at hu
    obtain hu | hu | hu := hu
    · exact .inl (hothers.subset (List.mem_append_left _ hu))
    · split at hu
      · rename_i harray
        rw [Bool.and_eq_true] at harray
        rw [List.mem_singleton.1 hu]
        exact .inr ⟨harray.2, hv harray.1⟩
      · cases hu
    · exact .inl (hothers.subset (List.mem_append_right _ hu))
  · rw [hupdate, hframe]
    exact lookup_replace before after x v fun heq => hname (heq ▸ hother)

end

end Vectors

end StackCompiler
