import StackCompiler.Proofs.Isolation

/-!
Runs that differ in what vectors they have made. Where one run has made a vector that the other has
not, values that mean the same need not be the same any more, as a vector may be at another place. A
`Likeness` says which values correspond, by a link that grows while vectors are made.
`Likeness.alike_evalValue` carries it over from single operations to forms: evaluation does the same
in both runs, whatever vectors only one of them has.
-/

namespace StackCompiler

/-- Two results that are both errors for the same reason, or else related. -/
inductive Outcome {ε σ α β : Type} (P : α → σ → β → σ → Prop) :
    EStateM.Result ε σ α → EStateM.Result ε σ β → Prop where
  | ok {a : α} {s : σ} {b : β} {t : σ} (h : P a s b t) : Outcome P (.ok a s) (.ok b t)
  | error (e : ε) (s t : σ) : Outcome P (.error e s) (.error e t)

namespace Outcome

variable {ε σ α β α' β' : Type} {P Q : α → σ → β → σ → Prop} {P' : α' → σ → β' → σ → Prop}

theorem mono {r : EStateM.Result ε σ α} {r' : EStateM.Result ε σ β} (h : Outcome P r r')
    (hP : ∀ a s b t, P a s b t → Q a s b t) : Outcome Q r r' := by
  cases h with
  | ok h => exact .ok (hP _ _ _ _ h)
  | error e s t => exact .error e s t

theorem elim {r : EStateM.Result ε σ α} {r' : EStateM.Result ε σ β} (h : Outcome P r r') :
    (∃ a s b t, r = .ok a s ∧ r' = .ok b t ∧ P a s b t) ∨
      ∃ e s t, r = .error e s ∧ r' = .error e t := by
  cases h with
  | ok h => exact .inl ⟨_, _, _, _, rfl, rfl, h⟩
  | error e s t => exact .inr ⟨e, s, t, rfl, rfl⟩

/-- Two computations go on alike from related results. -/
theorem bind {x : EStateM ε σ α} {y : EStateM ε σ β} {f : α → EStateM ε σ α'}
    {g : β → EStateM ε σ β'} {s t : σ} (h : Outcome P (x s) (y t))
    (hfg : ∀ a s' b t', x s = .ok a s' → y t = .ok b t' → P a s' b t' →
      Outcome P' (f a s') (g b t')) : Outcome P' ((x >>= f) s) ((y >>= g) t) := by
  generalize hx : x s = r at h
  generalize hy : y t = r' at h
  cases h with
  | ok h =>
      rw [bind_of_ok hx, bind_of_ok hy]
      exact hfg _ _ _ _ hx hy h
  | error e s' t' =>
      rw [bind_of_error hx, bind_of_error hy]
      exact .error e s' t'

/-- Only the first goes on, and only to another result. -/
theorem map_left {x : EStateM ε σ α} {r : EStateM.Result ε σ β} {f : α → α'} {s : σ}
    {P' : α' → σ → β → σ → Prop} (h : Outcome P (x s) r)
    (hf : ∀ a s' b t, P a s' b t → P' (f a) s' b t) :
    Outcome P' ((x >>= fun a => pure (f a)) s) r := by
  generalize hx : x s = r₁ at h
  cases h with
  | ok h =>
      rw [bind_of_ok hx]
      exact .ok (hf _ _ _ _ h)
  | error e s' t =>
      rw [bind_of_error hx]
      exact .error e s' t

end Outcome

/-- What corresponds in two runs. A link tells which values and stores do, and which values are only
in the second run. -/
structure Correspondence (R : Runtime) where
  Link : Type
  le : Link → Link → Prop
  value : Link → R.Value → R.Value → Prop
  own : Link → R.Value → Prop
  store : Link → Store R.Value R.Heap → Store R.Value R.Heap → Prop

namespace Correspondence

variable {R : Runtime} {α β : Type} (C : Correspondence R)

/-- From stores that correspond, two computations end alike. Their stores then correspond by a link
that has grown, and so do their results. -/
def Alike (l : C.Link) (rel : C.Link → α → β → Prop) (x : Run R α) (y : Run R β) : Prop :=
  ∀ w v : World R, C.store l w.store v.store →
    Outcome (fun a w' b v' => ∃ l', C.le l l' ∧ C.store l' w'.store v'.store ∧ rel l' a b)
      (x w) (y v)

def values (l : C.Link) : List R.Value → List R.Value → Prop :=
  List.Forall₂ (C.value l)

end Correspondence

/-- A step of the host that is alike for itself. -/
theorem Correspondence.alike_primitive {R : Runtime} {α : Type} {C : Correspondence R} {l : C.Link}
    {rel : C.Link → α → α → Prop} {x y : Action R.Value R.Heap α}
    (h : ∀ s t, C.store l s t →
      Outcome (fun a s' b t' => ∃ l', C.le l l' ∧ C.store l' s' t' ∧ rel l' a b) (x s) (y t)) :
    C.Alike l rel (Run.primitive x) (Run.primitive y) := by
  intro w v hstore
  have hstep := h w.store v.store hstore
  unfold Run.primitive
  generalize x w.store = r at hstep ⊢
  generalize y v.store = r' at hstep ⊢
  cases hstep with
  | ok h => exact .ok h
  | error e s t => exact .error Stop.panic _ _

/-- A correspondence that the host respects, so that only vectors can differ in where they are. -/
structure Likeness {R : Runtime} (V : VectorView R) extends Correspondence R where
  le_refl : ∀ l, le l l
  le_trans : ∀ {l l' l''}, le l l' → le l' l'' → le l l''
  value_le : ∀ {l l' u v}, le l l' → value l u v → value l' u v
  own_le : ∀ {l l' a}, le l l' → own l a → own l' a
  constant : ∀ l c, value l (R.constant c) (R.constant c)
  isNil : ∀ {l u v}, value l u v → R.isNil u = R.isNil v
  var : ∀ {l s t} x, store l s t → value l (s.vars x) (t.vars x)
  unary : ∀ {l i u v}, value l u v →
    toCorrespondence.Alike l value (Run.primitive (R.unary i u)) (Run.primitive (R.unary i v))
  binary : ∀ {l i u v u' v'}, value l u u' → value l v v' →
    toCorrespondence.Alike l value (Run.primitive (R.binary i u v))
      (Run.primitive (R.binary i u' v'))
  concat : ∀ {l us vs}, toCorrespondence.values l us vs →
    toCorrespondence.Alike l value (Run.primitive (R.concat us)) (Run.primitive (R.concat vs))
  arrayRef : ∀ {l a b i j}, value l a b → value l i j →
    toCorrespondence.Alike l value (Run.primitive (R.arrayRef a i)) (Run.primitive (R.arrayRef b j))
  arraySet : ∀ {l a b i j u v}, value l a b → value l i j → value l u v →
    toCorrespondence.Alike l (fun _ _ _ => True) (Run.primitive (R.arraySet a i u))
      (Run.primitive (R.arraySet b j v))
  call : ∀ {l f g us vs}, value l f g → toCorrespondence.values l us vs →
    toCorrespondence.Alike l value (Run.call f us) (Run.call g vs)
  /-- The second run may let the host make a vector of zeros that the first has not. -/
  make : ∀ {l s n a elems} {elem : Source.Scalar} {w w' : World R}, store l s w.store →
    Run.callNamed Host.makeVector [R.constant (.int n), elem.initial R] w = .ok a w' →
    V.Makes a elems w.store w'.store → ∃ l', le l l' ∧ store l' s w'.store ∧ own l' a
  /-- It may let the host store elements into such a vector. -/
  fill : ∀ {l s i a u v elems} {w w' : World R}, store l s w.store → own l a → value l u v →
    Run.primitive (R.arraySet a (R.constant (.int i)) v) w = .ok () w' →
    V.Changes a elems w.store w'.store → store l s w'.store
  /-- The vector corresponds to one that the first run lets the host make, if their elements do. -/
  adopt : ∀ {l t a b us vs} {w w' : World R}, store l w.store t → own l b →
    V.contents t.heap b = some vs → Run.callNamed Host.vector us w = .ok a w' →
    V.Makes a us w.store w'.store → toCorrespondence.values l us vs →
    ∃ l', store l' w'.store t ∧ value l' a b ∧ ∀ u v, value l u v → value l' u v

section

variable {R : Runtime} {V : VectorView R} {L : Likeness V} {l : L.Link} {α β α' β' : Type}
  {rel : L.Link → α → β → Prop} {rel' : L.Link → α' → β' → Prop}

namespace Likeness

theorem pure {a : α} {b : β} (h : rel l a b) : L.Alike l rel (Pure.pure a) (Pure.pure b) :=
  fun _ _ hstore => .ok ⟨l, L.le_refl l, hstore, h⟩

theorem throw (e : Stop) :
    L.Alike l rel (MonadExcept.throw e : Run R α) (MonadExcept.throw e : Run R β) :=
  fun w v _ => .error e w v

theorem readVar (name : String) :
    L.Alike l L.value (Run.readVar name : Run R R.Value) (Run.readVar name) :=
  fun _ _ hstore => .ok ⟨l, L.le_refl l, hstore, L.var name hstore⟩

theorem bind {x : Run R α} {y : Run R β} {f : α → Run R α'} {g : β → Run R β'}
    (hx : L.Alike l rel x y)
    (hf : ∀ l' a b, L.le l l' → rel l' a b → L.Alike l' rel' (f a) (g b)) :
    L.Alike l rel' (x >>= f) (y >>= g) := by
  intro w v hstore
  refine (hx w v hstore).bind fun a w' b v' _ _ h => ?_
  obtain ⟨l', hle, hstore', hab⟩ := h
  refine (hf l' a b hle hab w' v' hstore').mono fun a' w'' b' v'' h => ?_
  obtain ⟨l'', hle', hrest⟩ := h
  exact ⟨l'', L.le_trans hle hle', hrest⟩

/-- Functions are called by the same name. -/
theorem callNamed (name : String) {us vs : List R.Value} (h : L.values l us vs) :
    L.Alike l L.value (Run.callNamed name us) (Run.callNamed name vs) :=
  L.call (L.constant l _) h

def Fixes (L : Likeness V) (l : L.Link) (ρ : Env R) : Prop :=
  ∀ v ∈ ρ.map Prod.snd, L.value l v v

theorem Fixes.le {l l' : L.Link} {ρ : Env R} (h : L.Fixes l ρ) (hle : L.le l l') : L.Fixes l' ρ :=
  fun v hv => L.value_le hle (h v hv)

mutual
/-- Evaluation does the same in runs that are alike. -/
theorem alike_evalValue (f : Form) {l : L.Link} {ρ : Env R} (hρ : L.Fixes l ρ) :
    L.Alike l L.value (evalValue R ρ f) (evalValue R ρ f) := by
  cases f with
  | bool _ | char _ | int _ | float _ | str _ | symbol _ => exact pure (L.constant l _)
  | var name =>
      simp only [evalValue]
      split
      · rename_i v hv
        exact pure (hρ v (mem_of_lookup hv))
      · exact readVar _
  | resultRef index =>
      simp only [evalValue]
      split
      · exact readVar _
      · exact throw _
  | array elems =>
      exact bind (alike_evalValues elems hρ) fun _ _ _ _ h => callNamed _ h
  | sparseArray ctor stores =>
      refine bind (alike_evalValue ctor hρ) fun l' a b hle hab => ?_
      refine bind (alike_evalStores stores (hρ.le hle) hab) fun l'' _ _ hle' _ => ?_
      exact pure (L.value_le hle' hab)
  | copy source =>
      exact bind (alike_evalValue source hρ) fun _ _ _ _ h => callNamed _ (.cons h .nil)
  | get source index =>
      refine bind (alike_evalValue source hρ) fun l' a b hle hab => ?_
      exact bind (alike_evalValue index (hρ.le hle)) fun l'' i j hle' hij =>
        L.arrayRef (L.value_le hle' hab) hij
  | op kind family args =>
      simp only [evalValue]
      split
      · exact throw _
      · exact bind (alike_evalValues args hρ) fun _ _ _ _ h => L.concat h
      · exact bind (alike_evalValues args hρ) fun _ _ _ _ h => callNamed _ h
      · exact alike_evalChain args hρ
      · exact bind (alike_evalChain args hρ) fun _ _ _ _ h => L.unary h
  | unary kind family arg =>
      have harg := alike_evalValue arg hρ
      cases kind <;> cases family <;>
        first
        | exact throw _
        | exact bind harg fun _ _ _ _ h => L.unary h
        | exact bind harg fun _ _ _ _ h => callNamed _ (.cons h .nil)
  | not arg => exact bind (alike_evalValue arg hρ) fun _ _ _ _ h => L.unary h
  | and left right =>
      refine bind (alike_evalValue left hρ) fun l' u v hle huv => ?_
      rw [L.isNil huv]
      split
      · exact pure huv
      · exact alike_evalValue right (hρ.le hle)
  | or left right =>
      refine bind (alike_evalValue left hρ) fun l' u v hle huv => ?_
      rw [L.isNil huv]
      split
      · exact alike_evalValue right (hρ.le hle)
      · exact pure huv
  | call name args =>
      exact bind (alike_evalValues args hρ) fun _ _ _ _ h => callNamed _ h
  | dynCall callee args =>
      refine bind (alike_evalValue callee hρ) fun l' f g hle hfg => ?_
      exact bind (alike_evalValues args (hρ.le hle)) fun l'' us vs hle' h =>
        callNamed _ (.cons (L.value_le hle' hfg) h)
  | block _ | branch _ _ _ | loop _ _ _ | ret _ | breakLoop | continueLoop | bind _ _ | rebind _ _
  | set _ _ _ => exact throw _
termination_by structural f

theorem alike_evalValues (fs : List Form) {l : L.Link} {ρ : Env R} (hρ : L.Fixes l ρ) :
    L.Alike l L.values (evalValues R ρ fs) (evalValues R ρ fs) := by
  cases fs with
  | nil => exact pure .nil
  | cons f fs =>
      refine bind (alike_evalValue f hρ) fun l' u v hle huv => ?_
      refine bind (alike_evalValues fs (hρ.le hle)) fun l'' us vs hle' hrest => ?_
      exact pure (.cons (L.value_le hle' huv) hrest)
termination_by structural fs

theorem alike_evalChain (fs : List Form) {i : BinaryInstr} {l : L.Link} {ρ : Env R}
    (hρ : L.Fixes l ρ) : L.Alike l L.value (evalChain R ρ i fs) (evalChain R ρ i fs) := by
  cases fs with
  | nil => exact throw _
  | cons f fs =>
      exact bind (alike_evalValue f hρ) fun l' u v hle huv =>
        alike_evalChainRest fs (hρ.le hle) huv
termination_by structural fs

theorem alike_evalChainRest (fs : List Form) {i : BinaryInstr} {l : L.Link} {ρ : Env R}
    (hρ : L.Fixes l ρ) {left left' : R.Value} (hleft : L.value l left left') :
    L.Alike l L.value (evalChainRest R ρ i left fs) (evalChainRest R ρ i left' fs) := by
  cases fs with
  | nil => exact pure hleft
  | cons f fs =>
      refine bind (alike_evalValue f hρ) fun l' u v hle huv => ?_
      refine bind (L.binary (L.value_le hle hleft) huv) fun l'' _ _ hle' h => ?_
      exact alike_evalChainRest fs ((hρ.le hle).le hle') h
termination_by structural fs

theorem alike_evalStores (stores : List (Int64 × Form)) {l : L.Link} {ρ : Env R}
    (hρ : L.Fixes l ρ) {a b : R.Value} (hab : L.value l a b) :
    L.Alike l (fun _ _ _ => True) (evalStores R ρ a stores) (evalStores R ρ b stores) := by
  match stores with
  | [] => exact pure trivial
  | (index, f) :: rest =>
      refine bind (alike_evalValue f hρ) fun l' u v hle huv => ?_
      have hab := L.value_le hle hab
      refine bind (L.arraySet hab (L.constant l' _) huv) fun l'' _ _ hle' _ => ?_
      exact alike_evalStores rest ((hρ.le hle).le hle') (L.value_le hle' hab)
termination_by structural stores
end

end Likeness

end

/-! ### Cells that correspond -/

namespace Cell

/-- Which places of two heaps correspond, and which are only in the second. -/
structure Links where
  pairs : List (Nat × Nat)
  own : List Nat

inductive Alike (pairs : List (Nat × Nat)) : Cell → Cell → Prop where
  | constant (c : Constant) : Alike pairs (.constant c) (.constant c)
  | vector {p q : Nat} (h : (p, q) ∈ pairs) : Alike pairs (.vector p) (.vector q)

namespace Links

def Le (l l' : Links) : Prop :=
  l.pairs ⊆ l'.pairs ∧ l.own ⊆ l'.own

/-- Variables correspond, and so do vectors at places that correspond. Each has one partner
at most. -/
structure Joins (l : Links) (s t : Store Cell Heap) : Prop where
  vars : ∀ x, Alike l.pairs (s.vars x) (t.vars x)
  cells : ∀ {p q}, (p, q) ∈ l.pairs → ∃ xs ys, s.heap[p]? = some xs ∧ t.heap[q]? = some ys ∧
    List.Forall₂ (Alike l.pairs) xs ys
  unique : ∀ {p q p' q'}, (p, q) ∈ l.pairs → (p', q') ∈ l.pairs → (p = p' ↔ q = q')
  own : ∀ {q}, q ∈ l.own → t.heap[q]?.isSome = true ∧ ∀ p, (p, q) ∉ l.pairs

end Links

theorem Alike.mono {pairs pairs' : List (Nat × Nat)} (h : pairs ⊆ pairs') {u v : Cell}
    (huv : Alike pairs u v) : Alike pairs' u v := by
  cases huv with
  | constant c => exact .constant c
  | vector hpq => exact .vector (h hpq)

theorem forall₂_getElem? {α : Type} {r : α → α → Prop} {xs ys : List α} (h : List.Forall₂ r xs ys)
    (n : Nat) : Option.Rel r xs[n]? ys[n]? := by
  induction h generalizing n with
  | nil => exact .none
  | cons huv _ ih =>
      cases n with
      | zero => exact .some huv
      | succ n => exact ih n

theorem forall₂_set {α : Type} {r : α → α → Prop} {xs ys : List α} (h : List.Forall₂ r xs ys)
    {u v : α} (huv : r u v) (n : Nat) : List.Forall₂ r (xs.set n u) (ys.set n v) := by
  induction h generalizing n with
  | nil => exact .nil
  | cons hfirst hrest ih =>
      cases n with
      | zero => exact .cons huv hrest
      | succ n => exact .cons hfirst (ih n)

namespace Links.Joins

variable {l : Links} {s t u : Store Cell Heap} {p q : Nat} {xs ys : List Cell}

/-- A place of the second heap that has no partner is given other contents. -/
theorem change (h : l.Joins s t) (hq : ∀ p, (p, q) ∉ l.pairs) (hvars : u.vars = t.vars)
    (hothers : ∀ q', q' ≠ q → u.heap[q']? = t.heap[q']?) (hmade : u.heap[q]?.isSome = true) :
    Links.Joins ⟨l.pairs, q :: l.own⟩ s u where
  vars x := hvars ▸ h.vars x
  cells {p' q'} hpq := by
    have hne : q' ≠ q := by
      rintro rfl
      exact hq p' hpq
    rw [hothers q' hne]
    exact h.cells hpq
  unique := h.unique
  own {q'} hq' := by
    by_cases hne : q' = q
    · subst hne
      exact ⟨hmade, hq⟩
    · rw [hothers q' hne]
      exact h.own (List.mem_of_ne_of_mem hne hq')

/-- A new place of the first heap becomes the partner of one that has none. -/
theorem link (h : l.Joins s t) (hp : s.heap[p]? = none) (hvars : u.vars = s.vars)
    (hothers : ∀ p', p' ≠ p → u.heap[p']? = s.heap[p']?) (hxs : u.heap[p]? = some xs)
    (hys : t.heap[q]? = some ys) (hxy : List.Forall₂ (Alike l.pairs) xs ys)
    (hq : ∀ p, (p, q) ∉ l.pairs) {own : List Nat} (hown : ∀ q' ∈ own, q' ∈ l.own ∧ q' ≠ q) :
    Links.Joins ⟨(p, q) :: l.pairs, own⟩ u t := by
  have hsub : l.pairs ⊆ (p, q) :: l.pairs := List.subset_cons_self _ _
  have hold : ∀ {p' q'}, (p', q') ∈ l.pairs → p' ≠ p := by
    rintro p' q' hpq rfl
    obtain ⟨_, _, hsome, -⟩ := h.cells hpq
    rw [hp] at hsome
    cases hsome
  have hfree : ∀ {p' q'}, (p', q') ∈ l.pairs → q' ≠ q := by
    rintro p' q' hpq rfl
    exact hq p' hpq
  refine ⟨fun x => ?_, fun {p' q'} hpq => ?_, fun {p₁ q₁ p₂ q₂} h₁ h₂ => ?_, fun {q'} hq' => ?_⟩
  · rw [hvars]
    exact (h.vars x).mono hsub
  · rcases List.mem_cons.1 hpq with heq | hpq
    · cases heq
      exact ⟨xs, ys, hxs, hys, hxy.imp fun _ _ => .mono hsub⟩
    · obtain ⟨xs', ys', hxs', hys', hxy'⟩ := h.cells hpq
      exact ⟨xs', ys', (hothers p' (hold hpq)).trans hxs', hys', hxy'.imp fun _ _ => .mono hsub⟩
  · rcases List.mem_cons.1 h₁ with heq₁ | h₁ <;> rcases List.mem_cons.1 h₂ with heq₂ | h₂
    · cases heq₁
      cases heq₂
      simp
    · cases heq₁
      simp [(hold h₂).symm, (hfree h₂).symm]
    · cases heq₂
      simp [hold h₁, hfree h₁]
    · exact h.unique h₁ h₂
  · obtain ⟨hmem, hne⟩ := hown q' hq'
    refine ⟨(h.own hmem).1, fun p' hpq => ?_⟩
    rcases List.mem_cons.1 hpq with heq | hpq
    · cases heq
      exact hne rfl
    · exact (h.own hmem).2 p' hpq

/-- Both runs make a vector. -/
theorem allocate (h : l.Joins s t) (hxy : List.Forall₂ (Alike l.pairs) xs ys) :
    ∃ l', l.Le l' ∧ l'.Joins { s with heap := s.heap ++ [xs] } { t with heap := t.heap ++ [ys] } ∧
      Alike l'.pairs (.vector s.heap.length) (.vector t.heap.length) := by
  have hfree : ∀ p, (p, t.heap.length) ∉ l.pairs := by
    intro p hpq
    obtain ⟨_, _, -, hsome, -⟩ := h.cells hpq
    simp at hsome
  have hown : ∀ q ∈ l.own, q ∈ t.heap.length :: l.own ∧ q ≠ t.heap.length := by
    intro q hq
    refine ⟨List.mem_cons_of_mem _ hq, ?_⟩
    rintro rfl
    simpa using (h.own hq).1
  have hsecond := h.change (u := { t with heap := t.heap ++ [ys] }) hfree rfl
    (VectorView.getElem?_append_of_ne ys) (by simp)
  refine ⟨⟨(s.heap.length, t.heap.length) :: l.pairs, l.own⟩,
    ⟨List.subset_cons_self _ _, List.Subset.refl _⟩, ?_, .vector List.mem_cons_self⟩
  apply hsecond.link (u := { s with heap := s.heap ++ [xs] }) _ rfl
    (VectorView.getElem?_append_of_ne xs) _ _ hxy hfree hown
  · simp
  · simp
  · simp

theorem getD (h : l.Joins s t) (hpq : (p, q) ∈ l.pairs) :
    List.Forall₂ (Alike l.pairs) (s.heap.getD p []) (t.heap.getD q []) := by
  obtain ⟨xs, ys, hxs, hys, hxy⟩ := h.cells hpq
  rw [List.getD_eq_getElem?_getD, List.getD_eq_getElem?_getD, hxs, hys]
  exact hxy

/-- Corresponding elements of two vectors are replaced. -/
theorem set (h : l.Joins s t) (hpq : (p, q) ∈ l.pairs) {u v : Cell} (huv : Alike l.pairs u v)
    (n : Nat) : l.Joins { s with heap := s.heap.modify p (·.set n u) }
      { t with heap := t.heap.modify q (·.set n v) } where
  vars := h.vars
  cells {p' q'} hpq' := by
    obtain ⟨xs, ys, hxs, hys, hxy⟩ := h.cells hpq'
    by_cases hp : p' = p
    · have hq := (h.unique hpq' hpq).1 hp
      subst hp hq
      refine ⟨xs.set n u, ys.set n v, ?_, ?_, ?_⟩
      · rw [List.getElem?_modify_eq, hxs]
        rfl
      · rw [List.getElem?_modify_eq, hys]
        rfl
      · exact forall₂_set hxy huv n
    · have hq : q' ≠ q := fun hq => hp ((h.unique hpq' hpq).2 hq)
      exact ⟨xs, ys, (VectorView.getElem?_modify_of_ne p' hp).trans hxs,
        (VectorView.getElem?_modify_of_ne q' hq).trans hys, hxy⟩
  unique := h.unique
  own {q'} hq' := by
    obtain ⟨hmade, hfree⟩ := h.own hq'
    refine ⟨?_, hfree⟩
    rw [VectorView.getElem?_modify_of_ne q' (by rintro rfl; exact hfree p hpq)]
    exact hmade

end Links.Joins

variable {l : Links} {a b f g i j u v : Cell} {us vs : List Cell}

theorem alike_get (hab : Alike l.pairs a b) (hij : Alike l.pairs i j) {s t : Store Cell Heap}
    (h : l.Joins s t) :
    Outcome (fun u s' v t' => ∃ l', l.Le l' ∧ l'.Joins s' t' ∧ Alike l'.pairs u v)
      (get a i s) (get b j t) := by
  cases hab with
  | constant c => exact .error () s t
  | vector hpq =>
      cases hij with
      | vector _ => exact .error () s t
      | constant c =>
          cases c with
          | int n =>
              have hcell := forall₂_getElem? (h.getD hpq) n.toNatClampNeg
              unfold get
              simp only
              generalize (s.heap.getD _ [])[n.toNatClampNeg]? = x at hcell ⊢
              generalize (t.heap.getD _ [])[n.toNatClampNeg]? = y at hcell ⊢
              cases hcell with
              | none => exact .error () s t
              | some huv => exact .ok ⟨l, ⟨List.Subset.refl _, List.Subset.refl _⟩, h, huv⟩
          | _ => exact .error () s t

theorem alike_set (hab : Alike l.pairs a b) (hij : Alike l.pairs i j) (huv : Alike l.pairs u v)
    {s t : Store Cell Heap} (h : l.Joins s t) :
    Outcome (fun _ s' _ t' => ∃ l', l.Le l' ∧ l'.Joins s' t' ∧ True) (set a i u s)
      (set b j v t) := by
  cases hab with
  | constant c => exact .error () s t
  | vector hpq =>
      cases hij with
      | vector _ => exact .error () s t
      | constant c =>
          cases c with
          | int n =>
              exact .ok ⟨l, ⟨List.Subset.refl _, List.Subset.refl _⟩, h.set hpq huv _, trivial⟩
          | _ => exact .error () s t

theorem alike_allocate (h : List.Forall₂ (Alike l.pairs) us vs) {s t : Store Cell Heap}
    (hjoins : l.Joins s t) :
    Outcome (fun a s' b t' => ∃ l', l.Le l' ∧ l'.Joins s' t' ∧ Alike l'.pairs a b)
      (allocate us s) (allocate vs t) :=
  .ok (hjoins.allocate h)

theorem forall₂_replicate {α : Type} {r : α → α → Prop} {u v : α} (h : r u v) (n : Nat) :
    List.Forall₂ r (List.replicate n u) (List.replicate n v) := by
  induction n with
  | zero => exact .nil
  | succ n ih => exact .cons h ih

/-- A function that is no constant cannot be called. -/
theorem callMaker_vector (p : Nat) (args : List Cell) (s : Store Cell Heap) :
    callMaker (.vector p) args s = .error () s := by
  unfold callMaker call
  simp only [reduceCtorEq, if_false]
  split <;> rfl

theorem alike_call (c : Constant) (h : List.Forall₂ (Alike l.pairs) us vs) {s t : Store Cell Heap}
    (hjoins : l.Joins s t) :
    Outcome (fun a s' b t' => ∃ l', l.Le l' ∧ l'.Joins s' t' ∧ Alike l'.pairs a b)
      (call (.constant c) us s) (call (.constant c) vs t) := by
  unfold call
  split
  · exact alike_allocate h hjoins
  · split
    · rcases h with _ | ⟨hpq, _ | _⟩
      cases hpq with
      | vector hpq =>
          simp only
          split
          · exact alike_allocate (hjoins.getD hpq) hjoins
          · exact .error () s t
    · rename_i hother
      split
      · rcases h with _ | ⟨hpq, _ | _⟩
        cases hpq
        exact absurd rfl (hother _)
      · exact .error () s t

theorem alike_callMaker (hfg : Alike l.pairs f g) (h : List.Forall₂ (Alike l.pairs) us vs)
    {s t : Store Cell Heap} (hjoins : l.Joins s t) :
    Outcome (fun a s' b t' => ∃ l', l.Le l' ∧ l'.Joins s' t' ∧ Alike l'.pairs a b)
      (callMaker f us s) (callMaker g vs t) := by
  cases hfg with
  | vector _ =>
      rw [callMaker_vector, callMaker_vector]
      exact .error () s t
  | constant c =>
      unfold callMaker
      split
      · split
        · rcases h with _ | ⟨⟨_⟩, _ | ⟨huv, _ | _⟩⟩
          exact alike_allocate (forall₂_replicate huv _) hjoins
        · rename_i hother
          split
          · rcases h with _ | ⟨⟨_⟩, _ | ⟨huv, _ | _⟩⟩
            exact absurd rfl (hother _ _)
          · exact .error () s t
      · exact alike_call c h hjoins

theorem exists_vector {elems : List Cell} {t t' : Store Cell Heap}
    (h : VectorView.makers.Changes a elems t t') : ∃ q, a = .vector q ∧
      t'.heap[q]? = some elems ∧ ∀ q', q' ≠ q → t'.heap[q']? = t.heap[q']? := by
  cases a with
  | constant c => cases h.contents
  | vector q =>
      refine ⟨q, rfl, h.contents, fun q' hq' => h.others (.vector q') ?_⟩
      rintro ⟨⟩
      exact hq' rfl

namespace Links.Joins

variable {s s' t t' : Store Cell Heap} {elems : List Cell}

theorem make (h : l.Joins s t) (hmakes : VectorView.makers.Makes a elems t t') :
    ∃ l', l.Le l' ∧ l'.Joins s t' ∧ ∃ q ∈ l'.own, a = .vector q := by
  obtain ⟨q, rfl, hmade, hothers⟩ := exists_vector hmakes.toChanges
  have hfree : ∀ p, (p, q) ∉ l.pairs := by
    intro p hpq
    obtain ⟨_, _, -, hsome, -⟩ := h.cells hpq
    have hfresh : t.heap[q]? = none := hmakes.fresh
    rw [hfresh] at hsome
    cases hsome
  refine ⟨⟨l.pairs, q :: l.own⟩, ⟨List.Subset.refl _, List.subset_cons_self _ _⟩, ?_, q,
    List.mem_cons_self, rfl⟩
  exact h.change hfree hmakes.vars hothers (by rw [hmade]; rfl)

theorem fill {q : Nat} (h : l.Joins s t) (hq : q ∈ l.own)
    (hchanges : VectorView.makers.Changes (.vector q) elems t t') : l.Joins s t' := by
  obtain ⟨_, ⟨⟩, hmade, hothers⟩ := exists_vector hchanges
  have hjoins := h.change (h.own hq).2 hchanges.vars hothers (by rw [hmade]; rfl)
  exact ⟨hjoins.vars, hjoins.cells, hjoins.unique,
    fun hq' => hjoins.own (List.mem_cons_of_mem _ hq')⟩

theorem adopt {q : Nat} (h : l.Joins s t) (hq : q ∈ l.own) (hcontents : t.heap[q]? = some vs)
    (hmakes : VectorView.makers.Makes a us s s') (huv : List.Forall₂ (Alike l.pairs) us vs) :
    ∃ l' : Links, l'.Joins s' t ∧ Alike l'.pairs a (.vector q) ∧
      ∀ u v, Alike l.pairs u v → Alike l'.pairs u v := by
  obtain ⟨p, rfl, hmade, hothers⟩ := exists_vector hmakes.toChanges
  refine ⟨⟨(p, q) :: l.pairs, []⟩, ?_, .vector List.mem_cons_self,
    fun u v => .mono (List.subset_cons_self _ _)⟩
  exact h.link hmakes.fresh hmakes.vars hothers hmade hcontents huv (h.own hq).2 (by simp)

end Links.Joins

end Cell

end StackCompiler
