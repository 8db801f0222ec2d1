import StackCompiler.Proofs.ValueCode

/-!
What has been called. Calls are written down in the world, and neither a computation nor the machine
ever removes one. So what the machine calls on its way to a place can be read off the computation
that it follows on this way, which is `exists_callee_of_follows`. What evaluation does to the rest
of the world is what the host and its functions do, as `Code.within` says for any relation of
worlds.
-/

namespace StackCompiler

open CompiledFunction

/-! ### What computations do to the world -/

section

variable {R : Runtime} {α β : Type}

/-- The world that a computation leaves, with or without a result. -/
def Run.after (x : Run R α) (w : World R) : World R :=
  match x w with
  | .ok _ w' => w'
  | .error _ w' => w'

theorem Run.after_of_ok {x : Run R α} {a : α} {w w' : World R} (h : x w = .ok a w') :
    x.after w = w' := by
  simp only [after, h]

theorem Run.after_of_error {x : Run R α} {e : Stop} {w w' : World R} (h : x w = .error e w') :
    x.after w = w' := by
  simp only [after, h]

theorem Run.after_map (x : Run R α) (g : α → β) (w : World R) :
    (do let a ← x; return g a : Run R β).after w = x.after w := by
  cases hx : x w with
  | ok a w' =>
      have hmap : (do let a ← x; return g a : Run R β) w = .ok (g a) w' := bind_of_ok hx _
      rw [after_of_ok hx, after_of_ok hmap]
  | error e w' => rw [after_of_error hx, after_of_error (bind_of_error hx _)]

/-- Whatever the world, the computation leaves a world that is related to it, and it ends with a
result or by an error of the host. -/
structure Run.Within (ρ : World R → World R → Prop) (x : Run R α) : Prop where
  related : ∀ w, ρ w (x.after w)
  ends : ∀ {w e w'}, x w = .error e w' → e = .panic

/-- A relation between worlds that can be followed step by step. -/
structure IsTrail (ρ : World R → World R → Prop) : Prop where
  refl : ∀ w, ρ w w
  trans : ∀ {w w' w''}, ρ w w' → ρ w' w'' → ρ w w''

variable {ρ : World R → World R → Prop}

theorem IsTrail.bind (hρ : IsTrail ρ) {x : Run R α} {y : α → Run R β} {w : World R}
    (hx : ρ w (x.after w)) (hy : ∀ a w', x w = .ok a w' → ρ w' ((y a).after w')) :
    ρ w ((x >>= y).after w) := by
  cases hrun : x w with
  | ok a w' =>
      rw [Run.after_of_ok hrun] at hx
      have hrest : (x >>= y).after w = (y a).after w' := by
        simp only [Run.after, bind_of_ok hrun]
      rw [hrest]
      exact hρ.trans hx (hy a w' hrun)
  | error e w' =>
      rw [Run.after_of_error hrun] at hx
      rw [Run.after_of_error (bind_of_error hrun y)]
      exact hx

namespace Run.Within

theorem pure (hρ : IsTrail ρ) (a : α) : (Pure.pure a : Run R α).Within ρ where
  related w := hρ.refl w
  ends h := by cases h

theorem readVar (hρ : IsTrail ρ) (name : String) : (Run.readVar (R := R) name).Within ρ where
  related w := hρ.refl w
  ends h := by cases h

theorem bind (hρ : IsTrail ρ) {x : Run R α} {y : α → Run R β} (hx : x.Within ρ)
    (hy : ∀ {w a w'}, x w = .ok a w' → (y a).Within ρ) : (x >>= y).Within ρ where
  related w := hρ.bind (hx.related w) fun _ w' ha => (hy ha).related w'
  ends {w e w'} h := by
    cases hrun : x w with
    | ok a w'' =>
        rw [bind_of_ok hrun] at h
        exact (hy hrun).ends h
    | error e' w'' =>
        rw [bind_of_error hrun] at h
        cases h
        exact hx.ends hrun

end Run.Within

/-- A step of the host changes the store only. -/
theorem Run.calls_primitive (x : Action R.Value R.Heap α) (w : World R) :
    ((Run.primitive x).after w).calls = w.calls := by
  unfold Run.after Run.primitive
  cases x w.store <;> rfl

theorem Run.ends_primitive {x : Action R.Value R.Heap α} {w w' : World R} {e : Stop}
    (h : Run.primitive x w = .error e w') : e = .panic := by
  unfold Run.primitive at h
  split at h <;> cases h
  rfl

theorem Run.calls_call (callee : R.Value) (args : List R.Value) (w : World R) :
    ((Run.call callee args).after w).calls = w.calls ++ [(callee, args)] :=
  Run.calls_primitive (R.call callee args) { w with calls := w.calls ++ [(callee, args)] }

end

/-! ### What code for values does to the world -/

section

variable {R : Runtime} {ρ : World R → World R → Prop} {lit : Constant → R.Value}

structure Runtime.Within (R : Runtime) (ρ : World R → World R → Prop) : Prop where
  unary : ∀ i v, (Run.primitive (R.unary i v)).Within ρ
  binary : ∀ i u v, (Run.primitive (R.binary i u v)).Within ρ
  concat : ∀ vs, (Run.primitive (R.concat vs)).Within ρ
  arrayRef : ∀ a i, (Run.primitive (R.arrayRef a i)).Within ρ
  arraySet : ∀ a i v, (Run.primitive (R.arraySet a i v)).Within ρ

/-- Whether a form, apart from its parts, calls only functions that leave related worlds. -/
def Form.CallsWithin (lit : Constant → R.Value) (ρ : World R → World R → Prop) (f : Form) : Prop :=
  ∀ name args, f.application? = some (name, args) →
    ∀ vs, (Run.call (lit (.symbol name)) vs).Within ρ

def Piece.Within (R : Runtime) (lit : Constant → R.Value) (ρ : World R → World R → Prop) :
    Piece → Prop
  | .value f => ∀ σ, (stackValue R lit σ f).Within ρ
  | .values fs => ∀ σ, (stackValues R lit σ fs).Within ρ
  | .chain i fs => ∀ σ slot left, (stackChainRest R lit σ i slot left fs).Within ρ
  | .stores elems => ∀ σ slot a, (stackStores R lit σ slot a elems).Within ρ
  | _ => True

/-- A form that has code also has a meaning, and its evaluation does to the world what the host and
the functions that it calls do. -/
theorem Code.within {functions : SignatureTable} {p : Piece} {s s' : Assembly}
    (h : Code functions p s s') (hρ : IsTrail ρ) (hR : R.Within ρ)
    (hcalls : ∀ g ∈ p.parts, g.CallsWithin lit ρ) : p.Within R lit ρ := by
  -- by induction on the code and not on the form, as not every form has a meaning
  induction h with
  | constant hf _ =>
      intro σ
      rw [stackValue_constant hf]
      exact .pure hρ _
  | slot | dynamic =>
      intro σ
      simp only [stackValue]
      split
      · exact .pure hρ _
      · exact .readVar hρ _
  | resultRef hvar _ =>
      intro σ
      simp only [stackValue, hvar]
      exact .readVar hρ _
  | application hf _ _ _ _ ih =>
      rename_i f name args _ _ _ _ _ _ _ _ _
      intro σ
      have hcall := hcalls f (mem_parts_self f) name args hf
      have hargs := ih fun g hg => hcalls g ((mem_parts_of_application? hf).2 (.inr hg))
      rw [stackValue_application hf]
      exact (hargs _).bind hρ fun _ => hcall _
  | sparseArray _ _ ihctor ihstores =>
      simp only [Piece.parts, Form.parts, List.forall_mem_cons, List.forall_mem_append] at hcalls
      intro σ
      simp only [stackValue]
      exact (ihctor hcalls.2.1 σ).bind hρ fun _ =>
        (ihstores hcalls.2.2 σ _ _).bind hρ fun _ => .pure hρ _
  | get _ _ _ ihsource ihindex =>
      simp only [Piece.parts, Form.parts, List.forall_mem_cons, List.forall_mem_append] at hcalls
      intro σ
      simp only [stackValue]
      exact (ihsource hcalls.2.1 σ).bind hρ fun _ => (ihindex hcalls.2.2 _).bind hρ fun _ =>
        hR.arrayRef _ _
  | concat hplan _ _ _ ih =>
      simp only [Piece.parts, Form.parts, List.forall_mem_cons] at hcalls
      intro σ
      rw [OpKind.plan?_eq_operation?] at hplan
      simp only [stackValue, hplan]
      exact (ih hcalls.2 σ).bind hρ fun _ => hR.concat _
  | fold hplan _ _ _ ihfirst ihchain =>
      simp only [Piece.parts, Form.parts, listParts, List.forall_mem_cons,
        List.forall_mem_append] at hcalls
      intro σ
      rw [OpKind.plan?_eq_operation?] at hplan
      simp only [stackValue, hplan, stackChain]
      exact (ihfirst hcalls.2.1 σ).bind hρ fun _ => ihchain hcalls.2.2 σ _ _
  | foldNot hplan _ _ _ _ ihfirst ihchain =>
      simp only [Piece.parts, Form.parts, listParts, List.forall_mem_cons,
        List.forall_mem_append] at hcalls
      intro σ
      rw [OpKind.plan?_eq_operation?] at hplan
      simp only [stackValue, hplan, stackChain, bind_assoc]
      exact (ihfirst hcalls.2.1 σ).bind hρ fun _ => (ihchain hcalls.2.2 σ _ _).bind hρ fun _ =>
        hR.unary _ _
  | unary hf _ _ ih =>
      intro σ
      have harg := ih fun g hg => hcalls g ((mem_parts_of_unary? hf).2 (.inr hg))
      rw [stackValue_unary hf]
      exact (harg σ).bind hρ fun _ => hR.unary _ _
  | shortcut hf _ _ _ _ _ _ ihleft ihright =>
      intro σ
      have hleft := ihleft fun g hg => hcalls g ((mem_parts_of_shortcut? hf).2 (.inr (.inl hg)))
      have hright := ihright fun g hg => hcalls g ((mem_parts_of_shortcut? hf).2 (.inr (.inr hg)))
      obtain ⟨skips, -, hvalue⟩ := stackValue_shortcut R lit hf
      rw [hvalue]
      refine (hleft σ).bind hρ fun _ => ?_
      split
      · exact .pure hρ _
      · exact hright σ
  | noValues => exact fun σ => .pure hρ _
  | valuesCons _ _ ihf ihfs =>
      simp only [Piece.parts, listParts, List.forall_mem_append] at hcalls
      intro σ
      simp only [stackValues]
      exact (ihf hcalls.1 σ).bind hρ fun _ => (ihfs hcalls.2 _).bind hρ fun _ => .pure hρ _
  | noChain => exact fun σ slot left => .pure hρ _
  | chainCons _ _ _ ihf ihfs =>
      simp only [Piece.parts, listParts, List.forall_mem_append] at hcalls
      intro σ slot left
      simp only [stackChainRest]
      refine (ihf hcalls.1 _).bind hρ fun _ => ?_
      exact (hR.binary _ _ _).bind hρ fun _ => ihfs hcalls.2 σ _ _
  | noStores => exact fun σ slot a => .pure hρ _
  | storesCons _ _ _ _ _ ihf ihrest =>
      simp only [Piece.parts, storeParts, List.forall_mem_append] at hcalls
      intro σ slot a
      simp only [stackStores]
      refine (ihf hcalls.1 _).bind hρ fun _ => ?_
      exact (hR.arraySet _ _ _).bind hρ fun _ => ihrest hcalls.2 σ _ _
  | _ => trivial

end

/-! ### Steps of the machine -/

section

variable {R : Runtime} {F : CompiledFunction}

/-- An instruction only adds to the calls that are written down. -/
theorem calls_perform (i : Instr) (st : List R.Value) (w : World R) :
    w.calls <+: ((F.perform i st).after w).calls := by
  have hprimitive : ∀ {α : Type} (x : Action R.Value R.Heap α) (g : α → List R.Value),
      w.calls <+: ((do let a ← Run.primitive x; return g a : Run R _).after w).calls := by
    intro α x g
    simp only [Run.after_map, Run.calls_primitive, List.prefix_rfl]
  cases i with
  | ret | jump _ _ => exact List.prefix_rfl
  | constRef _ | varRef _ | stackRef _ | discard _ =>
      unfold perform
      dsimp only
      split <;> exact List.prefix_rfl
  | varSet n | stackSet n =>
      cases st with
      | nil => exact List.prefix_rfl
      | cons v st =>
          unfold perform
          dsimp only
          split <;> exact List.prefix_rfl
  | call n =>
      unfold perform
      dsimp only
      split
      · rw [Run.after_map, Run.calls_call]
        exact List.prefix_append _ _
      · exact List.prefix_rfl
  | arrayRef | binary op =>
      obtain _ | ⟨b, _ | ⟨a, st⟩⟩ := st
      · exact List.prefix_rfl
      · exact List.prefix_rfl
      · exact hprimitive _ _
  | arraySet =>
      obtain _ | ⟨v, _ | ⟨i, _ | ⟨a, st⟩⟩⟩ := st
      · exact List.prefix_rfl
      · exact List.prefix_rfl
      · exact List.prefix_rfl
      · exact hprimitive _ _
  | unary op =>
      cases st with
      | nil => exact List.prefix_rfl
      | cons v st => exact hprimitive _ _
  | concat n =>
      unfold perform
      dsimp only
      split
      · exact hprimitive _ _
      · exact List.prefix_rfl

namespace CompiledFunction

/-- The machine takes a step, with an error of the host or without, and the world is then `w`. -/
def StepsTo (F : CompiledFunction) (m : Machine R) (w : World R) : Prop :=
  (∃ m', F.step m = .running m' ∧ m'.world = w) ∨ F.step m = .raised w

/-- An instruction that is neither a jump nor a return leaves the world that it comes to. -/
theorem StepsTo.eq_after {m : Machine R} {w : World R} (h : F.StepsTo m w) {i : Instr}
    (hcode : F.chunk.code[m.pc]? = some i) (hplain : i.isPlain = true) :
    w = (F.perform i m.stack).after m.world := by
  unfold StepsTo at h
  rw [step_of_isPlain hcode hplain] at h
  cases hperform : F.perform i m.stack m.world with
  | ok st w' =>
      simp only [hperform] at h
      rw [Run.after_of_ok hperform]
      obtain ⟨m', hm', rfl⟩ | h := h
      · cases hm'
        rfl
      · cases h
  | error e w' =>
      rw [Run.after_of_error hperform]
      cases e with
      | panic =>
          simp only [hperform] at h
          obtain ⟨m', hm', -⟩ | h := h
          · cases hm'
          · cases h
            rfl
      | stuck | timeout => simp [hperform] at h

theorem StepsTo.calls {m : Machine R} {w : World R} (h : F.StepsTo m w) :
    m.world.calls <+: w.calls := by
  cases hcode : F.chunk.code[m.pc]? with
  | none => simp [StepsTo, step, hcode] at h
  | some i =>
      by_cases hplain : i.isPlain = true
      · rw [h.eq_after hcode hplain]
        exact calls_perform i m.stack m.world
      · -- a jump does not touch the world, and a return is not a step of this kind
        cases i with
        | jump kind target =>
            simp only [StepsTo, step, hcode] at h
            split at h
            · obtain ⟨m', hm', rfl⟩ | h := h
              · cases hm'
                exact List.prefix_rfl
              · cases h
            · simp at h
        | ret =>
            simp only [StepsTo, step, hcode] at h
            split at h <;> simp at h
        | _ => exact absurd rfl hplain

/-- A call is written down with the function that lies below its arguments. -/
theorem StepsTo.call {m : Machine R} {w : World R} (h : F.StepsTo m w) {n : UInt8}
    (hcode : F.chunk.code[m.pc]? = some (.call n)) :
    ∃ callee args, m.stack[n.toNat]? = some callee ∧
      m.world.calls ++ [(callee, args)] <+: w.calls := by
  have hw := h.eq_after hcode rfl
  unfold perform at hw
  dsimp only at hw
  cases hdrop : m.stack.drop n.toNat with
  | nil =>
      have hperform : F.perform (.call n) m.stack = throw .stuck := by
        unfold perform
        dsimp only
        rw [hdrop]
      have hstuck : F.step m = .stuck := by
        simp only [step, hcode, hperform]
        rfl
      unfold StepsTo at h
      rw [hstuck] at h
      simp at h
  | cons callee rest =>
      rw [hdrop] at hw
      refine ⟨callee, (m.stack.take n.toNat).reverse, ?_, ?_⟩
      · rw [← Nat.add_zero n.toNat, ← List.getElem?_drop, hdrop]
        rfl
      · simp only [hw, Run.after_map, Run.calls_call, List.prefix_rfl]

theorem calls_of_reaches {m m' : Machine R} (h : F.Reaches m m') :
    m.world.calls <+: m'.world.calls := by
  induction h with
  | refl => exact List.prefix_rfl
  | tail _ hstep ih => exact ih.trans (StepsTo.calls (.inl ⟨_, hstep, rfl⟩))

/-- The machine gets from one state to another without executing the instruction at `pc` on its
way. -/
abbrev ReachesBefore (F : CompiledFunction) (pc : Nat) : Machine R → Machine R → Prop :=
  Relation.ReflTransGen fun m m' => m.pc ≠ pc ∧ F.step m = .running m'

theorem ReachesBefore.reaches {pc : Nat} {m m' : Machine R} (h : F.ReachesBefore pc m m') :
    F.Reaches m m' :=
  Relation.ReflTransGen.mono (fun _ _ hstep => hstep.2) _ _ h

/-- There is only one way: what is reached before `pc` lies on the way to `pc`, or to the end. -/
theorem ReachesBefore.reaches_of {pc : Nat} {m m' last : Machine R} (h : F.ReachesBefore pc m m')
    (hlast : F.Reaches m last) (hend : last.pc = pc ∨ ∀ next, F.step last ≠ .running next) :
    F.Reaches m' last := by
  induction h using Relation.ReflTransGen.head_induction_on with
  | refl => exact hlast
  | @head m m₁ hstep _ ih =>
      obtain rfl | ⟨m₂, hstep₂, hrest⟩ := Relation.ReflTransGen.cases_head hlast
      · obtain hpc | hend := hend
        · exact absurd hpc hstep.1
        · exact absurd hstep.2 (hend m₁)
      · rw [hstep.2] at hstep₂
        cases hstep₂
        exact ih hrest

/-- What the machine calls on the way to a point is called by the computation that it follows. -/
theorem exists_callee_of_follows {α : Type} {m m' : Machine R} {x : Run R α} {pc : Nat}
    {st : α → List R.Value} (hfollows : F.Follows m x fun a => .point pc (st a))
    (hends : ∀ {w e w'}, x w = .error e w' → e = .panic) {n : UInt8}
    (hpath : F.ReachesBefore pc m m') (hcall : F.chunk.code[m'.pc]? = some (.call n))
    (hpc : F.chunk.code[pc]? ≠ some (.call n)) {new : List (R.Value × List R.Value)}
    (hnew : (x.after m.world).calls = m.world.calls ++ new) :
    ∃ callee args, m'.stack[n.toNat]? = some callee ∧ (callee, args) ∈ new := by
  -- the last state on the way, and the world that the computation leaves there
  obtain ⟨last, hlast, hend⟩ : ∃ last, F.Reaches m last ∧
      (last.pc = pc ∧ last.world = x.after m.world ∨ F.step last = .raised (x.after m.world)) := by
    cases hx : x m.world with
    | ok a w =>
        rw [Run.after_of_ok hx]
        exact ⟨_, hfollows.attains hx, .inl ⟨rfl, rfl⟩⟩
    | error e w =>
        obtain rfl := hends hx
        rw [Run.after_of_error hx]
        obtain ⟨last, hlast, hraised⟩ := hfollows.raises hx
        exact ⟨last, hlast, .inr hraised⟩
  have hrest : F.Reaches m' last := by
    refine hpath.reaches_of hlast (hend.imp And.left fun hraised next hnext => ?_)
    rw [hraised] at hnext
    cases hnext
  -- the call is a step of its own on this way
  obtain ⟨w, hstep, hcalls⟩ : ∃ w, F.StepsTo m' w ∧ w.calls <+: (x.after m.world).calls := by
    have hlater : last.world.calls <+: (x.after m.world).calls := by
      obtain ⟨-, hworld⟩ | hraised := hend
      · exact hworld ▸ List.prefix_rfl
      · exact StepsTo.calls (.inr hraised)
    obtain rfl | ⟨next, hnext, hrest⟩ := Relation.ReflTransGen.cases_head hrest
    · obtain ⟨hat, -⟩ | hraised := hend
      · rw [hat] at hcall
        exact absurd hcall hpc
      · exact ⟨_, .inr hraised, List.prefix_rfl⟩
    · exact ⟨_, .inl ⟨next, hnext, rfl⟩, (calls_of_reaches hrest).trans hlater⟩
  obtain ⟨callee, args, hcallee, hwritten⟩ := hstep.call hcall
  refine ⟨callee, args, hcallee, ?_⟩
  obtain ⟨before, hbefore⟩ := calls_of_reaches hpath.reaches
  have hprefix := hwritten.trans hcalls
  rw [hnew, ← hbefore, List.append_assoc, List.prefix_append_right_inj] at hprefix
  exact hprefix.subset (by simp)

end CompiledFunction

end

end StackCompiler
