import Mathlib.Data.List.Nodup
import StackCompiler.Proofs.Correctness

/-!
A return of several results. The first is the value of the call and stays on the stack. Each of the
others is stored into the variable reserved for it as soon as it has been evaluated. It is still
there when the function returns unless the evaluation of a later result writes the variable, too, as
a call of a function with several results does.
-/

namespace StackCompiler

open CompiledFunction

section Stored

variable {R : Runtime} {lit : Constant → R.Value} {σ : Operands R} {vars : List String}
  {es : List (Evaluated R)} {w w' : World R}

theorem Store.vars_setVar_self {Value Heap : Type} (s : Store Value Heap) (name : String)
    (v : Value) : (s.setVar name v).vars name = v := by
  simp [Store.setVar]

theorem Store.vars_setVar_of_ne {Value Heap : Type} (s : Store Value Heap) {name other : String}
    (h : other ≠ name) (v : Value) : (s.setVar name v).vars other = s.vars other := by
  simp [Store.setVar, h]

/-- One result is evaluated and stored, then the others are. -/
theorem stackResults_cons_ok {var : String} {f : Form} {fs : List Form}
    (h : stackResults R lit σ (var :: vars) (f :: fs) w = .ok es w') :
    ∃ v w₁ rest, stackValue R lit σ f w = .ok v w₁ ∧
      stackResults R lit σ vars fs { w₁ with store := w₁.store.setVar var v } = .ok rest w' ∧
      es = ⟨v, w, w₁⟩ :: rest := by
  unfold stackResults at h
  obtain ⟨before, w₀, hbefore, h⟩ := bind_eq_ok.1 h
  obtain ⟨v, w₁, hv, h⟩ := bind_eq_ok.1 h
  obtain ⟨after, w₂, hafter, h⟩ := bind_eq_ok.1 h
  obtain ⟨_, w₃, hwrite, h⟩ := bind_eq_ok.1 h
  obtain ⟨rest, w₄, hrest, hend⟩ := bind_eq_ok.1 h
  cases hbefore
  cases hafter
  cases hwrite
  cases hend
  exact ⟨v, w₁, rest, hv, hrest, rfl⟩

theorem stackResults_nil_ok {var : List String} {es : List (Evaluated R)}
    (h : stackResults R lit σ var [] w = .ok es w') : es = [] ∧ w = w' := by
  unfold stackResults at h
  obtain ⟨hes, hw⟩ := pure_eq_ok.1 h
  exact ⟨hes.symm, hw⟩

theorem length_of_stackResults {fs : List Form}
    (h : stackResults R lit σ vars fs w = .ok es w') : es.length = fs.length := by
  induction fs generalizing vars w es with
  | nil => rw [(stackResults_nil_ok h).1]; rfl
  | cons f fs ih =>
      cases vars with
      | nil => exact absurd h throw_ne_ok
      | cons var vars =>
          obtain ⟨v, w₁, rest, -, hrest, rfl⟩ := stackResults_cons_ok h
          rw [List.length_cons, List.length_cons, ih hrest]

def Evaluated.Keeps (e : Evaluated R) (var : String) : Prop :=
  e.after.store.vars var = e.before.store.vars var

/-- A variable that is reserved for none of the results, and that evaluating them leaves alone. -/
theorem vars_of_stackResults {fs : List Form} (h : stackResults R lit σ vars fs w = .ok es w')
    {var : String} (hvar : var ∉ vars) (hkeep : ∀ e ∈ es, e.Keeps var) :
    w'.store.vars var = w.store.vars var := by
  induction fs generalizing vars w es with
  | nil => rw [(stackResults_nil_ok h).2]
  | cons f fs ih =>
      cases vars with
      | nil => exact absurd h throw_ne_ok
      | cons other vars =>
          obtain ⟨v, w₁, rest, -, hrest, rfl⟩ := stackResults_cons_ok h
          rw [List.mem_cons, not_or] at hvar
          rw [List.forall_mem_cons] at hkeep
          calc w'.store.vars var
              = (w₁.store.setVar other v).vars var := ih hrest hvar.2 hkeep.2
            _ = w₁.store.vars var := Store.vars_setVar_of_ne _ hvar.1 v
            _ = w.store.vars var := hkeep.1

/-- The variable of a result holds its value in the end if evaluating the later results leaves the
variable alone. -/
theorem vars_of_stackResults_getElem? {fs : List Form}
    (h : stackResults R lit σ vars fs w = .ok es w') (hnodup : vars.Nodup) {k : Nat}
    {e : Evaluated R} {var : String} (he : es[k]? = some e) (hvar : vars[k]? = some var)
    (hkeep : ∀ j e', k < j → es[j]? = some e' → e'.Keeps var) :
    w'.store.vars var = e.value := by
  induction fs generalizing vars w es k with
  | nil =>
      rw [(stackResults_nil_ok h).1] at he
      cases he
  | cons f fs ih =>
      cases vars with
      | nil => exact absurd h throw_ne_ok
      | cons other vars =>
          obtain ⟨v, w₁, rest, -, hrest, rfl⟩ := stackResults_cons_ok h
          obtain ⟨hother, hnodup⟩ := List.nodup_cons.1 hnodup
          cases k with
          | zero =>
              obtain rfl : _ = e := Option.some.inj he
              obtain rfl : other = var := Option.some.inj hvar
              have hrest_keep : ∀ e' ∈ rest, e'.Keeps other := by
                intro e' he'
                obtain ⟨j, hj⟩ := List.mem_iff_getElem?.1 he'
                exact hkeep (j + 1) e' (by omega) hj
              rw [vars_of_stackResults hrest hother hrest_keep]
              exact Store.vars_setVar_self w₁.store other v
          | succ k =>
              exact ih hrest hnodup he hvar fun j e' hj he' => hkeep (j + 1) e' (by omega) he'

end Stored

section

variable {functions : SignatureTable} {F : CompiledFunction}

theorem Code.ret_notMem {p : Piece} {s s' : Assembly} (h : Code functions p s s')
    (hp : p.isOperand = true) (results : List Form) : .ret results ∉ p.parts := by
  intro hmem
  cases h.parts_isStatement hp _ hmem

/-- A return inside a piece has code of its own there. -/
theorem Code.exists_return {p : Piece} {s s' : Assembly} (h : Code functions p s s')
    (hp : p.isOperand = false) {results : List Form} (hmem : .ret results ∈ p.parts) :
    ∃ t t', Code functions (.form (.ret results)) t t' ∧ t'.Grows s' := by
  have hstable := Assembly.Grows.stable
  induction h with
  | constant | slot | dynamic | resultRef | application | sparseArray | get | concat | fold
  | foldNot | unary | shortcut | noValues | valuesCons | noChain | chainCons | noStores | storesCons
  | noResults | resultsCons => cases hp
  -- the piece is a statement; each case adds the code that comes after the part with the return
  | block _ hdrop ih =>
      simp only [Piece.parts, Form.parts, List.mem_cons, reduceCtorEq, false_or] at hmem
      obtain ⟨t, t', ht, hgrows⟩ := ih rfl hmem
      exact ⟨t, t', ht, hgrows.trans (hstable.drops hdrop)⟩
  | branch _ hcond _ _ hdrop hplace _ ihbody =>
      simp only [Piece.parts, Form.parts, optionParts, List.mem_cons, List.mem_append, reduceCtorEq,
        false_or, List.not_mem_nil, or_false] at hmem
      obtain ⟨t, t', ht, hgrows⟩ := ihbody rfl (hmem.resolve_left (hcond.ret_notMem rfl _))
      exact ⟨t, t', ht, hgrows.trans ((hstable.drops hdrop).trans (hstable.places hplace))⟩
  | branchElse _ _ hcond _ _ hdrop hplace hother _ ihbody ihother =>
      simp only [Piece.parts, Form.parts, optionParts, List.mem_cons, List.mem_append, reduceCtorEq,
        false_or] at hmem
      obtain hmem | hmem := hmem.resolve_left (hcond.ret_notMem rfl _)
      · obtain ⟨t, t', ht, hgrows⟩ := ihbody rfl hmem
        exact ⟨t, t', ht, hgrows.trans ((hstable.drops hdrop).trans
          ((hstable.places hplace).trans hother.grows))⟩
      · exact ihother rfl hmem
  | branchJoin _ hcond _ _ hdrop hdone hskip hplace hother hjoin _ ihbody ihother =>
      simp only [Piece.parts, Form.parts, optionParts, List.mem_cons, List.mem_append, reduceCtorEq,
        false_or] at hmem
      obtain hmem | hmem := hmem.resolve_left (hcond.ret_notMem rfl _)
      · obtain ⟨t, t', ht, hgrows⟩ := ihbody rfl hmem
        exact ⟨t, t', ht, hgrows.trans ((hstable.drops hdrop).trans ((hstable.creates hdone).trans
          ((hstable.appends hskip).trans ((hstable.places hplace).trans
            (hother.grows.trans (hstable.places hjoin))))))⟩
      · obtain ⟨t, t', ht, hgrows⟩ := ihother rfl hmem
        exact ⟨t, t', ht, hgrows.trans (hstable.places hjoin)⟩
  | loop _ _ _ _ _ hdrop hpost hplaceTest hcond hagain hclose ihbody ihpost _ =>
      simp only [Piece.parts, Form.parts, List.mem_cons, List.mem_append, reduceCtorEq,
        false_or] at hmem
      have hend := (hstable.places hplaceTest).trans (hcond.grows.trans
        ((hstable.appends hagain).trans (.of_closes hclose)))
      obtain hmem | hmem := hmem.resolve_left (hcond.ret_notMem rfl _)
      · obtain ⟨t, t', ht, hgrows⟩ := ihbody rfl hmem
        exact ⟨t, t', ht, hgrows.trans ((hstable.drops hdrop).trans (hpost.grows.trans hend))⟩
      · obtain ⟨t, t', ht, hgrows⟩ := ihpost rfl hmem
        exact ⟨t, t', ht, hgrows.trans hend⟩
  | noPost | noForms => cases hmem
  | post _ _ ih | postAt _ _ _ ih => exact ih rfl hmem
  | retNil hload hret =>
      simp only [Piece.parts, Form.parts, listParts, List.mem_singleton] at hmem
      cases hmem
      exact ⟨_, _, .retNil hload hret, .refl _⟩
  | ret hfirst hrest hret =>
      simp only [Piece.parts, Form.parts, listParts, List.mem_cons, List.mem_append] at hmem
      obtain hmem | hmem | hmem := hmem
      · cases hmem
        exact ⟨_, _, .ret hfirst hrest hret, .refl _⟩
      · exact absurd hmem (hfirst.ret_notMem rfl _)
      · exact absurd hmem (hrest.ret_notMem rfl _)
  | jump hf hloops hfind hleave =>
      rename_i f _ _ _ _ _ _ _
      cases f with
      | breakLoop | continueLoop => simp [Piece.parts, Form.parts] at hmem
      | _ => cases hf
  | bind hvalue _ | rebindSlot hvalue _ _ | rebindDynamic hvalue _ _ =>
      simp only [Piece.parts, Form.parts, List.mem_cons, reduceCtorEq, false_or] at hmem
      exact absurd hmem (hvalue.ret_notMem rfl _)
  | set htarget hindex hvalue _ =>
      simp only [Piece.parts, Form.parts, List.mem_cons, List.mem_append, reduceCtorEq,
        false_or] at hmem
      obtain hmem | hmem | hmem := hmem
      · exact absurd hmem (htarget.ret_notMem rfl _)
      · exact absurd hmem (hindex.ret_notMem rfl _)
      · exact absurd hmem (hvalue.ret_notMem rfl _)
  | never _ _ _ hargs _ _ _ =>
      simp only [Piece.parts, Form.parts, List.mem_cons, reduceCtorEq, false_or] at hmem
      exact absurd hmem (hargs.ret_notMem rfl _)
  | effect hf _ => exact absurd hmem (hf.ret_notMem rfl _)
  | formsCons _ hfs ihf ihfs =>
      simp only [Piece.parts, listParts, List.mem_append] at hmem
      obtain hmem | hmem := hmem
      · obtain ⟨t, t', ht, hgrows⟩ := ihf rfl hmem
        exact ⟨t, t', ht, hgrows.trans hfs.grows⟩
      · exact ihfs rfl hmem

theorem resultVars_nodup : Host.resultVars.Nodup := by
  decide

/-- From `entry` a function gets to the return at `exit` with the first result on top of the stack.
Each other result is then in the variable reserved for it if evaluating the results after it has
left the variable alone. -/
structure KeepsResults (F : CompiledFunction) (first : Form) (rest : List Form) (entry exit : Nat)
    (names : List (Option String)) : Prop where
  returns : F.chunk.code[exit]? = some .ret
  reaches : ∀ {R : Runtime} {σ : Operands R} {w w₁ w' : World R} {v : R.Value}
    {es : List (Evaluated R)}, σ.names = names → stackValue R (F.literal R) σ first w = .ok v w₁ →
    stackResults R (F.literal R) ((first.slotName, v) :: σ) Host.resultVars rest w₁ = .ok es w' →
    F.Reaches ⟨entry, σ.values, w⟩ ⟨exit, v :: σ.values, w'⟩ ∧ es.length = rest.length ∧
      ∀ k e var, es[k]? = some e → Host.resultVar? (k + 1) = some var →
        (∀ j e', k < j → es[j]? = some e' → e'.Keeps var) → w'.store.vars var = e.value

theorem Code.keepsResults {first : Form} {rest : List Form} {s t : Assembly}
    (h : Code functions (.form (.ret (first :: rest))) s t) (hF : F.Contains t) :
    ∃ exit, exit + 1 = t.code.size ∧
      KeepsResults F first rest s.code.size exit s.slots.names := by
  cases h with
  | ret hfirst hrest happ =>
      rename_i a b
      have hFb := happ.contains hF
      refine ⟨b.code.size, by simp [happ.code], hF.fetch happ.code, ?_⟩
      intro R σ w w₁ w' v es hnames hv hes
      have hnames_a : a.slots.names = first.slotName :: σ.names := by
        rw [hfirst.names_of_isOperand rfl, hnames]
        rfl
      have hload := (hfirst.simulated (hFb.of_grows hrest.grows) σ w hnames.symm).attains hv
      have hstore := (hrest.simulated hFb ((first.slotName, v) :: σ) w₁ hnames_a).attains hes
      refine ⟨hload.trans hstore, length_of_stackResults hes, fun k e var he hvar hkeep => ?_⟩
      exact vars_of_stackResults_getElem? hes resultVars_nodup he hvar hkeep
  | jump hf _ _ _ => cases hf
  | effect hf _ => cases hf.parts_isStatement rfl _ (mem_parts_self _)

/-- Wherever a function returns several results, the first is on top of the stack when it gets to
the instruction of the return, and each other result is in the variable reserved for it if
evaluating the results after it has left the variable alone. -/
theorem return_keeps_results {name : String} {params : List String} {body : Block}
    (hcompile : ofBlock functions name params body = .ok F) {first : Form} {rest : List Form}
    (hret : .ret (first :: rest) ∈ listParts body) :
    (∃ s t, Code functions (.form (.ret (first :: rest))) s t ∧ F.Contains t) ∧
      ∀ s t, Code functions (.form (.ret (first :: rest))) s t → F.Contains t →
        ∃ exit, exit + 1 = t.code.size ∧
          KeepsResults F first rest s.code.size exit s.slots.names := by
  obtain ⟨s, hbody, hfinish⟩ := ofBlock_ok hcompile
  obtain ⟨t, t', hcode, hgrows⟩ := hbody.exists_return rfl (mem_withReturn_parts hret)
  exact ⟨⟨t, t', hcode, hfinish.contains.of_grows hgrows⟩,
    fun _ _ hcode hF => hcode.keepsResults hF⟩

end

/-- A host whose functions all return ten, and twenty as a second result. -/
def Runtime.pairs : Runtime :=
  { Runtime.integers with
    call := fun _ _ => do
      modify (·.setVar "Go--ret-2" (.int 20))
      return .int 10 }

def World.pairs : World Runtime.pairs :=
  ⟨⟨fun _ => .symbol Host.nil, ()⟩, []⟩

def callsFirstBody : Block :=
  [.ret [.call "f" [], .call "f" [], .int 7]]

theorem return_keeps_results_callsFirstBody :
    ∃ F exit w', ofBlock .empty "g" [] callsFirstBody = .ok F ∧
      F.chunk.code[exit]? = some .ret ∧
      F.Reaches (start [] World.pairs) ⟨exit, [Constant.int 10], w'⟩ ∧
      w'.store.vars "Go--ret-2" = Constant.int 10 ∧ w'.store.vars "Go--ret-3" = Constant.int 7 := by
  have hok : (ofBlock .empty "g" [] callsFirstBody).isOk = true := by decide +kernel
  cases hcompile : ofBlock .empty "g" [] callsFirstBody with
  | error e =>
      rw [hcompile] at hok
      cases hok
  | ok F =>
      have hret : .ret [.call "f" [], .call "f" [], .int 7] ∈ listParts callsFirstBody := by
        simp [callsFirstBody, listParts, Form.parts]
      -- the return is all of the body, so its code begins where the function does
      obtain ⟨s, hbody, hfinish⟩ := ofBlock_ok hcompile
      obtain ⟨t, hcode, hgrows⟩ : ∃ t,
          Code .empty (.form (.ret [.call "f" [], .call "f" [], .int 7])) (Assembly.ofParams []) t ∧
            t.Grows s := by
        cases hbody with
        | formsCons hf hfs => exact ⟨_, hf, hfs.grows⟩
      obtain ⟨exit, -, hkeeps⟩ := (return_keeps_results hcompile hret).2 _ t hcode
        (hfinish.contains.of_grows hgrows)
      obtain ⟨hreach, -, hvars⟩ := hkeeps.reaches (R := Runtime.pairs) (σ := []) (w := World.pairs)
        rfl rfl rfl
      refine ⟨F, exit, _, rfl, hkeeps.returns, hreach, ?_, ?_⟩
      -- only the literal is evaluated after the second call
      · refine hvars 0 _ _ rfl rfl fun j e hj he => ?_
        obtain _ | _ | j := j
        · cases hj
        · cases he
          rfl
        · cases he
      · rw [hvars 1 _ _ rfl rfl fun j e hj he => ?_]
        · exact literal_loadsExactly F Runtime.pairs _ (by simp)
        · obtain _ | _ | j := j
          · cases hj
          · exact absurd hj (Nat.lt_irrefl 1)
          · cases he

def callLastBody : Block :=
  [.ret [.int 1, .int 2, .call "f" []]]

/-- A call that is evaluated after a result was stored may replace it. -/
theorem return_loses_result :
    ∃ F w', ofBlock .empty "g" [] callLastBody = .ok F ∧
      F.run 7 (start (R := Runtime.pairs) [] World.pairs) = .returned (Constant.int 1) w' ∧
      w'.store.vars "Go--ret-2" = Constant.int 20 ∧ Constant.int 20 ≠ Constant.int 2 := by
  have hcompiled : (ofBlock .empty "g" [] callLastBody).toOption =
      some ⟨"g", [], ⟨#[.constRef 0, .constRef 1, .varSet 2, .constRef 3, .call 0, .varSet 4, .ret],
        #[], 2⟩,
        #[.int 1, .int 2, .symbol "Go--ret-2", .symbol "f", .symbol "Go--ret-3"]⟩ := by
    decide +kernel
  cases hcompile : ofBlock .empty "g" [] callLastBody with
  | error e =>
      rw [hcompile] at hcompiled
      cases hcompiled
  | ok F =>
      rw [hcompile] at hcompiled
      cases hcompiled
      exact ⟨_, _, rfl, rfl, rfl, by decide⟩

end StackCompiler
