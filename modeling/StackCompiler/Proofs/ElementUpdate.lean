import StackCompiler.Proofs.Assignment
import StackCompiler.Proofs.QuietForms

/-!
Updates of one element by an operator or a step. Such a statement is an assignment of the operation,
so that its array and its index are evaluated twice: first to find where to store, and then once
more to read. `element_update` says so, and that this is the same as to find the element once if the
second time finds it again without any effect, which is so if neither part calls anything.
`element_update_calls_twice` shows the difference.
-/

namespace StackCompiler

open Source

section

variable (R : Runtime) (ρ : Env R)

/-- Finds an element: evaluates the array and then the index. -/
def findElement (base index : Form) : Run R (R.Value × R.Value) := do
  let a ← evalValue R ρ base
  let i ← evalValue R ρ index
  return (a, i)

def OpKind.combine (kind : OpKind) (family : Family) (left right : Run R R.Value) :
    Run R R.Value :=
  if kind.operation? family = none then throw .stuck
  else do
    let x ← left
    let y ← right
    kind.apply R family x y

/-- Finds an element, reads it, applies an operator and stores the result there. -/
def updateFound (base index : Form) (kind : OpKind) (family : Family) (operand : Form) :
    Run R Unit := do
  let e ← findElement R ρ base index
  let v ← kind.combine R family (Run.primitive (R.arrayRef e.1 e.2)) (evalValue R ρ operand)
  Run.primitive (R.arraySet e.1 e.2 v)

/-- Finds an element, finds one once more to read it, applies an operator and stores the result into
the element that was found first. -/
def updateFoundTwice (base index : Form) (kind : OpKind) (family : Family) (operand : Form) :
    Run R Unit := do
  let e ← findElement R ρ base index
  let read := do
    let e' ← findElement R ρ base index
    Run.primitive (R.arrayRef e'.1 e'.2)
  let v ← kind.combine R family read (evalValue R ρ operand)
  Run.primitive (R.arraySet e.1 e.2 v)

end

/-! ### Elements that are found without effect -/

/-- A host whose own operations, apart from stores and calls, change nothing. -/
abbrev Runtime.OnlyReads (R : Runtime) : Prop :=
  R.Keeps False fun w w' => w' = w

theorem isTrail_eq (R : Runtime) : IsTrail fun w w' : World R => w' = w where
  refl _ := rfl
  trans h h' := h'.trans h

/-- An element is found without effect if nothing is called or stored for it. -/
theorem keeps_findElement {R : Runtime} {ρ : Env R} (hR : R.OnlyReads) {base index : Form}
    (hbase : base.Every (Form.IsQuiet False)) (hindex : index.Every (Form.IsQuiet False)) :
    (findElement R ρ base index).Keeps fun w w' => w' = w := by
  have hK := isTrail_eq R
  exact (keeps_evalValue hK hR base hbase).bind hK fun a =>
    (keeps_evalValue hK hR index hindex).bind hK fun i => .pure hK (a, i)

/-! ### Statements that update an element -/

/-- What forms do that update the element which `base` and `index` select. They find it twice,
first to store and then to read, and after that evaluate the operand once. Where the second time
finds the same element again and has no effect, it is as if the element had been found once; so it
is whenever neither `base` nor `index` calls anything, on a host whose own operations only read. -/
structure UpdatesElement (base index : Form) (kind : OpKind) (family : Family) (operand : Form)
    (forms : List Form) : Prop where
  twice : ∀ (R : Runtime) (fuel : Nat) (ρ : Env R), execForms R fuel forms ρ = (do
    updateFoundTwice R ρ base index kind family operand
    return (.next, ρ))
  again : ∀ (R : Runtime) (fuel : Nat) (ρ : Env R) w e w', findElement R ρ base index w = .ok e w' →
    findElement R ρ base index w' = .ok e w' →
    execForms R fuel forms ρ w = (updateFound R ρ base index kind family operand >>= fun _ =>
      pure (.next, ρ)) w
  quiet : ∀ R : Runtime, R.OnlyReads → base.Every (Form.IsQuiet False) →
    index.Every (Form.IsQuiet False) → ∀ (fuel : Nat) (ρ : Env R), execForms R fuel forms ρ = (do
      updateFound R ρ base index kind family operand
      return (.next, ρ))

section

variable {R : Runtime} {ρ : Env R} {kind : OpKind} {family : Family}
  {base index operand left right : Form}

theorem evalValue_op_eq_combine : evalValue R ρ (.op kind family [left, right]) =
    kind.combine R family (evalValue R ρ left) (evalValue R ρ right) := by
  unfold OpKind.combine
  split
  · rename_i hnone
    simp only [evalValue, hnone]
  · rename_i hdefined
    exact evalValue_op_pair hdefined left right

theorem combine_congr {x x' y : Run R R.Value} {w : World R} (h : x w = x' w) :
    kind.combine R family x y w = kind.combine R family x' y w := by
  unfold OpKind.combine
  split
  · rfl
  · exact bind_congr_of_eq h fun _ _ _ => rfl

/-- An element that is found again where it was. -/
theorem updateFoundTwice_of_again {e : R.Value × R.Value} {w w' : World R}
    (hfirst : findElement R ρ base index w = .ok e w')
    (hagain : findElement R ρ base index w' = .ok e w') :
    updateFoundTwice R ρ base index kind family operand w =
      updateFound R ρ base index kind family operand w := by
  unfold updateFoundTwice updateFound
  rw [bind_of_ok hfirst, bind_of_ok hfirst]
  exact bind_congr_of_eq (combine_congr (bind_of_ok hagain _)) fun _ _ _ => rfl

theorem updateFoundTwice_of_keeps (h : (findElement R ρ base index).Keeps fun w w' => w' = w) :
    updateFoundTwice R ρ base index kind family operand =
      updateFound R ρ base index kind family operand := by
  funext w
  cases hfirst : findElement R ρ base index w with
  | ok e w' =>
      have hagain := hfirst
      rw [← h w e w' hfirst] at hagain
      exact updateFoundTwice_of_again hfirst hagain
  | error s w' =>
      unfold updateFoundTwice updateFound
      rw [bind_of_error hfirst, bind_of_error hfirst]

theorem execForms_set_op (fuel : Nat) :
    execForms R fuel [.set base index (.op kind family [.get base index, operand])] ρ = (do
      updateFoundTwice R ρ base index kind family operand
      return (.next, ρ)) := by
  have hread : evalValue R ρ (.get base index) = (do
      let e ← findElement R ρ base index
      Run.primitive (R.arrayRef e.1 e.2)) := by
    simp only [evalValue, findElement, bind_assoc, pure_bind]
  simp only [execForms, execForm, evalValue_op_eq_combine, hread, updateFoundTwice, findElement,
    bind_assoc, pure_bind]

theorem updatesElement_set (base index : Form) (kind : OpKind) (family : Family) (operand : Form) :
    UpdatesElement base index kind family operand
      [.set base index (.op kind family [.get base index, operand])] where
  twice R fuel ρ := execForms_set_op fuel
  again R fuel ρ w e w' hfirst hagain := by
    rw [execForms_set_op]
    exact bind_congr_of_eq (updateFoundTwice_of_again hfirst hagain) fun _ _ _ => rfl
  quiet R hR hbase hindex fuel ρ := by
    rw [execForms_set_op, updateFoundTwice_of_keeps (keeps_findElement hR hbase hindex)]

end

section

variable {env : Environment} {base at' : Expr}

/-- The value of an element is read by what selects the element as a target. -/
theorem ofExpr_of_element (e : Expr) {f : Form}
    (htarget : Target.ofExpr e = .ok (.element base at')) (h : Form.ofExpr env e = .ok f) :
    ∃ b i, Form.ofExpr env base = .ok b ∧ Form.ofExpr env at' = .ok i ∧ f = .get b i := by
  match e with
  | .index _ _ _ _ =>
      cases htarget
      obtain ⟨b, hb, h⟩ := lower_bind_ok h
      obtain ⟨i, hi, h⟩ := lower_bind_ok h
      cases h
      exact ⟨b, i, hb, hi, rfl⟩
  | .paren inner _ => exact ofExpr_of_element inner htarget h
  | .ident name defines _ _ _ =>
      simp only [Target.ofExpr, Except.ok.injEq] at htarget
      split at htarget
      · cases htarget
      · split at htarget <;> cases htarget
  | .lit _ _ _ | .binary _ _ _ _ _ | .unary _ _ _ _ | .call _ _ _ _ | .method _ _ _ _ _
  | .array _ _ _ => cases htarget
termination_by structural e

theorem store_element {b i value : Form} {forms : List Form}
    (hb : Form.ofExpr env base = .ok b) (hi : Form.ofExpr env at' = .ok i)
    (h : (Target.element base at').store env value = .ok forms) : forms = [.set b i value] := by
  rw [Target.store, hb, hi] at h
  cases h
  rfl

/-- An operator that assigns has a meaning of its own only for operands of a family. -/
theorem ofBinary_of_assigns {op : AssignOp} {sign : BinaryOp} (hop : op.binary? = some sign)
    {family? : Option Family} {b i f value : Form} {span : Span}
    (h : Form.ofBinary sign family? (.get b i) f span = .ok value) :
    ∃ kind family, sign.opKind? = some kind ∧ family? = some family ∧
      value = .op kind family [.get b i, f] := by
  cases family? with
  | none => cases op <;> cases hop <;> cases h
  | some family => cases op <;> cases hop <;> cases h <;> exact ⟨_, family, rfl, rfl, rfl⟩

/-- Every statement that changes an element by an operator, or steps it up or down, and that has
forms finds the element twice: by evaluating its array and its index, first to store and then once
more to read. The operand is evaluated once. -/
theorem element_update {target : Expr} {span : Span}
    (htarget : Target.ofExpr target = .ok (.element base at')) :
    (∀ op sign rhs forms, op.binary? = some sign →
      assignForms env [target] op rhs span = .ok forms →
      ∃ right b i kind family f, rhs = [right] ∧ Form.ofExpr env base = .ok b ∧
        Form.ofExpr env at' = .ok i ∧ sign.opKind? = some kind ∧
        target.kind.family? = some family ∧ Form.ofExpr env right = .ok f ∧
        UpdatesElement b i kind family f forms) ∧
    (∀ direction forms, stepForms env direction target span = .ok forms →
      ∃ b i family one, Form.ofExpr env base = .ok b ∧ Form.ofExpr env at' = .ok i ∧
        unit? target.kind = some (family, one) ∧
        UpdatesElement b i direction.opKind family one forms) := by
  refine ⟨fun op sign rhs forms hop h => ?_, fun direction forms h => ?_⟩
  · obtain ⟨targets, htargets, h⟩ := lower_bind_ok h
    rw [targetsOf, htarget] at htargets
    cases htargets
    simp only [hop] at h
    obtain _ | ⟨right, _ | ⟨_, _⟩⟩ := rhs
    · cases h
    · obtain ⟨current, hcurrent, h⟩ := lower_bind_ok h
      obtain ⟨f, hf, h⟩ := lower_bind_ok h
      obtain ⟨value, hvalue, h⟩ := lower_bind_ok h
      obtain ⟨b, i, hb, hi, rfl⟩ := ofExpr_of_element target htarget hcurrent
      obtain ⟨kind, family, hkind, hfamily, rfl⟩ := ofBinary_of_assigns hop hvalue
      obtain rfl := store_element hb hi h
      exact ⟨right, b, i, kind, family, f, rfl, hb, hi, hkind, hfamily, hf,
        updatesElement_set b i kind family f⟩
    · cases h
  · unfold stepForms at h
    split at h
    · cases h
    · rename_i family one hunit
      obtain ⟨t, ht, h⟩ := lower_bind_ok h
      rw [htarget] at ht
      cases ht
      obtain ⟨current, hcurrent, h⟩ := lower_bind_ok h
      obtain ⟨b, i, hb, hi, rfl⟩ := ofExpr_of_element target htarget hcurrent
      obtain rfl := store_element hb hi h
      exact ⟨b, i, family, one, hb, hi, hunit, updatesElement_set b i _ family one⟩

end

theorem onlyReads_ledger : Runtime.ledger.OnlyReads where
  unary i v := .pure (isTrail_eq _) v
  binary i u v := .pure (isTrail_eq _) u
  concat vs := fun _ _ _ h => by cases h
  arrayRef a i := .pure (isTrail_eq _) i
  arraySet := False.elim

theorem element_update_step :
    Target.ofExpr (.paren (cellAt "j") {}) =
        .ok (.element (.ofName "a" (.slice .int)) (.ofName "j" .int)) ∧
      ∃ forms, stepForms {} .up (.paren (cellAt "j") {}) {} = .ok forms ∧
        ((execForms Runtime.ledger 0 forms cellsEnv).after World.ledger).store.heap =
          [(Constant.symbol "cells", Constant.int 1, Constant.int 1)] := by
  have htarget : Target.ofExpr (.paren (cellAt "j") {}) =
      .ok (.element (.ofName "a" (.slice .int)) (.ofName "j" .int)) := rfl
  have hforms : stepForms {} .up (.paren (cellAt "j") {}) {} = .ok _ := rfl
  obtain ⟨b, i, family, one, hb, hi, hunit, hupdates⟩ := (element_update htarget).2 .up _ hforms
  cases hb
  cases hi
  cases hunit
  have hquiet : ∀ name, (Form.var name).Every (Form.IsQuiet False) := fun name =>
    (Form.every_var name).2 ⟨rfl, by simp [Form.isSparseArray]⟩
  refine ⟨htarget, _, hforms, ?_⟩
  rw [hupdates.quiet _ onlyReads_ledger (hquiet "a") (hquiet "j")]
  rfl

/-- A host whose functions return how often any was called before, whose arrays hold their own
indices, and which writes down what is stored. -/
def Runtime.tally : Runtime where
  Value := Constant
  Heap := Int64 × List (Constant × Constant × Constant)
  constant c := c
  isNil v := v == .symbol Host.nil
  isNil_iff := Constant.beq_nil_iff
  unary _ v := return v
  binary _ u _ := return u
  concat _ := throw ()
  arrayRef _ i := return i
  arraySet a i v := modify fun store =>
    { store with heap := (store.heap.1, store.heap.2 ++ [(a, i, v)]) }
  call _ _ := modifyGet fun store =>
    (.int store.heap.1, { store with heap := (store.heap.1 + 1, store.heap.2) })

def World.tally : World Runtime.tally :=
  ⟨⟨fun _ => .symbol Host.nil, (0, [])⟩, []⟩

def tallyEnv : Env Runtime.tally :=
  [("a", Constant.symbol "cells")]

/-- The target of `a[f()] += 1`. -/
def calledCell : Expr :=
  .ofIndex (.ofName "a" (.slice .int)) (.call (.function "f") [] .int {}) .int

/-- The function is called twice, and what one element holds is stored into another. If the element
were found once, there would be one call, and it would be read where it is stored into. -/
theorem element_update_calls_twice :
    ∃ forms, assignForms ⟨⟨[(.ofName "f", ⟨"f", .value⟩)]⟩, .empty⟩ [calledCell] .add
        [.ofLiteral (.int 1)] {} = .ok forms ∧
      ((execForms Runtime.tally 0 forms tallyEnv).after World.tally).calls =
        [(Constant.symbol "f", []), (Constant.symbol "f", [])] ∧
      ((execForms Runtime.tally 0 forms tallyEnv).after World.tally).store.heap.2 =
        [(Constant.symbol "cells", Constant.int 0, Constant.int 1)] ∧
      ((updateFound Runtime.tally tallyEnv (.var "a") (.call "f" []) .add .int (.int 1)).after
        World.tally).calls = [(Constant.symbol "f", [])] ∧
      ((updateFound Runtime.tally tallyEnv (.var "a") (.call "f" []) .add .int (.int 1)).after
        World.tally).store.heap.2 =
          [(Constant.symbol "cells", Constant.int 0, Constant.int 0)] := by
  refine ⟨[.set (.var "a") (.call "f" []) (.op .add .int [.get (.var "a") (.call "f" []), .int 1])],
    ?_, rfl, rfl, rfl, rfl⟩
  rfl

end StackCompiler
