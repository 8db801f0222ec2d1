import StackCompiler.Form.Basic

/-!
The parts of a form: the form itself and, from left to right, all forms inside it. Conditions that
are asked of every part are stated with this list.
-/

namespace StackCompiler

mutual
/-- The form and all forms inside it. -/
def Form.parts : Form → List Form
  | .array elems => .array elems :: listParts elems
  | .sparseArray ctor stores => .sparseArray ctor stores :: (ctor.parts ++ storeParts stores)
  | .block body => .block body :: listParts body
  | .branch cond body els =>
    .branch cond body els :: (cond.parts ++ (listParts body ++ optionParts els))
  | .loop cond body post =>
    .loop cond body post :: (cond.parts ++ (listParts body ++ optionParts post))
  | .ret results => .ret results :: listParts results
  | .bind name init => .bind name init :: init.parts
  | .rebind name value => .rebind name value :: value.parts
  | .op kind family args => .op kind family args :: listParts args
  | .unary kind family arg => .unary kind family arg :: arg.parts
  | .not arg => .not arg :: arg.parts
  | .and left right => .and left right :: (left.parts ++ right.parts)
  | .or left right => .or left right :: (left.parts ++ right.parts)
  | .call name args => .call name args :: listParts args
  | .dynCall callee args => .dynCall callee args :: (callee.parts ++ listParts args)
  | .copy source => .copy source :: source.parts
  | .get source index => .get source index :: (source.parts ++ index.parts)
  | .set target index value =>
    .set target index value :: (target.parts ++ (index.parts ++ value.parts))
  | f => [f]

def listParts : List Form → List Form
  | [] => []
  | f :: fs => f.parts ++ listParts fs

def storeParts : List (Int64 × Form) → List Form
  | [] => []
  | (_, f) :: rest => f.parts ++ storeParts rest

def optionParts : Option Form → List Form
  | none => []
  | some f => f.parts
end

theorem listParts_append (fs gs : List Form) :
    listParts (fs ++ gs) = listParts fs ++ listParts gs := by
  induction fs with
  | nil => rfl
  | cons f fs ih => simp [listParts, ih]

theorem storeParts_eq (stores : List (Int64 × Form)) :
    storeParts stores = listParts (stores.map (·.2)) := by
  induction stores with
  | nil => rfl
  | cons store rest ih => simp [listParts, storeParts, ih]

/-! ### Conditions on all parts -/

/-- Whether a condition holds of a form and of all forms inside it. -/
def Form.Every (φ : Form → Prop) (f : Form) : Prop :=
  ∀ g ∈ f.parts, φ g

def EveryIn (φ : Form → Prop) (fs : List Form) : Prop :=
  ∀ g ∈ listParts fs, φ g

section

variable {φ : Form → Prop} {f left right : Form} {fs gs : List Form}

@[simp] theorem everyIn_nil : EveryIn φ [] :=
  List.forall_mem_nil φ

@[simp] theorem everyIn_cons : EveryIn φ (f :: fs) ↔ f.Every φ ∧ EveryIn φ fs :=
  List.forall_mem_append

@[simp] theorem everyIn_append : EveryIn φ (fs ++ gs) ↔ EveryIn φ fs ∧ EveryIn φ gs := by
  simp [EveryIn, listParts_append, or_imp, forall_and]

namespace Form

-- The list of parts starts with the form itself, so that most cases are a lemma about lists.

theorem Every.of_isAtom (h : f.isAtom = true) (hf : φ f) : f.Every φ := by
  cases f with
  | bool _ | char _ | int _ | float _ | str _ | symbol _ => exact List.forall_mem_singleton.2 hf
  | _ => cases h

@[simp] theorem every_var (name : String) : (var name).Every φ ↔ φ (var name) :=
  List.forall_mem_singleton

@[simp] theorem every_resultRef (index : Nat) :
    (resultRef index).Every φ ↔ φ (resultRef index) :=
  List.forall_mem_singleton

@[simp] theorem every_array : (array fs).Every φ ↔ φ (array fs) ∧ EveryIn φ fs :=
  List.forall_mem_cons

@[simp] theorem every_sparseArray (stores : List (Int64 × Form)) :
    (sparseArray f stores).Every φ ↔
      φ (sparseArray f stores) ∧ f.Every φ ∧ EveryIn φ (stores.map (·.2)) := by
  rw [EveryIn, ← storeParts_eq]
  exact List.forall_mem_cons.trans (and_congr_right fun _ => List.forall_mem_append)

@[simp] theorem every_copy : (copy f).Every φ ↔ φ (copy f) ∧ f.Every φ :=
  List.forall_mem_cons

@[simp] theorem every_get :
    (get left right).Every φ ↔ φ (get left right) ∧ left.Every φ ∧ right.Every φ :=
  List.forall_mem_cons.trans (and_congr_right fun _ => List.forall_mem_append)

@[simp] theorem every_op (kind : OpKind) (family : Family) :
    (op kind family fs).Every φ ↔ φ (op kind family fs) ∧ EveryIn φ fs :=
  List.forall_mem_cons

@[simp] theorem every_unary (kind : UnaryKind) (family : Family) :
    (unary kind family f).Every φ ↔ φ (unary kind family f) ∧ f.Every φ :=
  List.forall_mem_cons

@[simp] theorem every_not : (not f).Every φ ↔ φ (not f) ∧ f.Every φ :=
  List.forall_mem_cons

@[simp] theorem every_and :
    (and left right).Every φ ↔ φ (and left right) ∧ left.Every φ ∧ right.Every φ :=
  List.forall_mem_cons.trans (and_congr_right fun _ => List.forall_mem_append)

@[simp] theorem every_or :
    (or left right).Every φ ↔ φ (or left right) ∧ left.Every φ ∧ right.Every φ :=
  List.forall_mem_cons.trans (and_congr_right fun _ => List.forall_mem_append)

@[simp] theorem every_call (name : String) :
    (call name fs).Every φ ↔ φ (call name fs) ∧ EveryIn φ fs :=
  List.forall_mem_cons

@[simp] theorem every_dynCall :
    (dynCall f fs).Every φ ↔ φ (dynCall f fs) ∧ f.Every φ ∧ EveryIn φ fs :=
  List.forall_mem_cons.trans (and_congr_right fun _ => List.forall_mem_append)

end Form

end

end StackCompiler
