import StackCompiler.Proofs.StaticStack

/-!
Variables in scope. A form that control gets past adds its own binding to the environment, and a
block takes its bindings away again, so what is in scope can be read off the text. Where control
does not get past a form, the bindings made so far are still there.
-/

namespace StackCompiler

/-! ### Scopes -/

def Form.readsOnly (scope : List String) (f : Form) : Bool :=
  f.parts.all fun
    | .var name => scope.contains name
    | _ => true

mutual
/-- Whether every variable that a form reads or sets is in scope there. -/
def Form.isScoped (scope : List String) : Form → Bool
  | .block body => areScoped scope body
  | .branch cond body els => cond.readsOnly scope && areScoped scope body && isScoped? scope els
  | .loop cond body post => cond.readsOnly scope && areScoped scope body && isScoped? scope post
  | .rebind name value => scope.contains name && value.readsOnly scope
  | f => f.readsOnly scope

/-- Whether forms in a row are scoped, each in the scope of the bindings before it. -/
def areScoped (scope : List String) : List Form → Bool
  | [] => true
  | f :: fs => f.isScoped scope && areScoped (f.bound ++ scope) fs

def isScoped? (scope : List String) : Option Form → Bool
  | none => true
  | some f => f.isScoped scope
end

theorem Form.readsOnly_of_part {scope : List String} {f g : Form} (h : f.readsOnly scope = true)
    (hpart : ∀ p ∈ g.parts, p ∈ f.parts) : g.readsOnly scope = true := by
  unfold readsOnly at h ⊢
  rw [List.all_eq_true] at h ⊢
  exact fun p hp => h p (hpart p hp)

theorem Form.isScoped_of_value {scope : List String} {f : Form} (hf : f.isStatement = false) :
    f.isScoped scope = f.readsOnly scope := by
  cases f with
  | block _ | branch _ _ _ | loop _ _ _ | rebind _ _ => cases hf
  | _ => rfl

/-! ### Environments -/

namespace Env

variable {R : Runtime}

def names (env : Env R) : List String :=
  env.map Prod.fst

def values (env : Env R) : List R.Value :=
  env.map Prod.snd

def operands (env : Env R) : Operands R :=
  env.map fun (name, v) => (some name, v)

@[simp] theorem operands_names (env : Env R) :
    Operands.names env.operands = env.names.map some := by
  simp [Operands.names, operands, names]

@[simp] theorem operands_values (env : Env R) : Operands.values env.operands = env.values := by
  simp [Operands.values, operands, values]

@[simp] theorem names_length (env : Env R) : env.names.length = env.length := by
  simp [names]

@[simp] theorem values_length (env : Env R) : env.values.length = env.length := by
  simp [values]

theorem operands_lookup (env : Env R) (name : String) :
    env.operands.lookup (some name) = env.lookup name := by
  induction env with
  | nil => rfl
  | cons entry env ih =>
      obtain ⟨x, v⟩ := entry
      simp only [operands, List.map_cons, List.lookup_cons] at ih ⊢
      by_cases hx : name = x
      · simp [hx]
      · have hne : (name == x) = false := by simpa using hx
        have hne' : (some name == some x) = false := by simpa using hx
        rw [hne, hne']
        exact ih

theorem lookup_of_mem {env : Env R} {name : String} (h : name ∈ env.names) :
    ∃ v, env.lookup name = some v := by
  induction env with
  | nil => simp [names] at h
  | cons entry env ih =>
      obtain ⟨x, v⟩ := entry
      by_cases hx : name = x
      · exact ⟨v, by simp [hx]⟩
      · have hne : (name == x) = false := by simpa using hx
        have hmem : name ∈ names env := by simpa [names, hx] using h
        obtain ⟨u, hu⟩ := ih hmem
        exact ⟨u, by simp [List.lookup_cons, hne, hu]⟩

/-- Setting a variable replaces the value in its slot. -/
theorem update?_of_findIdx? {env : Env R} {name : String} (v : R.Value) {k : Nat}
    (h : (env.names.map some).findIdx? (· == some name) = some k) :
    ∃ env', update? name v env = some env' ∧ env'.names = env.names ∧
      env'.values = env.values.set k v ∧ k < env.length := by
  induction env generalizing k with
  | nil => simp [names] at h
  | cons entry env ih =>
      obtain ⟨x, old⟩ := entry
      simp only [names, List.map_cons] at h ih
      rw [List.findIdx?_cons] at h
      by_cases hx : x = name
      · simp only [hx, beq_self_eq_true, if_true, Option.some.injEq] at h
        subst h
        exact ⟨(x, v) :: env, by simp [update?, hx], rfl, rfl, by simp⟩
      · have hne : (some x == some name) = false := by simpa using hx
        simp only [hne, Bool.false_eq_true, if_false, Option.map_eq_some_iff] at h
        obtain ⟨j, hj, rfl⟩ := h
        obtain ⟨env', hupdate, hnames, hvalues, hlt⟩ := ih hj
        refine ⟨(x, old) :: env', by simp [update?, hx, hupdate], ?_, ?_, by simp [hlt]⟩
        · simp only [names, List.map_cons, hnames]
        · simp only [values, List.map_cons, List.set_cons_succ, List.cons.injEq, true_and]
          exact hvalues

/-- Setting a variable to the value that it has changes nothing. -/
theorem update?_of_lookup {env : Env R} {name : String} {v : R.Value}
    (h : env.lookup name = some v) : update? name v env = some env := by
  induction env with
  | nil => cases h
  | cons entry env ih =>
      obtain ⟨x, old⟩ := entry
      simp only [update?]
      by_cases hx : x = name
      · simp only [List.lookup_cons, hx, beq_self_eq_true, Option.some.injEq] at h
        simp [hx, h]
      · have hne : (name == x) = false := by simpa using Ne.symm hx
        simp only [List.lookup_cons, hne] at h
        simp [hx, ih h]

theorem names_of_update? {env env' : Env R} {name : String} {v : R.Value}
    (h : update? name v env = some env') : env'.names = env.names := by
  induction env generalizing env' with
  | nil => cases h
  | cons entry env ih =>
      obtain ⟨x, old⟩ := entry
      simp only [update?] at h
      split at h
      · cases h
        rfl
      · obtain ⟨tail, htail, rfl⟩ := Option.map_eq_some_iff.1 h
        simp only [names, List.map_cons] at ih ⊢
        rw [ih htail]

end Env

/-! ### Environments after forms -/

section Shape

variable {R : Runtime} {fuel : Nat}

/-- The environment after a form: control that goes on finds exactly the variables that were bound,
and in any case nothing but variables on top is new. -/
def Extends (bound : List String) (env : Env R) : Flow R.Value × Env R → Prop
  | (.next, env') => env'.names = bound ++ env.names
  | (_, env') => ∃ inner, env'.names = inner ++ env.names

theorem Extends.names_suffix {bound : List String} {env : Env R} {r : Flow R.Value × Env R}
    (h : Extends bound env r) : ∃ inner, r.2.names = inner ++ env.names := by
  obtain ⟨flow, env'⟩ := r
  cases flow with
  | next => exact ⟨bound, h⟩
  | _ => exact h

theorem Extends.of_names_eq {bound : List String} {env env' : Env R} {r : Flow R.Value × Env R}
    (h : Extends bound env' r) (hnames : env'.names = env.names) : Extends bound env r := by
  obtain ⟨flow, env''⟩ := r
  cases flow <;> simpa only [Extends, hnames] using h

theorem Env.names_lowest {env inner : Env R} {extra : List String}
    (h : inner.names = extra ++ env.names) :
    Env.names (lowest env.length inner) = env.names := by
  have hlength : inner.length = extra.length + env.length := by
    simpa using congrArg List.length h
  have hdrop : Env.names (lowest env.length inner) = inner.names.drop extra.length := by
    rw [lowest, hlength, Nat.add_sub_cancel, Env.names, List.map_drop]
    rfl
  rw [hdrop, h, List.drop_left]

/-- After a block the variables are the same as before. -/
theorem endBlock_names {env : Env R} {x : Run R (Flow R.Value × Env R)} {bound : List String}
    (hx : ∀ {w r w'}, x w = .ok r w' → Extends bound env r) {w w' : World R}
    {r : Flow R.Value × Env R} (h : endBlock env x w = .ok r w') : r.2.names = env.names := by
  obtain ⟨⟨flow, inner⟩, w₁, hrun, h⟩ := bind_eq_ok.1 h
  cases h
  obtain ⟨extra, hextra⟩ := (hx hrun).names_suffix
  exact Env.names_lowest hextra

theorem Extends.of_names {env : Env R} {r : Flow R.Value × Env R} (h : r.2.names = env.names) :
    Extends [] env r := by
  obtain ⟨flow, env'⟩ := r
  cases flow with
  | next => exact h
  | _ => exact ⟨[], h⟩

/-- What follows the body of a round: what stands after it, and the rounds that are left. -/
def finishRound (post rest : Env R → Run R (Flow R.Value × Env R)) (env : Env R) :
    Run R (Flow R.Value × Env R) := do
  match ← post env with
  | (.next, env) => rest env
  | (.ret v, env) => return (.ret v, env)
  | _ => throw .stuck

/-- Rounds of a loop leave the variables as they are, if the body and what stands after it do. -/
theorem execRounds_extends {test : Env R → Run R R.Value}
    {body post : Env R → Run R (Flow R.Value × Env R)}
    (hbody : ∀ {env w r w'}, body env w = .ok r w' → r.2.names = env.names)
    (hpost : ∀ {env w r w'}, post env w = .ok r w' → Extends [] env r) {rounds : Nat} {env : Env R}
    {w w' : World R} {r : Flow R.Value × Env R}
    (h : execRounds test body post rounds env w = .ok r w') : Extends [] env r := by
  induction rounds generalizing env w with
  | zero => cases h
  | succ rounds ih =>
      obtain ⟨c, w₁, -, h⟩ := bind_eq_ok.1 h
      split at h
      · cases h
        exact .of_names rfl
      · obtain ⟨⟨flow, env₁⟩, w₂, hrun, h⟩ := bind_eq_ok.1 h
        have hnames₁ : env₁.names = env.names := hbody hrun
        -- `continue` and the end of the body go on alike
        have hgoes : finishRound post (execRounds test body post rounds) env₁ w₂ = .ok r w' →
            Extends [] env r := by
          intro h
          obtain ⟨⟨flow, env₂⟩, w₃, hrun, h⟩ := bind_eq_ok.1 h
          have hext₂ := hpost hrun
          cases flow with
          | next => exact (ih h).of_names_eq (hext₂.trans hnames₁)
          | ret v =>
              cases h
              exact hext₂.of_names_eq hnames₁
          | breakLoop => cases h
          | continueLoop => cases h
        cases flow with
        | next => exact hgoes h
        | continueLoop => exact hgoes h
        | breakLoop =>
            cases h
            exact .of_names hnames₁
        | ret v =>
            cases h
            exact .of_names hnames₁

mutual
/-- The environment after a form of a tidy body. -/
theorem execForm_extends (f : Form) (htidy : ∀ g ∈ f.parts, g.isTidy = true) {env : Env R}
    {w w' : World R} {r : Flow R.Value × Env R} (h : execForm R fuel f env w = .ok r w') :
    Extends f.bound env r := by
  cases f with
  | block body =>
      simp only [Form.parts, List.forall_mem_cons] at htidy
      exact .of_names (endBlock_names (fun h => execForms_extends body htidy.2 h) h)
  | branch cond body els =>
      simp only [Form.parts, List.forall_mem_cons, List.forall_mem_append] at htidy
      unfold execForm at h
      obtain ⟨c, w₁, -, h⟩ := bind_eq_ok.1 h
      split at h
      · cases els with
        | none =>
            cases h
            exact .of_names rfl
        | some other =>
            have hext := execForm_extends other htidy.2.2.2 h
            have hbind : other.isBind = false := by simpa [Form.isTidy] using htidy.1
            rwa [Form.bound_of_isBind hbind] at hext
      · exact .of_names (endBlock_names (fun h => execForms_extends body htidy.2.2.1 h) h)
  | loop cond body post =>
      simp only [Form.parts, List.forall_mem_cons, List.forall_mem_append] at htidy
      unfold execForm at h
      refine execRounds_extends (fun hrun => ?_) (fun hrun => ?_) h
      · exact endBlock_names (fun h => execForms_extends body htidy.2.2.1 h) hrun
      · cases post with
        | none =>
            cases hrun
            exact .of_names rfl
        | some after =>
            have hext := execForm_extends after htidy.2.2.2 hrun
            have hbind : after.isBind = false := by simpa [Form.isTidy] using htidy.1
            rwa [Form.bound_of_isBind hbind] at hext
  | ret results =>
      cases results with
      | nil =>
          cases h
          exact .of_names rfl
      | cons first rest =>
          obtain ⟨v, w₁, -, h⟩ := bind_eq_ok.1 h
          obtain ⟨_, w₂, -, h⟩ := bind_eq_ok.1 h
          cases h
          exact .of_names rfl
  | breakLoop =>
      cases h
      exact .of_names rfl
  | continueLoop =>
      cases h
      exact .of_names rfl
  | bind name init =>
      obtain ⟨v, w₁, -, h⟩ := bind_eq_ok.1 h
      cases h
      rfl
  | rebind name value =>
      obtain ⟨v, w₁, -, h⟩ := bind_eq_ok.1 h
      cases hupdate : Env.update? name v env with
      | some env' =>
          rw [hupdate] at h
          cases h
          exact .of_names (Env.names_of_update? hupdate)
      | none =>
          rw [hupdate] at h
          obtain ⟨_, w₂, -, h⟩ := bind_eq_ok.1 h
          cases h
          exact .of_names rfl
  | set target index value =>
      obtain ⟨a, w₁, -, h⟩ := bind_eq_ok.1 h
      obtain ⟨i, w₂, -, h⟩ := bind_eq_ok.1 h
      obtain ⟨v, w₃, -, h⟩ := bind_eq_ok.1 h
      obtain ⟨_, w₄, -, h⟩ := bind_eq_ok.1 h
      cases h
      exact .of_names rfl
  | _ =>
      obtain ⟨v, w₁, -, h⟩ := bind_eq_ok.1 h
      cases h
      exact .of_names rfl

theorem execForms_extends (fs : List Form) (htidy : ∀ g ∈ listParts fs, g.isTidy = true)
    {env : Env R} {w w' : World R} {r : Flow R.Value × Env R}
    (h : execForms R fuel fs env w = .ok r w') : Extends (boundNames fs) env r := by
  cases fs with
  | nil =>
      cases h
      exact .of_names rfl
  | cons f fs =>
      simp only [listParts, List.forall_mem_append] at htidy
      obtain ⟨⟨flow, env₁⟩, w₁, hrun, h⟩ := bind_eq_ok.1 h
      have hext₁ := execForm_extends f htidy.1 hrun
      cases flow with
      | next =>
          have hnames₁ : env₁.names = f.bound ++ env.names := hext₁
          have hext := execForms_extends fs htidy.2 h
          obtain ⟨flow, env₂⟩ := r
          cases flow with
          | next =>
              have hnames₂ : env₂.names = boundNames fs ++ env₁.names := hext
              show env₂.names = (boundNames fs ++ f.bound) ++ env.names
              rw [hnames₂, hnames₁, List.append_assoc]
          | _ =>
              obtain ⟨inner, hinner⟩ := hext
              exact ⟨inner ++ f.bound, by rw [hinner, hnames₁, List.append_assoc]⟩
      | _ =>
          cases h
          exact hext₁
end

end Shape

end StackCompiler
