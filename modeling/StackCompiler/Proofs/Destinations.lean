import StackCompiler.Proofs.NewArrays

/-!
Where an assignment to several targets stores its values, once everything that selects an element
has become a form. The results of a call are stored into destinations whose selection calls nothing
but the functions that code itself brings along.
-/

namespace StackCompiler

open Source

/-- A target whose operands are forms. -/
inductive Destination where
  | blank
  | define (name : String)
  | assign (name : String)
  | element (base index : Form)

namespace Destination

def store (value : Form) : Destination → List Form
  | blank => if value.isPure then [] else [value]
  | define name => [.bind name value]
  | assign name => [.rebind name value]
  | element base index => [.set base index value]

/-- What is evaluated to find the destination. -/
def operands : Destination → List Form
  | element base index => [base, index]
  | _ => []

end Destination

def storesOf : List (Destination × Form) → List Form
  | [] => []
  | (d, value) :: rest => d.store value ++ storesOf rest

def withResults (index : Nat) : List Destination → List (Destination × Form)
  | [] => []
  | d :: ds => (d, .resultRef index) :: withResults (index + 1) ds

def Target.destination (env : Environment) : Target → Lower Destination
  | .blank => .ok .blank
  | .define name => .ok (.define name)
  | .assign name => .ok (.assign name)
  | .element base at' => do
    let b ← Form.ofExpr env base
    let i ← Form.ofExpr env at'
    return .element b i

def destinationsOf (env : Environment) : List Target → Lower (List Destination)
  | [] => .ok []
  | t :: ts => do
    let d ← t.destination env
    let ds ← destinationsOf env ts
    return d :: ds

section

variable {env : Environment} {targets : List Target} {fs : List Form}

theorem Target.store_ok {t : Target} {value : Form} (h : t.store env value = .ok fs) :
    ∃ d, t.destination env = .ok d ∧ fs = d.store value := by
  cases t with
  | blank =>
      cases h
      exact ⟨.blank, rfl, rfl⟩
  | define name =>
      cases h
      exact ⟨.define name, rfl, rfl⟩
  | assign name =>
      cases h
      exact ⟨.assign name, rfl, rfl⟩
  | element base at' =>
      obtain ⟨b, hb, h⟩ := lower_bind_ok h
      obtain ⟨i, hi, h⟩ := lower_bind_ok h
      cases h
      exact ⟨.element b i, by rw [destination, hb, hi]; rfl, rfl⟩

/-- Values are stored one after the other. -/
theorem storeEach_ok {pairs : List (Target × Form)} (h : storeEach env pairs = .ok fs) :
    ∃ ds, destinationsOf env (pairs.map (·.1)) = .ok ds ∧
      fs = storesOf (ds.zip (pairs.map (·.2))) := by
  induction pairs generalizing fs with
  | nil =>
      cases h
      exact ⟨[], rfl, rfl⟩
  | cons pair rest ih =>
      obtain ⟨t, value⟩ := pair
      obtain ⟨first, hfirst, h⟩ := lower_bind_ok h
      obtain ⟨others, hothers, h⟩ := lower_bind_ok h
      cases h
      obtain ⟨d, hd, rfl⟩ := Target.store_ok hfirst
      obtain ⟨ds, hds, rfl⟩ := ih hothers
      exact ⟨d :: ds, by rw [List.map_cons, destinationsOf, hd, hds]; rfl, rfl⟩

theorem length_destinationsOf {ds : List Destination} (h : destinationsOf env targets = .ok ds) :
    ds.length = targets.length := by
  induction targets generalizing ds with
  | nil =>
      cases h
      rfl
  | cons t ts ih =>
      obtain ⟨d, -, h⟩ := lower_bind_ok h
      obtain ⟨others, hothers, h⟩ := lower_bind_ok h
      cases h
      rw [List.length_cons, List.length_cons, ih hothers]

theorem map_fst_resultRefs (index : Nat) (targets : List Target) :
    (resultRefs index targets).map (·.1) = targets := by
  induction targets generalizing index with
  | nil => rfl
  | cons t ts ih => rw [resultRefs, List.map_cons, ih]

theorem zip_resultRefs (index : Nat) {ds : List Destination} (h : ds.length = targets.length) :
    ds.zip ((resultRefs index targets).map (·.2)) = withResults index ds := by
  induction targets generalizing index ds with
  | nil =>
      obtain rfl := List.length_eq_zero_iff.1 h
      rfl
  | cons t ts ih =>
      cases ds with
      | nil => cases h
      | cons d ds =>
          rw [resultRefs, List.map_cons, List.zip_cons_cons, withResults,
            ih (index + 1) (Nat.succ.inj h)]

/-! ### Calls that no source calls for -/

/-- Functions of the host that code calls where the source calls nothing. -/
def Host.introduced : List String :=
  [vector, makeVector, copySequence, eq, bitOr, bitAnd, bitXor, bitNot, stringGreater,
    stringLessEq, stringGreaterEq]

def Form.CallsIntroduced (f : Form) : Prop :=
  ∀ name args, f.application? = some (name, args) → name ∈ Host.introduced

theorem OpKind.mem_introduced {kind : OpKind} {family : Family} {name : String}
    (h : kind.plan? family = some (.host name)) : name ∈ Host.introduced := by
  cases kind <;> cases family <;> cases h <;> decide

theorem Form.callsIntroduced_of_isCall {f : Form} (h : f.isCall = false) : f.CallsIntroduced := by
  intro name args happ
  cases f with
  | call _ _ | dynCall _ _ => cases h
  | array _ | copy _ =>
      cases happ
      decide
  | op kind family args =>
      simp only [application?] at happ
      split at happ
      · rename_i host hplan
        cases happ
        exact OpKind.mem_introduced hplan
      · cases happ
  | unary kind family arg =>
      cases kind <;> cases family <;> cases happ
      decide
  | _ => cases happ

/-- Expressions without calls become forms that call nothing else. -/
theorem callsMeet_introduced :
    CallsMeet env (fun part => part.isCall = false) Form.CallsIntroduced where
  plain _ h := Form.callsIntroduced_of_isCall h
  identity args name _ h := by
    cases h
    decide
  zeros args name _ h := by
    cases h
    decide
  helper e _ _ he hcall _ := by
    rw [he e (Expr.mem_parts_self e)] at hcall
    cases hcall
  named e host passed fs kind he _ hcall _ := by
    have hself := he e (Expr.mem_parts_self e)
    cases e with
    | call _ _ _ _ => cases hself
    | _ => cases hcall
  value e f fs he hcall := by
    have hself := he e (Expr.mem_parts_self e)
    cases e with
    | call _ _ _ _ => cases hself
    | _ => cases hcall

theorem everyIn_operands {t : Target} {d : Destination} (hcall : t.callSpan? = none)
    (h : t.destination env = .ok d) : EveryIn Form.CallsIntroduced d.operands := by
  cases t with
  | element base at' =>
      obtain ⟨b, hb, h⟩ := lower_bind_ok h
      obtain ⟨i, hi, h⟩ := lower_bind_ok h
      cases h
      have hcalls : base.containsCall = false ∧ at'.containsCall = false := by
        simpa [Target.callSpan?] using hcall
      have hmeet : CallsMeet env _ Form.CallsIntroduced := callsMeet_introduced
      simp only [Destination.operands, everyIn_cons, everyIn_nil, and_true]
      exact ⟨hmeet.every_ofExpr base hb (base.isCall_of_mem_parts hcalls.1),
        hmeet.every_ofExpr at' hi (at'.isCall_of_mem_parts hcalls.2)⟩
  | _ =>
      cases h
      exact everyIn_nil

theorem everyIn_operands_of_mem {ds : List Destination}
    (hcalls : ∀ t ∈ targets, t.callSpan? = none) (h : destinationsOf env targets = .ok ds) :
    ∀ d ∈ ds, EveryIn Form.CallsIntroduced d.operands := by
  induction targets generalizing ds with
  | nil =>
      cases h
      simp
  | cons t ts ih =>
      rw [List.forall_mem_cons] at hcalls
      obtain ⟨d, hd, h⟩ := lower_bind_ok h
      obtain ⟨others, hothers, h⟩ := lower_bind_ok h
      cases h
      exact List.forall_mem_cons.2 ⟨everyIn_operands hcalls.1 hd, ih hcalls.2 hothers⟩

/-! ### Destructuring -/

/-- The first result is the value of the call, and the others are read where the call left them. To
find the destinations of these nothing of the source is called. -/
theorem destructure_ok {call : Expr} (h : destructure env targets call = .ok fs)
    (htargets : targets ≠ []) :
    ∃ first rest f, destinationsOf env targets = .ok (first :: rest) ∧
      Form.ofExpr env call = .ok f ∧ fs = storesOf ((first, f) :: withResults 1 rest) ∧
      ∀ d ∈ rest, EveryIn Form.CallsIntroduced d.operands := by
  unfold destructure at h
  split at h
  · exact absurd rfl htargets
  · rename_i t ts
    split at h
    · cases h
    · rename_i hcalls
      obtain ⟨f, hf, h⟩ := lower_bind_ok h
      obtain ⟨ds, hds, rfl⟩ := storeEach_ok h
      rw [List.map_cons, map_fst_resultRefs] at hds
      obtain ⟨first, hfirst, hds⟩ := lower_bind_ok hds
      obtain ⟨rest, hrest, hds⟩ := lower_bind_ok hds
      cases hds
      refine ⟨first, rest, f, by rw [destinationsOf, hfirst, hrest]; rfl, hf, ?_,
        everyIn_operands_of_mem (List.findSome?_eq_none_iff.1 hcalls) hrest⟩
      rw [List.map_cons, List.zip_cons_cons, zip_resultRefs 1 (length_destinationsOf hrest)]

/-- The forms of a statement that stores the results of one call into several targets: an assignment
without an operator, or names that are declared together. -/
inductive Destructures (env : Environment) : List Target → Expr → List Form → Prop where
  | assign {lhs : List Expr} {op : AssignOp} {call : Expr} {span : Span} {targets : List Target}
      {fs : List Form} (hop : op.binary? = none) (htargets : targetsOf lhs = .ok targets)
      (hcount : 2 ≤ targets.length) (hforms : assignForms env lhs op [call] span = .ok fs) :
      Destructures env targets call fs
  | declare {spec : ValueSpec} {call : Expr} {fs : List Form} (hvalues : spec.values = [call])
      (hcount : 2 ≤ spec.names.length) (hforms : specForms env spec = .ok fs) :
      Destructures env (spec.names.map Target.ofName) call fs

theorem assignValues_several {call : Expr} {span : Span} (hcount : 2 ≤ targets.length)
    (h : assignValues env targets [call] span = .ok fs) :
    destructure env targets call = .ok fs ∧ call.isCall = true := by
  have hlength : targets.length ≠ [call].length := by
    rw [List.length_singleton]
    omega
  rw [assignValues, if_neg hlength] at h
  split at h
  · rename_i hcall
    split at h
    · exact ⟨h, hcall⟩
    · cases h
  · cases h

theorem Destructures.destructure {call : Expr} (h : Destructures env targets call fs) :
    StackCompiler.destructure env targets call = .ok fs ∧ call.isCall = true ∧ targets ≠ [] := by
  have hne : ∀ {ts : List Target}, 2 ≤ ts.length → ts ≠ [] := by
    rintro _ hcount rfl
    simp at hcount
  cases h with
  | assign hop htargets hcount hforms =>
      unfold assignForms at hforms
      obtain ⟨ts, hts, hforms⟩ := lower_bind_ok hforms
      rw [htargets] at hts
      cases hts
      rw [hop] at hforms
      obtain ⟨hforms, hcall⟩ := assignValues_several hcount hforms
      exact ⟨hforms, hcall, hne hcount⟩
  | @declare spec _ _ hvalues hcount hforms =>
      have hlength : 2 ≤ (spec.names.map Target.ofName).length := by rwa [List.length_map]
      unfold specForms at hforms
      rw [hvalues] at hforms
      obtain ⟨hforms, hcall⟩ := assignValues_several hlength hforms
      exact ⟨hforms, hcall, hne hlength⟩

/-- Whether a call only marks a value as one of a kind or makes a symbol. -/
def Source.Expr.isTransparent : Expr → Bool
  | .call (.intrinsic name) _ _ _ =>
    Intrinsic.ofName? name == some .wrap || Intrinsic.ofName? name == some .intern
  | _ => false

/-- Any other call becomes a call of a function by its name. -/
theorem application?_of_isCall {call : Expr} {f : Form} (hcall : call.isCall = true)
    (hinvokes : call.isTransparent = false) (hf : Form.ofExpr env call = .ok f) :
    ∃ name args, f.application? = some (name, args) := by
  cases call with
  | call callee args kind span =>
      cases ofExpr_call hf with
      | function _ _ _ | dynCall _ _ _ _ _ | named _ _ _ _ _ | bound _ _ _ _ =>
          exact ⟨_, _, rfl⟩
      | wrap hcallee hname _ _ | symbol hcallee hname _ _ | intern hcallee hname _ _ =>
          simp [Expr.isTransparent, hcallee, hname] at hinvokes
  | method receiver name args kind span =>
      obtain ⟨host, g, -, -, -, rfl⟩ := ofExpr_method hf
      exact ⟨_, _, rfl⟩
  | _ => cases hcall

end

end StackCompiler
