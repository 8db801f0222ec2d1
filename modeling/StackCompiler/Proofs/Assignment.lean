import StackCompiler.Proofs.Destructuring
import StackCompiler.Proofs.Temporaries

/-!
Assignments to several targets. Each element is found when its turn comes, after the stores into the
targets before it. `assignForms_together` says what follows: as long as no store of the statement
changes what a later element is found by, everything is as if all targets had been found before the
first store; otherwise another element may be stored into, as `assignForms_finds_late` shows.
-/

namespace StackCompiler

open Source

/-! ### Assignments -/

/-- Where the values of an assignment come from: a form for each destination, or the results of one
call. -/
inductive Supply where
  | values (fs : List Form)
  | results (call : Form)

inductive Supplied (env : Environment) : Nat → List Expr → Supply → Prop where
  | values {count : Nat} {es : List Expr} {fs : List Form} (hcount : count = es.length)
      (h : Form.ofStoredList env es = .ok fs) : Supplied env count es (.values fs)
  | results {count : Nat} {call : Expr} {f : Form} (hcount : count ≠ 1)
      (h : Form.ofExpr env call = .ok f) : Supplied env count [call] (.results f)

namespace Supply

def pairs : Supply → List Destination → List (Destination × Form)
  | values fs, ds => ds.zip fs
  | results _, [] => []
  | results call, first :: rest => (first, call) :: withResults 1 rest

/-- An assignment that stores in a given way. Values are evaluated before anything else, the results
of a call when they are asked for. -/
def assign (R : Runtime) (ρ : Env R) (ds : List Destination)
    (store : List (Delivery R) → Run R (Env R)) : Supply → Run R (Env R)
  | values fs => do
    let needed := (pairs (values fs) ds).filter isNeeded
    let vs ← evalValues R ρ (needed.map (·.2))
    store ((needed.map (·.1)).zip (vs.map pure))
  | results call => store (deliveriesOf R ρ (pairs (results call) ds))

/-- Whether the results of a call stay where they are while they are stored, and there is a place
for each. -/
def IsKept (R : Runtime) (count : Nat) : Supply → Prop
  | values _ => True
  | results _ => count ≤ Host.resultVars.length + 1 ∧
      ∀ a i v, Action.SparesResults (R.arraySet a i v)

end Supply

def sourceNames : Scope := fun name => !isReserved name

def Target.isPlain (t : Target) : Bool :=
  t.isScoped sourceNames && t.defined.all sourceNames

def SameVariables {R : Runtime} (r : Flow R.Value × Env R) (σ : Env R) : Prop :=
  r.1 = .next ∧ r.2.plain = σ.plain

section

variable {env : Environment} {targets : List Target} {ds : List Destination} {f : Form}
  {fs : List Form}

theorem every_isPlain_of_isOperand (h : f.isOperand sourceNames = true) : f.Every Form.IsPlain := by
  rintro g hg name rfl
  have hsound := List.all_eq_true.1 h _ hg
  simpa [Form.isSound, sourceNames] using hsound

theorem Target.isPlain_destination {t : Target} {d : Destination} (hplain : t.isPlain = true)
    (h : t.destination env = .ok d) : d.IsPlain := by
  simp only [isPlain, Bool.and_eq_true] at hplain
  cases t with
  | blank =>
      cases h
      exact ⟨by simp [Destination.names], by simp [Destination.operands]⟩
  | define name =>
      cases h
      refine ⟨?_, by simp [Destination.operands]⟩
      simpa [Destination.names, defined, sourceNames] using hplain.2
  | assign name =>
      cases h
      refine ⟨?_, by simp [Destination.operands]⟩
      simpa [Destination.names, isScoped, sourceNames] using hplain.1
  | element base at' =>
      obtain ⟨b, hb, h⟩ := lower_bind_ok h
      obtain ⟨i, hi, h⟩ := lower_bind_ok h
      cases h
      simp only [isScoped, Bool.and_eq_true] at hplain
      refine ⟨by simp [Destination.names], ?_⟩
      simp only [Destination.operands, List.forall_mem_cons, List.not_mem_nil, false_imp_iff,
        implies_true, and_true]
      exact ⟨every_isPlain_of_isOperand (isOperand_ofExpr base hb hplain.1.1),
        every_isPlain_of_isOperand (isOperand_ofExpr at' hi hplain.1.2)⟩

theorem isPlain_destinationsOf (hplain : ∀ t ∈ targets, t.isPlain = true)
    (h : destinationsOf env targets = .ok ds) : ∀ d ∈ ds, d.IsPlain := by
  induction targets generalizing ds with
  | nil =>
      cases h
      simp
  | cons t ts ih =>
      rw [List.forall_mem_cons] at hplain
      obtain ⟨d, hd, h⟩ := lower_bind_ok h
      obtain ⟨others, hothers, h⟩ := lower_bind_ok h
      cases h
      exact List.forall_mem_cons.2 ⟨Target.isPlain_destination hplain.1 hd, ih hplain.2 hothers⟩

theorem isDefine_destinationsOf (hdefine : targets.any Target.isDefine = false)
    (h : destinationsOf env targets = .ok ds) : ∀ d ∈ ds, ∀ name, d ≠ .define name := by
  induction targets generalizing ds with
  | nil =>
      cases h
      simp
  | cons t ts ih =>
      rw [List.any_cons, Bool.or_eq_false_iff] at hdefine
      obtain ⟨d, hd, h⟩ := lower_bind_ok h
      obtain ⟨others, hothers, h⟩ := lower_bind_ok h
      cases h
      refine List.forall_mem_cons.2 ⟨fun name hname => ?_, ih hdefine.2 hothers⟩
      subst hname
      cases t with
      | define _ => cases hdefine.1
      | blank | assign _ => cases hd
      | element base at' =>
          obtain ⟨b, -, hd⟩ := lower_bind_ok hd
          obtain ⟨i, -, hd⟩ := lower_bind_ok hd
          cases hd

end

section

variable {R : Runtime} {fuel : Nat} {ρ : Env R} {ds : List Destination} {fs : List Form}

theorem mem_withResults {index : Nat} {pair : Destination × Form}
    (h : pair ∈ withResults index ds) :
    pair.1 ∈ ds ∧ ∃ k, index ≤ k ∧ k < index + ds.length ∧ pair.2 = .resultRef k := by
  induction ds generalizing index with
  | nil => cases h
  | cons d ds ih =>
      obtain rfl | h := List.mem_cons.1 h
      · exact ⟨List.mem_cons_self, index, Nat.le_refl _, by simp, rfl⟩
      · obtain ⟨hmem, k, hle, hlt, hvalue⟩ := ih h
        refine ⟨List.mem_cons_of_mem _ hmem, k, Nat.le_of_succ_le hle, ?_, hvalue⟩
        rw [List.length_cons]
        omega

theorem exists_evalValue_of_isAtom {f : Form} (h : f.isAtom = true) :
    ∃ v, evalValue R ρ f = pure v := by
  cases f with
  | bool _ | char _ | int _ | float _ | str _ | symbol _ => exact ⟨_, rfl⟩
  | _ => cases h

theorem evalValues_of_isAtom {pairs : List (Destination × Form)}
    (h : ∀ pair ∈ pairs, pair.2.isAtom = true) :
    ∃ vs, evalValues R ρ (pairs.map (·.2)) = pure vs ∧
      pairs.map (fun pair => (pair.1, evalValue R ρ pair.2)) =
        (pairs.map (·.1)).zip (vs.map pure) := by
  induction pairs with
  | nil => exact ⟨[], rfl, rfl⟩
  | cons pair rest ih =>
      rw [List.forall_mem_cons] at h
      obtain ⟨v, hv⟩ := exists_evalValue_of_isAtom (ρ := ρ) h.1
      obtain ⟨vs, hvs, hrest⟩ := ih h.2
      refine ⟨v :: vs, ?_, ?_⟩
      · simp only [List.map_cons, evalValues, hv, hvs, pure_bind]
      · rw [List.map_cons, hrest, hv]
        rfl

/-- Literals need no temporaries. -/
theorem execForms_atoms (hplain : ∀ d ∈ ds, d.IsPlain) (hatoms : ∀ f ∈ fs, f.isAtom = true) :
    Run.Alike SameVariables (execForms R fuel (storesOf (ds.zip fs)) ρ)
      ((Supply.values fs).assign R ρ ds (storeInTurn R ρ)) := by
  have hatom : ∀ pair ∈ ds.zip fs, pair.2.isAtom = true :=
    fun pair hpair => hatoms pair.2 (List.of_mem_zip hpair).2
  have hneeded : ∀ pair ∈ (ds.zip fs).filter isNeeded, pair.2.isAtom = true :=
    fun pair hpair => hatom pair (List.mem_filter.1 hpair).1
  obtain ⟨vs, hvs, hdeliveries⟩ := evalValues_of_isAtom (R := R) (ρ := ρ) hneeded
  have hassign : (Supply.values fs).assign R ρ ds (storeInTurn R ρ) =
      storeInTurn R ρ (deliveriesOf R ρ (ds.zip fs)) := by
    simp only [Supply.assign, Supply.pairs, hvs, pure_bind, deliveriesOf, hdeliveries]
  rw [hassign]
  refine (execForms_storesOf rfl (fun pair hpair => hplain pair.1 (List.of_mem_zip hpair).1)
    (fun pair hpair => ?_) fun pair hpair => ?_).mono fun r σ h => ⟨h.flow, h.plain⟩
  · have hpair := hatom pair hpair
    cases hf : pair.2 with
    | bool _ | char _ | int _ | float _ | str _ | symbol _ => rfl
    | _ =>
        rw [hf] at hpair
        cases hpair
  · have hpair := hatom pair (List.mem_of_mem_tail hpair)
    refine Form.Every.of_isAtom hpair fun name hname => ?_
    rw [hname] at hpair
    cases hpair

theorem execForms_temporaries (hplain : ∀ d ∈ ds, d.IsPlain)
    (hvalues : ∀ f ∈ fs, f.Every Form.IsPlain) :
    Run.Alike (fun r σ => SameVariables r σ ∧
        ((∀ d ∈ ds, ∀ name, d ≠ .define name) → ∃ top, r.2.names = top ++ ρ.names ∧
          ∀ name ∈ top, isReserved name = true))
      (execForms R fuel (bindsOf (numbered 0 (ds.zip fs)) ++
        storesOf (fromTemporaries (numbered 0 (ds.zip fs)))) ρ)
      ((Supply.values fs).assign R ρ ds (storeInTurn R ρ)) := by
  have hentries : ∀ entry ∈ numbered 0 (ds.zip fs), entry.2.1 ∈ ds ∧ entry.2.2 ∈ fs := by
    intro entry hentry
    have hmem := List.mem_map_of_mem (f := (·.2)) hentry
    rw [map_numbered] at hmem
    exact List.of_mem_zip (List.mem_filter.1 hmem).1
  have hneeded : (ds.zip fs).filter isNeeded = (numbered 0 (ds.zip fs)).map (·.2) :=
    (map_numbered 0 _).symm
  rw [execForms_append]
  simp only [Supply.assign, Supply.pairs, hneeded, List.map_map, Function.comp_def]
  refine (execForms_bindsOf rfl (fun entry hentry => hvalues _ (hentries entry hentry).2)
    (numbered_pairwise 0 _)).bind fun {r vs _ _} _ hbinds => ?_
  obtain ⟨flow, ρ₁⟩ := r
  obtain rfl : flow = .next := hbinds.flow
  rw [← storeInTurn_fromTemporaries hbinds.held]
  have hpairs : ∀ pair ∈ fromTemporaries (numbered 0 (ds.zip fs)),
      pair.1 ∈ ds ∧ ∃ position, pair.2 = .var (temporary position) := by
    intro pair hpair
    obtain ⟨entry, hentry, rfl⟩ := List.mem_map.1 hpair
    exact ⟨(hentries entry hentry).1, entry.1, rfl⟩
  refine (execForms_storesOf hbinds.plain (fun pair hpair => hplain _ (hpairs pair hpair).1)
    (fun pair hpair => ?_) fun pair hpair => ?_).mono fun r σ h => ⟨⟨h.flow, h.plain⟩, ?_⟩
  · obtain ⟨-, position, hvalue⟩ := hpairs pair hpair
    rw [hvalue]
    rfl
  · obtain ⟨-, position, hvalue⟩ := hpairs pair (List.mem_of_mem_tail hpair)
    rw [hvalue, Form.every_var]
    rintro name hname
    cases hname
    exact isReserved_temporary position
  · intro hdefine
    obtain ⟨top, hnames, htop⟩ := hbinds.names
    refine ⟨top, ?_, htop⟩
    rw [h.names fun d hd => ?_, hnames]
    obtain ⟨pair, hpair, rfl⟩ := List.mem_map.1 hd
    exact hdefine _ (hpairs pair hpair).1

theorem execForms_results {first : Destination} {rest : List Destination} {f : Form}
    (hplain : ∀ d ∈ first :: rest, d.IsPlain) (hf : f.isStatement = false) :
    Run.Alike SameVariables (execForms R fuel (storesOf ((first, f) :: withResults 1 rest)) ρ)
      ((Supply.results f).assign R ρ (first :: rest) (storeInTurn R ρ)) := by
  rw [List.forall_mem_cons] at hplain
  refine (execForms_storesOf rfl (List.forall_mem_cons.2 ⟨hplain.1, fun pair hpair => ?_⟩)
    (List.forall_mem_cons.2 ⟨hf, fun pair hpair => ?_⟩) fun pair hpair => ?_).mono
    fun r σ h => ⟨h.flow, h.plain⟩
  · exact hplain.2 _ (mem_withResults hpair).1
  · obtain ⟨-, index, -, -, hvalue⟩ := mem_withResults hpair
    rw [hvalue]
    rfl
  · obtain ⟨-, index, -, -, hvalue⟩ := mem_withResults hpair
    rw [hvalue, Form.every_resultRef]
    rintro name hname
    cases hname

theorem Env.plain_lowest {inner : Env R} {top : List String} (hnames : inner.names = top ++ ρ.names)
    (htop : ∀ name ∈ top, isReserved name = true) :
    Env.plain (lowest ρ.length inner) = inner.plain := by
  have hlength : inner.length = top.length + ρ.length := by
    simpa using congrArg List.length hnames
  have hlowest : lowest ρ.length inner = inner.drop top.length := by
    rw [lowest, hlength, Nat.add_sub_cancel]
  have htake : Env.plain (inner.take top.length) = [] := by
    refine List.filter_eq_nil_iff.2 fun entry hentry => ?_
    have hname : entry.1 ∈ Env.names (inner.take top.length) := List.mem_map_of_mem hentry
    have htaken : Env.names (inner.take top.length) = top := by
      rw [Env.names, List.map_take]
      exact (congrArg (List.take top.length) hnames).trans List.take_left
    rw [htaken] at hname
    simp [htop _ hname]
  rw [hlowest]
  calc Env.plain (inner.drop top.length)
      = Env.plain (inner.take top.length) ++ Env.plain (inner.drop top.length) := by
        rw [htake, List.nil_append]
    _ = inner.plain := by
        simp only [plain, ← List.filter_append, List.take_append_drop]

/-- Temporaries that end with the statement. -/
theorem execForms_block (hplain : ∀ d ∈ ds, d.IsPlain) (hvalues : ∀ f ∈ fs, f.Every Form.IsPlain)
    (hdefine : ∀ d ∈ ds, ∀ name, d ≠ .define name) :
    Run.Alike SameVariables
      (execForms R fuel [.block (bindsOf (numbered 0 (ds.zip fs)) ++
        storesOf (fromTemporaries (numbered 0 (ds.zip fs))))] ρ)
      ((Supply.values fs).assign R ρ ds (storeInTurn R ρ)) := by
  simp only [execForms, execForm, endBlock, bind_assoc]
  rw [← bind_pure ((Supply.values fs).assign R ρ ds (storeInTurn R ρ))]
  refine (execForms_temporaries hplain hvalues).bind fun {r σ _ _} _ h => ?_
  obtain ⟨⟨hflow, hsame⟩, hnames⟩ := h
  obtain ⟨flow, inner⟩ := r
  obtain rfl : flow = .next := hflow
  obtain ⟨top, hnames, htop⟩ := hnames hdefine
  refine .pure ⟨rfl, ?_⟩
  rw [← hsame]
  exact Env.plain_lowest hnames htop

/-! ### Stores that miss later destinations -/

def SameResults (w w' : World R) : Prop :=
  ∀ var ∈ Host.resultVars, w'.store.vars var = w.store.vars var

theorem steady_resultRef {index : Nat} (hpos : 1 ≤ index) (hle : index ≤ Host.resultVars.length) :
    (evalValue R ρ (.resultRef index)).Steady SameResults := by
  obtain ⟨k, rfl⟩ := Nat.exists_eq_add_of_le' hpos
  have hvar : Host.resultVar? (k + 1) = some Host.resultVars[k] := List.getElem?_eq_getElem hle
  intro w
  refine ⟨w.store.vars Host.resultVars[k], fun w' hw => ?_⟩
  simp only [evalValue, hvar, Run.readVar, hw _ (List.getElem_mem hle)]

theorem Destination.sameResults_put {d : Destination} (hplain : d.IsPlain)
    (hset : ∀ a i v, Action.SparesResults (R.arraySet a i v)) {p : Place R} {w₁ w₂ : World R}
    (hp : d.place R ρ w₁ = .ok p w₂) (v : R.Value) (σ : Env R) (w : World R) :
    SameResults w ((p.put v σ).after w) := by
  cases d with
  | blank | define _ =>
      cases hp
      exact fun _ _ => rfl
  | assign name =>
      cases hp
      simp only [Place.put]
      cases σ.update? name v with
      | some σ' => exact fun _ _ => rfl
      | none =>
          intro var hvar
          have hname := hplain.names name (by simp [names])
          have hne : var ≠ name := by
            rintro rfl
            simp [isReserved, hvar] at hname
          exact if_neg hne
  | element base index =>
      obtain ⟨a, _, -, hp⟩ := bind_eq_ok.1 hp
      obtain ⟨i, _, -, hp⟩ := bind_eq_ok.1 hp
      cases hp
      intro var hvar
      rw [Place.put, Run.after_map]
      exact Run.results_primitive (hset a i v) w var hvar

theorem sublist_map_fst_zip {α β : Type} (l : List α) (l' : List β) :
    ((l.zip l').map Prod.fst).Sublist l := by
  induction l generalizing l' with
  | nil => exact .refl _
  | cons a l ih =>
      cases l' with
      | nil => exact List.nil_sublist _
      | cons b l' => exact (ih l').cons_cons a

theorem map_fst_withResults (index : Nat) (ds : List Destination) :
    (withResults index ds).map (·.1) = ds := by
  induction ds generalizing index with
  | nil => rfl
  | cons d ds ih => rw [withResults, List.map_cons, ih]

theorem Supply.sublist_pairs (supply : Supply) (ds : List Destination) :
    ((supply.pairs ds).map (·.1)).Sublist ds := by
  cases supply with
  | values fs => exact sublist_map_fst_zip ds fs
  | results call =>
      cases ds with
      | nil => exact .slnil
      | cons first rest =>
          rw [pairs, List.map_cons, map_fst_withResults]

theorem mem_deliveriesOf_of_mem_tail {pair : Destination × Form}
    {rest : List (Destination × Form)} {delivery : Delivery R}
    (h : delivery ∈ (deliveriesOf R ρ (pair :: rest)).tail) :
    delivery ∈ deliveriesOf R ρ rest := by
  rw [deliveriesOf, List.filter_cons] at h
  split at h
  · exact h
  · exact List.mem_of_mem_tail h

/-- Where every store misses the later destinations, an assignment finds all of them as if it had
not stored anything yet. -/
theorem Supply.assign_eq_of_misses {supply : Supply} (hplain : ∀ d ∈ ds, d.IsPlain)
    (hmisses : ds.Pairwise (Destination.Misses R ρ)) (hkept : supply.IsKept R ds.length) :
    supply.assign R ρ ds (storeInTurn R ρ) = supply.assign R ρ ds (storeTogether R ρ) := by
  have hneeded : (((supply.pairs ds).filter isNeeded).map (·.1)).Sublist ds :=
    (List.filter_sublist.map _).trans (supply.sublist_pairs ds)
  cases supply with
  | values fs =>
      simp only [assign]
      refine bind_congr fun vs => ?_
      refine storeInTurn_eq_storeTogether (K := fun _ _ => True) (fun _ => trivial) ?_ ?_ ?_
      · rw [← List.pairwise_map (f := Prod.fst)]
        exact hmisses.sublist ((sublist_map_fst_zip _ _).trans hneeded)
      · intro delivery hdelivery
        have hvalue := (List.of_mem_zip (List.mem_of_mem_tail hdelivery)).2
        obtain ⟨v, -, hv⟩ := List.mem_map.1 hvalue
        rw [← hv]
        exact .pure v
      · exact fun _ _ _ _ _ _ _ _ _ _ => trivial
  | results call =>
      refine storeInTurn_eq_storeTogether (K := SameResults) (fun _ _ _ => rfl) ?_ ?_ ?_
      · rw [← List.pairwise_map (f := Prod.fst), deliveriesOf, List.map_map]
        exact hmisses.sublist hneeded
      · intro delivery hdelivery
        cases ds with
        | nil => cases hdelivery
        | cons first rest =>
            obtain ⟨pair, hpair, rfl⟩ := List.mem_map.1 (mem_deliveriesOf_of_mem_tail hdelivery)
            obtain ⟨-, k, hpos, hlt, hvalue⟩ := mem_withResults (List.mem_filter.1 hpair).1
            have hcount := hkept.1
            rw [List.length_cons] at hcount
            show (evalValue R ρ pair.2).Steady SameResults
            rw [hvalue]
            exact steady_resultRef hpos (by omega)
      · intro delivery hdelivery σ p w₁ w₂ hp
        obtain ⟨pair, hpair, rfl⟩ := List.mem_map.1 hdelivery
        have hmem := hneeded.subset (List.mem_map_of_mem hpair)
        exact Destination.sameResults_put (hplain _ hmem) hkept.2 hp

end

section

variable {env : Environment} {targets : List Target} {rhs : List Expr} {forms : List Form}

/-- The forms of an assignment with one value for each target. -/
theorem assignPairwise_inTurn (h : assignPairwise env targets rhs = .ok forms)
    (hlength : targets.length = rhs.length) (hcount : 2 ≤ targets.length)
    (hstores : targets.any (!·.isBlank) = true) (htargets : ∀ t ∈ targets, t.isPlain = true)
    (hvalues : Expr.areScoped sourceNames rhs = true) :
    ∃ ds fs, destinationsOf env targets = .ok ds ∧ Form.ofStoredList env rhs = .ok fs ∧
      ∀ (R : Runtime) (fuel : Nat) (ρ : Env R),
        Run.Alike SameVariables (execForms R fuel forms ρ)
          ((Supply.values fs).assign R ρ ds (storeInTurn R ρ)) := by
  obtain ⟨fs, hfs, h⟩ := lower_bind_ok h
  have hzip : targets.length = fs.length := by rw [hlength, length_ofStoredList hfs]
  have hfst : (targets.zip fs).map (·.1) = targets := List.map_fst_zip hzip.le
  have hsnd : (targets.zip fs).map (·.2) = fs := List.map_snd_zip hzip.ge
  have hoperands := areOperands_ofStoredList rhs hfs hvalues
  split at h
  · obtain ⟨⟨binds, stores⟩, hthrough, h⟩ := lower_bind_ok h
    obtain ⟨ds, hds, rfl, rfl⟩ := storeThroughTemporaries_ok hthrough
    rw [hfst] at hds
    rw [hsnd] at h
    have hplain := isPlain_destinationsOf htargets hds
    have hreads : ∀ f ∈ fs, f.Every Form.IsPlain :=
      fun f hf => every_isPlain_of_isOperand (isOperand_of_mem hoperands hf)
    refine ⟨ds, fs, hds, hfs, fun R fuel ρ => ?_⟩
    cases h
    split
    · exact (execForms_temporaries hplain hreads).mono fun r σ h => h.1
    · rename_i hdefine
      exact execForms_block hplain hreads
        (isDefine_destinationsOf (Bool.eq_false_iff.2 hdefine) hds)
  · rename_i htemporaries
    obtain ⟨ds, hds, rfl⟩ := storeEach_ok h
    rw [hfst] at hds
    rw [hsnd]
    refine ⟨ds, fs, hds, hfs, fun R fuel ρ => ?_⟩
    refine execForms_atoms (isPlain_destinationsOf htargets hds) ?_
    have hatoms : fs.all Form.isAtom = true := by
      simpa [needsTemporaries, hstores, Nat.lt_of_succ_le hcount] using htemporaries
    exact List.all_eq_true.1 hatoms

/-- The forms of an assignment of the results of a call. -/
theorem destructure_inTurn {call : Expr} (h : destructure env targets call = .ok forms)
    (hcount : targets ≠ []) (htargets : ∀ t ∈ targets, t.isPlain = true) :
    ∃ ds f, destinationsOf env targets = .ok ds ∧ Form.ofExpr env call = .ok f ∧
      ∀ (R : Runtime) (fuel : Nat) (ρ : Env R),
        Run.Alike SameVariables (execForms R fuel forms ρ)
          ((Supply.results f).assign R ρ ds (storeInTurn R ρ)) := by
  obtain ⟨first, rest, f, hds, hf, rfl, -⟩ := destructure_ok h hcount
  refine ⟨first :: rest, f, hds, hf, fun R fuel ρ => ?_⟩
  exact execForms_results (isPlain_destinationsOf htargets hds)
    (isStatement_of_isOperand (isOperand_everything hf))

theorem destructure_of_assignValues {span : Span} (hlength : targets.length ≠ rhs.length)
    (h : assignValues env targets rhs span = .ok forms) :
    ∃ call, rhs = [call] ∧ destructure env targets call = .ok forms := by
  unfold assignValues at h
  rw [if_neg hlength] at h
  split at h
  · rename_i call
    split at h
    · split at h
      · exact ⟨call, rfl, h⟩
      · cases h
    · cases h
  · cases h

/-- What an assignment to several targets does. Targets are found and stored into in turn; where no
store changes what a later target is found by, this is the same as to find all targets before the
first store. -/
theorem assignForms_together {lhs : List Expr} {op : AssignOp} {span : Span}
    (hop : op.binary? = none) (htargets : targetsOf lhs = .ok targets)
    (hcount : 2 ≤ targets.length) (helement : ∃ base at', .element base at' ∈ targets)
    (hforms : assignForms env lhs op rhs span = .ok forms)
    (hplain : ∀ t ∈ targets, t.isPlain = true) (hvalues : Expr.areScoped sourceNames rhs = true) :
    ∃ ds supply, destinationsOf env targets = .ok ds ∧ Supplied env targets.length rhs supply ∧
      ∀ (R : Runtime) (fuel : Nat) (ρ : Env R),
        Run.Alike SameVariables (execForms R fuel forms ρ)
          (supply.assign R ρ ds (storeInTurn R ρ)) ∧
        (ds.Pairwise (Destination.Misses R ρ) → supply.IsKept R ds.length →
          Run.Alike SameVariables (execForms R fuel forms ρ)
            (supply.assign R ρ ds (storeTogether R ρ))) := by
  obtain ⟨ds, supply, hds, hsupplied, hinTurn⟩ : ∃ ds supply, destinationsOf env targets = .ok ds ∧
      Supplied env targets.length rhs supply ∧ ∀ (R : Runtime) (fuel : Nat) (ρ : Env R),
        Run.Alike SameVariables (execForms R fuel forms ρ)
          (supply.assign R ρ ds (storeInTurn R ρ)) := by
    obtain ⟨ts, hts, hforms⟩ := lower_bind_ok hforms
    rw [htargets] at hts
    cases hts
    have hassign : assignValues env targets rhs span = .ok forms := by
      simpa only [hop] using hforms
    have hstores : targets.any (!·.isBlank) = true := by
      obtain ⟨base, at', hmem⟩ := helement
      exact List.any_eq_true.2 ⟨_, hmem, rfl⟩
    by_cases hlength : targets.length = rhs.length
    · unfold assignValues at hassign
      rw [if_pos hlength] at hassign
      obtain ⟨ds, fs, hds, hfs, hinTurn⟩ :=
        assignPairwise_inTurn hassign hlength hcount hstores hplain hvalues
      exact ⟨ds, .values fs, hds, Supplied.values hlength hfs, hinTurn⟩
    · obtain ⟨call, rfl, hcall⟩ := destructure_of_assignValues hlength hassign
      have hne : targets ≠ [] := by
        rintro rfl
        simp at hcount
      obtain ⟨ds, f, hds, hf, hinTurn⟩ := destructure_inTurn hcall hne hplain
      exact ⟨ds, .results f, hds, .results (by omega) hf, hinTurn⟩
  refine ⟨ds, supply, hds, hsupplied, fun R fuel ρ => ⟨hinTurn R fuel ρ, fun hmisses hkept => ?_⟩⟩
  rw [← Supply.assign_eq_of_misses (isPlain_destinationsOf hplain hds) hmisses hkept]
  exact hinTurn R fuel ρ

end

def cellsEnv : Env Runtime.ledger :=
  [("a", Constant.symbol "cells"), ("i", Constant.int 0), ("j", Constant.int 1)]

def cellAt (name : String) : Expr :=
  .ofIndex (.ofName "a" (.slice .int)) (.ofName name .int) .int

theorem assignForms_together_swap :
    ∃ forms, assignForms {} [cellAt "i", cellAt "j"] .assign [cellAt "j", cellAt "i"] {} =
        .ok forms ∧
      ((execForms Runtime.ledger 0 forms cellsEnv).after World.ledger).store.heap =
        [(Constant.symbol "cells", Constant.int 0, Constant.int 1),
          (Constant.symbol "cells", Constant.int 1, Constant.int 0)] := by
  have hforms : assignForms {} [cellAt "i", cellAt "j"] .assign [cellAt "j", cellAt "i"] {} =
      .ok _ := rfl
  have htargets : targetsOf [cellAt "i", cellAt "j"] = .ok _ := rfl
  obtain ⟨ds, supply, hds, hsupplied, hruns⟩ := assignForms_together rfl htargets (by decide)
    ⟨_, _, List.mem_cons_self⟩ hforms (by decide) (by decide)
  cases hds
  cases hsupplied with
  | values _ hvalues =>
      cases hvalues
      refine ⟨_, hforms, ?_⟩
      obtain ⟨-, htogether⟩ := hruns Runtime.ledger 0 cellsEnv
      have hmisses : List.Pairwise (Destination.Misses Runtime.ledger cellsEnv)
          [.element (.var "a") (.var "i"), .element (.var "a") (.var "j")] := by
        refine List.pairwise_pair.2 fun f hf => ⟨by simp [Destination.names], fun _ => ?_⟩
        simp only [Destination.operands, List.mem_cons, List.not_mem_nil, or_false] at hf
        obtain rfl | rfl := hf
        · exact ⟨_, fun _ => rfl⟩
        · exact ⟨_, fun _ => rfl⟩
      rw [(htogether hmisses trivial).after]
      rfl

/-- The targets of `i, a[i] = 1, 2`. -/
def lateTargets : List Expr :=
  [.ofName "i" .int, cellAt "i"]

/-- An element is found after a store into the variable that selects it. -/
theorem assignForms_finds_late :
    ∃ targets ds fs forms, targetsOf lateTargets = .ok targets ∧
      destinationsOf {} targets = .ok ds ∧
      Form.ofStoredList {} [.ofLiteral (.int 1), .ofLiteral (.int 2)] = .ok fs ∧
      assignForms {} lateTargets .assign [.ofLiteral (.int 1), .ofLiteral (.int 2)] {} = .ok forms ∧
      ((execForms Runtime.ledger 0 forms cellsEnv).after World.ledger).store.heap =
        [(Constant.symbol "cells", Constant.int 1, Constant.int 2)] ∧
      (((Supply.values fs).assign Runtime.ledger cellsEnv ds
          (storeTogether Runtime.ledger cellsEnv)).after World.ledger).store.heap =
        [(Constant.symbol "cells", Constant.int 0, Constant.int 2)] :=
  ⟨_, _, _, _, rfl, rfl, rfl, rfl, rfl, rfl⟩

end StackCompiler
