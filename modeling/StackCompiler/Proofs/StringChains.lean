import StackCompiler.Proofs.Chains
import StackCompiler.Proofs.DynamicReads
import StackCompiler.Proofs.ExprMeaning
import StackCompiler.Proofs.Lockstep
import StackCompiler.Proofs.StmtMeaning

/-!
Chains of strings. Unlike numbers, all operands of a chain of strings lie on the stack before they
are joined, and one instruction joins them. So the code differs from that of the nest of operations
on two strings, and it has bounds that the nest has not. `string_chains` shows that only what
exceeds these bounds is lost, and that both join the same strings in the same order if reads are
current.
-/

namespace StackCompiler

open Source CompiledFunction

/-! ### Code of chains of strings -/

theorem OpKind.operation?_add_string : operation? .add .string = some .concat := rfl

section

variable {functions : SignatureTable} {f g : Form} {args rest : List Form} {s s' : Assembly}

theorem emitValues_append (fs gs : List Form) :
    emitValues functions (fs ++ gs) = (do
      emitValues functions fs
      emitValues functions gs) := by
  induction fs with
  | nil => simp [emitValues]
  | cons f fs ih => simp [emitValues, ih]

/-- Strings are checked first, then all of them are pushed, then they are joined. -/
theorem emitValue_join : emitValue functions (.op .add .string args) = (do
    checkOperands .add .string args
    emitValues functions args
    Emit.concat args.length) := by
  rw [emitValue]
  rfl

theorem emitValue_join_ok : emitValue functions (.op .add .string args) s = .ok () s' ↔
    2 ≤ args.length ∧ (∀ f ∈ args, f.clashesWith .string = false) ∧
      ∃ t, emitValues functions args s = .ok () t ∧ Emit.concat args.length t = .ok () s' := by
  have hadmits : OpKind.add.admits args.length = true ↔ 2 ≤ args.length :=
    OpKind.admits_of_isVariadic rfl
  rw [emitValue_join, bind_eq_ok, ← hadmits]
  constructor
  · rintro ⟨_, u, hcheck, h⟩
    obtain ⟨hadmits, hclash, rfl⟩ := checkOperands_eq_ok.1 hcheck
    obtain ⟨_, t, ht, hconcat⟩ := bind_eq_ok.1 h
    exact ⟨hadmits, hclash, t, ht, hconcat⟩
  · rintro ⟨hadmits, hclash, t, ht, hconcat⟩
    exact ⟨(), s, checkOperands_eq_ok.2 ⟨hadmits, hclash, rfl⟩,
      bind_eq_ok.2 ⟨(), t, ht, hconcat⟩⟩

theorem emitValue_join_pair : emitValue functions (.op .add .string [f, g]) s = .ok () s' ↔
    f.clashesWith .string = false ∧ g.clashesWith .string = false ∧
      ∃ t u, emitValue functions f s = .ok () t ∧ emitValue functions g t = .ok () u ∧
        Emit.concat 2 u = .ok () s' := by
  have hpair : emitValues functions [f, g] = (do
      emitValue functions f
      emitValue functions g) := by
    simp [emitValues]
  rw [emitValue_join_ok, hpair]
  constructor
  · rintro ⟨-, hclash, u, hu, hconcat⟩
    obtain ⟨_, t, ht, hu⟩ := bind_eq_ok.1 hu
    exact ⟨hclash f (by simp), hclash g (by simp), t, u, ht, hu, hconcat⟩
  · rintro ⟨hf, hg, t, u, ht, hu, hconcat⟩
    exact ⟨le_rfl, by simp [hf, hg], u, bind_eq_ok.2 ⟨(), t, ht, hu⟩, hconcat⟩

/-- A nest compiles only if all its operands fit, from the first on. -/
theorem operands_of_nest (h : emitValue functions (.nest .add .string f rest) s = .ok () s') :
    (∃ t, emitValue functions f s = .ok () t) ∧ (∀ g ∈ rest, g.clashesWith .string = false) ∧
      (rest ≠ [] → f.clashesWith .string = false) := by
  induction rest using List.reverseRecOn generalizing s' with
  | nil => exact ⟨⟨s', h⟩, by simp, by simp⟩
  | append_singleton rest g ih =>
      rw [Form.nest_append, emitValue_join_pair] at h
      obtain ⟨hnest, hg, t, u, ht, -⟩ := h
      obtain ⟨hfirst, hrest, hf⟩ := ih ht
      refine ⟨hfirst, by simpa [or_imp, forall_and] using ⟨hrest, hg⟩, fun _ => ?_⟩
      rcases eq_or_ne rest [] with rfl | hne
      · exact hnest
      · exact hf hne

/-- The operands of a chain whose nest compiles are at least two, and they fit. -/
theorem operands_of_spread (hrest : rest ≠ [])
    (h : emitValue functions (.nest .add .string f rest) s = .ok () s') :
    2 ≤ (f.spread .add .string ++ rest).length ∧
      ∀ g ∈ f.spread .add .string ++ rest, g.clashesWith .string = false := by
  obtain ⟨⟨t, ht⟩, hclash, hf⟩ := operands_of_nest h
  have hpos := List.length_pos_of_ne_nil hrest
  by_cases hop : ∃ args, f = .op .add .string args
  · obtain ⟨args, rfl⟩ := hop
    obtain ⟨hlength, hargs, -⟩ := emitValue_join_ok.1 ht
    rw [Form.spread_op rfl, List.length_append]
    exact ⟨by omega, List.forall_mem_append.2 ⟨hargs, hclash⟩⟩
  · rw [Form.spread_of_ne fun args hargs => hop ⟨args, hargs⟩, List.singleton_append,
      List.length_cons]
    exact ⟨by omega, List.forall_mem_cons.2 ⟨hf hrest, hclash⟩⟩

/-! ### Code on top of the operands -/

open Emit (TooDeep)

/-- The first operand of a nest, and the operands that it brings into the chain. -/
theorem emitValues_spread (h : emitValue functions f s = .ok () s') :
    ∃ t x low', emitValues functions (f.spread .add .string) s = .ok () t ∧
      Assembly.Beside (s.origin []) (x :: s.slots.names) low' 0 s' t := by
  by_cases hop : ∃ args, f = .op .add .string args
  · -- the nest joins these operands before all others
    obtain ⟨args, rfl⟩ := hop
    rw [Form.spread_op rfl]
    obtain ⟨-, -, t, ht, hconcat⟩ := emitValue_join_ok.1 h
    obtain ⟨k, hk, happ⟩ := Emit.concat_ok hconcat
    have hbeside := (emitValues_inStep args 0).self [] ht
    refine ⟨t, none, _, ht, hbeside.goOn 1 (.appends happ) ?_⟩
    obtain ⟨top, hlength, hnames, -⟩ := hbeside.names
    rw [happ.names, Instr.pops, hk, hnames, List.drop_left' (hlength.trans (Nat.zero_add _))]
    rfl
  · rw [Form.spread_of_ne fun args hargs => hop ⟨args, hargs⟩]
    have hbeside := (emitValue_inStep f 0).self [] h
    obtain ⟨top, hlength, hnames, -⟩ := hbeside.names
    obtain ⟨x, rfl⟩ := List.length_eq_one_iff.1 hlength
    have hsink := hbeside.sink
    rw [hnames] at hsink
    exact ⟨s', x, _, by simpa [emitValues] using h, hsink⟩

/-- The operands of a chain are built beside its nest. -/
theorem emitValues_chain (h : emitValue functions (.nest .add .string f rest) s = .ok () s') :
    (∃ t x low', emitValues functions (f.spread .add .string ++ rest) s = .ok () t ∧
      Assembly.Beside (s.origin []) (x :: s.slots.names) low' 0 s' t) ∨
    TooDeep (emitValues functions (f.spread .add .string ++ rest)) s := by
  -- by induction on the last operand: the nest joins it to the one string that it has on the stack,
  -- and the chain leaves it there with all those before it
  induction rest using List.reverseRecOn generalizing s' with
  | nil =>
      rw [List.append_nil]
      exact .inl (emitValues_spread h)
  | append_singleton rest g ih =>
      rw [Form.nest_append, emitValue_join_pair] at h
      obtain ⟨-, -, u, v, hu, hv, hconcat⟩ := h
      rw [← List.append_assoc, emitValues_append]
      obtain ⟨t, x, low', ht, hbeside⟩ | hdeep := ih hu
      · have hone : emitValues functions [g] = emitValue functions g := by simp [emitValues]
        rw [hone]
        obtain ⟨t', ht', hbeside'⟩ | hblocked := (emitValue_inStep g 0).step hbeside hv
        · obtain ⟨k, hk, happ⟩ := Emit.concat_ok hconcat
          refine .inl ⟨t', none, _, bind_eq_ok.2 ⟨(), t, ht, ht'⟩,
            hbeside'.goOn 1 (.appends happ) ?_⟩
          obtain ⟨top, hlength, hnames, -⟩ := hbeside'.names
          obtain ⟨y, rfl⟩ := List.length_eq_one_iff.1 hlength
          rw [happ.names, Instr.pops, hk, hnames]
          rfl
        · exact .inr (.of_ok ht hblocked.tooDeep)
      · exact .inr (hdeep.bind _)

/-- A chain compiles if its nest does, unless it has too many operands or one of them reads a
variable that lies too deep. -/
theorem emitValue_chain (hrest : rest ≠ [])
    (h : emitValue functions (.nest .add .string f rest) s = .ok () s') {operands : List Form}
    (hoperands : f.spread .add .string ++ rest = operands) :
    (∃ t, emitValue functions (.op .add .string operands) s = .ok () t) ∨
      (Resource.limit .concatOperands < operands.length ∧
        ∃ t, emitValue functions (.op .add .string operands) s =
          .error (.capacity .concatOperands operands.length) t) ∨
      TooDeep (emitValue functions (.op .add .string operands)) s := by
  obtain ⟨hlength, hclash⟩ := operands_of_spread hrest h
  have hbuilt := emitValues_chain h
  rw [hoperands] at hlength hclash hbuilt
  have hcheck : checkOperands .add .string operands s = .ok () s :=
    checkOperands_eq_ok.2 ⟨(OpKind.admits_of_isVariadic rfl).2 hlength, hclash, rfl⟩
  rw [emitValue_join]
  obtain ⟨t, x, low', ht, -⟩ | hdeep := hbuilt
  · by_cases hlimit : operands.length ≤ Resource.limit .concatOperands
    · have hnames := (emitValues_code operands ht).names_of_isOperand rfl
      obtain ⟨t', ht'⟩ := Emit.exists_concat hlimit (t := t) (by simp [hnames, Piece.after])
      exact .inl ⟨t', by rw [bind_of_ok hcheck, bind_of_ok ht, ht']⟩
    · refine .inr (.inl ⟨Nat.lt_of_not_le hlimit, t, ?_⟩)
      rw [bind_of_ok hcheck, bind_of_ok ht]
      exact Emit.counted_eq_error (Nat.lt_of_not_le hlimit)
  · exact .inr (.inr (.of_ok hcheck (hdeep.bind _)))

end

/-! ### Values of chains of strings -/

section

variable {R : Runtime} {env : Env R}

/-- Forms that are evaluated in order and yield strings, as far as evaluation gets. -/
def YieldStrings (H : ScalarHost R) (env : Env R) : List Form → World R → Prop
  | [], _ => True
  | f :: fs, w => ∀ v w', evalValue R env f w = .ok v w' → H.isString v ∧ YieldStrings H env fs w'

namespace YieldStrings

variable {H : ScalarHost R} {fs gs : List Form} {w w' : World R} {vs : List R.Value}

theorem isString (h : YieldStrings H env fs w) (hvs : evalValues R env fs w = .ok vs w') :
    ∀ v ∈ vs, H.isString v := by
  induction fs generalizing w vs with
  | nil =>
      obtain ⟨rfl, -⟩ := pure_eq_ok.1 hvs
      simp
  | cons f fs ih =>
      obtain ⟨v, w₁, hv, hvs⟩ := bind_eq_ok.1 hvs
      obtain ⟨us, w₂, hus, hvs⟩ := bind_eq_ok.1 hvs
      obtain ⟨rfl, rfl⟩ := pure_eq_ok.1 hvs
      obtain ⟨hstring, hrest⟩ := h v w₁ hv
      exact List.forall_mem_cons.2 ⟨hstring, ih hrest hus⟩

/-- The first forms yield strings, and so do the others where these have been evaluated. -/
theorem append (h : YieldStrings H env (fs ++ gs) w) :
    YieldStrings H env fs w ∧
      ∀ {vs w'}, evalValues R env fs w = .ok vs w' → YieldStrings H env gs w' := by
  induction fs generalizing w with
  | nil =>
      refine ⟨trivial, fun hvs => ?_⟩
      obtain ⟨-, rfl⟩ := pure_eq_ok.1 hvs
      exact h
  | cons f fs ih =>
      refine ⟨fun v w' hv => ⟨(h v w' hv).1, (ih (h v w' hv).2).1⟩, fun hvs => ?_⟩
      obtain ⟨v, w₁, hv, hvs⟩ := bind_eq_ok.1 hvs
      obtain ⟨us, w₂, hus, hvs⟩ := bind_eq_ok.1 hvs
      obtain ⟨-, rfl⟩ := pure_eq_ok.1 hvs
      exact (ih (h v w₁ hv).2).2 hus

/-- Strings that are joined all at once. -/
theorem evalValue_op (h : YieldStrings H env fs w) :
    evalValue R env (.op .add .string fs) w = (do
      let vs ← evalValues R env fs
      return H.join vs) w := by
  simp only [evalValue, OpKind.operation?_add_string]
  refine bind_congr_of_ok fun vs w' hvs => ?_
  rw [H.concat_eq vs (h.isString hvs), Run.primitive_pure]

/-- One more string that is joined to others. -/
theorem evalValue_op_append (hfs : fs ≠ []) {g : Form} (h : YieldStrings H env (fs ++ [g]) w) :
    evalValue R env (.op .add .string (fs ++ [g])) w =
      evalValue R env (.op .add .string [.op .add .string fs, g]) w := by
  rw [h.evalValue_op, evalValue_op_pair (by decide)]
  rw [bind_congr_of_eq h.append.1.evalValue_op fun _ _ _ => rfl]
  simp only [evalValues_append, evalValues, OpKind.apply, bind_assoc, pure_bind]
  refine bind_congr_of_ok fun vs w' hvs => bind_congr_of_ok fun y w'' hy => ?_
  have hall := h.append.1.isString hvs
  have hstring := (h.append.2 hvs y w'' hy).1
  have hsome : vs ≠ [] := by
    rintro rfl
    exact hfs (List.length_eq_zero_iff.1 (evalValues_length hvs).symm)
  simp only [OpKind.operation?_add_string]
  rw [H.join_append vs y hsome hall hstring,
    H.concat_eq [H.join vs, y] (by simpa using ⟨H.isString_join vs hall, hstring⟩),
    Run.primitive_pure]

/-- Strings that are joined to others one at a time. -/
theorem evalValue_nest_op {args rest : List Form} (hargs : args ≠ [])
    (h : YieldStrings H env (args ++ rest) w) :
    evalValue R env (.nest .add .string (.op .add .string args) rest) w =
      evalValue R env (.op .add .string (args ++ rest)) w := by
  induction rest using List.reverseRecOn with
  | nil =>
      rw [List.append_nil]
      rfl
  | append_singleton rest g ih =>
      rw [← List.append_assoc] at h ⊢
      rw [h.evalValue_op_append (by simp [hargs]), Form.nest_append, evalValue_op_pair (by decide),
        evalValue_op_pair (by decide)]
      exact bind_congr_of_eq (ih h.append.1) fun _ _ _ => rfl

/-- A nest joins the same strings in the same order as the chain. -/
theorem evalValue_nest {f : Form} (hf : f ≠ .op .add .string []) {rest : List Form}
    (hrest : rest ≠ []) (h : YieldStrings H env (f.spread .add .string ++ rest) w) :
    evalValue R env (.nest .add .string f rest) w =
      evalValue R env (.op .add .string (f.spread .add .string ++ rest)) w := by
  by_cases hop : ∃ args, f = .op .add .string args
  · obtain ⟨args, rfl⟩ := hop
    rw [Form.spread_op rfl] at h ⊢
    exact evalValue_nest_op (by rintro rfl; exact hf rfl) h
  · -- the innermost operation of the nest is one on strings
    rw [Form.spread_of_ne fun args hargs => hop ⟨args, hargs⟩] at h ⊢
    obtain ⟨g, rest, rfl⟩ := List.exists_cons_of_ne_nil hrest
    exact evalValue_nest_op (List.cons_ne_nil f [g]) h

end YieldStrings

variable (R) (lit : Constant → R.Value)

/-- Joins operands to a string one at a time, each evaluated on top of the string so far. -/
def stackJoins (σ : Operands R) : Option String → R.Value → List Form → Run R R.Value
  | _, left, [] => return left
  | name, left, f :: fs => do
    let right ← stackValue R lit ((name, left) :: σ) f
    let v ← Run.primitive (R.concat [left, right])
    stackJoins σ none v fs

variable {R}

theorem stackValue_nest (σ : Operands R) (f : Form) (rest : List Form) :
    stackValue R lit σ (.nest .add .string f rest) = (do
      let v ← stackValue R lit σ f
      stackJoins R lit σ f.slotName v rest) := by
  induction rest generalizing f with
  | nil => simp [Form.nest, stackJoins]
  | cons g rest ih =>
      refine (ih (.op .add .string [f, g])).trans ?_
      simp [stackValue, OpKind.operation?_add_string, stackValues, stackJoins, Form.slotName]

end

/-! ### Runs of chains of strings -/

section

variable {functions : SignatureTable} {f : Form} {s s' : Assembly} {F : CompiledFunction}
  {R : Runtime} {σ : Operands R}

theorem completes_stackValue (h : emitValue functions f s = .ok () s') (hF : F.Contains s')
    (hnames : s.slots.names = σ.names) (w : World R) :
    F.Completes ⟨s.code.size, σ.values, w⟩ (stackValue R (F.literal R) σ f)
      (fun v => .point s'.code.size (v :: σ.values)) := by
  have hcode := emitValue_code f h
  exact (hcode.ends_value (F.literal R) σ).completes (hcode.simulated hF σ w hnames)

/-- What has to be known of a form for its code to do what plain evaluation does: numbers are loaded
as they are written, and no read finds a copy from before a call. -/
structure Form.IsCurrent (F : CompiledFunction) (σ : Operands R) (f : Form) : Prop where
  float : ∀ x, .float x ∈ f.parts → F.literal R (.float x) = R.constant (.float x)
  reads : ∀ x, σ.lookup (some x) = none → f.readsCurrent x .absent = true

theorem completes_evalValue (h : emitValue functions f s = .ok () s') (hF : F.Contains s')
    (hR : R.SparesVars) (hnames : s.slots.names = σ.names) (hf : f.IsCurrent F σ) (w : World R) :
    F.Completes ⟨s.code.size, σ.values, w⟩ (evalValue R σ.env f)
      (fun v => .point s'.code.size (v :: σ.values)) := by
  refine (completes_stackValue h hF hnames w).congr
    (stackValue_of_tracks (F.literal_loadsExactly R) hR f ?_ (.of_env σ w) fun x hx => ?_)
  · rintro g hg x rfl
    exact hf.float x hg
  · exact hf.reads x (by rwa [σ.env_lookup x] at hx)

/-- Code for a form evaluates operands in order, each once, and leaves in one new slot the string
that theirs are joined to, in any function that it is part of. -/
structure JoinsOperands (f : Form) (operands : List Form) (s s' : Assembly) : Prop where
  names : s'.slots.names = none :: s.slots.names
  completes : ∀ {R : Runtime} {H : ScalarHost R} {F : CompiledFunction} {σ : Operands R},
    R.SparesVars → F.Contains s' → s.slots.names = σ.names → f.IsCurrent F σ →
    ∀ {w : World R}, YieldStrings H σ.env operands w →
      F.Completes ⟨s.code.size, σ.values, w⟩
        (do
          let vs ← evalValues R σ.env operands
          return H.join vs)
        (fun v => .point s'.code.size (v :: σ.values))

/-- The code of a chain joins its operands. -/
theorem joinsOperands_chain {operands : List Form}
    (h : emitValue functions (.op .add .string operands) s = .ok () s') :
    JoinsOperands (.op .add .string operands) operands s s' where
  names := (emitValue_code _ h).names_of_isOperand rfl
  completes hR hF hnames hcurrent w hstrings :=
    (completes_evalValue h hF hR hnames hcurrent w).congr hstrings.evalValue_op

/-- So does the code of its nest. -/
theorem joinsOperands_nest {rest : List Form} (hrest : rest ≠ [])
    (h : emitValue functions (.nest .add .string f rest) s = .ok () s') :
    JoinsOperands (.nest .add .string f rest) (f.spread .add .string ++ rest) s s' where
  names := by
    obtain ⟨left, right, hform⟩ := Form.exists_nest hrest
    rw [(emitValue_code _ h).names_of_isOperand rfl, hform]
    rfl
  completes hR hF hnames hcurrent w hstrings := by
    have hf : f ≠ .op .add .string [] := by
      rintro rfl
      obtain ⟨⟨t, ht⟩, -⟩ := operands_of_nest h
      simpa using (emitValue_join_ok.1 ht).1
    exact (completes_evalValue h hF hR hnames hcurrent w).congr
      ((hstrings.evalValue_nest hf hrest).trans hstrings.evalValue_op)

end

/-- A chain of strings is one operation on all its operands. It compiles wherever the nest of
operations on two strings does, unless it has more operands than one instruction can join or a
variable then lies too deep. Both leave one new slot. The chain joins its operands all at once, each
evaluated on top of those before it, and the nest joins each to the string so far. A read takes the
topmost copy of a variable on the stack, so both join the same strings if no read finds a copy from
before a call and numbers are loaded as they are written. -/
theorem string_chains {functions : SignatureTable} {f : Form} {rest operands : List Form}
    {s s' : Assembly} (hrest : rest ≠ [])
    (hnest : emitValue functions (.nest .add .string f rest) s = .ok () s')
    (hoperands : f.spread .add .string ++ rest = operands) :
    (∀ (env : Environment) (e : Expr) (links : List Link),
      e.isChainOf .add .string links = true → Form.ofExpr env e = .ok f →
      List.Forall₂ (fun link g => Form.ofExpr env link.operand = .ok g) links rest →
      Form.ofExpr env (e.chain .add links) = .ok (.op .add .string operands)) ∧
    ((∃ t, emitValue functions (.op .add .string operands) s = .ok () t) ∨
      (255 < operands.length ∧ ∃ t, emitValue functions (.op .add .string operands) s =
        .error (.capacity .concatOperands operands.length) t) ∨
      ∃ name offset t, emitValue functions (.op .add .string operands) s =
        .error (.capacity .stackOffset offset) t ∧ t.slots.find? name = some offset ∧
          65535 < offset) ∧
    JoinsOperands (.nest .add .string f rest) operands s s' ∧
    (∀ t, emitValue functions (.op .add .string operands) s = .ok () t →
      JoinsOperands (.op .add .string operands) operands s t) ∧
    ∀ {R : Runtime} {F : CompiledFunction} {σ : Operands R} (w : World R),
      s.slots.names = σ.names →
      (F.Contains s' → F.Completes ⟨s.code.size, σ.values, w⟩
        (do
          let v ← stackValue R (F.literal R) σ f
          stackJoins R (F.literal R) σ f.slotName v rest)
        (fun v => .point s'.code.size (v :: σ.values))) ∧
      ∀ t, emitValue functions (.op .add .string operands) s = .ok () t → F.Contains t →
        F.Completes ⟨s.code.size, σ.values, w⟩
          (do
            let vs ← stackValues R (F.literal R) σ operands
            Run.primitive (R.concat vs))
          (fun v => .point t.code.size (v :: σ.values)) := by
  subst hoperands
  refine ⟨fun env e links hchain he hlinks => ?_, emitValue_chain hrest hnest rfl,
    joinsOperands_nest hrest hnest, fun t ht => joinsOperands_chain ht, fun w hnames => ⟨?_, ?_⟩⟩
  · rw [ofExpr_chain rfl hchain he hlinks, Form.foldl_applyOp rfl hrest]
  · intro hF
    rw [← stackValue_nest]
    exact completes_stackValue hnest hF hnames w
  · intro t ht hF
    have hrun := completes_stackValue ht hF hnames w
    rwa [stackValue] at hrun

/-! ### Chains around a call -/

/-- A host whose functions all return a dash, and leave a new text in the variable `g`. -/
def Runtime.rewriting : Runtime :=
  { Runtime.words with
    binary := fun _ _ _ => throw ()
    call := fun _ _ => do
      modify (·.setVar "g" (.str "new"))
      return .str "-" }

def ScalarHost.rewriting : ScalarHost .rewriting where
  isString v := ∃ s, v = Constant.str s
  join := Constant.join
  isString_str s := ⟨s, rfl⟩
  isString_join _ _ := ⟨_, rfl⟩
  concat_eq _ _ := rfl
  join_append vs y _ _ _ := Constant.join_append vs y
  negate_int _ _ := rfl
  negate_float _ := rfl
  isNil_truth := by decide

def World.rewriting : World .rewriting :=
  ⟨⟨fun _ => Constant.str "old", ()⟩, []⟩

theorem sparesVars_rewriting : Runtime.rewriting.SparesVars where
  unary i v := fun _ _ _ h => by
    cases i with
    | not =>
        cases h
        rfl
    | negate =>
        change Constant at v
        cases v <;> cases h <;> rfl
  binary i u v := fun _ _ _ h => by cases h
  concat vs := .pure (World.isTrail_sameVars _) _
  arrayRef a i := fun _ _ _ h => by cases h
  arraySet _ a i v := fun _ _ _ h => by cases h

/-- Code that can be finished is part of a function. -/
theorem Emit.exists_contains {x : Emit Unit} {s : Assembly} (name : String) (params : List String)
    (h : (Emit.built? x s).map (fun s' => (ofAssembly name params s').isOk) = some true) :
    ∃ s' F, x s = .ok () s' ∧ CompiledFunction.Contains F s' := by
  obtain ⟨s', hbuilt, hok⟩ := Option.map_eq_some_iff.1 h
  cases hfinish : ofAssembly name params s' with
  | error e =>
      rw [hfinish] at hok
      cases hok
  | ok F => exact ⟨s', F, Emit.built?_eq_some hbuilt, (ofAssembly_ok hfinish).contains⟩

/-- The operands of `s + h() + g` or `g + h() + g` after the first. -/
def textOperands : List Form :=
  [.call "h" [], .var "g"]

/-- The operations of `s + h() + g`, one in the other. -/
def textNest : Form :=
  .nest .add .string (.var "s") textOperands

def textChain : Form :=
  .op .add .string (.var "s" :: textOperands)

/-- The variable is read after the call only, so no copy of it is old. -/
theorem isCurrent_text {f : Form} (hf : f = textNest ∨ f = textChain) (F : CompiledFunction) :
    f.IsCurrent (R := .rewriting) F [(some "s", Constant.str "a")] where
  float x hx := by
    obtain rfl | rfl := hf <;>
      simp [textNest, textChain, Form.nest, textOperands, Form.parts, listParts] at hx
  reads x hx := by
    have hs : x ≠ "s" := by
      rintro rfl
      cases hx
    by_cases hg : x = "g"
    · subst hg
      obtain rfl | rfl := hf <;> decide
    · obtain rfl | rfl := hf <;>
        simp [textNest, textChain, Form.nest, textOperands, Form.readsCurrent, readAllCurrent,
          OpKind.operation?_add_string, Ne.symm hs, Ne.symm hg]

theorem string_chains_text :
    ∃ s' t F G w', emitValue .empty textNest (.ofParams ["s"]) = .ok () s' ∧
      emitValue .empty textChain (.ofParams ["s"]) = .ok () t ∧
      CompiledFunction.Contains F s' ∧ CompiledFunction.Contains G t ∧
      F.Reaches (R := .rewriting) ⟨0, [Constant.str "a"], World.rewriting⟩
        ⟨s'.code.size, [Constant.str "a-new", Constant.str "a"], w'⟩ ∧
      G.Reaches (R := .rewriting) ⟨0, [Constant.str "a"], World.rewriting⟩
        ⟨t.code.size, [Constant.str "a-new", Constant.str "a"], w'⟩ ∧
      w'.calls = [(Constant.symbol "h", [])] := by
  obtain ⟨s', F, hnest, hF⟩ : ∃ s' F, emitValue .empty textNest (.ofParams ["s"]) = .ok () s' ∧
      CompiledFunction.Contains F s' := Emit.exists_contains "k" ["s"] (by decide +kernel)
  obtain ⟨t, G, hchain, hG⟩ : ∃ t G, emitValue .empty textChain (.ofParams ["s"]) = .ok () t ∧
      CompiledFunction.Contains G t := Emit.exists_contains "k" ["s"] (by decide +kernel)
  obtain ⟨-, -, hnested, hjoined, -⟩ := string_chains (List.cons_ne_nil _ _) hnest rfl
  have hstrings : YieldStrings ScalarHost.rewriting [("s", Constant.str "a")]
      (.var "s" :: textOperands) World.rewriting := by
    rintro _ _ ⟨⟩
    refine ⟨⟨_, rfl⟩, ?_⟩
    rintro _ _ ⟨⟩
    refine ⟨⟨_, rfl⟩, ?_⟩
    rintro _ _ ⟨⟩
    exact ⟨⟨_, rfl⟩, trivial⟩
  have hn := hnested.completes sparesVars_rewriting hF rfl (isCurrent_text (.inl rfl) F) hstrings
  have hc := (hjoined t hchain).completes sparesVars_rewriting hG rfl
    (isCurrent_text (.inr rfl) G) hstrings
  exact ⟨s', t, F, G, _, hnest, hchain, hF, hG, hn.1.attains rfl, hc.1.attains rfl, rfl⟩

/-! ### Chains that are lost or changed -/

/-- The operands of `s + … + s` after the first, where there are 256 in all. -/
def manyLinks : List Link :=
  List.replicate 255 ⟨.ofName "s" .string, .string, {}⟩

def manyOperands : List Form :=
  List.replicate 255 (.var "s")

theorem ofExpr_many : Form.ofExpr {} (.chain .add (.ofName "s" .string) manyLinks) =
    .ok (.op .add .string (.var "s" :: manyOperands)) := by
  have hlinks : List.Forall₂ (fun link g => Form.ofExpr {} link.operand = .ok g) manyLinks
      manyOperands := by
    unfold manyLinks manyOperands
    induction 255 with
    | zero => exact .nil
    | succ n ih => exact .cons rfl ih
  have hchain : (Expr.ofName "s" .string).isChainOf .add .string manyLinks = true := by
    decide +kernel
  have hsome : manyOperands ≠ [] := List.cons_ne_nil _ _
  rw [ofExpr_chain rfl hchain rfl hlinks, Form.foldl_applyOp rfl hsome]
  rfl

/-- The nest of 256 strings compiles, but the chain that the source becomes does not. And where a
variable is read before and after a call that changes it, the chain joins what it held before. -/
theorem string_chains_bounds :
    (Form.ofExpr {} (.chain .add (.ofName "s" .string) manyLinks) =
        .ok (.op .add .string (.var "s" :: manyOperands)) ∧
      (∃ s', emitValue .empty (.nest .add .string (.var "s") manyOperands) (.ofParams ["s"]) =
        .ok () s') ∧
      ∀ t, emitValue .empty (.op .add .string (.var "s" :: manyOperands)) (.ofParams ["s"]) ≠
        .ok () t) ∧
    ∃ s' t F G w w',
      emitValue .empty (.nest .add .string (.var "g") textOperands) {} = .ok () s' ∧
      emitValue .empty (.op .add .string (.var "g" :: textOperands)) {} = .ok () t ∧
      CompiledFunction.Contains F s' ∧ CompiledFunction.Contains G t ∧
      F.Reaches (R := .rewriting) ⟨0, [], World.rewriting⟩
        ⟨s'.code.size, [Constant.str "old-new"], w⟩ ∧
      G.Reaches (R := .rewriting) ⟨0, [], World.rewriting⟩
        ⟨t.code.size, [Constant.str "old-old"], w'⟩ := by
  refine ⟨⟨ofExpr_many, ?_, fun t ht => ?_⟩, ?_⟩
  · have hbuilt : (Emit.built? (emitValue .empty (.nest .add .string (.var "s") manyOperands))
        (.ofParams ["s"])).isSome = true := by decide +kernel
    obtain ⟨s', hs'⟩ := Option.isSome_iff_exists.1 hbuilt
    exact ⟨s', Emit.built?_eq_some hs'⟩
  · obtain ⟨-, -, u, -, hconcat⟩ := emitValue_join_ok.1 ht
    obtain ⟨k, hk, -⟩ := Emit.concat_ok hconcat
    have hlt := k.toNat_lt
    rw [hk, List.length_cons, manyOperands, List.length_replicate] at hlt
    exact absurd hlt (by decide)
  · obtain ⟨s', F, hnest, hF⟩ : ∃ s' F,
        emitValue .empty (.nest .add .string (.var "g") textOperands) {} = .ok () s' ∧
          CompiledFunction.Contains F s' := Emit.exists_contains "k" [] (by decide +kernel)
    obtain ⟨t, G, hchain, hG⟩ : ∃ t G,
        emitValue .empty (.op .add .string (.var "g" :: textOperands)) {} = .ok () t ∧
          CompiledFunction.Contains G t := Emit.exists_contains "k" [] (by decide +kernel)
    have hn := completes_stackValue (σ := []) hnest hF rfl World.rewriting
    have hc := completes_stackValue (σ := []) hchain hG rfl World.rewriting
    exact ⟨s', t, F, G, _, _, hnest, hchain, hF, hG, hn.1.attains rfl, hc.1.attains rfl⟩

end StackCompiler
