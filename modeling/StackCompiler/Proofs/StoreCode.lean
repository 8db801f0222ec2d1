import StackCompiler.Proofs.Destinations
import StackCompiler.Proofs.FormCode

/-!
The code of stores. A destination is found first, then comes the value, and then it is stored:
`Code.exists_storeCode` takes the code of a store apart in this way, and `Code.exists_callCode` goes
on to the call whose value is stored.
-/

namespace StackCompiler

open CompiledFunction

/-! ### Storing on the stack -/

/-- Evaluates what finds the destination, and leaves it on top of the operands. -/
def Destination.locate (R : Runtime) (lit : Constant → R.Value) (σ : Operands R) :
    Destination → Run R (Operands R)
  | element base index => do
    let a ← stackValue R lit σ base
    let i ← stackValue R lit ((base.slotName, a) :: σ) index
    return (index.slotName, i) :: (base.slotName, a) :: σ
  | _ => return σ

def Destination.deliver {R : Runtime} (v : R.Value) : Destination → Operands R → Run R (Operands R)
  | blank, σ => return σ
  | define name, σ => return (some name, v) :: σ
  | assign name, σ =>
    match σ.names.findIdx? (· == some name) with
    | some k => return σ.set k (some name, v)
    | none => do
      Run.writeVar name v
      return σ
  | element _ _, (_, i) :: (_, a) :: σ => do
    Run.primitive (R.arraySet a i v)
    return σ
  | element _ _, _ => throw .stuck

/-! ### The code of a store -/

section

variable {functions : SignatureTable} {F : CompiledFunction} {f : Form} {d : Destination}
  {s t : Assembly}

/-- The code of a form that calls a function by its name ends in this call. -/
theorem Code.exists_call {name : String} {args : List Form} (h : Code functions (.value f) s t)
    (hf : f.application? = some (name, args)) :
    ∃ a b n, AppendsIndexed .constRef (.symbol name) s a ∧ Code functions (.values args) a b ∧
      n.toNat = args.length ∧ Appends (.call n) b t := by
  cases h with
  | application hf' hload hargs hn hcall =>
      rw [hf] at hf'
      cases hf'
      exact ⟨_, _, _, hload, hargs, hn, hcall⟩
  | constant hf' _ | shortcut hf' _ _ _ _ _ _ => cases f <;> cases hf' <;> cases hf
  | unary hf' _ _ =>
      cases f with
      | unary kind family _ =>
          cases kind <;> cases family <;> cases hf
          cases hf'
      | not _ => cases hf
      | _ => cases hf'
  | concat hplan _ _ _ | fold hplan _ _ _ | foldNot hplan _ _ _ _ =>
      simp [Form.application?, hplan] at hf
  | slot | dynamic | resultRef | sparseArray | get => cases hf

/-- Code that stores the value of a form. Up to `u` it finds the destination, up to `v` it evaluates
the form, and up to `t` it stores the value. -/
structure StoreCode (functions : SignatureTable) (F : CompiledFunction) (d : Destination)
    (f : Form) (s u v t : Assembly) : Prop where
  operands : ∀ g ∈ d.operands, ∃ a b, Code functions (.value g) a b
  value : Code functions (.value f) u v
  contains : F.Contains v
  locates : ∀ {R : Runtime} (σ : Operands R) (w : World R), s.slots.names = σ.names →
    F.Follows ⟨s.code.size, σ.values, w⟩ (d.locate R (F.literal R) σ)
      fun τ => .point u.code.size τ.values
  located : ∀ {R : Runtime} {σ τ : Operands R} {w w' : World R}, s.slots.names = σ.names →
    d.locate R (F.literal R) σ w = .ok τ w' → u.slots.names = τ.names
  delivers : ∀ {R : Runtime} (τ : Operands R) (x : R.Value) (w : World R),
    u.slots.names = τ.names →
    F.Follows ⟨v.code.size, x :: τ.values, w⟩ (d.deliver x τ) fun σ => .point t.code.size σ.values
  delivered : ∀ {R : Runtime} {τ σ : Operands R} {x : R.Value} {w w' : World R},
    u.slots.names = τ.names → d.deliver x τ w = .ok σ w' → t.slots.names = σ.names

theorem storeCode_blank {u : Assembly} (hF : F.Contains t) (hvalue : Code functions (.value f) s u)
    (hdrop : Drops 1 u t) : StoreCode functions F .blank f s s u t where
  operands g hg := by cases hg
  value := hvalue
  contains := hdrop.contains hF
  locates _ _ _ := Follows.pure .here
  located hnames h := by
    cases h
    exact hnames
  delivers τ x w _ := Follows.pure (hdrop.reaches hF (by simp))
  delivered hnames h := by
    cases h
    rw [hdrop.names, hvalue.names_of_isOperand rfl]
    exact hnames

theorem storeCode_define {name : String} {u : Assembly} (hF : F.Contains t)
    (hvalue : Code functions (.value f) s u) (hname : Relabels (some name) u t) :
    StoreCode functions F (.define name) f s s u t where
  operands g hg := by cases hg
  value := hvalue
  contains := hname.contains hF
  locates _ _ _ := Follows.pure .here
  located hnames h := by
    cases h
    exact hnames
  delivers τ x w _ := by
    rw [← hname.code]
    exact Follows.pure .here
  delivered hnames h := by
    cases h
    obtain ⟨slots, old, rest, rfl, hold, hnew, -⟩ := hname
    rw [hvalue.names_of_isOperand rfl] at hold
    cases hold
    rw [Operands.names_cons, ← hnames]
    exact hnew

/-- The slot of a name in the static stack, below a value that is no copy of a variable. -/
theorem findIdx?_names_of_find? {R : Runtime} {τ : Operands R} {name : String}
    (hnames : s.slots.names = none :: τ.names) :
    s.slots.find? name = (τ.names.findIdx? (· == some name)).map (· + 1) := by
  rw [Slots.find?, hnames, List.findIdx?_cons]
  rfl

theorem Operands.names_set {R : Runtime} {τ : Operands R} {name : String} {k : Nat}
    (h : τ.names.findIdx? (· == some name) = some k) (x : R.Value) :
    Operands.names (τ.set k (some name, x)) = τ.names := by
  obtain ⟨hlt, hname, -⟩ := List.findIdx?_eq_some_iff_getElem.1 h
  have hentry : τ.names[k] = some name := by simpa using hname
  unfold Operands.names at hlt hentry ⊢
  rw [List.map_set, ← hentry, List.set_getElem_self]

theorem storeCode_assign {name : String} {u : Assembly} (hF : F.Contains t)
    (hslot : f.slotName = none) (hvalue : Code functions (.value f) s u)
    (hset : (∃ n : UInt16, u.slots.find? name = some n.toNat ∧ Appends (.stackSet n) u t) ∨
      u.slots.find? name = none ∧ AppendsIndexed .varSet (.symbol name) u t) :
    StoreCode functions F (.assign name) f s s u t := by
  have hnames_u : u.slots.names = none :: s.slots.names := by
    rw [hvalue.names_of_isOperand rfl, Piece.after, hslot]
  have hnames_t : t.slots.names = s.slots.names := by
    obtain ⟨n, -, happ⟩ | ⟨-, n, -, happ⟩ := hset <;>
      simp [happ.names, hnames_u, Instr.pops, Instr.pushes]
  have hF_u : F.Contains u := by
    obtain ⟨n, -, happ⟩ | ⟨-, happ⟩ := hset
    · exact happ.contains hF
    · exact hF.of_grows (Assembly.Grows.stable.indexed (by simp) happ)
  refine ⟨by simp [Destination.operands], hvalue, hF_u, fun _ _ _ => Follows.pure .here, ?_, ?_, ?_⟩
  · intro R σ τ w w' hnames h
    cases h
    exact hnames
  · intro R τ x w hnames
    rw [hnames] at hnames_u
    simp only [findIdx?_names_of_find? hnames_u] at hset
    simp only [Destination.deliver]
    obtain ⟨n, hfind, happ⟩ | ⟨hfind, happ⟩ := hset
    · obtain ⟨k, hk, hn⟩ := Option.map_eq_some_iff.1 hfind
      have hlt : k < τ.values.length := by
        simpa [Operands.names, Operands.values] using (List.findIdx?_eq_some_iff_getElem.1 hk).1
      rw [hk]
      refine Follows.pure (happ.reaches hF rfl ?_)
      rw [perform_stackSet (by simp only [← hn, List.length_cons]; omega)]
      simp [← hn, Operands.values, List.map_set]
    · rw [Option.map_eq_none_iff.1 hfind]
      exact Follows.bind (happ.follows_write hF) fun _ _ _ => Follows.pure .here
  · intro R τ σ x w w' hnames h
    simp only [Destination.deliver] at h
    rw [hnames_t, hnames]
    cases hk : τ.names.findIdx? (· == some name) with
    | some k =>
        rw [hk] at h
        cases h
        exact (Operands.names_set hk x).symm
    | none =>
        rw [hk] at h
        obtain ⟨_, _, -, h⟩ := bind_eq_ok.1 h
        cases h
        rfl

theorem exists_pair_of_names {R : Runtime} {τ : Operands R} {x y : Option String}
    {names : List (Option String)} (h : x :: y :: names = τ.names) :
    ∃ u v σ, τ = (x, u) :: (y, v) :: σ ∧ names = Operands.names σ := by
  obtain _ | ⟨⟨_, u⟩, _ | ⟨⟨_, v⟩, σ⟩⟩ := τ
  · cases h
  · cases h
  · cases h
    exact ⟨u, v, σ, rfl, rfl⟩

theorem storeCode_element {base index : Form} {a b c : Assembly} (hF : F.Contains t)
    (hslot : f.slotName = none) (hbase : Code functions (.value base) s a)
    (hindex : Code functions (.value index) a b) (hvalue : Code functions (.value f) b c)
    (hset : Appends .arraySet c t) : StoreCode functions F (.element base index) f s b c t := by
  have hF_c := hset.contains hF
  have hF_b := hF_c.of_grows hvalue.grows
  have hnames_b : b.slots.names = index.slotName :: base.slotName :: s.slots.names := by
    rw [hindex.names_of_isOperand rfl, hbase.names_of_isOperand rfl]
    rfl
  have hnames_c : c.slots.names = none :: b.slots.names := by
    rw [hvalue.names_of_isOperand rfl, Piece.after, hslot]
  refine ⟨?_, hvalue, hF_c, ?_, ?_, ?_, ?_⟩
  · intro g hg
    simp only [Destination.operands, List.mem_cons, List.not_mem_nil, or_false] at hg
    obtain rfl | rfl := hg
    · exact ⟨_, _, hbase⟩
    · exact ⟨_, _, hindex⟩
  · intro R σ w hnames
    have hnames_a : a.slots.names = base.slotName :: σ.names := by
      rw [hbase.names_of_isOperand rfl, hnames]
      rfl
    simp only [Destination.locate]
    refine Follows.bind (hbase.simulated (hF_b.of_grows hindex.grows) σ w hnames)
      fun x w' _ => ?_
    exact Follows.bind (hindex.simulated hF_b ((base.slotName, x) :: σ) w' hnames_a)
      fun _ _ _ => Follows.pure .here
  · intro R σ τ w w' hnames h
    obtain ⟨x, _, -, h⟩ := bind_eq_ok.1 h
    obtain ⟨i, _, -, h⟩ := bind_eq_ok.1 h
    cases h
    rw [hnames_b, hnames]
    rfl
  · intro R τ x w hnames
    obtain ⟨i, array, σ, rfl, -⟩ := exists_pair_of_names (hnames_b.symm.trans hnames)
    simp only [Destination.deliver]
    exact Follows.bind (hset.follows hF rfl rfl) fun _ _ _ => Follows.pure .here
  · intro R τ σ x w w' hnames h
    obtain ⟨i, array, σ', rfl, hσ⟩ := exists_pair_of_names (hnames_b.symm.trans hnames)
    obtain ⟨_, _, -, h⟩ := bind_eq_ok.1 h
    cases h
    rw [hset.names, hnames_c, hnames_b, ← hσ]
    rfl

theorem Code.of_singleton (h : Code functions (.forms [f]) s t) : Code functions (.form f) s t := by
  cases h with
  | formsCons hf hrest =>
      cases hrest
      exact hf

/-- A value that is no copy of a variable is stored by such code. -/
theorem Code.exists_storeCode (h : Code functions (.forms (d.store f)) s t) (hF : F.Contains t)
    (hslot : f.slotName = none) (hd : d ≠ .blank) :
    ∃ u v, StoreCode functions F d f s u v t := by
  cases d with
  | blank => exact absurd rfl hd
  | define name =>
      cases h.of_singleton with
      | bind hvalue hname => exact ⟨_, _, storeCode_define hF hvalue hname⟩
      | effect hvalue _ => cases hvalue.isStatement
      | jump hf' _ _ _ => cases hf'
  | assign name =>
      cases h.of_singleton with
      | rebindSlot hvalue hfind hset =>
          exact ⟨_, _, storeCode_assign hF hslot hvalue (.inl ⟨_, hfind, hset⟩)⟩
      | rebindDynamic hvalue hfind hset =>
          exact ⟨_, _, storeCode_assign hF hslot hvalue (.inr ⟨hfind, hset⟩)⟩
      | effect hvalue _ => cases hvalue.isStatement
      | jump hf' _ _ _ => cases hf'
  | element base index =>
      cases h.of_singleton with
      | set hbase hindex hvalue hset =>
          exact ⟨_, _, storeCode_element hF hslot hbase hindex hvalue hset⟩
      | effect hvalue _ => cases hvalue.isStatement
      | jump hf' _ _ _ => cases hf'

/-- Code up to the call of a function, whose arguments lie on the stack. -/
structure CallCode (functions : SignatureTable) (F : CompiledFunction) (name : String)
    (args : List Form) (s t : Assembly) (n : UInt8) : Prop where
  code : ∃ a, AppendsIndexed .constRef (.symbol name) s a ∧ Code functions (.values args) a t
  count : n.toNat = args.length
  fetch : F.chunk.code[t.code.size]? = some (.call n)
  contains : F.Contains t

theorem Appends.callCode {name : String} {args : List Form} {n : UInt8} {a b : Assembly}
    (hcall : Appends (.call n) b t) (hload : AppendsIndexed .constRef (.symbol name) s a)
    (hargs : Code functions (.values args) a b) (hn : n.toNat = args.length)
    (hF : F.Contains t) : CallCode functions F name args s b n :=
  ⟨⟨a, hload, hargs⟩, hn, hF.fetch hcall.code, hcall.contains hF⟩

theorem isPure_of_application? {name : String} {args : List Form}
    (h : f.application? = some (name, args)) : f.isPure = false := by
  cases f <;> simp_all [Form.application?, Form.isPure, Form.isAtom]

/-- The destination of a call's value is found up to `u`, and the value is stored from behind the
call up to `t`. A function that never returns has no value, and none is stored. -/
def StoresCall (functions : SignatureTable) (F : CompiledFunction) (d : Destination) (f : Form)
    (name : String) (producer : Nat) (s u t : Assembly) : Prop :=
  (∃ v, v.code.size = producer + 1 ∧ StoreCode functions F d f s u v t) ∨
    d = .blank ∧ s = u ∧ functions.convention name = .never

/-- The code that stores the value of a call goes through this call. -/
theorem Code.exists_callCode {name : String} {args : List Form}
    (h : Code functions (.forms (d.store f)) s t) (hF : F.Contains t)
    (hf : f.application? = some (name, args)) :
    ∃ u p n, CallCode functions F name args u p n ∧
      StoresCall functions F d f name p.code.size s u t := by
  by_cases hd : d = .blank
  · subst hd
    rw [Destination.store, if_neg (by simp [isPure_of_application? hf])] at h
    cases h.of_singleton with
    | effect hvalue hdrop =>
        obtain ⟨a, b, n, hload, hargs, hn, hcall⟩ := hvalue.exists_call hf
        have hstore := storeCode_blank hF hvalue hdrop
        exact ⟨s, b, n, hcall.callCode hload hargs hn hstore.contains,
          .inl ⟨_, hcall.size, hstore⟩⟩
    | never hnever _ hload hargs hn hcall hforget =>
        cases hf
        have hF' := hF.of_grows (Assembly.Grows.stable.forgets hforget)
        exact ⟨s, _, _, hcall.callCode hload hargs hn hF', .inr ⟨rfl, rfl, hnever⟩⟩
    | jump hf' _ _ _ => cases f <;> cases hf' <;> cases hf
    | _ => cases hf
  · obtain ⟨u, v, hstore⟩ := h.exists_storeCode hF (slotName_of_application? hf) hd
    obtain ⟨a, b, n, hload, hargs, hn, hcall⟩ := hstore.value.exists_call hf
    exact ⟨u, b, n, hcall.callCode hload hargs hn hstore.contains, .inl ⟨v, hcall.size, hstore⟩⟩

end

end StackCompiler
