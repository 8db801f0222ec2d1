import StackCompiler.Proofs.Emission

/-!
The code of forms, as a relation between the assembly before and the assembly after. It says which
instructions stand for which form and in what order, and it has one case for all forms whose code is
built alike. What holds of emitted code is shown by induction on this relation.
-/

namespace StackCompiler

namespace Form

def constant? : Form → Option Constant
  | .bool b => some (.symbol (if b then Host.truth else Host.nil))
  | .char c => some (.int (.ofNat c.toNat))
  | .int v => some (.int v)
  | .float x => some (.float x)
  | .str s => some (.str s)
  | .symbol name => some (.symbol name)
  | _ => none

def application? : Form → Option (String × List Form)
  | .array elems => some (Host.vector, elems)
  | .copy source => some (Host.copySequence, [source])
  | .op kind family args =>
    match kind.plan? family with
    | some (.host name) => some (name, args)
    | _ => none
  | .unary .bitNot .int arg => some (Host.bitNot, [arg])
  | .call name args => some (name, args)
  | .dynCall callee args => some (Host.funcall, callee :: args)
  | _ => none

def unary? : Form → Option (UnaryInstr × Form)
  | .unary .neg .int arg | .unary .neg .float arg => some (.negate, arg)
  | .not arg => some (.not, arg)
  | _ => none

/-- The operands of a form whose second operand may be left out, and the jump past it. -/
def shortcut? : Form → Option (JumpKind × Form × Form)
  | .and left right => some (.ifNilElsePop, left, right)
  | .or left right => some (.ifNotNilElsePop, left, right)
  | _ => none

def loopJump? : Form → Option LoopJump
  | .breakLoop => some .breakLoop
  | .continueLoop => some .continueLoop
  | _ => none

end Form

/-- A part of the source that has code of its own. -/
inductive Piece where
  /-- A form for its value. -/
  | value (f : Form)
  /-- Forms for their values. -/
  | values (fs : List Form)
  /-- Further operands that are combined with the topmost value. -/
  | chain (i : BinaryInstr) (fs : List Form)
  /-- Elements that are stored into the topmost value. -/
  | stores (stores : List (Int64 × Form))
  /-- Results that are stored into variables. -/
  | results (vars : List String) (fs : List Form)
  /-- A form for its effect. -/
  | form (f : Form)
  /-- Forms for their effects. -/
  | forms (fs : List Form)
  /-- What a loop does after its body. -/
  | post (post : Option Form)

/-- The code of a piece stands between two assemblies. -/
inductive Code (functions : SignatureTable) : Piece → Assembly → Assembly → Prop where
  | constant {f : Form} {c : Constant} {s s' : Assembly} (hf : f.constant? = some c)
      (hload : AppendsIndexed .constRef c s s') : Code functions (.value f) s s'
  | slot {name : String} {n : UInt16} {s t s' : Assembly}
      (hfind : s.slots.find? name = some n.toNat) (hread : Appends (.stackRef n) s t)
      (hname : Relabels (some name) t s') : Code functions (.value (.var name)) s s'
  | dynamic {name : String} {s t s' : Assembly} (hfind : s.slots.find? name = none)
      (hread : AppendsIndexed .varRef (.symbol name) s t) (hname : Relabels (some name) t s') :
      Code functions (.value (.var name)) s s'
  | resultRef {index : Nat} {var : String} {s s' : Assembly}
      (hvar : Host.resultVar? index = some var)
      (hread : AppendsIndexed .varRef (.symbol var) s s') :
      Code functions (.value (.resultRef index)) s s'
  | application {f : Form} {name : String} {args : List Form} {n : UInt8} {s t u s' : Assembly}
      (hf : f.application? = some (name, args))
      (hload : AppendsIndexed .constRef (.symbol name) s t)
      (hargs : Code functions (.values args) t u) (hn : n.toNat = args.length)
      (hcall : Appends (.call n) u s') : Code functions (.value f) s s'
  | sparseArray {ctor : Form} {stores : List (Int64 × Form)} {s t s' : Assembly}
      (hctor : Code functions (.value ctor) s t) (hstores : Code functions (.stores stores) t s') :
      Code functions (.value (.sparseArray ctor stores)) s s'
  | get {source index : Form} {s t u s' : Assembly} (hsource : Code functions (.value source) s t)
      (hindex : Code functions (.value index) t u) (hget : Appends .arrayRef u s') :
      Code functions (.value (.get source index)) s s'
  | concat {kind : OpKind} {family : Family} {args : List Form} {n : UInt8} {s t s' : Assembly}
      (hplan : kind.plan? family = some .concat) (hargs : Code functions (.values args) s t)
      (hn : n.toNat = args.length) (hconcat : Appends (.concat n) t s') :
      Code functions (.value (.op kind family args)) s s'
  | fold {kind : OpKind} {family : Family} {i : BinaryInstr} {first : Form} {rest : List Form}
      {s t s' : Assembly} (hplan : kind.plan? family = some (.fold i)) (hrest : rest ≠ [])
      (hfirst : Code functions (.value first) s t) (hchain : Code functions (.chain i rest) t s') :
      Code functions (.value (.op kind family (first :: rest))) s s'
  | foldNot {kind : OpKind} {family : Family} {i : BinaryInstr} {first : Form} {rest : List Form}
      {s t u s' : Assembly} (hplan : kind.plan? family = some (.foldNot i)) (hrest : rest ≠ [])
      (hfirst : Code functions (.value first) s t) (hchain : Code functions (.chain i rest) t u)
      (hnot : Appends (.unary .not) u s') :
      Code functions (.value (.op kind family (first :: rest))) s s'
  | unary {f arg : Form} {i : UnaryInstr} {s t s' : Assembly} (hf : f.unary? = some (i, arg))
      (harg : Code functions (.value arg) s t) (hinstr : Appends (.unary i) t s') :
      Code functions (.value f) s s'
  | shortcut {f left right : Form} {kind : JumpKind} {l : Label} {s a b c d e s' : Assembly}
      (hf : f.shortcut? = some (kind, left, right)) (hlabel : Creates l s a)
      (hleft : Code functions (.value left) a b) (hjump : Appends (.jump kind l) b c)
      (hright : Code functions (.value right) c d) (hplace : Places l d e)
      (hname : Relabels none e s') : Code functions (.value f) s s'
  | noValues {s : Assembly} : Code functions (.values []) s s
  | valuesCons {f : Form} {fs : List Form} {s t s' : Assembly}
      (hf : Code functions (.value f) s t) (hfs : Code functions (.values fs) t s') :
      Code functions (.values (f :: fs)) s s'
  | noChain {i : BinaryInstr} {s : Assembly} : Code functions (.chain i []) s s
  | chainCons {i : BinaryInstr} {f : Form} {fs : List Form} {s t u s' : Assembly}
      (hf : Code functions (.value f) s t) (hinstr : Appends (.binary i) t u)
      (hfs : Code functions (.chain i fs) u s') : Code functions (.chain i (f :: fs)) s s'
  | noStores {s : Assembly} : Code functions (.stores []) s s
  | storesCons {index : Int64} {f : Form} {rest : List (Int64 × Form)} {s a b c d s' : Assembly}
      (hcopy : Appends (.stackRef 0) s a) (hindex : AppendsIndexed .constRef (.int index) a b)
      (hf : Code functions (.value f) b c) (hset : Appends .arraySet c d)
      (hrest : Code functions (.stores rest) d s') :
      Code functions (.stores ((index, f) :: rest)) s s'
  | noResults {vars : List String} {s : Assembly} : Code functions (.results vars []) s s
  | resultsCons {var : String} {vars : List String} {f : Form} {fs : List Form}
      {s t u s' : Assembly} (hf : Code functions (.value f) s t)
      (hset : AppendsIndexed .varSet (.symbol var) t u)
      (hfs : Code functions (.results vars fs) u s') :
      Code functions (.results (var :: vars) (f :: fs)) s s'
  | block {body : Block} {s t s' : Assembly} (hbody : Code functions (.forms body) s t)
      (hdrop : Drops body.locals t s') : Code functions (.form (.block body)) s s'
  | branch {cond : Form} {body : Block} {l : Label} {s a b c d e s' : Assembly}
      (hlabel : Creates l s a) (hcond : Code functions (.value cond) a b)
      (hjump : Appends (.jump .ifNil l) b c) (hbody : Code functions (.forms body) c d)
      (hdrop : Drops body.locals d e) (hplace : Places l e s') :
      Code functions (.form (.branch cond body none)) s s'
  /-- Control does not get past the body, so no jump leads around the other way. -/
  | branchElse {cond other : Form} {body : Block} {l : Label} {s a b c d e f s' : Assembly}
      (hends : lastTerminates functions body = true) (hlabel : Creates l s a)
      (hcond : Code functions (.value cond) a b) (hjump : Appends (.jump .ifNil l) b c)
      (hbody : Code functions (.forms body) c d) (hdrop : Drops body.locals d e)
      (hplace : Places l e f) (hother : Code functions (.form other) f s') :
      Code functions (.form (.branch cond body (some other))) s s'
  | branchJoin {cond other : Form} {body : Block} {l m : Label} {s a b c d e f g h k s' : Assembly}
      (hlabel : Creates l s a) (hcond : Code functions (.value cond) a b)
      (hjump : Appends (.jump .ifNil l) b c) (hbody : Code functions (.forms body) c d)
      (hdrop : Drops body.locals d e) (hdone : Creates m e f)
      (hskip : Appends (.jump .always m) f g) (hplace : Places l g h)
      (hother : Code functions (.form other) h k) (hjoin : Places m k s') :
      Code functions (.form (.branch cond body (some other))) s s'
  | loop {cond : Form} {body : Block} {post : Option Form} {l m : Label}
      {s a b c d e f g h k n s' : Assembly} (htest : Creates l s a) (hstart : Creates m a b)
      (hjump : Appends (.jump .always l) b c) (hplace : Places m c d)
      (hbody : Code functions (.forms body)
        { d with loops := d.loops.enter d.slots.depth (if post.isNone then some l else none) } e)
      (hdrop : Drops body.locals e f) (hpost : Code functions (.post post) f g)
      (hplaceTest : Places l g h) (hcond : Code functions (.value cond) h k)
      (hagain : Appends (.jump .ifNotNil m) k n) (hclose : Closes n s') :
      Code functions (.form (.loop cond body post)) s s'
  | noPost {s : Assembly} : Code functions (.post none) s s
  | post {f : Form} {s s' : Assembly} (hnone : s.loops.current?.bind (·.continueLabel) = none)
      (hf : Code functions (.form f) s s') : Code functions (.post (some f)) s s'
  | postAt {f : Form} {l : Label} {s t s' : Assembly}
      (hsome : s.loops.current?.bind (·.continueLabel) = some l) (hplace : Places l s t)
      (hf : Code functions (.form f) t s') : Code functions (.post (some f)) s s'
  | retNil {s t s' : Assembly} (hload : AppendsIndexed .constRef (.symbol Host.nil) s t)
      (hret : Appends .ret t s') : Code functions (.form (.ret [])) s s'
  | ret {first : Form} {rest : List Form} {s t u s' : Assembly}
      (hfirst : Code functions (.value first) s t)
      (hrest : Code functions (.results Host.resultVars rest) t u) (hret : Appends .ret u s') :
      Code functions (.form (.ret (first :: rest))) s s'
  | jump {f : Form} {j : LoopJump} {c : LoopContext} {rest : List LoopContext} {l : Label}
      {s t s' : Assembly} (hf : f.loopJump? = some j) (hloops : s.loops.loops = c :: rest)
      (hfind : Finds j c rest l s t) (hleave : Leaves c.depth l t s') :
      Code functions (.form f) s s'
  | bind {name : String} {init : Form} {s t s' : Assembly}
      (hinit : Code functions (.value init) s t) (hname : Relabels (some name) t s') :
      Code functions (.form (.bind name init)) s s'
  | rebindSlot {name : String} {value : Form} {n : UInt16} {s t s' : Assembly}
      (hvalue : Code functions (.value value) s t) (hfind : t.slots.find? name = some n.toNat)
      (hset : Appends (.stackSet n) t s') : Code functions (.form (.rebind name value)) s s'
  | rebindDynamic {name : String} {value : Form} {s t s' : Assembly}
      (hvalue : Code functions (.value value) s t) (hfind : t.slots.find? name = none)
      (hset : AppendsIndexed .varSet (.symbol name) t s') :
      Code functions (.form (.rebind name value)) s s'
  | set {target index value : Form} {s t u v s' : Assembly}
      (htarget : Code functions (.value target) s t) (hindex : Code functions (.value index) t u)
      (hvalue : Code functions (.value value) u v) (hset : Appends .arraySet v s') :
      Code functions (.form (.set target index value)) s s'
  /-- The call never returns, so nothing drops its value. -/
  | never {name : String} {args : List Form} {n : UInt8} {s t u v s' : Assembly}
      (hnever : functions.convention name = .never)
      (hemit : emitCall functions name args s = .ok .never s')
      (hload : AppendsIndexed .constRef (.symbol name) s t)
      (hargs : Code functions (.values args) t u) (hn : n.toNat = args.length)
      (hcall : Appends (.call n) u v) (hforget : Forgets 1 v s') :
      Code functions (.form (.call name args)) s s'
  | effect {f : Form} {s t s' : Assembly} (hf : Code functions (.value f) s t)
      (hdrop : Drops 1 t s') : Code functions (.form f) s s'
  | noForms {s : Assembly} : Code functions (.forms []) s s
  | formsCons {f : Form} {fs : List Form} {s t s' : Assembly}
      (hf : Code functions (.form f) s t) (hfs : Code functions (.forms fs) t s') :
      Code functions (.forms (f :: fs)) s s'

/-! ### Emitted code is laid out so -/

section

variable {functions : SignatureTable}

theorem checkOperands_ok {kind : OpKind} {family : Family} {args : List Form} {s s' : Assembly}
    {u : Unit} (h : checkOperands kind family args s = .ok u s') : s = s' ∧ 2 ≤ args.length := by
  unfold checkOperands at h
  split at h
  · rename_i hadmits
    constructor
    · cases hclash : args.find? (·.clashesWith family) with
      | some arg =>
          rw [hclash] at h
          cases h
      | none =>
          rw [hclash] at h
          exact (pure_eq_ok.1 h).2
    · unfold OpKind.admits at hadmits
      split at hadmits
      · simpa using hadmits
      · simp only [beq_iff_eq] at hadmits
        omega
  · cases h

/-- The code of a call by name, apart from what its convention asks for. -/
theorem call_code {name : String} {args : List Form} {s t u s' : Assembly} {x : Unit}
    (hload : AppendsIndexed .constRef (.symbol name) s t)
    (hargs : Code functions (.values args) t u) (hcall : Emit.call args.length u = .ok x s')
    {f : Form} (hf : f.application? = some (name, args)) : Code functions (.value f) s s' := by
  obtain ⟨n, hn, hcall⟩ := Emit.call_ok hcall
  exact .application hf hload hargs hn hcall

mutual
/-- Code for a value. -/
theorem emitValue_code (f : Form) {s s' : Assembly} {u : Unit}
    (h : emitValue functions f s = .ok u s') : Code functions (.value f) s s' := by
  cases f with
  | bool b => exact .constant rfl (Emit.indexed_ok h)
  | char c => exact .constant rfl (Emit.indexed_ok h)
  | int v => exact .constant rfl (Emit.indexed_ok h)
  | float x => exact .constant rfl (Emit.indexed_ok h)
  | str text => exact .constant rfl (Emit.indexed_ok h)
  | symbol name => exact .constant rfl (Emit.indexed_ok h)
  | var name =>
      obtain ⟨t, hname, ⟨n, hfind, hread⟩ | ⟨hfind, hread⟩⟩ := Emit.varRef_ok h
      · exact .slot hfind hread hname
      · exact .dynamic hfind hread hname
  | array elems =>
      obtain ⟨_, t, hload, h⟩ := bind_eq_ok.1 h
      obtain ⟨_, u, hargs, h⟩ := bind_eq_ok.1 h
      exact call_code (Emit.indexed_ok hload) (emitValues_code elems hargs) h rfl
  | sparseArray ctor stores =>
      obtain ⟨_, t, hctor, h⟩ := bind_eq_ok.1 h
      exact .sparseArray (emitValue_code ctor hctor) (emitStores_code stores h)
  | copy source =>
      obtain ⟨_, t, hload, h⟩ := bind_eq_ok.1 h
      obtain ⟨_, u, hsource, h⟩ := bind_eq_ok.1 h
      exact call_code (Emit.indexed_ok hload)
        (.valuesCons (emitValue_code source hsource) .noValues) h rfl
  | get source index =>
      obtain ⟨_, t, hsource, h⟩ := bind_eq_ok.1 h
      obtain ⟨_, u, hindex, h⟩ := bind_eq_ok.1 h
      exact .get (emitValue_code source hsource) (emitValue_code index hindex) (Emit.instr_ok h)
  | op kind family args =>
      obtain ⟨_, s₀, hcheck, h⟩ := bind_eq_ok.1 h
      obtain ⟨rfl, hlength⟩ := checkOperands_ok hcheck
      cases hplan : kind.plan? family with
      | none =>
          rw [hplan] at h
          cases h
      | some plan =>
          rw [hplan] at h
          cases plan with
          | fold i =>
              obtain ⟨first, rest, t, rfl, hfirst, hrest⟩ := emitFold_code i args hlength h
              exact .fold hplan (by rintro rfl; simp at hlength) hfirst hrest
          | foldNot i =>
              obtain ⟨_, v, hfold, hnot⟩ := bind_eq_ok.1 h
              obtain ⟨first, rest, t, rfl, hfirst, hrest⟩ := emitFold_code i args hlength hfold
              exact .foldNot hplan (by rintro rfl; simp at hlength) hfirst hrest
                (Emit.instr_ok hnot)
          | concat =>
              obtain ⟨_, t, hargs, h⟩ := bind_eq_ok.1 h
              obtain ⟨n, hn, hconcat⟩ := Emit.concat_ok h
              exact .concat hplan (emitValues_code args hargs) hn hconcat
          | host name =>
              obtain ⟨_, t, hload, h⟩ := bind_eq_ok.1 h
              obtain ⟨_, u, hargs, h⟩ := bind_eq_ok.1 h
              exact call_code (Emit.indexed_ok hload) (emitValues_code args hargs) h
                (by simp [Form.application?, hplan])
  | unary kind family arg =>
      cases kind with
      | neg =>
          cases family with
          | string => cases h
          | int =>
              obtain ⟨_, t, harg, h⟩ := bind_eq_ok.1 h
              exact .unary rfl (emitValue_code arg harg) (Emit.instr_ok h)
          | float =>
              obtain ⟨_, t, harg, h⟩ := bind_eq_ok.1 h
              exact .unary rfl (emitValue_code arg harg) (Emit.instr_ok h)
      | bitNot =>
          cases family with
          | string => cases h
          | float => cases h
          | int =>
              obtain ⟨_, t, hload, h⟩ := bind_eq_ok.1 h
              obtain ⟨_, u, harg, h⟩ := bind_eq_ok.1 h
              exact call_code (Emit.indexed_ok hload)
                (.valuesCons (emitValue_code arg harg) .noValues) h rfl
  | not arg =>
      obtain ⟨_, t, harg, h⟩ := bind_eq_ok.1 h
      exact .unary rfl (emitValue_code arg harg) (Emit.instr_ok h)
  | and left right =>
      obtain ⟨l, a, hlabel, h⟩ := bind_eq_ok.1 h
      obtain ⟨_, b, hleft, h⟩ := bind_eq_ok.1 h
      obtain ⟨_, c, hjump, h⟩ := bind_eq_ok.1 h
      obtain ⟨_, d, hright, h⟩ := bind_eq_ok.1 h
      obtain ⟨_, e, hplace, h⟩ := bind_eq_ok.1 h
      exact .shortcut rfl (Emit.newLabel_ok hlabel) (emitValue_code left hleft)
        (Emit.instr_ok hjump) (emitValue_code right hright) (Emit.bindLabel_ok hplace)
        (Emit.unbindTop_ok h)
  | or left right =>
      obtain ⟨l, a, hlabel, h⟩ := bind_eq_ok.1 h
      obtain ⟨_, b, hleft, h⟩ := bind_eq_ok.1 h
      obtain ⟨_, c, hjump, h⟩ := bind_eq_ok.1 h
      obtain ⟨_, d, hright, h⟩ := bind_eq_ok.1 h
      obtain ⟨_, e, hplace, h⟩ := bind_eq_ok.1 h
      exact .shortcut rfl (Emit.newLabel_ok hlabel) (emitValue_code left hleft)
        (Emit.instr_ok hjump) (emitValue_code right hright) (Emit.bindLabel_ok hplace)
        (Emit.unbindTop_ok h)
  | call name args =>
      obtain ⟨_, t, hload, h⟩ := bind_eq_ok.1 h
      obtain ⟨_, u, hargs, h⟩ := bind_eq_ok.1 h
      obtain ⟨convention, v, hend, h⟩ := bind_eq_ok.1 h
      obtain ⟨_, v', hcall, hend⟩ := bind_eq_ok.1 hend
      split at h
      · rename_i hvalue
        cases h
        -- only a function with a value gets here, and then nothing follows the call
        cases hconvention : functions.convention name with
        | value =>
            rw [hconvention] at hend
            cases hend
            exact call_code (Emit.indexed_ok hload) (emitValues_code args hargs) hcall rfl
        | void =>
            rw [hconvention] at hend
            obtain ⟨_, v'', _, hend⟩ := bind_eq_ok.1 hend
            cases hend
            cases hvalue
        | never =>
            rw [hconvention] at hend
            obtain ⟨_, v'', _, hend⟩ := bind_eq_ok.1 hend
            cases hend
            cases hvalue
      · cases h
  | dynCall callee args =>
      obtain ⟨_, t, hload, h⟩ := bind_eq_ok.1 h
      obtain ⟨_, u, hcallee, h⟩ := bind_eq_ok.1 h
      obtain ⟨_, v, hargs, h⟩ := bind_eq_ok.1 h
      exact call_code (Emit.indexed_ok hload)
        (.valuesCons (emitValue_code callee hcallee) (emitValues_code args hargs)) h rfl
  | resultRef index =>
      change emitResultRef index s = .ok u s' at h
      unfold emitResultRef at h
      split at h
      · cases h
      · cases hvar : Host.resultVar? index with
        | none =>
            rw [hvar] at h
            cases h
        | some var =>
            rw [hvar] at h
            exact .resultRef hvar (Emit.indexed_ok h)
  | _ => cases h

theorem emitValues_code (fs : List Form) {s s' : Assembly} {u : Unit}
    (h : emitValues functions fs s = .ok u s') : Code functions (.values fs) s s' := by
  cases fs with
  | nil =>
      cases h
      exact .noValues
  | cons f fs =>
      obtain ⟨_, t, hf, h⟩ := bind_eq_ok.1 h
      exact .valuesCons (emitValue_code f hf) (emitValues_code fs h)

theorem emitFold_code (i : BinaryInstr) (fs : List Form) (hlength : 2 ≤ fs.length)
    {s s' : Assembly} {u : Unit} (h : emitFold functions i fs s = .ok u s') :
    ∃ first rest t, fs = first :: rest ∧ Code functions (.value first) s t ∧
      Code functions (.chain i rest) t s' := by
  cases fs with
  | nil => simp at hlength
  | cons first rest =>
      obtain ⟨_, t, hfirst, h⟩ := bind_eq_ok.1 h
      exact ⟨first, rest, t, rfl, emitValue_code first hfirst, emitFoldRest_code i rest h⟩

theorem emitFoldRest_code (i : BinaryInstr) (fs : List Form) {s s' : Assembly} {u : Unit}
    (h : emitFoldRest functions i fs s = .ok u s') : Code functions (.chain i fs) s s' := by
  cases fs with
  | nil =>
      cases h
      exact .noChain
  | cons f fs =>
      obtain ⟨_, t, hf, h⟩ := bind_eq_ok.1 h
      obtain ⟨_, v, hinstr, h⟩ := bind_eq_ok.1 h
      exact .chainCons (emitValue_code f hf) (Emit.instr_ok hinstr) (emitFoldRest_code i fs h)

theorem emitStores_code (stores : List (Int64 × Form)) {s s' : Assembly} {u : Unit}
    (h : emitStores functions stores s = .ok u s') : Code functions (.stores stores) s s' := by
  cases stores with
  | nil =>
      cases h
      exact .noStores
  | cons store rest =>
      obtain ⟨index, f⟩ := store
      obtain ⟨_, a, hcopy, h⟩ := bind_eq_ok.1 h
      obtain ⟨_, b, hindex, h⟩ := bind_eq_ok.1 h
      obtain ⟨_, c, hf, h⟩ := bind_eq_ok.1 h
      obtain ⟨_, d, hset, h⟩ := bind_eq_ok.1 h
      exact .storesCons (Emit.instr_ok hcopy) (Emit.indexed_ok hindex) (emitValue_code f hf)
        (Emit.instr_ok hset) (emitStores_code rest h)
end

theorem emitResults_code {vars : List String} {fs : List Form} (hlength : fs.length ≤ vars.length)
    {s s' : Assembly} {u : Unit} (h : emitResults functions vars fs s = .ok u s') :
    Code functions (.results vars fs) s s' := by
  induction fs generalizing vars s with
  | nil =>
      have hs : s = s' := by
        cases vars <;> exact (pure_eq_ok.1 h).2
      subst hs
      exact .noResults
  | cons f fs ih =>
      cases vars with
      | nil => simp at hlength
      | cons var vars =>
          obtain ⟨_, t, hf, h⟩ := bind_eq_ok.1 h
          obtain ⟨_, v, hset, h⟩ := bind_eq_ok.1 h
          exact .resultsCons (emitValue_code f hf) (Emit.indexed_ok hset)
            (ih (by simpa using hlength) h)

theorem emitReturn_code {results : List Form} {s s' : Assembly} {u : Unit}
    (h : emitReturn functions results s = .ok u s') :
    Code functions (.form (.ret results)) s s' := by
  unfold emitReturn at h
  cases results with
  | nil =>
      obtain ⟨_, t, hload, h⟩ := bind_eq_ok.1 h
      exact .retNil (Emit.indexed_ok hload) (Emit.instr_ok h)
  | cons first rest =>
      dsimp only at h
      split at h
      · rename_i hmax
        have hlength : rest.length ≤ Host.resultVars.length := by
          simpa [Host.maxResults] using hmax
        obtain ⟨_, t, hfirst, h⟩ := bind_eq_ok.1 h
        obtain ⟨_, v, hrest, h⟩ := bind_eq_ok.1 h
        exact .ret (emitValue_code first hfirst) (emitResults_code hlength hrest) (Emit.instr_ok h)
      · cases h

/-- The code of a call whose value, if there is one, is dropped. -/
theorem emitCall_code {name : String} {args : List Form} {s s' : Assembly} {u : Unit}
    (h : emitForm functions (.call name args) s = .ok u s') :
    Code functions (.form (.call name args)) s s' := by
  obtain ⟨convention, w, hemit, h⟩ := bind_eq_ok.1 h
  obtain ⟨_, t, hload, hcall⟩ := bind_eq_ok.1 hemit
  obtain ⟨_, v, hargs, hcall⟩ := bind_eq_ok.1 hcall
  obtain ⟨_, v', hinstr, hend⟩ := bind_eq_ok.1 hcall
  have hload := Emit.indexed_ok hload
  have hargs := emitValues_code args hargs
  cases hconvention : functions.convention name with
  | value =>
      rw [hconvention] at hend
      cases hend
      exact .effect (call_code hload hargs hinstr rfl) (Emit.discard_ok h)
  | void =>
      rw [hconvention] at hend
      obtain ⟨_, v'', hdrop, hend⟩ := bind_eq_ok.1 hend
      cases hend
      cases h
      exact .effect (call_code hload hargs hinstr rfl) (Emit.discard_ok hdrop)
  | never =>
      rw [hconvention] at hend
      obtain ⟨_, v'', hforget, hend⟩ := bind_eq_ok.1 hend
      cases hend
      cases h
      obtain ⟨n, hn, hinstr⟩ := Emit.call_ok hinstr
      exact .never hconvention hemit hload hargs hn hinstr (Emit.discardModel_ok hforget)

mutual
/-- Code for an effect. -/
theorem emitForm_code (f : Form) {s s' : Assembly} {u : Unit}
    (h : emitForm functions f s = .ok u s') : Code functions (.form f) s s' := by
  cases f with
  | block body =>
      obtain ⟨_, t, hbody, h⟩ := bind_eq_ok.1 h
      exact .block (emitForms_code body hbody) (Emit.discard_ok h)
  | branch cond body els =>
      unfold emitForm at h
      obtain ⟨l, a, hlabel, h⟩ := bind_eq_ok.1 h
      obtain ⟨_, b, hcond, h⟩ := bind_eq_ok.1 h
      obtain ⟨_, c, hjump, h⟩ := bind_eq_ok.1 h
      obtain ⟨_, d, hbody, h⟩ := bind_eq_ok.1 h
      obtain ⟨_, e, hdrop, h⟩ := bind_eq_ok.1 h
      have hlabel := Emit.newLabel_ok hlabel
      have hcond := emitValue_code cond hcond
      have hjump := Emit.instr_ok hjump
      have hbody := emitForms_code body hbody
      have hdrop := Emit.discard_ok hdrop
      cases els with
      | none => exact .branch hlabel hcond hjump hbody hdrop (Emit.bindLabel_ok h)
      | some other =>
          dsimp only at h
          split at h
          · rename_i hends
            obtain ⟨_, g, hplace, h⟩ := bind_eq_ok.1 h
            exact .branchElse hends hlabel hcond hjump hbody hdrop (Emit.bindLabel_ok hplace)
              (emitForm_code other h)
          · obtain ⟨m, g, hdone, h⟩ := bind_eq_ok.1 h
            obtain ⟨_, g₁, hskip, h⟩ := bind_eq_ok.1 h
            obtain ⟨_, g₂, hplace, h⟩ := bind_eq_ok.1 h
            obtain ⟨_, g₃, hother, h⟩ := bind_eq_ok.1 h
            exact .branchJoin hlabel hcond hjump hbody hdrop (Emit.newLabel_ok hdone)
              (Emit.instr_ok hskip) (Emit.bindLabel_ok hplace) (emitForm_code other hother)
              (Emit.bindLabel_ok h)
  | loop cond body post =>
      unfold emitForm at h
      obtain ⟨l, a, htest, h⟩ := bind_eq_ok.1 h
      obtain ⟨m, b, hstart, h⟩ := bind_eq_ok.1 h
      obtain ⟨_, c, hjump, h⟩ := bind_eq_ok.1 h
      obtain ⟨_, d, hplace, h⟩ := bind_eq_ok.1 h
      obtain ⟨_, d', henter, h⟩ := bind_eq_ok.1 h
      rw [Emit.enterLoop_eq] at henter
      cases henter
      obtain ⟨_, e, hbody, h⟩ := bind_eq_ok.1 h
      obtain ⟨_, f, hdrop, h⟩ := bind_eq_ok.1 h
      have hbody := emitForms_code body hbody
      have hpost : ∃ g, Code functions (.post post) f g ∧ (do
          Emit.bindLabel l
          emitValue functions cond
          Emit.jump .ifNotNil m
          Emit.exitLoop : Emit Unit) g = .ok u s' := by
        cases post with
        | none => exact ⟨f, .noPost, h⟩
        | some after =>
            obtain ⟨pending, f', hpending, h⟩ := bind_eq_ok.1 h
            rw [Emit.pendingContinue_eq] at hpending
            cases hpending
            cases hlabel : f.loops.current?.bind (·.continueLabel) with
            | none =>
                rw [hlabel] at h
                obtain ⟨_, g, hafter, h⟩ := bind_eq_ok.1 h
                exact ⟨g, .post hlabel (emitForm_code after hafter), h⟩
            | some k =>
                rw [hlabel] at h
                obtain ⟨_, f', hplace, h⟩ := bind_eq_ok.1 h
                obtain ⟨_, g, hafter, h⟩ := bind_eq_ok.1 h
                exact ⟨g, .postAt hlabel (Emit.bindLabel_ok hplace) (emitForm_code after hafter), h⟩
      obtain ⟨g, hpost, h⟩ := hpost
      obtain ⟨_, h', hplaceTest, h⟩ := bind_eq_ok.1 h
      obtain ⟨_, k, hcond, h⟩ := bind_eq_ok.1 h
      obtain ⟨_, n, hagain, h⟩ := bind_eq_ok.1 h
      exact .loop (Emit.newLabel_ok htest) (Emit.newLabel_ok hstart) (Emit.instr_ok hjump)
        (Emit.bindLabel_ok hplace) hbody (Emit.discard_ok hdrop) hpost
        (Emit.bindLabel_ok hplaceTest) (emitValue_code cond hcond) (Emit.instr_ok hagain)
        (Emit.exitLoop_ok h)
  | ret results => exact emitReturn_code h
  | breakLoop =>
      obtain ⟨c, rest, l, t, hloops, hfind, hleave⟩ := Emit.loopJump_ok h
      exact .jump rfl hloops hfind hleave
  | continueLoop =>
      obtain ⟨c, rest, l, t, hloops, hfind, hleave⟩ := Emit.loopJump_ok h
      exact .jump rfl hloops hfind hleave
  | bind name init =>
      obtain ⟨_, t, hinit, h⟩ := bind_eq_ok.1 h
      exact .bind (emitValue_code init hinit) (Emit.bindLocal_ok h)
  | rebind name value =>
      obtain ⟨_, t, hvalue, h⟩ := bind_eq_ok.1 h
      obtain ⟨n, hfind, hset⟩ | ⟨hfind, hset⟩ := Emit.varSet_ok h
      · exact .rebindSlot (emitValue_code value hvalue) hfind hset
      · exact .rebindDynamic (emitValue_code value hvalue) hfind hset
  | set target index value =>
      obtain ⟨_, t, htarget, h⟩ := bind_eq_ok.1 h
      obtain ⟨_, v, hindex, h⟩ := bind_eq_ok.1 h
      obtain ⟨_, w, hvalue, h⟩ := bind_eq_ok.1 h
      exact .set (emitValue_code target htarget) (emitValue_code index hindex)
        (emitValue_code value hvalue) (Emit.instr_ok h)
  | call name args => exact emitCall_code h
  | _ =>
      obtain ⟨_, t, hvalue, h⟩ := bind_eq_ok.1 h
      exact .effect (emitValue_code _ hvalue) (Emit.discard_ok h)

theorem emitForms_code (fs : List Form) {s s' : Assembly} {u : Unit}
    (h : emitForms functions fs s = .ok u s') : Code functions (.forms fs) s s' := by
  cases fs with
  | nil =>
      cases h
      exact .noForms
  | cons f fs =>
      obtain ⟨_, t, hf, h⟩ := bind_eq_ok.1 h
      exact .formsCons (emitForm_code f hf) (emitForms_code fs h)
end

end

end StackCompiler
