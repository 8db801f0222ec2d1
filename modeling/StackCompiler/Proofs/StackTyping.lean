import StackCompiler.Proofs.Depths

/-!
The depth of the stack at every instruction of a compiled function. It does not depend on the way by
which control gets there, it is never too small for the instruction, and it never exceeds the
greatest depth that is noted with the code. Control does not run past the end of the code.
-/

namespace StackCompiler

open CompiledFunction

/-- In the code of a piece that is laid out from an assembly on, the code of the statement `f`
begins at `t`. -/
inductive Begins (functions : SignatureTable) (f : Form) (t : Assembly) :
    Piece → Assembly → Prop where
  | here : Begins functions f t (.form f) t
  | head {g : Form} {gs : List Form} {s : Assembly} (h : Begins functions f t (.form g) s) :
      Begins functions f t (.forms (g :: gs)) s
  | tail {g : Form} {gs : List Form} {s a : Assembly} (hg : Code functions (.form g) s a)
      (h : Begins functions f t (.forms gs) a) : Begins functions f t (.forms (g :: gs)) s
  | block {body : Block} {s : Assembly} (h : Begins functions f t (.forms body) s) :
      Begins functions f t (.form (.block body)) s
  | branch {cond : Form} {body : Block} {els : Option Form} {l : Label} {s a b c : Assembly}
      (hlabel : Creates l s a) (hcond : Code functions (.value cond) a b)
      (hjump : Appends (.jump .ifNil l) b c) (h : Begins functions f t (.forms body) c) :
      Begins functions f t (.form (.branch cond body els)) s
  | els {cond other : Form} {body : Block} {l : Label} {s a b c d e g : Assembly}
      (hends : lastTerminates functions body = true) (hlabel : Creates l s a)
      (hcond : Code functions (.value cond) a b) (hjump : Appends (.jump .ifNil l) b c)
      (hbody : Code functions (.forms body) c d) (hdrop : Drops body.locals d e)
      (hplace : Places l e g) (h : Begins functions f t (.form other) g) :
      Begins functions f t (.form (.branch cond body (some other))) s
  | elsJoin {cond other : Form} {body : Block} {l m : Label} {s a b c d e g k n : Assembly}
      (hlabel : Creates l s a) (hcond : Code functions (.value cond) a b)
      (hjump : Appends (.jump .ifNil l) b c) (hbody : Code functions (.forms body) c d)
      (hdrop : Drops body.locals d e) (hdone : Creates m e g)
      (hskip : Appends (.jump .always m) g k) (hplace : Places l k n)
      (h : Begins functions f t (.form other) n) :
      Begins functions f t (.form (.branch cond body (some other))) s
  | loop {cond : Form} {body : Block} {post : Option Form} {l m : Label} {s a b c d : Assembly}
      (htest : Creates l s a) (hstart : Creates m a b) (hjump : Appends (.jump .always l) b c)
      (hplace : Places m c d)
      (h : Begins functions f t (.forms body)
        { d with loops := d.loops.enter d.slots.depth (if post.isNone then some l else none) }) :
      Begins functions f t (.form (.loop cond body post)) s
  | loopPost {cond : Form} {body : Block} {post : Option Form} {l m : Label}
      {s a b c d e g : Assembly} (htest : Creates l s a) (hstart : Creates m a b)
      (hjump : Appends (.jump .always l) b c) (hplace : Places m c d)
      (hbody : Code functions (.forms body)
        { d with loops := d.loops.enter d.slots.depth (if post.isNone then some l else none) } e)
      (hdrop : Drops body.locals e g) (h : Begins functions f t (.post post) g) :
      Begins functions f t (.form (.loop cond body post)) s
  | post {g : Form} {s : Assembly} (hnone : s.loops.current?.bind (·.continueLabel) = none)
      (h : Begins functions f t (.form g) s) : Begins functions f t (.post (some g)) s
  | postAt {g : Form} {l : Label} {s a : Assembly}
      (hsome : s.loops.current?.bind (·.continueLabel) = some l) (hplace : Places l s a)
      (h : Begins functions f t (.form g) a) : Begins functions f t (.post (some g)) s

theorem Begins.append {functions : SignatureTable} {f : Form} {t s : Assembly} {gs : List Form}
    (h : Begins functions f t (.forms gs) s) (hs : List Form) :
    Begins functions f t (.forms (gs ++ hs)) s := by
  induction gs generalizing s with
  | nil => cases h
  | cons g gs ih =>
      cases h with
      | head h => exact .head h
      | tail hg h => exact .tail hg (ih h)

/-- The instruction ends the code of a statement of the piece that calls by name a function which
never returns. -/
def CompiledFunction.EndsAt (F : CompiledFunction) (functions : SignatureTable) (p : Piece)
    (s : Assembly) (k : Nat) : Prop :=
  ∃ name args t t', Begins functions (.call name args) t p s ∧
    functions.convention name = .never ∧ emitCall functions name args t = .ok .never t' ∧
    F.Contains t' ∧ t'.code.size = k + 1

/-- What ends the code of a part of a piece ends code of the piece. -/
theorem CompiledFunction.EndsAt.of_part {F : CompiledFunction} {functions : SignatureTable}
    {p q : Piece} {s t : Assembly} {k : Nat} (h : F.EndsAt functions q t k)
    (hpart : ∀ f u, Begins functions f u q t → Begins functions f u p s) :
    F.EndsAt functions p s k := by
  obtain ⟨name, args, u, u', hbegins, hend⟩ := h
  exact ⟨name, args, u, u', hpart _ _ hbegins, hend⟩

/-- What has to hold before the code of a piece, besides what its instructions check: it is known
where the code of statements ends, and a loop is at the depth at which it was opened. -/
def Piece.Ready (F : CompiledFunction) (functions : SignatureTable) (ends : Nat → Prop) :
    Piece → Assembly → Prop
  | .stores _, s => 0 < s.slots.names.length
  | .form f, s => ∀ k, F.EndsAt functions (.form f) s k → ends k
  | .forms fs, s => ∀ k, F.EndsAt functions (.forms fs) s k → ends k
  | .post after, s => (∀ k, F.EndsAt functions (.post after) s k → ends k) ∧
      ∀ c rest, s.loops.loops = c :: rest → c.depth = s.slots.names.length
  | _, _ => True

theorem Slots.find?_lt {slots : Slots} {name : String} {n : Nat}
    (h : slots.find? name = some n) : n < slots.names.length := by
  obtain ⟨hlt, -⟩ := List.findIdx?_eq_some_iff_getElem.1 h
  exact hlt

section

variable {functions : SignatureTable} {F : CompiledFunction} {ends : Nat → Prop} {s s' : Assembly}

theorem Code.length_value {f : Form} (h : Code functions (.value f) s s') :
    s'.slots.names.length = s.slots.names.length + 1 := by
  rw [h.names_of_isOperand rfl]
  rfl

/-- The depth at a test of a value and after it. -/
theorem Code.length_test {cond : Form} {kind : JumpKind} {l : Label} {a b c : Assembly}
    (hcond : Code functions (.value cond) a b) (hlabel : Creates l s a)
    (hjump : Appends (.jump kind l) b c) (hpops : (Instr.jump kind l).pops = 1) :
    b.slots.names.length = s.slots.names.length + 1 ∧
      c.slots.names.length = s.slots.names.length := by
  have hb := hcond.length_value
  rw [hlabel.slots] at hb
  refine ⟨hb, ?_⟩
  rw [hjump.names, hpops, List.length_append, List.length_drop, hb]
  simp [Instr.pushes]

section Control

variable {cond : Form} {body : Block} {post : Option Form} {l m : Label}
  {a b c d e f g h k n : Assembly}

/-- A branch up to the end of its body. Its label is expected at the depth before it. -/
theorem Typable.branch (hlabel : Creates l s a) (hcond : Code functions (.value cond) a b)
    (hjump : Appends (.jump .ifNil l) b c) (hdrop : Drops body.locals d e)
    (htest : Typable ends [] a b) (hbody : Typable ends [] c d)
    (hrest : Typable ends [(l, s.slots.names.length)] e s') : Typable ends [] s s' := by
  obtain ⟨hlength_b, -⟩ := hcond.length_test hlabel hjump rfl
  refine .creates s.slots.names.length hlabel (htest.weaken.trans ?_)
  refine (Typable.jumps hjump (by simp [hlength_b, JumpKind.depthTaken])).trans ?_
  exact hbody.weaken.trans ((Typable.drops hdrop).trans hrest)

/-- A loop that has been opened stays open at the depth it has been opened at. -/
theorem Assembly.KeepsLoop.depth_of_enter {continueLabel : Option Label}
    (hkeeps : Assembly.KeepsLoop { d with loops := d.loops.enter d.slots.depth continueLabel } e) :
    ∀ c rest, e.loops.loops = c :: rest → c.depth = d.slots.names.length := by
  obtain ⟨c, hloops, hdepth, -⟩ := hkeeps _ _ rfl
  intro c' rest hloops'
  rw [hloops] at hloops'
  cases hloops'
  exact hdepth.trans d.slots.depth_eq

/-- A loop, if depths can be found for its parts. Both of its labels are expected at the depth
before it, and what follows its body starts at the depth of the loop. -/
theorem Typable.loop (htest : Creates l s a) (hstart : Creates m a b)
    (hjump : Appends (.jump .always l) b c) (hplace : Places m c d)
    (hbody : Code functions (.forms body)
      { d with loops := d.loops.enter d.slots.depth (if post.isNone then some l else none) } e)
    (hdrop : Drops body.locals e f) (hpost : Code functions (.post post) f g)
    (hplaceTest : Places l g h) (hcond : Code functions (.value cond) h k)
    (hagain : Appends (.jump .ifNotNil m) k n) (hclose : Closes n s')
    (htidy : ∀ p ∈ (Form.loop cond body post).parts, p.isTidy = true)
    (hbodyTypable : Typable ends []
      { d with loops := d.loops.enter d.slots.depth (if post.isNone then some l else none) } e)
    (hpostTypable : (∀ c rest, f.loops.loops = c :: rest → c.depth = f.slots.names.length) →
      Typable ends [] f g)
    (hcondTypable : Typable ends [] h k) : Typable ends [] s s' := by
  obtain ⟨hnames_d, hnames_f, hnames_g⟩ :=
    names_of_loop htest hstart hjump hplace hbody hdrop hpost htidy
  have hnames_b : b.slots.names = s.slots.names := by rw [hstart.slots, htest.slots]
  have hlength_k : k.slots.names.length = s.slots.names.length + 1 := by
    rw [hcond.length_value, hplaceTest.slots, hnames_g]
  have hnames_n : n.slots.names = s.slots.names := by
    rw [hagain.names_of_jump hcond rfl, hplaceTest.slots, hnames_g]
  have hstable := Assembly.KeepsLoop.stable
  have hkeeps_f := hbody.keepsLoop.trans (hstable.drops hdrop)
  -- `break` goes to the depth that the loop has at its end, which is the one it was opened at
  have hkeeps_n := hkeeps_f.trans (hpost.keepsLoop.trans ((hstable.places hplaceTest).trans
    (hcond.keepsLoop.trans (hstable.appends hagain))))
  refine .creates s.slots.names.length htest (.creates s.slots.names.length hstart ?_)
  refine (Typable.jumps hjump (by simp [hnames_b, JumpKind.depthTaken])).trans ?_
  refine (Typable.places_of_mem hplace (by rw [← hplace.slots, hnames_d]; simp)).trans ?_
  refine (Typable.enters (l := if post.isNone then some l else none) fun l' hl => ?_).trans ?_
  · cases post with
    | none =>
        cases hl
        simp [hnames_d]
    | some after => cases hl
  refine hbodyTypable.weaken.trans ((Typable.drops hdrop).trans ?_)
  refine (hpostTypable fun c' rest hloops => ?_).weaken.trans ?_
  · rw [hkeeps_f.depth_of_enter c' rest hloops, hnames_d, hnames_f]
  refine (Typable.places_of_mem hplaceTest (by simp [hnames_g])).trans ?_
  refine hcondTypable.weaken.trans ?_
  refine (Typable.jumps hagain (by simp [hlength_k, JumpKind.depthTaken])).trans ?_
  refine .closes hclose fun c' rest hloops => ?_
  rw [hkeeps_n.depth_of_enter c' rest hloops, hnames_d, hnames_n]

end Control

/-- Depths can be found for the code of every piece. -/
theorem Code.typable {p : Piece} (h : Code functions p s s')
    (htidy : ∀ g ∈ p.parts, g.isTidy = true) (hF : F.Contains s')
    (hready : p.Ready F functions ends s) : Typable ends [] s s' := by
  induction h with
  | constant _ hload => exact .loads hload
  | slot hfind hread hname =>
      exact (Typable.reaches hread rfl (Slots.find?_lt hfind)).trans (.relabels hname)
  | dynamic _ hread hname =>
      exact (Typable.indexed hread (fun _ => rfl) fun _ => rfl).trans (.relabels hname)
  | resultRef _ hread => exact .indexed hread (fun _ => rfl) fun _ => rfl
  | application hf hload _ _ hcall ih =>
      have hend : Typable ends [] _ _ := .plain hcall rfl rfl
      have hargs := ih (fun g hg => htidy g ((mem_parts_of_application? hf).2 (.inr hg)))
        (hF.of_grows hend.grows) trivial
      exact (Typable.loads hload).trans (hargs.trans hend)
  | sparseArray hctor hstores ihctor ihstores =>
      simp only [Piece.parts, Form.parts, List.forall_mem_cons, List.forall_mem_append] at htidy
      refine (ihctor htidy.2.1 (hF.of_grows hstores.grows) trivial).trans
        (ihstores htidy.2.2 hF ?_)
      show 0 < _
      rw [hctor.length_value]
      omega
  | get hsource hindex hget ihsource ihindex =>
      simp only [Piece.parts, Form.parts, List.forall_mem_cons, List.forall_mem_append] at htidy
      have hend : Typable ends [] _ _ := .plain hget rfl rfl
      have hFu := hF.of_grows hend.grows
      exact (ihsource htidy.2.1 (hFu.of_grows hindex.grows) trivial).trans
        ((ihindex htidy.2.2 hFu trivial).trans hend)
  | concat _ _ _ hconcat ih =>
      simp only [Piece.parts, Form.parts, List.forall_mem_cons] at htidy
      have hend : Typable ends [] _ _ := .plain hconcat rfl rfl
      exact (ih htidy.2 (hF.of_grows hend.grows) trivial).trans hend
  | fold _ _ _ hchain ihfirst ihchain =>
      simp only [Piece.parts, Form.parts, listParts, List.forall_mem_cons,
        List.forall_mem_append] at htidy
      exact (ihfirst htidy.2.1 (hF.of_grows hchain.grows) trivial).trans
        (ihchain htidy.2.2 hF trivial)
  | foldNot _ _ _ hchain hnot ihfirst ihchain =>
      simp only [Piece.parts, Form.parts, listParts, List.forall_mem_cons,
        List.forall_mem_append] at htidy
      have hend : Typable ends [] _ _ := .plain hnot rfl rfl
      have hFu := hF.of_grows hend.grows
      exact (ihfirst htidy.2.1 (hFu.of_grows hchain.grows) trivial).trans
        ((ihchain htidy.2.2 hFu trivial).trans hend)
  | unary hf _ hinstr ih =>
      have hend : Typable ends [] _ _ := .plain hinstr rfl rfl
      exact (ih (fun g hg => htidy g ((mem_parts_of_unary? hf).2 (.inr hg)))
        (hF.of_grows hend.grows) trivial).trans hend
  | shortcut hf hlabel hleft hjump hright hplace hname ihleft ihright =>
      rename_i f left right kind l s a b c d e s'
      have hpops : (Instr.jump kind l).pops = 1 := by cases f <;> cases hf <;> rfl
      have htaken : ∀ n, kind.depthTaken n = n := by
        intro n
        cases f <;> cases hf <;> rfl
      obtain ⟨hlength_b, hlength_c⟩ := hleft.length_test hlabel hjump hpops
      -- both ways to the label leave one value more than there was before the test
      have hlength_d : d.slots.names.length = s.slots.names.length + 1 := by
        rw [hright.length_value, hlength_c]
      have hFd := hF.of_grows ((Assembly.Grows.of_places hplace).trans
        (Assembly.Grows.stable.relabels hname))
      have hFb := (hFd.of_grows hright.grows).of_grows (Assembly.Grows.stable.appends hjump)
      have hleft := ihleft (fun g hg => htidy g ((mem_parts_of_shortcut? hf).2 (.inr (.inl hg))))
        hFb trivial
      have hright := ihright (fun g hg => htidy g ((mem_parts_of_shortcut? hf).2 (.inr (.inr hg))))
        hFd trivial
      refine .creates (s.slots.names.length + 1) hlabel (hleft.weaken.trans ?_)
      refine (Typable.jumps hjump (by simp [htaken, hlength_b])).trans (hright.weaken.trans ?_)
      exact (Typable.places_of_mem hplace (by simp [hlength_d])).trans (.relabels hname)
  | noValues | noChain | noStores | noResults | noForms | noPost => exact .refl _
  | valuesCons _ hfs ihf ihfs =>
      simp only [Piece.parts, listParts, List.forall_mem_append] at htidy
      exact (ihf htidy.1 (hF.of_grows hfs.grows) trivial).trans (ihfs htidy.2 hF trivial)
  | formsCons hf hfs ihf ihfs =>
      simp only [Piece.parts, listParts, List.forall_mem_append] at htidy
      have hhead := ihf htidy.1 (hF.of_grows hfs.grows) fun k hk =>
        hready k (hk.of_part fun _ _ => .head)
      exact hhead.trans (ihfs htidy.2 hF fun k hk => hready k (hk.of_part fun _ _ => .tail hf))
  | chainCons _ hinstr hfs ihf ihfs =>
      simp only [Piece.parts, listParts, List.forall_mem_append] at htidy
      have happ : Typable ends [] _ _ := .plain hinstr rfl rfl
      have hFt := (hF.of_grows hfs.grows).of_grows happ.grows
      exact (ihf htidy.1 hFt trivial).trans (happ.trans (ihfs htidy.2 hF trivial))
  | storesCons hcopy hindex hf hset hrest ihf ihrest =>
      rename_i s a b c d s'
      simp only [Piece.parts, storeParts, List.forall_mem_append] at htidy
      have happ : Typable ends [] c d := .plain hset rfl rfl
      have hFc := (hF.of_grows hrest.grows).of_grows happ.grows
      have hlength : d.slots.names.length = s.slots.names.length := by
        obtain ⟨n, -, hindex⟩ := hindex
        rw [hset.names, hf.names_of_isOperand rfl, hindex.names, hcopy.names]
        rfl
      have hready' : 0 < d.slots.names.length := hlength ▸ hready
      exact (Typable.reaches hcopy rfl hready).trans ((Typable.loads hindex).trans
        ((ihf htidy.1 hFc trivial).trans (happ.trans (ihrest htidy.2 hF hready'))))
  | resultsCons _ hset hfs ihf ihfs =>
      simp only [Piece.parts, listParts, List.forall_mem_append] at htidy
      have happ : Typable ends [] _ _ :=
        .indexed hset (fun _ => rfl) fun _ => rfl
      have hFt := (hF.of_grows hfs.grows).of_grows happ.grows
      exact (ihf htidy.1 hFt trivial).trans (happ.trans (ihfs htidy.2 hF trivial))
  | block _ hdrop ih =>
      simp only [Piece.parts, Form.parts, List.forall_mem_cons] at htidy
      have hend : Typable ends [] _ _ := .drops hdrop
      refine (ih htidy.2 (hF.of_grows hend.grows) fun k hk => ?_).trans hend
      exact hready k (hk.of_part fun _ _ => .block)
  | branch hlabel hcond hjump hbody hdrop hplace ihcond ihbody =>
      simp only [Piece.parts, Form.parts, List.forall_mem_cons, List.forall_mem_append] at htidy
      have hFd := (hF.of_grows (.of_places hplace)).of_grows (Assembly.Grows.stable.drops hdrop)
      have hFb := (hFd.of_grows hbody.grows).of_grows (Assembly.Grows.stable.appends hjump)
      have hnames := names_of_branch hlabel hcond hjump hbody hdrop
        htidy.2.2.1
      refine .branch hlabel hcond hjump hdrop (ihcond htidy.2.1 hFb trivial)
        (ihbody htidy.2.2.1 hFd fun k hk =>
          hready k (hk.of_part fun _ _ => .branch hlabel hcond hjump)) ?_
      exact .places_of_mem hplace (by simp [hnames])
  | branchElse hends hlabel hcond hjump hbody hdrop hplace hother ihcond ihbody ihother =>
      simp only [Piece.parts, Form.parts, optionParts, List.forall_mem_cons,
        List.forall_mem_append] at htidy
      have hFd := ((hF.of_grows hother.grows).of_grows (.of_places hplace)).of_grows
        (Assembly.Grows.stable.drops hdrop)
      have hFb := (hFd.of_grows hbody.grows).of_grows (Assembly.Grows.stable.appends hjump)
      have hnames := names_of_branch hlabel hcond hjump hbody hdrop
        htidy.2.2.1
      refine .branch hlabel hcond hjump hdrop (ihcond htidy.2.1 hFb trivial)
        (ihbody htidy.2.2.1 hFd fun k hk =>
          hready k (hk.of_part fun _ _ => .branch hlabel hcond hjump)) ?_
      exact (Typable.places_of_mem hplace (by simp [hnames])).trans
        (ihother htidy.2.2.2 hF fun k hk => hready k (hk.of_part fun _ _ =>
          .els hends hlabel hcond hjump hbody hdrop hplace)).weaken
  | branchJoin hlabel hcond hjump hbody hdrop hdone hskip hplace hother hjoin ihcond ihbody
      ihother =>
      rename_i cond other body l m s a b c d e f g h k s'
      have hbind : other.isBind = false := by
        simpa [Form.isTidy] using htidy _ (mem_parts_self _)
      simp only [Piece.parts, Form.parts, optionParts, List.forall_mem_cons,
        List.forall_mem_append] at htidy
      have hFk := hF.of_grows (.of_places hjoin)
      have hFe := (((hFk.of_grows hother.grows).of_grows (.of_places hplace)).of_grows
        (Assembly.Grows.stable.appends hskip)).of_grows (.of_creates hdone)
      have hFd := hFe.of_grows (Assembly.Grows.stable.drops hdrop)
      have hFb := (hFd.of_grows hbody.grows).of_grows (Assembly.Grows.stable.appends hjump)
      have hnames := names_of_branch hlabel hcond hjump hbody hdrop
        htidy.2.2.1
      have hnames_g : g.slots.names = s.slots.names := by
        rw [hskip.names, hdone.slots, hnames]
        rfl
      have hnames_k : k.slots.names = s.slots.names := by
        rw [hother.names htidy.2.2.2, Piece.after_form hbind,
          hplace.slots, hnames_g]
      refine .branch hlabel hcond hjump hdrop (ihcond htidy.2.1 hFb trivial)
        (ihbody htidy.2.2.1 hFd fun k hk =>
          hready k (hk.of_part fun _ _ => .branch hlabel hcond hjump))
        (.creates s.slots.names.length hdone ?_)
      -- both ways get to the second label with the depth before the branch
      refine (Typable.jumps hskip (by simp [hdone.slots, hnames, JumpKind.depthTaken])).trans ?_
      refine (Typable.places_of_mem hplace (by simp [hnames_g])).trans
        ((ihother htidy.2.2.2 hFk fun k hk => ?_).weaken.trans ?_)
      · exact hready k (hk.of_part fun _ _ =>
          .elsJoin hlabel hcond hjump hbody hdrop hdone hskip hplace)
      · exact .places_of_mem hjoin (by simp [hnames_k])
  | loop htest hstart hjump hplace hbody hdrop hpost hplaceTest hcond hagain hclose ihbody ihpost
      ihcond =>
      have hparts := htidy
      simp only [Piece.parts, Form.parts, List.forall_mem_cons, List.forall_mem_append] at htidy
      have hFk := (hF.of_grows (.of_closes hclose)).of_grows (Assembly.Grows.stable.appends hagain)
      have hFg := (hFk.of_grows hcond.grows).of_grows (.of_places hplaceTest)
      have hFe := (hFg.of_grows hpost.grows).of_grows (Assembly.Grows.stable.drops hdrop)
      exact .loop htest hstart hjump hplace hbody hdrop hpost hplaceTest hcond hagain hclose
        hparts
        (ihbody htidy.2.2.1 hFe fun k hk =>
          hready k (hk.of_part fun _ _ => .loop htest hstart hjump hplace))
        (fun hdepth => ihpost htidy.2.2.2 hFg ⟨fun k hk =>
          hready k (hk.of_part fun _ _ => .loopPost htest hstart hjump hplace hbody hdrop), hdepth⟩)
        (ihcond htidy.2.1 hFk trivial)
  | post hnone _ ih =>
      exact ih htidy hF fun k hk => hready.1 k (hk.of_part fun _ _ => .post hnone)
  | postAt hsome hplace _ ih =>
      refine (Typable.places hplace fun x hx _ => ?_).trans
        (ih htidy hF fun k hk => hready.1 k (hk.of_part fun _ _ => .postAt hsome hplace))
      -- the label of `continue` is expected at the depth of the loop, which is the depth here
      obtain ⟨c, hc, hl⟩ := Option.bind_eq_some_iff.1 hsome
      obtain ⟨rest, hloops⟩ := List.head?_eq_some_iff.1 hc
      have hmem : c ∈ _ := List.mem_of_head? hc
      exact (hx.loops c hmem .continueLoop _ hl).1.trans (hready.2 c rest hloops)
  | retNil hload hret => exact (Typable.loads hload).trans (.plain hret rfl rfl)
  | ret _ hrest hret ihfirst ihrest =>
      simp only [Piece.parts, Form.parts, listParts, List.forall_mem_cons,
        List.forall_mem_append] at htidy
      have hend : Typable ends [] _ _ := .plain hret rfl rfl
      have hFu := hF.of_grows hend.grows
      exact (ihfirst htidy.2.1 (hFu.of_grows hrest.grows) trivial).trans
        ((ihrest htidy.2.2 hFu trivial).trans hend)
  | jump _ hloops hfind hleave => exact .finds hloops hfind (.leaves hleave (by simp))
  | bind _ hname ih =>
      simp only [Piece.parts, Form.parts, List.forall_mem_cons] at htidy
      have hend : Typable ends [] _ _ := .relabels hname
      exact (ih htidy.2 (hF.of_grows hend.grows) trivial).trans hend
  | rebindSlot _ hfind hset ih =>
      simp only [Piece.parts, Form.parts, List.forall_mem_cons] at htidy
      have hend : Typable ends [] _ _ :=
        .reaches hset rfl (Slots.find?_lt hfind)
      exact (ih htidy.2 (hF.of_grows hend.grows) trivial).trans hend
  | rebindDynamic _ _ hset ih =>
      simp only [Piece.parts, Form.parts, List.forall_mem_cons] at htidy
      have hend : Typable ends [] _ _ :=
        .indexed hset (fun _ => rfl) fun _ => rfl
      exact (ih htidy.2 (hF.of_grows hend.grows) trivial).trans hend
  | set _ hindex hvalue hset ihtarget ihindex ihvalue =>
      simp only [Piece.parts, Form.parts, List.forall_mem_cons, List.forall_mem_append] at htidy
      have hend : Typable ends [] _ _ := .plain hset rfl rfl
      have hFv := hF.of_grows hend.grows
      have hFu := hFv.of_grows hvalue.grows
      exact (ihtarget htidy.2.1 (hFu.of_grows hindex.grows) trivial).trans
        ((ihindex htidy.2.2.1 hFu trivial).trans ((ihvalue htidy.2.2.2 hFv trivial).trans hend))
  | never hnever hemit hload hargs hn hcall hforget ih =>
      rename_i name args n s t u v s'
      simp only [Piece.parts, Form.parts, List.forall_mem_cons] at htidy
      have hsize : s'.code.size = u.code.size + 1 := by
        obtain ⟨slots, rfl, -⟩ := hforget
        rw [show (_ : Assembly).code = _ from hcall.code, Array.size_push]
      have hend : Typable ends [] u s' := .endsHere hcall hforget
        (hready _ ⟨name, args, s, s', .here, hnever, hemit, hF, hsize⟩)
      have hargs := ih htidy.2 (hF.of_grows hend.grows) trivial
      exact (Typable.loads hload).trans (hargs.trans hend)
  | effect _ hdrop ih =>
      have hend : Typable ends [] _ _ := .drops hdrop
      exact (ih htidy (hF.of_grows hend.grows) trivial).trans hend

/-- Code that ends with a return ends with its instruction. -/
theorem Code.exists_last_return {fs results : List Form}
    (h : Code functions (.forms (fs ++ [.ret results])) s s')
    (htidy : ∀ g ∈ listParts (fs ++ [.ret results]), g.isTidy = true) (hF : F.Contains s')
    (hends : ∀ k, F.EndsAt functions (.forms fs) s k → ends k) :
    ∃ t, Typable ends [] s t ∧ Appends .ret t s' := by
  simp only [listParts_append, listParts, List.append_nil, List.forall_mem_append] at htidy
  obtain ⟨a, hfs, hlast⟩ := h.split
  cases hlast with
  | formsCons hret hnone =>
      cases hnone
      have hbefore := hfs.typable htidy.1 (hF.of_grows hret.grows) hends
      cases hret with
      | retNil hload happ => exact ⟨_, hbefore.trans (.loads hload), happ⟩
      | ret hfirst hrest happ =>
          rename_i first rest b c
          simp only [Form.parts, listParts, List.forall_mem_cons, List.forall_mem_append] at htidy
          have hFc := hF.of_grows (Assembly.Grows.stable.appends happ)
          have hresults : Typable ends [] a c :=
            (hfirst.typable htidy.2.2.1 (hFc.of_grows hrest.grows) trivial).trans
              (hrest.typable htidy.2.2.2 hFc trivial)
          exact ⟨_, hbefore.trans hresults, happ⟩
      | jump hf _ _ _ => cases hf
      | effect hf _ => cases hf.parts_isStatement rfl _ (mem_parts_self _)

end

/-- Depths for all instructions of a function. Control gets from an instruction to the next one
unless it returns, always jumps or is in `ends`. -/
structure CompiledFunction.StackTyping (F : CompiledFunction) (ends : Nat → Prop)
    (depth : Nat → Nat) : Prop where
  fits : ∀ (k : Nat) (i : Instr), F.chunk.code[k]? = some i → i.Fits F.chunk.maxDepth (depth k)
  next : ∀ (k : Nat) (i : Instr), F.chunk.code[k]? = some i → i.fallsThrough = true → ¬ ends k →
    k + 1 < F.chunk.code.size ∧ depth (k + 1) = i.depthAfter (depth k)
  taken : ∀ (k : Nat) (kind : JumpKind) (l : Label), F.chunk.code[k]? = some (.jump kind l) →
    ∃ target, F.chunk.labelPosition? l = some target ∧ target < F.chunk.code.size ∧
      depth target = kind.depthTaken (depth k)
  last : F.chunk.code.back? = some .ret

/-- The parameters are within the greatest depth from the start. -/
theorem Assembly.ofParams_le_maxDepth (params : List String) :
    (ofParams params).slots.names.length ≤ (ofParams params).slots.maxDepth := by
  have hfold : ∀ (slots : Slots), slots.names.length ≤ slots.maxDepth →
      (params.foldl Slots.pushNamed slots).names.length ≤
        (params.foldl Slots.pushNamed slots).maxDepth := by
    induction params with
    | nil => exact fun _ h => h
    | cons name params ih =>
        intro slots h
        refine ih _ ?_
        simp only [Slots.pushNamed, List.length_cons, slots.depth_eq]
        omega
  exact hfold .empty le_rfl

/-- Before the first instruction the stack holds the parameters. -/
theorem Depths.types_ofParams (ends : Nat → Prop) (params : List String) :
    Types ends ⟨fun _ => params.length, fun _ => 0⟩ (Assembly.ofParams params) where
  here := by simp [Assembly.ofParams_names]
  le_max := Assembly.ofParams_le_maxDepth params
  fits k i hk := by simp [Assembly.ofParams] at hk
  next k i hk := by simp [Assembly.ofParams] at hk
  taken k kind l hk := by simp [Assembly.ofParams] at hk
  places l p hp := by
    simp [Assembly.ofParams, LabelTable.place?, LabelTable.get?, LabelTable.empty] at hp
  loops c hc := by simp [Assembly.ofParams, LoopStack.empty] at hc

/-- The depths of an assembly that ends with a return are those of the finished function. -/
theorem Depths.Types.stackTyping {F : CompiledFunction} {ends : Nat → Prop} {x : Depths}
    {t s : Assembly} (hx : x.Types ends s) (hret : Appends .ret t s)
    (hplaces : ∀ l p, t.labels.place? l = some p → p ≤ t.code.size) (hF : F.Finishes s) :
    F.StackTyping ends x.code := by
  have hsize : s.code.size = t.code.size + 1 := by rw [hret.code, Array.size_push]
  constructor
  · rw [hF.code, hF.maxDepth]
    exact hx.fits
  · intro k i hk hfalls hends
    rw [hF.code] at hk ⊢
    refine ⟨?_, hx.next k i hk hfalls hends⟩
    -- the last instruction is the return, and control does not get past it
    obtain ⟨hlt, -⟩ := Array.getElem?_eq_some_iff.1 hk
    have hne : k ≠ t.code.size := by
      rintro rfl
      rw [hret.code, Array.getElem?_push_size] at hk
      cases hk
      cases hfalls
    omega
  · intro k kind l hk
    rw [hF.code] at hk ⊢
    obtain ⟨hlabel, hlt⟩ := hx.taken k kind l hk
    obtain ⟨p, hp⟩ : ∃ p, F.chunk.labelPosition? l = some p :=
      ⟨_, Array.getElem?_eq_getElem (hF.labels ▸ hlt)⟩
    have hplace : s.labels.place? l = some p := by rw [← hF.places, hp]
    have hle := hplaces l p (by rw [← hret.places, hplace])
    exact ⟨p, hp, by omega, (hx.places l p hplace).2.trans hlabel⟩
  · rw [hF.code, hret.code, Array.back?_push]

/-- Every instruction of a compiled function has a depth, and so the code can be checked. -/
theorem exists_stackTyping {functions : SignatureTable} {name : String} {params : List String}
    {body : Block} {F : CompiledFunction} (hcompile : ofBlock functions name params body = .ok F)
    (htidy : ∀ g ∈ listParts body, g.isTidy = true) :
    ∃ depth, depth 0 = params.length ∧
      F.StackTyping (F.EndsAt functions (.forms body) (Assembly.ofParams params)) depth := by
  obtain ⟨s, hcode, hfinish⟩ := ofBlock_ok hcompile
  have htidy' : ∀ g ∈ listParts body.withReturn, g.isTidy = true := by
    intro g hg
    obtain hg | rfl := mem_parts_withReturn hg
    · exact htidy g hg
    · rfl
  obtain ⟨fs, results, hbody, gs, rfl⟩ := Block.withReturn_eq body
  rw [hbody] at hcode htidy'
  obtain ⟨t, htypable, hret⟩ := hcode.exists_last_return htidy' hfinish.contains
    fun k hk => hk.of_part fun _ _ h => h.append gs
  have hnone : ∀ {x : Depths} {t : Assembly}, x.Meets t [] := by simp [Depths.Meets]
  obtain ⟨x, hx, htypes⟩ := htypable.typed _ (Depths.types_ofParams _ params) hnone
  obtain ⟨y, hxy, htypes'⟩ := (Typable.plain hret rfl rfl).typed x htypes hnone
  have htyping := htypes'.stackTyping hret (fun l p hp => (htypes.places l p hp).1) hfinish
  refine ⟨y.code, ?_, htyping⟩
  rw [hxy.code 0 (Nat.zero_le _), hx.code 0 (Nat.zero_le _)]

def SignatureTable.failing : SignatureTable :=
  ⟨[(.ofName "fail", ⟨"fail", .never⟩)]⟩

/-- The index of the first element that is not false. There is an error if all are. -/
def searchBody : Block :=
  [.bind "i" (.int 0),
    .loop (.op .less .int [.var "i", .var "n"])
      [.bind "x" (.get (.var "a") (.var "i")), .branch (.var "x") [.breakLoop] none]
      (some (.rebind "i" (.op .add .int [.var "i", .int 1]))),
    .branch (.op .eq .int [.var "i", .var "n"]) [.call "fail" []] (some (.ret [.var "i"]))]

theorem exists_stackTyping_searchBody :
    ∃ F depth, ofBlock .failing "search" ["a", "n"] searchBody = .ok F ∧
      depth 0 = 2 ∧ F.StackTyping (F.EndsAt .failing (.forms searchBody)
        (Assembly.ofParams ["a", "n"])) depth := by
  have hok : (ofBlock .failing "search" ["a", "n"] searchBody).isOk = true := by decide +kernel
  cases hcompile : ofBlock .failing "search" ["a", "n"] searchBody with
  | error e =>
      rw [hcompile] at hok
      cases hok
  | ok F =>
      obtain ⟨depth, hstart, htyping⟩ := exists_stackTyping hcompile (by decide)
      exact ⟨F, depth, rfl, hstart, htyping⟩

end StackCompiler
