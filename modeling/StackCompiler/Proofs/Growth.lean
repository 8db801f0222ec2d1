import Mathlib.Order.Lattice
import StackCompiler.Proofs.References

/-!
What later code leaves as it is. A relation that every single step keeps is kept by whole code, and
so nothing is ever taken back: instructions, constants, the places of labels and the greatest depth
of the stack. Whatever holds of them at one point of the construction therefore holds of the
finished function.
-/

namespace StackCompiler

def Piece.parts : Piece → List Form
  | .value f | .form f => f.parts
  | .values fs | .chain _ fs | .results _ fs | .forms fs => listParts fs
  | .stores elems => storeParts elems
  | .post after => optionParts after

/-- A number that code loads is a literal. -/
theorem Piece.mem_parts_of_float (p : Piece) {x : Binary64} (h : .float x ∈ p.loads) :
    .float x ∈ p.parts := by
  have hperm : (p.loads.filterMap Constant.float?).Perm (p.parts.filterMap Form.float?) := by
    cases p with
    | value f | form f => exact floats_perm f
    | values fs | chain _ fs | results _ fs | forms fs => exact floats_perm_list fs
    | stores elems => exact floats_perm_stores elems
    | post after => exact floats_perm_option after
  have hx : x ∈ p.loads.filterMap Constant.float? := List.mem_filterMap.2 ⟨_, h, rfl⟩
  obtain ⟨f, hf, hfloat⟩ := List.mem_filterMap.1 (hperm.subset hx)
  cases f with
  | float y =>
      cases hfloat
      exact hf
  | _ => cases hfloat

section Parts

theorem mem_parts_self (f : Form) : f ∈ f.parts := by
  cases f <;> simp [Form.parts]

theorem mem_parts_of_constant? {f : Form} {c : Constant} (h : f.constant? = some c) {g : Form} :
    g ∈ f.parts ↔ g = f := by
  cases f with
  | bool _ | char _ | int _ | float _ | str _ | symbol _ => simp [Form.parts]
  | _ => cases h

theorem mem_parts_of_application? {f : Form} {name : String} {args : List Form}
    (h : f.application? = some (name, args)) {g : Form} :
    g ∈ f.parts ↔ g = f ∨ g ∈ listParts args := by
  cases f with
  | op kind family args' =>
      simp only [Form.application?] at h
      split at h
      · cases h
        simp [Form.parts]
      · cases h
  | unary kind family arg =>
      cases kind <;> cases family <;> cases h
      simp [Form.parts, listParts]
  | array _ | copy _ | call _ _ | dynCall _ _ =>
      cases h
      simp [Form.parts, listParts]
  | _ => cases h

theorem mem_parts_of_unary? {f arg : Form} {i : UnaryInstr} (h : f.unary? = some (i, arg))
    {g : Form} : g ∈ f.parts ↔ g = f ∨ g ∈ arg.parts := by
  cases f with
  | unary kind family arg' =>
      cases kind <;> cases family <;> cases h <;> simp [Form.parts]
  | not _ =>
      cases h
      simp [Form.parts]
  | _ => cases h

theorem mem_parts_of_shortcut? {f left right : Form} {kind : JumpKind}
    (h : f.shortcut? = some (kind, left, right)) {g : Form} :
    g ∈ f.parts ↔ g = f ∨ g ∈ left.parts ∨ g ∈ right.parts := by
  cases f with
  | and _ _ | or _ _ =>
      cases h
      simp [Form.parts]
  | _ => cases h

end Parts

/-! ### Relations that every step keeps -/

/-- A relation between assemblies that holds along every step other than the loading of a floating
point number. -/
structure Stable (ρ : Assembly → Assembly → Prop) : Prop where
  refl : ∀ s, ρ s s
  trans : ∀ {s t u}, ρ s t → ρ t u → ρ s u
  appends : ∀ {i s s'}, Appends i s s' → ρ s s'
  discard : ∀ s n, ρ s { s with code := s.code.push (.discard n) }
  addConstant : ∀ s c, (∀ x, c ≠ .float x) → ρ s { s with pool := (s.pool.add c).2 }
  forgets : ∀ {n s s'}, Forgets n s s' → ρ s s'
  relabels : ∀ {name s s'}, Relabels name s s' → ρ s s'
  creates : ∀ {l s s'}, Creates l s s' → ρ s s'
  places : ∀ {l s s'}, Places l s s' → ρ s s'
  finds : ∀ {j c rest l s s'}, s.loops.loops = c :: rest → Finds j c rest l s s' → ρ s s'
  loop : ∀ {depth l s t s'}, ρ { s with loops := s.loops.enter depth l } t → Closes t s' → ρ s s'

namespace Stable

variable {ρ : Assembly → Assembly → Prop} (hρ : Stable ρ)
include hρ

theorem indexed {i : UInt16 → Instr} {c : Constant} {s s' : Assembly} (hc : ∀ x, c ≠ .float x)
    (h : AppendsIndexed i c s s') : ρ s s' := by
  obtain ⟨n, -, happ⟩ := h
  exact hρ.trans (hρ.addConstant s c hc) (hρ.appends happ)

theorem drops {n : Nat} {s s' : Assembly} (h : Drops n s s') : ρ s s' := by
  obtain ⟨-, rfl⟩ | ⟨m, -, happ⟩ := h
  · exact hρ.refl _
  · exact hρ.appends happ

theorem leaves {depth : Nat} {l : Label} {s s' : Assembly} (h : Leaves depth l s s') : ρ s s' := by
  obtain ⟨-, happ⟩ | ⟨n, -, -, happ⟩ := h
  · exact hρ.appends happ
  · exact hρ.trans (hρ.discard s n) (hρ.appends happ)

/-- A stable relation may ignore the log, as long as the numbers in it can be loaded. -/
theorem logs : Logs fun us s s' => (∀ x, .load (.float x) ∈ us → ∀ t : Assembly,
    ρ t { t with pool := (t.pool.add (.float x)).2 }) → ρ s s' where
  refl s _ := hρ.refl s
  trans h₁ h₂ hfloat := hρ.trans (h₁ fun x hx => hfloat x (List.mem_append_left _ hx))
    (h₂ fun x hx => hfloat x (List.mem_append_right _ hx))
  appends _ h _ := hρ.appends h
  discard s n _ := hρ.discard s n
  indexed u s s' h hfloat := by
    cases u with
    | load c =>
        cases c with
        | float x =>
            -- a number may share the entry of another one, so what it adds is left to the caller
            obtain ⟨n, -, happ⟩ := h
            exact hρ.trans (hfloat x (List.mem_singleton.2 rfl) s) (hρ.appends happ)
        | _ => exact hρ.indexed (by simp [Reference.constant]) h
    | _ => exact hρ.indexed (by simp [Reference.constant]) h
  forgets h _ := hρ.forgets h
  relabels h _ := hρ.relabels h
  creates h _ := hρ.creates h
  places h _ := hρ.places h
  finds hloops h _ := hρ.finds hloops h
  loop h hclose hfloat := hρ.loop (h hfloat) hclose

/-- Code keeps a stable relation if loading its floating point numbers does. -/
theorem code {functions : SignatureTable} {p : Piece} {s s' : Assembly}
    (h : Code functions p s s')
    (hfloat : ∀ x, .float x ∈ p.parts → ∀ s : Assembly,
      ρ s { s with pool := (s.pool.add (.float x)).2 }) : ρ s s' := by
  obtain ⟨us, hus, hloads⟩ := hρ.logs.code h
  refine hus fun x hx => hfloat x (p.mem_parts_of_float ?_)
  rw [← hloads]
  exact List.mem_filterMap.2 ⟨_, hx, rfl⟩

end Stable

/-! ### Growth -/

/-- Nothing of an assembly is taken back in a later one. -/
structure Assembly.Grows (s s' : Assembly) : Prop where
  code : s.code.toList <+: s'.code.toList
  pool : s.pool.entries.toList <+: s'.pool.entries.toList
  labels : s.labels.size ≤ s'.labels.size
  places : ∀ l p, s.labels.place? l = some p → s'.labels.place? l = some p
  maxDepth : s.slots.maxDepth ≤ s'.slots.maxDepth

namespace Assembly.Grows

theorem refl (s : Assembly) : s.Grows s :=
  ⟨List.prefix_rfl, List.prefix_rfl, le_rfl, fun _ _ h => h, le_rfl⟩

theorem trans {s t u : Assembly} (h₁ : s.Grows t) (h₂ : t.Grows u) : s.Grows u where
  code := h₁.code.trans h₂.code
  pool := h₁.pool.trans h₂.pool
  labels := h₁.labels.trans h₂.labels
  places l p h := h₂.places l p (h₁.places l p h)
  maxDepth := h₁.maxDepth.trans h₂.maxDepth

theorem size_le {s s' : Assembly} (h : s.Grows s') : s.code.size ≤ s'.code.size := by
  simpa using h.code.length_le

theorem of_slots {s : Assembly} {slots : Slots} (h : slots.maxDepth = s.slots.maxDepth) :
    s.Grows { s with slots } :=
  ⟨List.prefix_rfl, List.prefix_rfl, le_rfl, fun _ _ h => h, h.ge⟩

theorem of_addConstant (s : Assembly) (c : Constant) :
    s.Grows { s with pool := (s.pool.add c).2 } :=
  ⟨List.prefix_rfl, (s.pool.add_spec c).2, le_rfl, fun _ _ h => h, le_rfl⟩

theorem of_loops (s : Assembly) (loops : LoopStack) : s.Grows { s with loops } :=
  ⟨List.prefix_rfl, List.prefix_rfl, le_rfl, fun _ _ h => h, le_rfl⟩

theorem of_creates {l : Label} {s s' : Assembly} (h : Creates l s s') : s.Grows s' := by
  obtain ⟨name, -, rfl⟩ := h
  exact ⟨List.prefix_rfl, List.prefix_rfl, by simp [LabelTable.size_create],
    fun l p hp => by rw [LabelTable.place?_create, hp], le_rfl⟩

theorem of_places {l : Label} {s s' : Assembly} (h : Places l s s') : s.Grows s' := by
  obtain ⟨labels, rfl, hsize, hfree, hplaces, -⟩ := h
  refine ⟨List.prefix_rfl, List.prefix_rfl, hsize.ge, fun m p hp => ?_, le_rfl⟩
  rw [hplaces]
  split
  · rename_i hm
    rw [hm, hfree] at hp
    cases hp
  · exact hp

theorem of_closes {s s' : Assembly} (h : Closes s s') : s.Grows s' := by
  obtain ⟨c, rest, -, ⟨-, rfl⟩ | ⟨l, -, hplace⟩⟩ := h
  · exact of_loops _ _
  · exact (of_loops s ⟨rest⟩).trans (of_places hplace)

/-- No step takes anything back. -/
theorem stable : Stable Assembly.Grows where
  refl := refl
  trans := trans
  appends h :=
    ⟨by simp [h.code], by simp [h.pool], h.labels.ge, fun l p hp => by rw [h.places, hp],
      by simp [h.maxDepth]⟩
  discard s n := ⟨by simp, List.prefix_rfl, le_rfl, fun _ _ h => h, le_rfl⟩
  addConstant s c _ := of_addConstant s c
  forgets h := by
    obtain ⟨slots, rfl, -, -, hmax⟩ := h
    exact of_slots hmax
  relabels h := by
    obtain ⟨slots, old, rest, rfl, -, -, hmax⟩ := h
    exact of_slots hmax
  creates := of_creates
  places := of_places
  finds _ h := by
    obtain ⟨-, rfl⟩ | ⟨-, -, rfl⟩ := h
    · exact refl _
    · exact (of_creates ⟨_, rfl, rfl⟩).trans (of_loops _ _)
  loop h hclose := (of_loops _ _).trans (h.trans (of_closes hclose))

end Assembly.Grows

theorem Code.grows {functions : SignatureTable} {p : Piece} {s s' : Assembly}
    (h : Code functions p s s') : s.Grows s' :=
  Assembly.Grows.stable.code h fun _ _ s => .of_addConstant s _

/-! ### Finished functions -/

namespace LabelTable

theorem positions_getElem? {infos : List LabelInfo} {id : Nat} {ps : List Nat}
    (h : positions id infos = .ok ps) :
    ps.length = infos.length ∧ ∀ k : Nat, ps[k]? = infos[k]?.bind (·.position) := by
  induction infos generalizing id ps with
  | nil =>
      cases h
      simp
  | cons info rest ih =>
      unfold positions at h
      cases hp : position ⟨id⟩ info with
      | error e =>
          rw [hp] at h
          cases h
      | ok p =>
          rw [hp] at h
          cases hrest : positions (id + 1) rest with
          | error e =>
              simp only [hrest] at h
              cases h
          | ok qs =>
              simp only [hrest] at h
              cases h
              obtain ⟨hlength, hrest⟩ := ih hrest
              refine ⟨by simp [hlength], fun k => ?_⟩
              cases k with
              | zero =>
                  unfold position at hp
                  split at hp
                  · cases hp
                  · cases hp
                  · rename_i hposition _
                    cases hp
                    simp [hposition]
              | succ k => simpa using hrest k

/-- Once labels are resolved, all of them have a place. -/
theorem resolve_ok {t : LabelTable} {ps : List Nat} (h : t.resolve = .ok ps) :
    ps.length = t.size ∧ ∀ l : Label, ps.toArray[l.id]? = t.place? l := by
  obtain ⟨hlength, hget⟩ := positions_getElem? h
  exact ⟨by simpa [size] using hlength, fun l => by simp [hget, place?, get?]⟩

end LabelTable

namespace Block

def withReturn (body : Block) : Block :=
  if endsInReturn body then body else body ++ [.ret []]

/-- So the last of the forms is a return, and those before it are of the body. -/
theorem withReturn_eq (body : Block) :
    ∃ fs results, body.withReturn = fs ++ [.ret results] ∧ ∃ gs, body = fs ++ gs := by
  unfold withReturn
  split
  · rename_i hends
    unfold endsInReturn at hends
    split at hends
    · rename_i f hlast
      cases f with
      | ret results =>
          obtain ⟨fs, hfs⟩ := List.getLast?_eq_some_iff.1 hlast
          exact ⟨fs, results, hfs, _, hfs⟩
      | _ => cases hends
    · cases hends
  · exact ⟨body, [], rfl, [], (List.append_nil body).symm⟩

end Block

theorem mem_parts_withReturn {body : Block} {g : Form} (h : g ∈ listParts body.withReturn) :
    g ∈ listParts body ∨ g = .ret [] := by
  unfold Block.withReturn at h
  split at h
  · exact .inl h
  · simpa [listParts_append, listParts, Form.parts] using h

theorem mem_withReturn_parts {body : Block} {g : Form} (h : g ∈ listParts body) :
    g ∈ listParts body.withReturn := by
  unfold Block.withReturn
  split
  · exact h
  · rw [listParts_append]
    exact List.mem_append_left _ h

theorem Code.append {functions : SignatureTable} {fs gs : List Form} {s t s' : Assembly}
    (hfs : Code functions (.forms fs) s t) (hgs : Code functions (.forms gs) t s') :
    Code functions (.forms (fs ++ gs)) s s' := by
  induction fs generalizing s with
  | nil =>
      cases hfs
      exact hgs
  | cons f fs ih =>
      cases hfs with
      | formsCons hf hfs => exact .formsCons hf (ih hfs)

theorem Code.split {functions : SignatureTable} {fs gs : List Form} {s s' : Assembly}
    (h : Code functions (.forms (fs ++ gs)) s s') :
    ∃ t, Code functions (.forms fs) s t ∧ Code functions (.forms gs) t s' := by
  induction fs generalizing s with
  | nil => exact ⟨s, .noForms, h⟩
  | cons f fs ih =>
      cases h with
      | formsCons hf hrest =>
          obtain ⟨t, hfs, hgs⟩ := ih hrest
          exact ⟨t, .formsCons hf hfs, hgs⟩

theorem emitBody_code {functions : SignatureTable} {body : Block} {s s' : Assembly} {u : Unit}
    (h : emitBody functions body s = .ok u s') : Code functions (.forms body.withReturn) s s' := by
  unfold Block.withReturn
  obtain ⟨_, t, hforms, h⟩ := bind_eq_ok.1 h
  have hforms := emitForms_code body hforms
  split at h
  · rename_i hends
    cases h
    rw [if_pos hends]
    exact hforms
  · rename_i hends
    rw [if_neg hends]
    exact hforms.append (.formsCons (emitReturn_code h) .noForms)

namespace CompiledFunction

/-- Everything of an assembly is in a function, at the same place. -/
structure Contains (f : CompiledFunction) (s : Assembly) : Prop where
  code : s.code.toList <+: f.chunk.code.toList
  pool : s.pool.entries.toList <+: f.constants.toList
  labels : s.labels.size ≤ f.chunk.labels.size
  places : ∀ l p, s.labels.place? l = some p → f.chunk.labelPosition? l = some p
  maxDepth : s.slots.maxDepth ≤ f.chunk.maxDepth
  unique : ∀ {i j : Nat} {c d : Constant}, f.constants[i]? = some c → f.constants[j]? = some d →
    c.key = d.key → i = j

theorem Contains.of_grows {f : CompiledFunction} {s s' : Assembly} (h : f.Contains s')
    (hgrows : s.Grows s') : f.Contains s where
  code := hgrows.code.trans h.code
  pool := hgrows.pool.trans h.pool
  labels := hgrows.labels.trans h.labels
  places l p hp := h.places l p (hgrows.places l p hp)
  maxDepth := hgrows.maxDepth.trans h.maxDepth
  unique := h.unique

/-- A function is exactly what its assembly came to. -/
structure Finishes (f : CompiledFunction) (s : Assembly) : Prop where
  code : f.chunk.code = s.code
  constants : f.constants = s.pool.entries
  labels : f.chunk.labels.size = s.labels.size
  places : ∀ l, f.chunk.labelPosition? l = s.labels.place? l
  maxDepth : f.chunk.maxDepth = s.slots.maxDepth
  loops : s.loops.loops = []

theorem Finishes.contains {f : CompiledFunction} {s : Assembly} (h : f.Finishes s) :
    f.Contains s where
  code := h.code ▸ List.prefix_rfl
  pool := h.constants ▸ List.prefix_rfl
  labels := h.labels.ge
  places l p hp := by rw [h.places, hp]
  maxDepth := h.maxDepth.ge
  unique hc hd hkey := by
    rw [h.constants] at hc hd
    exact s.pool.index_unique hc hd hkey

theorem ofAssembly_ok {name : String} {params : List String} {s : Assembly} {f : CompiledFunction}
    (h : ofAssembly name params s = .ok f) : f.Finishes s := by
  unfold ofAssembly Assembly.finish at h
  split at h
  · rename_i chunk hfinish
    cases h
    split at hfinish
    · cases hfinish
    · rename_i hclosed
      split at hfinish
      · cases hfinish
      · rename_i ps hresolve
        cases hfinish
        obtain ⟨hlength, hplaces⟩ := LabelTable.resolve_ok hresolve
        exact ⟨rfl, rfl, by simpa using hlength, hplaces, rfl,
          by simpa [LoopStack.inLoop] using hclosed⟩
  · cases h

/-- The code of a function is that of its body, which begins with the parameters on the stack. -/
theorem ofBlock_ok {functions : SignatureTable} {name : String} {params : List String}
    {body : Block} {f : CompiledFunction} (h : ofBlock functions name params body = .ok f) :
    ∃ s, Code functions (.forms body.withReturn) (Assembly.ofParams params) s ∧ f.Finishes s := by
  unfold ofBlock at h
  split at h
  · rename_i s hbody
    exact ⟨s, emitBody_code hbody, ofAssembly_ok h⟩
  · cases h

end CompiledFunction

end StackCompiler
