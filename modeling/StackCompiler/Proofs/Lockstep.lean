import StackCompiler.Proofs.Faults
import StackCompiler.Proofs.PoolGrowth

/-!
The same code on two static stacks. Code for a value does not touch the slots that it finds, and it
looks at them only to read variables. So it can also be built on top of other slots if these have
all the variables: `emitValue_inStep` shows that then nothing can go wrong but that a variable lies
too deep to be read, or that a constant does not fit any more because the pool has grown otherwise.
-/

namespace StackCompiler

/-! ### Assemblies with the same slots on top -/

namespace Assembly

/-- Where two assemblies come from: the slots and the constants that both had, and symbols that only
the second may have been given since. -/
structure Origin where
  names : List (Option String)
  pool : Pool
  extra : List String

def origin (s : Assembly) (extra : List String) : Origin :=
  ⟨s.slots.names, s.pool, extra⟩

/-- Two assemblies that have the topmost slots in common, on top of `low` and `low'`. The constants
of the second are those of the first or symbols it may have beyond them, and the same labels are
placed. No variable of the first is missing in the second. A variable of the second is one of the
origin, which the first has too, or its symbol is a constant. -/
structure Beside (o : Origin) (low low' : List (Option String)) (height : Nat) (s t : Assembly) :
    Prop where
  names : ∃ top, top.length = height ∧ s.slots.names = top ++ low ∧ t.slots.names = top ++ low'
  grows : o.pool.Grows s.pool
  grows' : o.pool.Grows t.pool
  within : t.pool.Within o.extra s.pool
  base_sub : ∀ name, some name ∈ o.names → some name ∈ low
  low_sub : ∀ name, some name ∈ low → some name ∈ low'
  known : ∀ name, some name ∈ t.slots.names →
    some name ∈ o.names ∨ ∃ i, s.pool.find? (.symbol name) = some i
  size : t.labels.size = s.labels.size
  free : ∀ l, t.labels.place? l = none ↔ s.labels.place? l = none

structure Straight (s s' : Assembly) : Prop where
  pool : s.pool.Grows s'.pool
  size : s'.labels.size = s.labels.size
  places : ∀ l, s'.labels.place? l = s.labels.place? l

end Assembly

open Assembly

namespace Assembly.Straight

variable {s t u : Assembly}

theorem trans (h₁ : s.Straight t) (h₂ : t.Straight u) : s.Straight u where
  pool := h₁.pool.trans h₂.pool
  size := h₂.size.trans h₁.size
  places l := (h₂.places l).trans (h₁.places l)

theorem appends {i : Instr} (h : Appends i s t) : s.Straight t where
  pool := by
    rw [h.pool]
    exact .refl _
  size := h.labels
  places := h.places

theorem indexed {i : UInt16 → Instr} {c : Constant} (h : AppendsIndexed i c s t) :
    s.Straight t := by
  obtain ⟨n, hn, happ⟩ := h
  refine ⟨?_, happ.labels, happ.places⟩
  rw [happ.pool]
  exact .add (hn ▸ n.toNat_lt)

end Assembly.Straight

namespace Assembly.Beside

variable {o : Origin} {low low' : List (Option String)} {n : Nat} {s s' t t' : Assembly}

theorem refl (s : Assembly) (extra : List String) :
    Beside (s.origin extra) s.slots.names s.slots.names 0 s s where
  names := ⟨[], rfl, rfl, rfl⟩
  grows := .refl _
  grows' := .refl _
  within := .refl _
  base_sub _ := id
  low_sub _ := id
  known _ := .inl
  size := rfl
  free _ := Iff.rfl

theorem le_length (h : Beside o low low' n s t) : n ≤ t.slots.names.length := by
  obtain ⟨top, hlength, -, hnames⟩ := h.names
  rw [hnames, List.length_append]
  omega

/-- No variable of the first is missing in the second. -/
theorem mem_names (h : Beside o low low' n s t) {name : String}
    (hname : some name ∈ s.slots.names) : some name ∈ t.slots.names := by
  obtain ⟨top, -, hs, ht⟩ := h.names
  rw [hs, List.mem_append] at hname
  rw [ht, List.mem_append]
  exact hname.imp_right (h.low_sub name)

/-- What the second has beyond the first is a constant already. -/
theorem find?_of_mem (h : Beside o low low' n s t) {name : String}
    (ht : some name ∈ t.slots.names) (hs : some name ∉ s.slots.names) :
    ∃ i, s.pool.find? (.symbol name) = some i := by
  obtain ⟨top, -, hnames, -⟩ := h.names
  refine (h.known name ht).resolve_left fun hbase => hs ?_
  rw [hnames, List.mem_append]
  exact .inr (h.base_sub name hbase)

/-- The same constant is added to both. -/
theorem addConstant (h : Beside o low low' n s t) {c : Constant}
    (hs : (s.pool.add c).1 < Pool.room) (ht : (t.pool.add c).1 < Pool.room) :
    Beside o low low' n { s with pool := (s.pool.add c).2 }
      { t with pool := (t.pool.add c).2 } where
  names := h.names
  grows := h.grows.trans (.add hs)
  grows' := h.grows'.trans (.add ht)
  within := (h.within.mono (.add hs)).add (.inl ⟨_, s.pool.find?_add c⟩)
  base_sub := h.base_sub
  low_sub := h.low_sub
  known name hname := (h.known name hname).imp_right (Exists.imp fun _ => (Pool.Grows.add hs).found)
  size := h.size
  free := h.free

/-- Instructions that have the same effect on the stack. -/
theorem appends {i j : Instr} {pops pushes : Nat} (h : Beside o low low' (n + pops) s t)
    (hs : Appends i s s') (ht : Appends j t t') (hi : i.pops = pops ∧ i.pushes = pushes)
    (hj : j.pops = pops ∧ j.pushes = pushes) : Beside o low low' (n + pushes) s' t' where
  names := by
    obtain ⟨top, hlength, hlow, hlow'⟩ := h.names
    refine ⟨List.replicate pushes none ++ top.drop pops, by simp; omega, ?_, ?_⟩
    · rw [hs.names, hi.1, hi.2, hlow, List.drop_append_of_le_length (by omega), List.append_assoc]
    · rw [ht.names, hj.1, hj.2, hlow', List.drop_append_of_le_length (by omega), List.append_assoc]
  grows := hs.pool ▸ h.grows
  grows' := ht.pool ▸ h.grows'
  within := by
    rw [hs.pool, ht.pool]
    exact h.within
  base_sub := h.base_sub
  low_sub := h.low_sub
  known name hname := by
    rw [hs.pool]
    refine h.known name ?_
    rw [ht.names, List.mem_append] at hname
    exact hname.elim (fun hnone => by simpa using List.eq_of_mem_replicate hnone)
      List.mem_of_mem_drop
  size := by rw [ht.labels, hs.labels, h.size]
  free l := by rw [ht.places, hs.places, h.free]

/-- The topmost slot gets the same name in both. -/
theorem relabels {name : Option String} (h : Beside o low low' (n + 1) s t)
    (hs : Relabels name s s') (ht : Relabels name t t')
    (hname : ∀ x, name = some x → some x ∈ o.names ∨ ∃ i, s.pool.find? (.symbol x) = some i) :
    Beside o low low' (n + 1) s' t' := by
  obtain ⟨slots, old, rest, rfl, hold, hnew, -⟩ := hs
  obtain ⟨slots', old', rest', rfl, hold', hnew', -⟩ := ht
  obtain ⟨top, hlength, hlow, hlow'⟩ := h.names
  obtain ⟨x, top, rfl⟩ := List.exists_cons_of_length_eq_add_one hlength
  rw [hlow, List.cons_append, List.cons.injEq] at hold
  rw [hlow', List.cons_append, List.cons.injEq] at hold'
  refine ⟨⟨name :: top, hlength, ?_, ?_⟩, h.grows, h.grows', h.within, h.base_sub, h.low_sub, ?_,
    h.size, h.free⟩
  · rw [hnew, ← hold.2, List.cons_append]
  · rw [hnew', ← hold'.2, List.cons_append]
  · intro y hy
    rw [hnew', List.mem_cons, ← hold'.2] at hy
    refine hy.elim (fun heq => hname y heq.symm) fun hmem => h.known y ?_
    rw [hlow', List.cons_append]
    exact List.mem_cons_of_mem _ hmem

/-- What lies on top of both counts as what lies below. -/
theorem sink (h : Beside o low low' n s t) : Beside o s.slots.names t.slots.names 0 s t where
  names := ⟨[], rfl, rfl, rfl⟩
  grows := h.grows
  grows' := h.grows'
  within := h.within
  base_sub name hname := by
    obtain ⟨top, -, hs, -⟩ := h.names
    rw [hs, List.mem_append]
    exact .inr (h.base_sub name hname)
  low_sub _ := h.mem_names
  known := h.known
  size := h.size
  free := h.free

/-- Only the first goes on, to where it has just some values on top of the slots of the origin. The
other assembly keeps what it has. -/
theorem goOn (h : Beside o low low' n s t) (count : Nat) (hs : s.Straight s')
    (hnames : s'.slots.names = List.replicate count none ++ o.names) :
    Beside o (List.replicate count none ++ o.names) t.slots.names 0 s' t where
  names := ⟨[], rfl, hnames, rfl⟩
  grows := h.grows.trans hs.pool
  grows' := h.grows'
  within := h.within.mono hs.pool
  base_sub name hname := List.mem_append_right _ hname
  low_sub name hname := by
    obtain ⟨top, -, -, ht⟩ := h.names
    have hbase : some name ∈ o.names := by simpa [List.mem_replicate] using hname
    rw [ht, List.mem_append]
    exact .inr (h.low_sub name (h.base_sub name hbase))
  known name hname := (h.known name hname).imp_right (Exists.imp fun _ => hs.pool.found)
  size := h.size.trans hs.size.symm
  free l := by rw [h.free, hs.places]

/-- Only the second goes on, and loads a symbol of its own. -/
theorem loadExtra {name : String} (h : Beside o low low' n s t)
    (ht : AppendsIndexed .constRef (.symbol name) t t') (hname : name ∈ o.extra) :
    Beside o s.slots.names t'.slots.names 0 s t' := by
  obtain ⟨k, hk, happ⟩ := ht
  have hroom : (t.pool.add (.symbol name)).1 < Pool.room := hk ▸ k.toNat_lt
  have hnames : t'.slots.names = none :: t.slots.names := happ.names
  refine ⟨⟨[], rfl, rfl, rfl⟩, h.grows, ?_, ?_, h.sink.base_sub, fun x hx => ?_, fun x hx => ?_, ?_,
    fun l => ?_⟩
  · rw [happ.pool]
    exact h.grows'.trans (.add hroom)
  · rw [happ.pool]
    exact h.within.add (.inr ⟨name, hname, rfl⟩)
  · rw [hnames]
    exact List.mem_cons_of_mem _ (h.mem_names hx)
  · rw [hnames] at hx
    exact h.known x (List.mem_of_ne_of_mem (by simp) hx)
  · exact happ.labels.trans h.size
  · exact (happ.places l).symm ▸ h.free l

end Assembly.Beside

/-! ### Steps that succeed -/

namespace Slots

theorem find?_eq_none_iff {slots : Slots} {name : String} :
    slots.find? name = none ↔ some name ∉ slots.names := by
  rw [find?, List.findIdx?_eq_none_iff]
  constructor
  · intro h hmem
    simpa using h _ hmem
  · rintro h x hx
    have hne : x ≠ some name := by
      rintro rfl
      exact h hx
    simpa using hne

theorem exists_pop {slots : Slots} {count : Nat} (h : count ≤ slots.names.length) :
    ∃ slots', slots.pop count = .ok slots' := by
  rw [← slots.depth_eq] at h
  rw [pop, if_pos h]
  exact ⟨_, rfl⟩

end Slots

namespace Emit

variable {t : Assembly}

/-- An instruction needs its operands on the static stack and its label among those created. -/
theorem exists_instr {i : Instr} (hpops : i.pops ≤ t.slots.names.length)
    (hlabel : ∀ l, i.label? = some l → l.id < t.labels.size) : ∃ t', instr i t = .ok () t' := by
  obtain ⟨slots, hslots⟩ := Slots.exists_pop hpops
  have hpop : onSlots (·.pop i.pops) t = .ok () { t with slots } := by
    simp only [onSlots, hslots]
  rw [instr, bind_of_ok hpop]
  cases hl : i.label? with
  | none => exact ⟨_, rfl⟩
  | some l =>
      obtain ⟨info, hinfo⟩ : ∃ info, t.labels.get? l = some info :=
        ⟨_, Array.getElem?_eq_getElem (hlabel l hl)⟩
      have hmark : onLabels (·.markUsed l) { t with slots := slots.push i.pushes } =
          .ok () { t with
            slots := slots.push i.pushes
            labels := t.labels.update l { info with used := true } } := by
        simp only [onLabels, LabelTable.markUsed, hinfo]
      exact ⟨_, bind_of_ok hmark fun _ => append i⟩

/-- An instruction whose operand is a small number. -/
theorem exists_counted {r : Resource} (hr : r.limit < UInt8.size) {i : UInt8 → Instr} {count : Nat}
    (hlimit : count ≤ r.limit) (hpops : ∀ k, k.toNat = count → (i k).pops ≤ t.slots.names.length)
    (hlabel : ∀ k, (i k).label? = none) :
    ∃ t', (byte r count >>= fun k => instr (i k)) t = .ok () t' := by
  have hbyte : byte r count t = .ok (.ofNat count) t := by
    rw [byte, if_pos hlimit]
    rfl
  obtain ⟨-, hcount⟩ := byte_ok hr hbyte
  obtain ⟨t', ht'⟩ := exists_instr (hpops _ hcount) (by simp [hlabel])
  exact ⟨t', (bind_of_ok hbyte _).trans ht'⟩

theorem exists_concat {count : Nat} (hlimit : count ≤ Resource.limit .concatOperands)
    (h : count ≤ t.slots.names.length) : ∃ t', concat count t = .ok () t' :=
  exists_counted (by decide) hlimit (fun k hk => by rwa [Instr.pops, hk]) fun _ => rfl

/-- A call needs its function below the arguments. -/
theorem exists_call {args : Nat} (hlimit : args ≤ Resource.limit .callArguments)
    (h : args + 1 ≤ t.slots.names.length) : ∃ t', call args t = .ok () t' :=
  exists_counted (by decide) hlimit (fun k hk => by rwa [Instr.pops, hk]) fun _ => rfl

/-- A number that is too large for one byte. -/
theorem counted_eq_error {r : Resource} {i : UInt8 → Instr} {count : Nat} (h : r.limit < count) :
    (byte r count >>= fun k => instr (i k)) t = .error (.capacity r count) t := by
  refine bind_of_error ?_ _
  rw [byte, if_neg (Nat.not_le_of_lt h)]
  rfl

theorem exists_bindLocal (name : String) (h : 0 < t.slots.names.length) :
    ∃ t', bindLocal name t = .ok () t' := by
  obtain ⟨slots, hslots⟩ := Slots.exists_rename? (List.ne_nil_of_length_pos h) (some name)
  exact ⟨{ t with slots }, by simp only [bindLocal, onSlots, Slots.bind, hslots]⟩

theorem exists_unbindTop (h : 0 < t.slots.names.length) : ∃ t', unbindTop t = .ok () t' := by
  obtain ⟨slots, hslots⟩ := Slots.exists_rename? (List.ne_nil_of_length_pos h) none
  exact ⟨{ t with slots }, by simp only [unbindTop, onSlots, Slots.unbindTop, hslots]⟩

/-- Only a label without a place can be placed. -/
theorem exists_bindLabel {l : Label} (hl : l.id < t.labels.size)
    (hfree : t.labels.place? l = none) : ∃ t', bindLabel l t = .ok () t' := by
  obtain ⟨info, hinfo⟩ : ∃ info, t.labels.get? l = some info := ⟨_, Array.getElem?_eq_getElem hl⟩
  have hposition : info.position = none := by simpa [LabelTable.place?, hinfo] using hfree
  refine ⟨{ t with labels := t.labels.update l { info with position := some t.code.size } }, ?_⟩
  simp only [bindLabel, onLabels, LabelTable.bind, hinfo, hposition]

theorem varRef_of_find? {name : String} {offset : Nat} (h : t.slots.find? name = some offset) :
    varRef name t = (do
      let k ← word .stackOffset offset
      instr (.stackRef k)
      bindLocal name) t := by
  rw [varRef, bind_of_ok (find?_eq name t), h]

theorem varRef_of_find?_eq_none {name : String} (h : t.slots.find? name = none) :
    varRef name t = (do
      dynamicRef name
      bindLocal name) t := by
  rw [varRef, bind_of_ok (find?_eq name t), h]

/-- A variable in reach is copied, and the copy gets its name. -/
theorem exists_varRef {name : String} {offset : Nat} (hfind : t.slots.find? name = some offset)
    (hlimit : offset ≤ Resource.limit .stackOffset) :
    ∃ k t₁ t', varRef name t = .ok () t' ∧ Appends (.stackRef k) t t₁ ∧
      Relabels (some name) t₁ t' := by
  have hword : word .stackOffset offset t = .ok (.ofNat offset) t := by
    rw [word, if_pos hlimit]
    rfl
  obtain ⟨t₁, ht₁⟩ := exists_instr (t := t) (i := .stackRef (.ofNat offset)) (Nat.zero_le _)
    (by simp [Instr.label?])
  have happ := instr_ok ht₁
  obtain ⟨t', ht'⟩ := exists_bindLocal name (t := t₁) (by simp [happ.names, Instr.pushes])
  refine ⟨_, t₁, t', ?_, happ, bindLocal_ok ht'⟩
  rw [varRef_of_find? hfind, bind_of_ok hword, bind_of_ok ht₁, ht']

/-- A step fails because a variable lies deeper than the machine can reach. -/
def TooDeep {α : Type} (x : Emit α) (t : Assembly) : Prop :=
  ∃ name offset t', x t = .error (.capacity .stackOffset offset) t' ∧
    t'.slots.find? name = some offset ∧ Resource.limit .stackOffset < offset

theorem tooDeep_varRef {name : String} {offset : Nat} (hfind : t.slots.find? name = some offset)
    (hlimit : Resource.limit .stackOffset < offset) : TooDeep (varRef name) t := by
  refine ⟨name, offset, t, ?_, hfind, hlimit⟩
  rw [varRef_of_find? hfind]
  refine bind_of_error ?_ _
  rw [word, if_neg (Nat.not_le_of_lt hlimit)]
  rfl

/-- A step fails because a constant is out of reach, in a pool that holds only what `p` holds and
some symbols. -/
def Overflows {α : Type} (extra : List String) (p : Pool) (x : Emit α) (t : Assembly) : Prop :=
  ∃ index t', x t = .error (.capacity .constantPool index) t' ∧ Pool.room ≤ index ∧
    Pool.room < t'.pool.size ∧ t'.pool.Within extra p ∧ p.size ≤ Pool.room

theorem exists_indexed {i : UInt16 → Instr} {c : Constant} (hfits : (t.pool.add c).1 < Pool.room)
    (hi : ∀ k, (i k).pops = 0 ∧ (i k).pushes = 1) (hlabel : ∀ k, (i k).label? = none) :
    ∃ t', (poolIndex c >>= fun k => instr (i k)) t = .ok () t' := by
  have hindex : poolIndex c t =
      .ok (.ofNat (t.pool.add c).1) { t with pool := (t.pool.add c).2 } := by
    rw [poolIndex, bind_of_ok (addConstant_eq c t), word, if_pos (Nat.le_of_lt_succ hfits)]
    rfl
  obtain ⟨t', ht'⟩ := exists_instr (t := { t with pool := (t.pool.add c).2 })
    (i := i (.ofNat (t.pool.add c).1)) (by rw [(hi _).1]; exact Nat.zero_le _) (by simp [hlabel])
  exact ⟨t', (bind_of_ok hindex _).trans ht'⟩

theorem indexed_eq_error {i : UInt16 → Instr} {c : Constant}
    (hfull : Pool.room ≤ (t.pool.add c).1) :
    (poolIndex c >>= fun k => instr (i k)) t =
      .error (.capacity .constantPool (t.pool.add c).1) { t with pool := (t.pool.add c).2 } := by
  refine bind_of_error ?_ _
  rw [poolIndex, bind_of_ok (addConstant_eq c t), word, if_neg (Nat.not_le_of_lt hfull)]
  rfl

/-- A new constant does not fit into a full pool. -/
theorem overflows_indexed {i : UInt16 → Instr} {c : Constant} {extra : List String} {p : Pool}
    (hnew : t.pool.find? c = none) (hfull : Pool.room ≤ t.pool.size)
    (hwithin : (t.pool.add c).2.Within extra p) (hsize : p.size ≤ Pool.room) :
    Overflows extra p (poolIndex c >>= fun k => instr (i k)) t := by
  obtain ⟨hindex, hentries⟩ := Pool.add_of_find?_eq_none hnew
  have hout : Pool.room ≤ (t.pool.add c).1 := by rwa [hindex]
  refine ⟨_, _, indexed_eq_error hout, hout, ?_, hwithin, hsize⟩
  rw [Pool.size, hentries, Array.size_push]
  exact Nat.lt_succ_of_le hfull

/-- What can go wrong where the stack is higher or the pool is fuller. -/
def Blocked {α : Type} (extra : List String) (p : Pool) (x : Emit α) (t : Assembly) : Prop :=
  TooDeep x t ∨ Overflows extra p x t

/-- A step that succeeds on the first of two assemblies does so on the second and has the same
result, unless a variable lies too deep there or a constant does not fit. -/
structure InStep {α : Type} (o : Origin) (low low' : List (Option String)) (before after : Nat)
    (x : Emit α) : Prop where
  grows : ∀ {s a s'}, x s = .ok a s' → s.pool.Grows s'.pool
  step : ∀ {s t a s'}, Beside o low low' before s t → x s = .ok a s' →
    (∃ t', x t = .ok a t' ∧ Beside o low low' after s' t') ∨ Blocked o.extra s'.pool x t

theorem TooDeep.bind {α β : Type} {x : Emit α} (h : TooDeep x t) (f : α → Emit β) :
    TooDeep (x >>= f) t := by
  obtain ⟨name, offset, t', herror, hdeep⟩ := h
  exact ⟨name, offset, t', bind_of_error herror f, hdeep⟩

theorem TooDeep.of_ok {α β : Type} {x : Emit α} {f : α → Emit β} {a : α} {u : Assembly}
    (hx : x t = .ok a u) (h : TooDeep (f a) u) : TooDeep (x >>= f) t := by
  obtain ⟨name, offset, t', herror, hdeep⟩ := h
  exact ⟨name, offset, t', (bind_of_ok hx f).trans herror, hdeep⟩

/-- A constant fits into a pool that holds nothing of its own. -/
theorem Overflows.false_of_nil {α : Type} {p : Pool} {x : Emit α} (h : Overflows [] p x t) :
    False := by
  obtain ⟨index, t', -, -, hfull, hwithin, hsize⟩ := h
  have hle : t'.pool.size ≤ p.size := hwithin.size_le
  omega

namespace Blocked

variable {α β : Type} {extra : List String} {p q : Pool} {x : Emit α}

theorem bind (h : Blocked extra p x t) (f : α → Emit β) : Blocked extra p (x >>= f) t := by
  refine h.imp (·.bind f) ?_
  rintro ⟨index, t', herror, hfull⟩
  exact ⟨index, t', bind_of_error herror f, hfull⟩

theorem of_ok {f : α → Emit β} {a : α} {u : Assembly} (hx : x t = .ok a u)
    (h : Blocked extra p (f a) u) : Blocked extra p (x >>= f) t := by
  refine h.imp (.of_ok hx) ?_
  rintro ⟨index, t', herror, hfull⟩
  exact ⟨index, t', (bind_of_ok hx f).trans herror, hfull⟩

theorem mono (h : Blocked extra p x t) (hp : p.Grows q) : Blocked extra q x t := by
  refine h.imp_right ?_
  rintro ⟨index, t', herror, hindex, hfull, hwithin, hsize⟩
  refine ⟨index, t', herror, hindex, hfull, hwithin.mono hp, ?_⟩
  obtain rfl | hsize' := hp.size
  · exact hsize
  · exact hsize'

theorem tooDeep (h : Blocked [] p x t) : TooDeep x t :=
  h.resolve_right Overflows.false_of_nil

end Blocked

namespace InStep

variable {α β : Type} {o : Origin} {low low' : List (Option String)} {n m k : Nat} {x : Emit α}

theorem pure (a : α) : InStep o low low' n n (Pure.pure a : Emit α) where
  grows hs := by
    obtain ⟨-, rfl⟩ := pure_eq_ok.1 hs
    exact .refl _
  step {s t b s'} h hs := by
    obtain ⟨rfl, rfl⟩ := pure_eq_ok.1 hs
    exact .inl ⟨t, rfl, h⟩

/-- A step that never succeeds. -/
theorem of_ne_ok (hx : ∀ s a s', x s ≠ .ok a s') : InStep o low low' n m x where
  grows hs := absurd hs (hx _ _ _)
  step _ hs := absurd hs (hx _ _ _)

theorem throw (e : CompileError) : InStep o low low' n m (MonadExcept.throw e : Emit α) :=
  of_ne_ok fun _ _ _ => throw_ne_ok

theorem bind {f : α → Emit β} (hx : InStep o low low' n m x)
    (hf : ∀ a s s', x s = .ok a s' → InStep o low low' m k (f a)) :
    InStep o low low' n k (x >>= f) where
  grows {s b s'} hs := by
    obtain ⟨a, u, hxs, hfs⟩ := bind_eq_ok.1 hs
    exact (hx.grows hxs).trans ((hf a s u hxs).grows hfs)
  step {s t b s'} h hs := by
    obtain ⟨a, u, hxs, hfs⟩ := bind_eq_ok.1 hs
    have hrest := hf a s u hxs
    obtain ⟨t₁, ht₁, h₁⟩ | hblocked := hx.step h hxs
    · obtain ⟨t', ht', h'⟩ | hblocked := hrest.step h₁ hfs
      · exact .inl ⟨t', (bind_of_ok ht₁ f).trans ht', h'⟩
      · exact .inr (.of_ok ht₁ hblocked)
    · exact .inr ((hblocked.bind f).mono (hrest.grows hfs))

/-- The same assembly twice. -/
theorem self {s s' : Assembly} {a : α} (extra : List String)
    (hx : InStep (s.origin extra) s.slots.names s.slots.names 0 n x) (h : x s = .ok a s') :
    Beside (s.origin extra) s.slots.names s.slots.names n s' s' := by
  obtain ⟨t, ht, hbeside⟩ | ⟨_, _, _, herror, -⟩ | ⟨_, _, herror, -⟩ := hx.step (.refl s extra) h
  · rw [h] at ht
    cases ht
    exact hbeside
  · rw [h] at herror
    cases herror
  · rw [h] at herror
    cases herror

theorem instr (i : Instr) : InStep o low low' (n + i.pops) (n + i.pushes) (Emit.instr i) where
  grows hs := (Straight.appends (instr_ok hs)).pool
  step {s t _ s'} h hs := by
    have happ := instr_ok hs
    have hlabel : ∀ l, i.label? = some l → l.id < t.labels.size := by
      rw [h.size]
      exact happ.label_lt
    obtain ⟨t', ht'⟩ := exists_instr ((Nat.le_add_left _ _).trans h.le_length) hlabel
    exact .inl ⟨t', ht', h.appends happ (instr_ok ht') ⟨rfl, rfl⟩ ⟨rfl, rfl⟩⟩

theorem byte (r : Resource) (k : Nat) : InStep o low low' n n (Emit.byte r k) := by
  unfold Emit.byte
  split
  · exact pure _
  · exact throw _

/-- An instruction that takes the index of a constant. The indices may differ. -/
theorem indexed {i : UInt16 → Instr} (c : Constant) (hi : ∀ k, (i k).pops = 0 ∧ (i k).pushes = 1)
    (hlabel : ∀ k, (i k).label? = none) :
    InStep o low low' n (n + 1) (poolIndex c >>= fun k => Emit.instr (i k)) where
  grows hs := (Straight.indexed (indexed_ok hs)).pool
  step {s t _ s'} h hs := by
    obtain ⟨k, hk, happ⟩ := indexed_ok hs
    have hroom : (s.pool.add c).1 < Pool.room := hk ▸ k.toNat_lt
    rcases h.grows.lt_room_or_full h.grows' hroom with hfits | ⟨hnew, hfull⟩
    · obtain ⟨t', ht'⟩ := exists_indexed hfits hi hlabel
      obtain ⟨k', -, happ'⟩ := indexed_ok ht'
      exact .inl ⟨t', ht', (h.addConstant hroom hfits).appends happ happ' (hi k) (hi k')⟩
    · have hwithin := (h.within.mono (.add hroom)).add (.inl ⟨_, s.pool.find?_add c⟩)
      refine .inr (.inr (overflows_indexed hnew hfull (happ.pool ▸ hwithin) ?_))
      -- the constant is none of the origin, so it has been added within reach
      rw [happ.pool]
      obtain heq | hsize := (h.grows.trans (.add hroom)).size
      · have hold := h.grows'.found (heq ▸ s.pool.find?_add c)
        rw [hnew] at hold
        cases hold
      · exact hsize

theorem constant (c : Constant) : InStep o low low' n (n + 1) (Emit.constant c) :=
  indexed c (fun _ => ⟨rfl, rfl⟩) fun _ => rfl

/-- A call finds its function below the arguments. -/
theorem call (args : Nat) : InStep o low low' (n + 1 + args) (n + 1) (Emit.call args) := by
  refine bind (byte _ _) fun k s s' hk => ?_
  obtain ⟨-, rfl⟩ := byte_ok (by decide) hk
  rw [Nat.add_right_comm]
  exact instr (.call k)

theorem concat (count : Nat) : InStep o low low' (n + count) (n + 1) (Emit.concat count) := by
  refine bind (byte _ _) fun k s s' hk => ?_
  obtain ⟨-, rfl⟩ := byte_ok (by decide) hk
  exact instr (.concat k)

theorem unbindTop : InStep o low low' (n + 1) (n + 1) Emit.unbindTop where
  grows hs := by
    obtain ⟨slots, _, _, rfl, -⟩ := unbindTop_ok hs
    exact .refl _
  step {s t _ s'} h hs := by
    obtain ⟨t', ht'⟩ := exists_unbindTop ((Nat.succ_pos n).trans_le h.le_length)
    exact .inl ⟨t', ht', h.relabels (unbindTop_ok hs) (unbindTop_ok ht') (by simp)⟩

theorem newLabel (name : String) : InStep o low low' n n (Emit.newLabel name) where
  grows hs := by
    cases hs
    exact .refl _
  step {s t l s'} h hs := by
    cases hs
    refine .inl ⟨{ t with labels := t.labels.create name }, ?_, h.names, h.grows, h.grows',
      h.within, h.base_sub, h.low_sub, h.known, ?_, ?_⟩
    · have hnext : t.labels.next = s.labels.next := congrArg Label.mk h.size
      rw [← hnext]
      rfl
    · simp [LabelTable.size_create, h.size]
    · simp [LabelTable.place?_create, h.free]

theorem bindLabel (l : Label) : InStep o low low' n n (Emit.bindLabel l) where
  grows hs := by
    obtain ⟨labels, rfl, -⟩ := bindLabel_ok hs
    exact .refl _
  step {s t _ s'} h hs := by
    obtain ⟨labels, rfl, hsize, hfree, hplaces, -⟩ := bindLabel_ok hs
    have hlt : l.id < labels.size :=
      LabelTable.lt_size_of_place? ((hplaces l).trans (if_pos rfl))
    obtain ⟨t', ht'⟩ := exists_bindLabel (by rw [h.size, ← hsize]; exact hlt) ((h.free l).2 hfree)
    obtain ⟨labels', rfl, hsize', -, hplaces', -⟩ := bindLabel_ok ht'
    refine .inl ⟨_, ht', h.names, h.grows, h.grows', h.within, h.base_sub, h.low_sub, h.known, ?_,
      fun m => ?_⟩
    · rw [hsize', hsize, h.size]
    · rw [hplaces', hplaces]
      split
      · simp
      · exact h.free m

/-- A read of a variable that the second has. Then no constant is new in the first. -/
theorem varRef_of_mem {name : String} {offset : Nat} {s s' t : Assembly} {u : Unit}
    (h : Beside o low low' n s t) (hs : Emit.varRef name s = .ok u s')
    (hfind : t.slots.find? name = some offset) :
    (∃ t', Emit.varRef name t = .ok () t' ∧ Beside o low low' (n + 1) s' t') ∨
      TooDeep (Emit.varRef name) t := by
  have hmem : some name ∈ t.slots.names := by
    by_contra hmem
    rw [Slots.find?_eq_none_iff.2 hmem] at hfind
    cases hfind
  obtain ⟨s₁, hlabel, hread⟩ := varRef_ok hs
  -- the first may lack a slot that the second has, but then it finds the symbol in the pool
  obtain ⟨i, hi, happ⟩ : ∃ i : Instr, (i.pops = 0 ∧ i.pushes = 1) ∧ Appends i s s₁ := by
    obtain ⟨k, -, happ⟩ | ⟨hnone, k, -, happ⟩ := hread
    · exact ⟨_, ⟨rfl, rfl⟩, happ⟩
    · obtain ⟨j, hj⟩ := h.find?_of_mem hmem (Slots.find?_eq_none_iff.1 hnone)
      rw [Pool.add_of_find? hj] at happ
      exact ⟨_, ⟨rfl, rfl⟩, happ⟩
  rcases Nat.lt_or_ge (Resource.limit .stackOffset) offset with hlimit | hlimit
  · exact .inr (tooDeep_varRef hfind hlimit)
  · obtain ⟨k, t₁, t', ht', happ', hlabel'⟩ := exists_varRef hfind hlimit
    refine .inl ⟨t', ht', (h.appends happ happ' hi ⟨rfl, rfl⟩).relabels hlabel hlabel' ?_⟩
    intro x hx
    cases hx
    rw [happ.pool]
    exact h.known name hmem

theorem varRef (name : String) : InStep o low low' n (n + 1) (Emit.varRef name) where
  grows {s _ s'} hs := by
    obtain ⟨s₁, ⟨slots, _, _, rfl, -⟩, ⟨k, -, happ⟩ | ⟨-, happ⟩⟩ := varRef_ok hs
    · exact (Straight.appends happ).pool
    · exact (Straight.indexed happ).pool
  step {s t _ s'} h hs := by
    cases hfind : t.slots.find? name with
    | some offset => exact (varRef_of_mem h hs hfind).imp_right .inl
    | none =>
        -- neither has the variable, so both read it by its symbol
        have hnone : s.slots.find? name = none :=
          Slots.find?_eq_none_iff.2 fun hmem => Slots.find?_eq_none_iff.1 hfind (h.mem_names hmem)
        rw [varRef_of_find?_eq_none hnone] at hs
        unfold Blocked TooDeep Overflows
        rw [varRef_of_find?_eq_none hfind]
        obtain ⟨_, s₁, href, hbind⟩ := bind_eq_ok.1 hs
        obtain ⟨t₁, ht₁, h₁⟩ | hblocked := (indexed (i := .varRef) (.symbol name)
          (fun _ => ⟨rfl, rfl⟩) fun _ => rfl).step h href
        · obtain ⟨t', ht'⟩ := exists_bindLocal name ((Nat.succ_pos n).trans_le h₁.le_length)
          refine .inl ⟨t', (bind_of_ok ht₁ _).trans ht', h₁.relabels (bindLocal_ok hbind)
            (bindLocal_ok ht') ?_⟩
          intro x hx
          cases hx
          obtain ⟨k, -, happ⟩ := indexed_ok href
          rw [happ.pool]
          exact .inr ⟨_, Pool.find?_add _ _⟩
        · obtain ⟨slots, _, _, rfl, -⟩ := bindLocal_ok hbind
          exact .inr (hblocked.bind _)

end InStep

end Emit

/-! ### Values -/

section

open Emit (InStep)

variable {functions : SignatureTable} {o : Origin} {low low' : List (Option String)} {n : Nat}

theorem checkOperands_inStep (kind : OpKind) (family : Family) (args : List Form) :
    InStep o low low' n n (checkOperands kind family args) := by
  unfold checkOperands
  split
  · split
    · exact .throw _
    · exact .pure ()
  · exact .throw _

/-- A call by name that is used as a value. -/
theorem endCall_inStep (name : String) (args : Nat) :
    InStep o low low' (n + 1 + args) (n + 1) (do
      let convention ← endCall functions name args
      if convention = .value then pure () else Emit.fault (.noValue name)) := by
  cases hconvention : functions.convention name with
  | value =>
      have hend : endCall functions name args = (do
          Emit.call args
          return .value) := by
        simp [endCall, hconvention]
      rw [hend]
      exact .bind (.bind (.call args) fun _ _ _ _ => .pure _) fun c _ _ _ => by
        split
        · exact .pure ()
        · exact .throw _
  | void | never =>
      -- a call without a value is at fault wherever it stands
      refine .of_ne_ok fun s _ s' hs => ?_
      obtain ⟨c, u, hend, hs⟩ := bind_eq_ok.1 hs
      rw [endCall_convention hend, hconvention] at hs
      cases hs

theorem emitResultRef_inStep (index : Nat) :
    InStep o low low' n (n + 1) (emitResultRef index) := by
  unfold emitResultRef
  split
  · exact .throw _
  · split
    · exact .indexed _ (fun _ => ⟨rfl, rfl⟩) fun _ => rfl
    · exact .throw _

/-- The way past the second operand. -/
theorem shortcut_inStep {name : String} {kind : JumpKind} (hkind : kind ≠ .always)
    {left right : Form} (hleft : ∀ n, InStep o low low' n (n + 1) (emitValue functions left))
    (hright : ∀ n, InStep o low low' n (n + 1) (emitValue functions right)) :
    InStep o low low' n (n + 1) (do
      let done ← Emit.newLabel name
      emitValue functions left
      Emit.jump kind done
      emitValue functions right
      Emit.bindLabel done
      Emit.unbindTop) := by
  have hjump : ∀ l, InStep o low low' (n + 1) n (Emit.jump kind l) := by
    intro l
    have hpops : (Instr.jump kind l).pops = 1 := by
      cases kind with
      | always => exact absurd rfl hkind
      | _ => rfl
    have hinstr : InStep o low low' (n + (Instr.jump kind l).pops) n (Emit.jump kind l) :=
      .instr _
    rwa [hpops] at hinstr
  refine .bind (.newLabel name) fun l _ _ _ => ?_
  refine .bind (hleft n) fun _ _ _ _ => ?_
  refine .bind (hjump l) fun _ _ _ _ => ?_
  refine .bind (hright n) fun _ _ _ _ => ?_
  exact .bind (.bindLabel l) fun _ _ _ _ => .unbindTop

mutual
/-- Code for a value goes with other slots below as well. -/
theorem emitValue_inStep (f : Form) (n : Nat) :
    InStep o low low' n (n + 1) (emitValue functions f) := by
  cases f with
  | bool _ | char _ | int _ | float _ | str _ | symbol _ => exact .constant _
  | var name => exact .varRef name
  | array elems =>
      refine .bind (.constant _) fun _ _ _ _ => ?_
      exact .bind (emitValues_inStep elems (n + 1)) fun _ _ _ _ => .call elems.length
  | sparseArray ctor stores =>
      exact .bind (emitValue_inStep ctor n) fun _ _ _ _ => emitStores_inStep stores n
  | copy source =>
      refine .bind (.constant _) fun _ _ _ _ => ?_
      exact .bind (emitValue_inStep source (n + 1)) fun _ _ _ _ => .call 1
  | get source index =>
      refine .bind (emitValue_inStep source n) fun _ _ _ _ => ?_
      exact .bind (emitValue_inStep index (n + 1)) fun _ _ _ _ => .instr .arrayRef
  | op kind family args =>
      refine .bind (checkOperands_inStep kind family args) fun _ s s' hcheck => ?_
      obtain ⟨-, hlength⟩ := checkOperands_ok hcheck
      cases kind.plan? family with
      | none => exact .throw _
      | some plan =>
          cases plan with
          | fold i => exact emitFold_inStep i args hlength n
          | foldNot i =>
              exact .bind (emitFold_inStep i args hlength n) fun _ _ _ _ => .instr (.unary .not)
          | concat =>
              exact .bind (emitValues_inStep args n) fun _ _ _ _ => .concat args.length
          | host name =>
              refine .bind (.constant _) fun _ _ _ _ => ?_
              exact .bind (emitValues_inStep args (n + 1)) fun _ _ _ _ => .call args.length
  | unary kind family arg =>
      cases kind with
      | neg =>
          cases family with
          | string => exact .throw _
          | _ => exact .bind (emitValue_inStep arg n) fun _ _ _ _ => .instr (.unary .negate)
      | bitNot =>
          cases family with
          | int =>
              refine .bind (.constant _) fun _ _ _ _ => ?_
              exact .bind (emitValue_inStep arg (n + 1)) fun _ _ _ _ => .call 1
          | _ => exact .throw _
  | not arg =>
      exact .bind (emitValue_inStep arg n) fun _ _ _ _ => .instr (.unary .not)
  | and left right =>
      exact shortcut_inStep (by decide) (emitValue_inStep left) (emitValue_inStep right)
  | or left right =>
      exact shortcut_inStep (by decide) (emitValue_inStep left) (emitValue_inStep right)
  | call name args =>
      refine .bind (.constant _) fun _ _ _ _ => ?_
      exact .bind (emitValues_inStep args (n + 1)) fun _ _ _ _ => endCall_inStep name args.length
  | dynCall callee args =>
      refine .bind (.constant _) fun _ _ _ _ => ?_
      refine .bind (emitValue_inStep callee (n + 1)) fun _ _ _ _ => ?_
      refine .bind (emitValues_inStep args (n + 1 + 1)) fun _ _ _ _ => ?_
      rw [Nat.add_assoc (n + 1), Nat.add_comm 1]
      exact .call (args.length + 1)
  | resultRef index => exact emitResultRef_inStep index
  | block _ | branch _ _ _ | loop _ _ _ | ret _ | breakLoop | continueLoop | bind _ _ | rebind _ _
  | set _ _ _ => exact .throw _
termination_by structural f

theorem emitValues_inStep (fs : List Form) (n : Nat) :
    InStep o low low' n (n + fs.length) (emitValues functions fs) := by
  cases fs with
  | nil => exact .pure ()
  | cons f fs =>
      rw [List.length_cons, Nat.add_comm fs.length, ← Nat.add_assoc]
      exact .bind (emitValue_inStep f n) fun _ _ _ _ => emitValues_inStep fs (n + 1)
termination_by structural fs

theorem emitFold_inStep (i : BinaryInstr) (fs : List Form) (hfs : 2 ≤ fs.length) (n : Nat) :
    InStep o low low' n (n + 1) (emitFold functions i fs) := by
  cases fs with
  | nil => cases hfs
  | cons f fs =>
      exact .bind (emitValue_inStep f n) fun _ _ _ _ => emitFoldRest_inStep i fs n
termination_by structural fs

theorem emitFoldRest_inStep (i : BinaryInstr) (fs : List Form) (n : Nat) :
    InStep o low low' (n + 1) (n + 1) (emitFoldRest functions i fs) := by
  cases fs with
  | nil => exact .pure ()
  | cons f fs =>
      refine .bind (emitValue_inStep f (n + 1)) fun _ _ _ _ => ?_
      exact .bind (.instr (.binary i)) fun _ _ _ _ => emitFoldRest_inStep i fs n
termination_by structural fs

theorem emitStores_inStep (stores : List (Int64 × Form)) (n : Nat) :
    InStep o low low' (n + 1) (n + 1) (emitStores functions stores) := by
  match stores with
  | [] => exact .pure ()
  | (index, value) :: rest =>
      refine .bind (.instr (.stackRef 0)) fun _ _ _ _ => ?_
      refine .bind (.constant _) fun _ _ _ _ => ?_
      refine .bind (emitValue_inStep value (n + 1 + 1 + 1)) fun _ _ _ _ => ?_
      exact .bind (.instr .arraySet) fun _ _ _ _ => emitStores_inStep rest n
termination_by structural stores
end

end

end StackCompiler
