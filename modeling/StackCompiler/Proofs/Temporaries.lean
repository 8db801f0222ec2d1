import StackCompiler.Proofs.FormShape
import StackCompiler.Proofs.Ownership
import StackCompiler.Proofs.Scoping
import StackCompiler.Proofs.StoreOrder

/-!
Stores through temporaries. Source has no names for temporaries, so what it can see is the
environment without them, `Env.plain`. `execForms_storesOf` says that the forms of stores do them in
turn whatever temporaries there are, and `execForms_bindsOf` that forms which bind temporaries
change nothing but these.
-/

namespace StackCompiler

open Source

/-! ### Computations that do the same -/

/-- Two computations do the same to the host and end alike, and their results are related. -/
def Run.Alike {R : Runtime} {α β : Type} (r : α → β → Prop) (x : Run R α) (y : Run R β) : Prop :=
  ∀ w, match x w, y w with
    | .ok a w₁, .ok b w₂ => w₁ = w₂ ∧ r a b
    | .error e w₁, .error e' w₂ => e = e' ∧ w₁ = w₂
    | _, _ => False

section

variable {R : Runtime} {α β α' β' : Type} {r : α → β → Prop} {q : α' → β' → Prop}

namespace Run.Alike

theorem pure {a : α} {b : β} (h : r a b) : Run.Alike r (Pure.pure a : Run R α) (Pure.pure b) :=
  fun _ => ⟨rfl, h⟩

theorem refl (x : Run R α) : Run.Alike Eq x x := by
  intro w
  cases x w with
  | ok a w' => exact ⟨rfl, rfl⟩
  | error e w' => exact ⟨rfl, rfl⟩

theorem bind {x : Run R α} {y : Run R β} (h : Run.Alike r x y) {f : α → Run R α'}
    {g : β → Run R β'}
    (hnext : ∀ {a b w w'}, x w = .ok a w' → r a b → Run.Alike q (f a) (g b)) :
    Run.Alike q (x >>= f) (y >>= g) := by
  intro w
  have hw := h w
  cases hx : x w with
  | ok a w₁ =>
      cases hy : y w with
      | ok b w₂ =>
          simp only [hx, hy] at hw
          obtain ⟨rfl, hr⟩ := hw
          rw [bind_of_ok hx, bind_of_ok hy]
          exact hnext hx hr w₁
      | error e w₂ => simp only [hx, hy] at hw
  | error e w₁ =>
      cases hy : y w with
      | ok b w₂ => simp only [hx, hy] at hw
      | error e' w₂ =>
          simp only [hx, hy] at hw
          rw [bind_of_error hx, bind_of_error hy]
          exact hw

theorem after {x : Run R α} {y : Run R β} (h : Run.Alike r x y) (w : World R) :
    x.after w = y.after w := by
  have hw := h w
  unfold Run.after
  cases hx : x w <;> cases hy : y w <;> simp only [hx, hy] at hw ⊢
  · exact hw.1
  · exact hw.2

theorem mono {x : Run R α} {y : Run R β} (h : Run.Alike r x y) {r' : α → β → Prop}
    (hmono : ∀ a b, r a b → r' a b) : Run.Alike r' x y := by
  intro w
  have hw := h w
  cases hx : x w with
  | ok a w₁ =>
      cases hy : y w with
      | ok b w₂ =>
          simp only [hx, hy] at hw
          exact ⟨hw.1, hmono a b hw.2⟩
      | error e w₂ => simp only [hx, hy] at hw
  | error e w₁ =>
      cases hy : y w with
      | ok b w₂ => simp only [hx, hy] at hw
      | error e' w₂ => simpa only [hx, hy] using hw

end Run.Alike

end

/-! ### Variables apart from temporaries -/

def Env.plain {R : Runtime} (ρ : Env R) : Env R :=
  ρ.filter fun entry => !isReserved entry.1

/-- Whether a form, apart from its parts, is no variable whose name source cannot use. -/
def Form.IsPlain (f : Form) : Prop :=
  ∀ name, f = .var name → isReserved name = false

structure Destination.IsPlain (d : Destination) : Prop where
  names : ∀ name ∈ d.names, isReserved name = false
  operands : ∀ f ∈ d.operands, f.Every Form.IsPlain

section

variable {R : Runtime} {ρ ρ' : Env R} {d : Destination} {f : Form}

theorem ne_of_isReserved {x y : String} (hx : isReserved x = true) (hy : isReserved y = false) :
    x ≠ y := by
  rintro rfl
  rw [hy] at hx
  cases hx

theorem Env.plain_cons_of_isReserved {name : String} (h : isReserved name = true) (v : R.Value) :
    Env.plain ((name, v) :: ρ) = ρ.plain := by
  simp [plain, h]

theorem Env.plain_cons {name : String} (h : isReserved name = false) (v : R.Value) :
    Env.plain ((name, v) :: ρ) = (name, v) :: ρ.plain := by
  simp [plain, h]

theorem Env.lookup_plain {name : String} (h : isReserved name = false) :
    ρ.plain.lookup name = ρ.lookup name := by
  induction ρ with
  | nil => rfl
  | cons entry ρ ih =>
      obtain ⟨x, v⟩ := entry
      cases hx : isReserved x with
      | true =>
          have hne := (ne_of_isReserved hx h).symm
          rw [plain_cons_of_isReserved hx, List.lookup_cons, beq_false_of_ne hne, ih]
      | false => rw [plain_cons hx, List.lookup_cons, List.lookup_cons, ih]

theorem Env.plain_update? {name : String} (h : isReserved name = false) (v : R.Value) :
    (ρ.update? name v).map plain = ρ.plain.update? name v := by
  induction ρ with
  | nil => rfl
  | cons entry ρ ih =>
      obtain ⟨x, old⟩ := entry
      cases hx : isReserved x with
      | true =>
          have hne := ne_of_isReserved hx h
          rw [plain_cons_of_isReserved hx, ← ih, update?, if_neg hne, Option.map_map]
          simp [Function.comp_def, plain_cons_of_isReserved hx]
      | false =>
          rw [plain_cons hx, update?, update?, ← ih]
          split
          · simp [plain_cons hx]
          · simp [Function.comp_def, plain_cons hx]

/-- Where only names of source are read, only these need to agree. -/
theorem agreesIn_of_isPlain (h : f.Every Form.IsPlain) (hρ : ρ.plain = ρ'.plain) :
    f.Every (Form.AgreesIn ρ ρ') := by
  intro g hg name hname
  have hplain := h g hg name hname
  rw [← Env.lookup_plain hplain, ← Env.lookup_plain (ρ := ρ') hplain, hρ]

theorem Destination.IsPlain.place_eq (h : d.IsPlain) (hρ : ρ.plain = ρ'.plain) :
    d.place R ρ = d.place R ρ' :=
  place_congr fun f hf => agreesIn_of_isPlain (h.operands f hf) hρ

/-- What one store makes of two environments that differ in temporaries only. -/
theorem Destination.IsPlain.put_alike (h : d.IsPlain) (hρ : ρ.plain = ρ'.plain) {p : Place R}
    {w w' : World R} (hp : d.place R ρ w = .ok p w') (v : R.Value) :
    Run.Alike (fun σ σ' => σ.plain = σ'.plain ∧
        (∀ name, isReserved name = true → σ.lookup name = ρ.lookup name) ∧
        ∃ top, σ.names = top ++ ρ.names ∧ ∀ name ∈ top, d = .define name)
      (p.put v ρ) (p.put v ρ') := by
  cases d with
  | blank =>
      cases hp
      exact .pure ⟨hρ, fun _ _ => rfl, [], rfl, by simp⟩
  | define name =>
      cases hp
      have hname := h.names name (by simp [Destination.names])
      refine .pure ⟨?_, fun other hother => ?_, [name], rfl, by simp⟩
      · rw [Env.plain_cons hname, Env.plain_cons hname, hρ]
      · rw [List.lookup_cons, beq_false_of_ne (ne_of_isReserved hother hname)]
  | assign name =>
      cases hp
      have hname := h.names name (by simp [Destination.names])
      have hupdates : (ρ.update? name v).map Env.plain = (ρ'.update? name v).map Env.plain := by
        rw [Env.plain_update? hname, Env.plain_update? hname, hρ]
      simp only [Place.put]
      cases hupdate : ρ.update? name v with
      | some σ =>
          rw [hupdate] at hupdates
          obtain ⟨σ', hupdate', hplain⟩ := Option.map_eq_some_iff.1 hupdates.symm
          rw [hupdate']
          refine .pure ⟨hplain.symm, fun other hother => ?_, [], Env.names_of_update? hupdate,
            by simp⟩
          exact (Env.lookup_of_update? hupdate).1 other (ne_of_isReserved hother hname)
      | none =>
          rw [hupdate] at hupdates
          rw [Option.map_eq_none_iff.1 hupdates.symm]
          exact (Run.Alike.refl _).bind fun _ _ => .pure ⟨hρ, fun _ _ => rfl, [], rfl, by simp⟩
  | element base index =>
      obtain ⟨a, _, -, hp⟩ := bind_eq_ok.1 hp
      obtain ⟨i, _, -, hp⟩ := bind_eq_ok.1 hp
      cases hp
      exact (Run.Alike.refl _).bind fun _ _ => .pure ⟨hρ, fun _ _ => rfl, [], rfl, by simp⟩

end

/-! ### The forms of stores -/

def Destination.isBlank : Destination → Bool
  | blank => true
  | _ => false

/-- Whether a value has to be evaluated, for its destination or for its effect. -/
def isNeeded (pair : Destination × Form) : Bool :=
  !(pair.1.isBlank && pair.2.isPure)

def deliveriesOf (R : Runtime) (ρ : Env R) (pairs : List (Destination × Form)) :
    List (Delivery R) :=
  (pairs.filter isNeeded).map fun pair => (pair.1, evalValue R ρ pair.2)

/-- Whether a form, apart from its parts, is no variable of source. -/
def Form.IsHidden (f : Form) : Prop :=
  ∀ name, f = .var name → isReserved name = true

section

variable {R : Runtime} {fuel : Nat} {ρ ρ' : Env R} {d : Destination} {f : Form}

theorem Destination.store_of_not_isNeeded (h : isNeeded (d, f) = false) : d.store f = [] := by
  simp only [isNeeded, Bool.not_eq_false', Bool.and_eq_true] at h
  cases d with
  | blank => exact if_pos h.2
  | _ => cases h.1

/-- A store finds its destination, evaluates its value and puts it there. -/
theorem execForms_store_append (h : isNeeded (d, f) = true) (hf : f.isStatement = false)
    (fs : List Form) :
    execForms R fuel (d.store f ++ fs) ρ = (do
      let p ← d.place R ρ
      let v ← evalValue R ρ f
      let ρ ← p.put v ρ
      execForms R fuel fs ρ) := by
  cases d with
  | blank =>
      have hpure : ¬ f.isPure = true := by simpa [isNeeded, Destination.isBlank] using h
      simp [Destination.store, if_neg hpure, execForms, execForm_of_isStatement hf,
        Destination.place, Place.put]
  | define name =>
      simp [Destination.store, execForms, execForm, Destination.place, Place.put]
  | assign name =>
      simp only [Destination.store, List.singleton_append, execForms, execForm, bind_assoc,
        Destination.place, pure_bind, Place.put]
      refine bind_congr fun v => ?_
      cases ρ.update? name v with
      | some ρ' => simp
      | none => simp
  | element base index =>
      simp [Destination.store, execForms, execForm, Destination.place, Place.put]

theorem deliveriesOf_congr {pairs : List (Destination × Form)}
    (h : ∀ pair ∈ pairs, pair.2.Every (Form.AgreesIn ρ ρ')) :
    deliveriesOf R ρ pairs = deliveriesOf R ρ' pairs := by
  refine List.map_congr_left fun pair hpair => ?_
  rw [evalValue_congr pair.2 (h pair (List.mem_filter.1 hpair).1)]

/-- What is left after stores: control goes on, the variables of source are those of `σ`, and where
nothing was defined the names are those from before. -/
structure AfterStores (ρ : Env R) (ds : List Destination) (r : Flow R.Value × Env R) (σ : Env R) :
    Prop where
  flow : r.1 = .next
  plain : r.2.plain = σ.plain
  names : (∀ d ∈ ds, ∀ name, d ≠ .define name) → r.2.names = ρ.names

/-- The forms of stores do them in turn, whatever temporaries there are. -/
theorem execForms_storesOf {pairs : List (Destination × Form)} (hρ : ρ.plain = ρ'.plain)
    (hplain : ∀ pair ∈ pairs, pair.1.IsPlain)
    (hvalues : ∀ pair ∈ pairs, pair.2.isStatement = false)
    (hhidden : ∀ pair ∈ pairs.tail, pair.2.Every Form.IsHidden) :
    Run.Alike (AfterStores ρ (pairs.map (·.1))) (execForms R fuel (storesOf pairs) ρ)
      (storeInTurn R ρ' (deliveriesOf R ρ pairs)) := by
  induction pairs generalizing ρ ρ' with
  | nil => exact .pure ⟨rfl, hρ, fun _ => rfl⟩
  | cons pair rest ih =>
      obtain ⟨d, f⟩ := pair
      rw [List.forall_mem_cons] at hplain hvalues
      have hhidden' : ∀ pair ∈ rest.tail, pair.2.Every Form.IsHidden :=
        fun pair hpair => hhidden pair (List.mem_of_mem_tail hpair)
      cases hneeded : isNeeded (d, f) with
      | false =>
          have hdeliveries : deliveriesOf R ρ ((d, f) :: rest) = deliveriesOf R ρ rest := by
            simp [deliveriesOf, hneeded]
          rw [hdeliveries, storesOf, Destination.store_of_not_isNeeded hneeded, List.nil_append]
          refine (ih hρ hplain.2 hvalues.2 hhidden').mono fun r σ h =>
            ⟨h.flow, h.plain, fun hdefine => ?_⟩
          rw [List.map_cons, List.forall_mem_cons] at hdefine
          exact h.names hdefine.2
      | true =>
          have hdeliveries : deliveriesOf R ρ ((d, f) :: rest) =
              (d, evalValue R ρ f) :: deliveriesOf R ρ rest := by
            simp [deliveriesOf, hneeded]
          rw [hdeliveries, storesOf, execForms_store_append hneeded hvalues.1, storeInTurn,
            ← hplain.1.place_eq hρ]
          refine (Run.Alike.refl _).bind fun hp heq => ?_
          subst heq
          refine (Run.Alike.refl _).bind fun _ heq => ?_
          subst heq
          refine (hplain.1.put_alike hρ hp _).bind fun _ hput => ?_
          obtain ⟨hσ, hreserved, top, htop, hdefine⟩ := hput
          have hagrees : ∀ pair ∈ rest, pair.2.Every (Form.AgreesIn _ ρ) :=
            fun pair hpair g hg name hname => hreserved name (hhidden pair hpair g hg name hname)
          rw [← deliveriesOf_congr hagrees]
          refine (ih hσ hplain.2 hvalues.2 hhidden').mono fun r τ h =>
            ⟨h.flow, h.plain, fun hnone => ?_⟩
          rw [List.map_cons, List.forall_mem_cons] at hnone
          have hempty : top = [] :=
            List.eq_nil_iff_forall_not_mem.2 fun name hname => hnone.1 name (hdefine name hname)
          rw [h.names hnone.2, htop, hempty, List.nil_append]

end

/-! ### Temporaries -/

def numbered (position : Nat) : List (Destination × Form) → List (Nat × Destination × Form)
  | [] => []
  | pair :: rest =>
    if isNeeded pair then (position, pair) :: numbered (position + 1) rest
    else numbered (position + 1) rest

def bindsOf (entries : List (Nat × Destination × Form)) : List Form :=
  entries.map fun entry => .bind (temporary entry.1) entry.2.2

def fromTemporaries (entries : List (Nat × Destination × Form)) : List (Destination × Form) :=
  entries.map fun entry => (entry.2.1, .var (temporary entry.1))

theorem isReserved_temporary (position : Nat) : isReserved (temporary position) = true := by
  simp [isReserved, toList_temporary]

theorem map_numbered (position : Nat) (pairs : List (Destination × Form)) :
    (numbered position pairs).map (·.2) = pairs.filter isNeeded := by
  induction pairs generalizing position with
  | nil => rfl
  | cons pair rest ih =>
      rw [numbered, List.filter_cons]
      split
      · rw [List.map_cons, ih]
      · exact ih _

theorem numbered_le {position : Nat} {pairs : List (Destination × Form)} :
    ∀ entry ∈ numbered position pairs, position ≤ entry.1 := by
  induction pairs generalizing position with
  | nil => simp [numbered]
  | cons pair rest ih =>
      have hrest : ∀ entry ∈ numbered (position + 1) rest, position ≤ entry.1 :=
        fun entry hentry => Nat.le_of_succ_le (ih entry hentry)
      rw [numbered]
      split
      · exact List.forall_mem_cons.2 ⟨Nat.le_refl _, hrest⟩
      · exact hrest

theorem numbered_pairwise (position : Nat) (pairs : List (Destination × Form)) :
    (numbered position pairs).Pairwise fun a b => temporary a.1 ≠ temporary b.1 := by
  induction pairs generalizing position with
  | nil => exact .nil
  | cons pair rest ih =>
      rw [numbered]
      split
      · refine List.pairwise_cons.2 ⟨fun entry hentry heq => ?_, ih _⟩
        have hle := numbered_le entry hentry
        rw [← temporary_inj heq] at hle
        exact Nat.not_succ_le_self _ hle
      · exact ih _

section

variable {env : Environment}

theorem Target.isBlank_destination {t : Target} {d : Destination} (h : t.destination env = .ok d) :
    d.isBlank = t.isBlank := by
  cases t with
  | element base at' =>
      obtain ⟨b, -, h⟩ := lower_bind_ok h
      obtain ⟨i, -, h⟩ := lower_bind_ok h
      cases h
      rfl
  | _ =>
      cases h
      rfl

/-- Values are bound to temporaries, and stored from there one after the other. -/
theorem storeThroughTemporaries_ok {position : Nat} {pairs : List (Target × Form)}
    {binds stores : List Form}
    (h : storeThroughTemporaries env position pairs = .ok (binds, stores)) :
    ∃ ds, destinationsOf env (pairs.map (·.1)) = .ok ds ∧
      binds = bindsOf (numbered position (ds.zip (pairs.map (·.2)))) ∧
      stores = storesOf (fromTemporaries (numbered position (ds.zip (pairs.map (·.2))))) := by
  induction pairs generalizing position binds stores with
  | nil =>
      cases h
      exact ⟨[], rfl, rfl, rfl⟩
  | cons pair rest ih =>
      obtain ⟨t, value⟩ := pair
      obtain ⟨⟨first, firstStores⟩, hfirst, h⟩ := lower_bind_ok h
      obtain ⟨⟨others, otherStores⟩, hothers, h⟩ := lower_bind_ok h
      cases h
      obtain ⟨ds, hds, rfl, rfl⟩ := ih hothers
      unfold storeThroughTemporary at hfirst
      split at hfirst
      · rename_i hskip
        cases hfirst
        simp only [Bool.and_eq_true] at hskip
        cases t with
        | blank =>
            have hneeded : isNeeded (.blank, value) = false := by
              simp [isNeeded, Destination.isBlank, hskip.2]
            refine ⟨.blank :: ds, by rw [List.map_cons, destinationsOf, hds]; rfl, ?_, ?_⟩ <;>
              simp [numbered, hneeded]
        | _ => cases hskip.1
      · rename_i hskip
        obtain ⟨stored, hstored, hfirst⟩ := lower_bind_ok hfirst
        cases hfirst
        obtain ⟨d, hd, rfl⟩ := Target.store_ok hstored
        have hneeded : isNeeded (d, value) = true := by
          simp only [isNeeded, Target.isBlank_destination hd, hskip, Bool.not_false]
        refine ⟨d :: ds, by rw [List.map_cons, destinationsOf, hd, hds]; rfl, ?_, ?_⟩ <;>
          simp [numbered, hneeded, bindsOf, fromTemporaries, storesOf]

end

section

variable {R : Runtime} {fuel : Nat} {ρ ρ' : Env R}

structure AfterBinds (ρ : Env R) (entries : List (Nat × Destination × Form))
    (r : Flow R.Value × Env R) (vs : List R.Value) : Prop where
  flow : r.1 = .next
  plain : r.2.plain = ρ.plain
  names : ∃ top, r.2.names = top ++ ρ.names ∧ ∀ name ∈ top, isReserved name = true
  others : ∀ name, (∀ entry ∈ entries, name ≠ temporary entry.1) →
    r.2.lookup name = ρ.lookup name
  held : List.Forall₂ (fun entry v => r.2.lookup (temporary entry.1) = some v) entries vs

theorem execForms_bindsOf {entries : List (Nat × Destination × Form)} (hρ : ρ.plain = ρ'.plain)
    (hplain : ∀ entry ∈ entries, entry.2.2.Every Form.IsPlain)
    (hdistinct : entries.Pairwise fun a b => temporary a.1 ≠ temporary b.1) :
    Run.Alike (AfterBinds ρ entries) (execForms R fuel (bindsOf entries) ρ)
      (evalValues R ρ' (entries.map (·.2.2))) := by
  induction entries generalizing ρ with
  | nil => exact .pure ⟨rfl, rfl, ⟨[], rfl, by simp⟩, fun _ _ => rfl, .nil⟩
  | cons entry rest ih =>
      obtain ⟨position, d, f⟩ := entry
      rw [List.forall_mem_cons] at hplain
      rw [List.pairwise_cons] at hdistinct
      have hvalue : evalValue R ρ f = evalValue R ρ' f :=
        evalValue_congr f (agreesIn_of_isPlain hplain.1 hρ)
      simp only [bindsOf, List.map_cons, execForms, execForm, bind_assoc, pure_bind, evalValues,
        hvalue]
      refine (Run.Alike.refl _).bind fun {v _ _ _} _ heq => ?_
      subst heq
      have hreserved := isReserved_temporary position
      have hnext := ih (ρ := (temporary position, v) :: ρ)
        (by rw [Env.plain_cons_of_isReserved hreserved, hρ]) hplain.2 hdistinct.2
      rw [← bind_pure (execForms R fuel _ _)]
      refine hnext.bind fun {r vs _ _} _ h => .pure ⟨h.flow, ?_, ?_, ?_, ?_⟩
      · rw [h.plain, Env.plain_cons_of_isReserved hreserved]
      · obtain ⟨top, hnames, htop⟩ := h.names
        refine ⟨top ++ [temporary position], by rw [hnames]; simp [Env.names], ?_⟩
        exact List.forall_mem_append.2 ⟨htop, by simpa using hreserved⟩
      · intro name hname
        rw [List.forall_mem_cons] at hname
        rw [h.others name hname.2, List.lookup_cons, beq_false_of_ne hname.1]
      · refine .cons ?_ h.held
        rw [h.others (temporary position) fun entry hentry => hdistinct.1 entry hentry]
        simp

/-- Values that lie in temporaries are stored as they are. -/
theorem storeInTurn_fromTemporaries {entries : List (Nat × Destination × Form)}
    {vs : List R.Value}
    (h : List.Forall₂ (fun entry v => ρ.lookup (temporary entry.1) = some v) entries vs) :
    storeInTurn R ρ' (deliveriesOf R ρ (fromTemporaries entries)) =
      storeInTurn R ρ' ((entries.map (·.2.1)).zip (vs.map pure)) := by
  induction h generalizing ρ' with
  | nil => rfl
  | @cons entry v rest vs hlookup _ ih =>
      obtain ⟨position, d, f⟩ := entry
      have hvalue : evalValue R ρ (.var (temporary position)) = pure v := by
        simp only [evalValue, hlookup]
      cases hneeded : isNeeded (d, .var (temporary position)) with
      | true =>
          have hdeliveries : deliveriesOf R ρ (fromTemporaries ((position, d, f) :: rest)) =
              (d, pure v) :: deliveriesOf R ρ (fromTemporaries rest) := by
            simp [deliveriesOf, fromTemporaries, hneeded, hvalue]
          rw [hdeliveries]
          simp only [storeInTurn, List.map_cons, List.zip_cons_cons, ih]
      | false =>
          have hdeliveries : deliveriesOf R ρ (fromTemporaries ((position, d, f) :: rest)) =
              deliveriesOf R ρ (fromTemporaries rest) := by
            simp [deliveriesOf, fromTemporaries, hneeded]
          rw [hdeliveries, ih]
          cases d with
          | blank => simp [storeInTurn, Destination.place, Place.put]
          | _ => cases hneeded

end

end StackCompiler
