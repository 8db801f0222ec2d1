import Mathlib.Logic.Relation
import StackCompiler.CompiledFunction
import StackCompiler.Proofs.Runtime

/-!
The stack machine that runs compiled functions. Its state is the index of the next instruction, the
stack with the topmost value first, and the world. A function starts with its arguments on the stack
and ends by returning the topmost value or by an error of the host.
-/

namespace StackCompiler

structure Machine (R : Runtime) where
  pc : Nat
  stack : List R.Value
  world : World R

inductive Status (R : Runtime) where
  | running (m : Machine R)
  | returned (v : R.Value) (w : World R)
  | raised (w : World R)
  | stuck

namespace CompiledFunction

variable {R : Runtime}

def symbol? (f : CompiledFunction) (index : UInt16) : Option String :=
  match f.constants[index.toNat]? with
  | some (.symbol name) => some name
  | _ => none

/-- The stack after an instruction that is neither a jump nor a return. Operands of a primitive are
popped in reverse; what is written into a slot takes the place of the value that was there. -/
def perform (f : CompiledFunction) : Instr → List R.Value → Run R (List R.Value)
  | .constRef index, st =>
    match f.constants[index.toNat]? with
    | some c => return R.constant c :: st
    | none => throw .stuck
  | .varRef index, st =>
    match f.symbol? index with
    | some name => do
      let v ← Run.readVar name
      return v :: st
    | none => throw .stuck
  | .varSet index, v :: st =>
    match f.symbol? index with
    | some name => do
      Run.writeVar name v
      return st
    | none => throw .stuck
  | .stackRef offset, st =>
    match st[offset.toNat]? with
    | some v => return v :: st
    | none => throw .stuck
  | .stackSet offset, v :: st =>
    if offset.toNat < (v :: st).length then return ((v :: st).set offset.toNat v).tail
    else throw .stuck
  | .call args, st =>
    match st.drop args.toNat with
    | callee :: rest => do
      let v ← Run.call callee (st.take args.toNat).reverse
      return v :: rest
    | [] => throw .stuck
  | .discard count, st =>
    if count.toNat ≤ st.length then return st.drop count.toNat else throw .stuck
  | .arrayRef, i :: a :: st => do
    let v ← Run.primitive (R.arrayRef a i)
    return v :: st
  | .arraySet, v :: i :: a :: st => do
    Run.primitive (R.arraySet a i v)
    return st
  | .binary op, b :: a :: st => do
    let v ← Run.primitive (R.binary op a b)
    return v :: st
  | .unary op, a :: st => do
    let v ← Run.primitive (R.unary op a)
    return v :: st
  | .concat count, st =>
    if count.toNat ≤ st.length then do
      let v ← Run.primitive (R.concat (st.take count.toNat).reverse)
      return v :: st.drop count.toNat
    else throw .stuck
  | _, _ => throw .stuck

section

variable {f : CompiledFunction} {n : UInt16} {st : List R.Value}

theorem perform_constRef {c : Constant} (h : f.constants[n.toNat]? = some c) :
    f.perform (.constRef n) st = pure (R.constant c :: st) := by
  unfold perform
  simp only [h]

theorem perform_varRef {name : String} (h : f.symbol? n = some name) :
    f.perform (.varRef n) st = (do let v ← Run.readVar name; return v :: st) := by
  unfold perform
  simp only [h]

theorem perform_varSet {name : String} (h : f.symbol? n = some name) (v : R.Value) :
    f.perform (.varSet n) (v :: st) = (do Run.writeVar name v; return st) := by
  unfold perform
  simp only [h]

theorem perform_stackRef {v : R.Value} (h : st[n.toNat]? = some v) :
    f.perform (.stackRef n) st = pure (v :: st) := by
  unfold perform
  simp only [h]

theorem perform_stackSet {v : R.Value} (h : n.toNat < (v :: st).length) :
    f.perform (.stackSet n) (v :: st) = pure ((v :: st).set n.toNat v).tail :=
  if_pos h

theorem perform_discard (h : n.toNat ≤ st.length) :
    f.perform (.discard n) st = pure (st.drop n.toNat) :=
  if_pos h

theorem perform_call {n : UInt8} {vs : List R.Value} {callee : R.Value}
    (hn : n.toNat = vs.length) :
    f.perform (.call n) (vs.reverse ++ callee :: st) =
      (do let v ← Run.call callee vs; return v :: st) := by
  unfold perform
  simp [hn]

theorem perform_concat {n : UInt8} {vs : List R.Value} (hn : n.toNat = vs.length) :
    f.perform (.concat n) (vs.reverse ++ st) =
      (do let v ← Run.primitive (R.concat vs); return v :: st) := by
  unfold perform
  simp [hn]

end

def decideJump : JumpKind → List R.Value → Option (Bool × List R.Value)
  | .always, st => some (true, st)
  | .ifNil, v :: st => some (R.isNil v, st)
  | .ifNotNil, v :: st => some (!R.isNil v, st)
  | .ifNilElsePop, v :: st => some (if R.isNil v then (true, v :: st) else (false, st))
  | .ifNotNilElsePop, v :: st => some (if R.isNil v then (false, st) else (true, v :: st))
  | _, [] => none

def step (f : CompiledFunction) (m : Machine R) : Status R :=
  match f.chunk.code[m.pc]? with
  | none => .stuck
  | some .ret =>
    match m.stack with
    | v :: _ => .returned v m.world
    | [] => .stuck
  | some (.jump kind target) =>
    match f.chunk.labelPosition? target, decideJump kind m.stack with
    | some position, some (taken, st) =>
      .running ⟨if taken then position else m.pc + 1, st, m.world⟩
    | _, _ => .stuck
  | some i =>
    match f.perform i m.stack m.world with
    | .ok st w => .running ⟨m.pc + 1, st, w⟩
    | .error .panic w => .raised w
    | .error _ _ => .stuck

def run (f : CompiledFunction) : Nat → Machine R → Status R
  | 0, m => .running m
  | steps + 1, m =>
    match f.step m with
    | .running m => f.run steps m
    | ended => ended

def start (args : List R.Value) (w : World R) : Machine R :=
  ⟨0, args.reverse, w⟩

/-- The machine gets from one state to another. -/
abbrev Reaches (f : CompiledFunction) : Machine R → Machine R → Prop :=
  Relation.ReflTransGen fun m m' => f.step m = .running m'

theorem run_of_reaches {f : CompiledFunction} {m m' : Machine R} (h : f.Reaches m m')
    (steps : Nat) : ∃ n, f.run n m = f.run steps m' := by
  induction h using Relation.ReflTransGen.head_induction_on with
  | refl => exact ⟨steps, rfl⟩
  | head hstep _ ih =>
      obtain ⟨n, hn⟩ := ih
      refine ⟨n + 1, ?_⟩
      rw [run, hstep]
      exact hn

inductive Goal (Value : Type) where
  | point (pc : Nat) (stack : List Value)
  | returned (v : Value)
  | raised

def Attains (f : CompiledFunction) (m : Machine R) : Goal R.Value → World R → Prop
  | .point pc st, w => f.Reaches m ⟨pc, st, w⟩
  | .returned v, w => ∃ m', f.Reaches m m' ∧ f.step m' = .returned v w
  | .raised, w => ∃ m', f.Reaches m m' ∧ f.step m' = .raised w

theorem Attains.here {f : CompiledFunction} {pc : Nat} {st : List R.Value} {w : World R} :
    f.Attains ⟨pc, st, w⟩ (.point pc st) w :=
  .refl

theorem Attains.after {f : CompiledFunction} {m m' : Machine R} {g : Goal R.Value} {w : World R}
    (h : f.Attains m' g w) (hreach : f.Reaches m m') : f.Attains m g w := by
  cases g with
  | point pc st => exact hreach.trans h
  | returned v =>
      obtain ⟨last, hlast, hstep⟩ := h
      exact ⟨last, hreach.trans hlast, hstep⟩
  | raised =>
      obtain ⟨last, hlast, hstep⟩ := h
      exact ⟨last, hreach.trans hlast, hstep⟩

theorem Attains.run_eq_returned {f : CompiledFunction} {m : Machine R} {v : R.Value} {w : World R}
    (h : f.Attains m (.returned v) w) : ∃ n, f.run n m = .returned v w := by
  obtain ⟨last, hreach, hstep⟩ := h
  obtain ⟨n, hn⟩ := run_of_reaches hreach 1
  exact ⟨n, by rw [hn, run, hstep]⟩

theorem Attains.run_eq_raised {f : CompiledFunction} {m : Machine R} {w : World R}
    (h : f.Attains m .raised w) : ∃ n, f.run n m = .raised w := by
  obtain ⟨last, hreach, hstep⟩ := h
  obtain ⟨n, hn⟩ := run_of_reaches hreach 1
  exact ⟨n, by rw [hn, run, hstep]⟩

/-- From `m` the machine does what the computation `x` does, and gets to the goal of its result. An
error of the host is an error of the machine, and nothing is said where `x` has no meaning. -/
def Follows {α : Type} (f : CompiledFunction) (m : Machine R) (x : Run R α)
    (goal : α → Goal R.Value) : Prop :=
  match x m.world with
  | .ok a w => f.Attains m (goal a) w
  | .error .panic w => f.Attains m .raised w
  | .error _ _ => True

namespace Follows

variable {α : Type} {f : CompiledFunction} {m : Machine R} {x : Run R α} {goal : α → Goal R.Value}

theorem attains (h : f.Follows m x goal) {a : α} {w : World R} (hx : x m.world = .ok a w) :
    f.Attains m (goal a) w := by
  simpa [Follows, hx] using h

theorem raises (h : f.Follows m x goal) {w : World R} (hx : x m.world = .error .panic w) :
    f.Attains m .raised w := by
  simpa [Follows, hx] using h

/-- The machine may first do something that the computation does not see. -/
theorem after {m' : Machine R} (h : f.Follows m' x goal) (hreach : f.Reaches m m')
    (hworld : m'.world = m.world) : f.Follows m x goal := by
  unfold Follows at h ⊢
  rw [hworld] at h
  split at h
  · exact h.after hreach
  · exact h.after hreach
  · trivial

/-- The goal matters only at results that the computation has. -/
theorem mono {goal' : α → Goal R.Value} (h : f.Follows m x goal)
    (heq : ∀ a w, x m.world = .ok a w → goal a = goal' a) : f.Follows m x goal' := by
  unfold Follows at h ⊢
  split at h <;> rename_i hx
  · rw [← heq _ _ hx]
    exact h
  · exact h
  · trivial

/-- Only what the computation does from here matters. -/
theorem congr {z : Run R α} (h : f.Follows m x goal) (heq : x m.world = z m.world) :
    f.Follows m z goal := by
  unfold Follows at h ⊢
  rwa [← heq]

/-- A computation without effect. -/
theorem pure {a : α} {goal : α → Goal R.Value} (h : f.Attains m (goal a) m.world) :
    f.Follows m (Pure.pure a : Run R α) goal := h

/-- Looking at the world. -/
theorem get (m : Machine R) :
    f.Follows m (MonadState.get : Run R (World R)) fun _ => .point m.pc m.stack :=
  .here

end Follows

/-- What comes after a goal: from a point the machine follows the rest of the computation, and where
it has ended nothing may be left to do. -/
def Continues {β : Type} (f : CompiledFunction) (w : World R) (y : Run R β)
    (goal' : β → Goal R.Value) : Goal R.Value → Prop
  | .point pc st => f.Follows ⟨pc, st, w⟩ y goal'
  | g => ∃ b, y w = .ok b w ∧ goal' b = g

namespace Follows

variable {α β : Type} {f : CompiledFunction} {m : Machine R} {x : Run R α} {y : α → Run R β}
  {goal' : β → Goal R.Value}

/-- A computation in two parts is followed part by part; the machine may end with the first. -/
theorem bind_continues {goal : α → Goal R.Value} (hx : f.Follows m x goal)
    (hy : ∀ a w, x m.world = .ok a w → f.Continues w (y a) goal' (goal a)) :
    f.Follows m (x >>= y) goal' := by
  unfold Follows
  cases hrun : x m.world with
  | ok a w =>
      rw [bind_of_ok hrun]
      have hattains := hx.attains hrun
      have hrest := hy a w hrun
      cases hgoal : goal a with
      | point pc st =>
          rw [hgoal] at hattains hrest
          unfold Continues Follows at hrest
          split <;> rename_i heq <;> simp only [heq] at hrest
          · exact hrest.after hattains
          · exact hrest.after hattains
          · trivial
      | returned v | raised =>
          rw [hgoal] at hattains hrest
          obtain ⟨b, hb, hgoal'⟩ := hrest
          rw [hb]
          show f.Attains m (goal' b) w
          rw [hgoal']
          exact hattains
  | error e w =>
      rw [bind_of_error hrun]
      cases e with
      | panic => exact hx.raises hrun
      | stuck => trivial
      | timeout => trivial

theorem bind {pc : α → Nat} {st : α → List R.Value}
    (hx : f.Follows m x fun a => .point (pc a) (st a))
    (hy : ∀ a w, x m.world = .ok a w → f.Follows ⟨pc a, st a, w⟩ (y a) goal') :
    f.Follows m (x >>= y) goal' :=
  hx.bind_continues hy

end Follows

end CompiledFunction

end StackCompiler
