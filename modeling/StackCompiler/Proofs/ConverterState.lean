import StackCompiler.Form.Converter
import StackCompiler.Proofs.StmtMeaning

/-!
What a converter keeps. While it converts an item, a converter opens and closes loops, but every
item leaves it as it was, also one that is refused in the middle of loops. So items are converted
as by a converter of their own, and the loops that are open at a `break` or `continue` are those of
its item whose bodies it is in. The induction of `stmt_answers` shows both at once: the count of
open loops does what the flag of `Block.ofStmt` does, and is the same again in the end.
-/

namespace StackCompiler

open Source

namespace Converter

section

variable {α β : Type} {c : Converter}

/-- The conversion gives the result of lowering and leaves the converter as it was. -/
def Answers (c : Converter) (x : Convert α) (r : Lower α) : Prop :=
  x c = lower (fun _ => r) c

namespace Answers

theorem pure (a : α) : c.Answers (pure a) (.ok a) := rfl

theorem lower (x : Environment → Lower α) : c.Answers (Converter.lower x) (x c.env) := rfl

theorem bind {x : Convert α} {r : Lower α} {k : α → Convert β} {l : α → Lower β}
    (hx : c.Answers x r) (hk : ∀ a, c.Answers (k a) (l a)) : c.Answers (x >>= k) (r >>= l) := by
  cases r with
  | ok a => exact (bind_of_ok hx k).trans (hk a)
  | error e => exact bind_of_error hx k

theorem map {x : Convert α} {r : Lower α} (f : α → β) (hx : c.Answers x r) :
    c.Answers (f <$> x) (f <$> r) :=
  hx.bind fun a => pure (f a)

/-- A loop is left as often as it is entered, with or without a result. -/
theorem withinLoop {x : Convert α} {r : Lower α} (hx : c.enterLoop.Answers x r) :
    c.Answers (withinLoop x) r := by
  show Converter.withinLoop x c = _
  simp only [Converter.withinLoop, show x c.enterLoop = _ from hx]
  cases r with
  | ok a => rfl
  | error e => rfl

end Answers

def inLoop (c : Converter) : Bool :=
  0 < c.loopDepth

theorem inLoop_enterLoop : c.enterLoop.inLoop = true := by
  simp [inLoop, enterLoop]

theorem loopControl_answers (jump : LoopJump) (f : Form) (span : Span) :
    c.Answers (do loopControl jump span; return [f])
      (if c.inLoop then .ok [f] else refuse (.outsideLoop jump) span) := by
  rcases c with ⟨env, _ | depth⟩
  · exact rfl
  · exact rfl

theorem condition_answers (cond : Option Expr) :
    c.Answers (condition cond) (Form.ofCondition c.env cond) := by
  cases cond with
  | none => exact .pure _
  | some e => exact rfl

mutual
/-- A statement is converted as it is lowered, with the loops that are open around it. -/
theorem stmt_answers (c : Converter) (s : Stmt) :
    c.Answers (stmt s) (Block.ofStmt c.env c.inLoop s) := by
  cases s with
  | expr e span =>
      rw [stmt, Block.ofStmt]
      exact (Answers.lower _).bind fun f => .pure _
  | decl _ _ _ | assign _ _ _ _ | step _ _ _ | ret _ _ =>
      rw [stmt, Block.ofStmt]
      exact .lower _
  | block body span =>
      rw [stmt, Block.ofStmt]
      exact (block_answers c body).bind fun fs => .pure _
  | branch init cond body els span =>
      cases init with
      | some s =>
          rw [stmt, Block.ofStmt]
          exact rfl
      | none =>
          rw [stmt, ofStmt_branch]
          refine (Answers.lower _).bind fun f => (block_answers c body).bind fun fs => ?_
          exact (optional_answers c els).bind fun other => .pure _
  | loop init cond post body span =>
      rw [stmt, ofStmt_loop]
      refine (optional_answers c init).bind fun prepared => ?_
      refine (condition_answers cond).bind fun f => ?_
      have hbody := (block_answers c.enterLoop body).withinLoop
      rw [inLoop_enterLoop] at hbody
      exact hbody.bind fun fs => (optional_answers c post).bind fun after => .pure _
  | breakLoop span | continueLoop span =>
      rw [stmt, Block.ofStmt]
      exact loopControl_answers _ _ span
termination_by structural s

theorem block_answers (c : Converter) (body : List Stmt) :
    c.Answers (block body) (Block.ofStmts c.env c.inLoop body) := by
  cases body with
  | nil => exact .pure _
  | cons s rest =>
      rw [block, Block.ofStmts]
      exact (stmt_answers c s).bind fun first => (block_answers c rest).bind fun others => .pure _
termination_by structural body

theorem optional_answers (c : Converter) (s? : Option Stmt) :
    c.Answers (optional s?) (Block.ofOption c.env c.inLoop s?) := by
  cases s? with
  | none => exact .pure _
  | some s => exact (stmt_answers c s).bind fun fs => .pure _
termination_by structural s?
end

/-! ### Items -/

/-- Every item is answered by lowering, and leaves a fresh converter fresh. -/
theorem exists_answers (env : Environment) (item : Item) :
    ∃ r, (fresh env).Answers item.convert r := by
  cases item with
  | expr e => exact ⟨_, (Answers.lower _).map _⟩
  | value e => exact ⟨_, (Answers.lower _).map _⟩
  | stmt s => exact ⟨_, (stmt_answers _ s).map _⟩
  | block body => exact ⟨_, (block_answers _ body).map _⟩
  | function f =>
      -- a fresh converter has no loop to leave
      have hbody : (fresh env).Answers (function f) _ := block_answers (fresh env) f.body
      exact ⟨_, hbody.map _⟩

theorem after_fresh (env : Environment) (item : Item) : (fresh env).after item = fresh env := by
  obtain ⟨r, h⟩ := exists_answers env item
  simp only [after, show item.convert (fresh env) = _ from h]
  cases r with
  | ok a => rfl
  | error e => rfl

theorem foldl_after_fresh (env : Environment) (items : List Item) :
    items.foldl after (fresh env) = fresh env := by
  induction items with
  | nil => rfl
  | cons item rest ih => rw [List.foldl_cons, after_fresh, ih]

theorem answers_fresh (env : Environment) (items : List Item) :
    (fresh env).answers items = items.map (fresh env).answer := by
  induction items with
  | nil => rfl
  | cons item rest ih => rw [answers, after_fresh, ih, List.map_cons]

end

/-! ### Visited jumps -/

structure JumpVisit where
  jump : LoopJump
  span : Span
  /-- How many loops of the item have the jump in their bodies. -/
  bodies : Nat
  /-- The converter when it comes to the jump. -/
  state : Converter

/-- What is visited after a part. Nothing is if the part is refused. -/
def andThen {α : Type} (x : Convert α) (c : Converter) (visits : Converter → List JumpVisit) :
    List JumpVisit :=
  match x c with
  | .ok _ c => visits c
  | .error _ _ => []

mutual
/-- The jumps that a converter comes to in a statement with the bodies of so many loops around it.
The parts of a statement are visited in the order in which they are converted; only the body of a
loop is in one loop more. -/
def jumps : Stmt → Nat → Converter → List JumpVisit
  | .breakLoop span, bodies, c => [⟨.breakLoop, span, bodies, c⟩]
  | .continueLoop span, bodies, c => [⟨.continueLoop, span, bodies, c⟩]
  | .block body _, bodies, c => blockJumps body bodies c
  | .branch none cond body els _, bodies, c =>
    andThen (expr cond) c fun c =>
      blockJumps body bodies c ++ andThen (block body) c (optionalJumps els bodies)
  | .loop init cond post body _, bodies, c =>
    optionalJumps init bodies c ++
      andThen (optional init) c fun c => andThen (condition cond) c fun c =>
        blockJumps body (bodies + 1) c.enterLoop ++
          andThen (withinLoop (block body)) c (optionalJumps post bodies)
  | _, _, _ => []

def blockJumps : List Stmt → Nat → Converter → List JumpVisit
  | [], _, _ => []
  | s :: rest, bodies, c => jumps s bodies c ++ andThen (stmt s) c (blockJumps rest bodies)

def optionalJumps : Option Stmt → Nat → Converter → List JumpVisit
  | none, _, _ => []
  | some s, bodies, c => jumps s bodies c
end

def Item.jumps (c : Converter) : Item → List JumpVisit
  | .expr _ | .value _ => []
  | .stmt s => Converter.jumps s 0 c
  | .block body => blockJumps body 0 c
  | .function f => blockJumps f.body 0 { c with loopDepth := 0 }

section

variable {α β : Type} {c : Converter} {v : JumpVisit}

/-- What holds at a jump that a conversion comes to: the open loops are those with the jump in their
bodies, and if there is none, the jump is what the conversion refuses. -/
structure JumpVisit.Checked (v : JumpVisit) (c : Converter) (x : Convert α) : Prop where
  state : v.state = ⟨c.env, v.bodies⟩
  refused : v.bodies = 0 → x c = .error (.unsupported (.outsideLoop v.jump) v.span) c

namespace JumpVisit.Checked

theorem bind {x : Convert α} (h : v.Checked c x) (k : α → Convert β) : v.Checked c (x >>= k) :=
  ⟨h.state, fun hbodies => bind_of_error (h.refused hbodies) k⟩

theorem bind_of_ok {x : Convert α} {k : α → Convert β} {a : α} (hx : x c = .ok a c)
    (h : v.Checked c (k a)) : v.Checked c (x >>= k) :=
  ⟨h.state, fun hbodies => (StackCompiler.bind_of_ok hx k).trans (h.refused hbodies)⟩

theorem withinLoop {x : Convert α} (h : v.Checked c.enterLoop x) :
    v.Checked c (withinLoop x) := by
  refine ⟨h.state, fun hbodies => ?_⟩
  simp only [Converter.withinLoop, h.refused hbodies]
  rfl

end JumpVisit.Checked

theorem mem_andThen {x : Convert α} {r : Lower α} {visits : Converter → List JumpVisit}
    (hx : c.Answers x r) (hv : v ∈ andThen x c visits) : ∃ a, x c = .ok a c ∧ v ∈ visits c := by
  cases r with
  | ok a =>
      simp only [andThen, show x c = .ok a c from hx] at hv
      exact ⟨a, hx, hv⟩
  | error e =>
      simp only [andThen, show x c = .error e c from hx] at hv
      cases hv

theorem checked_jump (jump : LoopJump) (span : Span) (f : Form) :
    JumpVisit.Checked ⟨jump, span, c.loopDepth, c⟩ c (do loopControl jump span; return [f]) := by
  refine ⟨rfl, fun hdepth => ?_⟩
  obtain ⟨env, depth⟩ := c
  cases hdepth
  rfl

mutual
/-- The loops around a jump are counted by the converter on its way to it. -/
theorem checked_of_mem_jumps (c : Converter) (s : Stmt) :
    ∀ v ∈ jumps s c.loopDepth c, v.Checked c (stmt s) := by
  intro v hv
  cases s with
  | breakLoop span =>
      cases List.mem_singleton.1 hv
      exact checked_jump .breakLoop span _
  | continueLoop span =>
      cases List.mem_singleton.1 hv
      exact checked_jump .continueLoop span _
  | block body span => exact (checked_of_mem_blockJumps c body v hv).bind _
  | branch init cond body els span =>
      cases init with
      | some s => cases hv
      | none =>
          obtain ⟨f, hf, hv⟩ := mem_andThen (.lower _) hv
          refine .bind_of_ok hf ?_
          rcases List.mem_append.1 hv with hv | hv
          · exact (checked_of_mem_blockJumps c body v hv).bind _
          · obtain ⟨fs, hfs, hv⟩ := mem_andThen (block_answers c body) hv
            exact .bind_of_ok hfs ((checked_of_mem_optionalJumps c els v hv).bind _)
  | loop init cond post body span =>
      rcases List.mem_append.1 hv with hv | hv
      · exact (checked_of_mem_optionalJumps c init v hv).bind _
      · obtain ⟨prepared, hprepared, hv⟩ := mem_andThen (optional_answers c init) hv
        obtain ⟨f, hf, hv⟩ := mem_andThen (condition_answers cond) hv
        refine .bind_of_ok hprepared (.bind_of_ok hf ?_)
        rcases List.mem_append.1 hv with hv | hv
        · exact (checked_of_mem_blockJumps c.enterLoop body v hv).withinLoop.bind _
        · obtain ⟨fs, hfs, hv⟩ := mem_andThen (block_answers c.enterLoop body).withinLoop hv
          exact .bind_of_ok hfs ((checked_of_mem_optionalJumps c post v hv).bind _)
  | expr _ _ | decl _ _ _ | assign _ _ _ _ | step _ _ _ | ret _ _ => cases hv
termination_by structural s

theorem checked_of_mem_blockJumps (c : Converter) (body : List Stmt) :
    ∀ v ∈ blockJumps body c.loopDepth c, v.Checked c (block body) := by
  intro v hv
  cases body with
  | nil => cases hv
  | cons s rest =>
      rcases List.mem_append.1 hv with hv | hv
      · exact (checked_of_mem_jumps c s v hv).bind _
      · obtain ⟨first, hfirst, hv⟩ := mem_andThen (stmt_answers c s) hv
        exact .bind_of_ok hfirst ((checked_of_mem_blockJumps c rest v hv).bind _)
termination_by structural body

theorem checked_of_mem_optionalJumps (c : Converter) (s? : Option Stmt) :
    ∀ v ∈ optionalJumps s? c.loopDepth c, v.Checked c (optional s?) := by
  intro v hv
  cases s? with
  | none => cases hv
  | some s => exact (checked_of_mem_jumps c s v hv).bind _
termination_by structural s?
end

theorem checked_of_mem_item (env : Environment) (item : Item) :
    ∀ v ∈ item.jumps (fresh env), v.Checked (fresh env) item.convert := by
  intro v hv
  cases item with
  | expr e => cases hv
  | value e => cases hv
  | stmt s => exact (checked_of_mem_jumps (fresh env) s v hv).bind _
  | block body => exact (checked_of_mem_blockJumps (fresh env) body v hv).bind _
  | function f =>
      have hblock := checked_of_mem_blockJumps (fresh env) f.body v hv
      have hbody : v.Checked (fresh env) (function f) := ⟨hblock.state, hblock.refused⟩
      exact hbody.bind _

theorem loopControl_eq_ok_iff (jump : LoopJump) (span : Span) :
    loopControl jump span c = .ok () c ↔ 0 < c.loopDepth := by
  obtain ⟨env, _ | depth⟩ := c
  · constructor
    · intro h
      cases h
    · intro h
      exact absurd h (Nat.lt_irrefl 0)
  · exact ⟨fun _ => Nat.succ_pos depth, fun _ => rfl⟩

end

/-- A converter keeps no state between items. Whatever it converts in a row, it answers each item as
a fresh converter does. The check on a `break` or `continue` that it comes to passes exactly if the
jump is in the body of a loop of its item; if it does not pass, the item is refused for it. -/
theorem converter_keeps_no_state (env : Environment) :
    (∀ items, (fresh env).answers items = items.map (fresh env).answer) ∧
      ∀ (earlier : List Item) (item : Item), ∀ v ∈ item.jumps (earlier.foldl after (fresh env)),
        (loopControl v.jump v.span v.state = .ok () v.state ↔ 0 < v.bodies) ∧
          (v.bodies = 0 → (earlier.foldl after (fresh env)).answer item =
            .error (.unsupported (.outsideLoop v.jump) v.span)) := by
  refine ⟨answers_fresh env, fun earlier item v hv => ?_⟩
  rw [foldl_after_fresh] at hv ⊢
  have hchecked := checked_of_mem_item env item v hv
  constructor
  · rw [loopControl_eq_ok_iff, hchecked.state]
  · intro hbodies
    simp only [answer, hchecked.refused hbodies]

def unknownCall : Item :=
  .stmt (.loop none none none
    [.loop none none none [.expr (.call (.function "f") [] .void {}) {}] {}] {})

/-- Source of `for ; true; continue { if true { break } }`. -/
def strayContinue : Item :=
  .stmt (.loop none (some (.ofLiteral (.bool true))) (some (.continueLoop {}))
    [.branch none (.ofLiteral (.bool true)) [.breakLoop {}] none {}] {})

theorem converter_keeps_no_state_strayContinue :
    (fresh {}).answers [unknownCall, strayContinue] =
        [(fresh {}).answer unknownCall, (fresh {}).answer strayContinue] ∧
      ∃ v w, strayContinue.jumps ([unknownCall].foldl after (fresh {})) = [v, w] ∧
        v.bodies = 1 ∧ loopControl v.jump v.span v.state = .ok () v.state ∧
        w.bodies = 0 ∧ loopControl w.jump w.span w.state ≠ .ok () w.state ∧
        ([unknownCall].foldl after (fresh {})).answer strayContinue =
          .error (.unsupported (.outsideLoop w.jump) w.span) := by
  obtain ⟨hanswers, hjumps⟩ := converter_keeps_no_state {}
  have hvisits : ∃ v w, strayContinue.jumps ([unknownCall].foldl after (fresh {})) = [v, w] ∧
      v.bodies = 1 ∧ w.bodies = 0 := ⟨_, _, rfl, rfl, rfl⟩
  obtain ⟨v, w, hvw, hv, hw⟩ := hvisits
  have hvisited := hjumps [unknownCall] strayContinue
  rw [hvw] at hvisited
  have hpass := hvisited v (by simp)
  have hstray := hvisited w (by simp)
  refine ⟨hanswers _, v, w, hvw, hv, hpass.1.2 (by omega), hw, fun h => ?_, hstray.2 hw⟩
  have := hstray.1.1 h
  omega

end Converter

end StackCompiler
