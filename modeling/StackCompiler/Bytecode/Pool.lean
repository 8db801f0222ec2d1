import Std.Data.TreeMap
import StackCompiler.Bytecode.Constant

/-!
Pools of constants without repetition. A constant that equals one of the pool gets the index of that
one; a new constant is put at the end, so that indices never change. A table from keys to indices
stands beside the constants and agrees with them.
-/

namespace StackCompiler

/-- Where constants stand, by their keys. -/
abbrev PoolIndex := Std.TreeMap Constant Nat Constant.order

/-- The table gives the index of exactly the constants that are there. -/
def Pool.Agree (entries : Array Constant) (index : PoolIndex) : Prop :=
  ∀ (k : Constant) (i : Nat), index[k]? = some i ↔ ∃ c : Constant, entries[i]? = some c ∧ c.key = k

/-- Constants by index, and the index of each by its key. -/
structure Pool where
  entries : Array Constant := #[]
  index : PoolIndex := ∅
  agree : Pool.Agree entries index := by simp [Pool.Agree]

namespace Pool

def empty : Pool := {}

instance : Inhabited Pool := ⟨empty⟩

def size (p : Pool) : Nat :=
  p.entries.size

def get? (p : Pool) (i : Nat) : Option Constant :=
  p.entries[i]?

def find? (p : Pool) (c : Constant) : Option Nat :=
  p.index[c.key]?

/-- The table still agrees after a constant of a new key is put at the end. -/
theorem Agree.push {entries : Array Constant} {index : PoolIndex}
    (agree : Agree entries index) (c : Constant) (fresh : index[c.key]? = none) :
    Agree (entries.push c) (index.insert c.key entries.size) := by
  intro k i
  have absent : ∀ (j : Nat) (d : Constant), entries[j]? = some d → d.key ≠ c.key := by
    intro j d hd hkey
    have := (agree c.key j).2 ⟨d, hd, hkey⟩
    simp [fresh] at this
  rw [Std.TreeMap.getElem?_insert, Array.getElem?_push]
  simp only [Constant.order_eq_iff]
  by_cases hk : c.key = k
  · subst hk
    simp only [if_true, Option.some.injEq]
    constructor
    · rintro rfl
      exact ⟨c, by simp, rfl⟩
    · rintro ⟨d, hd, hkey⟩
      split at hd
      · rename_i h
        exact h.symm
      · exact absurd hkey (absent i d hd)
  · simp only [hk, if_false]
    rw [agree k i]
    constructor
    · rintro ⟨d, hd, hkey⟩
      have hlt : i < entries.size := (Array.getElem?_eq_some_iff.1 hd).1
      exact ⟨d, by simp [Nat.ne_of_lt hlt, hd], hkey⟩
    · rintro ⟨d, hd, hkey⟩
      split at hd
      · simp only [Option.some.injEq] at hd
        exact absurd (hd ▸ hkey) hk
      · exact ⟨d, hd, hkey⟩

def push (p : Pool) (c : Constant) (fresh : p.find? c = none) : Pool :=
  match p, fresh with
  | ⟨entries, index, agree⟩, fresh =>
    let i := entries.size
    ⟨entries.push c, index.insert c.key i, agree.push c fresh⟩

/-- The index of a constant, which is added unless the pool has an equal one. -/
def add (p : Pool) (c : Constant) : Nat × Pool :=
  match h : p.find? c with
  | some i => (i, p)
  | none => (p.size, p.push c h)

end Pool

end StackCompiler
