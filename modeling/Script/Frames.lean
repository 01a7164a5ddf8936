import Script.Bindings
import Script.Value

/-! The numbered frames that hold the variables of a running program.
Each frame has its own bindings and, but for the first, a link to the frame it was opened in. A
frame is opened in an older one and its link never changes, so every chain of links ends. -/
namespace Script

structure Frame where
  bindings : Bindings Value
  parent : Option Nat
deriving Repr, DecidableEq

inductive Absence where
  | frame (distance : Nat)
  | name (name : String)
deriving Repr, DecidableEq

structure Frames where
  frames : Array Frame
  parent_lt : ∀ (i : Nat) (f : Frame) (p : Nat),
    frames[i]? = some f → f.parent = some p → p < i

namespace Frames

def single (bindings : Bindings Value) : Frames where
  frames := #[⟨bindings, none⟩]
  parent_lt i f p hf hp := by
    cases i with
    | zero =>
      simp only [List.size_toArray, List.length_cons, List.length_nil, Nat.zero_add, Nat.lt_add_one,
        getElem?_pos, List.getElem_toArray, List.getElem_cons_zero, Option.some.injEq] at hf
      subst hf
      simp at hp
    | succ i => simp at hf

def frame? (fs : Frames) (ref : Nat) : Option Frame := fs.frames[ref]?

def bindings (fs : Frames) (ref : Nat) : Bindings Value :=
  ((fs.frame? ref).map Frame.bindings).getD []

def parent? (fs : Frames) (ref : Nat) : Option Nat := (fs.frame? ref).bind Frame.parent

def next (fs : Frames) : Nat := fs.frames.size

def extend (fs : Frames) (parent : Nat) (bindings : Bindings Value) : Frames where
  frames := fs.frames.push ⟨bindings, if parent < fs.frames.size then some parent else none⟩
  parent_lt i f p hf hp := by
    rw [Array.getElem?_push] at hf
    split at hf
    · simp only [Option.some.injEq] at hf
      subst hf
      simp only [Option.ite_none_right_eq_some, Option.some.injEq] at hp
      omega
    · exact fs.parent_lt i f p hf hp

/-- Binds a name in one frame, over what it was bound to there. -/
def define (fs : Frames) (ref : Nat) (name : String) (value : Value) : Frames where
  frames := fs.frames.modify ref fun f => { f with bindings := f.bindings.set name value }
  parent_lt i f p hf hp := by
    rw [Array.getElem?_modify] at hf
    split at hf
    · cases hg : fs.frames[i]? with
      | none => simp [hg] at hf
      | some g =>
        simp only [hg, Option.map_some, Option.some.injEq] at hf
        subst hf
        exact fs.parent_lt i g p hg hp
    · exact fs.parent_lt i f p hf hp

/-- The frame so many links away. -/
def ancestor? (fs : Frames) (ref : Nat) : Nat → Option Nat
  | 0 => some ref
  | distance + 1 => (fs.parent? ref).bind fun p => fs.ancestor? p distance

def frameAt (fs : Frames) (ref distance : Nat) : Except Absence Nat :=
  match fs.ancestor? ref distance with
  | none => .error (.frame distance)
  | some a => .ok a

/-- The value of a name in the frame so many links away, and nowhere else. -/
def valueAt (fs : Frames) (ref distance : Nat) (name : String) : Except Absence Value := do
  let a ← fs.frameAt ref distance
  match (fs.bindings a).find? name with
  | none => .error (.name name)
  | some v => .ok v

/-- Binds a name in the frame so many links away, whether or not it was bound there. -/
def assignAt (fs : Frames) (ref distance : Nat) (name : String) (value : Value) :
    Except Absence Frames := do
  let a ← fs.frameAt ref distance
  pure (fs.define a name value)

theorem parent?_lt (fs : Frames) {ref p : Nat} (h : fs.parent? ref = some p) : p < ref := by
  simp only [parent?, frame?, Option.bind_eq_some_iff] at h
  obtain ⟨f, hf, hp⟩ := h
  exact fs.parent_lt ref f p hf hp

/-- The value of a name in the nearest frame of the chain that binds it. -/
def lookup? (fs : Frames) (ref : Nat) (name : String) : Option Value :=
  match (fs.bindings ref).find? name with
  | some v => some v
  | none =>
    match _h : fs.parent? ref with
    | some p => fs.lookup? p name
    | none => none
termination_by ref
decreasing_by exact fs.parent?_lt ‹_›

end Frames

end Script
