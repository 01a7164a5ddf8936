import Script.Machine
import Script.Proofs.Number.Doubles

/-! The equality of values.
It is symmetric and transitive, and every value but the number NaN is equal to itself. -/
namespace Script.Value

inductive Variant where
  | nil | bool | number | string | native | function | class_ | instance_
deriving Repr, DecidableEq

def variant : Value → Variant
  | nil => .nil
  | bool _ => .bool
  | number _ => .number
  | string _ => .string
  | native _ => .native
  | function _ => .function
  | class_ _ => .class_
  | instance_ _ => .instance_

def IsNaN (v : Value) : Prop := ∃ x, v = number x ∧ x.isNaN = true

/-- The number zero, with either sign. -/
def IsZero (v : Value) : Prop := ∃ x, v = number x ∧ Number.IsZero x

variable {a b c : Value}

theorem equals_iff : a.equals b = true ↔ a = b ∧ ¬ a.IsNaN ∨ a.IsZero ∧ b.IsZero := by
  cases a <;> cases b <;> simp [equals, IsNaN, IsZero, Number.beq_iff, and_comm]

theorem IsZero.not_isNaN (h : a.IsZero) : ¬ a.IsNaN := by
  obtain ⟨x, rfl, zero⟩ := h
  rintro ⟨y, same, nan⟩
  cases same
  rcases zero with rfl | rfl <;> cases nan

theorem equals_symm (h : a.equals b = true) : b.equals a = true := by
  rw [equals_iff] at h ⊢
  rcases h with ⟨rfl, number⟩ | ⟨zero, zero'⟩
  · exact .inl ⟨rfl, number⟩
  · exact .inr ⟨zero', zero⟩

theorem equals_trans (h : a.equals b = true) (h' : b.equals c = true) : a.equals c = true := by
  rw [equals_iff] at h h' ⊢
  rcases h with ⟨rfl, -⟩ | ⟨zero, zero'⟩
  · exact h'
  · rcases h' with ⟨rfl, -⟩ | ⟨-, zero''⟩
    · exact .inr ⟨zero, zero'⟩
    · exact .inr ⟨zero, zero''⟩

theorem equals_self_iff : a.equals a = true ↔ ¬ a.IsNaN := by
  rw [equals_iff]
  constructor
  · rintro (⟨-, number⟩ | ⟨zero, -⟩)
    · exact number
    · exact zero.not_isNaN
  · exact fun number => .inl ⟨rfl, number⟩

theorem variant_of_equals (h : a.equals b = true) : a.variant = b.variant := by
  rcases equals_iff.mp h with ⟨rfl, -⟩ | ⟨⟨x, rfl, -⟩, ⟨y, rfl, -⟩⟩ <;> rfl

theorem isTruthy_of_equals (h : a.equals b = true) : a.isTruthy = b.isTruthy := by
  rcases equals_iff.mp h with ⟨rfl, -⟩ | ⟨⟨x, rfl, -⟩, ⟨y, rfl, -⟩⟩ <;> rfl

theorem printed_zero {x : Float} (h : Number.IsZero x) : Number.printed x = "0" := by
  rcases h with rfl | rfl <;> decide +kernel

theorem text_of_equals (m : Machine) (h : a.equals b = true) : m.text a = m.text b := by
  rcases equals_iff.mp h with ⟨rfl, -⟩ | ⟨⟨x, rfl, zero⟩, ⟨y, rfl, zero'⟩⟩
  · rfl
  · exact (printed_zero zero).trans (printed_zero zero').symm

/-- Equality is symmetric and transitive, and reflexive but for NaN. It holds only within a variant,
and equal values have the same text and the same truth; so do the two zeros, which are equal. -/
theorem equals_lawful (m : Machine) :
    (∀ a b : Value, a.equals b = true → b.equals a = true) ∧
    (∀ a b c : Value, a.equals b = true → b.equals c = true → a.equals c = true) ∧
    (∀ a : Value, a.equals a = true ↔ ¬ a.IsNaN) ∧
    (∀ a b : Value, a.variant ≠ b.variant → a.equals b = false) ∧
    (∀ a b : Value, a.equals b = true → m.text a = m.text b ∧ a.isTruthy = b.isTruthy) ∧
    (number 0).equals (number (-0)) = true ∧ m.text (number 0) = m.text (number (-0)) := by
  have zeros : (number 0).equals (number (-0)) = true :=
    equals_iff.mpr (.inr ⟨⟨0, rfl, .inl rfl⟩, ⟨-0, rfl, .inr rfl⟩⟩)
  refine ⟨fun a b => equals_symm, fun a b c => equals_trans, fun a => equals_self_iff, ?_, ?_,
    zeros, text_of_equals m zeros⟩
  · intro a b different
    exact Bool.eq_false_iff.mpr fun h => different (variant_of_equals h)
  · intro a b h
    exact ⟨text_of_equals m h, isTruthy_of_equals h⟩

end Script.Value
