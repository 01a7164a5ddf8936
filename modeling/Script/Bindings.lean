/-! Names with their values, in the order in which the names first came.
A name stands once, however often it is set. -/
namespace Script

abbrev Bindings (α : Type) := List (String × α)

namespace Bindings

variable {α : Type}

def find? (key : String) : Bindings α → Option α
  | [] => none
  | (k, v) :: rest => if k = key then some v else find? key rest

/-- Sets a name in its place, or behind the others if it is new. -/
def set (key : String) (value : α) : Bindings α → Bindings α
  | [] => [(key, value)]
  | (k, v) :: rest => if k = key then (key, value) :: rest else (k, v) :: set key value rest

def setAll (bindings : Bindings α) (more : List (String × α)) : Bindings α :=
  more.foldl (fun b kv => b.set kv.1 kv.2) bindings

def insertByName (pair : String × α) : Bindings α → Bindings α
  | [] => [pair]
  | p :: rest => if pair.1 ≤ p.1 then pair :: p :: rest else p :: insertByName pair rest

/-- The names in the order of their code points. -/
def byName : Bindings α → Bindings α
  | [] => []
  | p :: rest => insertByName p (byName rest)

@[simp] theorem find?_set_self (key : String) (value : α) (b : Bindings α) :
    (b.set key value).find? key = some value := by
  induction b with
  | nil => simp [set, find?]
  | cons p rest ih => unfold set; split <;> simp_all [find?]

theorem find?_set_of_ne {key other : String} (value : α) (b : Bindings α) (h : other ≠ key) :
    (b.set key value).find? other = b.find? other := by
  induction b with
  | nil => simp [set, find?, Ne.symm h]
  | cons p rest ih =>
    unfold set
    split
    · simp_all [find?, Ne.symm h]
    · simp only [find?, ih]

end Bindings

end Script
