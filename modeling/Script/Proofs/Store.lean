import Script.Machine

/-! What can be read from bindings and frames after each operation on them. -/
namespace Script

namespace Bindings

variable {α : Type}

theorem find?_set (key other : String) (value : α) (b : Bindings α) :
    (b.set key value).find? other = if other = key then some value else b.find? other := by
  split
  · subst other
    exact find?_set_self key value b
  · exact find?_set_of_ne value b ‹_›

def mapKeys (f : String → String) (b : Bindings α) : Bindings α := b.map fun kv => (f kv.1, kv.2)

variable {f : String → String}

theorem find?_mapKeys (inj : ∀ a b, f a = f b → a = b) (b : Bindings α) (key : String) :
    (b.mapKeys f).find? (f key) = b.find? key := by
  induction b with
  | nil => rfl
  | cons kv rest ih =>
    by_cases h : kv.1 = key
    · simp [mapKeys, find?, h]
    · have hf : f kv.1 ≠ f key := fun he => h (inj _ _ he)
      simpa [mapKeys, find?, h, hf] using ih

theorem set_mapKeys (inj : ∀ a b, f a = f b → a = b) (b : Bindings α) (key : String) (value : α) :
    (b.mapKeys f).set (f key) value = (b.set key value).mapKeys f := by
  induction b with
  | nil => rfl
  | cons kv rest ih =>
    by_cases h : kv.1 = key
    · simp [mapKeys, set, h]
    · have hf : f kv.1 ≠ f key := fun he => h (inj _ _ he)
      simpa [mapKeys, set, h, hf] using ih

theorem setAll_mapKeys (inj : ∀ a b, f a = f b → a = b) (b : Bindings α)
    (more : List (String × α)) :
    (b.mapKeys f).setAll (more.map fun kv => (f kv.1, kv.2)) = (b.setAll more).mapKeys f := by
  induction more generalizing b with
  | nil => rfl
  | cons kv rest ih =>
    simp only [setAll, List.map_cons, List.foldl_cons] at ih ⊢
    rw [set_mapKeys inj, ih]

theorem mapKeys_id (b : Bindings α) : b.mapKeys (fun k => k) = b := by simp [mapKeys]

theorem find?_setAll_ne_none (b : Bindings α) (more : List (String × α)) (key : String)
    (h : b.find? key ≠ none ∨ key ∈ more.map Prod.fst) : (b.setAll more).find? key ≠ none := by
  induction more generalizing b with
  | nil =>
    rcases h with h | h
    · exact h
    · simp at h
  | cons kv rest ih =>
    apply ih (b.set kv.1 kv.2)
    by_cases hk : key = kv.1
    · exact .inl (by simp [hk])
    · rcases h with h | h
      · exact .inl (by rwa [find?_set_of_ne _ _ hk])
      · exact .inr ((List.mem_cons.mp h).resolve_left hk)

theorem mem_of_find?_setAll_ne_none (b : Bindings α) (more : List (String × α)) (key : String)
    (h : (b.setAll more).find? key ≠ none) : b.find? key ≠ none ∨ key ∈ more.map Prod.fst := by
  induction more generalizing b with
  | nil => exact .inl h
  | cons kv rest ih =>
    by_cases hk : key = kv.1
    · exact .inr (by simp [hk])
    · rcases ih (b.set kv.1 kv.2) h with h | h
      · exact .inl (by rwa [find?_set_of_ne _ _ hk] at h)
      · exact .inr (List.mem_cons_of_mem _ h)

end Bindings

namespace Frames

theorem frame?_lt {fs : Frames} {i : Nat} {f : Frame} (h : fs.frame? i = some f) : i < fs.next :=
  (Array.getElem?_eq_some_iff.mp h).1

theorem frame?_extend (fs : Frames) (parent : Nat) (b : Bindings Value) (i : Nat) :
    (fs.extend parent b).frame? i =
      if i = fs.next then some ⟨b, if parent < fs.next then some parent else none⟩
      else fs.frame? i := by
  change (fs.frames.push _)[i]? = if i = fs.frames.size then _ else fs.frames[i]?
  rw [Array.getElem?_push]
  rfl

theorem frame?_define (fs : Frames) (ref : Nat) (name : String) (value : Value) (i : Nat) :
    (fs.define ref name value).frame? i =
      if ref = i then (fs.frame? i).map fun f => { f with bindings := f.bindings.set name value }
      else fs.frame? i := by
  simp only [frame?, define, Array.getElem?_modify]

theorem next_extend (fs : Frames) (parent : Nat) (b : Bindings Value) :
    (fs.extend parent b).next = fs.next + 1 := by
  simp [next, extend]

theorem next_define (fs : Frames) (ref : Nat) (name : String) (value : Value) :
    (fs.define ref name value).next = fs.next := by
  simp [next, define]

theorem bindings_extend (fs : Frames) (parent : Nat) (b : Bindings Value) (i : Nat) :
    (fs.extend parent b).bindings i = if i = fs.next then b else fs.bindings i := by
  simp only [bindings, frame?_extend]
  split <;> rfl

theorem parent?_extend_of_lt (fs : Frames) (parent : Nat) (b : Bindings Value) {i : Nat}
    (h : i < fs.next) : (fs.extend parent b).parent? i = fs.parent? i := by
  simp only [parent?, frame?_extend, if_neg (Nat.ne_of_lt h)]

theorem parent?_extend_next (fs : Frames) {parent : Nat} (b : Bindings Value)
    (h : parent < fs.next) : (fs.extend parent b).parent? fs.next = some parent := by
  simp only [parent?, frame?_extend, if_pos h, if_true, Option.bind_some]

theorem find?_define (fs : Frames) (ref : Nat) (name : String) (value : Value) (i : Nat)
    (key : String) :
    ((fs.define ref name value).bindings i).find? key =
      if ref = i ∧ i < fs.next ∧ key = name then some value else (fs.bindings i).find? key := by
  simp only [bindings, frame?_define]
  by_cases h : ref = i
  · cases hf : fs.frame? i with
    | none =>
      have hn : ¬ i < fs.next := by
        intro hlt
        have : fs.frames[i]? = none := hf
        rw [Array.getElem?_eq_none_iff] at this
        exact absurd hlt (Nat.not_lt.mpr this)
      simp [h, hn]
    | some f => simp [h, Bindings.find?_set, frame?_lt hf]
  · simp [h]

theorem parent?_define (fs : Frames) (ref : Nat) (name : String) (value : Value) (i : Nat) :
    (fs.define ref name value).parent? i = fs.parent? i := by
  simp only [parent?, frame?_define]
  split
  · cases fs.frame? i <;> rfl
  · rfl

theorem ancestor?_define (fs : Frames) (ref : Nat) (name : String) (value : Value)
    (i distance : Nat) :
    (fs.define ref name value).ancestor? i distance = fs.ancestor? i distance := by
  induction distance generalizing i with
  | zero => rfl
  | succ distance ih =>
    simp only [ancestor?, parent?_define]
    congr 1
    funext p
    exact ih p

theorem valueAt_of_ancestor? {fs : Frames} {ref distance a : Nat}
    (h : fs.ancestor? ref distance = some a) (name : String) :
    fs.valueAt ref distance name =
      match (fs.bindings a).find? name with
      | none => .error (.name name)
      | some v => .ok v := by
  simp only [valueAt, frameAt, h]
  rfl

theorem valueAt_self (fs : Frames) (ref : Nat) (name : String) :
    fs.valueAt ref 0 name =
      match (fs.bindings ref).find? name with
      | none => .error (.name name)
      | some v => .ok v := valueAt_of_ancestor? rfl name

theorem lt_of_parent? {fs : Frames} {i p : Nat} (h : fs.parent? i = some p) : i < fs.next := by
  simp only [parent?, Option.bind_eq_some_iff] at h
  obtain ⟨f, hf, _⟩ := h
  exact frame?_lt hf

theorem ext_frame? {fs gs : Frames} (h : ∀ i, fs.frame? i = gs.frame? i) : fs = gs := by
  cases fs with
  | mk a ha =>
    cases gs with
    | mk b hb =>
      have : a = b := Array.ext_getElem? h
      subst this
      rfl

theorem lookup?_root (fs : Frames) (ref : Nat) (name : String) (h : fs.parent? ref = none) :
    fs.lookup? ref name = (fs.bindings ref).find? name := by
  unfold lookup?
  split
  · rename_i hv; exact hv.symm
  · rename_i hn
    split
    · rename_i hp; rw [h] at hp; cases hp
    · exact hn.symm

def chain (fs : Frames) (frame : Nat) : List Nat :=
  match _h : fs.parent? frame with
  | none => [frame]
  | some parent => frame :: fs.chain parent
termination_by frame
decreasing_by exact fs.parent?_lt ‹_›

theorem chain_of_none {fs : Frames} {frame : Nat} (h : fs.parent? frame = none) :
    fs.chain frame = [frame] := by
  unfold chain
  split
  · rfl
  · rename_i hp
    rw [h] at hp
    cases hp

theorem chain_of_some {fs : Frames} {frame parent : Nat} (h : fs.parent? frame = some parent) :
    fs.chain frame = frame :: fs.chain parent := by
  rw [chain]
  split
  · rename_i hp
    rw [h] at hp
    cases hp
  · rename_i p hp
    rw [h] at hp
    cases hp
    rfl

end Frames

end Script
