import Script.Proofs.Lexical.Mentions

/-! What a course leaves of a scope.
A scope is known by its depth, the number of scopes around it, which stays the same while others are
opened and closed inside. -/
namespace Script

open Lexical

namespace Scope

variable (scope : Scope) (key k : String) (progress : Progress)

theorem progress?_cons (l : Local) :
    progress? (l :: scope) k = if l.key = k then some l.progress else progress? scope k := by
  simp only [progress?, find?, List.find?_cons]
  by_cases h : l.key = k
  · rw [if_pos h, beq_iff_eq.mpr h]
    rfl
  · rw [if_neg h, beq_false_of_ne h]

theorem progress?_declare (n : Name) :
    (scope.declare n).progress? k =
      if n.text = k then some .declared else scope.progress? k := by
  induction scope with
  | nil => exact progress?_cons _ _ _
  | cons l scope ih =>
    simp only [declare]
    split
    · rename_i same
      simp only [progress?_cons, same]
      split <;> rfl
    · rename_i other
      simp only [progress?_cons, ih]
      by_cases h : l.key = k
      · rw [if_pos h, if_neg fun hn => other (h.trans hn.symm), if_pos h]
      · rw [if_neg h, if_neg h]

theorem progress?_advance :
    (scope.advance key progress).progress? k =
      if key = k then (scope.progress? k).map fun _ => progress else scope.progress? k := by
  induction scope with
  | nil => exact (ite_self _).symm
  | cons l scope ih =>
    simp only [advance]
    split
    · rename_i same
      simp only [progress?_cons, same]
      split <;> rfl
    · rename_i other
      simp only [progress?_cons, ih]
      by_cases h : l.key = k
      · rw [if_pos h, if_neg fun hn => other (h.trans hn.symm), if_pos h]
      · simp only [if_neg h]

theorem holds_eq_isSome : scope.holds key = (scope.progress? key).isSome := by
  simp only [holds, progress?, Option.isSome_map]

theorem holds_ofParams (params : List Name) :
    (ofParams params).holds key = params.any fun n => n.text == key := by
  suffices extends_ : ∀ scope : Scope,
      (params.foldl (fun s n => (s.declare n).advance n.text .defined) scope).holds key =
        ((params.any fun n => n.text == key) || scope.holds key) from
    (extends_ []).trans (Bool.or_false _)
  induction params with
  | nil => exact fun _ => rfl
  | cons n params ih =>
    intro scope
    rw [List.foldl_cons, ih, holds_advance, holds_declare, List.any_cons]
    cases n.text == key <;> cases params.any fun n => n.text == key <;> rfl

end Scope

namespace Lexical

variable {β : Type}

/-- The number of regions around the innermost one that holds a name. -/
def depth? (layers : List Layer) (key : String) : Option Nat :=
  match layers with
  | [] => none
  | l :: outer => if l.holds key then some outer.length else depth? outer key

theorem depth?_lt {layers : List Layer} {key : String} {depth : Nat}
    (h : depth? layers key = some depth) : depth < layers.length := by
  induction layers with
  | nil => cases h
  | cons l outer ih =>
    simp only [depth?] at h
    split at h
    · cases h
      exact Nat.lt_succ_self _
    · exact Nat.lt_succ_of_lt (ih h)

theorem regions_declareIn (n : Name) (layers : List Layer) :
    (declareIn n layers).map Layer.region = layers.map Layer.region := by
  cases layers <;> rfl

theorem regions_pendIn (n : Name) (layers : List Layer) :
    (pendIn n layers).map Layer.region = layers.map Layer.region := by
  cases layers <;> rfl

structure Read where
  layers : List Layer
  name : Name

namespace Read

def finds (r : Read) (depth : Nat) (key : String) : Bool :=
  r.name.text == key && depth? r.layers r.name.text == some depth

theorem finds_iff (r : Read) (depth : Nat) (key : String) :
    r.finds depth key = true ↔ r.name.text = key ∧ depth? r.layers key = some depth := by
  rw [finds, Bool.and_eq_true, beq_iff_eq, beq_iff_eq]
  exact and_congr_right fun same => by rw [same]

/-- What a read does to the scope of a depth. -/
def mark (depth : Nat) (scope : Scope) (r : Read) : Scope :=
  if depth? r.layers r.name.text = some depth then scope.advance r.name.text .read else scope

end Read

def Mention.read? : Mention → Option Read
  | .read layers name => some ⟨layers, name⟩
  | _ => none

def reading? : Position × Node β → Option Read
  | (p, .expr (.variable name _)) => some ⟨p.layers, name⟩
  | _ => none

theorem mention_reading (x : Position × Node β) :
    (mention? x).bind Mention.read? = reading? x := by
  obtain ⟨p, node⟩ := x
  cases node with
  | expr e => cases e <;> rfl
  | stmt s =>
    cases s with
    | var name initial => cases initial <;> rfl
    | _ => rfl
  | code params body => rfl

theorem length_mark (key : String) (scopes : List Scope) :
    (mark key scopes).length = scopes.length := by
  induction scopes with
  | nil => rfl
  | cons s outer ih =>
    simp only [mark]
    split
    · rfl
    · exact congrArg (· + 1) ih

namespace Course

def reads (c : Course) (layers : List Layer) : List Read :=
  (c.mentions layers).filterMap Mention.read?

variable (n : Name) (o : Opening) (inside rest : Course) (layers : List Layer)

theorem reads_read : (Course.read n rest).reads layers = ⟨layers, n⟩ :: rest.reads layers := rfl

theorem reads_declare :
    (Course.declare n rest).reads layers = rest.reads (declareIn n layers) := rfl

theorem reads_initial : (Course.initial n inside rest).reads layers =
    inside.reads (pendIn n layers) ++ rest.reads (declareIn n layers) := List.filterMap_append

theorem reads_scope : (Course.scope o inside rest).reads layers =
    inside.reads (.opened o.region :: layers) ++ rest.reads layers := List.filterMap_append

def opens : Course → List Region
  | done => []
  | read _ rest => rest.opens
  | declare _ rest => rest.opens
  | initial _ inside rest => inside.opens ++ rest.opens
  | scope o inside rest => o.region :: (inside.opens ++ rest.opens)

theorem length_after (c : Course) (scopes : List Scope) :
    (c.after scopes).length = scopes.length := by
  induction c generalizing scopes with
  | done => rfl
  | read n rest ih => exact (ih _).trans (length_mark n.text scopes)
  | declare n rest ih => exact (ih _).trans (List.length_modifyHead)
  | initial n inside rest ihInside ih =>
    simp only [after, ih, List.length_modifyHead, ihInside]
  | scope o inside rest ihInside ih =>
    simp only [after, ih, List.length_tail, ihInside, List.length_cons, Nat.add_sub_cancel]

/-- Behind a scope that was opened there are as many as before. -/
theorem length_behind (c : Course) (scope : Scope) (scopes : List Scope) :
    (c.after (scope :: scopes)).tail.length = scopes.length := by
  rw [List.length_tail, length_after, List.length_cons, Nat.add_sub_cancel]

end Course

/-- The reads of a course lie in the regions it starts in, and in some that it opens. -/
theorem regions_of_mem_reads {c : Course} {layers : List Layer} {r : Read}
    (h : r ∈ c.reads layers) :
    ∃ new, r.layers.map Layer.region = new ++ layers.map Layer.region ∧
      new.reverse.Sublist c.opens := by
  induction c generalizing layers with
  | done => cases h
  | read n rest ih =>
    rcases List.mem_cons.mp h with rfl | h
    · exact ⟨[], rfl, List.nil_sublist _⟩
    · exact ih h
  | declare n rest ih => exact regions_declareIn n layers ▸ ih h
  | initial n inside rest ihInside ih =>
    rw [Course.reads_initial] at h
    rcases List.mem_append.mp h with h | h
    · obtain ⟨new, regions, opened⟩ := ihInside h
      exact ⟨new, regions_pendIn n layers ▸ regions, opened.trans (List.sublist_append_left _ _)⟩
    · obtain ⟨new, regions, opened⟩ := ih h
      exact ⟨new, regions_declareIn n layers ▸ regions,
        opened.trans (List.sublist_append_right _ _)⟩
  | scope o inside rest ihInside ih =>
    rw [Course.reads_scope] at h
    rcases List.mem_append.mp h with h | h
    · obtain ⟨new, regions, opened⟩ := ihInside h
      refine ⟨new ++ [o.region], by simpa [Layer.opened] using regions, ?_⟩
      rw [List.reverse_append]
      exact (opened.trans (List.sublist_append_left _ _)).cons_cons _
    · obtain ⟨new, regions, opened⟩ := ih h
      exact ⟨new, regions, (opened.trans (List.sublist_append_right _ _)).cons _⟩

/-- Scopes hold what layers hold. -/
inductive Holding : List Layer → List Scope → Prop
  | nil : Holding [] []
  | cons {l : Layer} {s : Scope} {layers : List Layer} {scopes : List Scope}
    (holds : ∀ key, s.holds key = l.holds key) (outer : Holding layers scopes) :
    Holding (l :: layers) (s :: scopes)

theorem holding_first (o : Opening) (key : String) :
    o.first.holds key = (Layer.opened o.region).holds key := by
  cases o with
  | names r => exact Scope.holds_ofParams key r.params
  | receiver path className => exact Scope.holds_cons _ _ _

namespace Holding

variable {layers : List Layer} {scopes : List Scope}

theorem length (h : Holding layers scopes) : layers.length = scopes.length := by
  induction h with
  | nil => rfl
  | cons _ _ ih => exact congrArg (· + 1) ih

theorem opened (o : Opening) (h : Holding layers scopes) :
    Holding (.opened o.region :: layers) (o.first :: scopes) := .cons (holding_first o) h

theorem tail (h : Holding layers scopes) : Holding layers.tail scopes.tail := by
  cases h with
  | nil => exact .nil
  | cons _ outer => exact outer

theorem mark (h : Holding layers scopes) (key : String) :
    Holding layers (Lexical.mark key scopes) := by
  induction h with
  | nil => exact .nil
  | cons holds outer ih =>
    simp only [Lexical.mark]
    split
    · exact .cons (fun k => (Scope.holds_advance _ _ _ k).trans (holds k)) outer
    · exact .cons holds ih

theorem modifyHead {change : Layer → Layer} {change' : Scope → Scope} (h : Holding layers scopes)
    (hc : ∀ (l : Layer) (s : Scope), (∀ key, s.holds key = l.holds key) →
      ∀ key, (change' s).holds key = (change l).holds key) :
    Holding (layers.modifyHead change) (scopes.modifyHead change') := by
  cases h with
  | nil => exact .nil
  | cons holds outer => exact .cons (hc _ _ holds) outer

theorem declare (h : Holding layers scopes) (n : Name) :
    Holding (declareIn n layers)
      (scopes.modifyHead fun s => (s.declare n).advance n.text .defined) :=
  h.modifyHead fun l s holds key => by
    rw [Scope.holds_advance, Scope.holds_declare, Layer.holds_declare, holds]

theorem pend (h : Holding layers scopes) (n : Name) :
    Holding (pendIn n layers) (scopes.modifyHead fun s => s.declare n) :=
  h.modifyHead fun l s holds key => by
    rw [Scope.holds_declare, Layer.holds_pend, Layer.holds_declare, holds]

theorem define {n : Name} (h : Holding (pendIn n layers) scopes) :
    Holding (declareIn n layers) (scopes.modifyHead fun s => s.advance n.text .defined) := by
  cases layers with
  | nil =>
    cases h
    exact .nil
  | cons l outer =>
    cases h with
    | cons holds outer =>
      refine .cons (fun key => ?_) outer
      rw [Scope.holds_advance, holds, Layer.holds_pend]

theorem tail_around (c : Course) (layers : List Layer) : (c.around layers).tail = layers.tail := by
  unfold Course.around
  induction c.declares generalizing layers with
  | nil => rfl
  | cons n names ih => exact (ih _).trans (List.tail_modifyHead)

theorem around_of_none {c : Course} (h : c.declares = []) (layers : List Layer) :
    c.around layers = layers := by
  rw [Course.around, h]
  rfl

theorem after {c : Course} (h : Holding layers scopes) (formed : c.Formed) :
    Holding (c.around layers) (c.after scopes) := by
  induction c generalizing layers scopes with
  | done => exact h
  | read n rest ih => exact ih (h.mark _) formed
  | declare n rest ih => exact ih (h.declare n) formed
  | initial n inside rest ihInside ih =>
    obtain ⟨none, hi, hr⟩ := formed
    have inside := ihInside (h.pend n) hi
    rw [around_of_none none] at inside
    exact ih inside.define hr
  | scope o inside rest ihInside ih =>
    obtain ⟨-, hi, hr⟩ := formed
    have inside := (ihInside (h.opened o) hi).tail
    rw [tail_around] at inside
    exact ih inside hr

theorem scope {o : Opening} {inside : Course} (h : Holding layers scopes) (formed : inside.Formed) :
    Holding layers (inside.after (o.first :: scopes)).tail := by
  have inside := (after (h.opened o) formed).tail
  rwa [tail_around] at inside

theorem initial {n : Name} {inside : Course} (h : Holding layers scopes) (formed : inside.Formed)
    (none : inside.declares = []) :
    Holding (pendIn n layers) (inside.after (scopes.modifyHead fun s => s.declare n)) := by
  have inside := (h.pend n).after formed
  rwa [around_of_none none] at inside

theorem depth {l : Layer} (h : Holding (l :: layers) scopes) :
    scopes.length - 1 = layers.length := by
  rw [← h.length]
  rfl

end Holding

def scopeAt (depth : Nat) : List Scope → Scope
  | [] => []
  | s :: outer => if depth = outer.length then s else scopeAt depth outer

theorem scopeAt_modifyHead {depth : Nat} {scopes : List Scope} (h : depth + 1 < scopes.length)
    (change : Scope → Scope) : scopeAt depth (scopes.modifyHead change) = scopeAt depth scopes := by
  cases scopes with
  | nil => rfl
  | cons s outer =>
    have apart : depth ≠ outer.length := by
      rw [List.length_cons] at h
      omega
    simp only [List.modifyHead_cons, scopeAt, if_neg apart]

theorem scopeAt_tail {depth : Nat} {scopes : List Scope} (h : depth + 1 < scopes.length) :
    scopeAt depth scopes.tail = scopeAt depth scopes := by
  cases scopes with
  | nil => rfl
  | cons s outer =>
    have apart : depth ≠ outer.length := by
      rw [List.length_cons] at h
      omega
    simp only [List.tail_cons, scopeAt, if_neg apart]

theorem scopeAt_mark {layers : List Layer} {scopes : List Scope} (h : Holding layers scopes)
    (depth : Nat) (n : Name) :
    scopeAt depth (mark n.text scopes) = Read.mark depth (scopeAt depth scopes) ⟨layers, n⟩ := by
  simp only [Read.mark]
  induction h with
  | nil => exact (ite_self _).symm
  | @cons l s layers outer holds rest ih =>
    simp only [mark, depth?, holds]
    by_cases held : l.holds n.text = true
    · simp only [held, if_true, scopeAt, rest.length, Option.some.injEq]
      by_cases here : depth = outer.length
      · rw [if_pos here, if_pos here.symm, if_pos here]
      · rw [if_neg here, if_neg fun h => here h.symm, if_neg here]
    · simp only [held, if_false, scopeAt, length_mark, ih, Bool.false_eq_true]
      by_cases here : depth = outer.length
      · have apart : depth? layers n.text ≠ some depth := fun found => by
          have := depth?_lt found
          rw [rest.length] at this
          omega
        rw [if_pos here, if_neg apart, if_pos here]
      · simp only [if_neg here]

/-- A scope behind some reads. -/
def marked (depth : Nat) (reads : List Read) (scope : Scope) : Scope :=
  reads.foldl (Read.mark depth) scope

theorem marked_append (depth : Nat) (reads reads' : List Read) (scope : Scope) :
    marked depth (reads ++ reads') scope = marked depth reads' (marked depth reads scope) :=
  List.foldl_append

theorem marked_nil (depth : Nat) (reads : List Read) : marked depth reads [] = [] := by
  induction reads with
  | nil => rfl
  | cons r reads ih =>
    have none : Read.mark depth [] r = [] := by
      unfold Read.mark
      split <;> rfl
    rw [marked, List.foldl_cons, none]
    exact ih

theorem progress?_marked (depth : Nat) (reads : List Read) (scope : Scope) (key : String) :
    (marked depth reads scope).progress? key =
      if reads.any (Read.finds · depth key) then (scope.progress? key).map fun _ => .read
      else scope.progress? key := by
  induction reads generalizing scope with
  | nil => rfl
  | cons r reads ih =>
    have first : (Read.mark depth scope r).progress? key =
        if r.finds depth key then (scope.progress? key).map fun _ => .read
        else scope.progress? key := by
      unfold Read.mark Read.finds
      by_cases found : depth? r.layers r.name.text = some depth
      · simp [found, Scope.progress?_advance]
      · simp [found]
    rw [marked, List.foldl_cons]
    refine (ih _).trans ?_
    rw [first, List.any_cons]
    cases r.finds depth key <;> cases reads.any (Read.finds · depth key) <;>
      simp [Function.comp_def]

/-- A course marks in the scopes around, and in its own if it declares nothing, what its reads find
there. -/
theorem scopeAt_after {c : Course} {layers : List Layer} {scopes : List Scope} {depth : Nat}
    (h : Holding layers scopes) (formed : c.Formed) (inner : depth < scopes.length)
    (outer : depth + 1 < scopes.length ∨ c.declares = []) :
    scopeAt depth (c.after scopes) = marked depth (c.reads layers) (scopeAt depth scopes) := by
  -- `inner` and `outer` hold of the rest too, as a course leaves as many scopes as there were
  induction c generalizing layers scopes with
  | done => rfl
  | read n rest ih =>
    have length := length_mark n.text scopes
    have behind := ih (h.mark n.text) formed (length ▸ inner) (length ▸ outer)
    rw [Course.after, behind, scopeAt_mark h]
    rfl
  | declare n rest ih =>
    have outer : depth + 1 < scopes.length := outer.resolve_right (List.cons_ne_nil _ _)
    have behind := ih (h.declare n) formed (by rwa [List.length_modifyHead])
      (.inl (by rwa [List.length_modifyHead]))
    rw [Course.after, behind, scopeAt_modifyHead outer]
    rfl
  | initial n inside rest ihInside ih =>
    have outer : depth + 1 < scopes.length := outer.resolve_right (List.cons_ne_nil _ _)
    obtain ⟨none, hi, hr⟩ := formed
    have within := h.initial (n := n) hi none
    have length :
        (inside.after (scopes.modifyHead fun s => s.declare n)).length = scopes.length := by
      rw [Course.length_after, List.length_modifyHead]
    have before := ihInside (h.pend n) hi (by rwa [List.length_modifyHead])
      (.inl (by rwa [List.length_modifyHead]))
    have behind := ih within.define hr (by rwa [List.length_modifyHead, length])
      (.inl (by rwa [List.length_modifyHead, length]))
    rw [Course.after, behind, scopeAt_modifyHead (length ▸ outer), before,
      scopeAt_modifyHead outer, Course.reads_initial, marked_append]
  | scope o inside rest ihInside ih =>
    obtain ⟨-, hi, hr⟩ := formed
    have length := inside.length_behind o.first scopes
    have deep : depth + 1 < (inside.after (o.first :: scopes)).length := by
      rw [Course.length_after, List.length_cons]
      omega
    have before := ihInside (h.opened o) hi (Nat.lt_succ_of_lt inner)
      (.inl (Nat.succ_lt_succ inner))
    have behind := ih (h.scope (o := o) hi) hr (length ▸ inner) (length ▸ outer)
    rw [Course.after, behind, scopeAt_tail deep, before, Course.reads_scope, marked_append, scopeAt,
      if_neg (Nat.ne_of_lt inner)]

theorem headD_eq_scopeAt (scopes : List Scope) :
    scopes.headD [] = scopeAt (scopes.length - 1) scopes := by
  cases scopes with
  | nil => rfl
  | cons s outer => exact (if_pos rfl).symm

theorem head_after {c : Course} {layers : List Layer} {scopes : List Scope}
    (h : Holding layers scopes) (formed : c.Formed) (none : c.declares = []) :
    (c.after scopes).headD [] =
      marked (scopes.length - 1) (c.reads layers) (scopes.headD []) := by
  cases scopes with
  | nil =>
    have nothing : c.after [] = [] := List.length_eq_zero_iff.mp (c.length_after [])
    rw [nothing]
    exact (marked_nil _ _).symm
  | cons s outer =>
    rw [headD_eq_scopeAt, Course.length_after, headD_eq_scopeAt]
    exact scopeAt_after h formed (Nat.lt_succ_self _) (.inr none)

theorem head_mark {layers : List Layer} {scopes : List Scope} (h : Holding layers scopes)
    (n : Name) : (mark n.text scopes).headD [] =
      marked (scopes.length - 1) [⟨layers, n⟩] (scopes.headD []) :=
  head_after (c := .read n .done) h trivial rfl

theorem head_behind {o : Opening} {inside : Course} {layers : List Layer} {scopes : List Scope}
    (h : Holding layers scopes) (formed : (Course.scope o inside .done).Formed) :
    (inside.after (o.first :: scopes)).tail.headD [] =
      marked (scopes.length - 1) (inside.reads (.opened o.region :: layers)) (scopes.headD []) := by
  have behind := head_after h formed rfl
  rw [Course.reads_scope, marked_append] at behind
  exact behind

end Lexical

end Script
