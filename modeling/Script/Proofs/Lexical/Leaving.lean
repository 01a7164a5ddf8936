import Script.Proofs.Lexical.Progress

/-! Names that are unused where their scope ends.
A scope is left with the names that were declared in it, in their order, and those are complained of
that are defined and were not read since. -/
namespace Script

open Lexical Binding

namespace Scope

def entries (scope : Scope) : List (String × Name) := scope.map fun l => (l.key, l.name)

theorem entries_advance (scope : Scope) (key : String) (progress : Progress) :
    (scope.advance key progress).entries = scope.entries := by
  induction scope with
  | nil => rfl
  | cons l scope ih =>
    simp only [advance]
    split
    · rfl
    · exact congrArg (_ :: ·) ih

theorem entries_declare {scope : Scope} {n : Name} (h : scope.holds n.text = false) :
    (scope.declare n).entries = scope.entries ++ [(n.text, n)] := by
  induction scope with
  | nil => rfl
  | cons l scope ih =>
    rw [holds_cons, Bool.or_eq_false_iff] at h
    simp only [declare]
    rw [if_neg (beq_eq_false_iff_ne.mp h.1)]
    exact congrArg (_ :: ·) (ih h.2)

theorem holds_eq_any (scope : Scope) (key : String) :
    scope.holds key = scope.entries.any fun e => e.1 == key := by
  induction scope with
  | nil => rfl
  | cons l scope ih =>
    rw [holds_cons, ih]
    rfl

theorem progress?_of_mem {scope : Scope} (nodup : (scope.map Local.key).Nodup) {l : Local}
    (h : l ∈ scope) : scope.progress? l.key = some l.progress := by
  induction scope with
  | nil => cases h
  | cons k scope ih =>
    obtain ⟨apart, nodup⟩ := List.nodup_cons.mp nodup
    rw [progress?_cons]
    rcases List.mem_cons.mp h with rfl | h
    · exact if_pos rfl
    · have other : k.key ≠ l.key := fun same => apart (same ▸ List.mem_map_of_mem h)
      rw [if_neg other, ih nodup h]

/-- The complaints of a scope in which no key stands twice. -/
theorem unused_eq {scope : Scope} (nodup : (scope.map Local.key).Nodup) :
    scope.unused =
      (scope.entries.filter fun e => scope.progress? e.1 = some .defined).map fun e =>
        ⟨e.2.line, .atToken e.2.text, .unused⟩ := by
  have same : scope.filter (fun l => scope.progress? l.key = some .defined) =
      scope.filter fun l => l.progress = .defined := by
    refine List.filter_congr fun l hl => ?_
    rw [progress?_of_mem nodup hl]
    simp
  rw [unused, entries, List.filter_map, List.map_map, ← same]
  rfl

end Scope

namespace Lexical

namespace Read

def inOwn (r : Read) : Bool :=
  (r.layers.find? fun l => l.holds r.name.text).any fun l =>
    l.pending.any fun n => n.text == r.name.text

/-- A read refers to a name of a region, and stands outside of its initializer. -/
def usesAt (r : Read) (depth : Nat) (key : String) : Bool := r.finds depth key && !r.inOwn

end Read

def isUnused (r : Report) : Bool := r.complaint = .unused

def unusedAt (n : Name) : Report := ⟨n.line, .atToken n.text, .unused⟩

def Opening.names? : Opening → Option Region
  | names r => some r
  | receiver _ _ => none

/-- A region of names with its depth and the reads in it. -/
structure Extent where
  region : Region
  depth : Nat
  reads : List Read

def Extent.unused (e : Extent) : List Report :=
  (e.region.names.filter fun n => !e.reads.any (Read.usesAt · e.depth n.text)).map unusedAt

namespace Course

/-- The regions of names that a course opens, in the order in which their scopes end. -/
def regions : Course → List Region
  | done => []
  | read _ rest => rest.regions
  | declare _ rest => rest.regions
  | initial _ inside rest => inside.regions ++ rest.regions
  | scope o inside rest => inside.regions ++ (o.names?.toList ++ rest.regions)

def extents : Course → List Layer → List Extent
  | done, _ => []
  | read _ rest, layers => rest.extents layers
  | declare n rest, layers => rest.extents (declareIn n layers)
  | initial n inside rest, layers =>
    inside.extents (pendIn n layers) ++ rest.extents (declareIn n layers)
  | scope o inside rest, layers =>
    let opened := Layer.opened o.region :: layers
    inside.extents opened ++
      (o.names?.toList.map (fun r => ⟨r, layers.length, inside.reads opened⟩) ++
        rest.extents layers)

theorem extents_regions (c : Course) (layers : List Layer) :
    (c.extents layers).map Extent.region = c.regions := by
  induction c generalizing layers with
  | done => rfl
  | read n rest ih => exact ih _
  | declare n rest ih => exact ih _
  | initial n inside rest ihInside ih =>
    rw [extents, List.map_append, ihInside, ih, regions]
  | scope o inside rest ihInside ih =>
    simp only [extents, List.map_append, ihInside, ih, regions, List.map_map]
    cases o <;> rfl

end Course

/-! The reads of a course see the layers it starts in, but for what is declared in the innermost. -/

theorem tail_declareIn (n : Name) (layers : List Layer) :
    (declareIn n layers).tail = layers.tail := List.tail_modifyHead

theorem tail_pendIn (n : Name) (layers : List Layer) :
    (pendIn n layers).tail = layers.tail := List.tail_modifyHead

theorem suffix_of_mem_reads {c : Course} {layers : List Layer} {r : Read}
    (h : r ∈ c.reads layers) :
    layers.tail <:+ r.layers ∧ (c.declares = [] → layers <:+ r.layers) := by
  induction c generalizing layers with
  | done => cases h
  | read n rest ih =>
    rcases List.mem_cons.mp h with rfl | h
    · exact ⟨List.tail_suffix _, fun _ => List.suffix_rfl⟩
    · exact ih h
  | declare n rest ih => exact ⟨tail_declareIn n layers ▸ (ih h).1, nofun⟩
  | initial n inside rest ihInside ih =>
    refine ⟨?_, nofun⟩
    rw [Course.reads_initial] at h
    rcases List.mem_append.mp h with h | h
    · exact tail_pendIn n layers ▸ (ihInside h).1
    · exact tail_declareIn n layers ▸ (ih h).1
  | scope o inside rest ihInside ih =>
    rw [Course.reads_scope] at h
    rcases List.mem_append.mp h with h | h
    · have inner : layers <:+ r.layers := (ihInside h).1
      exact ⟨(List.tail_suffix _).trans inner, fun _ => inner⟩
    · exact ih h

theorem find?_of_depth? {layers : List Layer} {key : String} {depth : Nat}
    (h : depth? layers key = some depth) :
    ∃ l, layers.find? (fun l => l.holds key) = some l ∧ layers.reverse[depth]? = some l := by
  induction layers with
  | nil => cases h
  | cons l outer ih =>
    simp only [depth?] at h
    split at h
    · rename_i held
      cases h
      exact ⟨l, List.find?_cons_of_pos held, by simp⟩
    · rename_i other
      obtain ⟨k, found, at_⟩ := ih h
      have lt := depth?_lt h
      refine ⟨k, (List.find?_cons_of_neg (p := fun l : Layer => l.holds key) other).trans found, ?_⟩
      rw [List.reverse_cons, List.getElem?_append_left (by rwa [List.length_reverse]), at_]

theorem getElem?_reverse_suffix {layers full : List Layer} (h : layers <:+ full) {depth : Nat}
    (lt : depth < layers.length) : full.reverse[depth]? = layers.reverse[depth]? := by
  obtain ⟨new, rfl⟩ := h
  rw [List.reverse_append, List.getElem?_append_left (by rwa [List.length_reverse])]

/-- What reads find in a layer that is around all of them. -/
theorem any_usesAt {l : Layer} {outer : List Layer} {reads : List Read} (key : String)
    (h : ∀ r ∈ reads, l :: outer <:+ r.layers) :
    (reads.any (Read.finds · outer.length key) = true → l.holds key = true) ∧
      reads.any (Read.usesAt · outer.length key) =
        (reads.any (Read.finds · outer.length key) && !l.pending.any fun n => n.text == key) := by
  induction reads with
  | nil => exact ⟨nofun, rfl⟩
  | cons r reads ih =>
    obtain ⟨hr, h⟩ := List.forall_mem_cons.mp h
    obtain ⟨held, same⟩ := ih h
    have first : r.finds outer.length key = true →
        l.holds key = true ∧ r.inOwn = l.pending.any fun n => n.text == key := by
      intro finds
      obtain ⟨text, depth⟩ := (Read.finds_iff _ _ _).mp finds
      obtain ⟨k, found, at_⟩ := find?_of_depth? depth
      rw [getElem?_reverse_suffix hr (Nat.lt_succ_self _)] at at_
      have here : l = k := by simpa using at_
      subst here
      refine ⟨List.find?_some (p := fun l : Layer => l.holds key) found, ?_⟩
      rw [Read.inOwn, text, found, Option.any_some]
    rw [List.any_cons, List.any_cons, same, Read.usesAt]
    cases finds : r.finds outer.length key with
    | false => exact ⟨held, by simp⟩
    | true =>
      obtain ⟨hl, own⟩ := first finds
      refine ⟨fun _ => hl, ?_⟩
      rw [own]
      cases reads.any (Read.finds · outer.length key) <;>
        cases l.pending.any fun n => n.text == key <;> rfl

theorem entries_marked (depth : Nat) (reads : List Read) (scope : Scope) :
    (marked depth reads scope).entries = scope.entries := by
  induction reads generalizing scope with
  | nil => rfl
  | cons r reads ih =>
    refine (ih _).trans ?_
    unfold Read.mark
    split
    · exact Scope.entries_advance _ _ _
    · rfl

/-- The progress of a name behind declarations and uses. -/
def leaves (declared : List Name) (used : Bool) (scope : Scope) (key : String) : Option Progress :=
  if key ∈ declared.map Name.text then some (if used then .read else .defined)
  else if used then (scope.progress? key).map fun _ => .read else scope.progress? key

section

variable {names : List Name} {usedIn used : Bool} {scope scope' : Scope} {key : String}

/-- Uses before all the declarations. -/
theorem leaves_behind (unheld : key ∈ names.map Name.text → usedIn = false)
    (marked : scope'.progress? key =
      if usedIn then (scope.progress? key).map fun _ => .read else scope.progress? key) :
    leaves names used scope' key = leaves names (usedIn || used) scope key := by
  simp only [leaves]
  by_cases declared : key ∈ names.map Name.text
  · rw [if_pos declared, if_pos declared, unheld declared, Bool.false_or]
  · rw [if_neg declared, if_neg declared, marked]
    cases usedIn <;> cases used <;> simp [Function.comp_def]

theorem leaves_cons {n : Name} (unheld : key ∈ (n :: names).map Name.text → usedIn = false)
    (own : n.text = key → scope'.progress? key = some .defined)
    (marked : n.text ≠ key → scope'.progress? key =
      if usedIn then (scope.progress? key).map fun _ => .read else scope.progress? key) :
    leaves names used scope' key = leaves (n :: names) (usedIn || used) scope key := by
  by_cases same : n.text = key
  · have first : key ∈ (n :: names).map Name.text := same ▸ List.mem_cons_self
    simp only [leaves]
    rw [if_pos first, own same, unheld first, Bool.false_or]
    split
    · rfl
    · cases used <;> rfl
  · rw [leaves_behind (fun declared => unheld (List.mem_cons_of_mem _ declared)) (marked same)]
    simp only [leaves, List.map_cons, List.mem_cons, Ne.symm same, false_or]

/-- A name that is declared or defined is unused just if it is defined in the end. -/
theorem leaves_defined (h : key ∈ names.map Name.text ∨ scope.progress? key = some .defined) :
    decide (leaves names used scope key = some .defined) = !used := by
  unfold leaves
  split
  · cases used <;> rfl
  · rename_i other
    rw [h.resolve_left other]
    cases used <;> rfl

end

/-- In the innermost scope nothing is pending, and what is declared is new there. -/
structure Fresh (names : List Name) (l : Layer) (scope : Scope) : Prop where
  idle : l.pending = []
  holds : ∀ key, scope.holds key = l.holds key
  apart : ∀ n ∈ names, scope.holds n.text = false
  nodup : (names.map Name.text).Nodup

/-- Behind a course the innermost scope has the names that were declared, each used or not. -/
structure Leaves (c : Course) (l : Layer) (outer : List Layer) (scopes : List Scope) : Prop where
  entries : ((c.after scopes).headD []).entries =
    (scopes.headD []).entries ++ c.declares.map fun n => (n.text, n)
  progress : ∀ key, ((c.after scopes).headD []).progress? key =
    leaves c.declares ((c.reads (l :: outer)).any (Read.usesAt · outer.length key))
      (scopes.headD []) key

namespace Fresh

variable {n : Name} {names : List Name} {l : Layer} {scope scope' : Scope}

theorem marked (h : Fresh names l scope) (depth : Nat) (reads : List Read) :
    Fresh names l (Lexical.marked depth reads scope) := by
  have same (key : String) : (Lexical.marked depth reads scope).holds key = scope.holds key := by
    rw [Scope.holds_eq_any, entries_marked, ← Scope.holds_eq_any]
  exact ⟨h.idle, fun key => (same key).trans (h.holds key),
    fun n hn => (same n.text).trans (h.apart n hn), h.nodup⟩

theorem declare (h : Fresh (n :: names) l scope)
    (entries : scope'.entries = scope.entries ++ [(n.text, n)]) :
    Fresh names (l.declare n) scope' := by
  have holds (key : String) : scope'.holds key = (scope.holds key || n.text == key) := by
    rw [Scope.holds_eq_any, entries, List.any_append, ← Scope.holds_eq_any]
    simp
  obtain ⟨other, nodup⟩ := List.nodup_cons.mp h.nodup
  refine ⟨h.idle, fun key => ?_, fun m hm => ?_, nodup⟩
  · rw [holds, Layer.holds_declare, h.holds, Bool.or_comm]
  · rw [holds, h.apart m (List.mem_cons_of_mem _ hm), Bool.false_or, beq_eq_false_iff_ne]
    exact fun same => other (same ▸ List.mem_map_of_mem hm)

/-- A name that is still to be declared is not held. -/
theorem unheld (h : Fresh names l scope) {key : String} (hk : key ∈ names.map Name.text) :
    l.holds key = false := by
  obtain ⟨n, hn, rfl⟩ := List.mem_map.mp hk
  rw [← h.holds, h.apart n hn]

end Fresh

namespace Leaves

variable {c rest inside : Course} {n : Name} {l : Layer} {outer : List Layer}
  {scopes scopes' : List Scope} {reads : List Read}

theorem behind_reads (h : Leaves rest l outer scopes')
    (fresh : Fresh rest.declares l (scopes.headD []))
    (head : scopes'.headD [] = marked outer.length reads (scopes.headD []))
    (inner : ∀ r ∈ reads, l :: outer <:+ r.layers) (declares : c.declares = rest.declares)
    (all : c.reads (l :: outer) = reads ++ rest.reads (l :: outer))
    (after : c.after scopes = rest.after scopes') : Leaves c l outer scopes where
  entries := by rw [after, h.entries, head, entries_marked, declares]
  progress key := by
    obtain ⟨held, uses⟩ := any_usesAt key inner
    rw [fresh.idle, List.any_nil, Bool.not_false, Bool.and_true] at uses
    rw [after, h.progress, declares, all, List.any_append]
    refine leaves_behind (fun declared => ?_) ?_
    · rw [uses, Bool.eq_false_iff]
      intro finds
      rw [fresh.unheld declared] at held
      exact Bool.false_ne_true (held finds)
    · rw [head, progress?_marked, uses]

theorem declare (fresh : Fresh (n :: rest.declares) l (scopes.headD []))
    (h : Leaves rest (l.declare n) outer scopes')
    (head : scopes'.headD [] = ((scopes.headD []).declare n).advance n.text .defined)
    (after : (Course.declare n rest).after scopes = rest.after scopes') :
    Leaves (.declare n rest) l outer scopes where
  entries := by
    rw [after, h.entries, head, Scope.entries_advance,
      Scope.entries_declare (fresh.apart n List.mem_cons_self), List.append_assoc]
    rfl
  progress key := by
    rw [after, h.progress, Course.reads_declare, ← Bool.false_or ((rest.reads _).any _)]
    refine leaves_cons (fun _ => rfl) (fun same => ?_) fun other => ?_
    · rw [head, Scope.progress?_advance, Scope.progress?_declare, if_pos same, if_pos same]
      rfl
    · rw [head, Scope.progress?_advance, Scope.progress?_declare, if_neg other, if_neg other]
      rfl

/-- The reads in an initializer count for all names but its own. -/
theorem initial (fresh : Fresh (n :: rest.declares) l (scopes.headD []))
    (none : inside.declares = []) (h : Leaves rest (l.declare n) outer scopes')
    (head : scopes'.headD [] = (marked outer.length (inside.reads (pendIn n (l :: outer)))
      ((scopes.headD []).declare n)).advance n.text .defined)
    (after : (Course.initial n inside rest).after scopes = rest.after scopes') :
    Leaves (.initial n inside rest) l outer scopes where
  entries := by
    rw [after, h.entries, head, Scope.entries_advance, entries_marked,
      Scope.entries_declare (fresh.apart n List.mem_cons_self), List.append_assoc]
    rfl
  progress key := by
    have inner : ∀ r ∈ inside.reads (pendIn n (l :: outer)), pendIn n (l :: outer) <:+ r.layers :=
      fun r hr => (suffix_of_mem_reads hr).2 none
    obtain ⟨held, uses⟩ := any_usesAt key inner
    rw [Layer.holds_pend, Layer.holds_declare] at held
    have pending : (({ l with pending := n :: l.pending } : Layer).pending.any
        fun m => m.text == key) = (n.text == key) := by
      rw [List.any_cons, fresh.idle, List.any_nil, Bool.or_false]
    rw [pending] at uses
    rw [after, h.progress, Course.reads_initial, List.any_append]
    refine leaves_cons (fun declared => ?_) (fun same => ?_) fun other => ?_
    · rw [uses, Bool.and_eq_false_iff, Bool.not_eq_false', beq_iff_eq]
      rcases List.mem_cons.mp declared with same | declared
      · exact .inr same.symm
      · refine .inl (Bool.eq_false_iff.mpr fun finds => ?_)
        obtain ⟨other, -⟩ := List.nodup_cons.mp fresh.nodup
        have apart : (n.text == key) = false :=
          beq_eq_false_iff_ne.mpr fun same => other (same ▸ declared)
        rw [apart, fresh.unheld (List.mem_cons_of_mem _ declared)] at held
        exact Bool.false_ne_true (held finds)
    · -- the definition overrides what the initializer read
      rw [head, Scope.progress?_advance, if_pos same, progress?_marked, Scope.progress?_declare,
        if_pos same]
      split <;> rfl
    · rw [beq_false_of_ne other, Bool.not_false, Bool.and_true] at uses
      rw [head, Scope.progress?_advance, if_neg other, progress?_marked, Scope.progress?_declare,
        if_neg other, uses]

end Leaves

theorem headD_modifyHead {scopes : List Scope} {layers : List Layer} {l : Layer}
    (h : Holding (l :: layers) scopes) (change : Scope → Scope) :
    (scopes.modifyHead change).headD [] = change (scopes.headD []) := by
  cases h
  rfl

theorem leaves_of_fresh {c : Course} {l : Layer} {outer : List Layer} {scopes : List Scope}
    (h : Holding (l :: outer) scopes) (formed : c.Formed)
    (fresh : Fresh c.declares l (scopes.headD [])) : Leaves c l outer scopes := by
  induction c generalizing l scopes with
  | done => exact ⟨(List.append_nil _).symm, fun _ => rfl⟩
  | read n rest ih =>
    have head := head_mark h n
    rw [h.depth] at head
    have fresh' : Fresh rest.declares l ((mark n.text scopes).headD []) := by
      rw [head]
      exact fresh.marked _ _
    exact (ih (h.mark n.text) formed fresh').behind_reads fresh head
      (List.forall_mem_singleton.mpr List.suffix_rfl) rfl rfl rfl
  | declare n rest ih =>
    have head := headD_modifyHead h fun s => (s.declare n).advance n.text .defined
    refine Leaves.declare fresh (ih (h.declare n) formed ?_) head rfl
    refine fresh.declare ?_
    rw [head, Scope.entries_advance, Scope.entries_declare (fresh.apart n List.mem_cons_self)]
  | initial n inside rest _ ih =>
    obtain ⟨none, hi, hr⟩ := formed
    have pend : Holding ({ l with pending := n :: l.pending } :: outer) _ := h.pend n
    have within := h.initial (n := n) hi none
    have inner := head_after pend hi none
    rw [pend.depth, headD_modifyHead h] at inner
    have head := headD_modifyHead within fun s => s.advance n.text .defined
    rw [inner] at head
    refine Leaves.initial fresh none (ih within.define hr ?_) head rfl
    refine fresh.declare ?_
    rw [head, Scope.entries_advance, entries_marked,
      Scope.entries_declare (fresh.apart n List.mem_cons_self)]
  | scope o inside rest _ ih =>
    obtain ⟨declares, hi, hr⟩ := formed
    have head := head_behind (o := o) h ⟨declares, hi, trivial⟩
    rw [h.depth] at head
    have fresh' : Fresh rest.declares l
        ((inside.after (o.first :: scopes)).tail.headD []) := by
      rw [head]
      exact fresh.marked _ _
    exact (ih (h.scope hi) hr fresh').behind_reads fresh head
      (fun r hr => (suffix_of_mem_reads hr).1) rfl (Course.reads_scope _ _ _ _) rfl

theorem entries_ofParams {params : List Name} (nodup : (params.map Name.text).Nodup) :
    (Scope.ofParams params).entries = params.map fun n => (n.text, n) := by
  suffices extends_ : ∀ scope : Scope, (∀ n ∈ params, scope.holds n.text = false) →
      (params.foldl (fun s n => (s.declare n).advance n.text .defined) scope).entries =
        scope.entries ++ params.map fun n => (n.text, n) from
    extends_ [] fun _ _ => rfl
  induction params with
  | nil => exact fun _ _ => (List.append_nil _).symm
  | cons n params ih =>
    intro scope apart
    obtain ⟨other, nodup⟩ := List.nodup_cons.mp nodup
    obtain ⟨hn, apart⟩ := List.forall_mem_cons.mp apart
    rw [List.foldl_cons, ih nodup, Scope.entries_advance, Scope.entries_declare hn,
      List.append_assoc]
    · rfl
    · intro m hm
      rw [Scope.holds_advance, Scope.holds_declare, apart m hm, Bool.or_false, beq_eq_false_iff_ne]
      exact fun same => other (same ▸ List.mem_map_of_mem hm)

theorem progress?_param {params : List Name} {n : Name} (h : n ∈ params) :
    (Scope.ofParams params).progress? n.text = some .defined := by
  suffices extends_ : ∀ scope : Scope, n ∈ params ∨ scope.progress? n.text = some .defined →
      (params.foldl (fun s n => (s.declare n).advance n.text .defined) scope).progress? n.text =
        some .defined from extends_ [] (.inl h)
  clear h
  induction params with
  | nil => exact fun _ h => h.resolve_left nofun
  | cons m params ih =>
    refine fun scope h => ih _ ?_
    by_cases same : m.text = n.text
    · refine .inr ?_
      rw [Scope.progress?_advance, Scope.progress?_declare, if_pos same, if_pos same]
      rfl
    · rw [Scope.progress?_advance, Scope.progress?_declare, if_neg same, if_neg same]
      refine h.imp_left fun h => ?_
      exact (List.mem_cons.mp h).resolve_left fun he => same (he ▸ rfl)

/-- A scope complains of exactly the names of its region that no read outside of their initializers
refers to, in the order of the declarations. -/
theorem unused_behind {r : Region} {inside : Course} {layers : List Layer} {scopes : List Scope}
    (h : Holding layers scopes) (formed : (Course.scope (.names r) inside .done).Formed)
    (once : (r.names.map Name.text).Nodup) :
    ((inside.after ((Opening.names r).first :: scopes)).headD []).unused =
      Extent.unused ⟨r, layers.length, inside.reads (.opened r :: layers)⟩ := by
  obtain ⟨declares, hi, -⟩ := formed
  have declares : inside.declares = r.locals := declares
  obtain ⟨params, locals, apart⟩ := List.nodup_append.mp (List.map_append ▸ once)
  have fits := h.opened (.names r)
  have fresh : Fresh inside.declares (.opened r) (.ofParams r.params) := by
    refine ⟨rfl, holding_first (.names r), fun n hn => ?_, declares ▸ locals⟩
    rw [Scope.holds_ofParams, List.any_eq_false]
    intro m hm same
    exact apart _ (List.mem_map_of_mem hm) _ (List.mem_map_of_mem (declares ▸ hn))
      (beq_iff_eq.mp same)
  obtain ⟨entries, progress⟩ := leaves_of_fresh fits hi fresh
  generalize hs : (inside.after ((Opening.names r).first :: scopes)).headD [] = s at *
  have entries : s.entries = r.names.map fun n => (n.text, n) := by
    have params : (Opening.names r).first.entries = _ := entries_ofParams params
    rw [entries, List.headD_cons, params, declares, Region.names, List.map_append]
  have nodup : (s.map Local.key).Nodup := by
    have keys : s.map Local.key = s.entries.map Prod.fst := by
      rw [Scope.entries, List.map_map]
      rfl
    rw [keys, entries, List.map_map]
    exact once
  rw [Scope.unused_eq nodup, entries, List.filter_map, List.map_map, Extent.unused]
  refine congrArg (List.map _) (List.filter_congr fun n hn => ?_)
  show decide (s.progress? n.text = some .defined) = _
  rw [progress, declares]
  refine leaves_defined ((List.mem_append.mp hn).symm.imp List.mem_map_of_mem fun hp => ?_)
  exact progress?_param hp

/-- The instance of a class is read from the start. -/
theorem unused_receiver {path : List Nat} {className : Name} {inside : Course}
    {layers : List Layer} {scopes : List Scope} (h : Holding layers scopes)
    (formed : (Course.scope (.receiver path className) inside .done).Formed) :
    ((inside.after ((Opening.receiver path className).first :: scopes)).headD []).unused = [] := by
  obtain ⟨none, hi, -⟩ := formed
  have head := head_after (h.opened (.receiver path className)) hi none
  rw [List.headD_cons] at head
  have entries := entries_marked (((Opening.receiver path className).first :: scopes).length - 1)
    (inside.reads (.opened (Opening.receiver path className).region :: layers))
    (Opening.receiver path className).first
  rw [← head] at entries
  have nodup : (((inside.after ((Opening.receiver path className).first :: scopes)).headD []).map
      Local.key).Nodup := by
    have keys := congrArg (List.map Prod.fst) entries
    rw [Scope.entries, List.map_map] at keys
    rw [show List.map Local.key _ = _ from keys]
    exact List.pairwise_singleton _ _
  rw [Scope.unused_eq nodup, entries, head]
  refine List.map_eq_nil_iff.mpr (List.filter_eq_nil_iff.mpr fun e he => ?_)
  cases List.mem_singleton.mp he
  simp only [progress?_marked]
  split <;> exact fun defined => nomatch of_decide_eq_true defined

theorem filter_unused_atRead (n : Name) (scopes : List Scope) :
    (Course.atRead n scopes).filter isUnused = [] := by
  unfold Course.atRead
  split <;> rfl

theorem filter_unused_unused (scope : Scope) : scope.unused.filter isUnused = scope.unused := by
  refine List.filter_eq_self.mpr fun r hr => ?_
  obtain ⟨l, -, rfl⟩ := List.mem_map.mp hr
  rfl

/-- The complaints of a course about unused names, scope by scope. -/
theorem complaints_unused {c : Course} {layers : List Layer} {scopes : List Scope}
    (h : Holding layers scopes) (formed : c.Formed)
    (once : ∀ r ∈ c.regions, (r.names.map Name.text).Nodup) :
    (c.complaints scopes).filter isUnused = (c.extents layers).flatMap Extent.unused := by
  induction c generalizing layers scopes with
  | done => rfl
  | read n rest ih =>
    rw [Course.complaints, List.filter_append, filter_unused_atRead, List.nil_append,
      ih (h.mark n.text) formed once]
    rfl
  | declare n rest ih => exact ih (h.declare n) formed once
  | initial n inside rest ihInside ih =>
    obtain ⟨none, hi, hr⟩ := formed
    obtain ⟨onceInside, onceRest⟩ := List.forall_mem_append.mp once
    rw [Course.complaints, List.filter_append, ihInside (h.pend n) hi onceInside,
      ih (h.initial hi none).define hr onceRest, Course.extents, List.flatMap_append]
  | scope o inside rest ihInside ih =>
    obtain ⟨declares, hi, hr⟩ := formed
    obtain ⟨onceInside, once⟩ := List.forall_mem_append.mp once
    obtain ⟨onceHere, onceRest⟩ := List.forall_mem_append.mp once
    rw [Course.complaints, List.filter_append, List.filter_append, filter_unused_unused,
      ihInside (h.opened o) hi onceInside, ih (h.scope hi) hr onceRest,
      Course.extents, List.flatMap_append, List.flatMap_append, List.append_assoc]
    congr 2
    cases o with
    | names r =>
      rw [unused_behind h ⟨declares, hi, trivial⟩ (onceHere r List.mem_cons_self)]
      exact (List.flatMap_singleton _ _).symm
    | receiver path className => exact unused_receiver h ⟨declares, hi, trivial⟩

end Lexical

end Script
