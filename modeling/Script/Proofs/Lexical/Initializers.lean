import Script.Proofs.Lexical.Progress

/-! Reads of a variable in its own initializer.
While its initializer is bound a local variable is declared and not yet defined, and a read of it is
complained of where its scope is the innermost one. -/
namespace Script

open Lexical Binding

namespace Lexical

variable {β : Type}

/-- An initializer with the regions around its variable. -/
structure Initial where
  layers : List Layer
  name : Name
  inside : Course

def initial? : Position × Node β → Option Initial
  | (p, .stmt (.var name (some e))) => some ⟨p.layers, name, exprCourse (0 :: p.path) e⟩
  | _ => none

def Mention.initial? : Mention → Option Initial
  | .initial layers name inside => some ⟨layers, name, inside⟩
  | _ => none

def isOwn (r : Report) : Bool := r.complaint = .ownInitializer

/-- The complaint about the first of the reads that finds a variable, if no region was opened between
the two. -/
def ownReport? (depth : Nat) (key : String) (reads : List Read) : Option Report :=
  (reads.find? fun r => r.finds depth key).bind fun r =>
    if r.layers.length = depth + 1 then some (ownInitializer r.name) else none

/-- The complaint about an initializer. That of a global has none. -/
def Initial.report? (i : Initial) : Option Report :=
  match i.layers with
  | [] => none
  | _ :: outer =>
    ownReport? outer.length i.name.text (i.inside.reads (pendIn i.name i.layers))

namespace Course

def initials (c : Course) (layers : List Layer) : List Initial :=
  (c.mentions layers).filterMap Mention.initial?

variable (n : Name) (o : Opening) (inside rest : Course) (layers : List Layer)

theorem initials_initial : (Course.initial n inside rest).initials layers = ⟨layers, n, inside⟩ ::
    (inside.initials (pendIn n layers) ++ rest.initials (declareIn n layers)) :=
  congrArg (_ :: ·) List.filterMap_append

theorem initials_scope : (Course.scope o inside rest).initials layers =
    inside.initials (.opened o.region :: layers) ++ rest.initials layers := List.filterMap_append

end Course

section

variable {depth : Nat} {key : String} {r : Read} {reads : List Read}

theorem ownReport?_found (found : r.finds depth key = true) :
    ownReport? depth key (r :: reads) =
      if r.layers.length = depth + 1 then some (ownInitializer r.name) else none := by
  unfold ownReport?
  rw [List.find?_cons_of_pos (p := fun r : Read => r.finds depth key) found, Option.bind_some]

theorem ownReport?_other (other : ¬ r.finds depth key = true) :
    ownReport? depth key (r :: reads) = ownReport? depth key reads := by
  unfold ownReport?
  rw [List.find?_cons_of_neg (p := fun r : Read => r.finds depth key) other]

/-- The first read that finds the variable decides, also if it is not complained of. -/
theorem ownReport?_append (reads' : List Read)
    (deep : ∀ r ∈ reads, r.layers.length ≠ depth + 1) :
    ownReport? depth key (reads ++ reads') =
      if reads.any (Read.finds · depth key) then none else ownReport? depth key reads' := by
  induction reads with
  | nil => rfl
  | cons r reads ih =>
    obtain ⟨hr, deep⟩ := List.forall_mem_cons.mp deep
    rw [List.cons_append, List.any_cons]
    by_cases found : r.finds depth key = true
    · rw [ownReport?_found found, if_neg hr, found, Bool.true_or, if_pos rfl]
    · rw [ownReport?_other found, ih deep, Bool.eq_false_iff.mpr found, Bool.false_or]

end

def Settled (scopes : List Scope) : Prop :=
  ∀ key, (scopes.headD []).progress? key ≠ some .declared

def Pending (name : String) (scopes : List Scope) : Prop :=
  ∀ key, (scopes.headD []).progress? key = some .declared ↔ key = name

theorem progress?_ofParams (params : List Name) (key : String) :
    (Scope.ofParams params).progress? key ≠ some .declared := by
  refine Scope.ofParams_keeps (P := fun s => s.progress? key ≠ some .declared) nofun
    fun n _ scope h => ?_
  rw [Scope.progress?_advance, Scope.progress?_declare]
  by_cases same : n.text = key
  · simp only [if_pos same, Option.map_some]
    nofun
  · simp only [if_neg same]
    exact h

theorem settled_nil : Settled [] := by
  intro key declared
  cases declared

theorem settled_first (o : Opening) (scopes : List Scope) : Settled (o.first :: scopes) := by
  intro key
  cases o with
  | names r => exact progress?_ofParams r.params key
  | receiver path className =>
    show Scope.progress? (Scope.ofClass className) key ≠ _
    rw [Scope.ofClass, Scope.progress?_cons]
    split <;> (intro declared; cases declared)

section

variable {scopes scopes' : List Scope} {depth : Nat} {reads : List Read} {name : String}

/-- Reads leave nothing that is declared and not yet defined where nothing was. -/
theorem Settled.marked (h : Settled scopes)
    (hs : scopes'.headD [] = Lexical.marked depth reads (scopes.headD [])) : Settled scopes' := by
  intro key
  rw [hs, progress?_marked]
  split
  · cases (scopes.headD []).progress? key <;> nofun
  · exact h key

/-- A read that finds the pending name settles it. -/
theorem Pending.found (h : Pending name scopes)
    (hs : scopes'.headD [] = Lexical.marked depth reads (scopes.headD []))
    (found : reads.any (Read.finds · depth name) = true) : Settled scopes' := by
  intro key
  rw [hs, progress?_marked]
  split
  · cases (scopes.headD []).progress? key <;> nofun
  · rename_i other
    refine fun declared => other ?_
    rw [(h key).mp declared]
    exact found

theorem Pending.other (h : Pending name scopes)
    (hs : scopes'.headD [] = Lexical.marked depth reads (scopes.headD []))
    (other : ¬ reads.any (Read.finds · depth name) = true) : Pending name scopes' := by
  intro key
  rw [hs, progress?_marked]
  split
  · rename_i found
    refine ⟨fun declared => ?_, fun same => absurd (same ▸ found) other⟩
    cases hp : (scopes.headD []).progress? key <;> rw [hp] at declared <;> cases declared
  · exact h key

theorem Settled.declare {s : Scope} {outer : List Scope} (h : Settled (s :: outer)) (n : Name) :
    Pending n.text (s.declare n :: outer) := by
  intro key
  show (s.declare n).progress? key = some .declared ↔ _
  rw [Scope.progress?_declare]
  by_cases same : n.text = key
  · simp [same]
  · simp only [if_neg same]
    exact ⟨fun declared => absurd declared (h key), fun hk => absurd hk.symm same⟩

/-- A definition settles the name, whatever was read of it. -/
theorem Pending.define {s : Scope} {outer : List Scope} {n : Name}
    (h : Pending n.text scopes ∨ Settled scopes)
    (hs : s = Lexical.marked depth reads (scopes.headD [])) :
    Settled (s.advance n.text .defined :: outer) := by
  intro key
  show (s.advance n.text .defined).progress? key ≠ _
  rw [Scope.progress?_advance]
  split
  · cases s.progress? key <;> nofun
  · rename_i other
    rw [hs, progress?_marked]
    split
    · cases (scopes.headD []).progress? key <;> nofun
    · rcases h with h | h
      · exact fun declared => other ((h key).mp declared).symm
      · exact h key

theorem Pending.depth? {layers : List Layer} (h : Pending name scopes)
    (fit : Holding layers scopes) :
    Lexical.depth? layers name = some (scopes.length - 1) ∧
      layers.length = scopes.length - 1 + 1 := by
  have declared := (h name).mpr rfl
  cases fit with
  | nil => cases declared
  | @cons l s layers outer holds rest =>
    have held : l.holds name = true := by
      rw [← holds, Scope.holds_eq_isSome]
      exact Option.isSome_of_eq_some declared
    simp [Lexical.depth?, held, rest.length]

end

theorem filter_own_unused (scope : Scope) : scope.unused.filter isOwn = [] := by
  refine List.filter_eq_nil_iff.mpr fun r hr => ?_
  obtain ⟨l, -, rfl⟩ := List.mem_map.mp hr
  exact Bool.false_ne_true

theorem filter_own_atRead (n : Name) (scopes : List Scope) :
    (Course.atRead n scopes).filter isOwn = Course.atRead n scopes := by
  unfold Course.atRead
  split <;> rfl

theorem filterMap_report (i : Initial) (is : List Initial) :
    (i :: is).filterMap Initial.report? = i.report?.toList ++ is.filterMap Initial.report? := by
  rw [List.filterMap_cons]
  cases i.report? <;> rfl

/-- The complaints of a course about own initializers are those of its initializers. Where the course
is part of an initializer itself, there may be one more, for the variable of that. -/
structure Owned (c : Course) (layers : List Layer) (scopes : List Scope) : Prop where
  settled : Settled scopes →
    ((c.complaints scopes).filter isOwn).Perm ((c.initials layers).filterMap Initial.report?)
  pending : ∀ name, c.declares = [] → Pending name scopes →
    ((c.complaints scopes).filter isOwn).Perm ((c.initials layers).filterMap Initial.report? ++
      (ownReport? (scopes.length - 1) name (c.reads layers)).toList)

namespace Owned

variable {layers : List Layer} {scopes : List Scope} {n : Name} {o : Opening}
  {inside rest : Course}

theorem read (h : Holding layers scopes) (behind : Owned rest layers (mark n.text scopes)) :
    Owned (.read n rest) layers scopes := by
  have length := length_mark n.text scopes
  have head := head_mark h n
  refine ⟨fun settled => ?_, fun name none pending => ?_⟩
  · have silent : Course.atRead n scopes = [] := if_neg (settled n.text)
    rw [Course.complaints, silent]
    exact behind.settled (settled.marked head)
  · rw [Course.complaints, List.filter_append, filter_own_atRead, Course.reads_read]
    obtain ⟨found, deep⟩ := pending.depth? h
    by_cases same : n.text = name
    · -- the read finds the variable, and settles it for all reads behind
      subst same
      have finds : Read.finds ⟨layers, n⟩ (scopes.length - 1) n.text = true :=
        (Read.finds_iff _ _ _).mpr ⟨rfl, found⟩
      have told : Course.atRead n scopes = [ownInitializer n] := if_pos ((pending _).mpr rfl)
      have settled := pending.found head (by rw [List.any_cons, finds, Bool.true_or])
      rw [told, ownReport?_found finds, if_pos deep]
      exact ((behind.settled settled).cons _).trans (List.perm_append_singleton _ _).symm
    · have silent : Course.atRead n scopes = [] := if_neg fun hd => same ((pending _).mp hd)
      have other : ¬ Read.finds ⟨layers, n⟩ (scopes.length - 1) name = true := fun finds =>
        same ((Read.finds_iff _ _ _).mp finds).1
      have stays := pending.other head (by
        rw [List.any_cons, List.any_nil, Bool.or_false]
        exact other)
      rw [silent, ownReport?_other other, ← length]
      exact behind.pending name none stays

theorem declare (h : Holding layers scopes)
    (behind : Owned rest (declareIn n layers)
      (scopes.modifyHead fun s => (s.declare n).advance n.text .defined)) :
    Owned (.declare n rest) layers scopes := by
  refine ⟨fun settled => behind.settled ?_, fun _ none => absurd none (List.cons_ne_nil _ _)⟩
  cases scopes with
  | nil => exact settled_nil
  | cons s outer =>
    have same : s.declare n = marked 0 [] ((s.declare n :: outer).headD []) := rfl
    exact Pending.define (.inl (settled.declare n)) same

theorem initial (h : Holding layers scopes) (formed : inside.Formed) (none : inside.declares = [])
    (within : Owned inside (pendIn n layers) (scopes.modifyHead fun s => s.declare n))
    (behind : Owned rest (declareIn n layers)
      ((inside.after (scopes.modifyHead fun s => s.declare n)).modifyHead
        fun s => s.advance n.text .defined)) :
    Owned (.initial n inside rest) layers scopes := by
  refine ⟨fun settled => ?_, fun _ none => absurd none (List.cons_ne_nil _ _)⟩
  have head := head_after (h.pend n) formed none
  rw [Course.complaints, List.filter_append, Course.initials_initial, filterMap_report,
    List.filterMap_append]
  cases h with
  | nil =>
    have nothing : inside.after [] = [] := List.length_eq_zero_iff.mp (inside.length_after [])
    refine (within.settled settled_nil).append (behind.settled ?_)
    rw [List.modifyHead_nil, nothing]
    exact settled_nil
  | @cons l s layers outer holds fit =>
    have pending := settled.declare n
    have own := within.pending n.text none pending
    have report : Initial.report? ⟨l :: layers, n, inside⟩ =
        ownReport? outer.length n.text (inside.reads (pendIn n (l :: layers))) := by
      rw [← fit.length]
      rfl
    have settled' : Settled ((inside.after (s.declare n :: outer)).modifyHead
        fun s => s.advance n.text .defined) := by
      cases hs : inside.after (s.declare n :: outer) with
      | nil => exact settled_nil
      | cons t outer' =>
        rw [List.modifyHead_cons, hs] at head
        exact Pending.define (.inl pending) head
    rw [report, ← List.append_assoc]
    exact (own.append (behind.settled settled')).trans (List.perm_append_comm.append_right _)

theorem scope (h : Holding layers scopes) (formed : (Course.scope o inside .done).Formed)
    (within : Owned inside (.opened o.region :: layers) (o.first :: scopes))
    (behind : Owned rest layers (inside.after (o.first :: scopes)).tail) :
    Owned (.scope o inside rest) layers scopes := by
  have head := head_behind h formed
  have length := inside.length_behind o.first scopes
  have inner := within.settled (settled_first o scopes)
  refine ⟨fun settled => ?_, fun name none pending => ?_⟩
  · simp only [Course.complaints, List.filter_append, filter_own_unused, List.append_nil,
      Course.initials_scope, List.filterMap_append]
    exact inner.append (behind.settled (settled.marked head))
  · simp only [Course.complaints, List.filter_append, filter_own_unused, List.append_nil,
      Course.initials_scope, List.filterMap_append]
    obtain ⟨-, deep⟩ := pending.depth? h
    -- a read inside the scope may settle the variable, but is not complained of for it
    have inside_deep : ∀ r ∈ inside.reads (.opened o.region :: layers),
        r.layers.length ≠ scopes.length - 1 + 1 := by
      intro r hr same
      obtain ⟨new, regions, -⟩ := regions_of_mem_reads hr
      have length := congrArg List.length regions
      simp only [List.length_map, List.length_append, List.length_cons, same] at length
      omega
    rw [Course.reads_scope, ownReport?_append _ inside_deep, List.append_assoc]
    refine inner.append ?_
    split
    · rename_i found
      rw [Option.toList_none, List.append_nil]
      exact behind.settled (pending.found head found)
    · rename_i other
      rw [← length]
      exact behind.pending name none (pending.other head other)

end Owned

theorem complaints_owned {c : Course} {layers : List Layer} {scopes : List Scope}
    (h : Holding layers scopes) (formed : c.Formed) : Owned c layers scopes := by
  induction c generalizing layers scopes with
  | done => exact ⟨fun _ => .nil, fun _ _ _ => .nil⟩
  | read n rest ih => exact .read h (ih (h.mark n.text) formed)
  | declare n rest ih => exact .declare h (ih (h.declare n) formed)
  | initial n inside rest ihInside ih =>
    obtain ⟨none, hi, hr⟩ := formed
    exact .initial h hi none (ihInside (h.pend n) hi) (ih (h.initial hi none).define hr)
  | scope o inside rest ihInside ih =>
    obtain ⟨declares, hi, hr⟩ := formed
    exact .scope h ⟨declares, hi, trivial⟩ (ihInside (h.opened o) hi)
      (ih (h.scope hi) hr)

theorem mention_initial (x : Position × Node β) :
    (mention? x).bind Mention.initial? = initial? x := by
  obtain ⟨p, node⟩ := x
  cases node with
  | expr e => cases e <;> rfl
  | stmt s =>
    cases s with
    | var name initial => cases initial <;> rfl
    | _ => rfl
  | code params body => rfl

theorem isProgress_of_isOwn (r : Report) (h : isOwn r = true) : isProgress r = true :=
  decide_eq_true (.inl (of_decide_eq_true h))

/-- A variable stands in the initializer of a local, outside of the functions in it. -/
def isOwnRead (p : Position) (name : Name) : Position × Node β → Bool
  | (q, .expr (.variable n _)) => n.text == name.text && q.layers.length == p.layers.length
  | _ => false

/-- A local variable is read in its own initializer, outside of the functions in it. -/
def readsItself : Position × Node β → Bool
  | (p, .stmt (.var name (some e))) =>
    !p.layers.isEmpty && (exprNodes ((p.pend name).child 0) e).any (isOwnRead p name)
  | _ => false

/-- A complaint about an initializer is about a variable in it. -/
theorem isOwnRead_of_report? {p : Position} {name : Name} {e : Expr β} {r : Report}
    (inside : ((exprCourse (0 :: p.path) e).reads (p.pend name).layers).Perm
      ((exprNodes ((p.pend name).child 0) e).filterMap reading?))
    (h : Initial.report? ⟨p.layers, name, exprCourse (0 :: p.path) e⟩ = some r) :
    p.layers ≠ [] ∧ ∃ q n site, (q, .expr (.variable n site)) ∈ exprNodes ((p.pend name).child 0) e ∧
      isOwnRead p name (q, Node.expr (.variable n site)) = true ∧ r = ownInitializer n := by
  unfold Initial.report? at h
  rw [layers_pend] at inside
  cases hp : p.layers with
  | nil =>
    simp only [hp] at h
    cases h
  | cons l outer =>
    simp only [hp] at h inside
    refine ⟨List.cons_ne_nil _ _, ?_⟩
    obtain ⟨found, hfound, hr⟩ := Option.bind_eq_some_iff.mp h
    have finds := (Read.finds_iff _ _ _).mp (List.find?_some (p := fun r : Read =>
      r.finds outer.length name.text) hfound)
    have mem := inside.mem_iff.mp (List.mem_of_find?_eq_some hfound)
    obtain ⟨⟨q, node⟩, hx, reading⟩ := List.mem_filterMap.mp mem
    unfold reading? at reading
    split at reading
    · rename_i here
      cases here
      cases reading
      rename_i site
      split at hr
      · rename_i deep
        cases hr
        refine ⟨_, _, _, hx, ?_, rfl⟩
        simp only [isOwnRead, hp, List.length_cons, Bool.and_eq_true, beq_iff_eq]
        exact ⟨finds.1, deep⟩
      · cases hr
    · cases reading

/-- Of own initializers a program that was read is complained of exactly once for each local variable
whose first read in its initializer, in the order of binding, stands outside of the functions in it.
The reads of an initializer are the variables in it, and every such complaint is about one of them
that names the variable and stands outside of functions. -/
theorem ownInitializers_reported (source : String) :
    ((Program.ofSource source).bound.reports.filter isOwn).Perm
        (((sourceNodes source).filterMap initial?).filterMap Initial.report?) ∧
      (∀ p name e, (p, Node.stmt (.var name (some e))) ∈ sourceNodes source →
        ((exprCourse (0 :: p.path) e).reads (p.pend name).layers).Perm
          ((exprNodes ((p.pend name).child 0) e).filterMap reading?)) ∧
      ∀ r ∈ (Program.ofSource source).bound.reports, isOwn r = true →
        ∃ p name e, (p, Node.stmt (.var name (some e))) ∈ sourceNodes source ∧ p.layers ≠ [] ∧
          ∃ q n site, (q, .expr (.variable n site)) ∈ exprNodes ((p.pend name).child 0) e ∧
            isOwnRead p name (q, Node.expr (.variable n site)) = true ∧ r = ownInitializer n := by
  have mentioned := programNodes_mentioned 0 _ (sourceNodes_usual source)
  have inside : ∀ p name e, (p, Node.stmt (.var name (some e))) ∈ sourceNodes source →
      ((exprCourse (0 :: p.path) e).reads (p.pend name).layers).Perm
        ((exprNodes ((p.pend name).child 0) e).filterMap reading?) := by
    intro p name e hx
    rw [← filterMap_mentions mention_reading]
    exact ((mentioned.initials _ hx).filterMap Mention.read?).symm
  have own : ((Program.ofSource source).bound.reports.filter isOwn).Perm
      (((sourceNodes source).filterMap initial?).filterMap Initial.report?) := by
    have told := (complaints_owned .nil mentioned.formed).settled settled_nil
    rw [← filter_progress isProgress_of_isOwn, Program.bound, bindProgram_runs 0 _ mentioned.usual,
      ← filterMap_mentions mention_initial]
    exact told.trans ((mentioned.perm.filterMap _).filterMap _).symm
  refine ⟨own, inside, fun r hr isOwn => ?_⟩
  obtain ⟨i, hi, report⟩ := List.mem_filterMap.mp
    (own.mem_iff.mp (List.mem_filter.mpr ⟨hr, isOwn⟩))
  obtain ⟨⟨p, node⟩, hx, initial⟩ := List.mem_filterMap.mp hi
  unfold initial? at initial
  split at initial
  · rename_i name e here
    cases here
    cases initial
    exact ⟨_, _, _, hx, isOwnRead_of_report? (inside _ _ _ hx) report⟩
  · cases initial

/-- Of the three variables here the first is complained of, in its own scope. -/
example :
    (Program.ofSource
      "{ var a = a; var b = fun () { return b; }; print b + a; } var c = c;").bound.reports =
      [⟨1, .atToken "a", .ownInitializer⟩] := by decide +kernel

/-- In `{ var a = fun () { return a; } == a; print a; }` the function reads first, and the read
behind it is not complained of. -/
theorem readsItself_unreported :
    let source := "{ var a = fun () { return a; } == a; print a; }"
    (sourceNodes source).any readsItself = true ∧ (Program.ofSource source).bound.reports = [] := by
  decide +kernel

end Lexical

end Script
