import Script.Proofs.Grammar.Writing
import Script.Proofs.Lexical.Spelling
import Script.Proofs.Lexical.Visible

/-! The sites that binding finds.
Whether or not anything is complained of, every use of a program is given the scope that contains
its name by the text alone, each use of a scope is listed once, and nothing else is listed. -/
namespace Script

open Lexical Binding Grammar

namespace Lexical

variable {α β : Type}

def occurrence? (x : Position × Node Site) : Option Occurrence :=
  match x.2.use? with
  | some (use, name, .local_ distance) => some ⟨use, name, distance⟩
  | _ => none

/-- The site of a use by its place: outside of classes, the instance has none. -/
def Resolved (x : Position × Node Site) : Prop :=
  ∀ use name site, x.2.use? = some (use, name, site) →
    site = if use = .this ∧ x.1.inClass = false then .global else x.1.site name.text

/-- What surrounds a place, scopes apart, is as it was. -/
structure Kept (s t : Context) : Prop where
  loops : t.loops = s.loops
  enclosing : t.enclosing = s.enclosing
  inClass : t.inClass = s.inClass

theorem Kept.trans {s t u : Context} (h : Kept s t) (h' : Kept t u) : Kept s u :=
  ⟨h'.loops.trans h.loops, h'.enclosing.trans h.enclosing, h'.inClass.trans h.inClass⟩

/-- A binder goes from a place to a place and lists what it finds behind what was listed. -/
def Finds (p p' : Position) (x : Binder α) (Q : α → List Occurrence → Prop) : Prop :=
  ∀ s, Fits .identity p s s →
    let t := (x.run s).run
    Fits .identity p' t.2 t.2 ∧ Kept s t.2 ∧
      ∃ found, t.2.occurrences = s.occurrences ++ found ∧ Q t.1 found

namespace Finds

variable {p p' p'' : Position} {x : Binder α} {Q : α → List Occurrence → Prop}

theorem pure {a : α} (h : Q a []) : Finds p p (Pure.pure a) Q :=
  fun _ hs => ⟨hs, ⟨rfl, rfl, rfl⟩, [], (List.append_nil _).symm, h⟩

theorem bind {f : α → Binder β} {R : β → List Occurrence → Prop} (h : Finds p p' x Q)
    (hf : ∀ a, Finds p' p'' (f a) fun b found => ∀ earlier, Q a earlier → R b (earlier ++ found)) :
    Finds p p'' (x >>= f) R := by
  intro s hs
  obtain ⟨fits, kept, found, listed, hq⟩ := h s hs
  obtain ⟨fits', kept', found', listed', hr⟩ := hf _ _ fits
  refine ⟨fits', kept.trans kept', found ++ found', ?_, hr found hq⟩
  rw [← List.append_assoc, ← listed]
  exact listed'

theorem weaken {R : α → List Occurrence → Prop} (h : Finds p p' x Q)
    (hr : ∀ a found, Q a found → R a found) : Finds p p' x R := by
  intro s hs
  obtain ⟨fits, kept, found, listed, hq⟩ := h s hs
  exact ⟨fits, kept, found, listed, hr _ _ hq⟩

theorem child {i j : Nat} (h : Finds (p.child i) (p'.child j) x Q) : Finds p p' x Q := h

theorem entered {i : Nat} (h : Finds (p.child i) p' x Q) : Finds p p' x Q := h

theorem get_bind {f : Context → Binder α}
    (h : ∀ s, Fits .identity p s s → Finds p p' (f s) Q) : Finds p p' (get >>= f) Q :=
  fun s hs => h s hs s hs

theorem of_binds {R : α → α → Prop} (h : Binds .identity p p' x x R)
    (same : ∀ s, Kept s (x.run s).run.2 ∧ (x.run s).run.2.occurrences = s.occurrences) :
    Finds p p' x fun _ found => found = [] :=
  fun s hs => ⟨(h s s hs).1, (same s).1, [], by rw [(same s).2, List.append_nil], rfl⟩

theorem complain {n : Name} {c : Complaint} : Finds p p (Binding.complain n c)
    fun _ found => found = [] :=
  .of_binds .complain fun _ => ⟨⟨rfl, rfl, rfl⟩, rfl⟩

theorem useRespected (p : Position) (key : String) : UseRespected .identity p key key :=
  ⟨rfl, fun _ _ _ _ => rfl, fun _ => rfl⟩

theorem declarationRespected (p : Position) (name : Name) :
    DeclarationRespected .identity p name := by
  unfold DeclarationRespected
  split <;> rfl

theorem checkInitialized (name : Name) :
    Finds p p (Binding.checkInitialized name) fun _ found => found = [] := by
  have binds : Binds .identity p p _ (Binding.checkInitialized ⟨name.text, name.line⟩) _ :=
    .checkInitialized (useRespected p name.text)
  refine .of_binds binds fun s => ?_
  simp only [Binding.checkInitialized, StateT.run_bind, StateT.run_get, pure_bind]
  split
  · exact ⟨⟨rfl, rfl, rfl⟩, rfl⟩
  · split
    · split <;> exact ⟨⟨rfl, rfl, rfl⟩, rfl⟩
    · exact ⟨⟨rfl, rfl, rfl⟩, rfl⟩

theorem declare (name : Name) :
    Finds p (p.declare name) (Binding.declare name) fun _ found => found = [] := by
  refine .of_binds (.declare (declarationRespected p name)) fun s => ?_
  cases hs : s.scopes with
  | nil =>
    simp only [Binding.declare, StateT.run_bind, StateT.run_get, pure_bind, hs]
    exact ⟨⟨rfl, rfl, rfl⟩, rfl⟩
  | cons scope outer =>
    rw [declare_run hs]
    exact ⟨⟨rfl, rfl, rfl⟩, rfl⟩

theorem define (name : Name) :
    Finds p p (Binding.define name) fun _ found => found = [] := by
  refine .of_binds (.define (declarationRespected p name)) fun s => ?_
  cases hs : s.scopes with
  | nil =>
    cases s
    cases hs
    exact ⟨⟨rfl, rfl, rfl⟩, rfl⟩
  | cons scope outer =>
    rw [define_run hs]
    exact ⟨⟨rfl, rfl, rfl⟩, rfl⟩

theorem behind {f : α → Binder β} {R : β → List Occurrence → Prop}
    (h : Finds p p' x fun _ found => found = []) (hf : ∀ a, Finds p' p'' (f a) R) :
    Finds p p'' (x >>= f) R :=
  h.bind fun a => (hf a).weaken fun b found hr earlier he => by rwa [he]

theorem declareAndDefine (name : Name) :
    Finds p (p.declare name) (Binding.declareAndDefine name) fun _ found => found = [] :=
  (declare name).behind fun _ => define name

/-- The initializer of a variable is bound where the variable is declared already. -/
theorem pend {name : Name} (h : Finds (p.pend name) (p.pend name) x Q) :
    Finds (p.declare name) (p.declare name) x Q := by
  intro s hs
  obtain ⟨fits, rest⟩ := h s (Fits.pend.mpr hs)
  exact ⟨Fits.pend.mp fits, rest⟩

theorem complainIf {c : Context → Prop} [DecidablePred c] {n : Name} {k : Complaint}
    (rest : Finds p p' x Q) :
    Finds p p' (get >>= fun s => if c s then Binding.complain n k >>= fun _ => x else x) Q := by
  refine get_bind fun s _ => ?_
  split
  · exact complain.behind fun _ => rest
  · exact rest

/-- The entry of a use that has a site. -/
def listed (use : Use) (name : Name) : Site → List Occurrence
  | .global => []
  | .local_ distance => [⟨use, name, distance⟩]

theorem occur (use : Use) (name : Name) :
    Finds p p (Binding.occur use name) fun site found =>
      site = p.site name.text ∧ found = listed use name site := by
  intro s hs
  have binds : Binds .identity p p _ (Binding.occur use ⟨name.text, name.line⟩) _ :=
    .occur name (useRespected p name.text)
  have fits := (binds s s hs).1
  have distance : Scope.distance? s.scopes name.text = p.distance? name.text :=
    hs.scopes.distance? name.text
  refine ⟨fits, ?_⟩
  simp only [Binding.occur, StateT.run_bind, StateT.run_get, pure_bind, distance, Position.site]
  cases p.distance? name.text with
  | none => exact ⟨⟨rfl, rfl, rfl⟩, [], (List.append_nil _).symm, rfl, rfl⟩
  | some d => exact ⟨⟨rfl, rfl, rfl⟩, _, rfl, rfl, rfl⟩

theorem inLoop (h : Finds p.loop p.loop x Q) : Finds p p (Binding.inLoop x) Q := by
  intro s hs
  have fits : Fits .identity p.loop { s with loops := s.loops + 1 }
      { s with loops := s.loops + 1 } :=
    { hs with
      loops := ⟨fun _ => rfl, fun _ => Nat.succ_ne_zero _⟩
      loops_eq := rfl }
  obtain ⟨fits', kept, found, listed, hq⟩ := h _ fits
  exact ⟨{ fits' with loops := hs.loops, loops_eq := hs.loops_eq },
    { kept with loops := rfl }, found, listed, hq⟩

theorem scope_identity (r : Region) (scope : Scope) : Renaming.identity.scope r scope = scope :=
  List.map_id' scope

theorem inScope_run {first : Scope}
    (h : ∀ s, Fits .identity p s s →
      let t := (x.run { s with scopes := first :: s.scopes }).run
      (∃ q, p.Inner q ∧ Fits .identity q t.2 t.2) ∧ Kept s t.2 ∧
        ∃ found, t.2.occurrences = s.occurrences ++ found ∧ Q t.1 found) :
    Finds p p (Binding.inScope first x) Q := by
  intro s hs
  obtain ⟨⟨q, inner, fits⟩, kept, found, listed, hq⟩ := h s hs
  have closed : ∀ t : Context, Kept s t → Kept s (closeScope t) ∧
      (closeScope t).occurrences = t.occurrences := by
    intro t kept
    unfold closeScope
    split
    · exact ⟨kept, rfl⟩
    · exact ⟨⟨kept.loops, kept.enclosing, kept.inClass⟩, rfl⟩
  obtain ⟨kept, same⟩ := closed _ kept
  exact ⟨(fits.close inner).1, kept, found, same.trans listed, hq⟩

theorem inScope {q q' : Position} {l : Layer} {first : Scope} (h : Finds q q' x Q)
    (hq : p.Inner q) (hl : q.layers = l :: p.layers) (holds : ∀ key, first.holds key = l.holds key)
    (hq' : p.Inner q') : Finds p p (Binding.inScope first x) Q := by
  refine inScope_run fun s hs => ?_
  have fits : Fits .identity q { s with scopes := first :: s.scopes }
      { s with scopes := first :: s.scopes } := by
    refine { hs with
      scopes := ?_
      loops := hq.inLoop ▸ hs.loops
      enclosing := hq.inFunction ▸ hs.enclosing
      inClass := hq.inClass ▸ hs.inClass }
    have scopes := ScopesFit.cons holds hs.scopes
    rw [scope_identity] at scopes
    rw [hl]
    exact scopes
  obtain ⟨fits', kept, found⟩ := h _ fits
  exact ⟨⟨q', hq', fits'⟩, ⟨kept.loops, kept.enclosing, kept.inClass⟩, found⟩

theorem inFunction {enclosing : Enclosing} {params : List Name} {body : List RawStmt}
    {q : Position} (some : enclosing ≠ .none) (h : Finds (p.function params body) q x Q)
    (hq : Position.Inner { p with inLoop := false, inFunction := true } q) :
    Finds p p (Binding.inFunction enclosing (params.forM Binding.declareAndDefine >>= fun _ => x))
      Q := by
  have inner : Finds { p with inLoop := false, inFunction := true }
      { p with inLoop := false, inFunction := true }
      (Binding.inScope [] (params.forM Binding.declareAndDefine >>= fun _ => x)) Q := by
    refine inScope_run fun s hs => ?_
    obtain ⟨scope, ht, -, -, holds, -⟩ := declareParams_run (ρ := .identity)
      (r := ⟨p.path, params, declaredNames body⟩) (fun _ _ => rfl)
      { s with scopes := [] :: s.scopes } { s with scopes := [] :: s.scopes } [] rfl rfl rfl
    have fits : Fits .identity (p.function params body)
        ((params.forM Binding.declareAndDefine).run { s with scopes := [] :: s.scopes }).run.2
        ((params.forM Binding.declareAndDefine).run { s with scopes := [] :: s.scopes }).run.2 := by
      rw [ht]
      have scopes := ScopesFit.cons (ρ := .identity) (s := scope)
        (l := .opened ⟨p.path, params, declaredNames body⟩)
        (fun key => (holds key).trans (Bool.or_false _)) hs.scopes
      rw [scope_identity] at scopes
      exact { hs with scopes := scopes, reports := rfl }
    obtain ⟨fits', kept, found, listed, hQ⟩ := h _ fits
    have before : Kept s ((params.forM Binding.declareAndDefine).run
        { s with scopes := [] :: s.scopes }).run.2 := by
      rw [ht]
      exact ⟨rfl, rfl, rfl⟩
    have none : ((params.forM Binding.declareAndDefine).run
        { s with scopes := [] :: s.scopes }).run.2.occurrences = s.occurrences := by rw [ht]
    exact ⟨⟨q, hq, fits'⟩, before.trans kept, found, listed.trans (by rw [none]), hQ⟩
  intro s hs
  have fits : Fits .identity { p with inLoop := false, inFunction := true }
      { s with enclosing := enclosing, loops := 0 } { s with enclosing := enclosing, loops := 0 } :=
    { hs with
      loops := ⟨fun h => absurd rfl h, fun h => by cases h⟩
      enclosing := ⟨fun _ => rfl, fun _ => some⟩
      loops_eq := rfl
      enclosing_eq := rfl }
  obtain ⟨fits', kept, found, listed, hq⟩ := inner _ fits
  exact ⟨{ fits' with
    loops := hs.loops
    enclosing := hs.enclosing
    loops_eq := hs.loops_eq
    enclosing_eq := hs.enclosing_eq }, ⟨rfl, rfl, kept.inClass⟩, found, listed, hq⟩

theorem inClass {name : Name} {q : Position} (h : Finds (p.declare name).class_ q x Q)
    (hq : Position.Inner { p.declare name with inClass := true } q) :
    Finds p (p.declare name) (Binding.inClass name x) Q := by
  intro s hs
  have fits : Fits .identity { p with inClass := true } { s with inClass := true }
      { s with inClass := true } :=
    { hs with inClass := rfl, inClass_eq := rfl }
  have methods : Finds { p.declare name with inClass := true }
      { p.declare name with inClass := true } (Binding.inScope (Scope.ofClass name) x) Q := by
    refine inScope h ⟨⟨_, rfl⟩, rfl, rfl, rfl⟩ rfl (fun key => ?_) hq
    rw [Scope.ofClass, Scope.holds_cons]
    rfl
  obtain ⟨fits', kept, found, listed, hq⟩ :=
    ((declareAndDefine (p := { p with inClass := true }) name).behind fun _ => methods) _ fits
  exact ⟨{ fits' with inClass := hs.inClass, inClass_eq := rfl },
    ⟨kept.loops, kept.enclosing, rfl⟩, found, listed, hq⟩

end Finds

/-- The uses of nodes have their sites, and those that refer to a scope are listed once. -/
structure Listed (nodes : List (Position × Node Site)) (found : List Occurrence) : Prop where
  resolved : ∀ x ∈ nodes, Resolved x
  perm : found.Perm (nodes.filterMap occurrence?)

namespace Listed

variable {p : Position} {nodes nodes' : List (Position × Node Site)}
  {found found' : List Occurrence} {node : Node Site}

theorem nil : Listed [] [] := ⟨List.forall_mem_nil _, .refl _⟩

theorem cons (hn : node.use? = none) (h : Listed nodes found) :
    Listed ((p, node) :: nodes) found where
  resolved := by
    refine List.forall_mem_cons.mpr ⟨fun use name site hu => ?_, h.resolved⟩
    rw [hn] at hu
    cases hu
  perm := by
    have none : occurrence? (p, node) = none := by simp only [occurrence?, hn]
    rw [List.filterMap_cons_none none]
    exact h.perm

theorem use {use : Use} {name : Name} {site : Site} (hn : node.use? = some (use, name, site))
    (hs : site = if use = .this ∧ p.inClass = false then .global else p.site name.text)
    (h : Listed nodes found) :
    Listed ((p, node) :: nodes) (found ++ Finds.listed use name site) where
  resolved := by
    refine List.forall_mem_cons.mpr ⟨fun use' name' site' hu => ?_, h.resolved⟩
    rw [hn] at hu
    cases hu
    exact hs
  perm := by
    cases site with
    | global =>
      have none : occurrence? (p, node) = none := by simp only [occurrence?, hn]
      rw [List.filterMap_cons_none none, Finds.listed, List.append_nil]
      exact h.perm
    | local_ d =>
      have some : occurrence? (p, node) = some ⟨use, name, d⟩ := by simp only [occurrence?, hn]
      rw [List.filterMap_cons_some some, Finds.listed]
      exact (List.perm_append_singleton _ _).trans (h.perm.cons _)

theorem append (h : Listed nodes found) (h' : Listed nodes' found') :
    Listed (nodes ++ nodes') (found ++ found') where
  resolved := List.forall_mem_append.mpr ⟨h.resolved, h'.resolved⟩
  perm := by
    rw [List.filterMap_append]
    exact h.perm.append h'.perm

theorem comm (h : Listed nodes (found ++ found')) : Listed nodes (found' ++ found) :=
  ⟨h.resolved, List.perm_append_comm.trans h.perm⟩

theorem last (h : Listed nodes found) : Listed nodes (found ++ []) := by
  rwa [List.append_nil]

end Listed

mutual

theorem bindExpr_finds (p : Position) (e : RawExpr) (h : ∀ x ∈ exprNodes p e, x.2.Plain) :
    Finds p p (bindExpr e) fun a found => Listed (exprNodes p a) found := by
  cases e with
  | literal value => exact .pure (.cons rfl .nil)
  | grouping inner =>
    have inner := bindExpr_finds (p.child 0) inner fun x hx => h x (by simp [exprNodes, hx])
    exact inner.child.bind fun a => .pure fun found ha => .cons rfl ha.last
  | «variable» name site =>
    refine (Finds.checkInitialized name).behind fun _ => (Finds.occur .variable name).bind
      fun site => .pure ?_
    rintro _ ⟨hs, rfl⟩
    exact .last (Listed.nil.use rfl (by simpa using hs))
  | assign name site value =>
    have value := bindExpr_finds (p.child 0) value fun x hx => h x (by simp [exprNodes, hx])
    refine value.child.bind fun a => (Finds.occur .assign name).bind fun site => .pure ?_
    rintro _ ⟨hs, rfl⟩ found ha
    rw [List.append_nil]
    exact ha.use rfl (by simpa using hs)
  | this line site =>
    refine .get_bind fun s hs => ?_
    have inClass : s.inClass = p.inClass := hs.inClass
    by_cases hc : s.inClass = true
    · simp only [if_pos hc]
      refine (Finds.occur .this ⟨Keyword.this_.spelling, line⟩).bind fun site => .pure ?_
      rintro _ ⟨hs, rfl⟩
      exact .last (Listed.nil.use rfl (by simpa [← inClass, hc] using hs))
    · simp only [if_neg hc]
      refine Finds.complain.behind fun _ => .pure ?_
      have outside : p.inClass = false := by simpa [inClass] using hc
      exact Listed.nil.use rfl (show Site.global = _ by simp [outside])
  | unary op line operand =>
    have operand := bindExpr_finds (p.child 0) operand fun x hx => h x (by simp [exprNodes, hx])
    exact operand.child.bind fun a => .pure fun found ha => .cons rfl ha.last
  | binary left op line right =>
    have left := bindExpr_finds (p.child 0) left fun x hx => h x (by simp [exprNodes, hx])
    have right := bindExpr_finds (p.child 1) right fun x hx => h x (by simp [exprNodes, hx])
    exact left.child.bind fun a => right.child.bind fun b => .pure fun found hb found' ha =>
      .cons rfl (ha.append hb.last)
  | logical left op line right =>
    have left := bindExpr_finds (p.child 0) left fun x hx => h x (by simp [exprNodes, hx])
    have right := bindExpr_finds (p.child 1) right fun x hx => h x (by simp [exprNodes, hx])
    exact left.child.bind fun a => right.child.bind fun b => .pure fun found hb found' ha =>
      .cons rfl (ha.append hb.last)
  | ternary condition yes no =>
    have condition := bindExpr_finds (p.child 0) condition fun x hx => h x (by simp [exprNodes, hx])
    have yes := bindExpr_finds (p.child 1) yes fun x hx => h x (by simp [exprNodes, hx])
    have no := bindExpr_finds (p.child 2) no fun x hx => h x (by simp [exprNodes, hx])
    refine condition.child.bind fun a => yes.child.bind fun b => no.child.bind fun c =>
      .pure fun found hc found' hb found'' ha => ?_
    rw [← List.append_assoc]
    exact .cons rfl ((ha.append hb).append hc.last)
  | sequence earlier last =>
    have earlier := bindExpr_finds (p.child 0) earlier fun x hx => h x (by simp [exprNodes, hx])
    have last := bindExpr_finds (p.child 1) last fun x hx => h x (by simp [exprNodes, hx])
    exact earlier.child.bind fun a => last.child.bind fun b => .pure fun found hb found' ha =>
      .cons rfl (ha.append hb.last)
  | call callee line arguments =>
    have callee := bindExpr_finds (p.child 0) callee fun x hx => h x (by simp [exprNodes, hx])
    have arguments := bindExprs_finds (p.child 1) arguments fun x hx =>
      h x (by simp [exprNodes, hx])
    exact callee.child.bind fun a => arguments.child.bind fun b => .pure fun found hb found' ha =>
      .cons rfl (ha.append hb.last)
  | get object property =>
    have object := bindExpr_finds (p.child 0) object fun x hx => h x (by simp [exprNodes, hx])
    exact object.child.bind fun a => .pure fun found ha => .cons rfl ha.last
  | set object property value =>
    have object := bindExpr_finds (p.child 0) object fun x hx => h x (by simp [exprNodes, hx])
    have value := bindExpr_finds (p.child 1) value fun x hx => h x (by simp [exprNodes, hx])
    exact value.child.bind fun a => object.child.bind fun b => .pure fun found hb found' ha =>
      .cons rfl (hb.last.append ha).comm
  | function params body =>
    have body' := bindStmts_finds (((p.child 0).function params body).child 0) body fun x hx =>
      h x (by simp [exprNodes, hx])
    refine (Finds.inFunction (p := p.child 0) Enclosing.noConfusion body'.entered
      (Position.function_inner _ _ _ _ _)).child.bind fun a => .pure ?_
    rintro found ⟨names, ha⟩
    refine .cons rfl (.cons rfl ?_)
    simpa only [Position.function, names] using ha.last

theorem bindExprs_finds (p : Position) (es : List RawExpr) (h : ∀ x ∈ exprsNodes p es, x.2.Plain) :
    Finds p p (bindExprs es) fun a found => Listed (exprsNodes p a) found := by
  cases es with
  | nil => exact .pure .nil
  | cons e es =>
    have first := bindExpr_finds (p.child 0) e fun x hx => h x (by simp [exprsNodes, hx])
    have others := bindExprs_finds (p.child 1) es fun x hx => h x (by simp [exprsNodes, hx])
    exact first.child.bind fun a => others.child.bind fun b => .pure fun found hb found' ha =>
      ha.append hb.last

theorem bindStmt_finds (p : Position) (s : RawStmt) (h : ∀ x ∈ stmtNodes p s, x.2.Plain) :
    Finds p (p.after s) (bindStmt s) fun a found =>
      declared? a = declared? s ∧ Listed (stmtNodes p a) found := by
  cases s with
  | expression e =>
    have e := bindExpr_finds (p.child 0) e fun x hx => h x (by simp [stmtNodes, hx])
    exact e.child.bind fun a => .pure fun found ha => ⟨rfl, .cons rfl ha.last⟩
  | print e =>
    have e := bindExpr_finds (p.child 0) e fun x hx => h x (by simp [stmtNodes, hx])
    exact e.child.bind fun a => .pure fun found ha => ⟨rfl, .cons rfl ha.last⟩
  | var name initial =>
    cases initial with
    | none =>
      exact (Finds.declareAndDefine name).behind fun _ => .pure ⟨rfl, .cons rfl .nil⟩
    | some e =>
      have e := bindExpr_finds ((p.pend name).child 0) e fun x hx => h x (by simp [stmtNodes, hx])
      refine (Finds.declare name).behind fun _ => e.child.pend.bind fun a =>
        (Finds.define name).behind fun _ => .pure fun found ha => ⟨rfl, .cons rfl ha.last⟩
  | block body =>
    have body' := bindStmts_finds ((p.block body).child 0) body fun x hx =>
      h x (by simp [stmtNodes, hx])
    refine (Finds.inScope body'.entered (Position.opened_inner p _ _) rfl (fun _ => rfl)
      (Position.block_inner p body body 0)).bind fun a => .pure ?_
    rintro found ⟨names, ha⟩
    refine ⟨rfl, .cons rfl ?_⟩
    simpa only [Position.block, names] using ha.last
  | step body increment =>
    have plain : declared? body = none := h _ List.mem_cons_self
    have body := bindStmt_finds ((p.opened [] []).child 0) body fun x hx =>
      h x (by simp [stmtNodes, hx])
    have increment := bindExpr_finds ((p.opened [] []).child 1) increment fun x hx =>
      h x (by simp [stmtNodes, hx])
    rw [Position.after_of_none plain] at body
    have inner := Position.opened_inner p [] []
    refine (Finds.inScope (body.child.bind fun a => increment.child.bind fun b => .pure ?_)
      inner rfl (fun _ => rfl) inner).weaken fun a found ha => ha
    exact fun found hb found' ha => ⟨rfl, .cons rfl (ha.2.append hb.last)⟩
  | if_ condition yes no =>
    cases no with
    | none =>
      have plain : declared? yes = none := (h _ List.mem_cons_self).1
      have condition := bindExpr_finds (p.child 0) condition fun x hx =>
        h x (by simp [stmtNodes, hx])
      have yes := bindStmt_finds (p.child 1) yes fun x hx => h x (by simp [stmtNodes, hx])
      rw [Position.after_of_none plain] at yes
      exact condition.child.bind fun a => yes.child.bind fun b => .pure fun found hb found' ha =>
        ⟨rfl, .cons rfl (ha.append hb.2.last)⟩
    | some no =>
      obtain ⟨plain, plain'⟩ := h _ List.mem_cons_self
      have condition := bindExpr_finds (p.child 0) condition fun x hx =>
        h x (by simp [stmtNodes, hx])
      have yes := bindStmt_finds (p.child 1) yes fun x hx => h x (by simp [stmtNodes, hx])
      have no := bindStmt_finds (p.child 2) no fun x hx => h x (by simp [stmtNodes, hx])
      rw [Position.after_of_none plain] at yes
      rw [Position.after_of_none (plain' _ rfl)] at no
      refine condition.child.bind fun a => yes.child.bind fun b => no.child.bind fun c =>
        .pure fun found hc found' hb found'' ha => ⟨rfl, ?_⟩
      rw [← List.append_assoc]
      exact .cons rfl ((ha.append hb.2).append hc.2.last)
  | while_ condition body =>
    have plain : declared? body = none := h _ List.mem_cons_self
    have condition := bindExpr_finds (p.child 0) condition fun x hx => h x (by simp [stmtNodes, hx])
    have body := bindStmt_finds (p.loop.child 1) body fun x hx => h x (by simp [stmtNodes, hx])
    rw [Position.after_of_none plain] at body
    exact condition.child.bind fun a => (Finds.inLoop body.child).bind fun b =>
      .pure fun found hb found' ha => ⟨rfl, .cons rfl (ha.append hb.2.last)⟩
  | jump jump line => exact .complainIf (.pure ⟨rfl, .cons rfl .nil⟩)
  | function name params body =>
    have body' := bindStmts_finds ((((p.declare name).child 0).function params body).child 0) body
      fun x hx => h x (by simp [stmtNodes, hx])
    refine (Finds.declareAndDefine name).behind fun _ =>
      (Finds.inFunction (p := (p.declare name).child 0) Enclosing.noConfusion body'.entered
        (Position.function_inner _ _ _ _ _)).child.bind fun a => .pure ?_
    rintro found ⟨names, ha⟩
    refine ⟨rfl, .cons rfl (.cons rfl ?_)⟩
    simpa only [Position.function, names] using ha.last
  | return_ line value =>
    cases value with
    | none => exact .complainIf (.pure ⟨rfl, .cons rfl .nil⟩)
    | some e =>
      have e := bindExpr_finds (p.child 0) e fun x hx => h x (by simp [stmtNodes, hx])
      exact .complainIf (.complainIf (e.child.bind fun a =>
        .pure fun found ha => ⟨rfl, .cons rfl ha.last⟩))
  | class_ name methods =>
    have methods' := bindMethods_finds ((p.declare name).class_.child 0) methods
      fun x hx => h x (by simp [stmtNodes, hx])
    exact (Finds.inClass methods'.child ⟨⟨_, rfl⟩, rfl, rfl, rfl⟩).bind fun a =>
      .pure fun found ha => ⟨rfl, .cons rfl ha.last⟩

theorem bindStmts_finds (p : Position) (ss : List RawStmt) (h : ∀ x ∈ stmtsNodes p ss, x.2.Plain) :
    Finds p (p.afterAll ss) (bindStmts ss) fun a found =>
      declaredNames a = declaredNames ss ∧ Listed (stmtsNodes p a) found := by
  cases ss with
  | nil => exact .pure ⟨rfl, .nil⟩
  | cons s ss =>
    have first := bindStmt_finds (p.child 0) s fun x hx => h x (by simp [stmtsNodes, hx])
    have others := bindStmts_finds ((p.after s).child 1) ss fun x hx =>
      h x (by simp [stmtsNodes, hx])
    rw [Position.after_child] at first
    rw [Position.afterAll_child] at others
    refine first.child.bind fun a => others.child.bind fun b => .pure ?_
    rintro found ⟨names, hb⟩ found' ⟨name, ha⟩
    refine ⟨?_, ha.append ?_⟩
    · simp only [declaredNames, List.filterMap_cons, name] at names ⊢
      rw [names]
    · simpa only [Position.after, name] using hb.last

theorem bindMethods_finds (p : Position) (ms : List RawMethod)
    (h : ∀ x ∈ methodsNodes p ms, x.2.Plain) :
    Finds p p (bindMethods ms) fun a found => Listed (methodsNodes p a) found := by
  cases ms with
  | nil => exact .pure .nil
  | cons m ms =>
    cases m with
    | mk name params body =>
      have body' := bindStmts_finds (((p.child 0).function params body).child 0) body
        fun x hx => h x (by simp [methodsNodes, hx])
      have others := bindMethods_finds (p.child 1) ms fun x hx => h x (by simp [methodsNodes, hx])
      have some : methodEnclosing name ≠ .none := by
        unfold methodEnclosing
        split <;> exact Enclosing.noConfusion
      refine (Finds.inFunction (p := p.child 0) some body'.entered
        (Position.function_inner _ _ _ _ _)).child.bind fun a => others.child.bind fun b => .pure ?_
      rintro found hb found' ⟨names, ha⟩
      refine .cons rfl (.append ?_ hb.last)
      simpa only [Position.function, names] using ha

end

/-- The innermost scope around a place of which this is so, with its distance. -/
def Position.Innermost (p : Position) (P : Layer → Prop) (distance : Nat) : Prop :=
  ∃ l, p.layers[distance]? = some l ∧ P l ∧
    ∀ i < distance, ∀ k, p.layers[i]? = some k → ¬ P k

theorem site_iff_innermost (p : Position) (key : String) (distance : Nat) :
    p.site key = .local_ distance ↔ p.Innermost (fun l => l.holds key = true) distance := by
  have found : p.site key = .local_ distance ↔ p.distance? key = some distance := by
    unfold Position.site
    cases p.distance? key <;> simp
  rw [found, Position.distance?, List.findIdx?_eq_some_iff_getElem]
  constructor
  · rintro ⟨hlt, hl, before⟩
    refine ⟨_, List.getElem?_eq_getElem hlt, hl, fun i hi k hk => ?_⟩
    rw [List.getElem?_eq_getElem (Nat.lt_trans hi hlt)] at hk
    cases hk
    exact before i hi
  · rintro ⟨l, hl, holds, before⟩
    obtain ⟨hlt, rfl⟩ := List.getElem?_eq_some_iff.mp hl
    exact ⟨hlt, holds, fun i hi => before i hi _ (List.getElem?_eq_getElem (Nat.lt_trans hi hlt))⟩

/-- A use refers to a scope by the text alone: a name to the innermost scope that contains it, the
instance to that of the innermost class. The scopes around contain what was declared so far. -/
structure Sited (x : Position × Node Site) : Prop where
  named : ∀ use name site, x.2.use? = some (use, name, site) → use ≠ .this → ∀ distance,
    site = .local_ distance ↔ x.1.Innermost (fun l => l.holds name.text = true) distance
  instance_ : ∀ name site, x.2.use? = some (.this, name, site) → ∀ distance,
    site = .local_ distance ↔ x.1.Innermost Layer.IsClass distance
  scopes : x.2.use?.isSome = true → ∀ l ∈ x.1.layers, l.Lists [x]

theorem use?_this {n : Node Site} {name : Name} {site : Site}
    (h : n.use? = some (.this, name, site)) : name.text = thisName.text := by
  unfold Node.use? at h
  split at h <;> cases h
  rfl

/-- A use that is resolved where its scopes are seen has its site. -/
theorem Resolved.sited {x : Position × Node Site} (h : Resolved x) (seen : Seen x) : Sited x where
  named use name site hu hn distance := by
    rw [h use name site hu, if_neg fun hc => hn hc.1]
    exact site_iff_innermost _ _ _
  instance_ name site hu distance := by
    have sees := seen (by rw [hu]; rfl)
    have same : x.1.Innermost (fun l => l.holds thisName.text = true) distance ↔
        x.1.Innermost Layer.IsClass distance := by
      have each (i : Nat) (l : Layer) (hl : x.1.layers[i]? = some l) :
          l.holds thisName.text = true ↔ l.IsClass := sees.receives l (List.mem_of_getElem? hl)
      constructor
      · rintro ⟨l, hl, hc, before⟩
        exact ⟨l, hl, (each _ l hl).mp hc, fun i hi k hk => mt (each i k hk).mpr (before i hi k hk)⟩
      · rintro ⟨l, hl, hc, before⟩
        exact ⟨l, hl, (each _ l hl).mpr hc, fun i hi k hk => mt (each i k hk).mp (before i hi k hk)⟩
    rw [h .this name site hu, use?_this hu, ← same]
    by_cases outside : x.1.inClass = false
    · rw [if_pos ⟨rfl, outside⟩]
      refine ⟨nofun, fun inner => ?_⟩
      obtain ⟨l, hl, hc, -⟩ := same.mp inner
      have := sees.inClass.mp ⟨l, List.mem_of_getElem? hl, hc⟩
      rw [outside] at this
      cases this
    · rw [if_neg fun hc => outside hc.2]
      exact site_iff_innermost _ _ _
  scopes hu := (seen hu).lists

/-- The nodes of a program are usual as it is read. -/
theorem readProgram_usual (number : Nat) (tokens : List Token) (endLine : Nat)
    (names : ∀ t ∈ tokens, t.kind = .name → t.lexeme ≠ Keyword.this_.spelling) :
    ∀ x ∈ programNodes number (readProgram tokens endLine).statements, Node.Usual x := by
  intro x hx
  refine ⟨(readProgram_held tokens endLine ⟨"", 0⟩).plain (.top number) x hx, fun m hm this => ?_⟩
  have held : 0 < namesOf m (programNodes number (readProgram tokens endLine).statements) :=
    List.count_pos_iff.mpr (List.mem_flatMap.mpr ⟨x, hx, hm⟩)
  have taken := (readProgram_held tokens endLine m).names (.top number)
  obtain ⟨t, ht, hk, rfl⟩ := mem_of_tokensOf (Nat.lt_of_lt_of_le held taken)
  exact names t ht hk this

theorem usual_of_read_numbered (number : Nat) (tokens : List Token) (endLine : Nat)
    (names : ∀ t ∈ tokens, t.kind = .name → t.lexeme ≠ Keyword.this_.spelling) :
    ∀ x ∈ programNodes number (bindProgram (readProgram tokens endLine).statements).statements,
      Node.Usual x := by
  intro x hx
  have raw : sitedAt unsited x ∈ programNodes number (readProgram tokens endLine).statements := by
    rw [← bindProgram_unsited (readProgram tokens endLine).statements, programNodes,
      stmtsNodes_site]
    exact List.mem_map_of_mem hx
  have usual := readProgram_usual number tokens endLine names _ raw
  refine ⟨(plain_sited unsited x.2).mp usual.plain, fun m hm => usual.names m ?_⟩
  rw [sitedAt, names_sited]
  exact hm

theorem usual_of_read (tokens : List Token) (endLine : Nat)
    (names : ∀ t ∈ tokens, t.kind = .name → t.lexeme ≠ Keyword.this_.spelling) :
    ∀ x ∈ programNodes 0 (bindProgram (readProgram tokens endLine).statements).statements,
      Node.Usual x := usual_of_read_numbered 0 tokens endLine names

def outermost : Context := ⟨[], .none, false, 0, [], []⟩

theorem fits_outermost : Fits .identity (.top 0) outermost outermost :=
  ⟨.nil, ⟨fun h => absurd rfl h, nofun⟩, ⟨fun h => absurd rfl h, nofun⟩, rfl, rfl, rfl, rfl, rfl,
    rfl⟩

theorem afterAll_outermost {p : Position} (ss : List (Stmt β)) (h : p.layers = []) :
    (p.afterAll ss).layers = [] := by
  induction ss generalizing p with
  | nil => exact h
  | cons s ss ih =>
    refine ih (p := p.after s) ?_
    unfold Position.after
    split
    · simp only [Position.declare, Position.onInner, h]
    · exact h

theorem scopes_outermost {p : Position} {s t : Context} (h : Fits .identity p s t)
    (outermost : p.layers = []) : s.scopes = [] := by
  have fit := h.scopes
  rw [outermost] at fit
  generalize s.scopes = scopes, t.scopes = scopes' at fit ⊢
  cases fit
  rfl

/-- Binding a program that was read, complained of or not, is lexical scoping. The tree stays as it
was read, every use has the site that the text gives it, the uses that refer to scopes are listed,
each once and nothing else, and no scope is left over. -/
theorem bindProgram_sites (tokens : List Token) (endLine : Nat)
    (names : ∀ t ∈ tokens, t.kind = .name → t.lexeme ≠ Keyword.this_.spelling) :
    let program := (readProgram tokens endLine).statements
    let bound := bindProgram program
    siteStmts unsited bound.statements = program ∧
      (∀ x ∈ programNodes 0 bound.statements, Sited x) ∧
      bound.occurrences.Perm ((programNodes 0 bound.statements).filterMap occurrence?) ∧
      ((bindStmts program).run outermost).run.2.scopes = [] := by
  intro program bound
  have plain := (readProgram_held tokens endLine ⟨"", 0⟩).plain (.top 0)
  obtain ⟨fits, kept, found, listed, -, hf⟩ :=
    bindStmts_finds (.top 0) program plain _ fits_outermost
  have usual := usual_of_read tokens endLine names
  have seen := programNodes_seen 0 bound.statements usual
  refine ⟨bindProgram_unsited program, fun x hx => (hf.resolved x hx).sited (seen x hx), ?_, ?_⟩
  · have same : bound.occurrences = found := listed
    rw [same]
    exact hf.perm
  · exact scopes_outermost fits (afterAll_outermost program rfl)

/-- The tokens of `class A { f(a) { return this; } } print a;`. -/
def receiving : List Token :=
  [keywordAt .class_ 1, nameToken ⟨"A", 1⟩, symbolAt .leftBrace 1, nameToken ⟨"f", 1⟩,
    symbolAt .leftParen 1, nameToken ⟨"a", 1⟩, symbolAt .rightParen 1, symbolAt .leftBrace 1,
    keywordAt .return_ 1, keywordAt .this_ 1, symbolAt .semicolon 1, symbolAt .rightBrace 1,
    symbolAt .rightBrace 1, keywordAt .print_ 1, nameToken ⟨"a", 1⟩, symbolAt .semicolon 1]

theorem bindProgram_sites_receiving :
    (∀ t ∈ receiving, t.kind = .name → t.lexeme ≠ Keyword.this_.spelling) ∧
      (bindProgram (readProgram receiving 1).statements).occurrences.Perm
        ((programNodes 0 (bindProgram (readProgram receiving 1).statements).statements).filterMap
          occurrence?) := by
  have names : ∀ t ∈ receiving, t.kind = .name → t.lexeme ≠ Keyword.this_.spelling := by decide
  exact ⟨names, (bindProgram_sites receiving 1 names).2.2.1⟩

end Lexical

end Script
