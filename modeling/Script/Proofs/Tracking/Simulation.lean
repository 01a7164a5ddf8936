import Script.Proofs.Tracking.Operations

/-! The simulation of a run by the tracked run of a program whose uses are scoped.
It is carried by an induction over the fuel, for all the functions of the evaluation at once. -/
namespace Script

open Lexical Moment

variable (ρ : Renaming) (G : Position × Node Site → Prop)

/-- A statement at a place is followed, and what it declares is visible behind it. -/
abbrev Executed (fuel room : Nat) (p : Position) (s : BoundStmt) : Prop :=
  Follows ρ G p.inLoop p.inFunction (Moment.At p.layers) (tracking.execute fuel room p s)
    (Run.execute fuel room (translateStmt ρ (fun site => site) s))
    fun _ _ t => t.At (p.after s).layers

structure Simulated (fuel : Nat) : Prop where
  evaluate : ∀ room p e, (∀ x ∈ exprNodes p e, G x) →
    Follows ρ G false false (Moment.At p.layers) (tracking.evaluate fuel room p e)
      (Run.evaluate fuel room (translateExpr ρ (fun site => site) e)) Same
  evaluateAll : ∀ room p es, (∀ x ∈ exprsNodes p es, G x) →
    Follows ρ G false false (Moment.At p.layers) (tracking.evaluateAll fuel room p es)
      (Run.evaluateAll fuel room (translateExprs ρ (fun site => site) es)) Same
  call : ∀ room q c given line, given.length = c.arity →
    Follows ρ G false false (fun t => c.Sound ρ G t q) (tracking.call fuel room q c given line)
      (Run.call fuel room (c.renamed ρ) given (ρ.line line)) Same
  enter : ∀ room q (c : Closure) given line, given.length = c.params.length →
    Follows ρ G false false (fun t => c.Sound ρ G t q) (tracking.enter fuel room q c given line)
      (Run.enter fuel room (ρ.closure c) given (ρ.line line)) Same
  execute : ∀ room p s, (∀ x ∈ stmtNodes p s, G x) → Executed ρ G fuel room p s
  executeAll : ∀ room p ss, (∀ x ∈ stmtsNodes p ss, G x) →
    Follows ρ G p.inLoop p.inFunction (Moment.At p.layers) (tracking.executeAll fuel room p ss)
      (Run.executeAll fuel room (translateStmts ρ (fun site => site) ss)) Same
  loop : ∀ room p condition body, (∀ x ∈ stmtNodes p (.while_ condition body), G x) →
    Follows ρ G p.inLoop p.inFunction (Moment.At p.layers)
      (tracking.loop fuel room p condition body)
      (Run.loop fuel room (translateExpr ρ (fun site => site) condition)
        (translateStmt ρ (fun site => site) body)) Same

namespace Simulated

theorem zero : Simulated ρ G 0 where
  evaluate _ _ _ _ := Follows.exit trivial rfl
  evaluateAll _ _ _ _ := Follows.exit trivial rfl
  call _ _ _ _ _ _ := Follows.exit trivial rfl
  enter _ _ _ _ _ _ := Follows.exit trivial rfl
  execute _ _ _ _ := Follows.exit trivial rfl
  executeAll _ _ _ _ := Follows.exit trivial rfl
  loop _ _ _ _ _ := Follows.exit trivial rfl

variable {ρ G} {fuel : Nat}

theorem evaluate_succ (known : ∀ x, G x → Scoped x ∧ Respected ρ x) (ih : Simulated ρ G fuel)
    (room : Nat) (p : Position) (e : BoundExpr) (h : ∀ x ∈ exprNodes p e, G x) :
    Follows ρ G false false (Moment.At p.layers) (tracking.evaluate (fuel + 1) room p e)
      (Run.evaluate (fuel + 1) room (translateExpr ρ (fun site => site) e)) Same := by
  have stable := stable_at p.layers
  cases e with
  | literal value => exact .pure fun _ _ => rfl
  | grouping inner => exact ih.evaluate room (p.child 0) inner fun x hx => h x (by simp [exprNodes, hx])
  | «variable» name site =>
    have node := h (p, .expr (.variable name site)) (by simp [exprNodes])
    exact .load Use.noConfusion ⟨⟨_, node, rfl⟩, (known _ node).1, (known _ node).2⟩ (.absent name)
  | assign name site value =>
    have node := h (p, .expr (.assign name site value)) (by simp [exprNodes])
    have value := ih.evaluate room (p.child 0) value fun x hx => h x (by simp [exprNodes, hx])
    exact value.bind_same stable fun v =>
      (Follows.store ⟨⟨_, node, rfl⟩, (known _ node).1, (known _ node).2⟩).bind_same stable fun _ =>
        .pure fun _ _ => rfl
  | this line site =>
    have node := h (p, .expr (.this line site)) (by simp [exprNodes])
    exact .load Use.noConfusion ⟨⟨_, node, rfl⟩, (known _ node).1.2, (known _ node).2⟩
      (.same (.absent (.name thisName.text)))
  | unary op line operand =>
    have operand := ih.evaluate room (p.child 0) operand fun x hx => h x (by simp [exprNodes, hx])
    exact operand.bind_same stable fun v => .ofExcept _
  | binary left op line right =>
    have left := ih.evaluate room (p.child 0) left fun x hx => h x (by simp [exprNodes, hx])
    have right := ih.evaluate room (p.child 1) right fun x hx => h x (by simp [exprNodes, hx])
    exact left.bind_same stable fun a => right.bind_same stable fun b => .ofExcept _
  | logical left op line right =>
    have left := ih.evaluate room (p.child 0) left fun x hx => h x (by simp [exprNodes, hx])
    have right := ih.evaluate room (p.child 1) right fun x hx => h x (by simp [exprNodes, hx])
    refine left.bind_same stable fun a => ?_
    cases op <;> cases a.isTruthy
    · exact .pure fun _ _ => rfl
    · exact right
    · exact right
    · exact .pure fun _ _ => rfl
  | ternary condition yes no =>
    have condition := ih.evaluate room (p.child 0) condition fun x hx => h x (by simp [exprNodes, hx])
    have yes := ih.evaluate room (p.child 1) yes fun x hx => h x (by simp [exprNodes, hx])
    have no := ih.evaluate room (p.child 2) no fun x hx => h x (by simp [exprNodes, hx])
    refine condition.bind_same stable fun c => ?_
    cases c.isTruthy
    · exact no
    · exact yes
  | sequence earlier last =>
    have earlier := ih.evaluate room (p.child 0) earlier fun x hx => h x (by simp [exprNodes, hx])
    have last := ih.evaluate room (p.child 1) last fun x hx => h x (by simp [exprNodes, hx])
    exact earlier.bind_same stable fun _ => last
  | call callee line arguments =>
    have callee := ih.evaluate room (p.child 0) callee fun x hx => h x (by simp [exprNodes, hx])
    have arguments := ih.evaluateAll room (p.child 1) arguments fun x hx =>
      h x (by simp [exprNodes, hx])
    refine callee.bind_same stable fun value => arguments.bind_same stable fun given => ?_
    exact .callee_bind fun c q arity => (ih.call room q c given line arity).pre fun _ ht => ht.2
  | get object property =>
    have node := h (p, .expr (.get object property)) (by simp [exprNodes])
    have object := ih.evaluate room (p.child 0) object fun x hx => h x (by simp [exprNodes, hx])
    exact object.bind_same stable fun o => .property (known _ node).2
  | set object property value =>
    have node := h (p, .expr (.set object property value)) (by simp [exprNodes])
    have object := ih.evaluate room (p.child 0) object fun x hx => h x (by simp [exprNodes, hx])
    have value := ih.evaluate room (p.child 1) value fun x hx => h x (by simp [exprNodes, hx])
    have key : ρ.text property = property.text := (known _ node).2
    refine object.bind_same stable fun o => Follows.fieldOwner.bind_same stable fun ref =>
      value.bind_same stable fun v => ?_
    simp only [Renaming.name, key]
    exact Follows.setField.bind_same stable fun _ => .pure fun _ _ => rfl
  | function params body =>
    refine .currentFrame_bind fun frame => ?_
    refine .makeFunction (c := ⟨none, params, body, frame, false⟩) fun t ht => ⟨?_, ?_, ?_⟩
    · exact ht.2 ▸ ht.1
    · exact fun x hx => h x (List.mem_cons_of_mem _ hx)
    · exact fun h => by cases h

theorem evaluateAll_succ (ih : Simulated ρ G fuel) (room : Nat) (p : Position)
    (es : List BoundExpr) (h : ∀ x ∈ exprsNodes p es, G x) :
    Follows ρ G false false (Moment.At p.layers) (tracking.evaluateAll (fuel + 1) room p es)
      (Run.evaluateAll (fuel + 1) room (translateExprs ρ (fun site => site) es)) Same := by
  have stable := stable_at p.layers
  cases es with
  | nil => exact .pure fun _ _ => rfl
  | cons e es =>
    have first := ih.evaluate room (p.child 0) e fun x hx => h x (by simp [exprsNodes, hx])
    have others := ih.evaluateAll room (p.child 1) es fun x hx => h x (by simp [exprsNodes, hx])
    exact first.bind_same stable fun v => others.bind_same stable fun vs => .pure fun _ _ => rfl

theorem call_succ (ih : Simulated ρ G fuel) (room : Nat) (q : Position) (c : Machine.Callee)
    (given : List Value) (line : Nat) (arity : given.length = c.arity) :
    Follows ρ G false false (fun t => c.Sound ρ G t q)
      (tracking.call (fuel + 1) room q c given line)
      (Run.call (fuel + 1) room (c.renamed ρ) given (ρ.line line)) Same := by
  cases c with
  | native n => cases n; exact .readClock
  | function c => exact ih.enter room q c given line arity
  | class_ ref c =>
    have stable : Stable fun t => c.Sound ρ G t q := fun _ _ he _ hc => Class.Sound.extend hc he
    refine Follows.makeInstance.bind_same stable fun made => ?_
    intro t m hs hr hc
    have hc : c.Sound ρ G t.toMoment q := hc
    have found : c.method? initializerName = _ :=
      (methodPosition_find? (q.class_.child 0) initializerName c.methods).symm
    have renamed := Follows.method?_klass hc.names initializerName (q.class_.child 0)
    simp only [Machine.Callee.arity, found] at arity
    simp only [renamed]
    cases hm : methodPosition (q.class_.child 0) initializerName c.methods with
    | none =>
      rw [show tracking.method? q made initializerName c = none from hm]
      exact .ok (.refl hs hr) rfl
    | some found =>
      obtain ⟨code, method⟩ := found
      rw [hm] at arity
      rw [show tracking.method? q made initializerName c = some (code, method) from hm]
      have bound : Follows ρ G false false (fun t' => c.Sound ρ G t' q)
          (TrackedRun.bindMethod q c method made)
          (Run.bindMethod (ρ.klass c) (translateMethod ρ (fun site => site) method) made) _ :=
        .bindMethod (fun _ hc => hc) hm
      refine (bound.bind stable fun closure closure' => ?_) t m hs hr hc
      rintro t m hs hr ⟨_, rfl, hclosure, params⟩
      have entered := ih.enter room code closure given line (by rw [params]; exact arity)
      exact (entered.bind_same (fun _ _ he _ hc => Closure.Sound.extend hc he)
        fun _ => .pure fun _ _ => rfl) t m hs hr hclosure

theorem bindings_renamed {params : List Name} {key : String → String}
    (inj : ∀ a b, key a = key b → a = b) (h : ∀ n ∈ params, ρ.text n = key n.text)
    (given : List Value) :
    Bindings.setAll [] (((params.map ρ.name).map Name.text).zip given) =
      Bindings.mapKeys key (Bindings.setAll [] ((params.map Name.text).zip given)) := by
  have texts : (params.map ρ.name).map Name.text = (params.map Name.text).map key := by
    rw [List.map_map, List.map_map]
    exact List.map_congr_left h
  rw [texts, List.zip_map_left, ← Bindings.setAll_mapKeys inj]
  rfl

theorem enter_succ (known : ∀ x, G x → Scoped x ∧ Respected ρ x) (ih : Simulated ρ G fuel)
    (room : Nat) (q : Position) (c : Closure) (given : List Value) (line : Nat)
    (arity : given.length = c.params.length) :
    Follows ρ G false false (fun t => c.Sound ρ G t q)
      (tracking.enter (fuel + 1) room q c given line)
      (Run.enter (fuel + 1) room (ρ.closure c) given (ρ.line line)) Same := by
  cases room with
  | zero => exact .fail
  | succ room =>
    have stable : Stable fun t => c.Sound ρ G t q := fun _ _ he _ hc => Closure.Sound.extend hc he
    intro t m hs hr hc
    have hc : c.Sound ρ G t.toMoment q := hc
    have respected : ∀ n ∈ c.params, ρ.text n = _ :=
      (known _ (hc.code (q, .code c.params c.body) List.mem_cons_self)).2
    have keys : ((c.params.map Name.text).zip given).map Prod.fst = c.params.map Name.text :=
      List.map_fst_zip (Nat.le_of_eq (by rw [List.length_map, arity]))
    have opened : Follows ρ G false false (fun t => c.Sound ρ G t q) _ _ _ := .openFrame
      ⟨q.path, c.params, declaredNames c.body⟩ q.layers c.frame
      (Bindings.setAll [] ((c.params.map Name.text).zip given))
      (fun _ hc => Closure.Sound.aligned hc)
      (fun k hk => by
        rcases Bindings.mem_of_find?_setAll_ne_none _ _ _ hk with h | h
        · exact absurd rfl h
        · rwa [keys] at h)
      (fun n hn => Bindings.find?_setAll_ne_none _ _ _
        (.inr (by rw [keys]; exact List.mem_map_of_mem hn)))
    rw [← bindings_renamed (ρ.key_injective _) respected given] at opened
    show Ends ρ G _ _ _ t ((TrackedRun.openFrame ⟨q.path, c.params, declaredNames c.body⟩ c.frame _ >>=
      fun frame => tracking.returning q (tracking.within frame (tracking.executeAll fuel room _ _)) >>=
      fun v => if c.isInitializer then tracking.receiver q c.frame else pure v) t) _
    refine (opened.bind stable fun frame frame' => ?_) t m hs hr hc
    rintro t m hs hr ⟨hc, rfl, aligned⟩
    have body := ih.executeAll room ((q.function c.params c.body).child 0) c.body
      fun x hx => hc.code x (List.mem_cons_of_mem _ hx)
    have ran : Follows ρ G false true (fun t => c.Sound ρ G t q ∧
        t.Aligned ((q.function c.params c.body).child 0).layers frame) _ _ Same :=
      body.within frame fun t ht => ht.2.extend (.of_same rfl rfl)
    refine (ran.returning.bind_same (stable.and (stable_aligned _ _)) fun v => ?_) t m hs hr
      ⟨hc, aligned⟩
    show Follows ρ G false false _ (if c.isInitializer = true then _ else _)
      (if c.isInitializer = true then _ else _) Same
    by_cases hi : c.isInitializer = true
    · simp only [if_pos hi]
      exact (Follows.receiver hi).pre fun _ ht => ht.1
    · simp only [if_neg hi]
      exact .pure fun _ _ => rfl

theorem at_pend {p : Position} {t : Moment} (name : Name) (h : t.At p.layers) :
    t.At (p.pend name).layers := by
  unfold Moment.At at h ⊢
  unfold Position.pend Position.onInner
  cases hl : p.layers with
  | nil => rwa [hl] at h
  | cons l outer => rw [hl] at h; exact h

theorem opened {inLoop inFunction : Bool} {p : Position} {locals : List Name} {frame : Nat}
    {x : TrackedRun Unit} {y : Run Unit} (stable : Stable (Moment.At p.layers))
    (h : Follows ρ G inLoop inFunction (Moment.At (p.opened [] locals).layers) x y Same) :
    Follows ρ G inLoop inFunction (fun t => t.At p.layers ∧ t.machine.current = frame)
      (TrackedRun.openFrame ⟨p.path, [], locals⟩ frame [] >>= fun f => tracking.within f x)
      (Run.openFrame frame [] >>= fun f => Run.within f y) Same := by
  have frames : Follows ρ G inLoop inFunction
      (fun t => t.At p.layers ∧ t.machine.current = frame) _ _ _ :=
    .openFrame ⟨p.path, [], locals⟩ p.layers frame [] (fun _ ht => ht.2 ▸ ht.1)
    (fun _ hk => absurd rfl hk) fun _ hn => by cases hn
  refine Follows.bind frames (stable.and fun _ _ _ hc ht => hc.trans ht) fun f f' => ?_
  have inside : Follows ρ G inLoop inFunction
      (fun t => t.Aligned (p.opened [] locals).layers f) _ _ Same :=
    h.within f fun t ht => ht.extend (.of_same rfl rfl)
  rintro t m hs hr ⟨_, rfl, aligned⟩
  exact inside t m hs hr aligned

/-- What declares nothing leaves the place as it is. -/
theorem stays {p : Position} {inLoop inFunction : Bool} {x : TrackedRun Unit} {y : Run Unit}
    (h : Follows ρ G inLoop inFunction (Moment.At p.layers) x y Same) :
    Follows ρ G inLoop inFunction (Moment.At p.layers) x y fun _ _ t => t.At p.layers := by
  intro t m hs hr hp
  have he := h t m hs hr hp
  generalize x t = rx at he ⊢
  generalize y m = ry at he ⊢
  cases he with
  | ok kept _ => exact .ok kept (stable_at _ _ _ kept.extends_ kept.current hp)
  | error kept allowed renamed => exact .error kept allowed renamed

section

variable (known : ∀ x, G x → Scoped x ∧ Respected ρ x) (ih : Simulated ρ G fuel) (room : Nat)
  (p : Position)

include known ih in
theorem execute_var (name : Name) (initial : Option BoundExpr)
    (h : ∀ x ∈ stmtNodes p (.var name initial), G x) :
    Executed ρ G (fuel + 1) room p (.var name initial) := by
  have node := h (p, .stmt (.var name initial)) (by cases initial <;> simp [stmtNodes])
  cases initial with
  | none => exact .define (known _ node).2
  | some e =>
    have e := ih.evaluate room ((p.pend name).child 0) e fun x hx => h x (by simp [stmtNodes, hx])
    exact (e.pre fun t ht => at_pend name ht).anywhere.bind_same (stable_at _) fun v =>
      .define (known _ node).2

include ih in
theorem execute_step (body : BoundStmt) (increment : BoundExpr)
    (h : ∀ x ∈ stmtNodes p (.step body increment), G x) :
    Executed ρ G (fuel + 1) room p (.step body increment) := by
  have body := ih.execute room ((p.opened [] []).child 0) body fun x hx =>
    h x (by simp [stmtNodes, hx])
  have increment := ih.evaluate room ((p.opened [] []).child 1) increment fun x hx =>
    h x (by simp [stmtNodes, hx])
  exact stays (.currentFrame_bind fun frame => opened (stable_at _)
    (body.ignoring.continuing.bind_same (stable_at _) fun _ =>
      increment.anywhere.bind_same (stable_at _) fun _ => .pure fun _ _ => rfl))

include ih in
theorem execute_if (condition : BoundExpr) (yes : BoundStmt) (no : Option BoundStmt)
    (h : ∀ x ∈ stmtNodes p (.if_ condition yes no), G x) :
    Executed ρ G (fuel + 1) room p (.if_ condition yes no) := by
  have head := ih.evaluate room (p.child 0) condition fun x hx => h x (by
    cases no <;> simp [stmtNodes, hx])
  have first := ih.execute room (p.child 1) yes fun x hx => h x (by
    cases no <;> simp [stmtNodes, hx])
  have stable := stable_at p.layers
  cases no with
  | none =>
    refine stays (head.anywhere.bind_same stable fun c => ?_)
    cases c.isTruthy
    · exact .pure fun _ _ => rfl
    · exact first.ignoring
  | some no =>
    have second := ih.execute room (p.child 2) no fun x hx => h x (by simp [stmtNodes, hx])
    refine stays (head.anywhere.bind_same stable fun c => ?_)
    cases c.isTruthy
    · exact second.ignoring
    · exact first.ignoring

include known in
theorem execute_function (name : Name) (params : List Name) (body : List BoundStmt)
    (h : ∀ x ∈ stmtNodes p (.function name params body), G x) :
    Executed ρ G (fuel + 1) room p (.function name params body) := by
  have node := h (p, .stmt (.function name params body)) (by simp [stmtNodes])
  obtain ⟨text, declared⟩ := (known _ node).2
  refine .currentFrame_bind fun frame => ?_
  have result : Follows ρ G p.inLoop p.inFunction _ _ _ _ := .declareFunction
    ((p.declare name).child 0) ⟨some name.text, params, body, frame, false⟩ declared rfl
    (fun x hx => h x (List.mem_cons_of_mem _ hx)) rfl
  rw [show ρ.closure ⟨some name.text, params, body, frame, false⟩ =
    ⟨some (ρ.text name), params.map ρ.name, ρ.stmts body, frame, false⟩ by rw [text]; rfl] at result
  exact result

include known ih in
theorem execute_return (line : Nat) (value : Option BoundExpr)
    (h : ∀ x ∈ stmtNodes p (.return_ line value), G x) :
    Executed ρ G (fuel + 1) room p (.return_ line value) := by
  have node := h (p, .stmt (.return_ line value)) (by cases value <;> simp [stmtNodes])
  cases value with
  | none => exact stays (.exit (known _ node).1 rfl)
  | some e =>
    have e := ih.evaluate room (p.child 0) e fun x hx => h x (by simp [stmtNodes, hx])
    exact stays (e.anywhere.bind_same (stable_at _) fun v => .exit (known _ node).1 rfl)

include known in
theorem execute_class (name : Name) (methods : List BoundMethod)
    (h : ∀ x ∈ stmtNodes p (.class_ name methods), G x) :
    Executed ρ G (fuel + 1) room p (.class_ name methods) := by
  have node := h (p, .stmt (.class_ name methods)) (by simp [stmtNodes])
  obtain ⟨text, declared, names, receiver⟩ := (known _ node).2
  refine .currentFrame_bind fun frame => ?_
  have result : Follows ρ G p.inLoop p.inFunction _ _ _ _ := .declareClass
    ⟨name.text, methods, frame⟩ declared
    (fun x hx => h x (List.mem_cons_of_mem _ hx)) names receiver
  rw [show ρ.klass ⟨name.text, methods, frame⟩ =
    ⟨ρ.text name, translateMethods ρ (fun site => site) methods, frame⟩ by rw [text]; rfl] at result
  exact result

include known ih in
theorem execute_succ (s : BoundStmt) (h : ∀ x ∈ stmtNodes p s, G x) :
    Executed ρ G (fuel + 1) room p s := by
  cases s with
  | expression e =>
    have e := ih.evaluate room (p.child 0) e fun x hx => h x (by simp [stmtNodes, hx])
    exact stays (e.anywhere.bind_same (stable_at _) fun _ => .pure fun _ _ => rfl)
  | print e =>
    have e := ih.evaluate room (p.child 0) e fun x hx => h x (by simp [stmtNodes, hx])
    exact stays (e.anywhere.bind_same (stable_at _) fun _ => .print)
  | var name initial => exact execute_var known ih room p name initial h
  | block body =>
    have body := ih.executeAll room ((p.block body).child 0) body fun x hx =>
      h x (by simp [stmtNodes, hx])
    exact stays (.currentFrame_bind fun frame => opened (stable_at _) body)
  | step body increment => exact execute_step ih room p body increment h
  | if_ condition yes no => exact execute_if ih room p condition yes no h
  | while_ condition body => exact stays (ih.loop room p condition body h)
  | jump jump line =>
    have node := h (p, .stmt (.jump jump line)) (by simp [stmtNodes])
    exact stays (.exit (known _ node).1 rfl)
  | function name params body => exact execute_function known room p name params body h
  | return_ line value => exact execute_return known ih room p line value h
  | class_ name methods => exact execute_class known room p name methods h

end

theorem executeAll_succ (ih : Simulated ρ G fuel) (room : Nat) (p : Position)
    (ss : List BoundStmt) (h : ∀ x ∈ stmtsNodes p ss, G x) :
    Follows ρ G p.inLoop p.inFunction (Moment.At p.layers)
      (tracking.executeAll (fuel + 1) room p ss)
      (Run.executeAll (fuel + 1) room (translateStmts ρ (fun site => site) ss)) Same := by
  cases ss with
  | nil => exact .pure fun _ _ => rfl
  | cons s ss =>
    have first := ih.execute room (p.child 0) s fun x hx => h x (by simp [stmtsNodes, hx])
    have others := ih.executeAll room ((p.after s).child 1) ss fun x hx =>
      h x (by simp [stmtsNodes, hx])
    rw [show ((p.after s).child 1).inLoop = p.inLoop from Position.after_inLoop p s,
      show ((p.after s).child 1).inFunction = p.inFunction from Position.after_inFunction p s] at others
    refine Follows.bind first (stable_at _) fun _ _ => others.pre fun t ht => ?_
    have held := ht.2
    rwa [Position.after_child] at held

theorem loop_succ (ih : Simulated ρ G fuel) (room : Nat) (p : Position) (condition : BoundExpr)
    (body : BoundStmt) (h : ∀ x ∈ stmtNodes p (.while_ condition body), G x) :
    Follows ρ G p.inLoop p.inFunction (Moment.At p.layers)
      (tracking.loop (fuel + 1) room p condition body)
      (Run.loop (fuel + 1) room (translateExpr ρ (fun site => site) condition)
        (translateStmt ρ (fun site => site) body)) Same := by
  have head := ih.evaluate room (p.child 0) condition fun x hx => h x (by simp [stmtNodes, hx])
  have round := ih.execute room (p.loop.child 1) body fun x hx => h x (by simp [stmtNodes, hx])
  have again := ih.loop room p condition body h
  show Follows ρ G _ _ _ _ (Run.loop (fuel + 1) room (translateExpr ρ (fun site => site) condition)
    (translateStmt ρ (fun site => site) body)) Same
  rw [Run.loop_succ]
  refine head.anywhere.bind_same (stable_at _) fun c => ?_
  by_cases hc : c.isTruthy = true
  · simp only [if_pos hc]
    refine round.ignoring.goesOn.bind_same (stable_at _) fun on => ?_
    cases on
    · exact .pure fun _ _ => rfl
    · exact again
  · simp only [if_neg hc]
    exact .pure fun _ _ => rfl

/-- Whatever the fuel, a run is followed. -/
theorem all (known : ∀ x, G x → Scoped x ∧ Respected ρ x) (fuel : Nat) : Simulated ρ G fuel := by
  induction fuel with
  | zero => exact zero ρ G
  | succ fuel ih =>
    exact
      { evaluate := evaluate_succ known ih
        evaluateAll := evaluateAll_succ ih
        call := call_succ ih
        enter := enter_succ known ih
        execute := execute_succ known ih
        executeAll := executeAll_succ ih
        loop := loop_succ ih }

end Simulated

end Script
