import Script.Proofs.Observed.Upkeep

/-! Observed evaluation of known code.
An induction over the fuel, for all the functions of the evaluation at once. -/
namespace Script

open Lexical

namespace Lexical.Position

theorem path_after {β : Type} (p : Position) (s : Stmt β) : (p.after s).path = p.path := by
  unfold after
  split <;> rfl

end Lexical.Position

namespace Upkeep

variable {χ κ α β : Type} {o : Observer χ κ} {K : Upkeep o}

namespace Keeps

variable {x : χ} {p : Position} {z : ObservedRun χ κ α} {w : Run α}
  {Q : α → Observed χ κ → Prop}

theorem inside (i : Nat) (h : K.Keeps (K.Here (o.child i x) (p.child i)) z w Q) :
    K.Keeps (K.Here x p) z w Q := h.weaken fun _ here => K.child i here

theorem alike {q : Position} (h : K.Keeps (K.Here x q) z w Q) (path : p.path = q.path)
    (regions : p.layers.map Layer.region = q.layers.map Layer.region) :
    K.Keeps (K.Here x p) z w Q := h.weaken fun _ here => K.regions path regions here

theorem opened (locals : List Name) (h : K.Keeps (K.Here x (p.opened [] locals)) z w Anyhow) :
    K.Keeps (K.Here x p)
      (do
        let frame ← ObservedRun.lift (Run.openFrame (← ObservedRun.lift Run.currentFrame) [])
        o.instrument.within frame z)
      (do
        let frame ← Run.openFrame (← Run.currentFrame) []
        Run.within frame w) Anyhow := by
  refine .currentFrame_bind fun current => ?_
  have inFrame := (openFrame (x := x) locals current [] (List.forall_mem_nil _)).bind
    (lasts_there x p current) fun frame => (h.within frame).weaken fun _ pre => pre.2
  exact inFrame.weaken fun _ pre => pre.2 ▸ pre.1

/-- What a declaration makes at the running frame, bound there to the name it declares. -/
theorem declared {name : Name} (named : name.text ≠ thisName.text)
    {make : Nat → ObservedRun χ κ Value} {build : Nat → Run Value}
    (h : ∀ frame, K.Keeps (fun t => K.At t.machine.frames x (p.declare name) frame)
      (make frame) (build frame) Anyhow) :
    K.Keeps (K.Here x p)
      (ObservedRun.lift Run.currentFrame >>= fun frame => make frame >>= ObservedRun.define o name)
      (Run.currentFrame >>= fun frame => build frame >>= Run.define name.text) Anyhow := by
  refine currentFrame_bind fun frame => behind ((h frame).weaken fun t pre => ?_)
    (fun t t' later back pre => ⟨K.lasts_here x p t t' later back pre.1, back.trans pre.2⟩)
    fun v => define named v
  have here : K.At t.machine.frames x p frame := pre.2 ▸ pre.1
  exact K.regions (p := p) rfl (p.regions_declare name).symm here

end Keeps

variable (K)

structure Keeping (fuel : Nat) : Prop where
  evaluate : ∀ room x p e, (∀ n ∈ exprNodes p e, K.Good n) →
    K.Keeps (K.Here x p) (o.instrument.evaluate fuel room x e) (Run.evaluate fuel room e) Anyhow
  evaluateAll : ∀ room x p es, (∀ n ∈ exprsNodes p es, K.Good n) →
    K.Keeps (K.Here x p) (o.instrument.evaluateAll fuel room x es) (Run.evaluateAll fuel room es)
      Anyhow
  call : ∀ room y c given line, K.Keeps (fun t => K.Callee t.machine.frames y c)
    (o.instrument.call fuel room y c given line) (Run.call fuel room c given line) Anyhow
  enter : ∀ room y c given line, K.Keeps (fun t => K.Function t.machine.frames y c)
    (o.instrument.enter fuel room y c given line) (Run.enter fuel room c given line) Anyhow
  execute : ∀ room x p s, (∀ n ∈ stmtNodes p s, K.Good n) →
    K.Keeps (K.Here x p) (o.instrument.execute fuel room x s) (Run.execute fuel room s) Anyhow
  executeAll : ∀ room x p ss, (∀ n ∈ stmtsNodes p ss, K.Good n) →
    K.Keeps (K.Here x p) (o.instrument.executeAll fuel room x ss) (Run.executeAll fuel room ss)
      Anyhow
  loop : ∀ room x p condition body, (∀ n ∈ stmtNodes p (.while_ condition body), K.Good n) →
    K.Keeps (K.Here x p) (o.instrument.loop fuel room x condition body)
      (Run.loop fuel room condition body) Anyhow

variable {K}

namespace Keeping

theorem zero : K.Keeping 0 where
  evaluate _ _ _ _ _ := .exit
  evaluateAll _ _ _ _ _ := .exit
  call _ _ _ _ _ := .exit
  enter _ _ _ _ _ := .exit
  execute _ _ _ _ _ := .exit
  executeAll _ _ _ _ _ := .exit
  loop _ _ _ _ _ _ := .exit

variable {fuel : Nat}

theorem evaluate_succ (ih : K.Keeping fuel) (room : Nat) (x : χ) (p : Position) (e : BoundExpr)
    (good : ∀ n ∈ exprNodes p e, K.Good n) :
    K.Keeps (K.Here x p) (o.instrument.evaluate (fuel + 1) room x e)
      (Run.evaluate (fuel + 1) room e) Anyhow := by
  have lasts := K.lasts_here x p
  have part (i : Nat) (e : BoundExpr) (good : ∀ n ∈ exprNodes (p.child i) e, K.Good n) :
      K.Keeps (K.Here x p) (o.instrument.evaluate fuel room (o.child i x) e)
        (Run.evaluate fuel room e) Anyhow :=
    (ih.evaluate room (o.child i x) (p.child i) e good).inside i
  cases e with
  | literal value => exact .pure fun _ _ => trivial
  | grouping inner => exact part 0 inner fun n hn => good n (by simp [exprNodes, hn])
  | «variable» name site =>
    exact .load (good (p, .expr (.variable name site)) (by simp [exprNodes])) rfl
  | assign name site value =>
    have node := good (p, .expr (.assign name site value)) (by simp [exprNodes])
    have value := part 0 value fun n hn => good n (by simp [exprNodes, hn])
    have named := K.names node name (by simp [Node.names])
    exact value.behind lasts fun v => (Keeps.store node rfl named v).behind lasts fun _ =>
      .pure fun _ _ => trivial
  | this line site => exact .load (good (p, .expr (.this line site)) (by simp [exprNodes])) rfl
  | unary op line operand =>
    have operand := part 0 operand fun n hn => good n (by simp [exprNodes, hn])
    exact operand.behind lasts fun v => .ofExcept line _
  | binary left op line right =>
    have left := part 0 left fun n hn => good n (by simp [exprNodes, hn])
    have right := part 1 right fun n hn => good n (by simp [exprNodes, hn])
    exact left.behind lasts fun a => right.behind lasts fun b => .ofExcept line _
  | logical left op line right =>
    have left := part 0 left fun n hn => good n (by simp [exprNodes, hn])
    have right := part 1 right fun n hn => good n (by simp [exprNodes, hn])
    refine left.behind lasts fun a => ?_
    cases op <;> cases a.isTruthy
    · exact .pure fun _ _ => trivial
    · exact right
    · exact right
    · exact .pure fun _ _ => trivial
  | ternary condition yes no =>
    have condition := part 0 condition fun n hn => good n (by simp [exprNodes, hn])
    have yes := part 1 yes fun n hn => good n (by simp [exprNodes, hn])
    have no := part 2 no fun n hn => good n (by simp [exprNodes, hn])
    refine condition.behind lasts fun c => ?_
    cases c.isTruthy
    · exact no
    · exact yes
  | sequence earlier last =>
    have earlier := part 0 earlier fun n hn => good n (by simp [exprNodes, hn])
    have last := part 1 last fun n hn => good n (by simp [exprNodes, hn])
    exact earlier.behind lasts fun _ => last
  | call callee line arguments =>
    have callee := part 0 callee fun n hn => good n (by simp [exprNodes, hn])
    have arguments := (ih.evaluateAll room (o.child 1 x) (p.child 1) arguments fun n hn =>
      good n (by simp [exprNodes, hn])).inside 1
    exact callee.behind lasts fun value => arguments.behind lasts fun given =>
      .callee_bind value given.length line fun c y => ih.call room y c given line
  | get object name =>
    have object := part 0 object fun n hn => good n (by simp [exprNodes, hn])
    exact object.behind lasts fun v => .property v name
  | set object name value =>
    have object := part 0 object fun n hn => good n (by simp [exprNodes, hn])
    have value := part 1 value fun n hn => good n (by simp [exprNodes, hn])
    exact object.behind lasts fun i => (Keeps.fieldOwner i name).behind lasts fun ref =>
      value.behind lasts fun v => (Keeps.setField ref name.text v).behind lasts fun _ =>
        .pure fun _ _ => trivial
  | function params body =>
    refine .currentFrame_bind fun frame => (Keeps.makeFunction _).weaken fun t pre => ?_
    refine ⟨p.child 0, pre.2 ▸ K.child 0 pre.1, fun n hn => good n ?_, Bool.noConfusion⟩
    exact List.mem_cons_of_mem _ hn

theorem evaluateAll_succ (ih : K.Keeping fuel) (room : Nat) (x : χ) (p : Position)
    (es : List BoundExpr) (good : ∀ n ∈ exprsNodes p es, K.Good n) :
    K.Keeps (K.Here x p) (o.instrument.evaluateAll (fuel + 1) room x es)
      (Run.evaluateAll (fuel + 1) room es) Anyhow := by
  have lasts := K.lasts_here x p
  cases es with
  | nil => exact .pure fun _ _ => trivial
  | cons e es =>
    have first := (ih.evaluate room (o.child 0 x) (p.child 0) e fun n hn =>
      good n (by simp [exprsNodes, hn])).inside 0
    have others := (ih.evaluateAll room (o.child 1 x) (p.child 1) es fun n hn =>
      good n (by simp [exprsNodes, hn])).inside 1
    exact first.behind lasts fun v => others.behind lasts fun vs => .pure fun _ _ => trivial

theorem call_succ (ih : K.Keeping fuel) (room : Nat) (y : χ) (c : Machine.Callee)
    (given : List Value) (line : Nat) :
    K.Keeps (fun t => K.Callee t.machine.frames y c)
      (o.instrument.call (fuel + 1) room y c given line) (Run.call (fuel + 1) room c given line)
      Anyhow := by
  cases c with
  | native n => cases n; exact .readClock
  | function c => exact ih.enter room y c given line
  | class_ ref c =>
    refine (Keeps.makeInstance ref).bind (lasts_callee y _) fun made => ?_
    have same : c.method? initializerName =
        (o.method? (o.child 0 (o.receiving made y)) initializerName c.methods).map Prod.snd :=
      (method?_find? _ _ _).symm
    simp only [same]
    cases found : o.method? (o.child 0 (o.receiving made y)) initializerName c.methods with
    | none =>
      rw [show o.instrument.method? y made initializerName c = none from found]
      exact .pure fun _ _ => trivial
    | some pair =>
      obtain ⟨code, method⟩ := pair
      rw [show o.instrument.method? y made initializerName c = some (code, method) from found]
      rintro t sound ⟨⟨p, methods⟩, isInstance⟩
      have bound := Keeps.bindMethod isInstance methods.nodes found
      exact bound.bind (lasts_there _ _ _) (fun closure =>
        ((ih.enter room code closure given line).weaken fun _ pre => pre.2).bind
          (fun t t' later _ pre => ⟨K.lasting pre.1 later, pre.2.later later⟩)
          fun _ => .pure fun _ _ => trivial) t sound methods.place

theorem enter_succ (ih : K.Keeping fuel) (room : Nat) (y : χ) (c : Closure) (given : List Value)
    (line : Nat) :
    K.Keeps (fun t => K.Function t.machine.frames y c)
      (o.instrument.enter (fuel + 1) room y c given line) (Run.enter (fuel + 1) room c given line)
      Anyhow := by
  cases room with
  | zero => exact .fail
  | succ room =>
    rintro t sound ⟨p, code⟩
    have named : ∀ m ∈ c.params, m.text ≠ thisName.text :=
      K.names (code.nodes (p, .code c.params c.body) List.mem_cons_self)
    have body := ih.executeAll room (o.child 0 y) ((p.function c.params c.body).child 0) c.body
      fun n hn => code.nodes n (List.mem_cons_of_mem _ hn)
    have inRegion : K.Keeps (K.Here y (p.opened c.params (declaredNames c.body)))
        (o.instrument.executeAll fuel room (o.child 0 y) c.body)
        (Run.executeAll fuel room c.body) Anyhow :=
      (body.inside 0).alike rfl rfl
    have lasts := K.lasts_there y p c.frame
    show K.Ended t Anyhow ((ObservedRun.lift (Run.openFrame c.frame _) >>= fun frame =>
      o.instrument.returning y (o.instrument.within frame
        (o.instrument.executeAll fuel room (o.child 0 y) c.body)) >>= fun v =>
      if c.isInitializer then o.instrument.receiver y c.frame else pure v) t) _
    refine (Keeps.openFrame (declaredNames c.body) c.frame _ named).bind lasts (fun frame => ?_) t
      sound code.place
    refine Keeps.bind (Q := Anyhow) ((Keeps.returning (inRegion.within frame)).weaken
      fun _ pre => pre.2) (fun t t' later back pre => ?_) fun v => ?_
    · exact ⟨K.lasting pre.1 later, K.lasting pre.2 later⟩
    · cases initializer : c.isInitializer with
      | false => exact .pure fun _ _ => trivial
      | true =>
        obtain ⟨q, class_⟩ := code.initializer initializer
        exact (Keeps.initialized c.frame class_).weaken fun _ pre => pre.1.1

theorem execute_succ (ih : K.Keeping fuel) (room : Nat) (x : χ) (p : Position) (s : BoundStmt)
    (good : ∀ n ∈ stmtNodes p s, K.Good n) :
    K.Keeps (K.Here x p) (o.instrument.execute (fuel + 1) room x s)
      (Run.execute (fuel + 1) room s) Anyhow := by
  have lasts := K.lasts_here x p
  have named : ∀ name, declared? s = some name → name.text ≠ thisName.text := fun name hs =>
    K.names (good _ (stmt_mem_stmtNodes p s)) name (declared_mem_names hs)
  have value (i : Nat) (e : BoundExpr) (good : ∀ n ∈ exprNodes (p.child i) e, K.Good n) :
      K.Keeps (K.Here x p) (o.instrument.evaluate fuel room (o.child i x) e)
        (Run.evaluate fuel room e) Anyhow :=
    (ih.evaluate room (o.child i x) (p.child i) e good).inside i
  cases s with
  | expression e =>
    exact (value 0 e fun n hn => good n (by simp [stmtNodes, hn])).behind lasts fun _ =>
      .pure fun _ _ => trivial
  | print e =>
    exact (value 0 e fun n hn => good n (by simp [stmtNodes, hn])).behind lasts fun v => .print v
  | var name initial =>
    cases initial with
    | none => exact .define (named name rfl) .nil
    | some e =>
      have initial := ih.evaluate room (o.child 0 x) ((p.pend name).child 0) e fun n hn =>
        good n (by simp [stmtNodes, hn])
      have here := (initial.inside 0).alike (p := p) rfl (p.regions_pend name).symm
      exact here.behind lasts fun v => .define (named name rfl) v
  | block body =>
    have body := ih.executeAll room (o.child 0 x) ((p.block body).child 0) body fun n hn =>
      good n (by simp [stmtNodes, hn])
    exact .opened _ (body.inside 0)
  | step body increment =>
    have body := (ih.execute room (o.child 0 x) ((p.opened [] []).child 0) body fun n hn =>
      good n (by simp [stmtNodes, hn])).inside 0
    have increment := (ih.evaluate room (o.child 1 x) ((p.opened [] []).child 1) increment
      fun n hn => good n (by simp [stmtNodes, hn])).inside 1
    exact .opened [] (body.continuing.behind (K.lasts_here _ _) fun _ =>
      increment.behind (K.lasts_here _ _) fun _ => .pure fun _ _ => trivial)
  | if_ condition yes no =>
    have part (i : Nat) (s : BoundStmt) (good : ∀ n ∈ stmtNodes (p.child i) s, K.Good n) :
        K.Keeps (K.Here x p) (o.instrument.execute fuel room (o.child i x) s)
          (Run.execute fuel room s) Anyhow :=
      (ih.execute room (o.child i x) (p.child i) s good).inside i
    cases no with
    | none =>
      have condition := value 0 condition fun n hn => good n (by simp [stmtNodes, hn])
      have yes := part 1 yes fun n hn => good n (by simp [stmtNodes, hn])
      refine condition.behind lasts fun c => ?_
      cases c.isTruthy
      · exact .pure fun _ _ => trivial
      · exact yes
    | some no =>
      have condition := value 0 condition fun n hn => good n (by simp [stmtNodes, hn])
      have yes := part 1 yes fun n hn => good n (by simp [stmtNodes, hn])
      have no := part 2 no fun n hn => good n (by simp [stmtNodes, hn])
      refine condition.behind lasts fun c => ?_
      cases c.isTruthy
      · exact no
      · exact yes
  | while_ condition body => exact ih.loop room x p condition body good
  | jump jump line => exact .exit
  | function name params body =>
    refine .declared (named name rfl) fun frame => (Keeps.makeFunction _).weaken fun t place => ?_
    exact ⟨(p.declare name).child 0, K.child 0 place, fun n hn => good n (List.mem_cons_of_mem _ hn),
      Bool.noConfusion⟩
  | return_ line value? =>
    cases value? with
    | none => exact .exit
    | some e =>
      exact (value 0 e fun n hn => good n (by simp [stmtNodes, hn])).behind lasts fun v => .exit
  | class_ name methods =>
    refine .declared (named name rfl) fun frame => (Keeps.makeClass _).weaken fun t place => ?_
    exact ⟨p.declare name, place, fun n hn => good n (List.mem_cons_of_mem _ hn)⟩

theorem executeAll_succ (ih : K.Keeping fuel) (room : Nat) (x : χ) (p : Position)
    (ss : List BoundStmt) (good : ∀ n ∈ stmtsNodes p ss, K.Good n) :
    K.Keeps (K.Here x p) (o.instrument.executeAll (fuel + 1) room x ss)
      (Run.executeAll (fuel + 1) room ss) Anyhow := by
  cases ss with
  | nil => exact .pure fun _ _ => trivial
  | cons s ss =>
    have first := (ih.execute room (o.child 0 x) (p.child 0) s fun n hn =>
      good n (by simp [stmtsNodes, hn])).inside 0
    have others := (ih.executeAll room (o.child 1 x) ((p.after s).child 1) ss fun n hn =>
      good n (by simp [stmtsNodes, hn])).inside 1
    have here := others.alike (p := p) (p.path_after s).symm (p.regions_after s).symm
    exact first.behind (K.lasts_here x p) fun _ => here

theorem loop_succ (ih : K.Keeping fuel) (room : Nat) (x : χ) (p : Position)
    (condition : BoundExpr) (body : BoundStmt)
    (good : ∀ n ∈ stmtNodes p (.while_ condition body), K.Good n) :
    K.Keeps (K.Here x p) (o.instrument.loop (fuel + 1) room x condition body)
      (Run.loop (fuel + 1) room condition body) Anyhow := by
  have lasts := K.lasts_here x p
  have head := (ih.evaluate room (o.child 0 x) (p.child 0) condition fun n hn =>
    good n (by simp [stmtNodes, hn])).inside 0
  have round : K.Keeps (K.Here x p) (o.instrument.execute fuel room (o.child 1 x) body)
      (Run.execute fuel room body) Anyhow :=
    ((ih.execute room (o.child 1 x) (p.loop.child 1) body fun n hn =>
      good n (by simp [stmtNodes, hn])).inside 1).alike rfl rfl
  have again := ih.loop room x p condition body good
  rw [Run.loop_succ]
  refine head.behind lasts fun c => ?_
  by_cases hc : c.isTruthy = true
  · simp only [if_pos hc]
    refine round.goesOn.behind lasts fun on => ?_
    cases on
    · exact .pure fun _ _ => trivial
    · exact again
  · simp only [if_neg hc]
    exact .pure fun _ _ => trivial

theorem all (fuel : Nat) : K.Keeping fuel := by
  induction fuel with
  | zero => exact zero
  | succ fuel ih =>
    exact
      { evaluate := evaluate_succ ih
        evaluateAll := evaluateAll_succ ih
        call := call_succ ih
        enter := enter_succ ih
        execute := execute_succ ih
        executeAll := executeAll_succ ih
        loop := loop_succ ih }

end Keeping

/-- An observed program ends as the program itself does. -/
theorem runBound_eq (limits : Limits) {x : χ} {p : Position} {program : List BoundStmt}
    {t : Observed χ κ} (sound : K.Sound t) (here : K.Here x p t)
    (good : ∀ n ∈ stmtsNodes p program, K.Good n) :
    let ended := ObservedRun.runBound o limits x program t
    Dialogue.runBound limits program t.machine = (ended.1, ended.2.machine) ∧ K.Sound ended.2 ∧
      K.Later t.machine.frames ended.2.machine.frames ∧
      ended.2.machine.current = t.machine.current := by
  have begun : K.Sound { t with machine := { t.machine with output := "" } } :=
    sound.later (K.refl _) rfl rfl rfl rfl sound.kept
  have ended := (Keeping.all limits.fuel).executeAll limits.room x p program good _ begun here
  simp only [ObservedRun.runBound, Dialogue.runBound]
  generalize o.instrument.executeAll _ _ _ _ _ = r at ended ⊢
  generalize Run.executeAll _ _ _ _ = r' at ended ⊢
  cases ended with
  | ok sound later back _ => exact ⟨rfl, sound, later, back⟩
  | error sound later back => exact ⟨rfl, sound, later, back⟩

end Upkeep

end Script
