import Script.Proofs.Lexical.Binding

/-! Binding a program and the renamed one.
In a program without complaints every node is scoped. The renamed program has the same number of
complaints, and every use in it the same site. -/
namespace Script

namespace Lexical

open Script.Binding

variable {ρ : Renaming} {α β γ δ : Type}

/-- What is known of a node behind binding. -/
def Known (ρ : Renaming) (x : Position × Node Site) : Prop := Scoped x ∧ Respected ρ x

def Bindable (ρ : Renaming) (x : Position × Node Unit) : Prop := x.2.Plain ∧ Respected ρ x

/-! One lemma a node: it is bound in step if its parts are. -/

/-- The renamed tree is bound as the tree is, and enough is known of its nodes. -/
def BindsExpr (ρ : Renaming) (p : Position) (e : RawExpr) : Prop :=
  Binds ρ p p (bindExpr e) (bindExpr (translateExpr ρ (fun u => u) e)) fun a b =>
    b = translateExpr ρ (fun site => site) a ∧ ∀ x ∈ exprNodes p a, Known ρ x

def BindsExprs (ρ : Renaming) (p : Position) (es : List RawExpr) : Prop :=
  Binds ρ p p (bindExprs es) (bindExprs (translateExprs ρ (fun u => u) es)) fun a b =>
    b = translateExprs ρ (fun site => site) a ∧ ∀ x ∈ exprsNodes p a, Known ρ x

def BindsStmt (ρ : Renaming) (p : Position) (s : RawStmt) : Prop :=
  Binds ρ p (p.after s) (bindStmt s) (bindStmt (translateStmt ρ (fun u => u) s)) fun a b =>
    declared? a = declared? s ∧ b = translateStmt ρ (fun site => site) a ∧
      ∀ x ∈ stmtNodes p a, Known ρ x

def BindsStmts (ρ : Renaming) (p : Position) (ss : List RawStmt) : Prop :=
  Binds ρ p (p.afterAll ss) (bindStmts ss) (bindStmts (translateStmts ρ (fun u => u) ss))
    fun a b => declaredNames a = declaredNames ss ∧ b = translateStmts ρ (fun site => site) a ∧
      ∀ x ∈ stmtsNodes p a, Known ρ x

def BindsMethods (ρ : Renaming) (p : Position) (ms : List RawMethod) : Prop :=
  Binds ρ p p (bindMethods ms) (bindMethods (translateMethods ρ (fun u => u) ms)) fun a b =>
    a.map Method.name = ms.map Method.name ∧ b = translateMethods ρ (fun site => site) a ∧
      ∀ x ∈ methodsNodes p a, Known ρ x

section Nodes

variable {p : Position}

theorem Binds.pair {i j : Nat} {x : Binder α} {y : Binder β} {x' : Binder γ} {y' : Binder δ}
    {ε ζ : Type} {P : α → β → Prop} {Q : γ → δ → Prop} {R : ε → ζ → Prop} {f : α → γ → ε}
    {g : β → δ → ζ} (first : Binds ρ (p.child i) (p.child i) x y P)
    (second : Binds ρ (p.child j) (p.child j) x' y' Q)
    (h : ∀ a b c d, P a b → Q c d → R (f a c) (g b d)) :
    Binds ρ p p (do let a ← x; let c ← x'; Pure.pure (f a c))
      (do let b ← y; let d ← y'; Pure.pure (g b d)) R :=
  first.child.bind fun a b => second.child.bind fun c d => .pure fun hQ hP => h a b c d hP hQ

theorem bindCode_binds {enclosing : Enclosing} {params : List Name} {body : List RawStmt}
    (some : enclosing ≠ .none) (node : Respected ρ (p, .code (β := Unit) params body))
    (binds : BindsStmts ρ ((p.function params body).child 0) body) :
    Binds ρ p p
      (Binding.inFunction enclosing (params.forM Binding.declareAndDefine >>= fun _ => bindStmts body))
      (Binding.inFunction enclosing ((params.map ρ.name).forM Binding.declareAndDefine >>= fun _ =>
        bindStmts (translateStmts ρ (fun u => u) body)))
      fun a b => b = translateStmts ρ (fun site => site) a ∧ ∀ x ∈ codeNodes p params a, Known ρ x := by
  refine (Binds.inFunction some node binds.entered (Position.function_inner _ _ _ _ _)).weaken ?_
  rintro a _ ⟨nodup, names, rfl, ha⟩
  refine ⟨rfl, List.forall_mem_cons.mpr ⟨⟨nodup, ?_⟩, ?_⟩⟩
  · simpa only [Respected, names] using node
  · simpa only [Position.function, names] using ha

namespace BindsExpr

variable {e e' e'' : RawExpr} {name : Name} {line : Nat}

theorem «variable» (node : UseRespected ρ p name.text (ρ.text name)) :
    BindsExpr ρ p (.variable name ()) := by
  refine (Binds.checkInitialized node).bind fun _ _ => (Binds.occur _ node).bind fun a b => .pure ?_
  rintro ⟨rfl, ha⟩ -
  exact ⟨rfl, List.forall_mem_singleton.mpr ⟨ha, node⟩⟩

theorem assign (node : UseRespected ρ p name.text (ρ.text name)) (value : BindsExpr ρ (p.child 0) e) :
    BindsExpr ρ p (.assign name () e) := by
  refine value.child.bind fun a b => (Binds.occur _ node).bind fun c d => .pure ?_
  rintro ⟨rfl, hc⟩ ⟨rfl, ha⟩
  exact ⟨rfl, List.forall_mem_cons.mpr ⟨⟨hc, node⟩, ha⟩⟩

theorem this (node : UseRespected ρ p thisName.text thisName.text) :
    BindsExpr ρ p (.this line ()) := by
  refine .get_bind fun s s' hs => ?_
  rw [hs.inClass_eq]
  by_cases hc : s.inClass = true
  · simp only [if_pos hc]
    refine (Binds.occur ⟨thisName.text, line⟩ node).bind fun a b => .pure ?_
    rintro ⟨rfl, ha⟩
    exact ⟨rfl, List.forall_mem_singleton.mpr ⟨⟨hs.inClass ▸ hc, ha⟩, node⟩⟩
  · simp only [if_neg hc]
    exact Binds.complain.bind fun _ _ => .pure fun h => h.elim

theorem binary {op : BinaryOp} (left : BindsExpr ρ (p.child 0) e)
    (right : BindsExpr ρ (p.child 1) e') : BindsExpr ρ p (.binary e op line e') := by
  refine Binds.pair left right ?_
  rintro a _ c _ ⟨rfl, ha⟩ ⟨rfl, hc⟩
  exact ⟨rfl, List.forall_mem_cons.mpr
    ⟨⟨trivial, trivial⟩, List.forall_mem_append.mpr ⟨ha, hc⟩⟩⟩

theorem logical {op : LogicalOp} (left : BindsExpr ρ (p.child 0) e)
    (right : BindsExpr ρ (p.child 1) e') : BindsExpr ρ p (.logical e op line e') := by
  refine Binds.pair left right ?_
  rintro a _ c _ ⟨rfl, ha⟩ ⟨rfl, hc⟩
  exact ⟨rfl, List.forall_mem_cons.mpr
    ⟨⟨trivial, trivial⟩, List.forall_mem_append.mpr ⟨ha, hc⟩⟩⟩

theorem ternary (condition : BindsExpr ρ (p.child 0) e) (yes : BindsExpr ρ (p.child 1) e')
    (no : BindsExpr ρ (p.child 2) e'') : BindsExpr ρ p (.ternary e e' e'') := by
  refine condition.child.bind fun a b => yes.child.bind fun c d => no.child.bind fun e f => .pure ?_
  rintro ⟨rfl, he⟩ ⟨rfl, hc⟩ ⟨rfl, ha⟩
  exact ⟨rfl, List.forall_mem_cons.mpr ⟨⟨trivial, trivial⟩,
    List.forall_mem_append.mpr ⟨List.forall_mem_append.mpr ⟨ha, hc⟩, he⟩⟩⟩

theorem sequence (earlier : BindsExpr ρ (p.child 0) e) (last : BindsExpr ρ (p.child 1) e') :
    BindsExpr ρ p (.sequence e e') := by
  refine Binds.pair earlier last ?_
  rintro a _ c _ ⟨rfl, ha⟩ ⟨rfl, hc⟩
  exact ⟨rfl, List.forall_mem_cons.mpr
    ⟨⟨trivial, trivial⟩, List.forall_mem_append.mpr ⟨ha, hc⟩⟩⟩

theorem call {es : List RawExpr} (callee : BindsExpr ρ (p.child 0) e)
    (arguments : BindsExprs ρ (p.child 1) es) : BindsExpr ρ p (.call e line es) := by
  refine Binds.pair callee arguments ?_
  rintro a _ c _ ⟨rfl, ha⟩ ⟨rfl, hc⟩
  exact ⟨rfl, List.forall_mem_cons.mpr
    ⟨⟨trivial, trivial⟩, List.forall_mem_append.mpr ⟨ha, hc⟩⟩⟩

/-- The value of a property is bound before the object. -/
theorem set (node : ρ.text name = name.text) (object : BindsExpr ρ (p.child 0) e)
    (value : BindsExpr ρ (p.child 1) e') : BindsExpr ρ p (.set e name e') := by
  refine Binds.pair value object ?_
  rintro a _ c _ ⟨rfl, ha⟩ ⟨rfl, hc⟩
  exact ⟨rfl, List.forall_mem_cons.mpr ⟨⟨trivial, node⟩, List.forall_mem_append.mpr ⟨hc, ha⟩⟩⟩

theorem function {params : List Name} {body : List RawStmt}
    (node : Respected ρ (p.child 0, .code (β := Unit) params body))
    (binds : BindsStmts ρ (((p.child 0).function params body).child 0) body) :
    BindsExpr ρ p (.function params body) := by
  refine (bindCode_binds Enclosing.noConfusion node binds).child.bind fun a b => .pure ?_
  rintro ⟨rfl, ha⟩
  exact ⟨rfl, List.forall_mem_cons.mpr ⟨⟨trivial, trivial⟩, ha⟩⟩

end BindsExpr

namespace BindsStmt

variable {e : RawExpr} {s s' : RawStmt} {name : Name} {line : Nat} {body : List RawStmt}

theorem var (node : DeclarationRespected ρ p name) : BindsStmt ρ p (.var name none) := by
  refine (Binds.declareAndDefine node).bind fun _ _ => .pure fun fresh => ?_
  exact ⟨rfl, rfl, List.forall_mem_singleton.mpr ⟨fresh, node⟩⟩

theorem initialized (node : DeclarationRespected ρ p name)
    (initial : BindsExpr ρ ((p.pend name).child 0) e) : BindsStmt ρ p (.var name (some e)) := by
  refine (Binds.declare node).bind fun _ _ => initial.child.pend.bind fun a b =>
    (Binds.define node.declare).bind fun _ _ => .pure ?_
  rintro - ⟨rfl, ha⟩ fresh
  exact ⟨rfl, rfl, List.forall_mem_cons.mpr ⟨⟨fresh, node⟩, ha⟩⟩

theorem block (binds : BindsStmts ρ ((p.block body).child 0) body) : BindsStmt ρ p (.block body) := by
  refine (Binds.inScope binds.entered (Position.opened_inner p _ _) rfl (fun _ => rfl) rfl
    (Position.block_inner p body body 0)).bind fun a b => .pure ?_
  rintro ⟨names, rfl, ha⟩
  refine ⟨rfl, rfl, List.forall_mem_cons.mpr ⟨⟨trivial, trivial⟩, ?_⟩⟩
  simpa only [Position.block, names] using ha

theorem step (plain : declared? s = none) (round : BindsStmt ρ ((p.opened [] []).child 0) s)
    (increment : BindsExpr ρ ((p.opened [] []).child 1) e) : BindsStmt ρ p (.step s e) := by
  unfold BindsStmt at round
  rw [Position.after_of_none plain] at round
  have inner := Position.opened_inner p [] []
  refine (Binds.inScope (Binds.pair round increment ?_) inner rfl (fun _ => rfl) rfl inner)
  rintro a _ c _ ⟨_, rfl, ha⟩ ⟨rfl, hc⟩
  exact ⟨rfl, rfl, List.forall_mem_cons.mpr
    ⟨⟨trivial, trivial⟩, List.forall_mem_append.mpr ⟨ha, hc⟩⟩⟩

theorem if_ (plain : declared? s = none) (condition : BindsExpr ρ (p.child 0) e)
    (yes : BindsStmt ρ (p.child 1) s) : BindsStmt ρ p (.if_ e s none) := by
  unfold BindsStmt at yes
  rw [Position.after_of_none plain] at yes
  refine Binds.pair condition yes ?_
  rintro a _ c _ ⟨rfl, ha⟩ ⟨_, rfl, hc⟩
  exact ⟨rfl, rfl, List.forall_mem_cons.mpr
    ⟨⟨trivial, trivial⟩, List.forall_mem_append.mpr ⟨ha, hc⟩⟩⟩

theorem ifElse (plain : declared? s = none) (plain' : declared? s' = none)
    (condition : BindsExpr ρ (p.child 0) e) (yes : BindsStmt ρ (p.child 1) s)
    (no : BindsStmt ρ (p.child 2) s') : BindsStmt ρ p (.if_ e s (some s')) := by
  unfold BindsStmt at yes no
  rw [Position.after_of_none plain] at yes
  rw [Position.after_of_none plain'] at no
  refine condition.child.bind fun a b => yes.child.bind fun c d => no.child.bind fun e f => .pure ?_
  rintro ⟨_, rfl, he⟩ ⟨_, rfl, hc⟩ ⟨rfl, ha⟩
  exact ⟨rfl, rfl, List.forall_mem_cons.mpr ⟨⟨trivial, trivial⟩,
    List.forall_mem_append.mpr ⟨List.forall_mem_append.mpr ⟨ha, hc⟩, he⟩⟩⟩

theorem while_ (plain : declared? s = none) (condition : BindsExpr ρ (p.child 0) e)
    (round : BindsStmt ρ (p.loop.child 1) s) : BindsStmt ρ p (.while_ e s) := by
  unfold BindsStmt at round
  rw [Position.after_of_none plain] at round
  refine condition.child.bind fun a b => (Binds.inLoop round.child).bind fun c d => .pure ?_
  rintro ⟨_, rfl, hc⟩ ⟨rfl, ha⟩
  exact ⟨rfl, rfl, List.forall_mem_cons.mpr
    ⟨⟨trivial, trivial⟩, List.forall_mem_append.mpr ⟨ha, hc⟩⟩⟩

theorem jump {jump : Jump} : BindsStmt ρ p (.jump jump line) := by
  refine .complainIf (R := p.inLoop = true) (fun s s' hs => by rw [hs.loops_eq])
    (fun s s' hs hl => hs.loops.mp hl) (.pure fun inside => ?_)
  exact ⟨rfl, rfl, List.forall_mem_singleton.mpr ⟨inside, trivial⟩⟩

theorem function {params : List Name} (text : ρ.text name = name.text)
    (declared : DeclarationRespected ρ p name)
    (node : Respected ρ ((p.declare name).child 0, .code (β := Unit) params body))
    (binds : BindsStmts ρ ((((p.declare name).child 0).function params body).child 0) body) :
    BindsStmt ρ p (.function name params body) := by
  refine (Binds.declareAndDefine declared).bind fun _ _ =>
    (bindCode_binds Enclosing.noConfusion node binds).child.bind fun a b => .pure ?_
  rintro ⟨rfl, ha⟩ fresh
  exact ⟨rfl, rfl, List.forall_mem_cons.mpr ⟨⟨fresh, text, declared⟩, ha⟩⟩

theorem return_ : BindsStmt ρ p (.return_ line none) := by
  refine .complainIf (R := p.inFunction = true) (fun s s' hs => by rw [hs.enclosing_eq])
    (fun s s' hs he => hs.enclosing.mp he) (.pure fun inside => ?_)
  exact ⟨rfl, rfl, List.forall_mem_singleton.mpr ⟨inside, trivial⟩⟩

theorem returned (value : BindsExpr ρ (p.child 0) e) : BindsStmt ρ p (.return_ line (some e)) := by
  refine .complainIf (R := p.inFunction = true) (fun s s' hs => by rw [hs.enclosing_eq])
    (fun s s' hs he => hs.enclosing.mp he) ?_
  refine .complainIf (R := True) (fun s s' hs => by rw [hs.enclosing_eq])
    (fun _ _ _ _ => trivial) (value.child.bind fun a b => .pure ?_)
  rintro ⟨rfl, ha⟩ - inside
  exact ⟨rfl, rfl, List.forall_mem_cons.mpr ⟨⟨inside, trivial⟩, ha⟩⟩

theorem class_ {methods : List RawMethod}
    (node : Respected ρ (p, .stmt (Stmt.class_ (β := Unit) name methods)))
    (binds : BindsMethods ρ ((p.declare name).class_.child 0) methods) :
    BindsStmt ρ p (.class_ name methods) := by
  obtain ⟨text, declared, names, receiver⟩ := node
  refine (Binds.inClass declared receiver binds.child ⟨⟨_, rfl⟩, rfl, rfl, rfl⟩).bind
    fun a b => .pure ?_
  rintro ⟨fresh, same, rfl, ha⟩
  refine ⟨rfl, rfl, List.forall_mem_cons.mpr ⟨⟨fresh, text, declared, ?_, receiver⟩, ha⟩⟩
  intro m hm
  have : m.name ∈ methods.map Method.name := same ▸ List.mem_map_of_mem hm
  obtain ⟨k, hk, hname⟩ := List.mem_map.mp this
  rw [← hname]
  exact names k hk

end BindsStmt

theorem BindsStmts.cons {s : RawStmt} {ss : List RawStmt} (first : BindsStmt ρ (p.child 0) s)
    (others : BindsStmts ρ ((p.after s).child 1) ss) : BindsStmts ρ p (s :: ss) := by
  unfold BindsStmt at first
  unfold BindsStmts at others
  rw [Position.after_child] at first
  rw [Position.afterAll_child] at others
  refine first.child.bind fun a b => others.child.bind fun c d => .pure ?_
  rintro ⟨names, rfl, hc⟩ ⟨name, rfl, ha⟩
  refine ⟨?_, rfl, List.forall_mem_append.mpr ⟨ha, ?_⟩⟩
  · simp only [declaredNames, List.filterMap_cons, name] at names ⊢
    rw [names]
  · simpa only [Position.after, name] using hc

theorem BindsMethods.cons {name : Name} {params : List Name} {body : List RawStmt}
    {ms : List RawMethod} (text : ρ.text name = name.text)
    (node : Respected ρ (p.child 0, .code (β := Unit) params body))
    (binds : BindsStmts ρ (((p.child 0).function params body).child 0) body)
    (others : BindsMethods ρ (p.child 1) ms) : BindsMethods ρ p (.mk name params body :: ms) := by
  have enclosing : methodEnclosing (ρ.name name) = methodEnclosing name := by
    simp only [methodEnclosing, Renaming.name, text]
  have some : methodEnclosing name ≠ .none := by
    unfold methodEnclosing
    split <;> exact Enclosing.noConfusion
  show Binds ρ p p _ (Binding.inFunction (methodEnclosing (ρ.name name)) _ >>= _) _
  rw [enclosing]
  refine Binds.pair (bindCode_binds some node binds) others ?_
  rintro a _ c _ ⟨rfl, ha⟩ ⟨same, rfl, hc⟩
  exact ⟨congrArg (name :: ·) same, rfl, List.forall_mem_append.mpr ⟨ha, hc⟩⟩

end Nodes

mutual

theorem bindExpr_binds (p : Position) (e : RawExpr) (h : ∀ x ∈ exprNodes p e, Bindable ρ x) :
    BindsExpr ρ p e := by
  cases e with
  | literal value => exact .pure ⟨rfl, List.forall_mem_singleton.mpr ⟨trivial, trivial⟩⟩
  | grouping inner =>
    have inner := bindExpr_binds (p.child 0) inner fun x hx => h x (by simp [exprNodes, hx])
    refine inner.child.bind fun a b => .pure ?_
    rintro ⟨rfl, ha⟩
    exact ⟨rfl, List.forall_mem_cons.mpr ⟨⟨trivial, trivial⟩, ha⟩⟩
  | «variable» name site => exact .variable (h _ List.mem_cons_self).2
  | assign name site value =>
    have value := bindExpr_binds (p.child 0) value fun x hx => h x (by simp [exprNodes, hx])
    exact .assign (h _ List.mem_cons_self).2 value
  | this line site => exact .this (h _ List.mem_cons_self).2
  | unary op line operand =>
    have operand := bindExpr_binds (p.child 0) operand fun x hx => h x (by simp [exprNodes, hx])
    refine operand.child.bind fun a b => .pure ?_
    rintro ⟨rfl, ha⟩
    exact ⟨rfl, List.forall_mem_cons.mpr ⟨⟨trivial, trivial⟩, ha⟩⟩
  | binary left op line right =>
    have left := bindExpr_binds (p.child 0) left fun x hx => h x (by simp [exprNodes, hx])
    have right := bindExpr_binds (p.child 1) right fun x hx => h x (by simp [exprNodes, hx])
    exact .binary left right
  | logical left op line right =>
    have left := bindExpr_binds (p.child 0) left fun x hx => h x (by simp [exprNodes, hx])
    have right := bindExpr_binds (p.child 1) right fun x hx => h x (by simp [exprNodes, hx])
    exact .logical left right
  | ternary condition yes no =>
    have condition := bindExpr_binds (p.child 0) condition fun x hx => h x (by simp [exprNodes, hx])
    have yes := bindExpr_binds (p.child 1) yes fun x hx => h x (by simp [exprNodes, hx])
    have no := bindExpr_binds (p.child 2) no fun x hx => h x (by simp [exprNodes, hx])
    exact .ternary condition yes no
  | sequence earlier last =>
    have earlier := bindExpr_binds (p.child 0) earlier fun x hx => h x (by simp [exprNodes, hx])
    have last := bindExpr_binds (p.child 1) last fun x hx => h x (by simp [exprNodes, hx])
    exact .sequence earlier last
  | call callee line arguments =>
    have callee := bindExpr_binds (p.child 0) callee fun x hx => h x (by simp [exprNodes, hx])
    have arguments := bindExprs_binds (p.child 1) arguments fun x hx =>
      h x (by simp [exprNodes, hx])
    exact .call callee arguments
  | get object property =>
    have node : ρ.text property = property.text := (h _ List.mem_cons_self).2
    have object := bindExpr_binds (p.child 0) object fun x hx => h x (by simp [exprNodes, hx])
    refine object.child.bind fun a b => .pure ?_
    rintro ⟨rfl, ha⟩
    exact ⟨rfl, List.forall_mem_cons.mpr ⟨⟨trivial, node⟩, ha⟩⟩
  | set object property value =>
    have object := bindExpr_binds (p.child 0) object fun x hx => h x (by simp [exprNodes, hx])
    have value := bindExpr_binds (p.child 1) value fun x hx => h x (by simp [exprNodes, hx])
    exact .set (h _ List.mem_cons_self).2 object value
  | function params body =>
    have node := (h (p.child 0, .code params body) (by simp [exprNodes])).2
    exact .function node (bindStmts_binds _ body fun x hx => h x (by simp [exprNodes, hx]))

theorem bindExprs_binds (p : Position) (es : List RawExpr)
    (h : ∀ x ∈ exprsNodes p es, Bindable ρ x) : BindsExprs ρ p es := by
  cases es with
  | nil => exact .pure ⟨rfl, List.forall_mem_nil _⟩
  | cons e es =>
    have first := bindExpr_binds (p.child 0) e fun x hx => h x (by simp [exprsNodes, hx])
    have others := bindExprs_binds (p.child 1) es fun x hx => h x (by simp [exprsNodes, hx])
    refine Binds.pair first others ?_
    rintro a _ c _ ⟨rfl, ha⟩ ⟨rfl, hc⟩
    exact ⟨rfl, List.forall_mem_append.mpr ⟨ha, hc⟩⟩

theorem bindStmt_binds (p : Position) (s : RawStmt) (h : ∀ x ∈ stmtNodes p s, Bindable ρ x) :
    BindsStmt ρ p s := by
  cases s with
  | expression e =>
    have e := bindExpr_binds (p.child 0) e fun x hx => h x (by simp [stmtNodes, hx])
    refine e.child.bind fun a b => .pure ?_
    rintro ⟨rfl, ha⟩
    exact ⟨rfl, rfl, List.forall_mem_cons.mpr ⟨⟨trivial, trivial⟩, ha⟩⟩
  | print e =>
    have e := bindExpr_binds (p.child 0) e fun x hx => h x (by simp [stmtNodes, hx])
    refine e.child.bind fun a b => .pure ?_
    rintro ⟨rfl, ha⟩
    exact ⟨rfl, rfl, List.forall_mem_cons.mpr ⟨⟨trivial, trivial⟩, ha⟩⟩
  | var name initial =>
    cases initial with
    | none => exact .var (h _ List.mem_cons_self).2
    | some e =>
      have e := bindExpr_binds ((p.pend name).child 0) e fun x hx => h x (by simp [stmtNodes, hx])
      exact .initialized (h _ List.mem_cons_self).2 e
  | block body => exact .block (bindStmts_binds _ body fun x hx => h x (by simp [stmtNodes, hx]))
  | step body increment =>
    have body := bindStmt_binds ((p.opened [] []).child 0) body fun x hx =>
      h x (by simp [stmtNodes, hx])
    have increment := bindExpr_binds ((p.opened [] []).child 1) increment fun x hx =>
      h x (by simp [stmtNodes, hx])
    exact .step (h _ List.mem_cons_self).1 body increment
  | if_ condition yes no =>
    cases no with
    | none =>
      have condition := bindExpr_binds (p.child 0) condition fun x hx =>
        h x (by simp [stmtNodes, hx])
      have yes := bindStmt_binds (p.child 1) yes fun x hx => h x (by simp [stmtNodes, hx])
      exact .if_ (h _ List.mem_cons_self).1.1 condition yes
    | some no =>
      obtain ⟨plain, plain'⟩ := (h _ List.mem_cons_self).1
      have condition := bindExpr_binds (p.child 0) condition fun x hx =>
        h x (by simp [stmtNodes, hx])
      have yes := bindStmt_binds (p.child 1) yes fun x hx => h x (by simp [stmtNodes, hx])
      have no := bindStmt_binds (p.child 2) no fun x hx => h x (by simp [stmtNodes, hx])
      exact .ifElse plain (plain' _ rfl) condition yes no
  | while_ condition body =>
    have condition := bindExpr_binds (p.child 0) condition fun x hx =>
      h x (by simp [stmtNodes, hx])
    have body := bindStmt_binds (p.loop.child 1) body fun x hx => h x (by simp [stmtNodes, hx])
    exact .while_ (h _ List.mem_cons_self).1 condition body
  | jump jump line => exact .jump
  | function name params body =>
    obtain ⟨text, declared⟩ := (h (p, .stmt (.function name params body)) List.mem_cons_self).2
    have node := (h ((p.declare name).child 0, .code params body) (by simp [stmtNodes])).2
    exact .function text declared node
      (bindStmts_binds _ body fun x hx => h x (by simp [stmtNodes, hx]))
  | return_ line value =>
    cases value with
    | none => exact .return_
    | some e =>
      exact .returned (bindExpr_binds (p.child 0) e fun x hx => h x (by simp [stmtNodes, hx]))
  | class_ name methods =>
    have node : Respected ρ (p, .stmt (.class_ name methods)) := (h _ List.mem_cons_self).2
    exact .class_ node (bindMethods_binds _ methods (fun x hx => h x (by simp [stmtNodes, hx]))
      node.2.2.1)

theorem bindStmts_binds (p : Position) (ss : List RawStmt)
    (h : ∀ x ∈ stmtsNodes p ss, Bindable ρ x) : BindsStmts ρ p ss := by
  cases ss with
  | nil => exact .pure ⟨rfl, rfl, List.forall_mem_nil _⟩
  | cons s ss =>
    have first := bindStmt_binds (p.child 0) s fun x hx => h x (by simp [stmtsNodes, hx])
    have others := bindStmts_binds ((p.after s).child 1) ss fun x hx =>
      h x (by simp [stmtsNodes, hx])
    exact .cons first others

theorem bindMethods_binds (p : Position) (ms : List RawMethod)
    (h : ∀ x ∈ methodsNodes p ms, Bindable ρ x) (names : ∀ m ∈ ms, ρ.text m.name = m.name.text) :
    BindsMethods ρ p ms := by
  cases ms with
  | nil => exact .pure ⟨rfl, rfl, List.forall_mem_nil _⟩
  | cons m ms =>
    cases m with
    | mk name params body =>
      have node := (h (p.child 0, .code params body) (by simp [methodsNodes])).2
      have body := bindStmts_binds (((p.child 0).function params body).child 0) body fun x hx =>
        h x (by simp [methodsNodes, hx])
      have others := bindMethods_binds (p.child 1) ms (fun x hx => h x (by simp [methodsNodes, hx]))
        fun m hm => names m (List.mem_cons_of_mem _ hm)
      exact .cons (names _ List.mem_cons_self) node body others

end

/-- Binding a program and the renamed one: both are accepted or none is, and their uses have the
same sites. -/
theorem bindProgram_binds (number : Nat) (program : List RawStmt)
    (h : ∀ x ∈ programNodes number program, Bindable ρ x) :
    let bound := bindProgram program
    let renamed := bindProgram (translateStmts ρ (fun u => u) program)
    (renamed.reports = [] ↔ bound.reports = []) ∧
      renamed.occurrences.map (fun o => (o.use, o.distance)) =
        bound.occurrences.map (fun o => (o.use, o.distance)) ∧
      (bound.reports = [] → renamed.statements = translateStmts ρ (fun site => site) bound.statements ∧
        ∀ x ∈ programNodes number bound.statements, Known ρ x) := by
  have fits : Fits ρ (Position.top number) ⟨[], .none, false, 0, [], []⟩
      ⟨[], .none, false, 0, [], []⟩ :=
    ⟨.nil, ⟨fun h => absurd rfl h, fun h => by cases h⟩,
      ⟨fun h => absurd rfl h, fun h => by cases h⟩, rfl, rfl, rfl, rfl, rfl, rfl⟩
  obtain ⟨fits', accepted⟩ := bindStmts_binds (Position.top number) program h _ _ fits
  refine ⟨?_, fits'.occurrences, fun hr => (accepted hr).2.2⟩
  rw [← List.length_eq_zero_iff, ← List.length_eq_zero_iff]
  exact iff_of_eq (congrArg (· = 0) fits'.reports)

/-- Nothing is asked of a renaming that leaves the texts as they are. -/
theorem respected_relined {β : Type} (line : Nat → Nat) (x : Position × Node β) :
    Respected (.relined line) x := by
  have use : ∀ p key, UseRespected (.relined line) p key key := fun p key =>
    ⟨rfl, fun _ _ _ _ => rfl, fun _ => rfl⟩
  have declaration : ∀ p name, DeclarationRespected (.relined line) p name := by
    intro p name
    unfold DeclarationRespected
    split <;> rfl
  unfold Respected
  split
  · exact use _ _
  · exact use _ _
  · exact use _ _
  · rfl
  · rfl
  · exact declaration _ _
  · exact ⟨rfl, declaration _ _⟩
  · exact ⟨rfl, declaration _ _, fun _ _ => rfl, rfl⟩
  · exact fun _ _ => rfl
  · trivial

theorem respected_identity {β : Type} (x : Position × Node β) : Respected .identity x :=
  respected_relined (fun line => line) x

/-- In a program that is bound without complaints every node is scoped. -/
theorem bindProgram_scoped (number : Nat) (program : List RawStmt)
    (plain : ∀ x ∈ programNodes number program, x.2.Plain)
    (accepted : (bindProgram program).reports = []) :
    ∀ x ∈ programNodes number (bindProgram program).statements, Scoped x := by
  have bound := bindProgram_binds (ρ := .identity) number program
    fun x hx => ⟨plain x hx, respected_identity x⟩
  exact fun x hx => ((bound.2.2 accepted).2 x hx).1

end Lexical

end Script
