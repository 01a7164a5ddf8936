import Script.Proofs.Lexical.Reading

/-! The trees that are read.
A reading of the renamed tokens gives the renamed tree; declarations stand in lists of statements
only; and a tree holds no name more often than it was taken. -/
namespace Script

open Lexical Grammar

namespace Lexical

/-- What is so of the nodes of a tree, wherever the tree stands. -/
structure Held (word : Name) (nodes : Position → List (Position × Node Unit)) (n : Nat) : Prop where
  plain : ∀ p, ∀ x ∈ nodes p, x.2.Plain
  names : ∀ p, namesOf word (nodes p) ≤ n

namespace Held

variable {word : Name} {n m : Nat} {nodes nodes' : Position → List (Position × Node Unit)}

theorem nil : Held word (fun _ => []) n := ⟨fun _ => List.forall_mem_nil _, fun _ => Nat.zero_le n⟩

theorem weaken (h : Held word nodes n) (hn : n ≤ m) : Held word nodes m :=
  ⟨h.plain, fun p => Nat.le_trans (h.names p) hn⟩

theorem at_ (h : Held word nodes n) (place : Position → Position) :
    Held word (fun p => nodes (place p)) n :=
  ⟨fun p => h.plain (place p), fun p => h.names (place p)⟩

theorem cons (h : Held word nodes n) (place : Position → Position) (node : Node Unit)
    (plain : node.Plain) :
    Held word (fun p => (place p, node) :: nodes p) (node.names.count word + n) where
  plain p := List.forall_mem_cons.mpr ⟨plain, h.plain p⟩
  names p := by
    rw [namesOf_cons]
    exact Nat.add_le_add_left (h.names p) _

theorem node (h : Held word nodes n) {node : Node Unit} (plain : node.Plain)
    (hm : node.names.count word + n ≤ m) : Held word (fun p => (p, node) :: nodes p) m :=
  (h.cons (fun p => p) _ plain).weaken hm

theorem left (h : Held word (fun p => nodes p ++ nodes' p) n) : Held word nodes n where
  plain p x hx := h.plain p x (List.mem_append_left _ hx)
  names p := by
    have names := h.names p
    rw [namesOf_append] at names
    exact Nat.le_trans (Nat.le_add_right _ _) names

theorem append (h : Held word nodes n) (h' : Held word nodes' m) :
    Held word (fun p => nodes p ++ nodes' p) (n + m) where
  plain p := List.forall_mem_append.mpr ⟨h.plain p, h'.plain p⟩
  names p := by
    rw [namesOf_append]
    exact Nat.add_le_add (h.names p) (h'.names p)

end Held

variable (ρ : Renaming) (word : Name)

def ExprRead (a b : RawExpr) (n : Nat) : Prop :=
  b = translateExpr ρ (fun u => u) a ∧ Held word (fun p => exprNodes p a) n

def ExprsRead (a b : List RawExpr) (n : Nat) : Prop :=
  b = translateExprs ρ (fun u => u) a ∧ Held word (fun p => exprsNodes p a) n

def StmtRead (a b : RawStmt) (n : Nat) : Prop :=
  b = translateStmt ρ (fun u => u) a ∧ Held word (fun p => stmtNodes p a) n

def PlainRead (a b : RawStmt) (n : Nat) : Prop := StmtRead ρ word a b n ∧ declared? a = none

def StmtsRead (a b : List RawStmt) (n : Nat) : Prop :=
  b = translateStmts ρ (fun u => u) a ∧ Held word (fun p => stmtsNodes p a) n

def ParamsRead (a b : List Name) (n : Nat) : Prop :=
  b = a.map ρ.name ∧ a.count word ≤ n

def OptionRead (a b : Option RawExpr) (n : Nat) : Prop :=
  b = a.map (translateExpr ρ fun u => u) ∧ ∀ e ∈ a, Held word (fun p => exprNodes p e) n

def CodeRead (a b : List Name × List RawStmt) (n : Nat) : Prop :=
  ∃ i j, i + j ≤ n ∧ ParamsRead ρ word a.1 b.1 i ∧ StmtsRead ρ word a.2 b.2 j

def NamedRead (a b : Name × List Name × List RawStmt) (n : Nat) : Prop :=
  ∃ i j, i + j ≤ n ∧ (b.1 = ρ.name a.1 ∧ [a.1].count word ≤ i) ∧ CodeRead ρ word a.2 b.2 j

def MethodsRead (a b : List RawMethod) (n : Nat) : Prop :=
  ∃ i j, i + j ≤ n ∧ (a.map Method.name).count word ≤ i ∧
    b = translateMethods ρ (fun u => u) a ∧ Held word (fun p => methodsNodes p a) j

structure Agreeing (fuel : Nat) : Prop where
  expression : Reads ρ word (expression fuel) (expression fuel) (ExprRead ρ word)
  sequenceTail : ∀ a b n, ExprRead ρ word a b n →
    Reads ρ word (sequenceTail fuel a) (sequenceTail fuel b) fun c d m => ExprRead ρ word c d (n + m)
  conditional : Reads ρ word (conditional fuel) (conditional fuel) (ExprRead ρ word)
  assignment : Reads ρ word (assignment fuel) (assignment fuel) (ExprRead ρ word)
  operation : ∀ level, Reads ρ word (operation fuel level) (operation fuel level) (ExprRead ρ word)
  operationTail : ∀ level a b n, ExprRead ρ word a b n →
    Reads ρ word (operationTail fuel level a) (operationTail fuel level b)
      fun c d m => ExprRead ρ word c d (n + m)
  operand : ∀ level, Reads ρ word (operand fuel level) (operand fuel level) (ExprRead ρ word)
  unary : Reads ρ word (unary fuel) (unary fuel) (ExprRead ρ word)
  callTail : ∀ a b n, ExprRead ρ word a b n →
    Reads ρ word (callTail fuel a) (callTail fuel b) fun c d m => ExprRead ρ word c d (n + m)
  argumentsFrom : ∀ count,
    Reads ρ word (argumentsFrom fuel count) (argumentsFrom fuel count) (ExprsRead ρ word)
  primary : Reads ρ word (primary fuel) (primary fuel) (ExprRead ρ word)
  blockBody : Reads ρ word (blockBody fuel) (blockBody fuel) (StmtsRead ρ word)
  declaration : Reads ρ word (declaration fuel) (declaration fuel)
    fun a b => StmtsRead ρ word a.toList b.toList
  declared : Reads ρ word (declared fuel) (declared fuel) (StmtRead ρ word)
  named : ∀ role, Reads ρ word (named fuel role) (named fuel role) (NamedRead ρ word)
  methodList : Reads ρ word (methodList fuel) (methodList fuel) (MethodsRead ρ word)
  variableDeclaration :
    Reads ρ word (variableDeclaration fuel) (variableDeclaration fuel) (StmtRead ρ word)
  expressionStatement :
    Reads ρ word (expressionStatement fuel) (expressionStatement fuel) (PlainRead ρ word)
  statement : Reads ρ word (statement fuel) (statement fuel) (PlainRead ρ word)
  forStatement : Reads ρ word (forStatement fuel) (forStatement fuel) (PlainRead ρ word)

theorem agreeing_zero : Agreeing ρ word 0 where
  expression := .exhaust
  sequenceTail _ _ _ _ := .exhaust
  conditional := .exhaust
  assignment := .exhaust
  operation _ := .exhaust
  operationTail _ _ _ _ _ := .exhaust
  operand _ := .exhaust
  unary := .exhaust
  callTail _ _ _ _ := .exhaust
  argumentsFrom _ := .exhaust
  primary := .exhaust
  blockBody := .exhaust
  declaration := .exhaust
  declared := .exhaust
  named _ := .exhaust
  methodList := .exhaust
  variableDeclaration := .exhaust
  expressionStatement := .exhaust
  statement := .exhaust
  forStatement := .exhaust

variable {ρ word} {fuel : Nat}

theorem expression_reads (ih : Agreeing ρ word fuel) :
    Reads ρ word (expression (fuel + 1)) (expression (fuel + 1)) (ExprRead ρ word) :=
  ih.conditional.bind fun a b n h => ih.sequenceTail a b n h

theorem sequenceTail_reads (ih : Agreeing ρ word fuel) (a b : RawExpr) (n : Nat)
    (h : ExprRead ρ word a b n) :
    Reads ρ word (sequenceTail (fuel + 1) a) (sequenceTail (fuel + 1) b)
      fun c d m => ExprRead ρ word c d (n + m) := by
  obtain ⟨rfl, ha⟩ := h
  refine Reads.accept.bind_equal fun comma i => ?_
  cases comma with
  | false => exact .pure ⟨rfl, ha.weaken (by omega)⟩
  | true =>
    refine ih.conditional.bind_of fun c m hc => ?_
    refine (ih.sequenceTail (.sequence a c) _ (n + m) ⟨rfl, ?_⟩).weaken fun e f k he =>
      ⟨he.1, he.2.weaken (by omega)⟩
    exact .node ((ha.at_ (·.child 0)).append (hc.at_ (·.child 1))) trivial (by simp [Node.names])

theorem conditional_reads (ih : Agreeing ρ word fuel) :
    Reads ρ word (conditional (fuel + 1)) (conditional (fuel + 1)) (ExprRead ρ word) := by
  refine ih.assignment.bind_of fun a n ha => Reads.accept.bind_equal fun mark i => ?_
  cases mark with
  | false => exact .pure ⟨rfl, ha.weaken (by omega)⟩
  | true =>
    refine ih.conditional.bind_of fun c m hc => Reads.expect.bind_of fun _ j _ =>
      ih.conditional.bind_of fun e k he => .pure ⟨rfl, ?_⟩
    exact .node (((ha.at_ (·.child 0)).append (hc.at_ (·.child 1))).append (he.at_ (·.child 2)))
      trivial (by simp only [Node.names, List.count_nil]; omega)

theorem assignTo_reads {target value : RawExpr} {equalLine n m : Nat}
    (ht : Held word (fun p => exprNodes p target) n) (hv : Held word (fun p => exprNodes p value) m) :
    Reads ρ word (assignTo target equalLine value)
      (assignTo (translateExpr ρ (fun u => u) target) (ρ.line equalLine)
        (translateExpr ρ (fun u => u) value))
      fun a b k => ExprRead ρ word a b (n + m + k) := by
  cases target with
  | «variable» name site =>
    have names : [name].count word ≤ n := ht.names (Position.top 0)
    exact .pure ⟨rfl, .node (hv.at_ (·.child 0)) trivial (by simp only [Node.names]; omega)⟩
  | get object property =>
    have names := fun p => ht.names p
    simp only [exprNodes, namesOf_cons, Node.names] at names
    have held : Held word (fun p => exprNodes (p.child 0) object) (n - [property].count word) :=
      ⟨fun p x hx => ht.plain p x (List.mem_cons_of_mem _ hx), fun p => by have := names p; omega⟩
    have first := names (Position.top 0)
    exact .pure ⟨rfl, .node (held.append (hv.at_ (·.child 1))) trivial
      (by simp only [Node.names]; omega)⟩
  | _ => exact Reads.note.bind_equal fun _ _ => .pure ⟨rfl, ht.weaken (by omega)⟩

theorem assignment_reads (ih : Agreeing ρ word fuel) :
    Reads ρ word (assignment (fuel + 1)) (assignment (fuel + 1)) (ExprRead ρ word) := by
  refine (ih.operation .or).bind_of fun a n ha => Reads.acceptMeaning.bind_of fun found i _ => ?_
  cases found with
  | none => exact .pure ⟨rfl, ha.weaken (by omega)⟩
  | some found =>
    refine ih.conditional.bind_of fun c m hc => (assignTo_reads ha hc).weaken fun d e k he => ?_
    exact ⟨he.1, he.2.weaken (by omega)⟩

theorem operation_reads (ih : Agreeing ρ word fuel) (level : Level) :
    Reads ρ word (operation (fuel + 1) level) (operation (fuel + 1) level) (ExprRead ρ word) :=
  (ih.operand level).bind fun a b n h => ih.operationTail level a b n h

theorem join_read {a c : RawExpr} {n m : Nat} (ha : Held word (fun p => exprNodes p a) n)
    (hc : Held word (fun p => exprNodes p c) m) (connective : Connective) (l : Nat) :
    ExprRead ρ word (connective.join a l c)
      (connective.join (translateExpr ρ (fun u => u) a) (ρ.line l)
        (translateExpr ρ (fun u => u) c)) (n + m) := by
  have both := (ha.at_ (·.child 0)).append (hc.at_ (·.child 1))
  cases connective with
  | logical op => exact ⟨rfl, .node both trivial (by simp [Node.names])⟩
  | binary op => exact ⟨rfl, .node both trivial (by simp [Node.names])⟩

theorem operationTail_reads (ih : Agreeing ρ word fuel) (level : Level) (a b : RawExpr) (n : Nat)
    (h : ExprRead ρ word a b n) :
    Reads ρ word (operationTail (fuel + 1) level a) (operationTail (fuel + 1) level b)
      fun c d m => ExprRead ρ word c d (n + m) := by
  obtain ⟨rfl, ha⟩ := h
  refine Reads.acceptMeaning.bind_of fun found i _ => ?_
  cases found with
  | none => exact .pure ⟨rfl, ha.weaken (by omega)⟩
  | some found =>
    refine (ih.operand level).bind_of fun c m hc => ?_
    exact (ih.operationTail level _ _ (n + m) (join_read ha hc found.1 found.2)).weaken
      fun e f k he => ⟨he.1, he.2.weaken (by omega)⟩

theorem operand_reads (ih : Agreeing ρ word fuel) (level : Level) :
    Reads ρ word (operand (fuel + 1) level) (operand (fuel + 1) level) (ExprRead ρ word) := by
  cases level with
  | factor => exact ih.unary
  | or => exact ih.operation .and
  | and => exact ih.operation .equality
  | equality => exact ih.operation .comparison
  | comparison => exact ih.operation .term
  | term => exact ih.operation .factor

theorem unary_reads (ih : Agreeing ρ word fuel) :
    Reads ρ word (unary (fuel + 1)) (unary (fuel + 1)) (ExprRead ρ word) := by
  refine Reads.acceptMeaning.bind_of fun found i _ => ?_
  cases found with
  | none =>
    exact ih.primary.bind fun a b n h => (ih.callTail a b n h).weaken fun c d m hc =>
      ⟨hc.1, hc.2.weaken (by omega)⟩
  | some found =>
    refine ih.unary.bind_of fun a n ha => .pure ⟨rfl, ?_⟩
    exact .node (ha.at_ (·.child 0)) trivial (by simp only [Node.names, List.count_nil]; omega)

theorem callTail_reads (ih : Agreeing ρ word fuel) (a b : RawExpr) (n : Nat)
    (h : ExprRead ρ word a b n) :
    Reads ρ word (callTail (fuel + 1) a) (callTail (fuel + 1) b)
      fun c d m => ExprRead ρ word c d (n + m) := by
  obtain ⟨rfl, ha⟩ := h
  refine Reads.accept.bind_equal fun paren i => ?_
  cases paren with
  | true =>
    have arguments := (ih.argumentsFrom 0).unlessAt (.symbol .rightParen)
      (R := fun a b n => ExprsRead ρ word (a.getD []) (b.getD []) n) (fun n => ⟨rfl, .nil⟩)
      fun a b m n h => ⟨h.1, h.2.weaken (by omega)⟩
    refine arguments.bind fun c d m hc => Reads.expect.bind_of fun l j _ => ?_
    refine (ih.callTail (.call a l (c.getD [])) _ (n + m) ⟨by rw [hc.1]; rfl, ?_⟩).weaken
      fun e f k he => ⟨he.1, he.2.weaken (by omega)⟩
    exact .node ((ha.at_ (·.child 0)).append (hc.2.at_ (·.child 1))) trivial (by simp [Node.names])
  | false =>
    refine Reads.accept.bind_equal fun dot j => ?_
    cases dot with
    | true =>
      refine Reads.expectName.bind_of fun property m hm => ?_
      refine (ih.callTail (.get a property) _ (n + m) ⟨rfl, ?_⟩).weaken
        fun e f k he => ⟨he.1, he.2.weaken (by omega)⟩
      exact .node (ha.at_ (·.child 0)) trivial (by simp only [Node.names]; omega)
    | false => exact .pure ⟨rfl, ha.weaken (by omega)⟩

theorem noteIf_reads {α β : Type} {c : Prop} [Decidable c] {complaint : Complaint} {x : Reading α}
    {y : Reading β} {Q : α → β → Nat → Prop} (h : ∀ n, Reads ρ word x y fun a b m => Q a b (n + m)) :
    Reads ρ word (if c then noteHere complaint >>= fun _ => x else x)
      (if c then noteHere complaint >>= fun _ => y else y) Q := by
  by_cases hc : c
  · simp only [if_pos hc]
    exact Reads.noteHere.bind_equal fun _ n => h n
  · simp only [if_neg hc]
    exact (h 0).weaken fun a b m hq => by rwa [Nat.zero_add] at hq

theorem argumentsFrom_reads (ih : Agreeing ρ word fuel) (count : Nat) :
    Reads ρ word (argumentsFrom (fuel + 1) count) (argumentsFrom (fuel + 1) count)
      (ExprsRead ρ word) := by
  refine noteIf_reads fun j => ih.conditional.bind_of fun a n ha =>
    Reads.accept.bind_equal fun comma i => ?_
  cases comma with
  | true =>
    refine (ih.argumentsFrom (count + 1)).bind_of fun c m hc => .pure ⟨rfl, ?_⟩
    exact ((ha.at_ (·.child 0)).append (hc.at_ (·.child 1))).weaken (by omega)
  | false =>
    exact .pure ⟨rfl, ((ha.at_ (·.child 0)).append (.nil (n := 0))).weaken (by omega)⟩

theorem parametersFrom_reads (fuel count : Nat) :
    Reads ρ word (parametersFrom fuel count) (parametersFrom fuel count) (ParamsRead ρ word) := by
  induction fuel generalizing count with
  | zero => exact .exhaust
  | succ fuel ih =>
    refine noteIf_reads fun j => Reads.expectName.bind_of fun param n hn =>
      Reads.accept.bind_equal fun comma i => ?_
    cases comma with
    | true =>
      refine (ih (count + 1)).bind_of fun more m hm => .pure ⟨rfl, ?_⟩
      rw [← List.singleton_append, List.count_append]
      omega
    | false => exact .pure ⟨rfl, Nat.le_trans hn (by omega)⟩

theorem parameters_reads (fuel : Nat) (role : Role) :
    Reads ρ word (parameters fuel role) (parameters fuel role) (ParamsRead ρ word) := by
  have params : Reads ρ word _ _ fun a b n =>
      ParamsRead ρ word (Option.getD a []) (Option.getD b []) n :=
    (parametersFrom_reads fuel 0).unlessAt (.symbol .rightParen)
    (fun n => ⟨rfl, Nat.zero_le n⟩) fun a b m n h => ⟨h.1, Nat.le_trans h.2 (by omega)⟩
  exact params.bind fun a b n h => Reads.expect.bind_of fun _ i _ => Reads.expect.bind_of fun _ j _ =>
    .pure ⟨h.1, Nat.le_trans h.2 (by omega)⟩

theorem primary_reads (ih : Agreeing ρ word fuel) :
    Reads ρ word (primary (fuel + 1)) (primary (fuel + 1)) (ExprRead ρ word) := by
  have leaf : ∀ {e : RawExpr} {n : Nat}, (∀ p, exprNodes p e = [(p, .expr e)]) →
      (Node.expr e).Plain → (Node.expr e).names.count word ≤ n →
      Held word (fun p => exprNodes p e) n := by
    intro e n hn plain hc
    simp only [hn]
    exact .node (.nil (n := 0)) plain hc
  refine .peek_bind .stop fun t => ?_
  have kind : (ρ.token t).kind = t.kind := rfl
  simp only [kind]
  split
  · exact Reads.advance_bind (.pure ⟨rfl, leaf (fun _ => rfl) trivial (Nat.zero_le _)⟩)
  · exact Reads.advance_bind (.pure ⟨rfl, leaf (fun _ => rfl) trivial (Nat.zero_le _)⟩)
  · exact Reads.advance_bind (.pure ⟨rfl, leaf (fun _ => rfl) trivial (Nat.zero_le _)⟩)
  · exact Reads.advance_bind (.pure ⟨rfl, leaf (fun _ => rfl) trivial (Nat.zero_le _)⟩)
  · exact Reads.advance_bind (.pure ⟨rfl, leaf (fun _ => rfl) trivial (Nat.zero_le _)⟩)
  · exact Reads.advance_bind (.pure ⟨rfl, leaf (fun _ => rfl) trivial (Nat.zero_le _)⟩)
  · rename_i hk
    refine Reads.advance_bind (.pure ⟨?_, leaf (fun _ => rfl) trivial ?_⟩)
    · simp only [Renaming.token, hk, if_true]
      rfl
    · simp only [hk, Node.names, beq_self_eq_true, Bool.true_and, List.count_singleton]
      exact Nat.le_refl _
  · exact Reads.advance_bind (ih.expression.bind_of fun a n ha => Reads.expect.bind_of fun _ i _ =>
      .pure ⟨rfl, .node (ha.at_ (·.child 0)) trivial
        (by simp only [Node.names, List.count_nil]; omega)⟩)
  · refine Reads.advance_bind (Reads.expect.bind_of fun _ i _ => (parameters_reads fuel _).bind_of
      fun params n hn => (ih.blockBody.withLoops).bind_of fun body m hm => .pure ⟨rfl, ?_⟩)
    exact .node (((hm.at_ fun p => ((p.child 0).function params body).child 0).cons
      (fun p => p.child 0) (.code params body) trivial)) trivial
      (by simp only [Node.names, List.count_nil]; omega)
  · exact Reads.stop.from_ t

theorem append_read {a b : Option RawStmt} {c d : List RawStmt} {n m : Nat}
    (h : StmtsRead ρ word a.toList b.toList n) (h' : StmtsRead ρ word c d m) :
    StmtsRead ρ word (a.toList ++ c) (b.toList ++ d) (n + m) := by
  rw [h.1, h'.1]
  cases a with
  | none => exact ⟨rfl, h'.2.weaken (by omega)⟩
  | some s =>
    have first : Held word (fun p => stmtNodes (p.child 0) s) n := Held.left h.2
    exact ⟨rfl, first.append (h'.2.at_ fun p => (p.after s).child 1)⟩

theorem blockBody_reads (ih : Agreeing ρ word fuel) :
    Reads ρ word (blockBody (fuel + 1)) (blockBody (fuel + 1)) (StmtsRead ρ word) := by
  refine Reads.atEnd.bind_equal fun ended i => Reads.at_.bind_equal fun brace j => ?_
  cases ended || brace with
  | true => exact Reads.expect.bind_of fun _ _ _ => .pure ⟨rfl, .nil⟩
  | false =>
    refine ih.declaration.bind fun a b n h => ih.blockBody.bind fun c d m h' => .pure ?_
    have both := append_read h h'
    exact ⟨both.1, both.2.weaken (by omega)⟩

theorem declaration_reads (ih : Agreeing ρ word fuel) :
    Reads ρ word (declaration (fuel + 1)) (declaration (fuel + 1))
      fun a b => StmtsRead ρ word a.toList b.toList :=
  ih.declared.recovering (fun _ => ⟨rfl, .nil⟩) fun _ _ _ h => ⟨congrArg (fun s => [s]) h.1,
    ((h.2.at_ (·.child 0)).append (.nil (n := 0))).weaken (Nat.le_refl _)⟩

theorem named_reads (ih : Agreeing ρ word fuel) (role : Role) :
    Reads ρ word (named (fuel + 1) role) (named (fuel + 1) role) (NamedRead ρ word) := by
  refine Reads.expectName.bind_of fun name n hn => Reads.expect.bind_of fun _ i _ =>
    (parameters_reads fuel role).bind_of fun params m hm =>
      (ih.blockBody.withLoops).bind_of fun body k hk => .pure ?_
  exact ⟨n, m + k, by omega, ⟨rfl, hn⟩, m, k, Nat.le_refl _, ⟨rfl, hm⟩, rfl, hk⟩

theorem code_held {params : List Name} {body : List RawStmt} {n m : Nat}
    (hn : params.count word ≤ n) (hm : Held word (fun p => stmtsNodes p body) m)
    (place : Position → Position) :
    Held word (fun p => (place p, .code params body) ::
      stmtsNodes (((place p).function params body).child 0) body) (n + m) :=
  ((hm.at_ fun p => ((place p).function params body).child 0).cons place
    (.code params body) trivial).weaken (Nat.add_le_add_right hn m)

theorem methodList_reads (ih : Agreeing ρ word fuel) :
    Reads ρ word (methodList (fuel + 1)) (methodList (fuel + 1)) (MethodsRead ρ word) := by
  refine Reads.atEnd.bind_equal fun ended i => Reads.at_.bind_equal fun brace j => ?_
  cases ended || brace with
  | true => exact .pure ⟨0, 0, by omega, Nat.le_refl _, rfl, .nil⟩
  | false =>
    refine (ih.named .method).bind fun a b n h => ih.methodList.bind fun ms ms' k h' => .pure ?_
    obtain ⟨name, params, body⟩ := a
    obtain ⟨n₁, n₂, hn, ⟨hname, hline⟩, n₃, n₄, hn', ⟨hparams, hcount⟩, hbody, held⟩ := h
    obtain ⟨k₁, k₂, hk, names, hms, held'⟩ := h'
    refine ⟨n₁ + k₁, n₃ + n₄ + k₂, by omega, ?_, ?_, ?_⟩
    · rw [List.map_cons, ← List.singleton_append, List.count_append]
      exact Nat.add_le_add hline names
    · obtain ⟨name', params', body'⟩ := b
      simp only at hname hparams hbody
      rw [hname, hparams, hbody, hms]
      rfl
    · exact (code_held hcount held (·.child 0)).append (held'.at_ (·.child 1))

theorem variableDeclaration_reads (ih : Agreeing ρ word fuel) :
    Reads ρ word (variableDeclaration (fuel + 1)) (variableDeclaration (fuel + 1))
      (StmtRead ρ word) := by
  have rest : ∀ (name : Name) (value : Option RawExpr) (n m : Nat), [name].count word ≤ n →
      (∀ e ∈ value, Held word (fun p => exprNodes p e) m) →
      Reads ρ word
        (expect .semicolon .afterVariable >>= fun _ => pure (Stmt.var name value))
        (expect .semicolon .afterVariable >>= fun _ =>
          pure (Stmt.var (ρ.name name) (value.map (translateExpr ρ fun u => u))))
        fun a b k => StmtRead ρ word a b (n + m + k) := by
    intro name value n m hn hm
    refine Reads.expect.bind_of fun _ j _ => .pure ?_
    cases value with
    | none => exact ⟨rfl, .node (.nil (n := 0)) trivial (by simp only [Node.names]; omega)⟩
    | some e =>
      exact ⟨rfl, .node ((hm e rfl).at_ fun p => (p.pend name).child 0) trivial
        (by simp only [Node.names]; omega)⟩
  refine Reads.advance.bind_equal fun _ i => Reads.expectName.bind_of fun name n hn =>
    Reads.accept.bind_equal fun equal j => ?_
  cases equal with
  | true =>
    have value : Reads ρ word (some <$> expression fuel) (some <$> expression fuel)
        (OptionRead ρ word) :=
      ih.expression.map fun a b n h => ⟨congrArg some h.1, fun e he => by cases he; exact h.2⟩
    refine value.bind_of fun value m hm => (rest name value n m hn hm).weaken fun a b k h => ?_
    exact ⟨h.1, h.2.weaken (by omega)⟩
  | false =>
    refine (rest name none n 0 hn fun _ h => by cases h).weaken fun a b k h => ?_
    exact ⟨h.1, h.2.weaken (by omega)⟩

theorem declared_reads (ih : Agreeing ρ word fuel) :
    Reads ρ word (declared (fuel + 1)) (declared (fuel + 1)) (StmtRead ρ word) := by
  refine Reads.accept.bind_equal fun isClass i => ?_
  cases isClass with
  | true =>
    refine Reads.expectName.bind_of fun name n hn => Reads.expect.bind_of fun _ j _ =>
      ih.methodList.bind fun ms ms' k h => Reads.expect.bind_of fun _ l _ => .pure ?_
    obtain ⟨k₁, k₂, hk, names, rfl, held⟩ := h
    refine ⟨rfl, .node (held.at_ fun p => (p.declare name).class_.child 0) trivial ?_⟩
    rw [Node.names, ← List.singleton_append, List.count_append]
    omega
  | false =>
    refine Reads.at_.bind_equal fun isFunction j => Reads.nameFollows.bind_equal fun named k => ?_
    cases isFunction && named with
    | true =>
      refine Reads.advance.bind_equal fun _ l => (ih.named .function).bind fun a b n h => .pure ?_
      obtain ⟨name, params, body⟩ := a
      obtain ⟨name', params', body'⟩ := b
      obtain ⟨n₁, n₂, hn, ⟨rfl, hline⟩, n₃, n₄, hn', ⟨rfl, hcount⟩, rfl, held⟩ := h
      simp only at hline hcount
      exact ⟨rfl, .node (code_held hcount held fun p => (p.declare name).child 0) trivial
        (by simp only [Node.names]; omega)⟩
    | false =>
      refine Reads.at_.bind_equal fun isVar l => ?_
      cases isVar with
      | true => exact ih.variableDeclaration.weaken fun a b n h => ⟨h.1, h.2.weaken (by omega)⟩
      | false => exact ih.statement.weaken fun a b n h => ⟨h.1.1, h.1.2.weaken (by omega)⟩

theorem expressionStatement_reads (ih : Agreeing ρ word fuel) :
    Reads ρ word (expressionStatement (fuel + 1)) (expressionStatement (fuel + 1))
      (PlainRead ρ word) := by
  refine ih.expression.bind_of fun e n he => Reads.expect.bind_of fun _ i _ => .pure ⟨⟨rfl, ?_⟩, rfl⟩
  exact .node (he.at_ (·.child 0)) trivial (by simp only [Node.names, List.count_nil]; omega)

theorem while_read {condition : RawExpr} {body body' : RawStmt} {n m : Nat}
    (hc : Held word (fun p => exprNodes p condition) n) (hb : PlainRead ρ word body body' m) :
    PlainRead ρ word (.while_ condition body)
      (.while_ (translateExpr ρ (fun u => u) condition) body') (n + m) := by
  obtain ⟨⟨rfl, held⟩, plain⟩ := hb
  exact ⟨⟨rfl, .node ((hc.at_ (·.child 0)).append (held.at_ (·.loop.child 1))) plain
    (by simp only [Node.names, List.count_nil]; omega)⟩, rfl⟩

theorem step_read {increment : RawExpr} {body body' : RawStmt} {n m : Nat}
    (hs : Held word (fun p => exprNodes p increment) n) (hb : PlainRead ρ word body body' m) :
    PlainRead ρ word (.step body increment)
      (.step body' (translateExpr ρ (fun u => u) increment)) (n + m) := by
  obtain ⟨⟨rfl, held⟩, plain⟩ := hb
  exact ⟨⟨rfl, .node ((held.at_ fun p => (p.opened [] []).child 0).append
    (hs.at_ fun p => (p.opened [] []).child 1)) plain
    (by simp only [Node.names, List.count_nil]; omega)⟩, rfl⟩

/-- A loop behind its initializer, if there is one. -/
theorem initialized_read {initial : Option RawStmt} {loop loop' : RawStmt} {n m : Nat}
    (hi : ∀ s ∈ initial, Held word (fun p => stmtNodes p s) n) (hl : PlainRead ρ word loop loop' m)
    {whole whole' : RawStmt}
    (hw : whole = (initial.map fun s => Stmt.block [s, loop]).getD loop)
    (hw' : whole' =
      ((initial.map (translateStmt ρ fun u => u)).map fun s => Stmt.block [s, loop']).getD loop') :
    PlainRead ρ word whole whole' (n + m) := by
  obtain ⟨⟨rfl, held⟩, plain⟩ := hl
  subst hw hw'
  cases initial with
  | none => exact ⟨⟨rfl, held.weaken (by omega)⟩, plain⟩
  | some s =>
    refine ⟨⟨rfl, .node (n := n + (m + 0)) ?_ trivial
      (by simp only [Node.names, List.count_nil]; omega)⟩, rfl⟩
    exact ((hi s rfl).at_ fun p => ((p.block [s, loop]).child 0).child 0).append
      ((held.at_ fun p => ((((p.block [s, loop]).child 0).after s).child 1).child 0).append .nil)

theorem forLoop_read {initial : Option RawStmt} {condition increment : Option RawExpr}
    {body : RawStmt} {i j k n : Nat}
    (hi : ∀ s ∈ initial, Held word (fun p => stmtNodes p s) i)
    (hc : ∀ e ∈ condition, Held word (fun p => exprNodes p e) j)
    (hs : ∀ e ∈ increment, Held word (fun p => exprNodes p e) k)
    (hb : PlainRead ρ word body (translateStmt ρ (fun u => u) body) n) :
    PlainRead ρ word (.forLoop initial condition increment body)
      (.forLoop (initial.map (translateStmt ρ fun u => u))
        (condition.map (translateExpr ρ fun u => u)) (increment.map (translateExpr ρ fun u => u))
        (translateStmt ρ (fun u => u) body)) (i + (j + (k + n))) := by
  have test : Held word (fun p => exprNodes p (condition.getD (.literal (.bool true)))) j := by
    cases condition with
    | none => exact .node (.nil (n := 0)) trivial (Nat.zero_le _)
    | some e => exact hc e rfl
  have translated : translateExpr ρ (fun u => u) (condition.getD (.literal (.bool true))) =
      (condition.map (translateExpr ρ fun u => u)).getD (.literal (.bool true)) := by
    cases condition <;> rfl
  cases increment with
  | none =>
    have loop := while_read test hb
    rw [translated] at loop
    refine initialized_read hi ⟨⟨loop.1.1, loop.1.2.weaken (by omega)⟩, loop.2⟩ ?_ ?_
    · cases initial <;> rfl
    · cases initial <;> rfl
  | some e =>
    have loop := while_read test (step_read (hs e rfl) hb)
    rw [translated] at loop
    refine initialized_read hi loop ?_ ?_
    · cases initial <;> rfl
    · cases initial <;> rfl

theorem option_read (ih : Agreeing ρ word fuel) {kind : Kind} :
    Reads ρ word (unlessAt kind (expression fuel)) (unlessAt kind (expression fuel))
      (OptionRead ρ word) := by
  refine ih.expression.unlessAt kind (fun _ => ⟨rfl, fun _ h => by cases h⟩) fun a b m n h => ?_
  exact ⟨congrArg some h.1, fun e he => by cases he; exact h.2.weaken (by omega)⟩

theorem forStatement_reads (ih : Agreeing ρ word fuel) :
    Reads ρ word (forStatement (fuel + 1)) (forStatement (fuel + 1)) (PlainRead ρ word) := by
  have rest : ∀ (initial : Option RawStmt) (i : Nat),
      (∀ s ∈ initial, Held word (fun p => stmtNodes p s) i) →
      Reads ρ word
        (do
          let condition ← unlessAt (.symbol .semicolon) (expression fuel)
          let _ ← expect .semicolon .afterLoopCondition
          let increment ← unlessAt (.symbol .rightParen) (expression fuel)
          let _ ← expect .rightParen .afterForClauses
          let body ← insideLoop (statement fuel)
          pure (.forLoop initial condition increment body))
        (do
          let condition ← unlessAt (.symbol .semicolon) (expression fuel)
          let _ ← expect .semicolon .afterLoopCondition
          let increment ← unlessAt (.symbol .rightParen) (expression fuel)
          let _ ← expect .rightParen .afterForClauses
          let body ← insideLoop (statement fuel)
          pure (.forLoop (initial.map (translateStmt ρ fun u => u)) condition increment body))
        fun a b m => PlainRead ρ word a b (i + m) := by
    intro initial i hi
    refine (option_read ih).bind_of fun condition j hc => Reads.expect.bind_of fun _ j' _ =>
      (option_read ih).bind_of fun increment k hs => Reads.expect.bind_of fun _ k' _ =>
        ih.statement.withLoops.bind fun body body' n hb => .pure ?_
    have hb' := hb
    obtain ⟨⟨rfl, _⟩, _⟩ := hb'
    have whole := forLoop_read hi hc hs hb
    exact ⟨⟨whole.1.1, whole.1.2.weaken (by omega)⟩, whole.2⟩
  refine Reads.expect.bind_of fun _ i _ => Reads.accept.bind_equal fun empty j => ?_
  cases empty with
  | true =>
    refine (rest none 0 fun _ h => by cases h).weaken fun a b m h => ?_
    exact ⟨⟨h.1.1, h.1.2.weaken (by omega)⟩, h.2⟩
  | false =>
    refine Reads.at_.bind_equal fun isVar k => ?_
    have clause : ∀ {x y : Reading RawStmt}, Reads ρ word x y (StmtRead ρ word) →
        Reads ρ word (some <$> x) (some <$> y) fun a b n =>
          b = a.map (translateStmt ρ fun u => u) ∧ ∀ s ∈ a, Held word (fun p => stmtNodes p s) n :=
      fun h => h.map fun a b n h => ⟨congrArg some h.1, fun s hs => by cases hs; exact h.2⟩
    cases isVar with
    | true =>
      refine (clause ih.variableDeclaration).bind_of fun initial n hi =>
        (rest initial n hi).weaken fun a b m h => ?_
      exact ⟨⟨h.1.1, h.1.2.weaken (by omega)⟩, h.2⟩
    | false =>
      refine (clause (ih.expressionStatement.weaken fun a b n h => h.1)).bind_of fun initial n hi =>
        (rest initial n hi).weaken fun a b m h => ?_
      exact ⟨⟨h.1.1, h.1.2.weaken (by omega)⟩, h.2⟩

theorem jumpStatement_reads (jump : Jump) (l : Nat) :
    Reads ρ word (jumpStatement jump l) (jumpStatement jump (ρ.line l)) (PlainRead ρ word) := by
  have leaf : ∀ n, PlainRead ρ word (.jump jump l) (.jump jump (ρ.line l)) n := fun n =>
    ⟨⟨rfl, .node (.nil (n := 0)) trivial (Nat.zero_le n)⟩, rfl⟩
  refine Reads.loopsAround.bind_equal fun loops i => ?_
  by_cases hl : loops = 0
  · simp only [if_pos hl]
    exact Reads.note.bind_equal fun _ _ => Reads.expect.bind_of fun _ _ _ => .pure (leaf _)
  · simp only [if_neg hl]
    exact Reads.expect.bind_of fun _ _ _ => .pure (leaf _)

theorem statement_reads (ih : Agreeing ρ word fuel) :
    Reads ρ word (statement (fuel + 1)) (statement (fuel + 1)) (PlainRead ρ word) := by
  refine .peek_bind ih.expressionStatement fun t => ?_
  have kind : (ρ.token t).kind = t.kind := rfl
  simp only [kind]
  split
  · refine Reads.advance_bind (ih.expression.bind_of fun e n he => Reads.expect.bind_of fun _ i _ =>
      .pure ⟨⟨rfl, ?_⟩, rfl⟩)
    exact .node (he.at_ (·.child 0)) trivial (by simp only [Node.names, List.count_nil]; omega)
  · exact Reads.advance_bind (ih.forStatement.weaken fun a b n h =>
      ⟨⟨h.1.1, h.1.2.weaken (by omega)⟩, h.2⟩)
  · refine Reads.advance_bind (Reads.expect.bind_of fun _ i _ => ih.expression.bind_of
      fun condition n hc => Reads.expect.bind_of fun _ j _ => ih.statement.bind fun yes yes' m hy =>
        Reads.accept.bind_equal fun hasElse k => ?_)
    obtain ⟨⟨rfl, hyes⟩, plain⟩ := hy
    cases hasElse with
    | true =>
      have no : Reads ρ word (some <$> statement fuel) (some <$> statement fuel)
          fun a b n => b = a.map (translateStmt ρ fun u => u) ∧
            ∃ s, a = some s ∧ PlainRead ρ word s (translateStmt ρ (fun u => u) s) n :=
        ih.statement.map fun a b n h => by
          obtain ⟨⟨rfl, held⟩, hp⟩ := h
          exact ⟨rfl, a, rfl, ⟨rfl, held⟩, hp⟩
      refine no.bind_of fun no l hn => .pure ?_
      obtain ⟨s, rfl, ⟨_, hno⟩, plain'⟩ := hn
      refine ⟨⟨rfl, .node (((hc.at_ (·.child 0)).append (hyes.at_ (·.child 1))).append
        (hno.at_ (·.child 2))) ⟨plain, ?_⟩ (by simp only [Node.names, List.count_nil]; omega)⟩, rfl⟩
      rintro _ ⟨⟩
      exact plain'
    | false =>
      refine .pure ⟨⟨rfl, .node ((hc.at_ (·.child 0)).append (hyes.at_ (·.child 1))) ⟨plain, ?_⟩
        (by simp only [Node.names, List.count_nil]; omega)⟩, rfl⟩
      exact fun _ h => by cases h
  · refine Reads.advance_bind ((option_read ih).bind_of fun value n hv => Reads.expect.bind_of
      fun _ i _ => .pure ?_)
    cases value with
    | none => exact ⟨⟨rfl, .node (.nil (n := 0)) trivial (Nat.zero_le _)⟩, rfl⟩
    | some e =>
      exact ⟨⟨rfl, .node ((hv e rfl).at_ (·.child 0)) trivial
        (by simp only [Node.names, List.count_nil]; omega)⟩, rfl⟩
  · refine Reads.advance_bind (Reads.expect.bind_of fun _ i _ => ih.expression.bind_of
      fun condition n hc => Reads.expect.bind_of fun _ j _ =>
        (ih.statement.withLoops).bind fun body body' m hb => .pure ?_)
    have loop := while_read hc hb
    exact ⟨⟨loop.1.1, loop.1.2.weaken (by omega)⟩, loop.2⟩
  · exact Reads.advance_bind ((jumpStatement_reads _ _).weaken fun a b n h =>
      ⟨⟨h.1.1, h.1.2.weaken (by omega)⟩, h.2⟩)
  · exact Reads.advance_bind ((jumpStatement_reads _ _).weaken fun a b n h =>
      ⟨⟨h.1.1, h.1.2.weaken (by omega)⟩, h.2⟩)
  · refine Reads.advance_bind (ih.blockBody.bind_of fun body n hb => .pure ⟨⟨rfl, ?_⟩, rfl⟩)
    exact .node (hb.at_ fun p => (p.block body).child 0) trivial
      (by simp only [Node.names, List.count_nil]; omega)
  · exact ih.expressionStatement.from_ t

theorem agreeing (fuel : Nat) : Agreeing ρ word fuel := by
  induction fuel with
  | zero => exact agreeing_zero ρ word
  | succ fuel ih =>
    exact
      { expression := expression_reads ih
        sequenceTail := sequenceTail_reads ih
        conditional := conditional_reads ih
        assignment := assignment_reads ih
        operation := operation_reads ih
        operationTail := operationTail_reads ih
        operand := operand_reads ih
        unary := unary_reads ih
        callTail := callTail_reads ih
        argumentsFrom := argumentsFrom_reads ih
        primary := primary_reads ih
        blockBody := blockBody_reads ih
        declaration := declaration_reads ih
        declared := declared_reads ih
        named := named_reads ih
        methodList := methodList_reads ih
        variableDeclaration := variableDeclaration_reads ih
        expressionStatement := expressionStatement_reads ih
        statement := statement_reads ih
        forStatement := forStatement_reads ih }

theorem declarations_reads (ρ : Renaming) (word : Name) (fuel : Nat) :
    Reads ρ word (declarations fuel) (declarations fuel) (StmtsRead ρ word) := by
  induction fuel with
  | zero => exact .exhaust
  | succ fuel ih =>
    refine Reads.atEnd.bind_equal fun ended i => ?_
    cases ended with
    | true => exact .pure ⟨rfl, .nil⟩
    | false =>
      refine (agreeing fuel).declaration.bind fun a b n h => ih.bind fun c d m h' => .pure ?_
      have both := append_read h h'
      exact ⟨both.1, both.2.weaken (by omega)⟩

/-- Reading the renamed tokens gives the renamed program and as many complaints. -/
theorem readProgram_renamed (tokens : List Token) (endLine endLine' : Nat) :
    let result := readProgram tokens endLine
    let renamed := readProgram (tokens.map ρ.token) endLine'
    renamed.statements = translateStmts ρ (fun u => u) result.statements ∧
      renamed.reports.length = result.reports.length := by
  have alike : Alike ρ ⟨tokens, endLine, [], 0⟩ ⟨tokens.map ρ.token, endLine', [], 0⟩ :=
    ⟨rfl, rfl, rfl⟩
  have agree := declarations_reads ρ ⟨"", 0⟩ (fuelFor tokens) _ _ alike
  have fuel : fuelFor (tokens.map ρ.token) = fuelFor tokens := by
    rw [fuelFor, fuelFor, List.length_map]
  simp only [readProgram, fuel]
  generalize declarations (fuelFor tokens) ⟨tokens, _, _, _⟩ = r at agree ⊢
  generalize declarations (fuelFor tokens) ⟨tokens.map ρ.token, _, _, _⟩ = r' at agree ⊢
  cases agree with
  | ok alike n taken post => exact ⟨post.1, alike.reports⟩
  | complaint alike taken => exact ⟨rfl, alike.reports⟩
  | exhausted alike taken => exact ⟨rfl, alike.reports⟩

/-- A program that is read has declarations in lists of statements only, and no name more often
than its tokens. -/
theorem readProgram_held (tokens : List Token) (endLine : Nat) (word : Name) :
    Held word (fun p => stmtsNodes p (readProgram tokens endLine).statements)
      (tokensOf word tokens) := by
  have agree := declarations_reads .identity word (fuelFor tokens)
    ⟨tokens, endLine, [], 0⟩ ⟨tokens.map Renaming.identity.token, endLine, [], 0⟩ ⟨rfl, rfl, rfl⟩
  simp only [readProgram]
  generalize declarations (fuelFor tokens) ⟨tokens, _, _, _⟩ = r at agree ⊢
  generalize declarations (fuelFor tokens) ⟨tokens.map _, _, _, _⟩ = r' at agree
  cases agree with
  | ok alike n taken post =>
    simp only at taken
    exact post.2.weaken (by omega)
  | complaint alike taken => exact .nil
  | exhausted alike taken => exact .nil

end Lexical

end Script
