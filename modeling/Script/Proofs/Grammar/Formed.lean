import Script.Proofs.Grammar.Expressions
import Script.Proofs.Grammar.Productions

/-! Well-formed trees.
What has to hold of each node of a tree that was read from tokens: the names, operators and keywords
it keeps are tokens of the right kind, its parts are as tight as their places ask for, and a
declaration or the body of a loop with its increment stands only where one may. -/
namespace Script

open Lexical

variable {β : Type}

def Expr.elements : Expr β → List (Expr β)
  | sequence earlier last => earlier.elements ++ [last]
  | e => [e]

theorem Expr.elements_ne_nil (e : Expr β) : e.elements ≠ [] := by
  cases e with
  | sequence earlier last => exact List.concat_ne_nil last earlier.elements
  | _ => exact List.cons_ne_nil _ _

namespace Grammar

variable {tokens : List Token}

/-- A token of the kind stands on the line. -/
def Stored (tokens : List Token) (kind : Kind) (line : Nat) : Prop :=
  ∃ t ∈ tokens, t.kind = kind ∧ t.line = line

def StoredName (tokens : List Token) (name : Name) : Prop :=
  ∃ t ∈ tokens, t.kind = .name ∧ name = ⟨t.lexeme, t.line⟩

/-- The condition and the body of a loop that a stretch of the tokens is. Only a `for` statement with
an increment has a body that is followed by one. -/
inductive LoopAmong (tokens : List Token) : RawExpr → RawStmt → Prop
  | while_ {e s ts} : ts <:+: tokens → Derives (.whileLoop e s) ts → s.Bare → LoopAmong tokens e s
  | for_ {i e e' s ts} : ts <:+: tokens → Derives (.forLoop i e e' s) ts → s.Bare →
    LoopAmong tokens (.orTrue e) (.looped e' s)

end Grammar

open Grammar

/-- What holds of a node that was read from the tokens. -/
def Lexical.Node.Formed (tokens : List Token) : Node Unit → Prop
  | .expr (.literal value) =>
    value = .bool true ∨ ∃ t ∈ tokens, literal? t.kind = some value
  | .expr (.grouping _) => True
  | .expr (.variable name _) => StoredName tokens name
  | .expr (.assign name _ value) => StoredName tokens name ∧ Grade.conditional.Admits value
  | .expr (.this line _) => Stored tokens (.keyword .this_) line
  | .expr (.unary op line operand) =>
    Stored tokens (.symbol op.symbol) line ∧ Grade.unary.Admits operand
  | .expr (.binary left op line right) =>
    Stored tokens (.symbol op.symbol) line ∧
      (Grade.level op.level).Admits left ∧ op.level.rank < right.grade.rank
  | .expr (.logical left op line right) =>
    Stored tokens (.keyword op.keyword) line ∧
      (Grade.level op.level).Admits left ∧ op.level.rank < right.grade.rank
  | .expr (.ternary condition yes no) =>
    (Grade.level .or).Admits condition ∧ Grade.conditional.Admits yes ∧ Grade.conditional.Admits no
  | .expr (.sequence earlier last) =>
    2 ≤ (Expr.sequence earlier last).elements.length ∧
      ∀ e ∈ (Expr.sequence earlier last).elements, Grade.conditional.Admits e
  | .expr (.call callee line arguments) =>
    Stored tokens (.symbol .rightParen) line ∧ Grade.call.Admits callee ∧
      ∀ e ∈ arguments, Grade.conditional.Admits e
  | .expr (.get object property) => StoredName tokens property ∧ Grade.call.Admits object
  | .expr (.set object property value) =>
    StoredName tokens property ∧ Grade.call.Admits object ∧ Grade.conditional.Admits value
  | .expr (.function _ _) => True
  | .stmt (.expression _) => True
  | .stmt (.print _) => True
  | .stmt (.var name _) => StoredName tokens name
  | .stmt (.block body) => ∀ s ∈ body, s.isStep = false
  | .stmt (.step body _) => body.Bare
  | .stmt (.if_ _ yes no) => yes.Bare ∧ ∀ s ∈ no, s.Bare
  | .stmt (.while_ condition body) => LoopAmong tokens condition body
  | .stmt (.jump jump line) => Stored tokens (.keyword jump.keyword) line
  | .stmt (.function name _ _) => StoredName tokens name
  | .stmt (.return_ line _) => Stored tokens (.keyword .return_) line
  | .stmt (.class_ name methods) =>
    StoredName tokens name ∧ ∀ m ∈ methods, StoredName tokens m.name
  | .code params body => (∀ n ∈ params, StoredName tokens n) ∧ ∀ s ∈ body, s.isStep = false

namespace Grammar

variable {tokens ts us : List Token}

theorem infix_parts (h : ts ++ us <:+: tokens) : ts <:+: tokens ∧ us <:+: tokens :=
  ⟨(List.prefix_append ts us).isInfix.trans h, (List.suffix_append ts us).isInfix.trans h⟩

theorem infix_three {vs : List Token} (h : ts ++ (us ++ vs) <:+: tokens) :
    ts <:+: tokens ∧ us <:+: tokens ∧ vs <:+: tokens :=
  ⟨(infix_parts h).1, infix_parts (infix_parts h).2⟩

theorem infix_five {vs ws xs : List Token} (h : ts ++ (us ++ (vs ++ (ws ++ xs))) <:+: tokens) :
    ts <:+: tokens ∧ us <:+: tokens ∧ vs <:+: tokens ∧ ws <:+: tokens ∧ xs <:+: tokens :=
  ⟨(infix_three h).1, (infix_three h).2.1, infix_three (infix_three h).2.2⟩

theorem Took.stored {kind : Kind} {line : Nat} (h : Took kind line ts) (among : ts <:+: tokens) :
    Stored tokens kind line := by
  obtain ⟨t, rfl, hk, hl⟩ := h
  exact ⟨t, among.subset (List.mem_singleton_self t), hk, hl⟩

theorem TookName.stored {name : Name} (h : TookName name ts) (among : ts <:+: tokens) :
    StoredName tokens name := by
  obtain ⟨t, rfl, hk, hn⟩ := h
  exact ⟨t, among.subset (List.mem_singleton_self t), hk, hn⟩

theorem Grade.Admits.mono {g g' : Grade} {e : RawExpr} (h : g'.Admits e) (rank : g.rank ≤ g'.rank) :
    g.Admits e := Nat.le_trans rank h

theorem rank_right (level : Level) : level.right.rank = level.rank + 1 := by cases level <;> rfl

def AllFormed (tokens : List Token) (nodes : List (Position × Node Unit)) : Prop :=
  ∀ x ∈ nodes, x.2.Formed tokens

namespace AllFormed

variable {nodes nodes' : List (Position × Node Unit)} {p : Position} {n : Node Unit}

theorem nil : AllFormed tokens [] := List.forall_mem_nil _

theorem append (h : AllFormed tokens nodes) (h' : AllFormed tokens nodes') :
    AllFormed tokens (nodes ++ nodes') := List.forall_mem_append.mpr ⟨h, h'⟩

theorem node (h : AllFormed tokens nodes) (formed : n.Formed tokens) :
    AllFormed tokens ((p, n) :: nodes) := List.forall_mem_cons.mpr ⟨formed, h⟩

theorem leaf (formed : n.Formed tokens) : AllFormed tokens [(p, n)] := nil.node formed

end AllFormed

def ExprFormed (tokens : List Token) (e : RawExpr) : Prop := ∀ p, AllFormed tokens (exprNodes p e)

def StmtFormed (tokens : List Token) (s : RawStmt) : Prop := ∀ p, AllFormed tokens (stmtNodes p s)

def StmtsFormed (tokens : List Token) (ss : List RawStmt) : Prop :=
  (∀ s ∈ ss, s.isStep = false) ∧ ∀ p, AllFormed tokens (stmtsNodes p ss)

/-- What a phrase that was read from the tokens is. -/
def Phrase.Formed (tokens : List Token) : Phrase → Prop
  | .expr grade e => grade.Admits e ∧ ExprFormed tokens e
  | .arguments es => (∀ e ∈ es, Grade.conditional.Admits e) ∧ ∀ p, AllFormed tokens (exprsNodes p es)
  | .params ns => ∀ n ∈ ns, StoredName tokens n
  | .code ns ss => (∀ n ∈ ns, StoredName tokens n) ∧ StmtsFormed tokens ss
  | .statement s => s.Bare ∧ StmtFormed tokens s
  | .declaration s => s.isStep = false ∧ StmtFormed tokens s
  | .body ss => StmtsFormed tokens ss
  | .methods ms => (∀ m ∈ ms, StoredName tokens m.name) ∧ ∀ p, AllFormed tokens (methodsNodes p ms)
  | .clause e => ∀ e' ∈ e, ExprFormed tokens e'
  | .initial i => ∀ s ∈ i, s.isStep = false ∧ StmtFormed tokens s
  | .whileLoop e s => ExprFormed tokens e ∧ s.Bare ∧ StmtFormed tokens s
  | .forLoop i e e' s => (∀ s ∈ i, s.isStep = false ∧ StmtFormed tokens s) ∧
    (∀ c ∈ e, ExprFormed tokens c) ∧ (∀ c ∈ e', ExprFormed tokens c) ∧
      s.Bare ∧ StmtFormed tokens s

theorem conditional_admits {e : RawExpr} (h : ∀ earlier last, e ≠ .sequence earlier last) :
    Grade.conditional.Admits e := by
  cases e with
  | sequence earlier last => exact absurd rfl (h earlier last)
  | binary left op line right => exact Nat.le_of_succ_le (rank_bounds op.level).1
  | logical left op line right => exact Nat.le_of_succ_le (rank_bounds op.level).1
  | _ => exact Nat.le_of_ble_eq_true rfl

/-- A sequence has its earlier elements and one more. -/
theorem sequence_formed {earlier last : RawExpr} (he : ExprFormed tokens earlier)
    (admits : Grade.conditional.Admits last) (hl : ExprFormed tokens last) :
    ExprFormed tokens (.sequence earlier last) := by
  have elements : ∀ e ∈ earlier.elements, Grade.conditional.Admits e := by
    cases earlier with
    | sequence e e' => exact (he (.top 0) _ List.mem_cons_self).2
    | _ =>
      intro e h
      cases List.mem_singleton.mp h
      exact conditional_admits nofun
  refine fun p => ((he _).append (hl _)).node ⟨?_, ?_⟩
  · have some := List.length_pos_iff.mpr earlier.elements_ne_nil
    rw [Expr.elements, List.length_append, List.length_singleton]
    omega
  · rw [Expr.elements, List.forall_mem_append]
    exact ⟨elements, List.forall_mem_singleton.mpr admits⟩

/-- What is assigned to keeps its parts, and what is no target stays as it is. -/
theorem assigned_formed {target value : RawExpr} (ht : ExprFormed tokens target)
    (admitsTarget : (Grade.level .or).Admits target) (admits : Grade.conditional.Admits value)
    (hv : ExprFormed tokens value) :
    Grade.conditional.Admits (assigned target value) ∧ ExprFormed tokens (assigned target value) := by
  cases target with
  | «variable» name site =>
    exact ⟨Nat.le_refl 1, fun p => (hv _).node ⟨ht p _ List.mem_cons_self, admits⟩⟩
  | get object property =>
    have inner (p : Position) := List.forall_mem_cons.mp (ht p)
    exact ⟨Nat.le_refl 1, fun p => (AllFormed.append (inner p).2 (hv _)).node
      ⟨(inner p).1.1, (inner p).1.2, admits⟩⟩
  | _ => exact ⟨admitsTarget.mono (by decide), ht⟩

theorem code_formed {params : List Name} {body : List RawStmt}
    (h : Phrase.Formed tokens (.code params body)) (p : Position) :
    AllFormed tokens (codeNodes p params body) := (h.2.2 _).node ⟨h.1, h.2.1⟩

/-- A `for` statement is formed of its clauses and its body. -/
theorem forLoop_formed {i : Option RawStmt} {e e' : Option RawExpr} {s : RawStmt}
    (formed : Phrase.Formed tokens (.forLoop i e e' s))
    (among : LoopAmong tokens (.orTrue e) (.looped e' s)) :
    (Stmt.forLoop i e e' s).Bare ∧ StmtFormed tokens (.forLoop i e e' s) := by
  obtain ⟨hi, he, he', bare, hs⟩ := formed
  have condition : ExprFormed tokens (.orTrue e) := by
    cases e with
    | none => exact fun p => .leaf (.inl rfl)
    | some c => exact he c rfl
  have body : StmtFormed tokens (.looped e' s) := by
    cases e' with
    | none => exact hs
    | some c => exact fun p => ((hs _).append (he' c rfl _)).node bare
  have loop : StmtFormed tokens (.while_ (.orTrue e) (.looped e' s)) :=
    fun p => ((condition _).append (body _)).node among
  rw [Stmt.forLoop_eq]
  cases i with
  | none => exact ⟨⟨rfl, rfl⟩, loop⟩
  | some first =>
    obtain ⟨notStep, hf⟩ := hi first rfl
    refine ⟨⟨rfl, rfl⟩, fun p => ((hf _).append ((loop _).append .nil)).node ?_⟩
    exact List.forall_mem_cons.mpr ⟨notStep, List.forall_mem_singleton.mpr rfl⟩

/-! One lemma a production: what it makes is formed if its parts are. -/

section Productions

variable {e e' e'' : RawExpr} {s s' : RawStmt} {name : Name} {line : Nat} {grade : Grade}

theorem call_formed {es : List RawExpr} (callee : Phrase.Formed tokens (.expr .call e))
    (arguments : Phrase.Formed tokens (.arguments es))
    (closes : Stored tokens (.symbol .rightParen) line) :
    Phrase.Formed tokens (.expr .call (.call e line es)) :=
  ⟨Nat.le_refl 9, fun _ => ((callee.2 _).append (arguments.2 _)).node
    ⟨closes, callee.1, arguments.1⟩⟩

theorem binary_formed {op : BinaryOp} (sign : Stored tokens (.symbol op.symbol) line)
    (left : Phrase.Formed tokens (.expr (.level op.level) e))
    (right : Phrase.Formed tokens (.expr op.level.right e')) :
    Phrase.Formed tokens (.expr (.level op.level) (.binary e op line e')) := by
  have tighter := Nat.le_trans (Nat.le_of_eq (rank_right _).symm) right.1
  exact ⟨Nat.le_refl _, fun _ => ((left.2 _).append (right.2 _)).node ⟨sign, left.1, tighter⟩⟩

theorem logical_formed {op : LogicalOp} (sign : Stored tokens (.keyword op.keyword) line)
    (left : Phrase.Formed tokens (.expr (.level op.level) e))
    (right : Phrase.Formed tokens (.expr op.level.right e')) :
    Phrase.Formed tokens (.expr (.level op.level) (.logical e op line e')) := by
  have tighter := Nat.le_trans (Nat.le_of_eq (rank_right _).symm) right.1
  exact ⟨Nat.le_refl _, fun _ => ((left.2 _).append (right.2 _)).node ⟨sign, left.1, tighter⟩⟩

theorem ternary_formed (condition : Phrase.Formed tokens (.expr (.level .or) e))
    (yes : Phrase.Formed tokens (.expr .conditional e'))
    (no : Phrase.Formed tokens (.expr .conditional e'')) :
    Phrase.Formed tokens (.expr .conditional (.ternary e e' e'')) :=
  ⟨Nat.le_refl 1, fun _ => (((condition.2 _).append (yes.2 _)).append (no.2 _)).node
    ⟨condition.1, yes.1, no.1⟩⟩

theorem arguments_formed {es : List RawExpr} (first : Phrase.Formed tokens (.expr .conditional e))
    (others : Phrase.Formed tokens (.arguments es)) : Phrase.Formed tokens (.arguments (e :: es)) :=
  ⟨List.forall_mem_cons.mpr ⟨first.1, others.1⟩, fun _ => (first.2 _).append (others.2 _)⟩

theorem if_formed (condition : Phrase.Formed tokens (.expr grade e))
    (yes : Phrase.Formed tokens (.statement s)) :
    Phrase.Formed tokens (.statement (.if_ e s none)) :=
  ⟨⟨rfl, rfl⟩, fun _ => ((condition.2 _).append (yes.2 _)).node ⟨yes.1, fun _ h => nomatch h⟩⟩

theorem ifElse_formed (condition : Phrase.Formed tokens (.expr grade e))
    (yes : Phrase.Formed tokens (.statement s)) (no : Phrase.Formed tokens (.statement s')) :
    Phrase.Formed tokens (.statement (.if_ e s (some s'))) :=
  ⟨⟨rfl, rfl⟩, fun _ => (((condition.2 _).append (yes.2 _)).append (no.2 _)).node
    ⟨yes.1, fun _ h => Option.some.inj h ▸ no.1⟩⟩

theorem return_formed {value : Option RawExpr} (keyword : Stored tokens (.keyword .return_) line)
    (clause : Phrase.Formed tokens (.clause value)) :
    Phrase.Formed tokens (.statement (.return_ line value)) := by
  refine ⟨⟨rfl, rfl⟩, fun p => ?_⟩
  cases value with
  | none => exact .leaf keyword
  | some e => exact (clause e rfl _).node keyword

theorem methods_formed {params : List Name} {body : List RawStmt} {methods : List RawMethod}
    (stored : StoredName tokens name) (code : Phrase.Formed tokens (.code params body))
    (others : Phrase.Formed tokens (.methods methods)) :
    Phrase.Formed tokens (.methods (.mk name params body :: methods)) :=
  ⟨List.forall_mem_cons.mpr ⟨stored, others.1⟩,
    fun _ => (code_formed code _).append (others.2 _)⟩

theorem body_formed {body : List RawStmt} (first : Phrase.Formed tokens (.declaration s))
    (others : Phrase.Formed tokens (.body body)) : Phrase.Formed tokens (.body (s :: body)) :=
  ⟨List.forall_mem_cons.mpr ⟨first.1, others.1⟩, fun _ => (first.2 _).append (others.2 _)⟩

end Productions

/-- What is derived from a stretch of the tokens is formed. -/
theorem Derives.formed {phrase : Phrase} (h : Derives phrase ts) (among : ts <:+: tokens) :
    phrase.Formed tokens := by
  induction h with
  -- expressions
  | tighter _ rank ih => exact ⟨(ih among).1.mono rank, (ih among).2⟩
  | @literal t value known =>
    exact ⟨Nat.le_refl 9, fun _ => .leaf
      (.inr ⟨t, among.subset (List.mem_singleton_self t), known⟩)⟩
  | this took => exact ⟨Nat.le_refl 9, fun _ => .leaf (took.stored among)⟩
  | «variable» took => exact ⟨Nat.le_refl 9, fun _ => .leaf (took.stored among)⟩
  | grouping _ _ _ ih =>
    exact ⟨Nat.le_refl 9, fun _ => ((ih (infix_three among).2.1).2 _).node trivial⟩
  | literalFunction _ _ ih =>
    exact ⟨Nat.le_refl 9, fun _ => (code_formed (ih (infix_parts among).2) _).node trivial⟩
  | call _ _ _ closes ihe iha =>
    obtain ⟨callee, -, behind⟩ := infix_three among
    obtain ⟨arguments, close⟩ := infix_parts behind
    exact call_formed (ihe callee) (iha arguments) (closes.stored close)
  | get _ _ property ih =>
    obtain ⟨object, -, name⟩ := infix_three among
    exact ⟨Nat.le_refl 9, fun _ => ((ih object).2 _).node ⟨property.stored name, (ih object).1⟩⟩
  | unary sign _ ih =>
    obtain ⟨first, operand⟩ := infix_parts among
    exact ⟨Nat.le_refl 8, fun _ => ((ih operand).2 _).node ⟨sign.stored first, (ih operand).1⟩⟩
  | binary _ sign _ ihl ihr =>
    obtain ⟨left, middle, right⟩ := infix_three among
    exact binary_formed (sign.stored middle) (ihl left) (ihr right)
  | logical _ sign _ ihl ihr =>
    obtain ⟨left, middle, right⟩ := infix_three among
    exact logical_formed (sign.stored middle) (ihl left) (ihr right)
  | assign _ _ _ iht ihv =>
    obtain ⟨target, -, value⟩ := infix_three among
    exact assigned_formed (iht target).2 (iht target).1 (ihv value).1 (ihv value).2
  | ternary _ _ _ _ _ ihc ihy ihn =>
    obtain ⟨condition, -, yes, -, no⟩ := infix_five among
    exact ternary_formed (ihc condition) (ihy yes) (ihn no)
  | sequence _ _ _ ihe ihl =>
    obtain ⟨earlier, -, last⟩ := infix_three among
    exact ⟨Nat.le_refl 0, sequence_formed (ihe earlier).2 (ihl last).1 (ihl last).2⟩
  -- arguments and parameters
  | noArguments => exact ⟨List.forall_mem_nil _, fun _ => .nil⟩
  | lastArgument _ ih => exact arguments_formed (ih among) ⟨List.forall_mem_nil _, fun _ => .nil⟩
  | moreArguments _ _ _ ih ihm =>
    obtain ⟨first, -, others⟩ := infix_three among
    exact arguments_formed (ih first) (ihm others)
  | noParams => exact List.forall_mem_nil _
  | lastParam took => exact List.forall_mem_singleton.mpr (took.stored among)
  | moreParams took _ _ ih =>
    obtain ⟨first, -, others⟩ := infix_three among
    exact List.forall_mem_cons.mpr ⟨took.stored first, ih others⟩
  | code _ _ _ _ _ _ ihp ihb =>
    obtain ⟨-, params, -, -, behind⟩ := infix_five among
    have body := (infix_parts behind).1
    exact ⟨ihp params, ihb body⟩
  -- statements
  | expression _ _ ih =>
    exact ⟨⟨rfl, rfl⟩, fun _ => ((ih (infix_parts among).1).2 _).node trivial⟩
  | print _ _ _ ih =>
    exact ⟨⟨rfl, rfl⟩, fun _ => ((ih (infix_three among).2.1).2 _).node trivial⟩
  | block _ _ _ ih =>
    obtain ⟨-, body, -⟩ := infix_three among
    exact ⟨⟨rfl, rfl⟩, fun _ => ((ih body).2 _).node (ih body).1⟩
  | if_ _ _ _ _ _ ihc ihy =>
    obtain ⟨-, -, condition, -, yes⟩ := infix_five among
    exact if_formed (ihc condition) (ihy yes)
  | ifElse _ _ _ _ _ _ _ ihc ihy ihn =>
    obtain ⟨-, -, condition, -, behind⟩ := infix_five among
    obtain ⟨yes, -, no⟩ := infix_three behind
    exact ifElse_formed (ihc condition) (ihy yes) (ihn no)
  | jump took _ =>
    exact ⟨⟨rfl, rfl⟩, fun _ => .leaf (took.stored (infix_parts among).1)⟩
  | return_ took _ _ ih =>
    obtain ⟨keyword, value, -⟩ := infix_three among
    exact return_formed (took.stored keyword) (ih value)
  | while_ loop ih =>
    obtain ⟨condition, bare, body⟩ := ih among
    exact ⟨⟨rfl, rfl⟩, fun _ => ((condition _).append (body _)).node (.while_ among loop bare)⟩
  | for_ loop ih => exact forLoop_formed (ih among) (.for_ among loop (ih among).2.2.2.1)
  -- loops
  | whileLoop _ _ _ _ _ ihc ihb =>
    obtain ⟨-, -, condition, -, body⟩ := infix_five among
    exact ⟨(ihc condition).2, ihb body⟩
  | forLoop _ _ _ _ _ _ _ _ ihi ihc ihn ihb =>
    obtain ⟨-, -, initial, condition, behind⟩ := infix_five among
    obtain ⟨-, increment, behind⟩ := infix_three behind
    exact ⟨ihi initial, ihc condition, ihn increment, ihb (infix_parts behind).2⟩
  | noClause => exact fun e he => nomatch he
  | clause _ ih => exact fun e he => Option.some.inj he ▸ (ih among).2
  | noInitial => exact fun s hs => nomatch hs
  | initialVar _ ih => exact fun s hs => Option.some.inj hs ▸ ih among
  | initialExpression _ ih => exact fun s hs => Option.some.inj hs ▸ ⟨rfl, (ih among).2⟩
  -- declarations
  | statement _ ih => exact ⟨(ih among).1.2, (ih among).2⟩
  | var _ took _ => exact ⟨rfl, fun _ => .leaf (took.stored (infix_three among).2.1)⟩
  | varInitial _ took _ _ _ ih =>
    obtain ⟨-, name, -, initial, -⟩ := infix_five among
    exact ⟨rfl, fun _ => ((ih initial).2 _).node (took.stored name)⟩
  | function _ took _ ih =>
    obtain ⟨-, name, code⟩ := infix_three among
    exact ⟨rfl, fun _ => (code_formed (ih code) _).node (took.stored name)⟩
  | class_ _ took _ _ _ ih =>
    obtain ⟨-, name, -, methods, -⟩ := infix_five among
    exact ⟨rfl, fun _ => ((ih methods).2 _).node ⟨took.stored name, (ih methods).1⟩⟩
  | noMethods => exact ⟨List.forall_mem_nil _, fun _ => .nil⟩
  | moreMethods took _ _ ihc ihm =>
    obtain ⟨name, code, others⟩ := infix_three among
    exact methods_formed (took.stored name) (ihc code) (ihm others)
  | noBody => exact ⟨List.forall_mem_nil _, fun _ => .nil⟩
  | moreBody _ _ ih ihm =>
    obtain ⟨first, others⟩ := infix_parts among
    exact body_formed (ih first) (ihm others)
  | lost _ ih => exact ih (infix_parts among).2

end Grammar

end Script
