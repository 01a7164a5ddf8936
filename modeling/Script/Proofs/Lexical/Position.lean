import Script.Scope

/-! Places of a program and the names that are visible from them.
A place is found by going down the tree, without running or binding anything. It knows the regions
around it, innermost first: one for each block, each body of a function with its parameters, and one
for the instance around the methods of a class. A region is told apart from every other one by the
path to the construct that opens it. At the top level there is no region, and names are global. -/
namespace Script.Lexical

variable {β : Type}

/-- A stretch of program with names of its own, those it starts with and those its list declares. -/
structure Region where
  path : List Nat
  params : List Name
  locals : List Name
deriving Repr, DecidableEq

def Region.names (r : Region) : List Name := r.params ++ r.locals

/-- A region as it is seen from a place in it: the names declared so far, and the variables in whose
initializers the place lies, of those that stand directly in the region. -/
structure Layer where
  region : Region
  visible : List Name
  pending : List Name
  params_visible : ∀ n ∈ region.params, n ∈ visible
deriving Repr, DecidableEq

namespace Layer

def names (l : Layer) : List Name := l.pending ++ l.visible

def holds (l : Layer) (key : String) : Bool := l.names.any fun n => n.text == key

def declare (l : Layer) (name : Name) : Layer :=
  { l with
    visible := name :: l.visible
    params_visible := fun n hn => List.mem_cons_of_mem name (l.params_visible n hn) }

def opened (r : Region) : Layer := ⟨r, r.params, [], fun _ hn => hn⟩

end Layer

structure Position where
  path : List Nat
  layers : List Layer
  inLoop : Bool
  inFunction : Bool
  inClass : Bool
deriving Repr, DecidableEq

def thisName : Name := ⟨Keyword.this_.spelling, 0⟩

/-- The name that a statement declares in the region of its list. -/
def declared? : Stmt β → Option Name
  | .var name _ => some name
  | .function name _ _ => some name
  | .class_ name _ => some name
  | _ => none

def declaredNames (body : List (Stmt β)) : List Name := body.filterMap declared?

namespace Position

def top (number : Nat) : Position := ⟨[number], [], false, false, false⟩

def child (p : Position) (i : Nat) : Position := { p with path := i :: p.path }

def onInner (p : Position) (change : Layer → Layer) : Position :=
  { p with
    layers := match p.layers with
      | [] => []
      | l :: outer => change l :: outer }

def declare (p : Position) (name : Name) : Position := p.onInner fun l => l.declare name

def pend (p : Position) (name : Name) : Position :=
  p.onInner fun l => { l with pending := name :: l.pending }

/-- Behind a statement of a list. -/
def after (p : Position) (s : Stmt β) : Position :=
  match declared? s with
  | some name => p.declare name
  | none => p

theorem after_inLoop (p : Position) (s : Stmt β) : (p.after s).inLoop = p.inLoop := by
  unfold after
  split <;> rfl

theorem after_inFunction (p : Position) (s : Stmt β) : (p.after s).inFunction = p.inFunction := by
  unfold after
  split <;> rfl

theorem after_of_none {p : Position} {s : Stmt β} (h : declared? s = none) : p.after s = p := by
  unfold after
  rw [h]

theorem after_child (p : Position) (s : Stmt β) (i : Nat) :
    (p.child i).after s = (p.after s).child i := by
  unfold after
  split <;> rfl

def afterAll (p : Position) (ss : List (Stmt β)) : Position := ss.foldl after p

theorem afterAll_child (p : Position) (ss : List (Stmt β)) (i : Nat) :
    (p.child i).afterAll ss = (p.afterAll ss).child i := by
  induction ss generalizing p with
  | nil => rfl
  | cons s ss ih =>
    show ((p.child i).after s).afterAll ss = ((p.after s).afterAll ss).child i
    rw [after_child, ih]

/-- A place in a region that is opened at another one, with the same around. -/
structure Inner (p q : Position) : Prop where
  layers : ∃ l, q.layers = l :: p.layers
  inLoop : q.inLoop = p.inLoop
  inFunction : q.inFunction = p.inFunction
  inClass : q.inClass = p.inClass

theorem Inner.after {p q : Position} (h : p.Inner q) (s : Stmt β) : p.Inner (q.after s) := by
  unfold Position.after
  split
  · rename_i name _
    obtain ⟨l, hl⟩ := h.layers
    refine { h with layers := ⟨l.declare name, ?_⟩ }
    simp only [declare, onInner, hl]
  · exact h

theorem Inner.afterAll {p q : Position} (h : p.Inner q) (ss : List (Stmt β)) :
    p.Inner (q.afterAll ss) := by
  induction ss generalizing q with
  | nil => exact h
  | cons s ss ih => exact ih (h.after s)

def opened (p : Position) (params locals : List Name) : Position :=
  { p with layers := .opened ⟨p.path, params, locals⟩ :: p.layers }

def block (p : Position) (body : List (Stmt β)) : Position := p.opened [] (declaredNames body)

def loop (p : Position) : Position := { p with inLoop := true }

def function (p : Position) (params : List Name) (body : List (Stmt β)) : Position :=
  { p.opened params (declaredNames body) with inLoop := false, inFunction := true }

def class_ (p : Position) : Position := { p.opened [thisName] [] with inClass := true }

theorem opened_inner (p : Position) (params locals : List Name) :
    p.Inner (p.opened params locals) :=
  ⟨⟨_, rfl⟩, rfl, rfl, rfl⟩

theorem block_inner (p : Position) (body ss : List (Stmt β)) (i : Nat) :
    p.Inner (((p.block body).child i).afterAll ss) := by
  have inner : p.Inner ((p.block body).child i) := ⟨⟨_, rfl⟩, rfl, rfl, rfl⟩
  exact inner.afterAll ss

theorem function_inner (p : Position) (params : List Name) (body ss : List (Stmt β)) (i : Nat) :
    Inner { p with inLoop := false, inFunction := true }
      (((p.function params body).child i).afterAll ss) := by
  have inner : Inner { p with inLoop := false, inFunction := true }
      ((p.function params body).child i) := ⟨⟨_, rfl⟩, rfl, rfl, rfl⟩
  exact inner.afterAll ss

/-- The number of regions between a place and the innermost one that holds a name. -/
def distance? (p : Position) (key : String) : Option Nat := p.layers.findIdx? fun l => l.holds key

/-- The innermost region does not hold the name. -/
def Fresh (p : Position) (name : Name) : Prop :=
  ∀ l ∈ p.layers.head?, l.holds name.text = false

/-- What a name refers to by the text of the program alone. -/
def site (p : Position) (key : String) : Site :=
  match p.distance? key with
  | some distance => .local_ distance
  | none => .global

end Position

/-- What stands at a place. The code of a function is a node of its own, whether the function is an
expression, a statement or a method. -/
inductive Node (β : Type) where
  | expr (e : Expr β)
  | stmt (s : Stmt β)
  | code (params : List Name) (body : List (Stmt β))

def Node.use? : Node β → Option (Use × Name × β)
  | .expr (.variable name site) => some (.variable, name, site)
  | .expr (.assign name site _) => some (.assign, name, site)
  | .expr (.this line site) => some (.this, ⟨Keyword.this_.spelling, line⟩, site)
  | _ => none

mutual

/-- The nodes of an expression at a place, each with its own place. -/
def exprNodes (p : Position) : Expr β → List (Position × Node β)
  | .literal value => [(p, .expr (.literal value))]
  | .grouping inner => (p, .expr (.grouping inner)) :: exprNodes (p.child 0) inner
  | .variable name site => [(p, .expr (.variable name site))]
  | .assign name site value => (p, .expr (.assign name site value)) :: exprNodes (p.child 0) value
  | .this line site => [(p, .expr (.this line site))]
  | .unary op line operand =>
    (p, .expr (.unary op line operand)) :: exprNodes (p.child 0) operand
  | .binary left op line right =>
    (p, .expr (.binary left op line right)) ::
      (exprNodes (p.child 0) left ++ exprNodes (p.child 1) right)
  | .logical left op line right =>
    (p, .expr (.logical left op line right)) ::
      (exprNodes (p.child 0) left ++ exprNodes (p.child 1) right)
  | .ternary condition yes no =>
    (p, .expr (.ternary condition yes no)) ::
      (exprNodes (p.child 0) condition ++ exprNodes (p.child 1) yes ++ exprNodes (p.child 2) no)
  | .sequence earlier last =>
    (p, .expr (.sequence earlier last)) ::
      (exprNodes (p.child 0) earlier ++ exprNodes (p.child 1) last)
  | .call callee line arguments =>
    (p, .expr (.call callee line arguments)) ::
      (exprNodes (p.child 0) callee ++ exprsNodes (p.child 1) arguments)
  | .get object property => (p, .expr (.get object property)) :: exprNodes (p.child 0) object
  | .set object property value =>
    (p, .expr (.set object property value)) ::
      (exprNodes (p.child 0) object ++ exprNodes (p.child 1) value)
  | .function params body =>
    (p, .expr (.function params body)) :: (p.child 0, .code params body) ::
      stmtsNodes (((p.child 0).function params body).child 0) body

def exprsNodes (p : Position) : List (Expr β) → List (Position × Node β)
  | [] => []
  | e :: es => exprNodes (p.child 0) e ++ exprsNodes (p.child 1) es

def stmtNodes (p : Position) : Stmt β → List (Position × Node β)
  | .expression e => (p, .stmt (.expression e)) :: exprNodes (p.child 0) e
  | .print e => (p, .stmt (.print e)) :: exprNodes (p.child 0) e
  | .var name none => [(p, .stmt (.var name none))]
  | .var name (some e) => (p, .stmt (.var name (some e))) :: exprNodes ((p.pend name).child 0) e
  | .block body => (p, .stmt (.block body)) :: stmtsNodes ((p.block body).child 0) body
  | .step body increment =>
    (p, .stmt (.step body increment)) ::
      (stmtNodes ((p.opened [] []).child 0) body ++ exprNodes ((p.opened [] []).child 1) increment)
  | .if_ condition yes none =>
    (p, .stmt (.if_ condition yes none)) ::
      (exprNodes (p.child 0) condition ++ stmtNodes (p.child 1) yes)
  | .if_ condition yes (some no) =>
    (p, .stmt (.if_ condition yes (some no))) ::
      (exprNodes (p.child 0) condition ++ stmtNodes (p.child 1) yes ++ stmtNodes (p.child 2) no)
  | .while_ condition body =>
    (p, .stmt (.while_ condition body)) ::
      (exprNodes (p.child 0) condition ++ stmtNodes (p.loop.child 1) body)
  | .jump jump line => [(p, .stmt (.jump jump line))]
  | .function name params body =>
    (p, .stmt (.function name params body)) :: ((p.declare name).child 0, .code params body) ::
      stmtsNodes ((((p.declare name).child 0).function params body).child 0) body
  | .return_ line none => [(p, .stmt (.return_ line none))]
  | .return_ line (some e) => (p, .stmt (.return_ line (some e))) :: exprNodes (p.child 0) e
  | .class_ name methods =>
    (p, .stmt (.class_ name methods)) :: methodsNodes ((p.declare name).class_.child 0) methods

def stmtsNodes (p : Position) : List (Stmt β) → List (Position × Node β)
  | [] => []
  | s :: ss => stmtNodes (p.child 0) s ++ stmtsNodes ((p.after s).child 1) ss

def methodsNodes (p : Position) : List (Method β) → List (Position × Node β)
  | [] => []
  | .mk _ params body :: methods =>
    (p.child 0, .code params body) ::
      (stmtsNodes (((p.child 0).function params body).child 0) body ++
        methodsNodes (p.child 1) methods)

end

def codeNodes (p : Position) (params : List Name) (body : List (Stmt β)) :
    List (Position × Node β) :=
  (p, .code params body) :: stmtsNodes ((p.function params body).child 0) body

def methodPosition (p : Position) (name : String) : List (Method β) → Option (Position × Method β)
  | [] => none
  | m :: methods =>
    match methodPosition (p.child 1) name methods with
    | some found => some found
    | none => if m.name.text == name then some (p.child 0, m) else none

theorem methodPosition_find? (p : Position) (name : String) (ms : List (Method β)) :
    (methodPosition p name ms).map Prod.snd = ms.reverse.find? fun m => m.name.text == name := by
  induction ms generalizing p with
  | nil => rfl
  | cons m ms ih =>
    have tail := ih (p.child 1)
    rw [List.reverse_cons, List.find?_append, ← tail]
    simp only [methodPosition]
    cases methodPosition (p.child 1) name ms with
    | some found => rfl
    | none =>
      simp only [Option.map_none, Option.none_or, List.find?_singleton]
      split <;> rfl

theorem methodPosition_layers {p q : Position} {name : String} {ms : List (Method β)}
    {m : Method β} (h : methodPosition p name ms = some (q, m)) : q.layers = p.layers := by
  induction ms generalizing p with
  | nil => cases h
  | cons k ms ih =>
    simp only [methodPosition] at h
    split at h
    · rename_i found hfound
      cases h
      exact (ih hfound).trans rfl
    · split at h
      · cases h
        rfl
      · cases h

theorem methodPosition_nodes {p q : Position} {name : String} {ms : List (Method β)}
    {m : Method β} (h : methodPosition p name ms = some (q, m)) :
    m ∈ ms ∧ ∀ x ∈ codeNodes q m.params m.body, x ∈ methodsNodes p ms := by
  induction ms generalizing p with
  | nil => cases h
  | cons k ms ih =>
    cases k with
    | mk name' params body =>
      simp only [methodPosition] at h
      split at h
      · rename_i found hfound
        cases h
        obtain ⟨hm, hx⟩ := ih hfound
        refine ⟨List.mem_cons_of_mem _ hm, fun x h => ?_⟩
        simp only [methodsNodes, List.mem_cons, List.mem_append]
        exact .inr (.inr (hx x h))
      · split at h
        · cases h
          refine ⟨List.mem_cons_self, fun x h => ?_⟩
          rcases List.mem_cons.mp h with h | h
          · exact h ▸ List.mem_cons_self
          · exact List.mem_cons_of_mem _ (List.mem_append_left _ h)
        · cases h

/-- What binding guarantees at a node: every use has the site that the text gives it, the instance is
used in a class, jumps and returns have a loop or a function to leave, and no region declares a name
twice. -/
def Scoped : Position × Node Site → Prop
  | (p, .expr (.variable name site)) => site = p.site name.text
  | (p, .expr (.assign name site _)) => site = p.site name.text
  | (p, .expr (.this _ site)) => p.inClass = true ∧ site = p.site thisName.text
  | (p, .stmt (.var name _)) => p.Fresh name
  | (p, .stmt (.function name _ _)) => p.Fresh name
  | (p, .stmt (.class_ name _)) => p.Fresh name
  | (p, .stmt (.jump _ _)) => p.inLoop = true
  | (p, .stmt (.return_ _ _)) => p.inFunction = true
  | (_, .code params _) => (params.map Name.text).Nodup
  | _ => True

/-- Declarations stand in lists of statements only. -/
def Node.Plain : Node β → Prop
  | .stmt (.if_ _ yes no) => declared? yes = none ∧ ∀ s ∈ no, declared? s = none
  | .stmt (.while_ _ body) => declared? body = none
  | .stmt (.step body _) => declared? body = none
  | _ => True

def programNodes (number : Nat) (program : List (Stmt β)) : List (Position × Node β) :=
  stmtsNodes (Position.top number) program

end Script.Lexical
