import Script.Proofs.Lexical.Course
import Script.Proofs.Lexical.Paths
import Script.Proofs.Lexical.Sites
import Script.Proofs.Source.Tokens
import Script.Program

/-! The course of binding and the nodes of a program.
What a course mentions, each read, each initializer and each opened scope with the regions around
it, is what the nodes of the program are. -/
namespace Script.Lexical

open Binding

variable {β : Type}

/-- Something that is done at a place, with the regions around. -/
inductive Mention where
  | read (layers : List Layer) (name : Name)
  | initial (layers : List Layer) (name : Name) (inside : Course)
  | opens (opening : Opening)

def declareIn (name : Name) (layers : List Layer) : List Layer :=
  layers.modifyHead fun l => l.declare name

def pendIn (name : Name) (layers : List Layer) : List Layer :=
  layers.modifyHead fun l => { l with pending := name :: l.pending }

theorem layers_onInner (p : Position) (change : Layer → Layer) :
    (p.onInner change).layers = p.layers.modifyHead change := by
  unfold Position.onInner
  cases p.layers <;> rfl

theorem layers_declare (p : Position) (name : Name) :
    (p.declare name).layers = declareIn name p.layers := layers_onInner p _

theorem layers_pend (p : Position) (name : Name) : (p.pend name).layers = pendIn name p.layers :=
  layers_onInner p _

namespace Course

def declares : Course → List Name
  | done => []
  | read _ rest => rest.declares
  | declare n rest => n :: rest.declares
  | initial n _ rest => n :: rest.declares
  | scope _ _ rest => rest.declares

def around (c : Course) (layers : List Layer) : List Layer :=
  c.declares.foldl (fun layers n => declareIn n layers) layers

def mentions : Course → List Layer → List Mention
  | done, _ => []
  | read n rest, layers => .read layers n :: rest.mentions layers
  | declare n rest, layers => rest.mentions (declareIn n layers)
  | initial n inside rest, layers =>
    .initial layers n inside ::
      (inside.mentions (pendIn n layers) ++ rest.mentions (declareIn n layers))
  | scope o inside rest, layers =>
    .opens o :: (inside.mentions (.opened o.region :: layers) ++ rest.mentions layers)

/-- Initializers declare nothing around them, and scopes what their regions list. -/
def Formed : Course → Prop
  | done => True
  | read _ rest => rest.Formed
  | declare _ rest => rest.Formed
  | initial _ inside rest => inside.declares = [] ∧ inside.Formed ∧ rest.Formed
  | scope o inside rest => inside.declares = o.region.locals ∧ inside.Formed ∧ rest.Formed

variable (c d : Course) (layers : List Layer)

theorem declares_append : (c ++ d).declares = c.declares ++ d.declares := by
  show (c.append d).declares = _
  induction c with
  | done => rfl
  | read n rest ih => exact ih
  | declare n rest ih => exact congrArg (n :: ·) ih
  | initial n inside rest _ ih => exact congrArg (n :: ·) ih
  | scope o inside rest _ ih => exact ih

theorem mentions_append :
    (c ++ d).mentions layers = c.mentions layers ++ d.mentions (c.around layers) := by
  show (c.append d).mentions layers = _
  induction c generalizing layers with
  | done => rfl
  | read n rest ih => exact congrArg (_ :: ·) (ih _)
  | declare n rest ih => exact ih _
  | initial n inside rest _ ih =>
    simp only [Course.append, mentions, ih, List.cons_append, List.append_assoc]
    rfl
  | scope o inside rest _ ih =>
    simp only [Course.append, mentions, ih, List.cons_append, List.append_assoc]
    rfl

theorem formed_append : (c ++ d).Formed ↔ c.Formed ∧ d.Formed := by
  show (c.append d).Formed ↔ _
  induction c with
  | done => exact ⟨fun h => ⟨trivial, h⟩, And.right⟩
  | read n rest ih => exact ih
  | declare n rest ih => exact ih
  | initial n inside rest _ ih => simp only [Course.append, Formed, ih, and_assoc]
  | scope o inside rest _ ih => simp only [Course.append, Formed, ih, and_assoc]

end Course

def mention? : Position × Node β → Option Mention
  | (p, .expr (.variable name _)) => some (.read p.layers name)
  | (p, .stmt (.var name (some e))) => some (.initial p.layers name (exprCourse (0 :: p.path) e))
  | (p, .stmt (.block body)) => some (.opens (.names ⟨p.path, [], declaredNames body⟩))
  | (p, .stmt (.step _ _)) => some (.opens (.names ⟨p.path, [], []⟩))
  | (p, .stmt (.class_ name _)) => some (.opens (.receiver p.path name))
  | (p, .code params body) => some (.opens (.names ⟨p.path, params, declaredNames body⟩))
  | _ => none

/-- What is picked from the mentions is picked from the nodes. -/
theorem filterMap_mentions {γ : Type} {pick : Mention → Option γ}
    {pick' : Position × Node β → Option γ} (h : ∀ x, (mention? x).bind pick = pick' x)
    (nodes : List (Position × Node β)) :
    (nodes.filterMap mention?).filterMap pick = nodes.filterMap pick' := by
  rw [List.filterMap_filterMap]
  exact congrArg (nodes.filterMap ·) (funext h)

def InitialMentioned : Position × Node β → Prop
  | (p, .stmt (.var name (some e))) =>
    ((exprNodes ((p.pend name).child 0) e).filterMap mention?).Perm
      ((exprCourse (0 :: p.path) e).mentions (p.pend name).layers)
  | _ => True

theorem initialMentioned_of_mention? {x : Position × Node β}
    (h : ∀ layers name inside, mention? x ≠ some (.initial layers name inside)) :
    InitialMentioned x := by
  unfold InitialMentioned
  split
  · exact absurd rfl (h _ _ _)
  · trivial

/-- Nodes within layers are mentioned by a course, which declares the names. -/
structure Mentioned (layers : List Layer) (nodes : List (Position × Node β)) (c : Course)
    (names : List Name) : Prop where
  declares : c.declares = names
  perm : (nodes.filterMap mention?).Perm (c.mentions layers)
  initials : ∀ x ∈ nodes, InitialMentioned x
  formed : c.Formed
  usual : c.Usual

namespace Mentioned

variable {layers : List Layer} {nodes nodes' : List (Position × Node β)} {c d : Course}
  {names : List Name} {x : Position × Node β} {n : Name}

theorem nil : Mentioned layers ([] : List (Position × Node β)) .done [] :=
  ⟨rfl, .nil, List.forall_mem_nil _, trivial, trivial⟩

theorem cons (hx : mention? x = none) (h : Mentioned layers nodes c names) :
    Mentioned layers (x :: nodes) c names :=
  { h with
    perm := by
      rw [List.filterMap_cons_none hx]
      exact h.perm
    initials := List.forall_mem_cons.mpr
      ⟨initialMentioned_of_mention? fun _ _ _ => hx ▸ nofun, h.initials⟩ }

theorem read (p : Position) (name : Name) (site : β) :
    Mentioned p.layers [(p, Node.expr (.variable name site))] (.read name .done) [] :=
  ⟨rfl, .refl _, List.forall_mem_singleton.mpr trivial, trivial, trivial⟩

theorem append (h : Mentioned layers nodes c names) {names' : List Name}
    (h' : Mentioned (c.around layers) nodes' d names') :
    Mentioned layers (nodes ++ nodes') (c ++ d) (names ++ names') where
  declares := by rw [Course.declares_append, h.declares, h'.declares]
  perm := by
    rw [List.filterMap_append, Course.mentions_append]
    exact h.perm.append h'.perm
  initials := List.forall_mem_append.mpr ⟨h.initials, h'.initials⟩
  formed := (Course.formed_append c d).mpr ⟨h.formed, h'.formed⟩
  usual := (Course.usual_append c d).mpr ⟨h.usual, h'.usual⟩

theorem behind (h : Mentioned layers nodes c []) (h' : Mentioned layers nodes' d names) :
    Mentioned layers (nodes ++ nodes') (c ++ d) names := by
  have second : Mentioned (c.around layers) nodes' d names := by
    rw [Course.around, h.declares]
    exact h'
  exact append h second

theorem comm (h : Mentioned layers (nodes ++ nodes') c names) :
    Mentioned layers (nodes' ++ nodes) c names :=
  { h with
    perm := by
      have perm := h.perm
      rw [List.filterMap_append] at perm ⊢
      exact List.perm_append_comm.trans perm
    initials := fun x hx => h.initials x (List.mem_append.mpr (List.mem_append.mp hx).symm) }

theorem declare (hn : n.text ≠ thisName.text) (h : Mentioned (declareIn n layers) nodes c []) :
    Mentioned layers nodes (.declare n c) [n] :=
  ⟨congrArg (n :: ·) h.declares, h.perm, h.initials, h.formed, hn, h.usual⟩

theorem initial {p : Position} {e : Expr β} (hn : n.text ≠ thisName.text)
    (h : Mentioned (p.pend n).layers (exprNodes ((p.pend n).child 0) e)
      (exprCourse (0 :: p.path) e) []) :
    Mentioned p.layers (stmtNodes p (.var n (some e)))
      (.initial n (exprCourse (0 :: p.path) e) .done) [n] where
  declares := rfl
  perm := by
    rw [stmtNodes, List.filterMap_cons_some (f := mention?) rfl, Course.mentions, Course.mentions,
      List.append_nil, ← layers_pend]
    exact h.perm.cons _
  initials := List.forall_mem_cons.mpr ⟨h.perm, h.initials⟩
  formed := ⟨h.declares, h.formed, trivial⟩
  usual := ⟨hn, h.usual, trivial⟩

theorem scope {o : Opening} (hx : mention? x = some (.opens o)) (ho : o.Usual)
    (h : Mentioned (.opened o.region :: layers) nodes c o.region.locals) :
    Mentioned layers (x :: nodes) (.scope o c .done) [] where
  declares := rfl
  perm := by
    rw [List.filterMap_cons_some hx, Course.mentions, Course.mentions, List.append_nil]
    exact h.perm.cons _
  initials := List.forall_mem_cons.mpr
    ⟨initialMentioned_of_mention? fun _ _ _ => hx ▸ nofun, h.initials⟩
  formed := ⟨h.declares, h.formed, trivial⟩
  usual := ⟨ho, h.usual, trivial⟩

theorem code {p : Position} {params : List Name} {body : List (Stmt β)}
    (h : ∀ x ∈ codeNodes p params body, Node.Usual x)
    (hb : Mentioned (.opened ⟨p.path, params, declaredNames body⟩ :: p.layers)
      (stmtsNodes ((p.function params body).child 0) body) c (declaredNames body)) :
    Mentioned p.layers (codeNodes p params body)
      (.scope (.names ⟨p.path, params, declaredNames body⟩) c .done) [] :=
  scope rfl (h _ List.mem_cons_self).names hb

end Mentioned

theorem usual_declared {p : Position} {s : Stmt β} {n : Name} (h : Node.Usual (p, .stmt s))
    (hs : declared? s = some n) : n.text ≠ thisName.text := h.names n (declared_mem_names hs)

mutual

theorem exprNodes_mentioned (p : Position) (e : Expr β) (h : ∀ x ∈ exprNodes p e, Node.Usual x) :
    Mentioned p.layers (exprNodes p e) (exprCourse p.path e) [] := by
  cases e with
  | literal value => exact Mentioned.nil.cons rfl
  | «variable» name site => exact .read p name site
  | this line site => exact Mentioned.nil.cons rfl
  | grouping inner =>
    obtain ⟨-, h⟩ := List.forall_mem_cons.mp h
    exact .cons rfl (exprNodes_mentioned (p.child 0) inner h)
  | assign name site value =>
    obtain ⟨-, h⟩ := List.forall_mem_cons.mp h
    exact .cons rfl (exprNodes_mentioned (p.child 0) value h)
  | unary op line operand =>
    obtain ⟨-, h⟩ := List.forall_mem_cons.mp h
    exact .cons rfl (exprNodes_mentioned (p.child 0) operand h)
  | get object property =>
    obtain ⟨-, h⟩ := List.forall_mem_cons.mp h
    exact .cons rfl (exprNodes_mentioned (p.child 0) object h)
  | binary left op line right =>
    obtain ⟨-, h⟩ := List.forall_mem_cons.mp h
    obtain ⟨h, h'⟩ := List.forall_mem_append.mp h
    exact .cons rfl ((exprNodes_mentioned (p.child 0) left h).behind
      (exprNodes_mentioned (p.child 1) right h'))
  | logical left op line right =>
    obtain ⟨-, h⟩ := List.forall_mem_cons.mp h
    obtain ⟨h, h'⟩ := List.forall_mem_append.mp h
    exact .cons rfl ((exprNodes_mentioned (p.child 0) left h).behind
      (exprNodes_mentioned (p.child 1) right h'))
  | sequence earlier last =>
    obtain ⟨-, h⟩ := List.forall_mem_cons.mp h
    obtain ⟨h, h'⟩ := List.forall_mem_append.mp h
    exact .cons rfl ((exprNodes_mentioned (p.child 0) earlier h).behind
      (exprNodes_mentioned (p.child 1) last h'))
  | ternary condition yes no =>
    obtain ⟨-, h⟩ := List.forall_mem_cons.mp h
    obtain ⟨h, h''⟩ := List.forall_mem_append.mp h
    obtain ⟨h, h'⟩ := List.forall_mem_append.mp h
    have parts := (exprNodes_mentioned (p.child 0) condition h).behind
      ((exprNodes_mentioned (p.child 1) yes h').behind (exprNodes_mentioned (p.child 2) no h''))
    rw [← List.append_assoc] at parts
    exact .cons rfl parts
  | call callee line arguments =>
    obtain ⟨-, h⟩ := List.forall_mem_cons.mp h
    obtain ⟨h, h'⟩ := List.forall_mem_append.mp h
    exact .cons rfl ((exprNodes_mentioned (p.child 0) callee h).behind
      (exprsNodes_mentioned (p.child 1) arguments h'))
  | set object property value =>
    -- the value is bound first
    obtain ⟨-, h⟩ := List.forall_mem_cons.mp h
    obtain ⟨h, h'⟩ := List.forall_mem_append.mp h
    exact .cons rfl ((exprNodes_mentioned (p.child 1) value h').behind
      (exprNodes_mentioned (p.child 0) object h)).comm
  | function params body =>
    obtain ⟨-, h⟩ := List.forall_mem_cons.mp h
    exact .cons rfl (.code h (stmtsNodes_mentioned (((p.child 0).function params body).child 0) body
      (List.forall_mem_cons.mp h).2))

theorem exprsNodes_mentioned (p : Position) (es : List (Expr β))
    (h : ∀ x ∈ exprsNodes p es, Node.Usual x) :
    Mentioned p.layers (exprsNodes p es) (exprsCourse p.path es) [] := by
  cases es with
  | nil => exact .nil
  | cons e es =>
    obtain ⟨h, h'⟩ := List.forall_mem_append.mp h
    exact (exprNodes_mentioned (p.child 0) e h).behind (exprsNodes_mentioned (p.child 1) es h')

theorem stmtNodes_mentioned (p : Position) (s : Stmt β) (h : ∀ x ∈ stmtNodes p s, Node.Usual x) :
    Mentioned p.layers (stmtNodes p s) (stmtCourse p.path s) (declared? s).toList := by
  cases s with
  | expression e =>
    obtain ⟨-, h⟩ := List.forall_mem_cons.mp h
    exact .cons rfl (exprNodes_mentioned (p.child 0) e h)
  | print e =>
    obtain ⟨-, h⟩ := List.forall_mem_cons.mp h
    exact .cons rfl (exprNodes_mentioned (p.child 0) e h)
  | var name initial =>
    have hn : name.text ≠ thisName.text := usual_declared (h _ (stmt_mem_stmtNodes p _)) rfl
    cases initial with
    | none => exact .cons rfl (.declare hn .nil)
    | some e =>
      obtain ⟨-, h⟩ := List.forall_mem_cons.mp h
      exact .initial hn (exprNodes_mentioned ((p.pend name).child 0) e h)
  | block body =>
    obtain ⟨-, h⟩ := List.forall_mem_cons.mp h
    exact .scope rfl (List.forall_mem_nil _) (stmtsNodes_mentioned ((p.block body).child 0) body h)
  | step body increment =>
    have plain : declared? body = none := (h _ List.mem_cons_self).plain
    obtain ⟨-, h⟩ := List.forall_mem_cons.mp h
    obtain ⟨h, h'⟩ := List.forall_mem_append.mp h
    have inside := stmtNodes_mentioned ((p.opened [] []).child 0) body h
    rw [plain] at inside
    exact .scope rfl (List.forall_mem_nil _)
      (inside.behind (exprNodes_mentioned ((p.opened [] []).child 1) increment h'))
  | if_ condition yes no =>
    obtain ⟨plain, plain'⟩ := (h _ (stmt_mem_stmtNodes p _)).plain
    cases no with
    | none =>
      obtain ⟨-, h⟩ := List.forall_mem_cons.mp h
      obtain ⟨h, h'⟩ := List.forall_mem_append.mp h
      have yes' := stmtNodes_mentioned (p.child 1) yes h'
      rw [plain] at yes'
      exact .cons rfl ((exprNodes_mentioned (p.child 0) condition h).behind yes')
    | some no =>
      obtain ⟨-, h⟩ := List.forall_mem_cons.mp h
      obtain ⟨h, h''⟩ := List.forall_mem_append.mp h
      obtain ⟨h, h'⟩ := List.forall_mem_append.mp h
      have yes' := stmtNodes_mentioned (p.child 1) yes h'
      have no' := stmtNodes_mentioned (p.child 2) no h''
      rw [plain] at yes'
      rw [plain' no rfl] at no'
      have parts := (exprNodes_mentioned (p.child 0) condition h).behind (yes'.behind no')
      rw [← List.append_assoc] at parts
      exact .cons rfl parts
  | while_ condition body =>
    have plain : declared? body = none := (h _ List.mem_cons_self).plain
    obtain ⟨-, h⟩ := List.forall_mem_cons.mp h
    obtain ⟨h, h'⟩ := List.forall_mem_append.mp h
    have body' := stmtNodes_mentioned (p.loop.child 1) body h'
    rw [plain] at body'
    exact .cons rfl ((exprNodes_mentioned (p.child 0) condition h).behind body')
  | jump jump line => exact Mentioned.nil.cons rfl
  | function name params body =>
    have hn : name.text ≠ thisName.text := usual_declared (h _ List.mem_cons_self) rfl
    obtain ⟨-, h⟩ := List.forall_mem_cons.mp h
    have code := Mentioned.code (p := (p.declare name).child 0) h
      (stmtsNodes_mentioned ((((p.declare name).child 0).function params body).child 0) body
        (List.forall_mem_cons.mp h).2)
    refine .cons rfl (.declare hn ?_)
    rw [← layers_declare]
    exact code
  | return_ line value =>
    cases value with
    | none => exact Mentioned.nil.cons rfl
    | some e =>
      obtain ⟨-, h⟩ := List.forall_mem_cons.mp h
      exact .cons rfl (exprNodes_mentioned (p.child 0) e h)
  | class_ name methods =>
    have hn : name.text ≠ thisName.text := usual_declared (h _ List.mem_cons_self) rfl
    obtain ⟨-, h⟩ := List.forall_mem_cons.mp h
    have inside := methodsNodes_mentioned ((p.declare name).class_.child 0) methods h
    refine .declare hn (.scope rfl trivial ?_)
    rw [← layers_declare]
    exact inside

theorem stmtsNodes_mentioned (p : Position) (ss : List (Stmt β))
    (h : ∀ x ∈ stmtsNodes p ss, Node.Usual x) :
    Mentioned p.layers (stmtsNodes p ss) (stmtsCourse p.path ss) (declaredNames ss) := by
  cases ss with
  | nil => exact .nil
  | cons s ss =>
    obtain ⟨h, h'⟩ := List.forall_mem_append.mp h
    have first := stmtNodes_mentioned (p.child 0) s h
    have others := stmtsNodes_mentioned ((p.after s).child 1) ss h'
    have path : ((p.after s).child 1).path = 1 :: p.path := by
      unfold Position.after
      split <;> rfl
    have layers : (p.after s).layers = (stmtCourse (0 :: p.path) s).around p.layers := by
      have declares : (stmtCourse (0 :: p.path) s).declares = _ := first.declares
      rw [Course.around, declares]
      unfold Position.after
      cases declared? s with
      | none => rfl
      | some name => exact layers_declare p name
    rw [path] at others
    have names : declaredNames (s :: ss) = (declared? s).toList ++ declaredNames ss := by
      simp only [declaredNames, List.filterMap_cons]
      cases declared? s <;> rfl
    rw [names]
    refine first.append ?_
    show Mentioned ((stmtCourse (0 :: p.path) s).around p.layers) _ _ _
    rw [← layers]
    exact others

theorem methodsNodes_mentioned (p : Position) (ms : List (Method β))
    (h : ∀ x ∈ methodsNodes p ms, Node.Usual x) :
    Mentioned p.layers (methodsNodes p ms) (methodsCourse p.path ms) [] := by
  cases ms with
  | nil => exact .nil
  | cons m ms =>
    cases m with
    | mk name params body =>
      have nodes : methodsNodes p (.mk name params body :: ms) =
          codeNodes (p.child 0) params body ++ methodsNodes (p.child 1) ms := rfl
      rw [nodes] at h ⊢
      obtain ⟨h, h'⟩ := List.forall_mem_append.mp h
      exact (Mentioned.code h (stmtsNodes_mentioned (((p.child 0).function params body).child 0) body
        (List.forall_mem_cons.mp h).2)).behind (methodsNodes_mentioned (p.child 1) ms h')

end

theorem programNodes_mentioned (number : Nat) (program : List (Stmt β))
    (h : ∀ x ∈ programNodes number program, Node.Usual x) :
    Mentioned [] (programNodes number program) (programCourse number program)
      (declaredNames program) := stmtsNodes_mentioned (.top number) program h

/-- The nodes of what could be read of a source. -/
def sourceNodes (source : String) : List (Position × Node Unit) :=
  programNodes 0 (Program.ofSource source).statements

theorem sourceNodes_usual (source : String) : ∀ x ∈ sourceNodes source, Node.Usual x :=
  readProgram_usual 0 _ _ (Source.scan_names source)

end Script.Lexical
