import Script.Proofs.Lexical.Position

/-! The constructs around the nodes of a program.
Going down the tree each loop, function, method and class is put in front of those around it, so the
nearest one stands first. -/
namespace Script.Lexical

variable {β : Type}

inductive Construct where
  | loop
  | function
  | method (name : Name)
  | class_
deriving Repr, DecidableEq

def Construct.isFunction : Construct → Bool
  | function => true
  | method _ => true
  | _ => false

/-- The constructs around a place, innermost first. -/
abbrev Surroundings := List Construct

namespace Surroundings

variable (around : Surroundings)

def function? : Option Construct := around.find? Construct.isFunction

/-- Between the place and the innermost function around it stands a loop. -/
def inLoop : Bool := (around.takeWhile fun c => !c.isFunction).contains .loop

def inClass : Bool := around.contains .class_

/-- The innermost function around is the initializer of a class. -/
def inInitializer : Bool :=
  match around.function? with
  | some (.method name) => name.text == initializerName
  | _ => false

end Surroundings

mutual

def exprPlaces (around : Surroundings) : Expr β → List (Surroundings × Node β)
  | .literal value => [(around, .expr (.literal value))]
  | .grouping inner => (around, .expr (.grouping inner)) :: exprPlaces around inner
  | .variable name site => [(around, .expr (.variable name site))]
  | .assign name site value => (around, .expr (.assign name site value)) :: exprPlaces around value
  | .this line site => [(around, .expr (.this line site))]
  | .unary op line operand => (around, .expr (.unary op line operand)) :: exprPlaces around operand
  | .binary left op line right =>
    (around, .expr (.binary left op line right)) ::
      (exprPlaces around left ++ exprPlaces around right)
  | .logical left op line right =>
    (around, .expr (.logical left op line right)) ::
      (exprPlaces around left ++ exprPlaces around right)
  | .ternary condition yes no =>
    (around, .expr (.ternary condition yes no)) ::
      (exprPlaces around condition ++ exprPlaces around yes ++ exprPlaces around no)
  | .sequence earlier last =>
    (around, .expr (.sequence earlier last)) ::
      (exprPlaces around earlier ++ exprPlaces around last)
  | .call callee line arguments =>
    (around, .expr (.call callee line arguments)) ::
      (exprPlaces around callee ++ exprsPlaces around arguments)
  | .get object property => (around, .expr (.get object property)) :: exprPlaces around object
  | .set object property value =>
    (around, .expr (.set object property value)) ::
      (exprPlaces around object ++ exprPlaces around value)
  | .function params body =>
    (around, .expr (.function params body)) :: (around, .code params body) ::
      stmtsPlaces (.function :: around) body

def exprsPlaces (around : Surroundings) : List (Expr β) → List (Surroundings × Node β)
  | [] => []
  | e :: es => exprPlaces around e ++ exprsPlaces around es

def stmtPlaces (around : Surroundings) : Stmt β → List (Surroundings × Node β)
  | .expression e => (around, .stmt (.expression e)) :: exprPlaces around e
  | .print e => (around, .stmt (.print e)) :: exprPlaces around e
  | .var name none => [(around, .stmt (.var name none))]
  | .var name (some e) => (around, .stmt (.var name (some e))) :: exprPlaces around e
  | .block body => (around, .stmt (.block body)) :: stmtsPlaces around body
  | .step body increment =>
    (around, .stmt (.step body increment)) ::
      (stmtPlaces around body ++ exprPlaces around increment)
  | .if_ condition yes none =>
    (around, .stmt (.if_ condition yes none)) ::
      (exprPlaces around condition ++ stmtPlaces around yes)
  | .if_ condition yes (some no) =>
    (around, .stmt (.if_ condition yes (some no))) ::
      (exprPlaces around condition ++ stmtPlaces around yes ++ stmtPlaces around no)
  | .while_ condition body =>
    (around, .stmt (.while_ condition body)) ::
      (exprPlaces around condition ++ stmtPlaces (.loop :: around) body)
  | .jump jump line => [(around, .stmt (.jump jump line))]
  | .function name params body =>
    (around, .stmt (.function name params body)) :: (around, .code params body) ::
      stmtsPlaces (.function :: around) body
  | .return_ line none => [(around, .stmt (.return_ line none))]
  | .return_ line (some e) => (around, .stmt (.return_ line (some e))) :: exprPlaces around e
  | .class_ name methods =>
    (around, .stmt (.class_ name methods)) :: methodsPlaces (.class_ :: around) methods

def stmtsPlaces (around : Surroundings) : List (Stmt β) → List (Surroundings × Node β)
  | [] => []
  | s :: ss => stmtPlaces around s ++ stmtsPlaces around ss

def methodsPlaces (around : Surroundings) : List (Method β) → List (Surroundings × Node β)
  | [] => []
  | .mk name params body :: methods =>
    (around, .code params body) ::
      (stmtsPlaces (.method name :: around) body ++ methodsPlaces around methods)

end

def programPlaces (program : List (Stmt β)) : List (Surroundings × Node β) := stmtsPlaces [] program

/-- In a loop of its function, in a function, in a class. -/
structure Inside where
  loop : Bool
  function : Bool
  class_ : Bool
deriving Repr, DecidableEq

def Position.inside (p : Position) : Inside := ⟨p.inLoop, p.inFunction, p.inClass⟩

def Surroundings.inside (around : Surroundings) : Inside :=
  ⟨around.inLoop, around.function?.isSome, around.inClass⟩

theorem inside_after (p : Position) (s : Stmt β) : (p.after s).inside = p.inside := by
  unfold Position.after
  split <;> rfl

theorem inside_loop {around : Surroundings} {p : Position} (h : p.inside = around.inside) :
    p.loop.inside = Surroundings.inside (.loop :: around) := by
  obtain ⟨-, function, class_⟩ := Inside.mk.inj h
  exact Inside.mk.injEq .. ▸ ⟨rfl, function, class_⟩

theorem inside_function {around : Surroundings} {p : Position} (h : p.inside = around.inside)
    {c : Construct} (hc : c.isFunction = true) (params : List Name) (body : List (Stmt β)) :
    (p.function params body).inside = Surroundings.inside (c :: around) := by
  obtain ⟨-, -, class_⟩ := Inside.mk.inj h
  cases c with
  | function => exact Inside.mk.injEq .. ▸ ⟨rfl, rfl, class_⟩
  | method name => exact Inside.mk.injEq .. ▸ ⟨rfl, rfl, class_⟩
  | _ => cases hc

theorem inside_class {around : Surroundings} {p : Position} (h : p.inside = around.inside) :
    p.class_.inside = Surroundings.inside (.class_ :: around) := by
  obtain ⟨loop, function, -⟩ := Inside.mk.inj h
  exact Inside.mk.injEq .. ▸ ⟨loop, function, rfl⟩

def ofPosition (x : Position × Node β) : Inside × Node β := (x.1.inside, x.2)

def ofSurroundings (x : Surroundings × Node β) : Inside × Node β := (x.1.inside, x.2)

/-- The nodes are the same, in the same order, and what surrounds them is told alike. -/
def SamePlaces (places : List (Surroundings × Node β)) (nodes : List (Position × Node β)) : Prop :=
  places.map ofSurroundings = nodes.map ofPosition

namespace SamePlaces

variable {places places' : List (Surroundings × Node β)} {nodes nodes' : List (Position × Node β)}
  {around : Surroundings} {p : Position}

theorem nil : SamePlaces ([] : List (Surroundings × Node β)) [] := rfl

theorem append (h : SamePlaces places nodes) (h' : SamePlaces places' nodes') :
    SamePlaces (places ++ places') (nodes ++ nodes') := by
  rw [SamePlaces, List.map_append, List.map_append, h, h']

theorem node (same : p.inside = around.inside) (node : Node β) (h : SamePlaces places nodes) :
    SamePlaces ((around, node) :: places) ((p, node) :: nodes) := by
  rw [SamePlaces, List.map_cons, List.map_cons, h, ofSurroundings, ofPosition, same]

theorem leaf (same : p.inside = around.inside) (node : Node β) :
    SamePlaces [(around, node)] [(p, node)] := nil.node same node

theorem exists_node (h : SamePlaces places nodes) {node : Node β} (hx : (around, node) ∈ places) :
    ∃ p, (p, node) ∈ nodes ∧ p.inside = around.inside := by
  have mem := h ▸ List.mem_map_of_mem hx
  obtain ⟨⟨p, node'⟩, hp, same⟩ := List.mem_map.mp mem
  obtain ⟨inside, rfl⟩ := Prod.mk.inj same
  exact ⟨p, hp, inside⟩

theorem exists_place (h : SamePlaces places nodes) {node : Node β} (hx : (p, node) ∈ nodes) :
    ∃ around, (around, node) ∈ places ∧ p.inside = around.inside := by
  have mem := h ▸ List.mem_map_of_mem hx
  obtain ⟨⟨around, node'⟩, ha, same⟩ := List.mem_map.mp mem
  obtain ⟨inside, rfl⟩ := Prod.mk.inj same
  exact ⟨around, ha, inside.symm⟩

end SamePlaces

mutual

theorem exprPlaces_same {around : Surroundings} {p : Position} (e : Expr β)
    (same : p.inside = around.inside) : SamePlaces (exprPlaces around e) (exprNodes p e) := by
  cases e with
  | literal value => exact .leaf same _
  | grouping inner => exact (exprPlaces_same (p := p.child 0) inner same).node same _
  | «variable» name site => exact .leaf same _
  | assign name site value => exact (exprPlaces_same (p := p.child 0) value same).node same _
  | this line site => exact .leaf same _
  | unary op line operand => exact (exprPlaces_same (p := p.child 0) operand same).node same _
  | binary left op line right =>
    exact ((exprPlaces_same (p := p.child 0) left same).append
      (exprPlaces_same (p := p.child 1) right same)).node same _
  | logical left op line right =>
    exact ((exprPlaces_same (p := p.child 0) left same).append
      (exprPlaces_same (p := p.child 1) right same)).node same _
  | ternary condition yes no =>
    exact (((exprPlaces_same (p := p.child 0) condition same).append
      (exprPlaces_same (p := p.child 1) yes same)).append
        (exprPlaces_same (p := p.child 2) no same)).node same _
  | sequence earlier last =>
    exact ((exprPlaces_same (p := p.child 0) earlier same).append
      (exprPlaces_same (p := p.child 1) last same)).node same _
  | call callee line arguments =>
    exact ((exprPlaces_same (p := p.child 0) callee same).append
      (exprsPlaces_same (p := p.child 1) arguments same)).node same _
  | get object property => exact (exprPlaces_same (p := p.child 0) object same).node same _
  | set object property value =>
    exact ((exprPlaces_same (p := p.child 0) object same).append
      (exprPlaces_same (p := p.child 1) value same)).node same _
  | function params body =>
    have inner := inside_function (p := p.child 0) same (c := .function) rfl params body
    exact ((stmtsPlaces_same (p := ((p.child 0).function params body).child 0) body inner).node
      (p := p.child 0) same _).node same _

theorem exprsPlaces_same {around : Surroundings} {p : Position} (es : List (Expr β))
    (same : p.inside = around.inside) : SamePlaces (exprsPlaces around es) (exprsNodes p es) := by
  cases es with
  | nil => exact .nil
  | cons e es =>
    exact (exprPlaces_same (p := p.child 0) e same).append
      (exprsPlaces_same (p := p.child 1) es same)

theorem stmtPlaces_same {around : Surroundings} {p : Position} (s : Stmt β)
    (same : p.inside = around.inside) : SamePlaces (stmtPlaces around s) (stmtNodes p s) := by
  cases s with
  | expression e => exact (exprPlaces_same (p := p.child 0) e same).node same _
  | print e => exact (exprPlaces_same (p := p.child 0) e same).node same _
  | var name initial =>
    cases initial with
    | none => exact .leaf same _
    | some e => exact (exprPlaces_same (p := (p.pend name).child 0) e same).node same _
  | block body => exact (stmtsPlaces_same (p := (p.block body).child 0) body same).node same _
  | step body increment =>
    exact ((stmtPlaces_same (p := (p.opened [] []).child 0) body same).append
      (exprPlaces_same (p := (p.opened [] []).child 1) increment same)).node same _
  | if_ condition yes no =>
    cases no with
    | none =>
      exact ((exprPlaces_same (p := p.child 0) condition same).append
        (stmtPlaces_same (p := p.child 1) yes same)).node same _
    | some no =>
      exact (((exprPlaces_same (p := p.child 0) condition same).append
        (stmtPlaces_same (p := p.child 1) yes same)).append
          (stmtPlaces_same (p := p.child 2) no same)).node same _
  | while_ condition body =>
    exact ((exprPlaces_same (p := p.child 0) condition same).append
      (stmtPlaces_same (p := p.loop.child 1) body (inside_loop (p := p) same))).node same _
  | jump jump line => exact .leaf same _
  | function name params body =>
    have inner := inside_function (p := (p.declare name).child 0) same (c := .function) rfl params body
    exact ((stmtsPlaces_same (p := (((p.declare name).child 0).function params body).child 0) body
      inner).node (p := (p.declare name).child 0) same _).node same _
  | return_ line value =>
    cases value with
    | none => exact .leaf same _
    | some e => exact (exprPlaces_same (p := p.child 0) e same).node same _
  | class_ name methods =>
    exact (methodsPlaces_same (p := (p.declare name).class_.child 0) methods
      (inside_class (p := p.declare name) same)).node same _

theorem stmtsPlaces_same {around : Surroundings} {p : Position} (ss : List (Stmt β))
    (same : p.inside = around.inside) : SamePlaces (stmtsPlaces around ss) (stmtsNodes p ss) := by
  cases ss with
  | nil => exact .nil
  | cons s ss =>
    exact (stmtPlaces_same (p := p.child 0) s same).append
      (stmtsPlaces_same (p := (p.after s).child 1) ss ((inside_after p s).trans same))

theorem methodsPlaces_same {around : Surroundings} {p : Position} (ms : List (Method β))
    (same : p.inside = around.inside) : SamePlaces (methodsPlaces around ms) (methodsNodes p ms) := by
  cases ms with
  | nil => exact .nil
  | cons m ms =>
    cases m with
    | mk name params body =>
      have inner := inside_function (p := p.child 0) same (c := .method name) rfl params body
      exact ((stmtsPlaces_same (p := ((p.child 0).function params body).child 0) body inner).append
        (methodsPlaces_same (p := p.child 1) ms same)).node (p := p.child 0) same _

end

/-- The places of a program are its nodes. -/
theorem programPlaces_same (number : Nat) (program : List (Stmt β)) :
    SamePlaces (programPlaces program) (programNodes number program) := stmtsPlaces_same program rfl

end Script.Lexical
