import Script.Proofs.Lexical.Regions

/-! The paths of a program.
A path is read from its end: it begins with the number of the program and goes down by the numbers
of the parts. -/
namespace Script.Lexical

variable {β : Type}

/-- Nodes at a path or further down, each at a path of its own. -/
structure Placed (path : List Nat) (nodes : List (Position × Node β)) : Prop where
  under : ∀ x ∈ nodes, path <:+ x.1.path
  apart : (nodes.map fun x => x.1.path).Nodup

structure InParts (path : List Nat) (parts : Nat) (nodes : List (Position × Node β)) : Prop where
  under : ∀ x ∈ nodes, ∃ i < parts, i :: path <:+ x.1.path
  apart : (nodes.map fun x => x.1.path).Nodup

theorem eq_of_suffix_cons {i j : Nat} {path full : List Nat} (h : i :: path <:+ full)
    (h' : j :: path <:+ full) : i = j := by
  have same := List.suffix_of_suffix_length_le h h' (Nat.le_of_eq rfl)
  exact (List.cons.inj (same.eq_of_length rfl)).1

namespace InParts

variable {path : List Nat} {parts : Nat} {nodes nodes' : List (Position × Node β)}

theorem nil : InParts path 0 ([] : List (Position × Node β)) :=
  ⟨List.forall_mem_nil _, List.nodup_nil⟩

theorem append (h : InParts path parts nodes) (h' : Placed (parts :: path) nodes') :
    InParts path (parts + 1) (nodes ++ nodes') where
  under := by
    refine List.forall_mem_append.mpr ⟨fun x hx => ?_, fun x hx => ?_⟩
    · obtain ⟨i, hi, under⟩ := h.under x hx
      exact ⟨i, Nat.lt_succ_of_lt hi, under⟩
    · exact ⟨parts, Nat.lt_succ_self parts, h'.under x hx⟩
  apart := by
    rw [List.map_append, List.nodup_append]
    refine ⟨h.apart, h'.apart, ?_⟩
    rintro _ hx _ hx' rfl
    obtain ⟨x, hx, same⟩ := List.mem_map.mp hx
    obtain ⟨x', hx', same'⟩ := List.mem_map.mp hx'
    obtain ⟨i, hi, under⟩ := h.under x hx
    have under' := h'.under x' hx'
    rw [same] at under
    rw [same'] at under'
    exact absurd (eq_of_suffix_cons under under') (Nat.ne_of_lt hi)

theorem one (h : Placed (0 :: path) nodes) : InParts path 1 nodes := nil.append h

theorem two (h : Placed (0 :: path) nodes) (h' : Placed (1 :: path) nodes') :
    InParts path 2 (nodes ++ nodes') := (one h).append h'

theorem placed (h : InParts path parts nodes) : Placed path nodes where
  under x hx :=
    let ⟨_, _, under⟩ := h.under x hx
    (List.suffix_cons _ _).trans under
  apart := h.apart

theorem cons (p : Position) {node : Node β} (h : InParts p.path parts nodes) :
    Placed p.path ((p, node) :: nodes) where
  under := List.forall_mem_cons.mpr ⟨List.suffix_rfl, h.placed.under⟩
  apart := by
    rw [List.map_cons, List.nodup_cons]
    refine ⟨fun hx => ?_, h.apart⟩
    obtain ⟨x, hx, same⟩ := List.mem_map.mp hx
    obtain ⟨i, -, under⟩ := h.under x hx
    rw [same] at under
    exact absurd under.length_le (Nat.not_succ_le_self _)

end InParts

theorem Placed.single (p : Position) (node : Node β) : Placed p.path [(p, node)] :=
  InParts.nil.cons p

theorem Placed.code {p : Position} {params : List Name} {body : List (Stmt β)}
    (h : Placed (0 :: p.path) (stmtsNodes ((p.function params body).child 0) body)) :
    Placed p.path (codeNodes p params body) := (InParts.one h).cons p

mutual

theorem exprNodes_placed (p : Position) (e : Expr β) : Placed p.path (exprNodes p e) := by
  cases e with
  | literal value => exact .single p _
  | «variable» name site => exact .single p _
  | this line site => exact .single p _
  | grouping inner => exact (InParts.one (exprNodes_placed (p.child 0) inner)).cons p
  | assign name site value => exact (InParts.one (exprNodes_placed (p.child 0) value)).cons p
  | unary op line operand => exact (InParts.one (exprNodes_placed (p.child 0) operand)).cons p
  | get object property => exact (InParts.one (exprNodes_placed (p.child 0) object)).cons p
  | binary left op line right =>
    exact (InParts.two (exprNodes_placed (p.child 0) left)
      (exprNodes_placed (p.child 1) right)).cons p
  | logical left op line right =>
    exact (InParts.two (exprNodes_placed (p.child 0) left)
      (exprNodes_placed (p.child 1) right)).cons p
  | sequence earlier last =>
    exact (InParts.two (exprNodes_placed (p.child 0) earlier)
      (exprNodes_placed (p.child 1) last)).cons p
  | set object property value =>
    exact (InParts.two (exprNodes_placed (p.child 0) object)
      (exprNodes_placed (p.child 1) value)).cons p
  | call callee line arguments =>
    exact (InParts.two (exprNodes_placed (p.child 0) callee)
      (exprsNodes_placed (p.child 1) arguments)).cons p
  | ternary condition yes no =>
    exact ((InParts.two (exprNodes_placed (p.child 0) condition)
      (exprNodes_placed (p.child 1) yes)).append (exprNodes_placed (p.child 2) no)).cons p
  | function params body =>
    have body := stmtsNodes_placed (((p.child 0).function params body).child 0) body
    exact (InParts.one (Placed.code (p := p.child 0) body)).cons p

theorem exprsNodes_placed (p : Position) (es : List (Expr β)) :
    Placed p.path (exprsNodes p es) := by
  cases es with
  | nil => exact InParts.nil.placed
  | cons e es =>
    exact (InParts.two (exprNodes_placed (p.child 0) e) (exprsNodes_placed (p.child 1) es)).placed

theorem stmtNodes_placed (p : Position) (s : Stmt β) : Placed p.path (stmtNodes p s) := by
  cases s with
  | expression e => exact (InParts.one (exprNodes_placed (p.child 0) e)).cons p
  | print e => exact (InParts.one (exprNodes_placed (p.child 0) e)).cons p
  | var name initial =>
    cases initial with
    | none => exact .single p _
    | some e => exact (InParts.one (exprNodes_placed ((p.pend name).child 0) e)).cons p
  | block body => exact (InParts.one (stmtsNodes_placed ((p.block body).child 0) body)).cons p
  | step body increment =>
    exact (InParts.two (stmtNodes_placed ((p.opened [] []).child 0) body)
      (exprNodes_placed ((p.opened [] []).child 1) increment)).cons p
  | if_ condition yes no =>
    cases no with
    | none =>
      exact (InParts.two (exprNodes_placed (p.child 0) condition)
        (stmtNodes_placed (p.child 1) yes)).cons p
    | some no =>
      exact ((InParts.two (exprNodes_placed (p.child 0) condition)
        (stmtNodes_placed (p.child 1) yes)).append (stmtNodes_placed (p.child 2) no)).cons p
  | while_ condition body =>
    exact (InParts.two (exprNodes_placed (p.child 0) condition)
      (stmtNodes_placed (p.loop.child 1) body)).cons p
  | jump jump line => exact .single p _
  | function name params body =>
    have body := stmtsNodes_placed ((((p.declare name).child 0).function params body).child 0) body
    exact (InParts.one (Placed.code (p := (p.declare name).child 0) body)).cons p
  | return_ line value =>
    cases value with
    | none => exact .single p _
    | some e => exact (InParts.one (exprNodes_placed (p.child 0) e)).cons p
  | class_ name methods =>
    exact (InParts.one (methodsNodes_placed ((p.declare name).class_.child 0) methods)).cons p

theorem stmtsNodes_placed (p : Position) (ss : List (Stmt β)) :
    Placed p.path (stmtsNodes p ss) := by
  cases ss with
  | nil => exact InParts.nil.placed
  | cons s ss =>
    have others := stmtsNodes_placed ((p.after s).child 1) ss
    have path : ((p.after s).child 1).path = 1 :: p.path := by
      unfold Position.after
      split <;> rfl
    rw [path] at others
    exact (InParts.two (stmtNodes_placed (p.child 0) s) others).placed

theorem methodsNodes_placed (p : Position) (ms : List (Method β)) :
    Placed p.path (methodsNodes p ms) := by
  cases ms with
  | nil => exact InParts.nil.placed
  | cons m ms =>
    cases m with
    | mk name params body =>
      have body := stmtsNodes_placed (((p.child 0).function params body).child 0) body
      exact (InParts.two (Placed.code (p := p.child 0) body)
        (methodsNodes_placed (p.child 1) ms)).placed

end

theorem programNodes_placed (number : Nat) (program : List (Stmt β)) :
    Placed [number] (programNodes number program) :=
  stmtsNodes_placed (.top number) program

/-- Nodes of one path are of one program, and in it they are one node. -/
theorem program_of_path {n n' : Nat} {program program' : List (Stmt β)} {x x' : Position × Node β}
    (hx : x ∈ programNodes n program) (hx' : x' ∈ programNodes n' program')
    (same : x.1.path = x'.1.path) : n = n' := by
  have under := (programNodes_placed n program).under x hx
  have under' := (programNodes_placed n' program').under x' hx'
  rw [same] at under
  exact eq_of_suffix_cons under under'

theorem node_of_path {n : Nat} {program : List (Stmt β)} {x x' : Position × Node β}
    (hx : x ∈ programNodes n program) (hx' : x' ∈ programNodes n program)
    (same : x.1.path = x'.1.path) : x = x' :=
  eq_of_nodup_map (programNodes_placed n program).apart hx hx' same

end Script.Lexical
