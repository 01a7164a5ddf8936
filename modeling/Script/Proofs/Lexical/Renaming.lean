import Script.Proofs.Lexical.Position

/-! Renaming the names of a program.
A renaming gives every name as it stands in a source another text, and every line another line. It
may tell two occurrences of one text apart by their lines. -/
namespace Script.Lexical

variable {β γ : Type}

structure Renaming where
  text : Name → String
  line : Nat → Nat
  key : Region → String → String
  key_injective : ∀ r a b, key r a = key r b → a = b

namespace Renaming

def name (ρ : Renaming) (n : Name) : Name := ⟨ρ.text n, ρ.line n.line⟩

def relined (line : Nat → Nat) : Renaming := ⟨Name.text, line, fun _ k => k, fun _ _ _ h => h⟩

def identity : Renaming := relined fun line => line

theorem name_identity : identity.name = fun n => n := rfl

theorem line_identity (line : Nat) : identity.line line = line := rfl

end Renaming

mutual

/-- Renames an expression, and changes what is known of its uses. -/
def translateExpr (ρ : Renaming) (f : β → γ) : Expr β → Expr γ
  | .literal value => .literal value
  | .grouping inner => .grouping (translateExpr ρ f inner)
  | .variable name site => .variable (ρ.name name) (f site)
  | .assign name site value => .assign (ρ.name name) (f site) (translateExpr ρ f value)
  | .this line site => .this (ρ.line line) (f site)
  | .unary op line operand => .unary op (ρ.line line) (translateExpr ρ f operand)
  | .binary left op line right =>
    .binary (translateExpr ρ f left) op (ρ.line line) (translateExpr ρ f right)
  | .logical left op line right =>
    .logical (translateExpr ρ f left) op (ρ.line line) (translateExpr ρ f right)
  | .ternary condition yes no =>
    .ternary (translateExpr ρ f condition) (translateExpr ρ f yes) (translateExpr ρ f no)
  | .sequence earlier last => .sequence (translateExpr ρ f earlier) (translateExpr ρ f last)
  | .call callee line arguments =>
    .call (translateExpr ρ f callee) (ρ.line line) (translateExprs ρ f arguments)
  | .get object property => .get (translateExpr ρ f object) (ρ.name property)
  | .set object property value =>
    .set (translateExpr ρ f object) (ρ.name property) (translateExpr ρ f value)
  | .function params body => .function (params.map ρ.name) (translateStmts ρ f body)

def translateExprs (ρ : Renaming) (f : β → γ) : List (Expr β) → List (Expr γ)
  | [] => []
  | e :: es => translateExpr ρ f e :: translateExprs ρ f es

def translateStmt (ρ : Renaming) (f : β → γ) : Stmt β → Stmt γ
  | .expression e => .expression (translateExpr ρ f e)
  | .print e => .print (translateExpr ρ f e)
  | .var name none => .var (ρ.name name) none
  | .var name (some e) => .var (ρ.name name) (some (translateExpr ρ f e))
  | .block body => .block (translateStmts ρ f body)
  | .step body increment => .step (translateStmt ρ f body) (translateExpr ρ f increment)
  | .if_ condition yes none => .if_ (translateExpr ρ f condition) (translateStmt ρ f yes) none
  | .if_ condition yes (some no) =>
    .if_ (translateExpr ρ f condition) (translateStmt ρ f yes) (some (translateStmt ρ f no))
  | .while_ condition body => .while_ (translateExpr ρ f condition) (translateStmt ρ f body)
  | .jump jump line => .jump jump (ρ.line line)
  | .function name params body =>
    .function (ρ.name name) (params.map ρ.name) (translateStmts ρ f body)
  | .return_ line none => .return_ (ρ.line line) none
  | .return_ line (some e) => .return_ (ρ.line line) (some (translateExpr ρ f e))
  | .class_ name methods => .class_ (ρ.name name) (translateMethods ρ f methods)

def translateStmts (ρ : Renaming) (f : β → γ) : List (Stmt β) → List (Stmt γ)
  | [] => []
  | s :: ss => translateStmt ρ f s :: translateStmts ρ f ss

def translateMethods (ρ : Renaming) (f : β → γ) : List (Method β) → List (Method γ)
  | [] => []
  | .mk name params body :: methods =>
    .mk (ρ.name name) (params.map ρ.name) (translateStmts ρ f body) :: translateMethods ρ f methods

end

def translateMethod (ρ : Renaming) (f : β → γ) (m : Method β) : Method γ :=
  .mk (ρ.name m.name) (m.params.map ρ.name) (translateStmts ρ f m.body)

theorem translateMethods_eq_map (ρ : Renaming) (f : β → γ) (ms : List (Method β)) :
    translateMethods ρ f ms = ms.map (translateMethod ρ f) := by
  induction ms with
  | nil => rfl
  | cons m ms ih =>
    cases m with
    | mk name params body => simp only [translateMethods, ih, List.map_cons]; rfl

mutual

theorem translateExpr_identity (e : Expr β) : translateExpr .identity (fun b => b) e = e := by
  cases e with
  | _ =>
    simp only [translateExpr, Renaming.name_identity, Renaming.line_identity, List.map_id',
      translateExpr_identity, translateExprs_identity, translateStmts_identity]

theorem translateExprs_identity (es : List (Expr β)) :
    translateExprs .identity (fun b => b) es = es := by
  cases es with
  | nil => rfl
  | cons e es => simp only [translateExprs, translateExpr_identity e, translateExprs_identity es]

theorem translateStmt_identity (s : Stmt β) : translateStmt .identity (fun b => b) s = s := by
  cases s with
  | var _ initial =>
    cases initial <;>
      simp only [translateStmt, Renaming.name_identity, translateExpr_identity]
  | if_ _ _ no =>
    cases no <;> simp only [translateStmt, translateExpr_identity, translateStmt_identity]
  | return_ _ value =>
    cases value <;>
      simp only [translateStmt, Renaming.line_identity, translateExpr_identity]
  | _ =>
    simp only [translateStmt, Renaming.name_identity, Renaming.line_identity, List.map_id',
      translateExpr_identity, translateStmt_identity, translateStmts_identity,
      translateMethods_identity]

theorem translateStmts_identity (ss : List (Stmt β)) :
    translateStmts .identity (fun b => b) ss = ss := by
  cases ss with
  | nil => rfl
  | cons s ss => simp only [translateStmts, translateStmt_identity s, translateStmts_identity ss]

theorem translateMethods_identity (ms : List (Method β)) :
    translateMethods .identity (fun b => b) ms = ms := by
  cases ms with
  | nil => rfl
  | cons m ms =>
    cases m with
    | mk name params body =>
      simp only [translateMethods, Renaming.name_identity, List.map_id',
        translateStmts_identity body, translateMethods_identity ms]

end

/-! What a renaming has to respect. Beside each use it must agree with the region that the use
refers to, so that the use refers to the same region afterwards, and it leaves alone what is no
local: globals, properties, and the names by which functions, methods and classes are printed. -/

/-- How far out a key is found once the regions around are renamed. -/
def Position.renamedDistance? (p : Position) (ρ : Renaming) (key : String) : Option Nat :=
  p.layers.findIdx? fun l => l.names.any fun n => ρ.key l.region n.text == key

structure UseRespected (ρ : Renaming) (p : Position) (key renamed : String) : Prop where
  distance : p.renamedDistance? ρ renamed = p.distance? key
  local_ : ∀ d l, p.distance? key = some d → p.layers[d]? = some l → renamed = ρ.key l.region key
  global : p.distance? key = none → renamed = key

def DeclarationRespected (ρ : Renaming) (p : Position) (name : Name) : Prop :=
  match p.layers with
  | [] => ρ.text name = name.text
  | l :: _ => ρ.text name = ρ.key l.region name.text

def Respected (ρ : Renaming) : Position × Node β → Prop
  | (p, .expr (.variable name _)) => UseRespected ρ p name.text (ρ.text name)
  | (p, .expr (.assign name _ _)) => UseRespected ρ p name.text (ρ.text name)
  | (p, .expr (.this _ _)) => UseRespected ρ p thisName.text thisName.text
  | (_, .expr (.get _ property)) => ρ.text property = property.text
  | (_, .expr (.set _ property _)) => ρ.text property = property.text
  | (p, .stmt (.var name _)) => DeclarationRespected ρ p name
  | (p, .stmt (.function name _ _)) => ρ.text name = name.text ∧ DeclarationRespected ρ p name
  | (p, .stmt (.class_ name methods)) =>
    ρ.text name = name.text ∧ DeclarationRespected ρ p name ∧
      (∀ m ∈ methods, ρ.text m.name = m.name.text) ∧
      ρ.key ⟨p.path, [thisName], []⟩ thisName.text = thisName.text
  | (p, .code params body) =>
    ∀ n ∈ params, ρ.text n = ρ.key ⟨p.path, params, declaredNames body⟩ n.text
  | _ => True

end Script.Lexical
