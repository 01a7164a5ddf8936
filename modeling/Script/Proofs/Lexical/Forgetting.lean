import Script.Proofs.Lexical.Binding

/-! Trees without their names or their sites.
Binding adds sites and nothing else, so the tree that was read comes back when they are forgotten.
What stands at a place does not depend on sites either. -/
namespace Script

open Lexical Binding

namespace Lexical

variable {α β γ δ : Type}

namespace Renaming

/-- One renaming behind another, as far as trees go, which have no keys. -/
def behind (σ ρ : Renaming) : Renaming :=
  { identity with
    text := fun n => σ.text (ρ.name n)
    line := fun l => σ.line (ρ.line l) }

theorem name_behind (σ ρ : Renaming) : (σ.behind ρ).name = σ.name ∘ ρ.name := rfl

theorem line_behind (σ ρ : Renaming) (line : Nat) :
    (σ.behind ρ).line line = σ.line (ρ.line line) := rfl

def nameless : Renaming := { identity with text := fun _ => "" }

end Renaming

variable (σ ρ : Renaming) (f : β → γ) (g : γ → δ)

mutual

theorem translateExpr_translate (e : Expr β) :
    translateExpr σ g (translateExpr ρ f e) = translateExpr (σ.behind ρ) (g ∘ f) e := by
  cases e with
  | _ =>
    simp only [translateExpr, translateExpr_translate, translateExprs_translate,
      translateStmts_translate, List.map_map, Renaming.name_behind, Renaming.line_behind,
      Function.comp_apply]

theorem translateExprs_translate (es : List (Expr β)) :
    translateExprs σ g (translateExprs ρ f es) = translateExprs (σ.behind ρ) (g ∘ f) es := by
  cases es with
  | nil => rfl
  | cons e es => simp only [translateExprs, translateExpr_translate e, translateExprs_translate es]

theorem translateStmt_translate (s : Stmt β) :
    translateStmt σ g (translateStmt ρ f s) = translateStmt (σ.behind ρ) (g ∘ f) s := by
  cases s with
  | var _ initial =>
    cases initial <;>
      simp only [translateStmt, translateExpr_translate, Renaming.name_behind, Function.comp_apply]
  | if_ _ _ no =>
    cases no <;> simp only [translateStmt, translateExpr_translate, translateStmt_translate]
  | return_ _ value =>
    cases value <;> simp only [translateStmt, translateExpr_translate, Renaming.line_behind]
  | _ =>
    simp only [translateStmt, translateExpr_translate, translateStmt_translate,
      translateStmts_translate, translateMethods_translate, List.map_map, Renaming.name_behind,
      Renaming.line_behind, Function.comp_apply]

theorem translateStmts_translate (ss : List (Stmt β)) :
    translateStmts σ g (translateStmts ρ f ss) = translateStmts (σ.behind ρ) (g ∘ f) ss := by
  cases ss with
  | nil => rfl
  | cons s ss => simp only [translateStmts, translateStmt_translate s, translateStmts_translate ss]

theorem translateMethods_translate (ms : List (Method β)) :
    translateMethods σ g (translateMethods ρ f ms) = translateMethods (σ.behind ρ) (g ∘ f) ms := by
  cases ms with
  | nil => rfl
  | cons m ms =>
    cases m with
    | mk name params body =>
      simp only [translateMethods, translateStmts_translate body, translateMethods_translate ms,
        List.map_map, Renaming.name_behind, Function.comp_apply]

end

abbrev siteStmts (f : β → γ) (ss : List (Stmt β)) : List (Stmt γ) := translateStmts .identity f ss

def Node.sited (f : β → γ) : Node β → Node γ
  | .expr e => .expr (translateExpr .identity f e)
  | .stmt s => .stmt (translateStmt .identity f s)
  | .code params body => .code params (siteStmts f body)

def sitedAt (f : β → γ) (x : Position × Node β) : Position × Node γ := (x.1, x.2.sited f)

theorem declared?_site (s : Stmt β) : declared? (translateStmt .identity f s) = declared? s := by
  cases s with
  | var _ initial => cases initial <;> rfl
  | if_ _ _ no => cases no <;> rfl
  | return_ _ value => cases value <;> rfl
  | _ => rfl

theorem declaredNames_site (ss : List (Stmt β)) :
    declaredNames (siteStmts f ss) = declaredNames ss := by
  induction ss with
  | nil => rfl
  | cons s ss ih =>
    simp only [declaredNames, siteStmts, translateStmts, List.filterMap_cons, declared?_site] at ih ⊢
    rw [ih]

theorem after_site (p : Position) (s : Stmt β) :
    p.after (translateStmt .identity f s) = p.after s := by
  unfold Position.after
  rw [declared?_site]

theorem block_site (p : Position) (ss : List (Stmt β)) : p.block (siteStmts f ss) = p.block ss := by
  simp only [Position.block, declaredNames_site]

theorem function_site (p : Position) (params : List Name) (ss : List (Stmt β)) :
    p.function params (siteStmts f ss) = p.function params ss := by
  simp only [Position.function, declaredNames_site]

mutual

theorem exprNodes_site (p : Position) (e : Expr β) :
    exprNodes p (translateExpr .identity f e) = (exprNodes p e).map (sitedAt f) := by
  cases e with
  | function params body =>
    simp only [translateExpr, exprNodes, Renaming.name_identity, List.map_id', List.map_cons,
      function_site, stmtsNodes_site _ body, sitedAt, Node.sited, translateExpr]
  | _ =>
    simp only [translateExpr, exprNodes, List.map_cons, List.map_append, List.map_nil,
      exprNodes_site, exprsNodes_site]
    rfl

theorem exprsNodes_site (p : Position) (es : List (Expr β)) :
    exprsNodes p (translateExprs .identity f es) = (exprsNodes p es).map (sitedAt f) := by
  cases es with
  | nil => rfl
  | cons e es =>
    simp only [translateExprs, exprsNodes, List.map_append, exprNodes_site _ e,
      exprsNodes_site _ es]

theorem stmtNodes_site (p : Position) (s : Stmt β) :
    stmtNodes p (translateStmt .identity f s) = (stmtNodes p s).map (sitedAt f) := by
  cases s with
  | var name initial =>
    cases initial with
    | none => rfl
    | some e =>
      simp only [translateStmt, stmtNodes, Renaming.name_identity, List.map_cons, exprNodes_site]
      rfl
  | block body =>
    simp only [translateStmt, stmtNodes, List.map_cons, block_site, stmtsNodes_site _ body]
    rfl
  | if_ condition yes no =>
    cases no <;>
      simp only [translateStmt, stmtNodes, List.map_cons, List.map_append, exprNodes_site,
        stmtNodes_site] <;> rfl
  | function name params body =>
    simp only [translateStmt, stmtNodes, Renaming.name_identity, List.map_id', List.map_cons,
      function_site, stmtsNodes_site _ body, sitedAt, Node.sited, translateStmt]
  | return_ line value =>
    cases value <;> simp only [translateStmt, stmtNodes, List.map_cons, exprNodes_site] <;> rfl
  | class_ name methods =>
    simp only [translateStmt, stmtNodes, Renaming.name_identity, List.map_cons,
      methodsNodes_site _ methods]
    rfl
  | _ =>
    simp only [translateStmt, stmtNodes, List.map_cons, List.map_append, List.map_nil,
      exprNodes_site, stmtNodes_site]
    rfl

theorem stmtsNodes_site (p : Position) (ss : List (Stmt β)) :
    stmtsNodes p (siteStmts f ss) = (stmtsNodes p ss).map (sitedAt f) := by
  cases ss with
  | nil => rfl
  | cons s ss =>
    simp only [siteStmts, translateStmts, stmtsNodes, List.map_append, after_site,
      stmtNodes_site _ s]
    rw [← stmtsNodes_site _ ss]

theorem methodsNodes_site (p : Position) (ms : List (Method β)) :
    methodsNodes p (translateMethods .identity f ms) = (methodsNodes p ms).map (sitedAt f) := by
  cases ms with
  | nil => rfl
  | cons m ms =>
    cases m with
    | mk name params body =>
      simp only [translateMethods, methodsNodes, Renaming.name_identity, List.map_id',
        List.map_cons, List.map_append, function_site, stmtsNodes_site _ body,
        methodsNodes_site _ ms]
      rfl

end

/-- A binder always ends with something of which this is so. -/
def Gives (x : Binder α) (P : α → Prop) : Prop := ∀ s, P (x.run s).run.1

namespace Gives

variable {x : Binder α} {P : α → Prop} {Q : β → Prop}

theorem pure {a : α} (h : P a) : Gives (Pure.pure a) P := fun _ => h

theorem bind {f : α → Binder β} (h : Gives x P) (hf : ∀ a, P a → Gives (f a) Q) :
    Gives (x >>= f) Q := fun s => hf _ (h s) _

theorem behind {f : α → Binder β} (hf : ∀ a, Gives (f a) Q) : Gives (x >>= f) Q :=
  fun _ => hf _ _

theorem complainIf {c : Context → Prop} [DecidablePred c] {complaint : Binder Unit}
    {f : Unit → Binder β} (h : Gives (f ()) Q) :
    Gives (get >>= fun s => if c s then complaint >>= f else f ()) Q := by
  refine .behind fun s => ?_
  split
  · exact .behind fun _ => h
  · exact h

theorem inScope {first : Scope} (h : Gives x P) : Gives (Binding.inScope first x) P :=
  .behind fun _ => h.bind fun _ ha => .behind fun _ => .pure ha

theorem inFunction {enclosing : Enclosing} (h : Gives x P) :
    Gives (Binding.inFunction enclosing x) P :=
  .behind fun _ => .behind fun _ => h.inScope.bind fun _ ha => .behind fun _ => .pure ha

theorem inLoop (h : Gives x P) : Gives (Binding.inLoop x) P :=
  .behind fun _ => .behind fun _ => h.bind fun _ ha => .behind fun _ => .pure ha

theorem inClass {name : Name} (h : Gives x P) : Gives (Binding.inClass name x) P :=
  .behind fun _ => .behind fun _ => .behind fun _ => h.inScope.bind fun _ ha =>
    .behind fun _ => .pure ha

end Gives

def unsited (_ : Site) : Unit := ()

mutual

theorem bindExpr_gives (e : RawExpr) :
    Gives (bindExpr e) fun a => translateExpr .identity unsited a = e := by
  cases e with
  | literal value => exact .pure rfl
  | grouping inner => exact (bindExpr_gives inner).bind fun a ha => .pure (by rw [translateExpr, ha])
  | «variable» name site => exact .behind fun _ => .behind fun _ => .pure rfl
  | assign name site value =>
    exact (bindExpr_gives value).bind fun a ha => .behind fun _ =>
      .pure (by rw [translateExpr, ha]; rfl)
  | this line site =>
    refine .behind fun s => ?_
    split
    · exact .behind fun _ => .pure rfl
    · exact .behind fun _ => .pure rfl
  | unary op line operand =>
    exact (bindExpr_gives operand).bind fun a ha => .pure (by rw [translateExpr, ha]; rfl)
  | binary left op line right =>
    exact (bindExpr_gives left).bind fun a ha => (bindExpr_gives right).bind fun b hb =>
      .pure (by rw [translateExpr, ha, hb]; rfl)
  | logical left op line right =>
    exact (bindExpr_gives left).bind fun a ha => (bindExpr_gives right).bind fun b hb =>
      .pure (by rw [translateExpr, ha, hb]; rfl)
  | ternary condition yes no =>
    exact (bindExpr_gives condition).bind fun a ha => (bindExpr_gives yes).bind fun b hb =>
      (bindExpr_gives no).bind fun c hc => .pure (by rw [translateExpr, ha, hb, hc])
  | sequence earlier last =>
    exact (bindExpr_gives earlier).bind fun a ha => (bindExpr_gives last).bind fun b hb =>
      .pure (by rw [translateExpr, ha, hb])
  | call callee line arguments =>
    exact (bindExpr_gives callee).bind fun a ha => (bindExprs_gives arguments).bind fun b hb =>
      .pure (by rw [translateExpr, ha, hb]; rfl)
  | get object property =>
    exact (bindExpr_gives object).bind fun a ha => .pure (by rw [translateExpr, ha]; rfl)
  | set object property value =>
    exact (bindExpr_gives value).bind fun a ha => (bindExpr_gives object).bind fun b hb =>
      .pure (by rw [translateExpr, ha, hb]; rfl)
  | function params body =>
    exact (Gives.inFunction (.behind fun _ => bindStmts_gives body)).bind fun a ha =>
      .pure (by rw [translateExpr, ha, Renaming.name_identity, List.map_id'])

theorem bindExprs_gives (es : List RawExpr) :
    Gives (bindExprs es) fun a => translateExprs .identity unsited a = es := by
  cases es with
  | nil => exact .pure rfl
  | cons e es =>
    exact (bindExpr_gives e).bind fun a ha => (bindExprs_gives es).bind fun b hb =>
      .pure (by rw [translateExprs, ha, hb])

theorem bindStmt_gives (s : RawStmt) :
    Gives (bindStmt s) fun a => translateStmt .identity unsited a = s := by
  cases s with
  | expression e => exact (bindExpr_gives e).bind fun a ha => .pure (by rw [translateStmt, ha])
  | print e => exact (bindExpr_gives e).bind fun a ha => .pure (by rw [translateStmt, ha])
  | var name initial =>
    cases initial with
    | none => exact .behind fun _ => .pure rfl
    | some e =>
      exact .behind fun _ => (bindExpr_gives e).bind fun a ha => .behind fun _ =>
        .pure (by rw [translateStmt, ha]; rfl)
  | block body =>
    exact (bindStmts_gives body).inScope.bind fun a ha => .pure (by rw [translateStmt, ha])
  | step body increment =>
    exact Gives.inScope ((bindStmt_gives body).bind fun a ha =>
      (bindExpr_gives increment).bind fun b hb => .pure (by rw [translateStmt, ha, hb]))
  | if_ condition yes no =>
    cases no with
    | none =>
      exact (bindExpr_gives condition).bind fun a ha => (bindStmt_gives yes).bind fun b hb =>
        .pure (by rw [translateStmt, ha, hb])
    | some no =>
      exact (bindExpr_gives condition).bind fun a ha => (bindStmt_gives yes).bind fun b hb =>
        (bindStmt_gives no).bind fun c hc => .pure (by rw [translateStmt, ha, hb, hc])
  | while_ condition body =>
    exact (bindExpr_gives condition).bind fun a ha => (bindStmt_gives body).inLoop.bind fun b hb =>
      .pure (by rw [translateStmt, ha, hb])
  | jump jump line => exact .complainIf (.pure rfl)
  | function name params body =>
    exact .behind fun _ => (Gives.inFunction (.behind fun _ => bindStmts_gives body)).bind
      fun a ha => .pure (by rw [translateStmt, ha, Renaming.name_identity, List.map_id'])
  | return_ line value =>
    cases value with
    | none => exact .complainIf (.pure rfl)
    | some e =>
      exact .complainIf (.complainIf ((bindExpr_gives e).bind fun a ha =>
        .pure (by rw [translateStmt, ha]; rfl)))
  | class_ name methods =>
    exact (bindMethods_gives methods).inClass.bind fun a ha => .pure (by rw [translateStmt, ha]; rfl)

theorem bindStmts_gives (ss : List RawStmt) :
    Gives (bindStmts ss) fun a => translateStmts .identity unsited a = ss := by
  cases ss with
  | nil => exact .pure rfl
  | cons s ss =>
    exact (bindStmt_gives s).bind fun a ha => (bindStmts_gives ss).bind fun b hb =>
      .pure (by rw [translateStmts, ha, hb])

theorem bindMethods_gives (ms : List RawMethod) :
    Gives (bindMethods ms) fun a => translateMethods .identity unsited a = ms := by
  cases ms with
  | nil => exact .pure rfl
  | cons m ms =>
    cases m with
    | mk name params body =>
      exact (Gives.inFunction (.behind fun _ => bindStmts_gives body)).bind fun a ha =>
        (bindMethods_gives ms).bind fun b hb => .pure (by
          rw [translateMethods, ha, hb, Renaming.name_identity, List.map_id'])

end

/-- Binding gives the tree that was read, with sites. -/
theorem bindProgram_unsited (program : List RawStmt) :
    siteStmts unsited (bindProgram program).statements = program :=
  bindStmts_gives program _

end Lexical

end Script
