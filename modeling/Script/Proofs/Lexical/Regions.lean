import Script.Proofs.Lexical.Reading

/-! The regions of a scoped program.
Where every node is scoped, no region has two names of one text, a list of statements declares its
names in the region around it, and the names that are visible from a place are names of the program.
-/
namespace Script

open Lexical

namespace Lexical

/-- Two members of a list with distinct images are the same if their images are. -/
theorem eq_of_nodup_map {α β : Type} {f : α → β} {l : List α} (h : (l.map f).Nodup) {a b : α}
    (ha : a ∈ l) (hb : b ∈ l) (hab : f a = f b) : a = b := by
  induction l with
  | nil => cases ha
  | cons c l ih =>
    obtain ⟨hc, h⟩ := List.nodup_cons.mp h
    rcases List.mem_cons.mp ha with hac | ha' <;> rcases List.mem_cons.mp hb with hbc | hb'
    · exact hac.trans hbc.symm
    · subst hac
      exact absurd (hab ▸ List.mem_map_of_mem hb') hc
    · subst hbc
      exact absurd (hab ▸ List.mem_map_of_mem ha') hc
    · exact ih h ha' hb'

variable (known : Name → Prop)

structure Layer.Orderly (l : Layer) : Prop where
  names : ∀ m ∈ l.names, m = thisName ∨ known m
  distinct : (l.region.names.map Name.text).Nodup

def Position.Orderly (p : Position) : Prop := ∀ l ∈ p.layers, l.Orderly known

def Position.Declares (p : Position) (name : Name) : Prop :=
  ∀ l ∈ p.layers.head?, name ∈ l.region.names

/-- What is so of every node of a scoped program. -/
structure Orderly {β : Type} (x : Position × Node β) : Prop where
  around : x.1.Orderly known
  declared : ∀ s name, x.2 = .stmt s → declared? s = some name → x.1.Declares name
  distinct : ∀ params body, x.2 = .code params body →
    ((params ++ declaredNames body).map Name.text).Nodup

structure Tidy (x : Position × Node Site) : Prop where
  isScoped : Scoped x
  plain : x.2.Plain
  names : ∀ m ∈ x.2.names, known m

variable {known} {p : Position}

namespace Position.Orderly

theorem onInner {change : Layer → Layer} (h : p.Orderly known)
    (hc : ∀ l, l.Orderly known → (change l).Orderly known) : (p.onInner change).Orderly known := by
  intro l hl
  simp only [Position.onInner] at hl
  cases hp : p.layers with
  | nil =>
    rw [hp] at hl
    cases hl
  | cons k outer =>
    rw [hp] at hl
    rcases List.mem_cons.mp hl with rfl | hl
    · exact hc k (h k (by rw [hp]; exact List.mem_cons_self))
    · exact h l (by rw [hp]; exact List.mem_cons_of_mem _ hl)

theorem declare {name : Name} (h : p.Orderly known) (hn : known name) :
    (p.declare name).Orderly known := by
  refine h.onInner fun l hl => ⟨fun m hm => ?_, hl.distinct⟩
  simp only [Layer.names, Layer.declare, List.mem_append, List.mem_cons] at hm
  rcases hm with hm | rfl | hm
  · exact hl.names m (List.mem_append_left _ hm)
  · exact .inr hn
  · exact hl.names m (List.mem_append_right _ hm)

theorem pend {name : Name} (h : p.Orderly known) (hn : known name) :
    (p.pend name).Orderly known := by
  refine h.onInner fun l hl => ⟨fun m hm => ?_, hl.distinct⟩
  simp only [Layer.names, List.mem_append, List.mem_cons] at hm
  rcases hm with (rfl | hm) | hm
  · exact .inr hn
  · exact hl.names m (List.mem_append_left _ hm)
  · exact hl.names m (List.mem_append_right _ hm)

theorem after {s : Stmt Site} (h : p.Orderly known) (hn : ∀ m, declared? s = some m → known m) :
    (p.after s).Orderly known := by
  unfold Position.after
  split
  · exact h.declare (hn _ ‹_›)
  · exact h

theorem opened {params locals : List Name} (h : p.Orderly known)
    (hp : ∀ n ∈ params, n = thisName ∨ known n)
    (hd : ((params ++ locals).map Name.text).Nodup) :
    (p.opened params locals).Orderly known := by
  intro l hl
  rcases List.mem_cons.mp hl with rfl | hl
  · exact ⟨hp, hd⟩
  · exact h l hl

end Position.Orderly

theorem stmt_mem_stmtNodes {β : Type} (p : Position) (s : Stmt β) :
    (p, .stmt s) ∈ stmtNodes p s := by
  cases s with
  | var _ initial => cases initial <;> simp [stmtNodes]
  | if_ _ _ no => cases no <;> simp [stmtNodes]
  | return_ _ value => cases value <;> simp [stmtNodes]
  | _ => simp [stmtNodes]

/-- A declaration is fresh where it stands. -/
theorem fresh_of_scoped {s : Stmt Site} {name : Name} (hs : declared? s = some name)
    (h : Scoped (p, .stmt s)) : p.Fresh name := by
  cases s <;> cases hs <;> exact h

theorem declared_mem_names {β : Type} {s : Stmt β} {name : Name} (hs : declared? s = some name) :
    name ∈ (Node.stmt s).names := by
  cases s <;> cases hs <;> simp [Node.names]

theorem after_of_some {s : Stmt Site} {name : Name} (hs : declared? s = some name) :
    p.after s = p.declare name := by
  simp only [Position.after, hs]

/-- The names that a list declares differ from each other and from those before it. -/
theorem declaredNames_distinct {ss : List (Stmt Site)} (l : Layer) {outer : List Layer}
    (hp : p.layers = l :: outer) (h : ∀ x ∈ stmtsNodes p ss, Scoped x) :
    ((declaredNames ss).map Name.text).Nodup ∧
      ∀ m ∈ declaredNames ss, l.holds m.text = false := by
  induction ss generalizing p l with
  | nil => exact ⟨List.nodup_nil, List.forall_mem_nil _⟩
  | cons s ss ih =>
    have first := h (p.child 0, .stmt s)
      (List.mem_append_left _ (stmt_mem_stmtNodes (p.child 0) s))
    have others := fun x hx => h x (List.mem_append_right _ hx)
    cases hs : declared? s with
    | none =>
      rw [Position.after_of_none hs] at others
      simp only [declaredNames, List.filterMap_cons, hs]
      exact ih (p := p.child 1) l hp others
    | some name =>
      have fresh : l.holds name.text = false := fresh_of_scoped hs first l (by
        show l ∈ p.layers.head?
        rw [hp]
        rfl)
      rw [after_of_some hs] at others
      obtain ⟨nodup, apart⟩ := ih (p := (p.declare name).child 1) (l.declare name) (by
        simp only [Position.child, Position.declare, Position.onInner, hp]) others
      have apart' : ∀ m ∈ declaredNames ss, (name.text == m.text) = false ∧ l.holds m.text = false := by
        intro m hm
        have := apart m hm
        simp only [Layer.holds, Layer.names, Layer.declare, List.any_append, List.any_cons,
          Bool.or_eq_false_iff] at this ⊢
        exact ⟨this.2.1, this.1, this.2.2⟩
      simp only [declaredNames, List.filterMap_cons, hs]
      refine ⟨List.nodup_cons.mpr ⟨fun hmem => ?_, nodup⟩,
        List.forall_mem_cons.mpr ⟨fresh, fun m hm => (apart' m hm).2⟩⟩
      obtain ⟨m, hm, htext⟩ := List.mem_map.mp hmem
      have := (apart' m hm).1
      rw [htext, beq_self_eq_true] at this
      cases this

/-- The names of a function's region differ: its parameters by the function, and those of its body
from them and from each other. -/
theorem function_distinct {params : List Name} {body : List (Stmt Site)}
    (hc : (params.map Name.text).Nodup)
    (h : ∀ x ∈ stmtsNodes ((p.function params body).child 0) body, Scoped x) :
    ((params ++ declaredNames body).map Name.text).Nodup := by
  obtain ⟨nodup, apart⟩ := declaredNames_distinct
    (.opened ⟨p.path, params, declaredNames body⟩) rfl h
  rw [List.map_append, List.nodup_append]
  refine ⟨hc, nodup, ?_⟩
  rintro _ hparam _ hname rfl
  obtain ⟨n, hn, htext⟩ := List.mem_map.mp hname
  obtain ⟨k, hk, htext'⟩ := List.mem_map.mp hparam
  have := apart n hn
  rw [Layer.holds, List.any_eq_false] at this
  exact this k hk (beq_iff_eq.mpr (htext'.trans htext.symm))

theorem block_distinct {body : List (Stmt Site)}
    (h : ∀ x ∈ stmtsNodes ((p.block body).child 0) body, Scoped x) :
    ((declaredNames body).map Name.text).Nodup :=
  (declaredNames_distinct (.opened ⟨p.path, [], declaredNames body⟩) rfl h).1

theorem orderly_expr {e : Expr Site} (hp : p.Orderly known) : Orderly known (p, .expr e) :=
  ⟨hp, fun _ _ h => (nomatch h), fun _ _ h => (nomatch h)⟩

theorem orderly_stmt {s : Stmt Site} (hp : p.Orderly known)
    (hd : ∀ m, declared? s = some m → p.Declares m) : Orderly known (p, .stmt s) :=
  ⟨hp, fun _ name h hs => by cases h; exact hd name hs, fun _ _ h => (nomatch h)⟩

theorem orderly_code {params : List Name} {body : List (Stmt Site)} (hp : p.Orderly known)
    (hd : ((params ++ declaredNames body).map Name.text).Nodup) :
    Orderly known (p, .code params body) :=
  ⟨hp, fun _ _ h => (nomatch h), fun _ _ h => by cases h; exact hd⟩

theorem declares_opened {params locals : List Name} {m : Name} (hm : m ∈ locals) :
    (p.opened params locals).Declares m := by
  intro l hl
  cases hl
  exact List.mem_append_right _ hm

theorem Position.Declares.after {s : Stmt Site} {m : Name} (h : p.Declares m) :
    (p.after s).Declares m := by
  intro l hl
  unfold Position.after at hl
  split at hl
  · simp only [Position.declare, Position.onInner] at hl
    cases hp : p.layers with
    | nil =>
      rw [hp] at hl
      cases hl
    | cons k outer =>
      rw [hp] at hl
      cases hl
      exact h k (by rw [hp]; rfl)
  · exact h l hl

/-- The code of a function is orderly if its body is. -/
theorem codeNodes_orderly {params : List Name} {body : List (Stmt Site)}
    (hb : ∀ {q : Position}, (∀ x ∈ stmtsNodes q body, Tidy known x) → q.Orderly known →
      (∀ m ∈ declaredNames body, q.Declares m) → ∀ x ∈ stmtsNodes q body, Orderly known x)
    (h : ∀ x ∈ codeNodes p params body, Tidy known x) (hp : p.Orderly known) :
    ∀ x ∈ codeNodes p params body, Orderly known x := by
  obtain ⟨hc, h⟩ := List.forall_mem_cons.mp h
  have distinct := function_distinct hc.isScoped fun x hx => (h x hx).isScoped
  exact List.forall_mem_cons.mpr ⟨orderly_code hp distinct,
    hb h (hp.opened (fun n hn => .inr (hc.names n hn)) distinct)
      fun m hm => declares_opened (p := p) hm⟩

mutual

theorem exprNodes_orderly (p : Position) (e : Expr Site) (h : ∀ x ∈ exprNodes p e, Tidy known x)
    (hp : p.Orderly known) : ∀ x ∈ exprNodes p e, Orderly known x := by
  cases e with
  | literal value => exact List.forall_mem_singleton.mpr (orderly_expr hp)
  | «variable» name site => exact List.forall_mem_singleton.mpr (orderly_expr hp)
  | this line site => exact List.forall_mem_singleton.mpr (orderly_expr hp)
  | grouping inner =>
    obtain ⟨-, h⟩ := List.forall_mem_cons.mp h
    exact List.forall_mem_cons.mpr ⟨orderly_expr hp, exprNodes_orderly _ inner h hp⟩
  | assign name site value =>
    obtain ⟨-, h⟩ := List.forall_mem_cons.mp h
    exact List.forall_mem_cons.mpr ⟨orderly_expr hp, exprNodes_orderly _ value h hp⟩
  | unary op line operand =>
    obtain ⟨-, h⟩ := List.forall_mem_cons.mp h
    exact List.forall_mem_cons.mpr ⟨orderly_expr hp, exprNodes_orderly _ operand h hp⟩
  | get object property =>
    obtain ⟨-, h⟩ := List.forall_mem_cons.mp h
    exact List.forall_mem_cons.mpr ⟨orderly_expr hp, exprNodes_orderly _ object h hp⟩
  | binary left op line right =>
    obtain ⟨-, h⟩ := List.forall_mem_cons.mp h
    obtain ⟨h, h'⟩ := List.forall_mem_append.mp h
    exact List.forall_mem_cons.mpr ⟨orderly_expr hp, List.forall_mem_append.mpr
      ⟨exprNodes_orderly _ left h hp, exprNodes_orderly _ right h' hp⟩⟩
  | logical left op line right =>
    obtain ⟨-, h⟩ := List.forall_mem_cons.mp h
    obtain ⟨h, h'⟩ := List.forall_mem_append.mp h
    exact List.forall_mem_cons.mpr ⟨orderly_expr hp, List.forall_mem_append.mpr
      ⟨exprNodes_orderly _ left h hp, exprNodes_orderly _ right h' hp⟩⟩
  | sequence earlier last =>
    obtain ⟨-, h⟩ := List.forall_mem_cons.mp h
    obtain ⟨h, h'⟩ := List.forall_mem_append.mp h
    exact List.forall_mem_cons.mpr ⟨orderly_expr hp, List.forall_mem_append.mpr
      ⟨exprNodes_orderly _ earlier h hp, exprNodes_orderly _ last h' hp⟩⟩
  | set object property value =>
    obtain ⟨-, h⟩ := List.forall_mem_cons.mp h
    obtain ⟨h, h'⟩ := List.forall_mem_append.mp h
    exact List.forall_mem_cons.mpr ⟨orderly_expr hp, List.forall_mem_append.mpr
      ⟨exprNodes_orderly _ object h hp, exprNodes_orderly _ value h' hp⟩⟩
  | ternary condition yes no =>
    obtain ⟨-, h⟩ := List.forall_mem_cons.mp h
    obtain ⟨h, h''⟩ := List.forall_mem_append.mp h
    obtain ⟨h, h'⟩ := List.forall_mem_append.mp h
    exact List.forall_mem_cons.mpr ⟨orderly_expr hp, List.forall_mem_append.mpr
      ⟨List.forall_mem_append.mpr ⟨exprNodes_orderly _ condition h hp,
        exprNodes_orderly _ yes h' hp⟩, exprNodes_orderly _ no h'' hp⟩⟩
  | call callee line arguments =>
    obtain ⟨-, h⟩ := List.forall_mem_cons.mp h
    obtain ⟨h, h'⟩ := List.forall_mem_append.mp h
    exact List.forall_mem_cons.mpr ⟨orderly_expr hp, List.forall_mem_append.mpr
      ⟨exprNodes_orderly _ callee h hp, exprsNodes_orderly _ arguments h' hp⟩⟩
  | function params body =>
    obtain ⟨-, h⟩ := List.forall_mem_cons.mp h
    exact List.forall_mem_cons.mpr ⟨orderly_expr hp, codeNodes_orderly (stmtsNodes_orderly _ body) h hp⟩

theorem exprsNodes_orderly (p : Position) (es : List (Expr Site))
    (h : ∀ x ∈ exprsNodes p es, Tidy known x) (hp : p.Orderly known) :
    ∀ x ∈ exprsNodes p es, Orderly known x := by
  cases es with
  | nil => exact List.forall_mem_nil _
  | cons e es =>
    obtain ⟨h, h'⟩ := List.forall_mem_append.mp h
    exact List.forall_mem_append.mpr ⟨exprNodes_orderly _ e h hp, exprsNodes_orderly _ es h' hp⟩

theorem stmtNodes_orderly (p : Position) (s : Stmt Site) (h : ∀ x ∈ stmtNodes p s, Tidy known x)
    (hp : p.Orderly known) (hd : ∀ m, declared? s = some m → p.Declares m) :
    ∀ x ∈ stmtNodes p s, Orderly known x := by
  have here := orderly_stmt hp hd
  have names : ∀ m, declared? s = some m → known m := fun m hm =>
    (h _ (stmt_mem_stmtNodes p s)).names m (declared_mem_names hm)
  cases s with
  | expression e =>
    obtain ⟨-, h⟩ := List.forall_mem_cons.mp h
    exact List.forall_mem_cons.mpr ⟨here, exprNodes_orderly _ e h hp⟩
  | print e =>
    obtain ⟨-, h⟩ := List.forall_mem_cons.mp h
    exact List.forall_mem_cons.mpr ⟨here, exprNodes_orderly _ e h hp⟩
  | var name initial =>
    cases initial with
    | none => exact List.forall_mem_singleton.mpr here
    | some e =>
      obtain ⟨-, h⟩ := List.forall_mem_cons.mp h
      exact List.forall_mem_cons.mpr ⟨here, exprNodes_orderly _ e h (hp.pend (names _ rfl))⟩
  | block body =>
    obtain ⟨-, h⟩ := List.forall_mem_cons.mp h
    exact List.forall_mem_cons.mpr ⟨here, stmtsNodes_orderly _ body h
      (hp.opened (List.forall_mem_nil _) (block_distinct fun x hx => (h x hx).isScoped))
      fun m hm => declares_opened (p := p) hm⟩
  | step body increment =>
    obtain ⟨first, h⟩ := List.forall_mem_cons.mp h
    obtain ⟨h, h'⟩ := List.forall_mem_append.mp h
    have plain : declared? body = none := first.plain
    have inner : (p.opened [] []).Orderly known := hp.opened (List.forall_mem_nil _) List.nodup_nil
    exact List.forall_mem_cons.mpr ⟨here, List.forall_mem_append.mpr
      ⟨stmtNodes_orderly _ body h inner (fun m hm => by rw [plain] at hm; cases hm),
        exprNodes_orderly _ increment h' inner⟩⟩
  | if_ condition yes no =>
    obtain ⟨plain, plain'⟩ := (h _ (stmt_mem_stmtNodes p _)).plain
    have undeclared : ∀ m, declared? yes = some m → p.Declares m := fun m hm => by
      rw [plain] at hm
      cases hm
    cases no with
    | none =>
      obtain ⟨-, h⟩ := List.forall_mem_cons.mp h
      obtain ⟨h, h'⟩ := List.forall_mem_append.mp h
      exact List.forall_mem_cons.mpr ⟨here, List.forall_mem_append.mpr
        ⟨exprNodes_orderly _ condition h hp, stmtNodes_orderly _ yes h' hp undeclared⟩⟩
    | some no =>
      obtain ⟨-, h⟩ := List.forall_mem_cons.mp h
      obtain ⟨h, h''⟩ := List.forall_mem_append.mp h
      obtain ⟨h, h'⟩ := List.forall_mem_append.mp h
      have plain' : declared? no = none := plain' no rfl
      exact List.forall_mem_cons.mpr ⟨here, List.forall_mem_append.mpr
        ⟨List.forall_mem_append.mpr ⟨exprNodes_orderly _ condition h hp,
          stmtNodes_orderly _ yes h' hp undeclared⟩,
          stmtNodes_orderly _ no h'' hp fun m hm => by rw [plain'] at hm; cases hm⟩⟩
  | while_ condition body =>
    obtain ⟨first, h⟩ := List.forall_mem_cons.mp h
    obtain ⟨h, h'⟩ := List.forall_mem_append.mp h
    have plain : declared? body = none := first.plain
    exact List.forall_mem_cons.mpr ⟨here, List.forall_mem_append.mpr
      ⟨exprNodes_orderly _ condition h hp,
        stmtNodes_orderly _ body h' hp fun m hm => by rw [plain] at hm; cases hm⟩⟩
  | jump jump line => exact List.forall_mem_singleton.mpr here
  | function name params body =>
    obtain ⟨-, h⟩ := List.forall_mem_cons.mp h
    exact List.forall_mem_cons.mpr ⟨here, codeNodes_orderly (stmtsNodes_orderly _ body) h
      (hp.declare (names _ rfl))⟩
  | return_ line value =>
    cases value with
    | none => exact List.forall_mem_singleton.mpr here
    | some e =>
      obtain ⟨-, h⟩ := List.forall_mem_cons.mp h
      exact List.forall_mem_cons.mpr ⟨here, exprNodes_orderly _ e h hp⟩
  | class_ name methods =>
    obtain ⟨-, h⟩ := List.forall_mem_cons.mp h
    exact List.forall_mem_cons.mpr ⟨here, methodsNodes_orderly _ methods h
      ((hp.declare (names _ rfl)).opened (List.forall_mem_singleton.mpr (.inl rfl))
        (List.pairwise_singleton _ _))⟩

theorem stmtsNodes_orderly (p : Position) (ss : List (Stmt Site))
    (h : ∀ x ∈ stmtsNodes p ss, Tidy known x) (hp : p.Orderly known)
    (hd : ∀ m ∈ declaredNames ss, p.Declares m) : ∀ x ∈ stmtsNodes p ss, Orderly known x := by
  cases ss with
  | nil => exact List.forall_mem_nil _
  | cons s ss =>
    obtain ⟨h, h'⟩ := List.forall_mem_append.mp h
    have names : ∀ m, declared? s = some m → known m := fun m hm =>
      (h _ (stmt_mem_stmtNodes _ s)).names m (declared_mem_names hm)
    refine List.forall_mem_append.mpr ⟨stmtNodes_orderly _ s h hp fun m hm => hd m ?_,
      stmtsNodes_orderly _ ss h' (hp.after names) fun m hm => (hd m ?_).after⟩
    · exact List.mem_filterMap.mpr ⟨s, List.mem_cons_self, hm⟩
    · obtain ⟨k, hk, hm⟩ := List.mem_filterMap.mp hm
      exact List.mem_filterMap.mpr ⟨k, List.mem_cons_of_mem _ hk, hm⟩

theorem methodsNodes_orderly (p : Position) (ms : List (Method Site))
    (h : ∀ x ∈ methodsNodes p ms, Tidy known x) (hp : p.Orderly known) :
    ∀ x ∈ methodsNodes p ms, Orderly known x := by
  cases ms with
  | nil => exact List.forall_mem_nil _
  | cons m ms =>
    cases m with
    | mk name params body =>
      have nodes : methodsNodes p (.mk name params body :: ms) =
          codeNodes (p.child 0) params body ++ methodsNodes (p.child 1) ms := rfl
      rw [nodes] at h ⊢
      obtain ⟨h, h'⟩ := List.forall_mem_append.mp h
      exact List.forall_mem_append.mpr
        ⟨codeNodes_orderly (stmtsNodes_orderly _ body) h hp, methodsNodes_orderly _ ms h' hp⟩

end

/-- Every node of a scoped program is in orderly regions. -/
theorem programNodes_orderly (number : Nat) (program : List (Stmt Site))
    (h : ∀ x ∈ programNodes number program, Tidy known x) :
    ∀ x ∈ programNodes number program, Orderly known x :=
  stmtsNodes_orderly (Position.top number) program h (List.forall_mem_nil _)
    fun _ _ _ hl => (nomatch hl)

end Lexical

end Script
