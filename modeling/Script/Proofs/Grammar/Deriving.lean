import Script.Proofs.Grammar.Malformed
import Script.Proofs.Grammar.Formed
import Script.Proofs.Result

/-! What a reading gives is derived from what it takes.
Whenever a reading ends with a result, whatever was complained of, the tokens it took are that
result by the productions of the grammar; those that a complaint has cost are among them. -/
namespace Script

open Lexical

namespace Grammar

variable {α β : Type} {r s t : Reader} {ts us : List Token} {kind : Kind}

/-- From one reader to another the tokens are taken. -/
def Span (r : Reader) (ts : List Token) (s : Reader) : Prop := r.rest = ts ++ s.rest

theorem Span.refl (r : Reader) : Span r [] r := rfl

theorem Span.trans (h : Span r ts s) (h' : Span s us t) : Span r (ts ++ us) t := by
  rw [Span, List.append_assoc, ← h', h]

theorem Span.one {u : Token} {rest : List Token} (h : r.rest = u :: rest) :
    Span r [u] { r with rest := rest } := h

/-- When a reading that starts at such tokens ends with a result, this holds of it and of the tokens it
took. -/
def YieldsOn (pre : List Token → Prop) (x : Reading α) (P : α → List Token → Prop) : Prop :=
  ∀ r a s, pre r.rest → x r = .ok a s → ∃ ts, Span r ts s ∧ P a ts

abbrev Yields (x : Reading α) (P : α → List Token → Prop) : Prop := YieldsOn Anywhere x P

namespace YieldsOn

variable {pre : List Token → Prop} {x : Reading α} {P : α → List Token → Prop}
  {Q : β → List Token → Prop} {u : Token}

theorem within (h : Yields x P) : YieldsOn pre x P := fun r a s _ => h r a s trivial

theorem weaken {R : α → List Token → Prop} (h : YieldsOn pre x P)
    (hr : ∀ a ts, P a ts → R a ts) : YieldsOn pre x R := by
  intro r a s hp hx
  obtain ⟨ts, span, post⟩ := h r a s hp hx
  exact ⟨ts, span, hr a ts post⟩

theorem exhaust : YieldsOn pre (Grammar.exhaust : Reading α) P := nofun

theorem stop {missing : Missing} : YieldsOn pre (Grammar.stop missing : Reading α) P := nofun

theorem pure {a : α} (h : P a []) : YieldsOn pre (Pure.pure a) P := by
  intro r b s _ hx
  cases hx
  exact ⟨[], .refl r, h⟩

theorem bind {f : α → Reading β} (h : YieldsOn pre x P)
    (hf : ∀ a us, P a us → Yields (f a) fun b ts => Q b (us ++ ts)) : YieldsOn pre (x >>= f) Q := by
  intro r b s hp hx
  obtain ⟨a, t, first, second⟩ := bind_ok hx
  obtain ⟨us, span, post⟩ := h r a t hp first
  obtain ⟨ts, span', post'⟩ := hf a us post t b s trivial second
  exact ⟨us ++ ts, span.trans span', post'⟩

theorem last {f : α → β} (h : YieldsOn pre x P) (hf : ∀ a ts, P a ts → Q (f a) ts) :
    YieldsOn pre (x >>= fun a => Pure.pure (f a)) Q :=
  h.bind fun a us post => pure (by rw [List.append_nil]; exact hf a us post)

theorem map {f : α → β} (h : YieldsOn pre x P) (hf : ∀ a ts, P a ts → Q (f a) ts) :
    YieldsOn pre (f <$> x) Q := h.last hf

theorem behind {f : α → Reading β} (look : ∀ r, ∃ a, x r = .ok a r)
    (hf : ∀ a, YieldsOn pre (f a) Q) : YieldsOn pre (x >>= f) Q := by
  intro r b s hp hx
  obtain ⟨a, t, first, second⟩ := bind_ok hx
  obtain ⟨a', ha⟩ := look r
  cases ha.symm.trans first
  exact hf a r b s hp second

theorem at_before {f : Bool → Reading α} (h : YieldsOn (Before u) (f (u.kind == kind)) P) :
    YieldsOn (Before u) (at_ kind >>= f) P := by
  intro r a s hu hx
  have leads : r.leads kind = (u.kind == kind) := by
    obtain ⟨rest, hr⟩ := List.head?_eq_some_iff.mp hu
    rw [Reader.leads, hr]
  exact h r a s hu (leads ▸ hx)

theorem atEnd_bind {f : Bool → Reading α} (yes : YieldsOn (· = []) (f true) P)
    (no : ∀ u, YieldsOn (Before u) (f false) P) : Yields (atEnd >>= f) P := by
  intro r a s _ hx
  have read : f r.rest.isEmpty r = .ok a s := hx
  cases hr : r.rest with
  | nil => exact yes r a s hr (by rwa [hr] at read)
  | cons u rest => exact no u r a s (congrArg List.head? hr) (by rwa [hr] at read)

theorem at_bind {f : Bool → Reading α} (yes : ∀ u, u.kind = kind → YieldsOn (Before u) (f true) P)
    (no : Yields (f false) P) : Yields (at_ kind >>= f) P := by
  intro r a s _ hx
  cases hr : r.rest with
  | nil =>
    have read : f (r.leads kind) r = .ok a s := hx
    rw [Reader.leads, hr] at read
    exact no r a s trivial read
  | cons u rest =>
    refine at_before (u := u) ?_ r a s (congrArg List.head? hr) hx
    by_cases hk : u.kind = kind
    · rw [beq_iff_eq.mpr hk]
      exact yes u hk
    · rw [beq_eq_false_iff_ne.mpr hk]
      exact no.within

theorem acceptMeaning_ok {meaning : Kind → Option α} {found : Option (α × Nat)}
    (h : acceptMeaning meaning r = .ok found s) :
    (∃ a line kind ts, found = some (a, line) ∧ meaning kind = some a ∧ Took kind line ts ∧
      Span r ts s) ∨ (found = none ∧ s = r) := by
  unfold acceptMeaning at h
  split at h
  · cases h
    exact .inr ⟨rfl, rfl⟩
  · rename_i u rest hr
    split at h
    · rename_i a ha
      cases h
      exact .inl ⟨a, u.line, u.kind, [u], rfl, ha, ⟨u, rfl, rfl, rfl⟩, .one hr⟩
    · cases h
      exact .inr ⟨rfl, rfl⟩

theorem acceptMeaning_bind {meaning : Kind → Option α} {f : Option (α × Nat) → Reading β}
    (known : ∀ a line kind us, meaning kind = some a → Took kind line us →
      Yields (f (some (a, line))) fun b ts => Q b (us ++ ts))
    (unknown : Yields (f none) Q) : Yields (acceptMeaning meaning >>= f) Q := by
  intro r b s _ hx
  obtain ⟨found, t, first, second⟩ := bind_ok hx
  obtain ⟨a, line, kind, us, rfl, hm, took, span⟩ | ⟨rfl, rfl⟩ := acceptMeaning_ok first
  · obtain ⟨ts, span', post⟩ := known a line kind us hm took t b s trivial second
    exact ⟨us ++ ts, span.trans span', post⟩
  · exact unknown t b s trivial second

theorem accept_ok {b : Bool} (h : accept kind r = .ok b s) :
    (b = true ∧ r.leads kind = true ∧ ∃ ts, One kind ts ∧ Span r ts s) ∨
      (b = false ∧ r.leads kind = false ∧ s = r) := by
  unfold accept at h
  split at h
  · rename_i leads
    cases h
    refine .inl ⟨rfl, leads, ?_⟩
    unfold Reader.leads at leads
    split at leads
    · cases leads
    · rename_i u rest hr
      exact ⟨[u], ⟨u.line, u, rfl, beq_iff_eq.mp leads, rfl⟩, by rw [Span, hr]; rfl⟩
  · cases h
    exact .inr ⟨rfl, Bool.eq_false_iff.mpr ‹_›, rfl⟩

theorem accept_bind {f : Bool → Reading β}
    (yes : ∀ us, One kind us → Yields (f true) fun b ts => Q b (us ++ ts))
    (no : Yields (f false) Q) : Yields (accept kind >>= f) Q := by
  intro r b s _ hx
  obtain ⟨found, t, first, second⟩ := bind_ok hx
  obtain ⟨rfl, -, us, took, span⟩ | ⟨rfl, -, rfl⟩ := accept_ok first
  · obtain ⟨ts, span', post⟩ := yes us took t b s trivial second
    exact ⟨us ++ ts, span.trans span', post⟩
  · exact no t b s trivial second

theorem expect_ok {symbol : Symbol} {landmark : Landmark} {line : Nat}
    (h : Grammar.expect symbol landmark r = .ok line s) :
    ∃ ts, Span r ts s ∧ Took (.symbol symbol) line ts := by
  unfold Grammar.expect at h
  split at h
  · rename_i u rest hr
    split at h
    · cases h
      exact ⟨[u], .one hr, u, rfl, ‹_›, rfl⟩
    · cases h
  · cases h

theorem expect {symbol : Symbol} {landmark : Landmark} :
    YieldsOn pre (Grammar.expect symbol landmark) fun line ts => Took (.symbol symbol) line ts :=
  fun _ _ _ _ h => expect_ok h

theorem expectName {missing : Missing} :
    YieldsOn pre (Grammar.expectName missing) fun name ts => TookName name ts := by
  intro r name s _ hx
  unfold Grammar.expectName at hx
  split at hx
  · rename_i u rest hr
    split at hx
    · cases hx
      exact ⟨[u], .one hr, u, rfl, ‹_›, rfl⟩
    · cases hx
  · cases hx

theorem unlessAt {R : Option α → List Token → Prop} (h : Yields x P) (none : R none [])
    (some : ∀ a ts, P a ts → R (some a) ts) : Yields (Grammar.unlessAt kind x) R :=
  at_bind (fun _ _ => pure none) (h.map some)

theorem withLoops {change : Nat → Nat} (h : YieldsOn pre x P) :
    YieldsOn pre (Grammar.withLoops change x) P := by
  intro r a s hp hx
  unfold Grammar.withLoops at hx
  split at hx
  · rename_i b s' hs
    cases hx
    obtain ⟨ts, span, post⟩ := h { r with loops := change r.loops } a s' hp hs
    exact ⟨ts, span, post⟩
  · cases hx

theorem noteIf {c : Prop} [Decidable c] {z : Reading Unit} (hz : Notes z) (h : YieldsOn pre x P) :
    YieldsOn pre (if c then z >>= fun _ => x else x) P := by
  intro r a s hp hx
  split at hx
  · obtain ⟨u, t, noted, second⟩ := bind_ok hx
    obtain ⟨report, hn⟩ := hz r
    cases hn.symm.trans noted
    obtain ⟨ts, span, post⟩ := h { r with reports := r.reports ++ [report] } a s hp second
    exact ⟨ts, span, post⟩
  · exact h r a s hp hx

theorem peek_bind {f : Option Token → Reading α} (none : Yields (f none) P)
    (some : ∀ u, YieldsOn (Before u) (f (some u)) P) : Yields (peek >>= f) P := by
  intro r a s _ hx
  have read : f r.rest.head? r = .ok a s := hx
  cases hr : r.rest.head? with
  | none => exact none r a s trivial (hr ▸ read)
  | some u => exact some u r a s hr (hr ▸ read)

theorem advance_bind {f : Unit → Reading β} (h : Yields (f ()) fun b ts => Q b (u :: ts)) :
    YieldsOn (Before u) (advance >>= f) Q := by
  intro r b s hu hx
  obtain ⟨rest, hr⟩ := List.head?_eq_some_iff.mp hu
  obtain ⟨ts, span, post⟩ := h { r with rest := r.rest.tail } b s trivial hx
  refine ⟨u :: ts, ?_, post⟩
  rw [hr] at span
  rw [Span, hr, List.cons_append, ← span]
  rfl

end YieldsOn

/-- Nothing behind an expression could make it the condition of another one. -/
def Reader.Past (s : Reader) : Prop := s.leads (.symbol .question) = false

/-- What is read behind the keyword of a `for` loop is the loop of the clauses and the body there. -/
def BehindFor (s : RawStmt) (ts : List Token) : Prop :=
  ∃ initial condition increment body, s = Stmt.forLoop initial condition increment body ∧
    ∀ us, One (.keyword .for_) us → Derives (.forLoop initial condition increment body) (us ++ ts)

structure Deriving (fuel : Nat) : Prop where
  expression : Yields (expression fuel) fun e ts => Derives (.expr .sequence e) ts
  sequenceTail : ∀ e us, Derives (.expr .sequence e) us →
    Yields (sequenceTail fuel e) fun e' ts => Derives (.expr .sequence e') (us ++ ts)
  conditional : Yields (conditional fuel) fun e ts => Derives (.expr .conditional e) ts
  conditional_past : ∀ r e s, Grammar.conditional fuel r = .ok e s → Reader.Past s
  assignment : ∀ r e s, Grammar.assignment fuel r = .ok e s → ∃ ts, Span r ts s ∧
    (Derives (.expr (.level .or) e) ts ∨ Derives (.expr .conditional e) ts ∧ Reader.Past s)
  operation : ∀ level,
    Yields (operation fuel level) fun e ts => Derives (.expr (.level level) e) ts
  operationTail : ∀ level e us, Derives (.expr (.level level) e) us →
    Yields (operationTail fuel level e) fun e' ts => Derives (.expr (.level level) e') (us ++ ts)
  operand : ∀ level, Yields (operand fuel level) fun e ts => Derives (.expr level.right e) ts
  unary : Yields (unary fuel) fun e ts => Derives (.expr .unary e) ts
  callTail : ∀ e us, Derives (.expr .call e) us →
    Yields (callTail fuel e) fun e' ts => Derives (.expr .call e') (us ++ ts)
  argumentsFrom : ∀ count,
    Yields (argumentsFrom fuel count) fun es ts => es ≠ [] ∧ Derives (.arguments es) ts
  primary : Yields (primary fuel) fun e ts => Derives (.expr .call e) ts
  blockBody : Yields (blockBody fuel) fun body ts =>
    ∃ us vs, ts = us ++ vs ∧ Derives (.body body) us ∧ One (.symbol .rightBrace) vs
  declaration : ∀ u, YieldsOn (Before u) (declaration fuel)
    fun found ts => ∀ d ∈ found, Derives (.declaration d) ts
  declared : Yields (declared fuel) fun d ts => Derives (.declaration d) ts
  named : ∀ role, Yields (named fuel role) fun code ts =>
    ∃ us vs, ts = us ++ vs ∧ TookName code.1 us ∧ Derives (.code code.2.1 code.2.2) vs
  methodList : Yields (methodList fuel) fun methods ts => Derives (.methods methods) ts
  variableDeclaration : ∀ u : Token, u.kind = .keyword .var_ →
    YieldsOn (Before u) (variableDeclaration fuel) fun d ts =>
      ∃ name e, d = .var name e ∧ Derives (.declaration d) ts
  expressionStatement : Yields (expressionStatement fuel) fun d ts =>
    ∃ e, d = .expression e ∧ Derives (.statement d) ts
  statement : Yields (statement fuel) fun d ts => Derives (.statement d) ts
  forStatement : Yields (forStatement fuel) BehindFor

theorem deriving_zero : Deriving 0 where
  expression := .exhaust
  sequenceTail _ _ _ := .exhaust
  conditional := .exhaust
  conditional_past _ _ _ := nofun
  assignment _ _ _ := nofun
  operation _ := .exhaust
  operationTail _ _ _ _ := .exhaust
  operand _ := .exhaust
  unary := .exhaust
  callTail _ _ _ := .exhaust
  argumentsFrom _ := .exhaust
  primary := .exhaust
  blockBody := .exhaust
  declaration _ := .exhaust
  declared := .exhaust
  named _ := .exhaust
  methodList := .exhaust
  variableDeclaration _ _ := .exhaust
  expressionStatement := .exhaust
  statement := .exhaust
  forStatement := .exhaust

variable {fuel : Nat}

theorem expression_derives (ih : Deriving fuel) :
    Yields (expression (fuel + 1)) fun e ts => Derives (.expr .sequence e) ts :=
  ih.conditional.bind fun _ _ first => ih.sequenceTail _ _ (first.tighter (Nat.zero_le 1))

theorem sequenceTail_derives (ih : Deriving fuel) (earlier : RawExpr) (us : List Token)
    (he : Derives (.expr .sequence earlier) us) :
    Yields (sequenceTail (fuel + 1) earlier)
      fun e ts => Derives (.expr .sequence e) (us ++ ts) := by
  refine .accept_bind (fun vs comma => ih.conditional.bind fun last ws hl => ?_) (.pure ?_)
  · refine (ih.sequenceTail _ _ (he.sequence comma hl)).weaken fun e ts whole => ?_
    simpa only [List.append_assoc] using whole
  · rwa [List.append_nil]

/-- The condition of a conditional expression is no assignment, whose value would have gone on. -/
theorem conditional_ends (ih : Deriving fuel) (r : Reader) (e : RawExpr) (s : Reader)
    (h : conditional (fuel + 1) r = .ok e s) :
    (∃ ts, Span r ts s ∧ Derives (.expr .conditional e) ts) ∧ s.Past := by
  obtain ⟨condition, t, read, behind⟩ := bind_ok h
  obtain ⟨us, span, derived⟩ := ih.assignment _ _ _ read
  obtain ⟨found, t₁, accepted, ending⟩ := bind_ok behind
  obtain ⟨rfl, leads, vs, question, span₁⟩ | ⟨rfl, past, rfl⟩ := YieldsOn.accept_ok accepted
  · obtain ⟨yes, t₂, hyes, ending⟩ := bind_ok ending
    obtain ⟨line, t₃, hcolon, ending⟩ := bind_ok ending
    obtain ⟨no, t₄, hno, ending⟩ := bind_ok ending
    cases ending
    obtain ⟨ws, span₂, yes⟩ := ih.conditional _ _ _ trivial hyes
    obtain ⟨xs, span₃, colon⟩ := YieldsOn.expect_ok hcolon
    obtain ⟨ys, span₄, no⟩ := ih.conditional _ _ _ trivial hno
    obtain derived | ⟨-, past⟩ := derived
    · exact ⟨⟨_, span.trans (span₁.trans (span₂.trans (span₃.trans span₄))),
        derived.ternary question yes ⟨_, colon⟩ no⟩, ih.conditional_past _ _ _ hno⟩
    · exact Bool.noConfusion (leads.symm.trans past)
  · cases ending
    refine ⟨⟨us, span, ?_⟩, past⟩
    exact derived.elim (fun derived => derived.tighter (by decide)) And.left

theorem assignTo_ok {target value e : RawExpr} {line : Nat}
    (h : assignTo target line value r = .ok e s) : e = assigned target value ∧ s.rest = r.rest := by
  cases target <;> cases h <;> exact ⟨rfl, rfl⟩

theorem assignment_derives (ih : Deriving fuel) (r : Reader) (e : RawExpr) (s : Reader)
    (h : assignment (fuel + 1) r = .ok e s) : ∃ ts, Span r ts s ∧
      (Derives (.expr (.level .or) e) ts ∨ Derives (.expr .conditional e) ts ∧ s.Past) := by
  obtain ⟨target, t, read, behind⟩ := bind_ok h
  obtain ⟨us, span, derived⟩ := ih.operation _ _ _ _ trivial read
  obtain ⟨found, t₁, accepted, ending⟩ := bind_ok behind
  obtain ⟨⟨⟩, line, kind, vs, rfl, known, equal, span₁⟩ | ⟨rfl, rfl⟩ :=
    YieldsOn.acceptMeaning_ok accepted
  · obtain ⟨value, t₂, hvalue, ending⟩ := bind_ok ending
    obtain ⟨ws, span₂, value⟩ := ih.conditional _ _ _ trivial hvalue
    obtain ⟨rfl, same⟩ := assignTo_ok ending
    have past : s.Past := by
      have past := ih.conditional_past _ _ _ hvalue
      unfold Reader.Past Reader.leads at past ⊢
      rwa [same]
    have span₃ : Span t₁ ws s := by rwa [Span, same]
    split at known
    · subst kind
      exact ⟨_, span.trans (span₁.trans span₃), .inr ⟨derived.assign ⟨_, equal⟩ value, past⟩⟩
    · cases known
  · cases ending
    exact ⟨us, span, .inl derived⟩

theorem operation_derives (ih : Deriving fuel) (level : Level) :
    Yields (operation (fuel + 1) level) fun e ts => Derives (.expr (.level level) e) ts := by
  have looser : (Grade.level level).rank ≤ level.right.rank := by
    rw [rank_right]
    exact Nat.le_succ _
  exact (ih.operand level).bind fun _ _ left => ih.operationTail _ _ _ (left.tighter looser)

/-- An operator of a level with its operands. -/
theorem derives_join {level : Level} {connective : Connective} {left right : RawExpr} {line : Nat}
    {us vs ws : List Token} (known : level.connective? kind = some connective)
    (hl : Derives (.expr (.level level) left) us) (sign : Took kind line vs)
    (hr : Derives (.expr level.right right) ws) :
    Derives (.expr (.level level) (connective.join left line right)) (us ++ (vs ++ ws)) := by
  have spelled : (∃ op, connective = .logical op ∧ level = op.level ∧ kind = .keyword op.keyword) ∨
      ∃ op, connective = .binary op ∧ level = op.level ∧ kind = .symbol op.symbol := by
    unfold Level.connective? at known
    split at known <;> cases known <;>
      first | exact .inl ⟨_, rfl, rfl, rfl⟩ | exact .inr ⟨_, rfl, rfl, rfl⟩
  obtain ⟨op, rfl, rfl, rfl⟩ | ⟨op, rfl, rfl, rfl⟩ := spelled
  · exact .logical hl sign hr
  · exact .binary hl sign hr

theorem operationTail_derives (ih : Deriving fuel) (level : Level) (left : RawExpr)
    (us : List Token) (hl : Derives (.expr (.level level) left) us) :
    Yields (operationTail (fuel + 1) level left)
      fun e ts => Derives (.expr (.level level) e) (us ++ ts) := by
  refine .acceptMeaning_bind (fun connective line kind vs known sign => ?_) (.pure ?_)
  · refine (ih.operand level).bind fun right ws hr => ?_
    refine (ih.operationTail _ _ _ (derives_join known hl sign hr)).weaken fun e ts whole => ?_
    simpa only [List.append_assoc] using whole
  · rwa [List.append_nil]

theorem operand_derives (ih : Deriving fuel) (level : Level) :
    Yields (operand (fuel + 1) level) fun e ts => Derives (.expr level.right e) ts := by
  cases level with
  | factor => exact ih.unary
  | _ => exact ih.operation _

theorem unary_derives (ih : Deriving fuel) :
    Yields (unary (fuel + 1)) fun e ts => Derives (.expr .unary e) ts := by
  refine .acceptMeaning_bind (fun op line kind us known sign => ih.unary.last fun e ts h => ?_) ?_
  · cases unaryOp_kind known
    exact .unary sign h
  · exact ih.primary.bind fun head us hh =>
      (ih.callTail head us hh).weaken fun e ts whole => whole.tighter (by decide)

theorem callTail_derives (ih : Deriving fuel) (head : RawExpr) (us : List Token)
    (hh : Derives (.expr .call head) us) :
    Yields (callTail (fuel + 1) head) fun e ts => Derives (.expr .call e) (us ++ ts) := by
  have arguments : Yields (unlessAt (.symbol .rightParen) (argumentsFrom fuel 0))
      fun found ts => Derives (.arguments (found.getD [])) ts :=
    (ih.argumentsFrom 0).unlessAt .noArguments fun _ _ h => h.2
  refine .accept_bind (fun vs opens => ?_) (.accept_bind (fun vs dot => ?_) (.pure ?_))
  · refine arguments.bind fun found ws ha => YieldsOn.expect.bind fun line xs closes => ?_
    refine (ih.callTail _ _ (hh.call opens ha closes)).weaken fun e ts whole => ?_
    simpa only [List.append_assoc] using whole
  · refine YieldsOn.expectName.bind fun property ws named => ?_
    refine (ih.callTail _ _ (hh.get dot named)).weaken fun e ts whole => ?_
    simpa only [List.append_assoc] using whole
  · rwa [List.append_nil]

theorem argumentsFrom_derives (ih : Deriving fuel) (count : Nat) :
    Yields (argumentsFrom (fuel + 1) count)
      fun es ts => es ≠ [] ∧ Derives (.arguments es) ts := by
  refine .noteIf (notes_here _) (ih.conditional.bind fun argument us ha =>
    .accept_bind (fun vs comma => ?_) (.pure ?_))
  · refine (ih.argumentsFrom (count + 1)).last fun more ts hm => ⟨nofun, ?_⟩
    obtain ⟨e, es, rfl⟩ := List.exists_cons_of_ne_nil hm.1
    exact .moreArguments ha comma hm.2
  · rw [List.append_nil]
    exact ⟨nofun, .lastArgument ha⟩

theorem parametersFrom_derives (fuel count : Nat) :
    Yields (parametersFrom fuel count) fun ns ts => ns ≠ [] ∧ Derives (.params ns) ts := by
  induction fuel generalizing count with
  | zero => exact .exhaust
  | succ fuel ih =>
    refine .noteIf (notes_here _) (YieldsOn.expectName.bind fun param us hp =>
      .accept_bind (fun vs comma => ?_) (.pure ?_))
    · refine (ih (count + 1)).last fun more ts hm => ⟨nofun, ?_⟩
      obtain ⟨n, ns, rfl⟩ := List.exists_cons_of_ne_nil hm.1
      exact .moreParams hp comma hm.2
    · rw [List.append_nil]
      exact ⟨nofun, .lastParam hp⟩

theorem parameters_derives (fuel : Nat) (role : Role) :
    Yields (parameters fuel role) fun ns ts => ∃ us vs ws, ts = us ++ (vs ++ ws) ∧
      Derives (.params ns) us ∧ One (.symbol .rightParen) vs ∧ One (.symbol .leftBrace) ws := by
  have some : Yields (unlessAt (.symbol .rightParen) (parametersFrom fuel 0))
      fun found ts => Derives (.params (found.getD [])) ts :=
    (parametersFrom_derives fuel 0).unlessAt .noParams fun _ _ h => h.2
  exact some.bind fun found us hp => YieldsOn.expect.bind fun line vs closes =>
    YieldsOn.expect.last fun line' ws opens => ⟨us, vs, ws, rfl, hp, ⟨line, closes⟩, line', opens⟩

/-- From behind that parenthesis on to the end of the body. -/
theorem code_derives (ih : Deriving fuel) (role : Role) {f : List Name → List RawStmt → β}
    {Q : β → List Token → Prop} (hq : ∀ params body ts, (∀ us, One (.symbol .leftParen) us →
      Derives (.code params body) (us ++ ts)) → Q (f params body) ts) :
    Yields (do
      let params ← parameters fuel role
      let body ← outsideLoops (blockBody fuel)
      pure (f params body)) Q := by
  refine (parameters_derives fuel role).bind fun params ts hp =>
    ih.blockBody.withLoops.last fun body us hb => hq _ _ _ fun vs opens => ?_
  obtain ⟨_, _, _, rfl, params, closes, opensBody⟩ := hp
  obtain ⟨_, _, rfl, body, closesBody⟩ := hb
  simpa only [List.append_assoc] using Derives.code opens params closes opensBody body closesBody

theorem primary_derives (ih : Deriving fuel) :
    Yields (primary (fuel + 1)) fun e ts => Derives (.expr .call e) ts := by
  refine .peek_bind .stop fun t => ?_
  dsimp only
  split
  case h_6 hk => exact .advance_bind (.pure (.this ⟨t, rfl, hk, rfl⟩))
  case h_7 hk => exact .advance_bind (.pure (.variable ⟨t, rfl, hk, rfl⟩))
  case h_8 hk =>
    exact .advance_bind (ih.expression.bind fun inner us hi => YieldsOn.expect.last
      fun line vs closes => .grouping ⟨t.line, t, rfl, hk, rfl⟩ hi ⟨line, closes⟩)
  case h_9 hk =>
    exact .advance_bind (YieldsOn.expect.bind fun line us opens => code_derives ih .function
      fun params body ts code => .literalFunction ⟨t.line, t, rfl, hk, rfl⟩ (code us ⟨line, opens⟩))
  case h_10 => exact .stop
  all_goals exact .advance_bind (.pure (.literal (by rw [‹t.kind = _›]; rfl)))

theorem derives_found {found : Option RawStmt} {body : List RawStmt}
    (hf : ∀ d ∈ found, Derives (.declaration d) ts) (hb : Derives (.body body) us) :
    Derives (.body (found.toList ++ body)) (ts ++ us) := by
  cases found with
  | none => exact .lost hb
  | some d => exact .moreBody (hf d rfl) hb

theorem blockBody_derives (ih : Deriving fuel) :
    Yields (blockBody (fuel + 1)) fun body ts =>
      ∃ us vs, ts = us ++ vs ∧ Derives (.body body) us ∧ One (.symbol .rightBrace) vs := by
  let close : Reading (List RawStmt) := expect .rightBrace .afterBlock >>= fun _ => pure []
  have closes {pre : List Token → Prop} : YieldsOn pre close fun body ts =>
      ∃ us vs, ts = us ++ vs ∧ Derives (.body body) us ∧ One (.symbol .rightBrace) vs :=
    YieldsOn.expect.last fun line ts took => ⟨[], ts, rfl, .noBody, line, took⟩
  refine .atEnd_bind (.behind (fun _ => ⟨_, rfl⟩) fun _ => closes) fun u => .at_before ?_
  cases u.kind == .symbol .rightBrace with
  | true => exact closes
  | false =>
    refine (ih.declaration u).bind fun found us hf => ih.blockBody.last fun body ts hb => ?_
    obtain ⟨vs, ws, rfl, body, closed⟩ := hb
    exact ⟨us ++ vs, ws, (List.append_assoc us vs ws).symm, derives_found hf body, closed⟩

theorem declaration_derives (ih : Deriving fuel) (u : Token) :
    YieldsOn (Before u) (declaration (fuel + 1))
      fun found ts => ∀ d ∈ found, Derives (.declaration d) ts := by
  intro r found s hu hx
  cases found with
  | none =>
    -- what a complaint has cost is taken all the same
    have covers := (covering_alone (fuel + 1)).declaration u r hu
    rw [hx] at covers
    cases covers with
    | ok taken split => exact ⟨taken, split, fun d hd => nomatch hd⟩
  | some d =>
    have read : declared fuel r = .ok d s := by
      rw [declaration_succ, recovering] at hx
      split at hx <;> cases hx
      assumption
    obtain ⟨ts, span, derived⟩ := ih.declared r d s trivial read
    exact ⟨ts, span, fun d' hd => Option.some.inj hd ▸ derived⟩

theorem named_derives (ih : Deriving fuel) (role : Role) :
    Yields (named (fuel + 1) role) fun code ts =>
      ∃ us vs, ts = us ++ vs ∧ TookName code.1 us ∧ Derives (.code code.2.1 code.2.2) vs := by
  refine YieldsOn.expectName.bind fun name us hn => YieldsOn.expect.bind fun line vs opens =>
    code_derives ih role fun params body ts code => ?_
  exact ⟨us, vs ++ ts, rfl, hn, code vs ⟨line, opens⟩⟩

theorem methodList_derives (ih : Deriving fuel) :
    Yields (methodList (fuel + 1)) fun methods ts => Derives (.methods methods) ts := by
  refine .atEnd_bind (.behind (fun _ => ⟨_, rfl⟩) fun _ => .pure .noMethods)
    fun u => .at_before ?_
  cases u.kind == .symbol .rightBrace with
  | true => exact .pure .noMethods
  | false =>
    refine (ih.named .method).within.bind fun (name, params, body) us hc =>
      ih.methodList.last fun methods ts more => ?_
    obtain ⟨vs, ws, rfl, named, code⟩ := hc
    rw [List.append_assoc]
    exact .moreMethods named code more

theorem variableDeclaration_derives (ih : Deriving fuel) (u : Token) (hu : u.kind = .keyword .var_) :
    YieldsOn (Before u) (variableDeclaration (fuel + 1)) fun d ts =>
      ∃ name e, d = .var name e ∧ Derives (.declaration d) ts := by
  have var : One (.keyword .var_) [u] := ⟨u.line, u, rfl, hu, rfl⟩
  refine .advance_bind (YieldsOn.expectName.bind fun name us hn => .accept_bind (fun vs equal => ?_)
    (YieldsOn.expect.last fun line ws ends => ⟨name, none, rfl, .var var hn ⟨line, ends⟩⟩))
  refine (ih.expression.map (f := some) (Q := fun found ts => ∃ e, found = some e ∧
    Derives (.expr .sequence e) ts) fun e ts h => ⟨e, rfl, h⟩).bind fun found ws he => ?_
  obtain ⟨e, rfl, he⟩ := he
  exact YieldsOn.expect.last fun line xs ends =>
    ⟨name, some e, rfl, .varInitial var hn equal he ⟨line, ends⟩⟩

theorem declared_derives (ih : Deriving fuel) :
    Yields (declared (fuel + 1)) fun d ts => Derives (.declaration d) ts := by
  refine .accept_bind (fun us class_ => ?_) (.at_bind (fun u hu => ?_) ?_)
  · exact YieldsOn.expectName.bind fun name vs hn => YieldsOn.expect.bind fun line ws opens =>
      ih.methodList.bind fun methods xs hm => YieldsOn.expect.last fun line' ys closes =>
        .class_ class_ hn ⟨line, opens⟩ hm ⟨line', closes⟩
  · refine .behind (fun _ => ⟨_, rfl⟩) fun named => ?_
    cases named with
    | true =>
      refine .advance_bind ((ih.named .function).last fun (name, params, body) ts hc => ?_)
      obtain ⟨us, vs, rfl, named, code⟩ := hc
      exact .function ⟨u.line, u, rfl, hu, rfl⟩ named code
    | false =>
      refine .at_before ?_
      rw [hu]
      exact (ih.statement.weaken fun _ _ => .statement).within
  · refine .behind (fun _ => ⟨_, rfl⟩) fun _ => .at_bind (fun u hu => ?_) ?_
    · exact (ih.variableDeclaration u hu).weaken fun _ _ ⟨_, _, _, derived⟩ => derived
    · exact ih.statement.weaken fun _ _ => .statement

theorem expressionStatement_derives (ih : Deriving fuel) :
    Yields (expressionStatement (fuel + 1)) fun d ts =>
      ∃ e, d = .expression e ∧ Derives (.statement d) ts :=
  ih.expression.bind fun e _ he => YieldsOn.expect.last fun line _ ends =>
    ⟨e, rfl, .expression he ⟨line, ends⟩⟩

theorem clause_derives (ih : Deriving fuel) (kind : Kind) :
    Yields (unlessAt kind (expression fuel)) fun found ts => Derives (.clause found) ts :=
  ih.expression.unlessAt .noClause fun _ _ => .clause

theorem jumpStatement_derives (jump : Jump) {u : Token} (hu : u.kind = .keyword jump.keyword) :
    Yields (jumpStatement jump u.line) fun d ts => Derives (.statement d) (u :: ts) :=
  .behind (fun _ => ⟨_, rfl⟩) fun _ => .noteIf (notes_report _)
    (YieldsOn.expect.last fun line _ ends => .jump ⟨u, rfl, hu, rfl⟩ ⟨line, ends⟩)

theorem statement_derives (ih : Deriving fuel) :
    Yields (statement (fuel + 1)) fun d ts => Derives (.statement d) ts := by
  have other : Yields (expressionStatement fuel) fun d ts => Derives (.statement d) ts :=
    ih.expressionStatement.weaken fun _ _ ⟨_, _, derived⟩ => derived
  refine .peek_bind other fun u => ?_
  dsimp only
  split
  case h_1 hk =>
    exact .advance_bind (ih.expression.bind fun e us he => YieldsOn.expect.last fun line ts ends =>
      .print ⟨u.line, u, rfl, hk, rfl⟩ he ⟨line, ends⟩)
  case h_2 hk =>
    refine .advance_bind (ih.forStatement.weaken fun d ts h => ?_)
    obtain ⟨initial, condition, increment, body, rfl, loop⟩ := h
    exact .for_ (loop [u] ⟨u.line, u, rfl, hk, rfl⟩)
  case h_3 hk =>
    have if_ : One (.keyword .if_) [u] := ⟨u.line, u, rfl, hk, rfl⟩
    refine .advance_bind (YieldsOn.expect.bind fun line us opens => ih.expression.bind
      fun condition vs hc => YieldsOn.expect.bind fun line' ws closes => ih.statement.bind
        fun yes xs hy => .accept_bind (fun ys else_ => ?_) (.pure ?_))
    · refine (ih.statement.map (f := some) (Q := fun found ts => ∃ no, found = some no ∧
        Derives (.statement no) ts) fun no ts h => ⟨no, rfl, h⟩).last fun found ts hn => ?_
      obtain ⟨no, rfl, hn⟩ := hn
      exact .ifElse if_ ⟨line, opens⟩ hc ⟨line', closes⟩ hy else_ hn
    · rw [List.append_nil]
      exact .if_ if_ ⟨line, opens⟩ hc ⟨line', closes⟩ hy
  case h_4 hk =>
    exact .advance_bind ((clause_derives ih _).bind fun value us hv =>
      YieldsOn.expect.last fun line ts ends => .return_ ⟨u, rfl, hk, rfl⟩ hv ⟨line, ends⟩)
  case h_5 hk =>
    exact .advance_bind (YieldsOn.expect.bind fun line us opens => ih.expression.bind
      fun condition vs hc => YieldsOn.expect.bind fun line' ws closes => ih.statement.withLoops.last
        fun body ts hb => .while_ (.whileLoop ⟨u.line, u, rfl, hk, rfl⟩ ⟨line, opens⟩ hc
          ⟨line', closes⟩ hb))
  case h_6 hk => exact .advance_bind (jumpStatement_derives .break_ hk)
  case h_7 hk => exact .advance_bind (jumpStatement_derives .continue_ hk)
  case h_8 hk =>
    refine .advance_bind (ih.blockBody.last fun body ts hb => ?_)
    obtain ⟨us, vs, rfl, body, closes⟩ := hb
    exact .block ⟨u.line, u, rfl, hk, rfl⟩ body closes
  case h_9 => exact other.within

theorem forStatement_derives (ih : Deriving fuel) :
    Yields (forStatement (fuel + 1)) BehindFor := by
  have rest (initial : Option RawStmt) (opened clause : List Token)
      (opens : One (.symbol .leftParen) opened) (hi : Derives (.initial initial) clause) :
      Yields (do
        let condition ← unlessAt (.symbol .semicolon) (expression fuel)
        let _ ← expect .semicolon .afterLoopCondition
        let increment ← unlessAt (.symbol .rightParen) (expression fuel)
        let _ ← expect .rightParen .afterForClauses
        let body ← insideLoop (statement fuel)
        pure (.forLoop initial condition increment body)) fun d ts =>
          BehindFor d (opened ++ (clause ++ ts)) :=
    (clause_derives ih _).bind fun condition vs hc => YieldsOn.expect.bind fun line ws ends =>
      (clause_derives ih _).bind fun increment xs hs => YieldsOn.expect.bind fun line' ys closes =>
        ih.statement.withLoops.last fun body ts hb => ⟨initial, condition, increment, body, rfl,
          fun us for_ => .forLoop for_ opens hi hc ⟨line, ends⟩ hs ⟨line', closes⟩ hb⟩
  refine YieldsOn.expect.bind fun line vs opens => .accept_bind
    (fun ws ends => rest none vs ws ⟨line, opens⟩ (.noInitial ends)) (.at_bind (fun u hu => ?_) ?_)
  · refine ((ih.variableDeclaration u hu).map (f := some) (Q := fun found ts =>
      Derives (.initial found) ts) fun d ts h => ?_).bind fun initial ws hi =>
        rest initial vs ws ⟨line, opens⟩ hi
    obtain ⟨name, e, rfl, derived⟩ := h
    exact .initialVar derived
  · refine (ih.expressionStatement.map (f := some) (Q := fun found ts =>
      Derives (.initial found) ts) fun d ts h => ?_).bind fun initial ws hi =>
        rest initial vs ws ⟨line, opens⟩ hi
    obtain ⟨e, rfl, derived⟩ := h
    exact .initialExpression derived

theorem derivings (fuel : Nat) : Deriving fuel := by
  induction fuel with
  | zero => exact deriving_zero
  | succ fuel ih =>
    exact
      { expression := expression_derives ih
        sequenceTail := sequenceTail_derives ih
        conditional := fun r e s _ h => (conditional_ends ih r e s h).1
        conditional_past := fun r e s h => (conditional_ends ih r e s h).2
        assignment := assignment_derives ih
        operation := operation_derives ih
        operationTail := operationTail_derives ih
        operand := operand_derives ih
        unary := unary_derives ih
        callTail := callTail_derives ih
        argumentsFrom := argumentsFrom_derives ih
        primary := primary_derives ih
        blockBody := blockBody_derives ih
        declaration := declaration_derives ih
        declared := declared_derives ih
        named := named_derives ih
        methodList := methodList_derives ih
        variableDeclaration := variableDeclaration_derives ih
        expressionStatement := expressionStatement_derives ih
        statement := statement_derives ih
        forStatement := forStatement_derives ih }

theorem declarations_derives (fuel : Nat) :
    Yields (declarations fuel) fun program ts => Derives (.body program) ts := by
  induction fuel with
  | zero => exact .exhaust
  | succ fuel ih =>
    refine .atEnd_bind (.pure .noBody) fun u => ?_
    exact ((derivings fuel).declaration u).bind fun found us hf => ih.last fun body ts hb =>
      derives_found hf hb

/-- Every program that is read, with complaints or without, is derived from its tokens by the
productions of the grammar, and all of its nodes are formed as their places ask for. -/
theorem readProgram_formed (tokens : List Token) (endLine : Nat) :
    let program := (readProgram tokens endLine).statements
    Derives (.body program) tokens ∧ (∀ s ∈ program, s.isStep = false) ∧
      ∀ x ∈ programNodes 0 program, x.2.Formed tokens := by
  obtain ⟨program, s, read, -⟩ := declarations_ends (fuelFor tokens) ⟨tokens, endLine, [], 0⟩
    (by simp only [fuelFor]; omega)
  obtain ⟨ts, span, derived⟩ := declarations_derives _ _ _ _ trivial read
  have whole : ts = tokens := by
    rw [Span, declarations_rest read, List.append_nil] at span
    exact span.symm
  subst whole
  have formed := derived.formed (List.infix_refl ts)
  simp only [readProgram, read]
  exact ⟨derived, formed.1, formed.2 _⟩

end Grammar

end Script
