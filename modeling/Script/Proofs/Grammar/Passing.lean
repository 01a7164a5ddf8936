import Script.Grammar.Reader
import Script.Proofs.Grammar.Covering
import Script.Proofs.Lexical.Position
import Script.Proofs.Result

/-! The jumps that a reading passes.
Wherever it starts and however it ends, a reading passes a jump only at a keyword that it takes, each
once and in their order. -/
namespace Script.Grammar

open Lexical

/-- A jump that was read, with the line of its keyword. It is stray outside all loops. -/
structure Passed where
  jump : Jump
  line : Nat
  stray : Bool
deriving Repr, DecidableEq

def Passed.keyword (e : Passed) : Jump × Nat := (e.jump, e.line)

def Passed.report (e : Passed) : Report :=
  ⟨e.line, .atToken e.jump.keyword.spelling, .strayJump e.jump⟩

def jumpOf? (t : Token) : Option (Jump × Nat) :=
  match t.kind with
  | .keyword .break_ => some (.break_, t.line)
  | .keyword .continue_ => some (.continue_, t.line)
  | _ => none

def jumpsOf (tokens : List Token) : List (Jump × Nat) := tokens.filterMap jumpOf?

def isStray (r : Report) : Bool :=
  match r.complaint with
  | .strayJump _ => true
  | _ => false

theorem filter_other {report : Report} (other : isStray report = false) (rs : List Report) :
    (rs ++ [report]).filter isStray = rs.filter isStray := by
  simp only [List.filter_append, List.filter_cons, other, List.filter_nil]
  exact List.append_nil _

def strayReports (es : List Passed) : List Report := (es.filter Passed.stray).map Passed.report

/-- From one reader to another the jumps are passed. -/
structure Passage (es : List Passed) (r s : Reader) : Prop where
  taken : (es.map Passed.keyword ++ jumpsOf s.rest).Sublist (jumpsOf r.rest)
  loops : s.loops = r.loops
  reports : s.reports.filter isStray = r.reports.filter isStray ++ strayReports es

inductive Went {α : Type} (Q : α → List Passed → Prop) (r : Reader) :
    EStateM.Result Stop Reader α → Prop
  | ok {a s es} (passes : Passage es r s) (post : Q a es) : Went Q r (.ok a s)
  | complaint {report s es} (passes : Passage es r s) (other : isStray report = false) :
    Went Q r (.error (.complaint report) s)
  | exhausted {s es} (passes : Passage es r s) : Went Q r (.error .exhausted s)

variable {α β : Type}

/-- A reading passes jumps like that wherever it starts with so many loops around. -/
def Passing (n : Nat) (x : Reading α) (Q : α → List Passed → Prop) : Prop :=
  ∀ r, r.loops = n → Went Q r (x r)

def PassingFrom (n : Nat) (t : Token) (x : Reading α) (Q : α → List Passed → Prop) : Prop :=
  ∀ r, r.loops = n → r.rest.head? = some t → Went Q r (x r)

def Nothing (_ : α) (es : List Passed) : Prop := es = []

namespace Passage

variable {es es' : List Passed} {r s t : Reader}

theorem none (taken : s.rest.Sublist r.rest) (loops : s.loops = r.loops)
    (reports : s.reports = r.reports) : Passage [] r s where
  taken := taken.filterMap _
  loops := loops
  reports := by rw [reports]; exact (List.append_nil _).symm

theorem refl (r : Reader) : Passage [] r r := none (.refl _) rfl rfl

theorem trans (h : Passage es r s) (h' : Passage es' s t) : Passage (es ++ es') r t where
  taken := by
    rw [List.map_append, List.append_assoc]
    exact (h'.taken.append_left _).trans h.taken
  loops := h'.loops.trans h.loops
  reports := by
    rw [h'.reports, h.reports, List.append_assoc, strayReports, strayReports, strayReports,
      List.filter_append, List.map_append]

/-- Another complaint, or a few tokens that are skipped, are of no account. -/
theorem aside (h : Passage es r s) (taken : t.rest.Sublist s.rest) (loops : t.loops = s.loops)
    (reports : t.reports.filter isStray = s.reports.filter isStray) : Passage es r t where
  taken := ((taken.filterMap _).append_left _).trans h.taken
  loops := loops.trans h.loops
  reports := reports.trans h.reports

end Passage

theorem Went.behind {Q : α → List Passed → Prop} {R : α → List Passed → Prop} {r s : Reader}
    {es : List Passed} {x : EStateM.Result Stop Reader α} (h : Passage es r s) (hx : Went Q s x)
    (hr : ∀ a es', Q a es' → R a (es ++ es')) : Went R r x := by
  cases hx with
  | ok passes post => exact .ok (h.trans passes) (hr _ _ post)
  | complaint passes other => exact .complaint (h.trans passes) other
  | exhausted passes => exact .exhausted (h.trans passes)

namespace Passing

variable {n : Nat} {x : Reading α} {Q : α → List Passed → Prop}

theorem weaken {R : α → List Passed → Prop} (h : Passing n x Q) (hr : ∀ a es, Q a es → R a es) :
    Passing n x R :=
  fun r hn => .behind (.refl r) (h r hn) hr

theorem from_ (h : Passing n x Q) (t : Token) : PassingFrom n t x Q := fun r hn _ => h r hn

theorem pure {a : α} (h : Q a []) : Passing n (Pure.pure a) Q := fun r _ => .ok (.refl r) h

theorem bind {f : α → Reading β} {R : β → List Passed → Prop} (h : Passing n x Q)
    (hf : ∀ a es, Q a es → Passing n (f a) fun b es' => R b (es ++ es')) :
    Passing n (x >>= f) R := by
  intro r hn
  have first := h r hn
  simp only [Bind.bind, EStateM.bind]
  generalize x r = rx at first ⊢
  cases first with
  | ok passes post => exact .behind passes (hf _ _ post _ (passes.loops.trans hn)) fun _ _ h => h
  | complaint passes other => exact .complaint passes other
  | exhausted passes => exact .exhausted passes

theorem behind {f : α → Reading β} {R : β → List Passed → Prop} (h : Passing n x Nothing)
    (hf : ∀ a, Passing n (f a) R) : Passing n (x >>= f) R :=
  h.bind fun a es none => (hf a).weaken fun b es' hr => by rwa [none]

theorem map {f : α → β} {R : β → List Passed → Prop} (h : Passing n x Q)
    (hr : ∀ a es, Q a es → R (f a) es) : Passing n (f <$> x) R := by
  intro r hn
  have first := h r hn
  simp only [Functor.map, EStateM.map]
  generalize x r = rx at first ⊢
  cases first with
  | ok passes post => exact .ok passes (hr _ _ post)
  | complaint passes other => exact .complaint passes other
  | exhausted passes => exact .exhausted passes

theorem exhaust : Passing n (Grammar.exhaust : Reading α) Q := fun r _ => .exhausted (.refl r)

theorem stop {missing : Missing} : Passing n (Grammar.stop missing : Reading α) Q := by
  refine fun r _ => .complaint (.refl r) ?_
  cases r with
  | mk rest => cases rest <;> rfl

theorem note {report : Report} (other : isStray report = false) :
    Passing n (Grammar.note report) Nothing := fun r _ =>
  .ok ((Passage.refl r).aside (.refl _) rfl (filter_other other _)) rfl

theorem noteHere {complaint : Complaint} (other : ∀ jump, complaint ≠ .strayJump jump) :
    Passing n (Grammar.noteHere complaint) Nothing := by
  have clean : ∀ r : Reader, isStray (r.report complaint) = false := by
    rintro ⟨rest, _, _, _⟩
    cases rest <;> cases complaint <;> first | rfl | exact absurd rfl (other _)
  exact fun r => note (clean r) r

theorem atEnd : Passing n Grammar.atEnd Nothing := fun r _ => .ok (.refl r) rfl

theorem at_ {kind : Kind} : Passing n (Grammar.at_ kind) Nothing := fun r _ => .ok (.refl r) rfl

theorem nameFollows : Passing n Grammar.nameFollows Nothing := fun r _ => .ok (.refl r) rfl

theorem advance : Passing n Grammar.advance Nothing := fun _ _ =>
  .ok (.none (List.tail_sublist _) rfl rfl) rfl

theorem accept {kind : Kind} : Passing n (Grammar.accept kind) Nothing := by
  intro r _
  simp only [Grammar.accept]
  split
  · exact .ok (.none (List.tail_sublist _) rfl rfl) rfl
  · exact .ok (.refl r) rfl

theorem acceptMeaning {meaning : Kind → Option α} :
    Passing n (Grammar.acceptMeaning meaning) Nothing := by
  intro r _
  simp only [Grammar.acceptMeaning]
  split
  · exact .ok (.refl r) rfl
  · rename_i t rest hr
    split
    · refine .ok (.none ?_ rfl rfl) rfl
      rw [hr]
      exact List.sublist_cons_self t rest
    · exact .ok (.refl r) rfl

theorem expect {symbol : Symbol} {landmark : Landmark} :
    Passing n (Grammar.expect symbol landmark) Nothing := by
  intro r hn
  simp only [Grammar.expect]
  split
  · rename_i t rest hr
    split
    · refine .ok (.none ?_ rfl rfl) rfl
      rw [hr]
      exact List.sublist_cons_self t rest
    · exact stop r hn
  · exact stop r hn

theorem expectName {missing : Missing} : Passing n (Grammar.expectName missing) Nothing := by
  intro r hn
  simp only [Grammar.expectName]
  split
  · rename_i t rest hr
    split
    · refine .ok (.none ?_ rfl rfl) rfl
      rw [hr]
      exact List.sublist_cons_self t rest
    · exact stop r hn
  · exact stop r hn

theorem peek_bind {f : Option Token → Reading α} (none : Passing n (f none) Q)
    (some : ∀ t, PassingFrom n t (f (some t)) Q) : Passing n (peek >>= f) Q := by
  intro r hn
  show Went Q r (f r.rest.head? r)
  cases hr : r.rest.head? with
  | none => exact none r hn
  | some t => exact some t r hn hr

theorem advance_bind {t : Token} {f : Unit → Reading α} (h : Passing n (f ()) Q) :
    PassingFrom n t (Grammar.advance >>= f) Q :=
  from_ (advance.behind fun _ => h) t

theorem withLoops {change : Nat → Nat} (h : Passing (change n) x Q) :
    Passing n (Grammar.withLoops change x) Q := by
  rintro r rfl
  have inside := h { r with loops := change r.loops } rfl
  simp only [Grammar.withLoops]
  generalize x _ = rx at inside ⊢
  cases inside with
  | ok passes post => exact .ok ⟨passes.taken, rfl, passes.reports⟩ post
  | complaint passes other => exact .complaint ⟨passes.taken, rfl, passes.reports⟩ other
  | exhausted passes => exact .exhausted ⟨passes.taken, rfl, passes.reports⟩

theorem insideLoop (h : Passing (n + 1) x Q) : Passing n (Grammar.insideLoop x) Q := withLoops h

theorem outsideLoops (h : Passing 0 x Q) : Passing n (Grammar.outsideLoops x) Q := withLoops h

theorem unlessAt (kind : Kind) {R : Option α → List Passed → Prop} (h : Passing n x Q)
    (none : R none []) (some : ∀ a es, Q a es → R (some a) es) :
    Passing n (Grammar.unlessAt kind x) R := by
  refine at_.behind fun found => ?_
  cases found with
  | true => exact pure none
  | false => exact h.map some

/-- What was passed before a complaint stays passed when the reading goes on behind the trouble. -/
theorem recovering {R : Option α → List Passed → Prop} (h : Passing n x Q)
    (none : ∀ es, R none es) (some : ∀ a es, Q a es → R (some a) es) :
    Passing n (Grammar.recovering x) R := by
  intro r hn
  have inside := h r hn
  simp only [Grammar.recovering]
  generalize x r = rx at inside ⊢
  cases inside with
  | ok passes post => exact .ok passes (some _ _ post)
  | exhausted passes => exact .exhausted passes
  | @complaint report s es passes other =>
    have taken := (resume_suffix s.rest).sublist.trans (List.tail_sublist _)
    exact .ok (passes.aside taken rfl (filter_other other _)) (none es)

/-- The jump is passed where its keyword is taken, and complained of where no loop is around. -/
theorem jumpStatement {t : Token} {jump : Jump} (ht : jumpOf? t = some (jump, t.line)) :
    PassingFrom n t (Grammar.advance >>= fun _ => Grammar.jumpStatement jump t.line)
      fun s es => s = .jump jump t.line ∧ es = [⟨jump, t.line, decide (n = 0)⟩] := by
  rintro r rfl hr
  obtain ⟨rest, hr⟩ := List.head?_eq_some_iff.mp hr
  have ahead : jumpsOf r.rest = (jump, t.line) :: jumpsOf r.rest.tail := by
    rw [hr, jumpsOf, List.filterMap_cons, ht]
    rfl
  have finish : ∀ es s, Passage es r s →
      Went (fun u es' => u = Stmt.jump jump t.line ∧ es' = es) r
        ((Grammar.expect .semicolon (.afterKeyword jump.keyword) >>= fun _ =>
          Pure.pure (Stmt.jump jump t.line : RawStmt)) s) := by
    intro es s passes
    have last : Passing s.loops (Grammar.expect .semicolon (.afterKeyword jump.keyword) >>= fun _ =>
        Pure.pure (Stmt.jump jump t.line : RawStmt)) fun u es => u = .jump jump t.line ∧ es = [] :=
      expect.behind fun _ => pure ⟨rfl, rfl⟩
    exact .behind passes (last s rfl) fun u es' h => ⟨h.1, by rw [h.2, List.append_nil]⟩
  show Went _ r (Grammar.jumpStatement jump t.line { r with rest := r.rest.tail })
  by_cases hl : r.loops = 0
  · have start : Passage [⟨jump, t.line, true⟩] r { r with
        rest := r.rest.tail
        reports := r.reports ++ [⟨t.line, .atToken jump.keyword.spelling, .strayJump jump⟩] } :=
      ⟨by rw [ahead]; exact .refl _, rfl, by rw [List.filter_append]; rfl⟩
    rw [decide_eq_true hl]
    have ended := finish _ _ start
    simpa only [Grammar.jumpStatement, Rules.jumpStatement, Bind.bind, EStateM.bind,
      TokenReader.loopsAround, TokenReader.note, TokenReader.expect, loopsAround, Grammar.note, hl,
      if_true] using ended
  · have start : Passage [⟨jump, t.line, false⟩] r { r with rest := r.rest.tail } :=
      ⟨by rw [ahead]; exact .refl _, rfl, (List.append_nil _).symm⟩
    rw [decide_eq_false hl]
    have ended := finish _ _ start
    simpa only [Grammar.jumpStatement, Rules.jumpStatement, Bind.bind, EStateM.bind,
      TokenReader.loopsAround, TokenReader.expect, loopsAround, hl, if_false] using ended

end Passing

end Script.Grammar
