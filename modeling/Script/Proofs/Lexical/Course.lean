import Script.Proofs.Lexical.Binding

/-! The course of binding.
What binding does to the scopes, and what it complains of about the progress of their names, depends
on little of a program: on the reads, the declarations and the constructs that open scopes, in the
order in which they are bound. -/
namespace Script

open Lexical Binding

namespace Scope

def progress? (scope : Scope) (key : String) : Option Progress :=
  (scope.find? key).map Local.progress

def ofParams (params : List Name) : Scope :=
  params.foldl (fun scope n => (scope.declare n).advance n.text .defined) []

/-- What a parameter leaves as it is holds of the scope where the body begins. -/
theorem ofParams_keeps {P : Scope → Prop} {params : List Name} (start : P [])
    (step : ∀ n ∈ params, ∀ scope : Scope, P scope →
      P ((scope.declare n).advance n.text .defined)) : P (ofParams params) := by
  unfold ofParams
  generalize ([] : Scope) = scope at start
  induction params generalizing scope with
  | nil => exact start
  | cons n params ih =>
    exact ih (fun m hm => step m (List.mem_cons_of_mem n hm)) _
      (step n List.mem_cons_self scope start)

end Scope

namespace Lexical

variable {α β γ : Type}

/-- What a scope is opened for: names of a list and of a function, or the instance in a class. -/
inductive Opening where
  | names (region : Region)
  | receiver (path : List Nat) (className : Name)

namespace Opening

def region : Opening → Region
  | names r => r
  | receiver path _ => ⟨path, [thisName], []⟩

def first : Opening → Scope
  | names r => .ofParams r.params
  | receiver _ className => .ofClass className

def Usual : Opening → Prop
  | names r => ∀ n ∈ r.params, n.text ≠ thisName.text
  | receiver _ _ => True

end Opening

/-- What is done to the scopes, each step with those behind it. -/
inductive Course where
  | done
  | read (name : Name) (rest : Course)
  | declare (name : Name) (rest : Course)
  | initial (name : Name) (inside rest : Course)
  | scope (opening : Opening) (inside rest : Course)

def ownInitializer (n : Name) : Report := ⟨n.line, .atToken n.text, .ownInitializer⟩

/-- Marks a name as read in the innermost scope that holds it. -/
def mark (key : String) : List Scope → List Scope
  | [] => []
  | scope :: outer =>
    if scope.holds key then scope.advance key .read :: outer else scope :: mark key outer

namespace Course

protected def append : Course → Course → Course
  | done, d => d
  | read n rest, d => .read n (rest.append d)
  | declare n rest, d => .declare n (rest.append d)
  | initial n inside rest, d => .initial n inside (rest.append d)
  | scope o inside rest, d => .scope o inside (rest.append d)

instance : Append Course := ⟨Course.append⟩

/-- The scopes behind a course. -/
def after : Course → List Scope → List Scope
  | done, scopes => scopes
  | read n rest, scopes => rest.after (mark n.text scopes)
  | declare n rest, scopes =>
    rest.after (scopes.modifyHead fun s => (s.declare n).advance n.text .defined)
  | initial n inside rest, scopes =>
    rest.after ((inside.after (scopes.modifyHead fun s => s.declare n)).modifyHead
      fun s => s.advance n.text .defined)
  | scope o inside rest, scopes => rest.after (inside.after (o.first :: scopes)).tail

/-- The complaint about a read of a name that is declared and not yet defined where it stands. -/
def atRead (n : Name) (scopes : List Scope) : List Report :=
  if (scopes.headD []).progress? n.text = some .declared then [ownInitializer n] else []

def complaints : Course → List Scope → List Report
  | done, _ => []
  | read n rest, scopes => atRead n scopes ++ rest.complaints (mark n.text scopes)
  | declare n rest, scopes =>
    rest.complaints (scopes.modifyHead fun s => (s.declare n).advance n.text .defined)
  | initial n inside rest, scopes =>
    let declared := scopes.modifyHead fun s => s.declare n
    inside.complaints declared ++
      rest.complaints ((inside.after declared).modifyHead fun s => s.advance n.text .defined)
  | scope o inside rest, scopes =>
    let behind := inside.after (o.first :: scopes)
    inside.complaints (o.first :: scopes) ++ (behind.headD []).unused ++
      rest.complaints behind.tail

def Usual : Course → Prop
  | done => True
  | read _ rest => rest.Usual
  | declare n rest => n.text ≠ thisName.text ∧ rest.Usual
  | initial n inside rest => n.text ≠ thisName.text ∧ inside.Usual ∧ rest.Usual
  | scope o inside rest => o.Usual ∧ inside.Usual ∧ rest.Usual

variable (c d : Course) (scopes : List Scope)

theorem after_append : (c ++ d).after scopes = d.after (c.after scopes) := by
  show (c.append d).after scopes = _
  induction c generalizing scopes with
  | done => rfl
  | read n rest ih => exact ih _
  | declare n rest ih => exact ih _
  | initial n inside rest _ ih => exact ih _
  | scope o inside rest _ ih => exact ih _

theorem complaints_append :
    (c ++ d).complaints scopes = c.complaints scopes ++ d.complaints (c.after scopes) := by
  show (c.append d).complaints scopes = _
  induction c generalizing scopes with
  | done => rfl
  | read n rest ih => simp only [Course.append, complaints, after, ih, List.append_assoc]
  | declare n rest ih => exact ih _
  | initial n inside rest _ ih =>
    simp only [Course.append, complaints, after, ih, List.append_assoc]
  | scope o inside rest _ ih => simp only [Course.append, complaints, after, ih, List.append_assoc]

theorem usual_append : (c ++ d).Usual ↔ c.Usual ∧ d.Usual := by
  show (c.append d).Usual ↔ _
  induction c with
  | done => exact ⟨fun h => ⟨trivial, h⟩, And.right⟩
  | read n rest ih => exact ih
  | declare n rest ih => simp only [Course.append, Usual, ih, and_assoc]
  | initial n inside rest _ ih => simp only [Course.append, Usual, ih, and_assoc]
  | scope o inside rest _ ih => simp only [Course.append, Usual, ih, and_assoc]

end Course

mutual

def exprCourse (path : List Nat) : Expr β → Course
  | .literal _ => .done
  | .grouping inner => exprCourse (0 :: path) inner
  | .variable name _ => .read name .done
  | .assign _ _ value => exprCourse (0 :: path) value
  | .this _ _ => .done
  | .unary _ _ operand => exprCourse (0 :: path) operand
  | .binary left _ _ right => exprCourse (0 :: path) left ++ exprCourse (1 :: path) right
  | .logical left _ _ right => exprCourse (0 :: path) left ++ exprCourse (1 :: path) right
  | .ternary condition yes no =>
    exprCourse (0 :: path) condition ++ (exprCourse (1 :: path) yes ++ exprCourse (2 :: path) no)
  | .sequence earlier last => exprCourse (0 :: path) earlier ++ exprCourse (1 :: path) last
  | .call callee _ arguments => exprCourse (0 :: path) callee ++ exprsCourse (1 :: path) arguments
  | .get object _ => exprCourse (0 :: path) object
  | .set object _ value => exprCourse (1 :: path) value ++ exprCourse (0 :: path) object
  | .function params body =>
    .scope (.names ⟨0 :: path, params, declaredNames body⟩)
      (stmtsCourse (0 :: 0 :: path) body) .done

def exprsCourse (path : List Nat) : List (Expr β) → Course
  | [] => .done
  | e :: es => exprCourse (0 :: path) e ++ exprsCourse (1 :: path) es

def stmtCourse (path : List Nat) : Stmt β → Course
  | .expression e => exprCourse (0 :: path) e
  | .print e => exprCourse (0 :: path) e
  | .var name none => .declare name .done
  | .var name (some e) => .initial name (exprCourse (0 :: path) e) .done
  | .block body =>
    .scope (.names ⟨path, [], declaredNames body⟩) (stmtsCourse (0 :: path) body) .done
  | .step body increment =>
    .scope (.names ⟨path, [], []⟩)
      (stmtCourse (0 :: path) body ++ exprCourse (1 :: path) increment) .done
  | .if_ condition yes none => exprCourse (0 :: path) condition ++ stmtCourse (1 :: path) yes
  | .if_ condition yes (some no) =>
    exprCourse (0 :: path) condition ++ (stmtCourse (1 :: path) yes ++ stmtCourse (2 :: path) no)
  | .while_ condition body => exprCourse (0 :: path) condition ++ stmtCourse (1 :: path) body
  | .jump _ _ => .done
  | .function name params body =>
    .declare name (.scope (.names ⟨0 :: path, params, declaredNames body⟩)
      (stmtsCourse (0 :: 0 :: path) body) .done)
  | .return_ _ none => .done
  | .return_ _ (some e) => exprCourse (0 :: path) e
  | .class_ name methods =>
    .declare name (.scope (.receiver path name) (methodsCourse (0 :: path) methods) .done)

def stmtsCourse (path : List Nat) : List (Stmt β) → Course
  | [] => .done
  | s :: ss => stmtCourse (0 :: path) s ++ stmtsCourse (1 :: path) ss

def methodsCourse (path : List Nat) : List (Method β) → Course
  | [] => .done
  | .mk _ params body :: methods =>
    .scope (.names ⟨0 :: path, params, declaredNames body⟩) (stmtsCourse (0 :: 0 :: path) body)
      (methodsCourse (1 :: path) methods)

end

/-! Entries of the instance count as read, and stay so. -/

def Tame (scopes : List Scope) : Prop :=
  ∀ s ∈ scopes, ∀ l ∈ s, l.key = thisName.text → l.progress = .read

namespace Tame

variable {scopes outer : List Scope} {scope : Scope}

theorem cons (h : ∀ l ∈ scope, l.key = thisName.text → l.progress = .read) (ho : Tame outer) :
    Tame (scope :: outer) := List.forall_mem_cons.mpr ⟨h, ho⟩

theorem tail (h : Tame scopes) : Tame scopes.tail := fun s hs => h s (List.mem_of_mem_tail hs)

theorem modifyHead {change : Scope → Scope} (h : Tame scopes)
    (hc : ∀ s : Scope, (∀ l ∈ s, l.key = thisName.text → l.progress = .read) →
      ∀ l ∈ change s, l.key = thisName.text → l.progress = .read) :
    Tame (scopes.modifyHead change) := by
  cases scopes with
  | nil => exact h
  | cons s outer =>
    obtain ⟨hs, ho⟩ := List.forall_mem_cons.mp h
    exact cons (hc s hs) ho

theorem declare {n : Name} (hn : n.text ≠ thisName.text)
    (h : ∀ l ∈ scope, l.key = thisName.text → l.progress = .read) :
    ∀ l ∈ scope.declare n, l.key = thisName.text → l.progress = .read := by
  induction scope with
  | nil =>
    intro l hl
    cases List.mem_singleton.mp hl
    exact fun hk => absurd hk hn
  | cons k scope ih =>
    obtain ⟨hk, hs⟩ := List.forall_mem_cons.mp h
    simp only [Scope.declare]
    split
    · exact List.forall_mem_cons.mpr ⟨fun hk => absurd hk hn, hs⟩
    · exact List.forall_mem_cons.mpr ⟨hk, ih hs⟩

theorem advance {key : String} {progress : Progress}
    (hk : key ≠ thisName.text ∨ progress = .read)
    (h : ∀ l ∈ scope, l.key = thisName.text → l.progress = .read) :
    ∀ l ∈ scope.advance key progress, l.key = thisName.text → l.progress = .read := by
  induction scope with
  | nil => exact h
  | cons k scope ih =>
    obtain ⟨hl, hs⟩ := List.forall_mem_cons.mp h
    simp only [Scope.advance]
    split
    · rename_i same
      exact List.forall_mem_cons.mpr ⟨fun this => hk.resolve_left fun hne => hne (same ▸ this), hs⟩
    · exact List.forall_mem_cons.mpr ⟨hl, ih hs⟩

theorem mark (key : String) (h : Tame scopes) : Tame (mark key scopes) := by
  induction scopes with
  | nil => exact h
  | cons s outer ih =>
    obtain ⟨hs, ho⟩ := List.forall_mem_cons.mp h
    simp only [Lexical.mark]
    split
    · exact cons (advance (.inr rfl) hs) ho
    · exact cons hs (ih ho)

theorem ofParams {params : List Name} (h : ∀ n ∈ params, n.text ≠ thisName.text) :
    ∀ l ∈ Scope.ofParams params, l.key = thisName.text → l.progress = .read :=
  Scope.ofParams_keeps (P := fun s => ∀ l ∈ s, l.key = thisName.text → l.progress = .read)
    (List.forall_mem_nil _) fun n hn _ hs => advance (.inl (h n hn)) (declare (h n hn) hs)

theorem first {o : Opening} (h : o.Usual) :
    ∀ l ∈ o.first, l.key = thisName.text → l.progress = .read := by
  cases o with
  | names r => exact ofParams h
  | receiver path className => exact List.forall_mem_singleton.mpr fun _ => rfl

theorem after {c : Course} (h : Tame scopes) (hc : c.Usual) : Tame (c.after scopes) := by
  induction c generalizing scopes with
  | done => exact h
  | read n rest ih => exact ih (h.mark _) hc
  | declare n rest ih =>
    exact ih (h.modifyHead fun s hs => advance (.inl hc.1) (declare hc.1 hs)) hc.2
  | initial n inside rest ihInside ih =>
    obtain ⟨hn, hi, hr⟩ := hc
    have inside := ihInside (h.modifyHead fun s hs => declare hn hs) hi
    exact ih (inside.modifyHead fun s hs => advance (.inl hn) hs) hr
  | scope o inside rest ihInside ih =>
    obtain ⟨ho, hi, hr⟩ := hc
    exact ih (ihInside (cons (first ho) h) hi).tail hr

/-- The entry of the instance is not changed by a use. -/
theorem mark_this (h : Tame scopes) : Lexical.mark thisName.text scopes = scopes := by
  have same (s : Scope) (hs : ∀ l ∈ s, l.key = thisName.text → l.progress = .read) :
      s.advance thisName.text .read = s := by
    induction s with
    | nil => rfl
    | cons l s ih =>
      obtain ⟨hl, hs⟩ := List.forall_mem_cons.mp hs
      simp only [Scope.advance]
      split
      · rename_i this
        rw [← hl this]
      · rw [ih hs]
  induction scopes with
  | nil => rfl
  | cons s outer ih =>
    obtain ⟨hs, ho⟩ := List.forall_mem_cons.mp h
    simp only [Lexical.mark]
    split
    · rw [same s hs]
    · rw [ih ho]

end Tame

def isProgress (r : Report) : Bool :=
  r.complaint = .ownInitializer ∨ r.complaint = .unused

theorem filter_progress {kind : Report → Bool} (h : ∀ r, kind r = true → isProgress r = true)
    (reports : List Report) : (reports.filter isProgress).filter kind = reports.filter kind := by
  rw [List.filter_filter]
  refine List.filter_congr fun r _ => ?_
  cases hr : kind r with
  | false => rfl
  | true => rw [h r hr, Bool.and_true]

/-- From one context to another a course was run. -/
structure Ran (c : Course) (s t : Context) : Prop where
  scopes : t.scopes = c.after s.scopes
  reports : t.reports.filter isProgress = s.reports.filter isProgress ++ c.complaints s.scopes

namespace Ran

variable {c d : Course} {s t u : Context}

theorem other (scopes : t.scopes = s.scopes) {more : List Report}
    (reports : t.reports = s.reports ++ more) (others : ∀ r ∈ more, isProgress r = false) :
    Ran .done s t := by
  refine ⟨scopes, ?_⟩
  have none : more.filter isProgress = [] :=
    List.filter_eq_nil_iff.mpr fun r hr => Bool.eq_false_iff.mp (others r hr)
  rw [reports, List.filter_append, none]
  rfl

theorem same (scopes : t.scopes = s.scopes) (reports : t.reports = s.reports) : Ran .done s t :=
  other scopes (reports.trans (List.append_nil _).symm) (List.forall_mem_nil _)

theorem trans (h : Ran c s t) (h' : Ran d t u) : Ran (c ++ d) s u := by
  refine ⟨?_, ?_⟩
  · rw [h'.scopes, h.scopes, Course.after_append]
  · rw [h'.reports, h.reports, h.scopes, Course.complaints_append, List.append_assoc]

end Ran

/-- A binder runs a course wherever entries of the instance count as read. -/
def Runs (x : Binder α) (c : Course) : Prop :=
  c.Usual → ∀ s, Tame s.scopes → Ran c s (x.run s).run.2

namespace Runs

variable {x : Binder α} {c d : Course}

theorem pure (a : α) : Runs (Pure.pure a) .done := fun _ _ _ => .same rfl rfl

theorem bind {f : α → Binder β} (h : Runs x c) (hf : ∀ a, Runs (f a) d) :
    Runs (x >>= f) (c ++ d) := by
  intro hu s hs
  obtain ⟨hc, hd⟩ := (Course.usual_append c d).mp hu
  have first := h hc s hs
  refine first.trans (hf _ hd _ ?_)
  rw [first.scopes]
  exact hs.after hc

theorem before {f : α → Binder β} (h : Runs x c) (hf : ∀ a, Runs (f a) .done) :
    Runs (x >>= f) c := by
  intro hu s hs
  have first := h hu s hs
  have last := hf (x.run s).run.1 trivial (x.run s).run.2 (first.scopes ▸ hs.after hu)
  have reports := last.reports
  rw [Course.complaints, List.append_nil] at reports
  exact ⟨last.scopes.trans first.scopes, reports.trans first.reports⟩

theorem behind {f : α → Binder β} (h : Runs x .done) (hf : ∀ a, Runs (f a) c) :
    Runs (x >>= f) c := h.bind hf

theorem change {f : Context → Context} (h : ∀ s, Ran c s (f s)) : Runs (modify f) c :=
  fun _ s _ => h s

theorem get_bind {f : Context → Binder β} (h : ∀ s, Runs (f s) c) : Runs (get >>= f) c :=
  fun hu s hs => h s hu s hs

theorem complain (name : Name) {k : Complaint} (own : k ≠ .ownInitializer) (unused : k ≠ .unused) :
    Runs (Binding.complain name k) .done := by
  refine change fun s => .other rfl rfl fun r hr => ?_
  cases List.mem_singleton.mp hr
  simp [isProgress, own, unused]

theorem complainIf {p : Prop} [Decidable p] {name : Name} {k : Complaint} {f : Unit → Binder β}
    (own : k ≠ .ownInitializer) (unused : k ≠ .unused) (h : ∀ u, Runs (f u) c) :
    Runs (if p then Binding.complain name k >>= f else Pure.pure PUnit.unit >>= f) c := by
  split
  · exact (complain name own unused).behind h
  · exact (pure PUnit.unit).behind h

/-- A declaration without the definition, which is not a course of its own. -/
theorem declare_scopes (name : Name) (s : Context) :
    let t := ((Binding.declare name).run s).run.2
    t.scopes = s.scopes.modifyHead (fun scope => scope.declare name) ∧
      t.reports.filter isProgress = s.reports.filter isProgress := by
  cases hs : s.scopes with
  | nil =>
    simp only [Binding.declare, StateT.run_bind, StateT.run_get, pure_bind, hs]
    exact ⟨hs, rfl⟩
  | cons scope outer =>
    rw [declare_run hs]
    refine ⟨rfl, ?_⟩
    simp only [List.filter_append]
    split
    · exact List.append_nil _
    · exact List.append_nil _

theorem define_scopes (name : Name) (s : Context) :
    let t := ((Binding.define name).run s).run.2
    t.scopes = s.scopes.modifyHead (fun scope => scope.advance name.text .defined) ∧
      t.reports = s.reports := by
  cases hs : s.scopes with
  | nil =>
    cases s
    cases hs
    exact ⟨rfl, rfl⟩
  | cons scope outer =>
    rw [define_run hs]
    exact ⟨rfl, rfl⟩

theorem declareAndDefine (name : Name) :
    Runs (Binding.declareAndDefine name) (.declare name .done) := by
  intro _ s _
  obtain ⟨declared, reports⟩ := declare_scopes name s
  obtain ⟨defined, same⟩ := define_scopes name ((Binding.declare name).run s).run.2
  refine ⟨?_, ?_⟩
  · show ((Binding.define name).run ((Binding.declare name).run s).run.2).run.2.scopes = _
    rw [defined, declared, List.modifyHead_modifyHead]
    rfl
  · show ((Binding.define name).run
      ((Binding.declare name).run s).run.2).run.2.reports.filter isProgress = _
    rw [same, reports]
    exact (List.append_nil _).symm

theorem initial {name : Name} {f : α → Binder β} (h : Runs x c) (hf : ∀ a, Runs (f a) .done) :
    Runs (Binding.declare name >>= fun _ => x >>= fun a => Binding.define name >>= fun _ => f a)
      (.initial name c .done) := by
  rintro ⟨hn, hc, -⟩ s hs
  obtain ⟨declared, reports⟩ := declare_scopes name s
  have tame : Tame ((Binding.declare name).run s).run.2.scopes := by
    rw [declared]
    exact hs.modifyHead fun scope hs => Tame.declare hn hs
  have inside := h hc _ tame
  obtain ⟨defined, same⟩ := define_scopes name (x.run ((Binding.declare name).run s).run.2).run.2
  have tame' : Tame ((Binding.define name).run
      (x.run ((Binding.declare name).run s).run.2).run.2).run.2.scopes := by
    rw [defined, inside.scopes]
    exact (tame.after hc).modifyHead fun scope hs => Tame.advance (.inl hn) hs
  have last := hf (x.run ((Binding.declare name).run s).run.2).run.1 trivial _ tame'
  refine ⟨last.scopes.trans ?_, last.reports.trans ?_⟩
  · rw [Course.after, defined, inside.scopes, declared]
    rfl
  · rw [same, inside.reports, reports, declared]
    simp only [Course.complaints, List.append_nil]

theorem declareParams_scopes (params : List Name) (s : Context) (scope : Scope)
    {outer : List Scope} (hs : s.scopes = scope :: outer) :
    let t := ((params.forM Binding.declareAndDefine).run s).run.2
    t.scopes = params.foldl (fun scope n => (scope.declare n).advance n.text .defined) scope ::
        outer ∧
      t.reports.filter isProgress = s.reports.filter isProgress := by
  induction params generalizing s scope with
  | nil => exact ⟨hs, rfl⟩
  | cons n params ih =>
    obtain ⟨declared, reports⟩ := declare_scopes n s
    obtain ⟨defined, same⟩ := define_scopes n ((Binding.declare n).run s).run.2
    rw [declared, hs] at defined
    obtain ⟨scopes, reports'⟩ := ih ((Binding.define n).run
      ((Binding.declare n).run s).run.2).run.2 _ defined
    exact ⟨scopes, reports'.trans (by rw [same, reports])⟩

theorem mark_of_distance {key : String} {scopes : List Scope} {distance : Nat}
    (h : Scope.distance? scopes key = some distance) :
    scopes.modify distance (fun scope => scope.advance key .read) = mark key scopes := by
  induction scopes generalizing distance with
  | nil => cases h
  | cons scope outer ih =>
    rw [Scope.distance?, List.findIdx?_cons] at h
    simp only [mark]
    split
    · rename_i held
      rw [if_pos held] at h
      cases h
      rfl
    · rename_i other
      rw [if_neg other] at h
      obtain ⟨d, hd, rfl⟩ := Option.map_eq_some_iff.mp h
      rw [List.modify_succ_cons, ih hd]

theorem mark_of_none {key : String} {scopes : List Scope}
    (h : Scope.distance? scopes key = none) : mark key scopes = scopes := by
  induction scopes with
  | nil => rfl
  | cons scope outer ih =>
    obtain ⟨other, ho⟩ := List.forall_mem_cons.mp (List.findIdx?_eq_none_iff.mp h)
    simp only [mark, other, ih (List.findIdx?_eq_none_iff.mpr ho)]
    rfl

theorem occur_scopes (use : Use) (name : Name) (s : Context) :
    let t := ((Binding.occur use name).run s).run.2
    t.scopes = (if use = .assign then s.scopes else mark name.text s.scopes) ∧
      t.reports = s.reports := by
  simp only [Binding.occur, StateT.run_bind, StateT.run_get, pure_bind]
  cases hd : Scope.distance? s.scopes name.text with
  | none =>
    refine ⟨?_, rfl⟩
    rw [mark_of_none hd, ite_self]
    rfl
  | some distance =>
    refine ⟨?_, rfl⟩
    rw [← mark_of_distance hd]
    rfl

theorem assign (name : Name) : Runs (Binding.occur .assign name) .done := fun _ s _ =>
  .same (occur_scopes .assign name s).1 (occur_scopes .assign name s).2

theorem this (line : Nat) :
    Runs (Binding.occur .this ⟨Keyword.this_.spelling, line⟩) .done := by
  intro _ s hs
  obtain ⟨scopes, reports⟩ := occur_scopes .this ⟨Keyword.this_.spelling, line⟩ s
  exact .same (scopes.trans hs.mark_this) reports

theorem checkInitialized_reports (name : Name) (s : Context) :
    let t := ((Binding.checkInitialized name).run s).run.2
    t.scopes = s.scopes ∧ t.reports = s.reports ++ Course.atRead name s.scopes := by
  simp only [Binding.checkInitialized, StateT.run_bind, StateT.run_get, pure_bind, Course.atRead]
  cases hs : s.scopes with
  | nil => exact ⟨hs, (List.append_nil _).symm⟩
  | cons scope outer =>
    simp only [List.headD_cons, Scope.progress?]
    split
    · rename_i l found
      simp only [found, Option.map_some, Option.some.injEq]
      split
      · exact ⟨hs, rfl⟩
      · exact ⟨hs, (List.append_nil _).symm⟩
    · rename_i missing
      simp only [missing, Option.map_none, reduceCtorEq, if_false]
      exact ⟨hs, (List.append_nil _).symm⟩

/-- A read is checked before it is marked. -/
theorem read (name : Name) :
    Runs (Binding.checkInitialized name >>= fun _ => Binding.occur .variable name)
      (.read name .done) := by
  intro _ s _
  obtain ⟨same, checked⟩ := checkInitialized_reports name s
  obtain ⟨scopes, reports⟩ :=
    occur_scopes .variable name ((Binding.checkInitialized name).run s).run.2
  have progress :
      (Course.atRead name s.scopes).filter isProgress = Course.atRead name s.scopes := by
    unfold Course.atRead
    split <;> rfl
  refine ⟨scopes.trans ?_, (congrArg (List.filter isProgress) reports).trans ?_⟩
  · rw [same]
    rfl
  · rw [checked, List.filter_append, progress, Course.complaints, Course.complaints,
      List.append_nil]

theorem isProgress_unused (scope : Scope) : scope.unused.filter isProgress = scope.unused := by
  refine List.filter_eq_self.mpr fun r hr => ?_
  obtain ⟨l, -, rfl⟩ := List.mem_map.mp hr
  rfl

/-- A scope is closed behind a course that was run in it. -/
theorem scope_closed {o : Opening} {s t : Context}
    (h : Ran c { s with scopes := o.first :: s.scopes } t) :
    Ran (.scope o c .done) s (closeScope t) := by
  obtain ⟨scopes, reports⟩ := h
  unfold closeScope
  cases ht : t.scopes with
  | nil =>
    rw [ht] at scopes
    refine ⟨?_, ?_⟩
    · simp only [Course.after, ← scopes, ht, List.tail_nil]
    · simp only [Course.complaints, ← scopes, List.headD_nil, reports]
      simp [Scope.unused]
  | cons scope outer =>
    rw [ht] at scopes
    refine ⟨?_, ?_⟩
    · simp only [Course.after, ← scopes, List.tail_cons]
    · simp only [Course.complaints, ← scopes, List.headD_cons, List.filter_append, reports,
        isProgress_unused, List.append_nil, List.append_assoc]

theorem inScope (o : Opening) (h : Runs x c) :
    Runs (Binding.inScope o.first x) (.scope o c .done) := by
  rintro ⟨ho, hc, -⟩ s hs
  exact scope_closed (h hc _ (Tame.cons (Tame.first ho) hs))

theorem inFunction (enclosing : Enclosing) (r : Region) (h : Runs x c) :
    Runs (Binding.inFunction enclosing (r.params.forM Binding.declareAndDefine >>= fun _ => x))
      (.scope (.names r) c .done) := by
  rintro ⟨ho, hc, -⟩ s hs
  let opened : Context := { s with enclosing := enclosing, loops := 0, scopes := [] :: s.scopes }
  obtain ⟨scopes, reports⟩ := declareParams_scopes r.params opened [] rfl
  have body := h hc ((r.params.forM Binding.declareAndDefine).run opened).run.2 (by
    rw [scopes]
    exact Tame.cons (Tame.first (o := .names r) ho) hs)
  have ran : Ran c { s with scopes := (Opening.names r).first :: s.scopes }
      (x.run ((r.params.forM Binding.declareAndDefine).run opened).run.2).run.2 :=
    ⟨body.scopes.trans (congrArg c.after scopes), body.reports.trans (by rw [reports, scopes]; rfl)⟩
  have closed := scope_closed (o := .names r) ran
  exact ⟨closed.scopes, closed.reports⟩

theorem inLoop (h : Runs x c) : Runs (Binding.inLoop x) c := by
  intro hu s hs
  have inside := h hu { s with loops := s.loops + 1 } hs
  exact ⟨inside.scopes, inside.reports⟩

theorem inClass (path : List Nat) (name : Name) (h : Runs x c) :
    Runs (Binding.inClass name x) (.declare name (.scope (.receiver path name) c .done)) := by
  intro hu s hs
  have both : Runs (Binding.declareAndDefine name >>= fun _ =>
      Binding.inScope (Scope.ofClass name) x)
      (.declare name (.scope (.receiver path name) c .done)) :=
    (declareAndDefine name).bind fun _ => inScope (.receiver path name) h
  have inside := both hu { s with inClass := true } hs
  exact ⟨inside.scopes, inside.reports⟩

end Runs

mutual

theorem bindExpr_runs (path : List Nat) (e : RawExpr) :
    Runs (bindExpr e) (exprCourse path e) := by
  cases e with
  | literal value => exact .pure _
  | grouping inner => exact (bindExpr_runs _ inner).before fun _ => .pure _
  | «variable» name site => exact (Runs.read name).before fun _ => .pure _
  | assign name site value =>
    exact (bindExpr_runs _ value).before fun _ => (Runs.assign name).behind fun _ => .pure _
  | this line site =>
    refine Runs.get_bind fun s => ?_
    split
    · exact (Runs.this line).behind fun _ => .pure _
    · exact (Runs.complain _ (by nofun) (by nofun)).behind fun _ => .pure _
  | unary op line operand => exact (bindExpr_runs _ operand).before fun _ => .pure _
  | binary left op line right =>
    exact (bindExpr_runs _ left).bind fun _ => (bindExpr_runs _ right).before fun _ => .pure _
  | logical left op line right =>
    exact (bindExpr_runs _ left).bind fun _ => (bindExpr_runs _ right).before fun _ => .pure _
  | ternary condition yes no =>
    exact (bindExpr_runs _ condition).bind fun _ => (bindExpr_runs _ yes).bind fun _ =>
      (bindExpr_runs _ no).before fun _ => .pure _
  | sequence earlier last =>
    exact (bindExpr_runs _ earlier).bind fun _ => (bindExpr_runs _ last).before fun _ => .pure _
  | call callee line arguments =>
    exact (bindExpr_runs _ callee).bind fun _ => (bindExprs_runs _ arguments).before
      fun _ => .pure _
  | get object property => exact (bindExpr_runs _ object).before fun _ => .pure _
  | set object property value =>
    exact (bindExpr_runs _ value).bind fun _ => (bindExpr_runs _ object).before fun _ => .pure _
  | function params body =>
    exact (Runs.inFunction .function ⟨0 :: path, params, declaredNames body⟩
      (bindStmts_runs _ body)).before fun _ => .pure _

theorem bindExprs_runs (path : List Nat) (es : List RawExpr) :
    Runs (bindExprs es) (exprsCourse path es) := by
  cases es with
  | nil => exact .pure _
  | cons e es =>
    exact (bindExpr_runs _ e).bind fun _ => (bindExprs_runs _ es).before fun _ => .pure _

theorem bindStmt_runs (path : List Nat) (s : RawStmt) :
    Runs (bindStmt s) (stmtCourse path s) := by
  cases s with
  | expression e => exact (bindExpr_runs _ e).before fun _ => .pure _
  | print e => exact (bindExpr_runs _ e).before fun _ => .pure _
  | var name initial =>
    cases initial with
    | none => exact (Runs.declareAndDefine name).before fun _ => .pure _
    | some e => exact (bindExpr_runs _ e).initial fun _ => .pure _
  | block body =>
    exact (Runs.inScope (.names ⟨path, [], declaredNames body⟩) (bindStmts_runs _ body)).before
      fun _ => .pure _
  | step body increment =>
    exact Runs.inScope (.names ⟨path, [], []⟩) ((bindStmt_runs _ body).bind fun _ =>
      (bindExpr_runs _ increment).before fun _ => .pure _)
  | if_ condition yes no =>
    cases no with
    | none =>
      exact (bindExpr_runs _ condition).bind fun _ => (bindStmt_runs _ yes).before fun _ => .pure _
    | some no =>
      exact (bindExpr_runs _ condition).bind fun _ => (bindStmt_runs _ yes).bind fun _ =>
        (bindStmt_runs _ no).before fun _ => .pure _
  | while_ condition body =>
    exact (bindExpr_runs _ condition).bind fun _ => (Runs.inLoop (bindStmt_runs _ body)).before
      fun _ => .pure _
  | jump jump line =>
    exact Runs.get_bind fun _ => .complainIf (by nofun) (by nofun) fun _ => .pure _
  | function name params body =>
    exact (Runs.declareAndDefine name).bind fun _ =>
      (Runs.inFunction .function ⟨0 :: path, params, declaredNames body⟩
        (bindStmts_runs _ body)).before fun _ => .pure _
  | return_ line value =>
    cases value with
    | none => exact Runs.get_bind fun _ => .complainIf (by nofun) (by nofun) fun _ => .pure _
    | some e =>
      exact Runs.get_bind fun _ => .complainIf (by nofun) (by nofun) fun _ => Runs.get_bind fun _ =>
        .complainIf (by nofun) (by nofun) fun _ => (bindExpr_runs _ e).before fun _ => .pure _
  | class_ name methods =>
    exact (Runs.inClass path name (bindMethods_runs _ methods)).before fun _ => .pure _

theorem bindStmts_runs (path : List Nat) (ss : List RawStmt) :
    Runs (bindStmts ss) (stmtsCourse path ss) := by
  cases ss with
  | nil => exact .pure _
  | cons s ss =>
    exact (bindStmt_runs _ s).bind fun _ => (bindStmts_runs _ ss).before fun _ => .pure _

theorem bindMethods_runs (path : List Nat) (ms : List RawMethod) :
    Runs (bindMethods ms) (methodsCourse path ms) := by
  cases ms with
  | nil => exact .pure _
  | cons m ms =>
    cases m with
    | mk name params body =>
      exact (Runs.inFunction (methodEnclosing name) ⟨0 :: path, params, declaredNames body⟩
        (bindStmts_runs _ body)).bind fun _ => (bindMethods_runs _ ms).before fun _ => .pure _

end

def programCourse (number : Nat) (program : List (Stmt β)) : Course :=
  stmtsCourse [number] program

/-- Of the progress of names a program is complained of as its course says. -/
theorem bindProgram_runs (number : Nat) (program : List RawStmt)
    (usual : (programCourse number program).Usual) :
    (bindProgram program).reports.filter isProgress =
      (programCourse number program).complaints [] :=
  (bindStmts_runs [number] program usual ⟨[], .none, false, 0, [], []⟩
    (List.forall_mem_nil _)).reports

end Lexical

end Script
