import Mathlib.Data.List.Basic
import Script.Proofs.Grammar.Mending

/-! Readings before other tokens.
A reading that ends with a result takes the same tokens and complains of the same when others stand
behind them, as long as those begin alike or with what may stand there. -/
namespace Script.Grammar

variable {α β : Type}

/-- No token is a jump, whose complaint depends on the loops around it. -/
def Jumpless (tokens : List Token) : Prop :=
  ∀ t ∈ tokens, ∀ jump : Jump, t.kind ≠ .keyword jump.keyword

def Braceless (tokens : List Token) : Prop := ∀ t ∈ tokens, t.kind ≠ .symbol .leftBrace

/-- The last token is a semicolon. -/
def Terminated (tokens : List Token) : Prop := ∃ t ∈ tokens.getLast?, t.kind = .symbol .semicolon

/-- Behind the tokens a brace opens a block. The brace of a class stands behind a name. -/
structure Opening (outer : List Token) (brace : Token) : Prop where
  kind : brace.kind = .symbol .leftBrace
  behind : ∀ t ∈ outer.getLast?, t.kind ≠ .name

/-- Nothing may stand next but what stood there. -/
def nothing (_ : Option Kind) : Prop := False

def noting (added : List Report) (a : α) : Reading α := fun r =>
  .ok a { r with reports := r.reports ++ added }

def stopping (added : List Report) (report : Report) : Reading α := fun r =>
  .error (.complaint report) { r with reports := r.reports ++ added }

/-- Behind `front` the reading goes into the body of a block, which takes `inner` up to the rest
of it. What the body makes of other tokens there decides how the reading ends. -/
def Enters (loops : Nat) (x : Reading α) (front inner : List Token) : Prop :=
  ∃ (fuel loops' : Nat) (body : List RawStmt) (rest : List Token)
    (leaves : EStateM.Result Stop Reader (List RawStmt) → EStateM.Result Stop Reader α),
    Takes loops' (blockBody fuel) inner body rest ∧
    (∀ s, ∃ s', leaves (.error .exhausted s) = .error .exhausted s') ∧
    ∀ tail endLine reports, x ⟨front ++ tail, endLine, reports, loops⟩ =
      leaves (blockBody fuel ⟨tail, endLine, reports, loops'⟩)

/-- A reading that begins in the body of a block. -/
def BeginsBody (x : Reading α) : Prop :=
  ∀ r a s, x r = .ok a s → s.reports = r.reports → Enters r.loops x [] r.rest

/-- How a reading ends, and how it ends before other tokens. A calm reading is stopped in none of
its parts as long as it goes into no block. -/
inductive Echoed (calm : Bool) (least : Nat) (behind : Option Kind → Prop) (x : Reading α)
    (r : Reader) : EStateM.Result Stop Reader α → Prop
  | ok {a} (taken rest : List Token) (added : List Report) (split : r.rest = taken ++ rest)
    (many : least ≤ taken.length)
    (quiet : calm = true → Braceless taken → stops added = [])
    (again : stops added = [] → ∀ loops, loops = r.loops ∨ Jumpless taken →
      ∀ tail, tail.head? = rest.head? ∨ behind (ahead tail) →
        Leads loops x (taken ++ tail) tail (noting added a))
    (enters : added = [] → ∀ outer brace inside, taken = outer ++ brace :: inside →
      Opening outer brace → Enters r.loops x (outer ++ [brace]) (inside ++ rest)) :
    Echoed calm least behind x r (.ok a ⟨rest, r.endLine, r.reports ++ added, r.loops⟩)
  | complaint (taken rest : List Token) (added : List Report) (missing : Missing)
    (split : r.rest = taken ++ rest)
    (quiet : calm = true → Braceless taken → stops added = [])
    (again : stops added = [] → Terminated rest → ∀ loops, loops = r.loops ∨ Jumpless r.rest →
      ∀ more, Leads loops x (r.rest ++ more) (rest ++ more)
        (stopping added (Reader.report ⟨rest, r.endLine, [], 0⟩ (.expected missing)))) :
    Echoed calm least behind x r (.error
      (.complaint (Reader.report ⟨rest, r.endLine, [], 0⟩ (.expected missing)))
      ⟨rest, r.endLine, r.reports ++ added, r.loops⟩)
  | exhausted {s} : Echoed calm least behind x r (.error .exhausted s)

def Echoes (P : List Token → Prop) (calm : Bool) (least : Nat) (behind : Option Kind → Prop)
    (x : Reading α) : Prop :=
  ∀ r, P r.rest → Echoed calm least behind x r (x r)

section Tokens

variable {front back outer inner tokens : List Token} {brace t : Token}

theorem Jumpless.of_append (h : Jumpless (front ++ back)) : Jumpless front ∧ Jumpless back :=
  List.forall_mem_append.mp h

theorem Braceless.of_append (h : Braceless (front ++ back)) : Braceless front ∧ Braceless back :=
  List.forall_mem_append.mp h

theorem braceless_one (h : t.kind ≠ .symbol .leftBrace) : Braceless [t] := by
  intro u hu
  cases List.mem_singleton.mp hu
  exact h

theorem Terminated.ne_nil (h : Terminated tokens) : tokens ≠ [] := by
  rintro rfl
  obtain ⟨t, ht, -⟩ := h
  cases ht

theorem Terminated.before (h : Terminated back) : Terminated (front ++ back) := by
  obtain ⟨t, ht, hk⟩ := h
  exact ⟨t, by rw [List.getLast?_append, Option.mem_def.mp ht]; rfl, hk⟩

theorem Terminated.of_append (h : Terminated (front ++ back)) (some : back ≠ []) :
    Terminated back := by
  obtain ⟨t, ht, hk⟩ := h
  exact ⟨t, by rwa [List.getLast?_append_of_ne_nil _ some] at ht, hk⟩

theorem Opening.later (h : Opening (front ++ outer) brace) : Opening outer brace := by
  refine ⟨h.kind, fun t ht => h.behind t ?_⟩
  rw [List.getLast?_append, Option.mem_def.mp ht]
  rfl

theorem Opening.not_braceless (h : Opening outer brace)
    (split : tokens = outer ++ brace :: inner) : ¬ Braceless tokens := fun none =>
  none brace (by simp [split]) h.kind

theorem append_split (h : front ++ back = outer ++ t :: inner) :
    (∃ inside, front = outer ++ t :: inside ∧ inner = inside ++ back) ∨
      ∃ between, outer = front ++ between ∧ back = between ++ t :: inner := by
  rcases List.append_eq_append_iff.mp h with ⟨between, ho, hb⟩ | ⟨inside, hf, hi⟩
  · exact .inr ⟨between, ho, hb⟩
  · cases inside with
    | nil => exact .inr ⟨[], by simpa using hf.symm, hi.symm⟩
    | cons u inside =>
      obtain ⟨rfl, rfl⟩ := List.cons.inj hi
      exact .inl ⟨inside, hf, rfl⟩

/-- A complaint about the next token depends on that one only. -/
theorem report_of_head? {r s : Reader} (same : s.rest.head? = r.rest.head?) (some : s.rest ≠ [])
    (complaint : Complaint) : s.report complaint = r.report complaint := by
  obtain ⟨t, rest, hs⟩ := List.exists_cons_of_ne_nil some
  rw [hs] at same
  obtain ⟨rest', hr⟩ := List.head?_eq_some_iff.mp same.symm
  simp only [Reader.report, hs, hr]

theorem report_isStop (r : Reader) (missing : Missing) :
    (r.report (.expected missing)).isStop = true := by
  unfold Reader.report
  cases r.rest <;> rfl

theorem report_isNote {complaint : Complaint} (h : ∀ missing, complaint ≠ .expected missing)
    (r : Reader) : (r.report complaint).isStop = false := by
  obtain ⟨report, hn, hr⟩ := notesOnly_here h r
  have same : r.reports ++ [r.report complaint] = r.reports ++ [report] :=
    congrArg Reader.reports (EStateM.Result.ok.inj hr).2
  rwa [List.singleton_inj.mp (List.append_cancel_left same)]

end Tokens

theorem noting_nil (a : α) : noting [] a = pure a := by
  funext r
  simp only [noting, List.append_nil]
  rfl

section Expecting

variable {loops : Nat} {symbol : Symbol} {landmark : Landmark} {missing : Missing} {t : Token}
  {rest : List Token} {r : Reader}

theorem expect_takes (h : t.kind = .symbol symbol) :
    Takes loops (expect symbol landmark) (t :: rest) t.line rest := by
  intro endLine reports
  simp only [expect, h, if_true]
  rfl

theorem expect_stops (h : ahead r.rest ≠ some (.symbol symbol)) :
    expect symbol landmark r = stop (.symbol symbol landmark) r := by
  unfold expect
  cases hr : r.rest with
  | nil => rfl
  | cons t rest =>
    rw [hr] at h
    exact if_neg fun hk => h (congrArg some hk)

theorem expectName_takes (h : t.kind = .name) :
    Takes loops (expectName missing) (t :: rest) ⟨t.lexeme, t.line⟩ rest := by
  intro endLine reports
  simp only [expectName, h, if_true]
  rfl

theorem expectName_stops (h : ahead r.rest ≠ some .name) :
    expectName missing r = stop missing r := by
  unfold expectName
  cases hr : r.rest with
  | nil => rfl
  | cons t rest =>
    rw [hr] at h
    exact if_neg fun hk => h (congrArg some hk)

end Expecting

namespace Leads

variable {loops : Nat} {tokens middle rest : List Token} {x : Reading α} {f : α → Reading β}
  {a : α} {b : β} {added more : List Report} {report : Report}

theorem noted (h : Leads loops x tokens middle (noting added a))
    (h' : Leads loops (f a) middle rest (noting more b)) :
    Leads loops (x >>= f) tokens rest (noting (added ++ more) b) := by
  intro endLine reports
  simp only [Bind.bind, EStateM.bind, h endLine reports, noting]
  rw [h' endLine (reports ++ added), noting, List.append_assoc]

theorem noted_map {g : α → β} (h : Leads loops x tokens rest (noting added a)) :
    Leads loops (g <$> x) tokens rest (noting added (g a)) := by
  intro endLine reports
  simp only [Functor.map, EStateM.map, h endLine reports, noting]

theorem stopped (h : Leads loops x tokens middle (noting added a))
    (h' : Leads loops (f a) middle rest (stopping more report)) :
    Leads loops (x >>= f) tokens rest (stopping (added ++ more) report) := by
  intro endLine reports
  simp only [Bind.bind, EStateM.bind, h endLine reports, noting]
  rw [h' endLine (reports ++ added), stopping, stopping, List.append_assoc]

theorem stopped_first (h : Leads loops x tokens rest (stopping added report)) :
    Leads loops (x >>= f) tokens rest (stopping added report) := by
  intro endLine reports
  simp only [Bind.bind, EStateM.bind, h endLine reports, stopping]

end Leads

namespace Enters

variable {loops : Nat} {x y : Reading α} {front inner : List Token}

theorem body {fuel : Nat} {stmts : List RawStmt} {rest : List Token}
    (h : Takes loops (blockBody fuel) inner stmts rest) : Enters loops (blockBody fuel) [] inner :=
  ⟨fuel, loops, stmts, rest, id, h, fun s => ⟨s, rfl⟩, fun _ _ _ => rfl⟩

/-- The reading is another one behind some tokens. -/
theorem led (before : List Token) (h : Enters loops y front inner)
    (leads : ∀ tail, Leads loops x (before ++ (front ++ tail)) (front ++ tail) y) :
    Enters loops x (before ++ front) inner := by
  obtain ⟨fuel, loops', body, rest, leaves, takes, out, goes⟩ := h
  refine ⟨fuel, loops', body, rest, leaves, takes, out, fun tail endLine reports => ?_⟩
  rw [List.append_assoc, leads tail endLine reports, goes]

/-- A reading that does something with what the other makes of the tokens. -/
theorem around {loops' : Nat} {z : Reading β} (h : Enters loops' x front inner)
    (leaves : EStateM.Result Stop Reader α → EStateM.Result Stop Reader β)
    (out : ∀ s, ∃ s', leaves (.error .exhausted s) = .error .exhausted s')
    (same : ∀ tokens endLine reports, z ⟨tokens, endLine, reports, loops⟩ =
      leaves (x ⟨tokens, endLine, reports, loops'⟩)) : Enters loops z front inner := by
  obtain ⟨fuel, loops', body, rest, leaves', takes, out', goes⟩ := h
  refine ⟨fuel, loops', body, rest, leaves ∘ leaves', takes, fun s => ?_,
    fun tail endLine reports => (same _ _ _).trans (congrArg leaves (goes tail endLine reports))⟩
  obtain ⟨s', hs⟩ := out' s
  obtain ⟨s'', hs'⟩ := out s'
  exact ⟨s'', (congrArg leaves hs).trans hs'⟩

theorem bind (h : Enters loops x front inner) (f : α → Reading β) :
    Enters loops (x >>= f) front inner :=
  h.around (fun result => EStateM.bind (fun _ => result) f ⟨[], 0, [], 0⟩)
    (fun s => ⟨s, rfl⟩) fun _ _ _ => rfl

theorem withLoops {change : Nat → Nat} (h : Enters (change loops) x front inner) :
    Enters loops (withLoops change x) front inner :=
  h.around (fun result => Grammar.withLoops change (fun _ => result) ⟨[], 0, [], loops⟩)
    (fun _ => ⟨_, rfl⟩) fun _ _ _ => rfl

theorem recovering (h : Enters loops x front inner) :
    Enters loops (recovering x) front inner :=
  h.around (fun result => Grammar.recovering (fun _ => result) ⟨[], 0, [], 0⟩)
    (fun s => ⟨s, rfl⟩) fun _ _ _ => rfl

end Enters

namespace Echoed

variable {calm calm' : Bool} {k l : Nat} {mid behind : Option Kind → Prop} {x y : Reading α}
  {r : Reader} {result : EStateM.Result Stop Reader α}

/-- A reading that is another one wherever that one's tokens begin the same, and where there are
none of them before what may stand behind. -/
theorem agree (h : Echoed calm k behind y r result)
    (same : ∀ s, s.rest.head? = r.rest.head? ∨ k = 0 ∧ behind (ahead s.rest) → x s = y s) :
    Echoed calm k behind x r result := by
  cases h with
  | exhausted => exact .exhausted
  | ok taken rest added split many quiet again enters =>
    refine .ok taken rest added split many quiet (fun none loops hl tail htail => ?_)
      fun clean outer brace inside ht opening => ?_
    · intro endLine reports
      rw [same _ ?_]
      · exact again none loops hl tail htail endLine reports
      · rw [split]
        by_cases empty : taken = []
        · subst empty
          exact htail.imp id fun next => ⟨Nat.le_zero.mp many, next⟩
        · exact .inl (head?_append_of (.inl empty))
    · refine (enters clean outer brace inside ht opening).led [] fun tail => ?_
      intro endLine reports
      refine same _ (.inl ?_)
      rw [split, ht, List.nil_append, List.append_assoc, List.append_assoc]
      exact head?_append_of (.inr rfl)
  | complaint taken rest added missing split quiet again =>
    refine .complaint taken rest added missing split quiet
      fun none terminated loops hl more endLine reports => ?_
    have some : r.rest ≠ [] := split ▸ terminated.before.ne_nil
    rw [same _ (.inl (List.head?_append_of_ne_nil _ some))]
    exact again none terminated loops hl more endLine reports

theorem mono {behind' : Option Kind → Prop} (h : Echoed calm k behind x r result)
    (hcalm : calm' = true → calm = true) (hk : l ≤ k)
    (hbehind : ∀ next, behind' next → behind next) : Echoed calm' l behind' x r result := by
  cases h with
  | exhausted => exact .exhausted
  | ok taken rest added split many quiet again enters =>
    exact .ok taken rest added split (hk.trans many) (fun h => quiet (hcalm h))
      (fun none loops hl tail htail => again none loops hl tail (htail.imp id (hbehind _))) enters
  | complaint taken rest added missing split quiet again =>
    exact .complaint taken rest added missing split (fun h => quiet (hcalm h)) again

/-- A reading that passes some tokens, when it sees what comes next, and is another one then. -/
theorem led (front : List Token) {rest : List Token}
    (h : Echoed calm' k behind y { r with rest := rest } result) (hr : r.rest = front ++ rest)
    (leads : ∀ loops, loops = r.loops ∨ Jumpless front →
      ∀ tail, (1 ≤ k → tail.head? = rest.head?) → Leads loops x (front ++ tail) tail y)
    (calms : calm = true → Braceless front → calm' = true)
    (opens : ∀ outer brace inside, front = outer ++ brace :: inside → Opening outer brace →
      ∀ a s, result = .ok a s → s.reports = r.reports →
        Enters r.loops x (outer ++ [brace]) (inside ++ rest)) :
    Echoed calm (front.length + k) behind x r result := by
  cases h with
  | exhausted => exact .exhausted
  | @ok a taken rest' added split many quiet again enters =>
    replace split : rest = taken ++ rest' := split
    refine .ok (front ++ taken) rest' added (by rw [hr, split, List.append_assoc]) ?_ ?_ ?_ ?_
    · rw [List.length_append]
      exact Nat.add_le_add_left many _
    · intro hc none
      exact quiet (calms hc none.of_append.1) none.of_append.2
    · intro none loops hl tail htail
      rw [List.append_assoc]
      refine (leads loops (hl.imp id fun h => h.of_append.1) _ fun hk => ?_).trans
        (again none loops (hl.imp id fun h => h.of_append.2) tail htail)
      have some : taken ≠ [] := List.ne_nil_of_length_pos (Nat.lt_of_lt_of_le hk many)
      exact split ▸ head?_append_of (.inl some)
    · intro clean outer brace inside ht opening
      rcases append_split ht with ⟨inside', hf, rfl⟩ | ⟨between, rfl, hb⟩
      · rw [List.append_assoc, ← split]
        exact opens outer brace inside' hf opening a _ rfl (by simp only [clean, List.append_nil])
      · rw [List.append_assoc]
        refine (enters clean between brace inside hb opening.later).led front fun tail =>
          leads r.loops (.inl rfl) _ fun _ => ?_
        rw [split, hb, List.append_assoc, List.append_assoc]
        exact head?_append_of (.inr rfl)
  | complaint taken rest' added missing split quiet again =>
    replace split : rest = taken ++ rest' := split
    refine .complaint (front ++ taken) rest' added missing (by rw [hr, split, List.append_assoc])
      (fun hc none => quiet (calms hc none.of_append.1) none.of_append.2) ?_
    intro none terminated loops hl more
    rw [hr, List.append_assoc]
    rw [hr] at hl
    have some : rest ≠ [] := split ▸ terminated.before.ne_nil
    exact (leads loops (hl.imp id fun h => h.of_append.1) _
      fun _ => List.head?_append_of_ne_nil _ some).trans
        (again none terminated loops (hl.imp id fun h => h.of_append.2) more)

theorem after {f : α → Reading β} {a : α} {taken rest : List Token} {added : List Report}
    {result : EStateM.Result Stop Reader β} (split : r.rest = taken ++ rest)
    (many : k ≤ taken.length) (quiet : calm = true → Braceless taken → stops added = [])
    (again : stops added = [] → ∀ loops, loops = r.loops ∨ Jumpless taken →
      ∀ tail, tail.head? = rest.head? ∨ mid (ahead tail) →
        Leads loops x (taken ++ tail) tail (noting added a))
    (enters : added = [] → ∀ outer brace inside, taken = outer ++ brace :: inside →
      Opening outer brace → Enters r.loops x (outer ++ [brace]) (inside ++ rest))
    (h : Echoed calm l behind (f a) ⟨rest, r.endLine, r.reports ++ added, r.loops⟩ result)
    (through : 1 ≤ l ∨ ∀ next, behind next → mid next) :
    Echoed calm (k + l) behind (x >>= f) r result := by
  cases h with
  | exhausted => exact .exhausted
  | @ok b taken' rest' added' split' many' quiet' again' enters' =>
    replace split' : rest = taken' ++ rest' := split'
    rw [show (⟨rest', r.endLine, r.reports ++ added ++ added', r.loops⟩ : Reader) =
      ⟨rest', r.endLine, r.reports ++ (added ++ added'), r.loops⟩ by rw [List.append_assoc]]
    refine .ok (taken ++ taken') rest' (added ++ added') ?_ ?_ ?_ ?_ ?_
    · rw [split, split', List.append_assoc]
    · rw [List.length_append]
      exact Nat.add_le_add many many'
    · intro hc none
      rw [stops_append, quiet hc none.of_append.1, quiet' hc none.of_append.2, List.append_nil]
    · intro none loops hl tail htail
      rw [stops_append, List.append_eq_nil_iff] at none
      rw [List.append_assoc]
      refine (again none.1 loops (hl.imp id fun h => h.of_append.1) _ ?_).noted
        (again' none.2 loops (hl.imp id fun h => h.of_append.2) tail htail)
      rw [split']
      by_cases empty : taken' = []
      · subst empty
        exact htail.imp id (through.resolve_left (Nat.not_lt.mpr many') _)
      · exact .inl (head?_append_of (.inl empty))
    · intro clean outer brace inside ht opening
      obtain ⟨rfl, rfl⟩ := List.append_eq_nil_iff.mp clean
      rcases append_split ht with ⟨inside', hf, rfl⟩ | ⟨between, rfl, hb⟩
      · rw [List.append_assoc, ← split']
        exact (enters rfl outer brace inside' hf opening).bind f
      · -- the first reading leads up to the second, in which the block opens
        rw [List.append_assoc]
        refine (enters' rfl between brace inside hb opening.later).led taken fun tail => ?_
        have first := again rfl r.loops (.inl rfl) (between ++ [brace] ++ tail) (.inl ?_)
        · rw [noting_nil] at first
          exact first.bind .refl
        · rw [split', hb, List.append_assoc, List.append_assoc]
          exact head?_append_of (.inr rfl)
  | complaint taken' rest' added' missing split' quiet' again' =>
    replace split' : rest = taken' ++ rest' := split'
    rw [show (⟨rest', r.endLine, r.reports ++ added ++ added', r.loops⟩ : Reader) =
      ⟨rest', r.endLine, r.reports ++ (added ++ added'), r.loops⟩ by rw [List.append_assoc]]
    refine .complaint (taken ++ taken') rest' (added ++ added') missing
      (by rw [split, split', List.append_assoc]) ?_ ?_
    · intro hc none
      rw [stops_append, quiet hc none.of_append.1, quiet' hc none.of_append.2, List.append_nil]
    · intro none terminated loops hl more
      rw [stops_append, List.append_eq_nil_iff] at none
      rw [split] at hl ⊢
      rw [List.append_assoc]
      refine (again none.1 loops (hl.imp id fun h => h.of_append.1) _ (.inl ?_)).stopped
        (again' none.2 terminated loops (hl.imp id fun h => h.of_append.2) more)
      exact List.head?_append_of_ne_nil _ (split' ▸ terminated.before.ne_nil)

theorem noted {z : Reading Unit} {report : Report}
    (h : Echoed calm k behind y { r with reports := r.reports ++ [report] } result)
    (isNote : report.isStop = false)
    (notes : ∀ s, (1 ≤ k → s.rest.head? = r.rest.head? ∧ s.rest ≠ []) →
      z s = .ok () { s with reports := s.reports ++ [report] }) :
    Echoed calm k behind (z >>= fun _ => y) r result := by
  have quiets (added : List Report) : stops (report :: added) = stops added := by
    rw [← List.singleton_append, stops_append]
    exact congrArg (· ++ stops added) (stops_noted isNote [])
  have noted (loops : Nat) (tokens : List Token)
      (same : 1 ≤ k → tokens.head? = r.rest.head? ∧ tokens ≠ []) :
      Leads loops z tokens tokens (noting [report] ()) := fun endLine reports => notes _ same
  cases h with
  | exhausted => exact .exhausted
  | ok taken rest added split many quiet again enters =>
    replace split : r.rest = taken ++ rest := split
    simp only [List.append_assoc, List.singleton_append]
    refine .ok taken rest (report :: added) split many (fun hc none => ?_) ?_ nofun
    · rw [quiets]
      exact quiet hc none
    · intro none loops hl tail htail
      rw [quiets] at none
      refine (noted loops _ fun hk => ?_).noted (again none loops hl tail htail)
      have some : taken ≠ [] := List.ne_nil_of_length_pos (Nat.lt_of_lt_of_le hk many)
      exact ⟨split ▸ head?_append_of (.inl some), List.append_ne_nil_of_left_ne_nil some _⟩
  | complaint taken rest added missing split quiet again =>
    replace split : r.rest = taken ++ rest := split
    simp only [List.append_assoc, List.singleton_append]
    refine .complaint taken rest (report :: added) missing split (fun hc none => ?_) ?_
    · rw [quiets]
      exact quiet hc none
    · intro none terminated loops hl more
      rw [quiets] at none
      refine (noted loops _ fun _ => ?_).stopped (again none terminated loops hl more)
      have some : r.rest ≠ [] := split ▸ terminated.before.ne_nil
      exact ⟨List.head?_append_of_ne_nil _ some, List.append_ne_nil_of_left_ne_nil some _⟩

end Echoed

end Script.Grammar
