import Script.Proofs.Dialogue.Accepted

/-! Checking and running a source.
A check sorts the complaints of the scanner and the grammar once. A run sorts them as the phases
come, each time together with what is already sorted. -/
namespace Script

namespace Report

/-- In line order, with the reports of each line as they were. -/
structure StableSort (reports sorted : List Report) : Prop where
  ordered : sorted.Pairwise fun r s => r.line ≤ s.line
  kept : ∀ line, sorted.filter (·.line = line) = reports.filter (·.line = line)

theorem mem_insertByLine (r x : Report) (rs : List Report) :
    x ∈ insertByLine r rs ↔ x = r ∨ x ∈ rs := by
  induction rs with
  | nil => simp [insertByLine]
  | cons s rest ih =>
    rw [insertByLine]
    split
    · exact List.mem_cons
    · rw [List.mem_cons, ih, List.mem_cons]
      exact or_left_comm

theorem insertByLine_ordered (r : Report) {rs : List Report}
    (h : rs.Pairwise fun r s => r.line ≤ s.line) :
    (insertByLine r rs).Pairwise fun r s => r.line ≤ s.line := by
  induction rs with
  | nil => exact List.pairwise_singleton _ _
  | cons s rest ih =>
    obtain ⟨least, tail⟩ := List.pairwise_cons.mp h
    rw [insertByLine]
    split
    · rename_i first
      refine List.pairwise_cons.mpr ⟨fun x hx => ?_, h⟩
      cases List.mem_cons.mp hx with
      | inl same => exact same ▸ first
      | inr inside => exact Nat.le_trans first (least x inside)
    · rename_i later
      refine List.pairwise_cons.mpr ⟨fun x hx => ?_, ih tail⟩
      cases (mem_insertByLine r x rest).mp hx with
      | inl same => exact same ▸ (Nat.le_of_not_le later)
      | inr inside => exact least x inside

theorem insertByLine_kept (r : Report) (rs : List Report) (line : Nat) :
    (insertByLine r rs).filter (·.line = line) = (r :: rs).filter (·.line = line) := by
  induction rs with
  | nil => rfl
  | cons s rest ih =>
    rw [insertByLine]
    split
    · rfl
    · rename_i later
      rw [List.filter_cons, ih]
      by_cases hs : s.line = line
      · have hr : ¬ r.line = line := fun hr => later (Nat.le_of_eq (hr.trans hs.symm))
        simp [hs, hr]
      · simp [hs, List.filter_cons]

theorem byLine_stable (rs : List Report) : StableSort rs (byLine rs) := by
  induction rs with
  | nil => exact ⟨List.Pairwise.nil, fun _ => rfl⟩
  | cons r rest ih =>
    constructor
    · exact insertByLine_ordered r ih.ordered
    · intro line
      rw [byLine, insertByLine_kept, List.filter_cons, List.filter_cons, ih.kept]

theorem mem_of_kept {as bs : List Report}
    (kept : ∀ line, as.filter (·.line = line) = bs.filter (·.line = line)) {r : Report}
    (h : r ∈ as) : r ∈ bs := by
  have own : r ∈ as.filter (·.line = r.line) := List.mem_filter.mpr ⟨h, decide_eq_true rfl⟩
  rw [kept] at own
  exact (List.mem_filter.mp own).1

namespace StableSort

variable {reports sorted sorted' : List Report}

theorem perm (h : StableSort reports sorted) : sorted.Perm reports := by
  rw [List.perm_iff_count]
  intro r
  have own : ∀ rs : List Report, (rs.filter (·.line = r.line)).count r = rs.count r := fun rs =>
    List.count_filter (decide_eq_true (rfl : r.line = r.line))
  rw [← own, ← own reports, h.kept]

theorem head_le {r s : Report} {as bs : List Report}
    (ordered : (r :: as).Pairwise fun r s => r.line ≤ s.line)
    (kept : ∀ line, (r :: as).filter (·.line = line) = (s :: bs).filter (·.line = line)) :
    r.line ≤ s.line := by
  have inside : s ∈ r :: as := mem_of_kept (fun line => (kept line).symm) List.mem_cons_self
  cases List.mem_cons.mp inside with
  | inl same => exact same ▸ Nat.le_refl _
  | inr later => exact (List.pairwise_cons.mp ordered).1 s later

theorem unique (h : StableSort reports sorted) (h' : StableSort reports sorted') :
    sorted = sorted' := by
  have kept : ∀ line, sorted.filter (·.line = line) = sorted'.filter (·.line = line) :=
    fun line => (h.kept line).trans (h'.kept line).symm
  have ordered := h.ordered
  have ordered' := h'.ordered
  clear h h'
  induction sorted generalizing sorted' with
  | nil =>
    cases sorted' with
    | nil => rfl
    | cons s bs => cases mem_of_kept (fun line => (kept line).symm) List.mem_cons_self
  | cons r as ih =>
    cases sorted' with
    | nil => cases mem_of_kept kept List.mem_cons_self
    | cons s bs =>
      have line : r.line = s.line :=
        Nat.le_antisymm (head_le ordered kept) (head_le ordered' fun line => (kept line).symm)
      have heads := kept s.line
      simp only [List.filter_cons, line, decide_true, if_true] at heads
      cases (List.cons.inj heads).1
      refine congrArg (r :: ·) (ih (fun line => ?_) ordered.of_cons ordered'.of_cons)
      have tails := kept line
      rw [List.filter_cons, List.filter_cons] at tails
      split at tails
      · exact (List.cons.inj tails).2
      · exact tails

end StableSort

/-- Sorting after each phase is sorting once. -/
theorem merge_merge (found more later : List Report) :
    merge (merge found more) later = byLine (found ++ more ++ later) := by
  have stages : StableSort (found ++ more ++ later) (merge (merge found more) later) := by
    constructor
    · exact (byLine_stable _).ordered
    · intro line
      rw [merge, (byLine_stable _).kept, List.filter_append, merge, (byLine_stable _).kept,
        ← List.filter_append]
  exact stages.unique (byLine_stable _)

end Report

namespace Program

open Source Grammar

variable (source : String)

theorem reports_eq : (ofSource source).reports =
    Report.merge (Report.merge [] (scan source).reports)
      (readProgram (scan source).tokens (scan source).endLine).reports :=
  (Report.merge_merge [] _ _).symm

end Program

namespace Dialogue

open Source Grammar Binding

theorem run_rejected {source : String} (wrong : Program.check source ≠ []) (limits : Limits)
    (d : Dialogue) : ∃ sorted, Report.StableSort (Program.check source) sorted ∧
      (run limits source d).1 = ⟨.rejected sorted, ""⟩ ∧
      (run limits source d).2.machine = d.machine := by
  have reports := Program.reports_eq source
  simp only [Program.check, Program.bound] at wrong ⊢
  simp only [run, ← reports]
  cases hfound : (Program.ofSource source).reports with
  | cons r rest =>
    have ordered : Report.StableSort (r :: rest) (r :: rest) :=
      ⟨hfound ▸ (Report.byLine_stable _).ordered, fun _ => rfl⟩
    exact ⟨r :: rest, ordered, rfl, rfl⟩
  | nil =>
    rw [hfound] at wrong
    have stable := Report.byLine_stable (bindProgram (Program.ofSource source).statements).reports
    refine ⟨_, stable, ?_⟩
    have some : (Report.merge [] (bindProgram (readProgram (scan source).tokens
        (scan source).endLine).statements).reports).isEmpty = false := by
      rw [List.isEmpty_eq_false_iff]
      exact fun none => wrong (Report.eq_nil_of_merge none)
    simp only [some]
    exact ⟨rfl, rfl⟩

theorem exitCode_outcomeOf (r : EStateM.Result Exit Machine Unit) :
    (outcomeOf r).exitCode = 0 ∨ (outcomeOf r).exitCode = 70 ∨
      ∃ exit, outcomeOf r = .escaped exit := by
  cases r with
  | ok _ m => exact .inl rfl
  | error exit m =>
    cases exit with
    | failed failure => exact .inr (.inl rfl)
    | jumped jump => exact .inr (.inr ⟨_, rfl⟩)
    | returned v => exact .inr (.inr ⟨_, rfl⟩)
    | absent absence => exact .inr (.inr ⟨_, rfl⟩)
    | exhausted => exact .inr (.inr ⟨_, rfl⟩)

theorem exitCode_outcomeOf_ne (r : EStateM.Result Exit Machine Unit) :
    (outcomeOf r).exitCode ≠ 64 := by
  rcases exitCode_outcomeOf r with h | h | ⟨exit, h⟩
  · omega
  · omega
  · rw [h, Outcome.exitCode]
    decide

end Dialogue

/-- A run and a check of the same source. The run is rejected with the complaints of the check,
sorted by line, or it is the run of a program that nothing is wrong with. -/
theorem Dialogue.run_agrees (limits : Limits) (source : String) (d : Dialogue) :
    ((run limits source d).1.outcome.exitCode = 64 ↔ Program.check source ≠ []) ∧
    (Program.check source ≠ [] →
      (run limits source d).1.output = "" ∧
      (run limits source d).2.machine = d.machine ∧
      ∃ sorted, Report.StableSort (Program.check source) sorted ∧
        (run limits source d).1.outcome.complaints =
          String.join (sorted.map fun r => r.text ++ "\n")) ∧
    (Program.check source = [] →
      (run limits source d).1 = shownBy (Run.executeAll limits.fuel limits.room
        (Program.ofSource source).bound.statements { d.machine with output := "" }) ∧
      ((run limits source d).1.outcome.exitCode = 0 ∨
        (run limits source d).1.outcome.exitCode = 70 ∨
        ∃ exit, (run limits source d).1.outcome = .escaped exit)) ∧
    (∀ lexical syntactic : List Report,
      Report.merge (Report.merge [] lexical) syntactic = Report.byLine (lexical ++ syntactic) ∧
      Report.StableSort (lexical ++ syntactic) (Report.byLine (lexical ++ syntactic))) := by
  have agree : (run limits source d).1.outcome.exitCode = 64 ↔ Program.check source ≠ [] := by
    constructor
    · intro rejected right
      rw [run_accepted ((Program.accepted_iff source).mp right)] at rejected
      exact exitCode_outcomeOf_ne _ rejected
    · intro wrong
      obtain ⟨sorted, _, shown, _⟩ := run_rejected wrong limits d
      rw [shown]
      rfl
  refine ⟨agree, fun wrong => ?_, fun right => ?_, fun lexical syntactic => ?_⟩
  · obtain ⟨sorted, stable, shown, kept⟩ := run_rejected wrong limits d
    rw [shown]
    exact ⟨rfl, kept, sorted, stable, rfl⟩
  · rw [run_accepted ((Program.accepted_iff source).mp right)]
    exact ⟨rfl, exitCode_outcomeOf _⟩
  · exact ⟨Report.merge_merge [] lexical syntactic, Report.byLine_stable _⟩

end Script
