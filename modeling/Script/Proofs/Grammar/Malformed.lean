import Script.Proofs.Grammar.Inserting

/-! Malformed statements.
A statement that ends with its only semicolon, has no braces and is stopped at one of its tokens
damages nothing around it. -/
namespace Script.Grammar

open Filter

/-- The tokens are declarations one after the other, none of which is stopped. What is complained of
a jump depends on what stands around them. -/
def AreDeclarations (tokens : List Token) : Prop := stops (readProgram tokens 0).reports = []

/-- A place between two parts of a token list where declarations stand one after the other: at the
outermost level, in a block or in the body of a function. -/
inductive Gap : List Token → List Token → Prop
  | outermost {before behind} (above : AreDeclarations before) (below : AreDeclarations behind) :
    Gap before behind
  | inside {outer brace before behind close rest} (opens : Opening outer brace)
    (above : AreDeclarations before) (below : AreDeclarations behind)
    (closes : close.kind = .symbol .rightBrace) :
    Gap (outer ++ brace :: before) (behind ++ close :: rest)

/-- A statement that is stopped at one of its tokens. Nothing in it but its end, a semicolon, is a
place to resume, and it is no continuation of what stands before it. -/
structure Malformed (tokens : List Token) (endLine : Nat) : Prop where
  terminated : Terminated tokens
  once : ∀ t ∈ tokens.dropLast, t.kind ≠ .symbol .semicolon
  flat : ∀ t ∈ tokens, t.kind ≠ .symbol .leftBrace ∧ t.kind ≠ .symbol .rightBrace
  first : ∀ t ∈ tokens.head?, t.kind ≠ .keyword .else_ ∧ t.kind ≠ .keyword .break_ ∧
    t.kind ≠ .keyword .continue_
  later : ∀ t ∈ tokens.tail, opensStatement t = false
  wrong : ∃ report ∈ (readProgram tokens endLine).reports,
    report.isStop = true ∧ report.place ≠ .atEnd

theorem resumeAfter_tail {t : Token} {tokens tail : List Token} (ends : Terminated (t :: tokens))
    (once : ∀ u ∈ (t :: tokens).dropLast, u.kind ≠ .symbol .semicolon)
    (later : ∀ u ∈ tokens, opensStatement u = false) : resumeAfter t (tokens ++ tail) = tail := by
  induction tokens generalizing t with
  | nil =>
    obtain ⟨_, ⟨⟩, hk⟩ := ends
    cases tail with
    | nil => rfl
    | cons u tail => rw [List.nil_append, resumeAfter, if_pos (.inl hk)]
  | cons u tokens ih =>
    have skipped : ¬ (t.kind = .symbol .semicolon ∨ opensStatement u = true) := by
      rw [later u (by simp)]
      simpa using once t (by simp)
    rw [List.cons_append, resumeAfter, if_neg skipped]
    refine ih ?_ (fun v hv => once v ?_) fun v hv => later v (List.mem_cons_of_mem u hv)
    · obtain ⟨v, hv, hk⟩ := ends
      exact ⟨v, by rwa [List.getLast?_cons_cons] at hv, hk⟩
    · rw [List.dropLast_cons_cons]
      exact List.mem_cons_of_mem t hv

theorem not_stop {added : List Report} (quiet : stops added = []) {report : Report}
    (h : report ∈ added) : report.isStop ≠ true := by
  intro isStop
  have found : report ∈ stops added := List.mem_filter.mpr ⟨h, isStop⟩
  rw [quiet] at found
  cases found

namespace Malformed

variable {tokens : List Token} {endLine : Nat}

theorem ne_nil (h : Malformed tokens endLine) : tokens ≠ [] := h.terminated.ne_nil

theorem jumpless (h : Malformed tokens endLine) : Jumpless tokens := by
  obtain ⟨t, rest, rfl⟩ := List.exists_cons_of_ne_nil h.ne_nil
  intro u hu jump hk
  rcases List.mem_cons.mp hu with rfl | hu
  · cases jump with
    | break_ => exact (h.first u rfl).2.1 hk
    | continue_ => exact (h.first u rfl).2.2 hk
  · have none := h.later u hu
    rw [opensStatement, hk] at none
    cases jump <;> cases none

theorem braceless (h : Malformed tokens endLine) : Braceless tokens := fun t ht => (h.flat t ht).1

theorem begins (h : Malformed tokens endLine) : ∀ t ∈ tokens.head?, ¬ EndsList t.kind := by
  rintro t ht (hk | hk)
  · exact (h.first t ht).1 hk
  · exact (h.flat t (List.mem_of_mem_head? ht)).2 hk

/-- From within the statement, reading resumes behind it. -/
theorem resumes (h : Malformed tokens endLine) {taken rest : List Token}
    (split : tokens = taken ++ rest) (some : rest ≠ []) (tail : List Token) :
    resume (rest ++ tail) = tail := by
  obtain ⟨t, rest, rfl⟩ := List.exists_cons_of_ne_nil some
  have whole := h.terminated
  have once := h.once
  have later := h.later
  subst split
  refine resumeAfter_tail (whole.of_append some) (fun u hu => once u ?_) fun u hu => later u ?_
  · rw [List.dropLast_append_of_ne_nil some]
    exact List.mem_append_right _ hu
  · cases taken with
    | nil => exact hu
    | cons v taken => exact List.mem_append_right _ (List.mem_cons_of_mem t hu)

/-- No declaration ends within the statement. -/
theorem ends_whole (h : Malformed tokens endLine) {rest : List Token}
    (ends : EndsBefore tokens rest) : rest = [] := by
  obtain ⟨taken, t, split, hk⟩ := ends
  by_contra some
  have inside : t ∈ tokens.dropLast := by
    rw [split, List.dropLast_append_of_ne_nil (List.cons_ne_nil t rest),
      List.dropLast_cons_of_ne_nil some]
    exact List.mem_append_right _ (List.mem_cons_self ..)
  rcases hk with hk | hk
  · exact h.once t inside hk
  · exact (h.flat t ((List.dropLast_sublist tokens).subset inside)).2 hk

/-- The statement is stopped at one of its tokens, whatever stands behind it. -/
theorem stopped (h : Malformed tokens endLine) {fuel : Nat} (enough : fuelFor tokens ≤ fuel) :
    ∃ taken rest added report, tokens = taken ++ rest ∧ rest ≠ [] ∧
      (readProgram tokens endLine).reports = added ++ [report] ∧
      ∀ loops tail, Leads loops (declared fuel) (tokens ++ tail) (rest ++ tail)
        (stopping added report) := by
  obtain ⟨program, s, read, settled⟩ := readProgram_settles tokens endLine
  obtain ⟨t, others, first⟩ := List.exists_cons_of_ne_nil h.ne_nil
  obtain ⟨found, s', program', hd, ho, -⟩ := declarations_split (r := ⟨tokens, endLine, [], 0⟩)
    first (settled (fuel + 2) (by omega))
  obtain ⟨wrong, mem, isStop, inside⟩ := h.wrong
  rw [read] at mem ⊢
  have echo := (echoing fuel).declared ⟨tokens, endLine, [], 0⟩ trivial
  rw [declaration_succ, recovering] at hd
  generalize hx : declared fuel ⟨tokens, endLine, [], 0⟩ = result at echo hd
  cases echo with
  | exhausted => cases hd
  | @ok stmt taken rest added split many quiet again enters =>
    -- a declaration that ends with the statement leaves nothing that could be wrong
    cases hd
    obtain rfl : rest = [] := h.ends_whole ((concluding fuel).declared _ _ _ hx)
    rw [declarations_nil rfl] at ho
    cases ho
    have none : stops added = [] := quiet rfl fun t ht => h.braceless t (by
      rw [show tokens = taken ++ [] from split, List.append_nil]
      exact ht)
    exact absurd isStop (not_stop none mem)
  | complaint taken rest added missing split quiet again =>
    cases hd
    replace split : tokens = taken ++ rest := split
    have none : stops added = [] := quiet rfl (split ▸ h.braceless).of_append.1
    have finished : resume rest = [] := by
      by_cases empty : rest = []
      · rw [empty]
        rfl
      · simpa using h.resumes split empty []
    rw [declarations_nil finished] at ho
    cases ho
    have some : rest ≠ [] := by
      rintro rfl
      rcases List.mem_append.mp mem with mem | mem
      · exact not_stop none mem isStop
      · cases List.mem_singleton.mp mem
        exact inside rfl
    exact ⟨taken, rest, added, _, split, some, rfl, fun loops tail =>
      again none ((split ▸ h.terminated).of_append some) loops (.inr h.jumpless) tail⟩

/-- Wherever the statement stands, it is skipped with the complaints it gives alone. -/
theorem skipped (h : Malformed tokens endLine) (loops : Nat) (tail : List Token) :
    ∀ᶠ n in atTop, Leads loops (declaration n) (tokens ++ tail) tail
      (noting (readProgram tokens endLine).reports none) := by
  refine eventually_succ (eventually_atTop.mpr ⟨fuelFor tokens, fun fuel enough => ?_⟩)
  obtain ⟨taken, rest, added, report, split, some, reports, leads⟩ := h.stopped enough
  intro line earlier
  rw [declaration_succ, recovering, leads loops tail line earlier, reports]
  simp only [stopping, noting, h.resumes split some, List.append_assoc]

end Malformed

theorem declarations_rest {fuel : Nat} {r s : Reader} {program : List RawStmt}
    (h : declarations fuel r = .ok program s) : s.rest = [] := by
  induction fuel generalizing r program with
  | zero => cases h
  | succ fuel ih =>
    cases hr : r.rest with
    | nil =>
      rw [declarations_nil hr] at h
      cases h
      exact hr
    | cons t rest =>
      obtain ⟨found, s', others, -, ho, -⟩ := declarations_split hr h
      exact ih ho

theorem areDeclarations_iff {tokens : List Token} :
    AreDeclarations tokens ↔ ∃ stmts, Sequence tokens stmts := by
  constructor
  · intro h
    obtain ⟨program, s, read, settled⟩ := readProgram_settles tokens 0
    rw [AreDeclarations, read] at h
    exact ⟨program, .of_quiet (settled _ (Nat.le_refl _)) h⟩
  · rintro ⟨stmts, h⟩
    exact readProgram_passes h.passes 0

/-- An accepted program is read so with any other line of its end and behind other complaints. -/
theorem readProgram_accepted {tokens : List Token} {endLine : Nat}
    (accepted : (readProgram tokens endLine).reports = []) {n : Nat}
    (enough : fuelFor tokens ≤ n) :
    Takes 0 (declarations n) tokens (readProgram tokens endLine).statements [] := by
  obtain ⟨program, s, read, settled⟩ := readProgram_settles tokens endLine
  rw [read] at accepted ⊢
  obtain ⟨taken, split, takes⟩ := (declarations_echoes n).takes (settled n enough) accepted
  rw [declarations_rest (settled n enough)] at split takes
  rw [show tokens = taken ++ [] from split]
  exact takes [] (.inl rfl)

/-- Every place between two declarations of an accepted program is a gap. -/
theorem gap_outermost {tokens : List Token} {endLine : Nat}
    (accepted : (readProgram tokens endLine).reports = []) (i : Nat) :
    ∃ above below, tokens = above ++ below ∧ Gap above below ∧
      Sequence above ((readProgram tokens endLine).statements.take i) := by
  obtain ⟨program, s, read, settled⟩ := readProgram_settles tokens endLine
  rw [read] at accepted ⊢
  have sequence : Sequence tokens program :=
    .of_quiet (settled _ (Nat.le_refl _)) (congrArg stops accepted)
  obtain ⟨above, below, split, first, others⟩ := sequence.split i
  exact ⟨above, below, split, .outermost (areDeclarations_iff.mpr ⟨_, first⟩)
    (areDeclarations_iff.mpr ⟨_, others⟩), first⟩

/-- Every place between two declarations of a block or a body in an accepted program is a gap. -/
theorem gap_inside {outer inner : List Token} {brace : Token} {endLine : Nat}
    (accepted : (readProgram (outer ++ brace :: inner) endLine).reports = [])
    (opens : Opening outer brace) : ∃ inside close rest body,
      inner = inside ++ close :: rest ∧ Sequence inside body ∧ ∀ i, ∃ above below,
        inside = above ++ below ∧ Sequence above (body.take i) ∧
          Gap (outer ++ brace :: above) (below ++ close :: rest) := by
  have takes := readProgram_accepted accepted (Nat.le_refl _)
  obtain ⟨fuel, loops, body, rest, -, block, -⟩ :=
    (declarations_echoes _).enters (takes 0 []) rfl rfl rfl opens
  obtain ⟨inside, close, split, closes, sequence⟩ := blockBody_sequence block
  refine ⟨inside, close, rest, body, split, sequence, fun i => ?_⟩
  obtain ⟨above, below, parts, first, others⟩ := sequence.split i
  exact ⟨above, below, parts, first, .inside opens (areDeclarations_iff.mpr ⟨_, first⟩)
    (areDeclarations_iff.mpr ⟨_, others⟩) closes⟩

/-- What is read with enough fuel is the program. -/
theorem readProgram_leads {tokens rest : List Token} {program : List RawStmt}
    {added : List Report}
    (h : ∀ᶠ n in atTop, Leads 0 (declarations n) tokens rest (noting added program))
    (endLine : Nat) : readProgram tokens endLine = ⟨program, added⟩ := by
  obtain ⟨program', s, read, settled⟩ := readProgram_settles tokens endLine
  obtain ⟨fuel, leads, enough⟩ := (h.and (eventually_ge_atTop (fuelFor tokens))).exists
  cases (settled fuel enough).symm.trans (leads endLine [])
  exact read

/-- In a block the tokens are skipped as well, and the block is read as it was. -/
theorem entered_inserted {loops : Nat} {x : Reading (List RawStmt)} {front before tail inserted
    rest : List Token} {stmts program : List RawStmt} {added : List Report}
    (enters : Enters loops x front (before ++ tail))
    (takes : Takes loops x (front ++ (before ++ tail)) program rest)
    (sequence : Sequence before stmts) (hi : inserted ≠ [])
    (begins : ∀ t ∈ inserted.head?, ¬ EndsList t.kind) (next : NoElse (ahead tail))
    (skips : ∀ loops, ∀ᶠ n in atTop,
      Leads loops (declaration n) (inserted ++ tail) tail (noting added none))
    {endLine : Nat} (ends : ∀ s, x ⟨front ++ (before ++ (inserted ++ tail)), endLine, [], loops⟩ ≠
      .error .exhausted s) :
    x ⟨front ++ (before ++ (inserted ++ tail)), endLine, [], loops⟩ =
      .ok program ⟨rest, endLine, added, loops⟩ := by
  obtain ⟨fuel, loops', body, rest', leaves, whole, out, goes⟩ := enters
  have settled : ∀ᶠ n in atTop, Takes loops' (blockBody n) (before ++ tail) body rest' := by
    refine eventually_atTop.mpr ⟨fuel, fun n more line reports => ?_⟩
    have run : blockBody fuel _ = .ok body _ := whole line reports
    exact (Steady.settled (fun n => (steadies n).blockBody) (by simp [run]) more).trans run
  obtain ⟨n, leads, more⟩ := ((blockBody_lists.insertion sequence hi begins next (skips loops')
    settled).and (eventually_ge_atTop fuel)).exists
  have finished : ∀ s, blockBody fuel ⟨before ++ (inserted ++ tail), endLine, [], loops'⟩ ≠
      .error .exhausted s := by
    intro s exhausted
    obtain ⟨s', hs⟩ := out s
    exact ends s' ((goes _ endLine []).trans ((congrArg leaves exhausted).trans hs))
  have same := Steady.settled (fun n => (steadies n).blockBody) finished more
  calc x ⟨front ++ (before ++ (inserted ++ tail)), endLine, [], loops⟩
      = leaves (blockBody fuel ⟨before ++ (inserted ++ tail), endLine, [], loops'⟩) := goes _ _ _
    _ = leaves (.ok body ⟨rest', endLine, added, loops'⟩) :=
      congrArg leaves (same.symm.trans (leads endLine []))
    _ = leaves (blockBody fuel ⟨before ++ tail, endLine, added, loops'⟩) :=
      congrArg leaves (whole endLine added).symm
    _ = x ⟨front ++ (before ++ tail), endLine, added, loops⟩ := (goes _ _ _).symm
    _ = .ok program ⟨rest, endLine, added, loops⟩ := takes endLine added

/-- A malformed statement in a gap leaves what is read as it was. -/
theorem Gap.inserted {before behind inserted : List Token} {endLine line : Nat}
    (gap : Gap before behind) (accepted : (readProgram (before ++ behind) endLine).reports = [])
    (malformed : Malformed inserted line) (endLine' : Nat) :
    readProgram (before ++ inserted ++ behind) endLine' =
      ⟨(readProgram (before ++ behind) endLine).statements,
        (readProgram inserted line).reports⟩ := by
  rw [List.append_assoc]
  cases gap with
  | outermost above below =>
    obtain ⟨stmts, sequence⟩ := areDeclarations_iff.mp above
    obtain ⟨stmts', sequence'⟩ := areDeclarations_iff.mp below
    have next : NoElse (ahead (behind ++ [])) := sequence'.noElse (Option.some_ne_none _).symm
    rw [List.append_nil] at next
    have takes := eventually_atTop.mpr ⟨_, fun n => readProgram_accepted accepted (n := n)⟩
    exact readProgram_leads (declarations_lists.insertion sequence malformed.ne_nil
      malformed.begins next (malformed.skipped 0 behind) takes) endLine'
  | @inside outer brace before behind close rest opens above below closes =>
    obtain ⟨stmts, sequence⟩ := areDeclarations_iff.mp above
    obtain ⟨stmts', sequence'⟩ := areDeclarations_iff.mp below
    have next : NoElse (ahead (behind ++ close :: rest)) :=
      sequence'.noElse fun hk => absurd (closes.symm.trans (Option.some_inj.mp hk)) (by simp)
    have braced (tokens : List Token) : outer ++ brace :: before ++ tokens =
        outer ++ [brace] ++ (before ++ tokens) := by simp
    rw [braced] at accepted ⊢
    rw [braced]
    obtain ⟨program, s, read, settled⟩ := readProgram_settles
      (outer ++ [brace] ++ (before ++ (inserted ++ (behind ++ close :: rest)))) endLine'
    have run := settled _ (Nat.le_refl _)
    have fewer : fuelFor (outer ++ [brace] ++ (before ++ (behind ++ close :: rest))) ≤
        fuelFor (outer ++ [brace] ++ (before ++ (inserted ++ (behind ++ close :: rest)))) := by
      simp only [fuelFor, List.length_append]
      omega
    have takes := readProgram_accepted accepted fewer
    have enters : Enters 0 (declarations _) (outer ++ [brace])
        (before ++ (behind ++ close :: rest)) :=
      (declarations_echoes _).enters (takes 0 []) rfl rfl (List.append_assoc ..) opens
    have ends := entered_inserted enters takes sequence malformed.ne_nil malformed.begins next
      (fun loops => malformed.skipped loops _) fun _ out => by
        cases run.symm.trans out
    cases run.symm.trans ends
    exact read

/-- The places between two declarations of an accepted program are gaps, and so are those between two
declarations of a block or of the body of a function in it. A malformed statement in a gap changes
nothing but the complaints, which are those it gives alone. -/
theorem readProgram_inserted {tokens : List Token} {endLine : Nat}
    (accepted : (readProgram tokens endLine).reports = []) :
    (∀ i, ∃ above below, tokens = above ++ below ∧ Gap above below ∧
      Sequence above ((readProgram tokens endLine).statements.take i)) ∧
    (∀ outer brace inner, tokens = outer ++ brace :: inner → Opening outer brace →
      ∃ inside close rest body, inner = inside ++ close :: rest ∧ Sequence inside body ∧
        ∀ i, ∃ above below, inside = above ++ below ∧ Sequence above (body.take i) ∧
          Gap (outer ++ brace :: above) (below ++ close :: rest)) ∧
    ∀ before behind inserted line endLine', tokens = before ++ behind → Gap before behind →
      Malformed inserted line → readProgram (before ++ inserted ++ behind) endLine' =
        ⟨(readProgram tokens endLine).statements, (readProgram inserted line).reports⟩ := by
  refine ⟨gap_outermost accepted, ?inside, ?inserted⟩
  case inside =>
    rintro outer brace inner rfl opens
    exact gap_inside accepted opens
  case inserted =>
    rintro before behind inserted line endLine' rfl gap malformed
    exact gap.inserted accepted malformed endLine'

/-- The tokens of `fun f() { var a;`, the first of them on line 1. -/
def opened : List Token :=
  [keywordAt .fun_ 1, nameToken ⟨"f", 1⟩, symbolAt .leftParen 1, symbolAt .rightParen 1] ++
    symbolAt .leftBrace 1 :: [keywordAt .var_ 2, nameToken ⟨"a", 2⟩, symbolAt .semicolon 2]

def closed : List Token :=
  [keywordAt .print_ 4, nameToken ⟨"a", 4⟩, symbolAt .semicolon 4] ++
    symbolAt .rightBrace 5 :: []

def valueless : List Token := [keywordAt .print_ 3, symbolAt .plus 3, symbolAt .semicolon 3]

theorem readProgram_inserted_body : Gap opened closed ∧
    (readProgram (opened ++ closed) 5).reports = [] ∧ Malformed valueless 3 ∧
    readProgram (opened ++ valueless ++ closed) 5 =
      ⟨(readProgram (opened ++ closed) 5).statements,
        [⟨3, .atToken "+", .expected .expression⟩]⟩ := by
  have gap : Gap opened closed :=
    .inside ⟨rfl, by decide⟩ (by unfold AreDeclarations; decide)
      (by unfold AreDeclarations; decide) rfl
  have accepted : (readProgram (opened ++ closed) 5).reports = [] := by decide +kernel
  have alone : (readProgram valueless 3).reports =
      [⟨3, .atToken "+", .expected .expression⟩] := by decide
  have malformed : Malformed valueless 3 :=
    ⟨⟨symbolAt .semicolon 3, rfl, rfl⟩, by decide, by decide, by decide, by decide,
      ⟨_, alone ▸ List.mem_singleton.mpr rfl, by decide, by decide⟩⟩
  obtain ⟨-, -, inserted⟩ := readProgram_inserted accepted
  exact ⟨gap, accepted, malformed, alone ▸ inserted opened closed valueless 3 5 rfl gap malformed⟩

end Script.Grammar
