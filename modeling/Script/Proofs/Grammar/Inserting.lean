import Script.Proofs.Grammar.Ending
import Script.Proofs.Grammar.Joining

/-! Tokens between declarations.
Tokens in front of a declaration that are skipped with some complaints are skipped so in the midst of
a list of declarations. -/
namespace Script.Grammar

open Filter

/-- The tokens are declarations one after the other, read as these statements. -/
inductive Sequence : List Token → List RawStmt → Prop
  | nil : Sequence [] []
  | cons {t d s rest stmts} (begins : ¬ EndsList t.kind)
    (reads : ∀ tail, NoElse (ahead tail) → Passes declaration (t :: d ++ tail) (some s) tail)
    (more : Sequence rest stmts) : Sequence (t :: d ++ rest) (s :: stmts)

structure Lists (z : Nat → Reading (List RawStmt)) : Prop where
  steady : ∀ n, Steady (z n) (z (n + 1))
  echoes : ∀ n, Echoes Anywhere false 0 nothing (z n)
  step : ∀ n r t rest, r.rest = t :: rest → t.kind ≠ .symbol .rightBrace →
    z (n + 1) r = (declaration n >>= fun found => (found.toList ++ ·) <$> z n) r

theorem declarations_lists : Lists declarations where
  steady := declarations_steady
  echoes := declarations_echoes
  step _ _ _ _ hr _ := declarations_cons hr

theorem blockBody_lists : Lists blockBody where
  steady n := (steadies n).blockBody
  echoes n := (echoing n).blockBody.mono (Nat.zero_le 1) fun _ _ => trivial
  step n r t rest hr within := by
    have other : at_ (.symbol .rightBrace) r = .ok false r := at_other hr within
    simp only [blockBody, Rules.blockBody, Bind.bind, EStateM.bind, TokenReader.atEnd,
      TokenReader.at_, atEnd, hr, other]
    rfl

/-- A declaration no part of which was stopped is found. -/
theorem declaration_quiet {fuel : Nat} {r s : Reader} {found : Option RawStmt}
    (h : declaration (fuel + 1) r = .ok found s) (quiet : stops s.reports = stops r.reports) :
    ∃ stmt, found = some stmt ∧ declared fuel r = .ok stmt s := by
  have grown := (steadies fuel).declared.grows r
  rw [declaration_succ, recovering] at h
  cases hd : declared fuel r with
  | ok stmt s' =>
    rw [hd] at h
    cases h
    exact ⟨stmt, rfl, rfl⟩
  | error e s' =>
    rw [hd] at h grown
    cases grown with
    | exhausted => cases h
    | complaint isStop kept =>
      cases h
      have fewer := kept.length_le
      rw [← quiet, stops_append, stops_one isStop, List.length_append,
        List.length_singleton] at fewer
      omega

/-- A declaration no part of which was stopped is read so before anything but an `else`. -/
theorem declaration_reads {fuel : Nat} {r s : Reader} {found : Option RawStmt} {t : Token}
    {rest : List Token} (hr : r.rest = t :: rest) (h : declaration fuel r = .ok found s)
    (quiet : stops s.reports = stops r.reports) :
    ∃ d stmt, found = some stmt ∧ r.rest = t :: d ++ s.rest ∧ ¬ EndsList t.kind ∧
      ∀ tail, NoElse (ahead tail) → Passes declaration (t :: d ++ tail) (some stmt) tail := by
  have judged := (viables fuel).declaration.judged r trivial
  rw [h] at judged
  cases judged with
  | passed taken split many endLine quiet' again =>
    obtain ⟨fuel, rfl⟩ : ∃ n, fuel = n + 1 := by
      cases fuel with
      | zero => cases h
      | succ n => exact ⟨n, rfl⟩
    obtain ⟨stmt, rfl, found⟩ := declaration_quiet h quiet
    obtain ⟨u, d, rfl⟩ := List.exists_cons_of_ne_nil
      (List.ne_nil_of_length_pos (Nat.lt_of_lt_of_le Nat.zero_lt_two many))
    obtain ⟨rfl, -⟩ := List.cons.inj (hr.symm.trans split)
    refine ⟨d, stmt, rfl, split, fun ends => ?_, fun tail next => again tail (.inr next)⟩
    obtain ⟨e, refused⟩ := declared_refuses hr ends fuel
    cases found.symm.trans refused
  | stopped taken later split here =>
    obtain ⟨missing, more, stopped⟩ := here
    replace stopped : stops s.reports = _ := stopped
    rw [quiet] at stopped
    simp at stopped

namespace Sequence

variable {tokens tail : List Token} {stmts : List RawStmt}

theorem noElse (h : Sequence tokens stmts) (next : NoElse (ahead tail)) :
    NoElse (ahead (tokens ++ tail)) := by
  cases h with
  | nil => exact next
  | cons begins => exact fun hk => begins (.inl (Option.some_inj.mp hk))

/-- What is read without a part of it that is stopped. -/
theorem of_quiet {fuel : Nat} {r s : Reader} (h : declarations fuel r = .ok stmts s)
    (quiet : stops s.reports = stops r.reports) : Sequence r.rest stmts := by
  induction fuel generalizing r stmts with
  | zero => cases h
  | succ fuel ih =>
    cases hr : r.rest with
    | nil =>
      rw [declarations_nil hr] at h
      cases h
      exact .nil
    | cons t rest =>
      obtain ⟨found, s', others, hd, ho, rfl⟩ := declarations_split hr h
      have kept := (steadies fuel).declaration.kept hd
      obtain ⟨same, same'⟩ := reports_between kept ((declarations_steady fuel).kept ho) quiet
      obtain ⟨d, stmt, rfl, split, begins, reads⟩ := declaration_reads hr hd same
      rw [← hr, split]
      exact .cons begins reads (ih ho same')

theorem passes (h : Sequence tokens stmts) : Passes declarations tokens stmts [] := by
  induction h with
  | nil => exact .succ <| .of_takes 0 fun _ _ _ => Leads.atEnd_nil.bind .refl
  | @cons t d s rest stmts begins reads more ih =>
    have next : NoElse (ahead (rest ++ [])) := more.noElse nofun
    rw [List.append_nil] at next
    have others : Passes (fun m => ((some s).toList ++ ·) <$> declarations m) rest (s :: stmts)
        [] := ih.bind (.pure _ [])
    exact .succ <| .agree ((reads rest next).bind
      (f := fun m found => (found.toList ++ ·) <$> declarations m) others)
      fun m r hr => declarations_cons hr

/-- A sequence can be split between any two of its declarations. -/
theorem split (h : Sequence tokens stmts) (i : Nat) : ∃ above below, tokens = above ++ below ∧
    Sequence above (stmts.take i) ∧ Sequence below (stmts.drop i) := by
  induction h generalizing i with
  | nil => exact ⟨[], [], rfl, by simpa using nil, by simpa using nil⟩
  | @cons t d s rest stmts begins reads more ih =>
    cases i with
    | zero => exact ⟨[], t :: d ++ rest, rfl, .nil, .cons begins reads more⟩
    | succ i =>
      obtain ⟨above, below, rfl, first, others⟩ := ih i
      exact ⟨t :: d ++ above, below, (List.append_assoc _ _ _).symm, .cons begins reads first,
        others⟩

end Sequence

namespace Lists

variable {z : Nat → Reading (List RawStmt)} {n loops : Nat} {t : Token}
  {d before inserted tail rest : List Token} {s : RawStmt} {stmts body : List RawStmt}
  {added : List Report}

/-- What a list takes is taken by its first declaration and by the others. -/
theorem parts (lists : Lists z) (within : t.kind ≠ .symbol .rightBrace)
    (takes : Takes loops (z (n + 1)) (t :: tail) body rest) :
    ∃ found others taken middle, body = found.toList ++ others ∧ t :: tail = taken ++ middle ∧
      Takes loops (z n) middle others rest ∧
      ∀ tail', tail'.head? = middle.head? ∨ NoElse (ahead tail') →
        Takes loops (declaration n) (taken ++ tail') found tail' := by
  have steps : Takes loops (declaration n >>= fun found => (found.toList ++ ·) <$> z n) (t :: tail)
      body rest := fun endLine reports => by rw [← lists.step n _ t tail rfl within, takes]
  obtain ⟨found, taken, middle, split, others, first⟩ :=
    (echoing n).declaration.bind_takes (fun _ => (lists.echoes n).map) steps
  obtain ⟨more, rfl, later⟩ := (lists.echoes n).map_takes others
  exact ⟨found, more, taken, middle, rfl, split, later, first⟩

theorem split (lists : Lists z) (begins : ¬ EndsList t.kind)
    (reads : ∀ r : Reader, r.rest = t :: d ++ tail → ∃ noted, stops noted = stops r.reports ∧
      declaration n r = .ok (some s) { r with rest := tail, reports := noted })
    (takes : Takes loops (z (n + 1)) (t :: d ++ tail) body rest) :
    ∃ others, body = s :: others ∧ Takes loops (z n) tail others rest ∧
      ∀ tail', NoElse (ahead tail') →
        Takes loops (declaration n) (t :: d ++ tail') (some s) tail' := by
  obtain ⟨found, others, taken, middle, rfl, split, later, first⟩ :=
    lists.parts (fun hk => begins (.inr hk)) takes
  obtain ⟨noted, -, run⟩ := reads ⟨t :: d ++ tail, 0, [], loops⟩ rfl
  rw [show t :: d ++ tail = taken ++ middle from split] at run
  cases run.symm.trans (first middle (.inl rfl) 0 [])
  obtain rfl : t :: d = taken := List.append_cancel_right split
  exact ⟨others, rfl, later, fun tail' next => first tail' (.inr next)⟩

/-- Tokens that are skipped in front of what stands behind a sequence of declarations are skipped
in the midst of the list. -/
theorem insertion (lists : Lists z) (sequence : Sequence before stmts) (hi : inserted ≠ [])
    (begins : ∀ t ∈ inserted.head?, ¬ EndsList t.kind) (next : NoElse (ahead tail))
    (skips : ∀ᶠ n in atTop,
      Leads loops (declaration n) (inserted ++ tail) tail (noting added none))
    (takes : ∀ᶠ n in atTop, Takes loops (z n) (before ++ tail) body rest) :
    ∀ᶠ n in atTop, Leads loops (z n) (before ++ (inserted ++ tail)) rest (noting added body) := by
  induction sequence generalizing body with
  | nil =>
    obtain ⟨t, others, rfl⟩ := List.exists_cons_of_ne_nil hi
    refine eventually_succ ?_
    filter_upwards [skips, takes] with n skips takes endLine reports
    rw [lists.step n _ t (others ++ tail) rfl fun hk => begins t rfl (.inr hk)]
    have behind : Leads loops ((([] : List RawStmt) ++ ·) <$> z n) tail rest (noting [] body) := by
      rw [noting_nil]
      exact takes.map
    have whole := skips.noted (f := fun found => (found.toList ++ ·) <$> z n) behind
    rw [List.append_nil] at whole
    exact whole endLine reports
  | @cons t d s more stmts begins' reads sequence ih =>
    have untouched : NoElse (ahead (more ++ tail)) := sequence.noElse next
    have touched : NoElse (ahead (more ++ (inserted ++ tail))) := by
      obtain ⟨u, others, rfl⟩ := List.exists_cons_of_ne_nil hi
      exact sequence.noElse fun hk => begins u rfl (.inl (Option.some_inj.mp hk))
    have parts : ∀ᶠ n in atTop, ∃ others, body = s :: others ∧
        Takes loops (z n) (more ++ tail) others rest ∧
        Takes loops (declaration n) (t :: d ++ (more ++ (inserted ++ tail))) (some s)
          (more ++ (inserted ++ tail)) := by
      filter_upwards [reads _ untouched, (tendsto_add_atTop_nat 1).eventually takes]
        with n reads takes
      rw [List.append_assoc] at takes
      obtain ⟨others, hb, later, first⟩ := lists.split begins' reads takes
      exact ⟨others, hb, later, first _ touched⟩
    obtain ⟨_, others, rfl, -⟩ := parts.exists
    have later := ih (parts.mono fun n ⟨others', hb, later, _⟩ => by
      obtain ⟨-, rfl⟩ := List.cons.inj hb
      exact later)
    refine eventually_succ ?_
    filter_upwards [parts, later] with n ⟨_, _, _, first⟩ later endLine reports
    rw [List.append_assoc, lists.step n _ t (d ++ (more ++ (inserted ++ tail))) rfl
      fun hk => begins' (.inr hk)]
    have behind : Leads loops (([s] ++ ·) <$> z n) (more ++ (inserted ++ tail)) rest
        (noting added (s :: others)) := later.noted_map
    exact (first.bind (f := fun found => (found.toList ++ ·) <$> z n) behind) endLine reports

end Lists

theorem blockBody_sequence {n loops : Nat} {tokens rest : List Token} {body : List RawStmt}
    (takes : Takes loops (blockBody n) tokens body rest) : ∃ inside close,
      tokens = inside ++ close :: rest ∧ close.kind = .symbol .rightBrace ∧
        Sequence inside body := by
  induction n generalizing tokens body with
  | zero => cases takes 0 []
  | succ n ih =>
    cases tokens with
    | nil => cases takes 0 []
    | cons t tail =>
      by_cases hk : t.kind = .symbol .rightBrace
      · have closes : Takes loops (blockBody (n + 1)) (t :: tail) [] tail :=
          Leads.atEnd_cons.bind ((Leads.at_yes hk).bind ((expect_takes hk).bind .refl))
        cases (takes 0 []).symm.trans (closes 0 [])
        exact ⟨[], t, rfl, hk, .nil⟩
      · obtain ⟨found, others, taken, middle, rfl, split, later, first⟩ :=
          blockBody_lists.parts hk takes
        obtain ⟨inside, close, rfl, closes, more⟩ := ih later
        have run := first _ (.inl rfl) 0 []
        obtain ⟨d, stmt, rfl, split', begins, reads⟩ := declaration_reads split.symm run rfl
        obtain rfl : taken = t :: d := List.append_cancel_right split'
        exact ⟨t :: d ++ inside, close, split.trans (List.append_assoc _ _ _).symm, closes,
          .cons begins reads more⟩

end Script.Grammar
