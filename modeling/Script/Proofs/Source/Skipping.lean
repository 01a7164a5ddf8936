import Script.Proofs.Source.Comments
import Script.Proofs.Source.Joining

/-! A block comment passed by position.
The place behind the opening mark is a position and a line, and the comments that are open are
counted. -/
namespace Script.Source

/-- Where a comment was left: behind its closing mark, or at the end of the source. -/
structure Skip where
  position : Nat
  line : Nat
  closed : Bool
deriving Repr, DecidableEq

def skipFrom (source : List Char) : Nat → Nat → Nat → Skip
  | 0, position, line => ⟨position, line, true⟩
  | depth + 1, position, line =>
    if inside : position < source.length then
      if source[position] = '/' ∧ source[position + 1]? = some '*' then
        skipFrom source (depth + 2) (position + 2) line
      else if source[position] = '*' ∧ source[position + 1]? = some '/' then
        skipFrom source depth (position + 2) line
      else
        skipFrom source (depth + 1) (position + 1)
          (if source[position] = '\n' then line + 1 else line)
    else ⟨position, line, false⟩
termination_by _ position => source.length - position

variable {source s rest : List Char} {c : Char} {depth position line : Nat}

theorem skipFrom_closed : skipFrom source 0 position line = ⟨position, line, true⟩ := by
  rw [skipFrom]

theorem skipFrom_end (h : source.drop position = []) :
    skipFrom source (depth + 1) position line = ⟨position, line, false⟩ := by
  rw [skipFrom, dif_neg (Nat.not_lt.mpr (List.drop_eq_nil_iff.mp h))]

theorem skipFrom_cons (h : source.drop position = c :: s) :
    skipFrom source (depth + 1) position line =
      if c = '/' ∧ s.head? = some '*' then skipFrom source (depth + 2) (position + 2) line
      else if c = '*' ∧ s.head? = some '/' then skipFrom source depth (position + 2) line
      else skipFrom source (depth + 1) (position + 1) (if c = '\n' then line + 1 else line) := by
  have inside : position < source.length := by
    rw [← Nat.not_le, ← List.drop_eq_nil_iff, h]
    exact List.cons_ne_nil c s
  have here : source[position] = c := by
    rw [List.drop_eq_getElem_cons inside] at h
    exact (List.cons.inj h).1
  have next : source[position + 1]? = s.head? := by
    rw [← List.getElem?_drop, h, List.head?_eq_getElem?]
    rfl
  rw [skipFrom, dif_pos inside, here, next]

/-- The loop stops where the comments that are open are closed, or at the end of the source. -/
structure Skips (source : List Char) (depth position line : Nat) (s : List Char) : Prop where
  closed : ∀ rest, afterComment? depth s = some rest → ∃ passed, s = passed ++ rest ∧
    skipFrom source depth position line = ⟨position + passed.length, line + newlines passed, true⟩
  unclosed : afterComment? depth s = none →
    skipFrom source depth position line = ⟨position + s.length, line + newlines s, false⟩

theorem Skips.step {depth' : Nat} (passed : List Char)
    (h : Skips source depth' (position + passed.length) (line + newlines passed) s)
    (counts : afterComment? depth (passed ++ s) = afterComment? depth' s)
    (skips : skipFrom source depth position line =
      skipFrom source depth' (position + passed.length) (line + newlines passed)) :
    Skips source depth position line (passed ++ s) := by
  constructor
  · intro rest hr
    obtain ⟨more, rfl, stop⟩ := h.closed rest (counts ▸ hr)
    refine ⟨passed ++ more, (List.append_assoc ..).symm, ?_⟩
    rw [skips, stop, List.length_append, newlines_append, Nat.add_assoc, Nat.add_assoc]
  · intro hr
    rw [skips, h.unclosed (counts ▸ hr), List.length_append, newlines_append, Nat.add_assoc,
      Nat.add_assoc]

theorem skipFrom_stops (h : source.drop position = s) : Skips source depth position line s := by
  fun_induction afterComment? depth s generalizing position line with
  | case1 s =>
    refine ⟨fun rest hr => ⟨[], ?_, skipFrom_closed⟩, fun hr => ?_⟩
    · rw [afterComment?] at hr
      exact Option.some.inj hr
    · rw [afterComment?] at hr
      cases hr
  | case2 depth =>
    refine ⟨fun rest hr => ?_, fun _ => skipFrom_end h⟩
    rw [afterComment?] at hr
    cases hr
  | case3 depth s ih =>
    have behind : source.drop (position + 2) = s := by rw [← List.drop_drop, h]; rfl
    refine Skips.step ['/', '*'] (ih behind) rfl ?_
    rw [skipFrom_cons h, if_pos ⟨rfl, rfl⟩]
    rfl
  | case4 depth s ih =>
    have behind : source.drop (position + 2) = s := by rw [← List.drop_drop, h]; rfl
    refine Skips.step ['*', '/'] (ih behind) rfl ?_
    rw [skipFrom_cons h, if_neg (fun opens => absurd opens.1 (by decide)), if_pos ⟨rfl, rfl⟩]
    rfl
  | case5 depth c s opens closes ih =>
    have behind : source.drop (position + 1) = s := by rw [← List.drop_drop, h]; rfl
    have opener : ¬ (c = '/' ∧ s.head? = some '*') := by
      rintro ⟨rfl, hs⟩
      obtain ⟨t, rfl⟩ := List.head?_eq_some_iff.mp hs
      exact opens t rfl rfl
    have closer : ¬ (c = '*' ∧ s.head? = some '/') := by
      rintro ⟨rfl, hs⟩
      obtain ⟨t, rfl⟩ := List.head?_eq_some_iff.mp hs
      exact closes t rfl rfl
    have lines : (if c = '\n' then line + 1 else line) = line + newlines [c] := by
      by_cases hc : c = '\n'
      · rw [if_pos hc, hc]
        rfl
      · rw [if_neg hc, newlines, List.count_singleton, if_neg (by simpa using hc)]
        rfl
    have counts : afterComment? (depth + 1) ([c] ++ s) = afterComment? (depth + 1) s := by
      rw [List.singleton_append, afterComment?]
      · exact opens
      · exact closes
    refine Skips.step [c] (ih behind) counts ?_
    rw [skipFrom_cons h, if_neg opener, if_neg closer, lines]
    rfl

/-- The loop stops where the comment that is cut ends, and tells whether it is closed. -/
theorem skipFrom_cut (h : source.drop position = s) (line : Nat) :
    ∃ passed rest closed, s = passed ++ rest ∧
      skipFrom source 1 position line = ⟨position + passed.length, line + newlines passed, closed⟩ ∧
      cutComment s =
        (⟨if closed then .blockComment else .openComment, '/' :: '*' :: passed⟩, rest) ∧
      (closed = true → Closes passed) ∧
      (closed = false → rest = [] ∧ ∀ u, Closes u → ¬ u <+: s) := by
  have skips : Skips source 1 position line s := skipFrom_stops h
  cases hr : afterComment? 1 s with
  | some rest =>
    obtain ⟨passed, rfl, stop⟩ := skips.closed rest hr
    obtain ⟨u, closes, same⟩ := afterComment?_eq_some.mp hr
    cases List.append_cancel_right same
    refine ⟨passed, rest, true, rfl, stop, ?_, fun _ => closes, fun h => absurd h (by decide)⟩
    rw [cutComment, hr]
    simp
  | none =>
    refine ⟨s, [], false, (List.append_nil s).symm, skips.unclosed hr, ?_,
      fun h => absurd h (by decide), fun _ => ⟨rfl, afterComment?_eq_none.mp hr⟩⟩
    rw [cutComment, hr]
    rfl

/-- What closes a comment is found only once. -/
theorem Closes.unique {u v : List Char} (h : Closes u) (h' : Closes v) (hu : u <+: s)
    (hv : v <+: s) : u = v := by
  obtain ⟨rest, rfl⟩ := hu
  obtain ⟨rest', hs⟩ := hv
  have left : afterComment? 1 (u ++ rest) = some rest := afterComment?_eq_some.mpr ⟨u, h, rfl⟩
  have right : afterComment? 1 (u ++ rest) = some rest' :=
    afterComment?_eq_some.mpr ⟨v, h', hs.symm⟩
  cases left.symm.trans right
  exact (List.append_cancel_right hs).symm

/-- Behind any opening mark of a source, a comment is passed as closed exactly if a text that closes
it begins there. There is one such text at most, and its end is where the comment ends; a comment
that is not closed ends with the source. The line grows by the newlines that are passed, and the
source goes on where the comment ends, with the pieces and lines of what is behind it. -/
theorem comment_skipped (before behind : List Char) (line : Nat) :
    let source := before ++ '/' :: '*' :: behind
    let start := before.length + 2
    let skip := skipFrom source 1 start line
    let passed := behind.take (skip.position - start)
    (skip.closed = true ↔ ∃ u, Closes u ∧ u <+: behind) ∧
    (∀ u, Closes u → u <+: behind → u = passed ∧ skip.position = start + u.length) ∧
    (skip.closed = false → skip.position = source.length) ∧
    skip.line = line + newlines passed ∧
    start ≤ skip.position ∧ skip.position ≤ source.length ∧
    located line (pieces ('/' :: '*' :: behind)) =
      (line, ⟨if skip.closed then .blockComment else .openComment, '/' :: '*' :: passed⟩) ::
        located skip.line (pieces (source.drop skip.position)) := by
  intro source start skip passed
  have begins : source.drop start = behind := by
    have opening : source.drop before.length = '/' :: '*' :: behind := List.drop_left
    rw [← List.drop_drop, opening]
    rfl
  obtain ⟨consumed, rest, closed, text, stop, cut, closes, unclosed⟩ :=
    skipFrom_cut begins line
  have length : source.length = start + consumed.length + rest.length := by
    simp only [source, start, text, List.length_append, List.length_cons]
    omega
  have stop : skip = ⟨start + consumed.length, line + newlines consumed, closed⟩ := stop
  have taken : passed = consumed := by
    simp only [passed, stop, text, Nat.add_sub_cancel_left, List.take_left]
  have left : source.drop skip.position = rest := by
    rw [stop, ← List.drop_drop, begins, text, List.drop_left]
  have found (u : List Char) (hu : Closes u) (here : u <+: behind) :
      closed = true ∧ u = consumed := by
    cases closed with
    | false => exact absurd here ((unclosed rfl).2 u hu)
    | true => exact ⟨rfl, hu.unique (closes rfl) here (text ▸ List.prefix_append consumed rest)⟩
  have pieced : pieces ('/' :: '*' :: behind) =
      ⟨if closed then .blockComment else .openComment, '/' :: '*' :: consumed⟩ :: pieces rest := by
    rw [pieces, show Source.cut '/' ('*' :: behind) = cutComment behind from rfl, cut]
  rw [taken, left, stop]
  refine ⟨⟨fun h => ⟨consumed, closes h, text ▸ List.prefix_append consumed rest⟩, ?_⟩, ?_, ?_, rfl,
    Nat.le_add_right _ _, ?_, ?_⟩
  · rintro ⟨u, hu, here⟩
    exact (found u hu here).1
  · intro u hu here
    have same := (found u hu here).2
    exact ⟨same, same ▸ rfl⟩
  · intro h
    rw [length, (unclosed h).1]
    rfl
  · rw [length]
    exact Nat.le_add_right _ _
  · rw [pieced, located]
    rfl

end Script.Source
