import Script.Proofs.Cursor.Walk
import Script.Proofs.Grammar.Fuel
import Script.Proofs.Result

/-! A cursor where a reader is.
What the cursor sees and what it passes is what the reader has in front of it, and behind a
complaint both go on from the same token. -/
namespace Script

open Grammar (Reader stops resume resumeAfter)

variable {tokens : List Token} {t : Token} {c d e : Cursor} {r s : Reader}

/-- What the reader has in front of it. -/
def Grammar.Reader.mark (r : Reader) : Mark :=
  match r.rest with
  | [] => .ending r.endLine
  | t :: _ => .token t

theorem mark_report (r : Reader) (complaint : Complaint) :
    r.mark.report complaint = r.report complaint := by
  unfold Reader.mark Reader.report
  cases r.rest <;> rfl

theorem mark_leads (r : Reader) (kind : Kind) : (r.mark.kind? == some kind) = r.leads kind := by
  unfold Reader.mark Reader.leads
  cases r.rest <;> rfl

theorem mark_token (r : Reader) : r.mark.token? = r.rest.head? := by
  unfold Reader.mark
  cases r.rest <;> rfl

namespace Walk

/-- The cursor stands in the list where the reader does, with the same complaints and loops. -/
structure Agrees (tokens : List Token) (c : Cursor) (r : Reader) : Prop where
  marks : c.marks = tokens.map .token ++ [.ending r.endLine]
  within : c.position ≤ tokens.length
  rest : r.rest = tokens.drop c.position
  reports : c.reports = r.reports
  loops : c.loops = r.loops

namespace Agrees

theorem looked (h : Agrees tokens c r) : Agrees tokens c.looked r :=
  ⟨h.marks, h.within, h.rest, h.reports, h.loops⟩

theorem attempted (h : Agrees tokens c r) (start : Nat) (raised : Option Report) :
    Agrees tokens (c.attempted start raised) r :=
  ⟨h.marks, h.within, h.rest, h.reports, h.loops⟩

theorem noted (h : Agrees tokens c r) (report : Report) :
    Agrees tokens { c with reports := c.reports ++ [report] }
      { r with reports := r.reports ++ [report] } :=
  ⟨h.marks, h.within, h.rest, congrArg (· ++ [report]) h.reports, h.loops⟩

theorem around (h : Agrees tokens c r) {m n : Nat} (same : m = n) :
    Agrees tokens { c with loops := m } { r with loops := n } :=
  ⟨h.marks, h.within, h.rest, h.reports, same⟩

theorem length (h : Agrees tokens c r) : c.marks.length = tokens.length + 1 := by
  rw [h.marks, List.length_append, List.length_map, List.length_singleton]

theorem before_end (h : Agrees tokens c r) {rest : List Token} (hr : r.rest = t :: rest) :
    c.position < tokens.length := by
  have left := congrArg List.length (h.rest.symm.trans hr)
  rw [List.length_drop, List.length_cons] at left
  omega

theorem at_end (h : Agrees tokens c r) (hr : r.rest = []) : c.position = tokens.length :=
  Nat.le_antisymm h.within (List.drop_eq_nil_iff.mp (h.rest.symm.trans hr))

theorem passed (h : Agrees tokens c r) {rest : List Token} (hr : r.rest = t :: rest) :
    Agrees tokens c.passed { r with rest := rest } where
  marks := h.marks
  within := h.before_end hr
  rest := by
    show rest = tokens.drop (c.position + 1)
    rw [← List.tail_drop, ← h.rest, hr, List.tail_cons]
  reports := h.reports
  loops := h.loops

theorem mark_at (h : Agrees tokens c r) : c.marks[c.position]? = some r.mark := by
  rw [h.marks, Reader.mark]
  cases hr : r.rest with
  | nil =>
    rw [h.at_end hr, List.getElem?_append_right (Nat.le_of_eq (List.length_map ..)),
      List.length_map, Nat.sub_self]
    rfl
  | cons t rest =>
    have next : tokens[c.position]? = some t := by
      rw [← List.head?_drop, ← h.rest, hr, List.head?_cons]
    rw [List.getElem?_append_left (by rw [List.length_map]; exact h.before_end hr),
      List.getElem?_map, next]
    rfl

theorem current (h : Agrees tokens c r) : Walk.current c = .ok r.mark c.looked := by
  show Walk.look (some c.position) c = _
  rw [Walk.look, Option.bind_some, h.mark_at]

theorem ahead (h : Agrees tokens c r) :
    Walk.ahead 1 c = .ok { r with rest := r.rest.tail }.mark c.looked := by
  have place : c.marks[min (c.position + 1) (c.marks.length - 1)]?
      = some { r with rest := r.rest.tail }.mark := by
    have last : c.marks.length - 1 = tokens.length := by rw [h.length, Nat.add_sub_cancel]
    cases hr : r.rest with
    | nil =>
      have stays := h.mark_at
      rw [Reader.mark, hr] at stays
      rw [last, ← h.at_end hr, Nat.min_eq_right (Nat.le_succ _)]
      exact stays
    | cons t rest =>
      rw [last, Nat.min_eq_left (h.before_end hr)]
      exact (h.passed hr).mark_at
  show Walk.look (some (min (c.position + 1) (c.marks.length - 1))) c = _
  rw [Walk.look, Option.bind_some, place]

theorem atEnd (h : Agrees tokens c r) : Walk.atEnd c = .ok r.rest.isEmpty c.looked := by
  rw [Walk.atEnd, ok_bind h.current, mark_token]
  cases r.rest <;> rfl

theorem at_ (h : Agrees tokens c r) (kind : Kind) :
    Walk.at_ kind c = .ok (r.leads kind) c.looked := by
  rw [Walk.at_, ok_bind h.current, mark_leads]
  rfl

theorem advance (h : Agrees tokens c r) {rest : List Token} (hr : r.rest = t :: rest) :
    Walk.advance c = .ok (.token t) c.looked.looked.passed := by
  rw [Walk.advance, ok_bind h.current, ok_bind h.looked.atEnd, Reader.mark, hr]
  rfl

theorem advance_end (h : Agrees tokens c r) (hr : r.rest = []) :
    Walk.advance c = .ok (.ending r.endLine) c.looked.looked := by
  rw [Walk.advance, ok_bind h.current, ok_bind h.looked.atEnd, Reader.mark, hr]
  rfl

theorem accept (h : Agrees tokens c r) {kind : Kind} (leads : r.leads kind = true)
    {rest : List Token} (hr : r.rest = t :: rest) :
    Walk.accept kind c = .ok true c.looked.looked.looked.passed := by
  rw [Walk.accept, ok_bind (h.at_ kind), leads]
  show (Walk.advance >>= fun _ => pure true) c.looked = _
  rw [ok_bind (h.looked.advance hr)]
  rfl

theorem accept_no (h : Agrees tokens c r) {kind : Kind} (no : r.leads kind = false) :
    Walk.accept kind c = .ok false c.looked := by
  rw [Walk.accept, ok_bind (h.at_ kind), no]
  rfl

end Agrees

def Behind (t : Token) (c : Cursor) : Prop :=
  ∃ i, c.position = i + 1 ∧ c.marks[i]? = some (.token t)

theorem Agrees.behind (h : Agrees tokens c r) {rest : List Token} (hr : r.rest = t :: rest) :
    Behind t c.passed := by
  have place := h.mark_at
  rw [Reader.mark, hr] at place
  exact ⟨c.position, rfl, place⟩

theorem Behind.previous (h : Behind t c) : Walk.previous c = .ok (.token t) c.looked := by
  obtain ⟨i, position, mark⟩ := h
  obtain ⟨marks, place, reports, loops, trail, attempts⟩ := c
  cases position
  show Walk.look (some i) _ = _
  rw [Walk.look, Option.bind_some, mark]

/-- The cursor went on or stayed, and what it looked at on its way stands in order. -/
structure Onward (c d : Cursor) : Prop where
  forward : c.position ≤ d.position
  trail : ∃ seen, d.trail = c.trail ++ seen ∧ seen.Pairwise (· ≤ ·) ∧
    ∀ i ∈ seen, c.position ≤ i ∧ i ≤ d.position

namespace Onward

theorem of_same (position : d.position = c.position) (trail : d.trail = c.trail) : Onward c d :=
  ⟨Nat.le_of_eq position.symm, [], by rw [trail, List.append_nil], .nil, nofun⟩

theorem looked (c : Cursor) : Onward c c.looked :=
  ⟨Nat.le_refl _, [c.position], rfl, List.pairwise_singleton _ _, by simp [Cursor.looked]⟩

theorem passed (c : Cursor) : Onward c c.passed :=
  ⟨Nat.le_succ _, [], (List.append_nil _).symm, .nil, nofun⟩

theorem trans (h : Onward c d) (h' : Onward d e) : Onward c e := by
  obtain ⟨forward, seen, trail, sorted, within⟩ := h
  obtain ⟨forward', seen', trail', sorted', within'⟩ := h'
  refine ⟨Nat.le_trans forward forward', seen ++ seen', ?_, ?_, ?_⟩
  · rw [trail', trail, List.append_assoc]
  · exact List.pairwise_append.mpr ⟨sorted, sorted', fun i hi j hj =>
      Nat.le_trans (within i hi).2 (within' j hj).1⟩
  · intro i hi
    rcases List.mem_append.mp hi with hi | hi
    · exact ⟨(within i hi).1, Nat.le_trans (within i hi).2 forward'⟩
    · exact ⟨Nat.le_trans forward (within' i hi).1, (within' i hi).2⟩

end Onward

theorem distinct_append {made made' : List Attempt} (distinct : (made.map Attempt.start).Nodup)
    (distinct' : (made'.map Attempt.start).Nodup)
    (apart : ∀ a ∈ made, ∀ b ∈ made', a.start ≠ b.start) :
    ((made ++ made').map Attempt.start).Nodup := by
  rw [List.map_append]
  apply List.nodup_append.mpr
  constructor
  · exact distinct
  constructor
  · exact distinct'
  intro i hi j hj
  obtain ⟨a, ha, rfl⟩ := List.mem_map.mp hi
  obtain ⟨b, hb, rfl⟩ := List.mem_map.mp hj
  exact apart a ha b hb

/-- The cursor went on over declarations, which began behind the first place if `inside` is set. -/
structure Moved (inside : Bool) (c d : Cursor) : Prop extends Onward c d where
  attempts : ∃ made, d.attempts = c.attempts ++ made ∧ (made.map Attempt.start).Nodup ∧
    (∀ a ∈ made, c.position + inside.toNat ≤ a.start ∧ a.start < a.stop ∧ a.stop ≤ d.position) ∧
    stops d.reports = stops c.reports ++ made.filterMap Attempt.raised

namespace Moved

variable {inside inside' : Bool}

theorem of_onward (h : Onward c d) (attempts : d.attempts = c.attempts)
    (reports : stops d.reports = stops c.reports) : Moved inside c d :=
  ⟨h, [], by rw [attempts, List.append_nil], .nil, List.forall_mem_nil _,
    by rw [reports, List.filterMap_nil, List.append_nil]⟩

theorem refl (c : Cursor) : Moved inside c c := of_onward (.of_same rfl rfl) rfl rfl

theorem looked (c : Cursor) : Moved inside c c.looked := of_onward (.looked c) rfl rfl

theorem passed (c : Cursor) : Moved inside c c.passed := of_onward (.passed c) rfl rfl

theorem trans {start : Bool} (h : Moved inside c d) (h' : Moved inside' d e)
    (first : start.toNat ≤ inside.toNat)
    (second : c.position + start.toNat ≤ d.position + inside'.toNat) : Moved start c e := by
  refine ⟨h.toOnward.trans h'.toOnward, ?_⟩
  have forward := h.forward
  have forward' := h'.forward
  obtain ⟨made, attempts, distinct, bounds, reports⟩ := h.attempts
  obtain ⟨made', attempts', distinct', bounds', reports'⟩ := h'.attempts
  refine ⟨made ++ made', by rw [attempts', attempts, List.append_assoc], ?_, ?_, ?_⟩
  · apply distinct_append distinct distinct'
    intro a ha b hb
    -- those of the first part end before those of the second begin
    have := bounds a ha
    have := bounds' b hb
    omega
  · intro a ha
    rcases List.mem_append.mp ha with ha | ha
    · have := bounds a ha
      exact ⟨by omega, this.2.1, Nat.le_trans this.2.2 forward'⟩
    · have := bounds' a ha
      exact ⟨by omega, this.2⟩
  · rw [reports', reports, List.filterMap_append, List.append_assoc]

end Moved

/-- The declaration that began at the first place ends. Those that were read within it began
further on. -/
theorem Moved.attempted {raised : Option Report} (moved : Moved true c d) (onward : Onward d e)
    (taken : c.position < e.position) (attempts : e.attempts = d.attempts)
    (reports : stops e.reports = stops d.reports ++ raised.toList) :
    Moved false c (e.attempted c.position raised) := by
  obtain ⟨made, attempts', distinct, bounds, reports'⟩ := moved.attempts
  have whole := moved.toOnward.trans onward
  refine ⟨⟨whole.forward, whole.trail⟩, made ++ [⟨c.position, e.position, raised⟩], ?_, ?_, ?_, ?_⟩
  · rw [← List.append_assoc, ← attempts', ← attempts]
    rfl
  · refine distinct_append distinct (List.pairwise_singleton _ _) ?_
    intro a ha b hb
    rw [List.mem_singleton.mp hb]
    exact Nat.ne_of_gt (bounds a ha).1
  · intro a ha
    rcases List.mem_append.mp ha with ha | ha
    · have within := bounds a ha
      exact ⟨Nat.le_of_succ_le within.1, within.2.1, Nat.le_trans within.2.2 onward.forward⟩
    · rw [List.mem_singleton.mp ha]
      exact ⟨Nat.le_refl _, taken, Nat.le_refl _⟩
  · rw [List.filterMap_append, ← List.append_assoc, ← reports']
    show stops e.reports = _
    rw [reports]
    cases raised <;> rfl

theorem skip_end (n : Nat) (agrees : Agrees tokens c r) (hr : r.rest = []) :
    Walk.skip (n + 1) c = .ok () c.looked := by
  rw [Walk.skip, ok_bind agrees.atEnd, hr]
  rfl

theorem skip_next (n : Nat) (agrees : Agrees tokens c r) (behind : Behind t c) {u : Token}
    {rest : List Token} (hr : r.rest = u :: rest) :
    Walk.skip (n + 1) c =
      if t.kind = .symbol .semicolon then .ok () c.looked.looked
      else if Grammar.opensStatement u then .ok () c.looked.looked.looked
      else Walk.skip n c.looked.looked.looked.looked.looked.passed := by
  have seen : Walk.previous c.looked = .ok (.token t) c.looked.looked := Behind.previous behind
  have stands : r.mark = .token u := by rw [Reader.mark, hr]
  have kind : (Mark.token t).kind? = some t.kind := rfl
  rw [Walk.skip, ok_bind agrees.atEnd, hr, List.isEmpty_cons, if_neg Bool.false_ne_true,
    ok_bind seen, kind]
  by_cases hs : t.kind = .symbol .semicolon
  · rw [if_pos hs, if_pos (beq_iff_eq.mpr (congrArg some hs))]
    rfl
  · rw [if_neg hs, if_neg (mt beq_iff_eq.mp fun same => hs (Option.some.inj same)),
      ok_bind agrees.looked.looked.current, stands]
    have opens : (Mark.token u).opensStatement = Grammar.opensStatement u := rfl
    rw [opens]
    by_cases ho : Grammar.opensStatement u = true
    · rw [if_pos ho, if_pos ho]
      rfl
    · rw [if_neg ho, if_neg ho, ok_bind (agrees.looked.looked.looked.advance hr)]

/-- The cursor skips from one token to the next, up to where the reader resumes. -/
theorem skip_agrees (n : Nat) (agrees : Agrees tokens c r) (behind : Behind t c)
    (enough : r.rest.length < n) :
    ∃ d, Walk.skip n c = .ok () d ∧ Agrees tokens d { r with rest := resumeAfter t r.rest } ∧
      Onward c d ∧ d.attempts = c.attempts := by
  induction n generalizing c r t with
  | zero => exact absurd enough (Nat.not_lt_zero _)
  | succ n ih =>
    obtain ⟨rest, endLine, reports, loops⟩ := r
    cases rest with
    | nil => exact ⟨c.looked, skip_end n agrees rfl, agrees.looked, .looked c, rfl⟩
    | cons u rest =>
      have looks : Onward c c.looked.looked := (Onward.looked c).trans (.looked _)
      rw [skip_next n agrees behind rfl]
      simp only [resumeAfter]
      by_cases hs : t.kind = .symbol .semicolon
      · simp only [if_pos hs, if_pos (Or.inl hs)]
        exact ⟨_, rfl, agrees.looked.looked, looks, rfl⟩
      · by_cases ho : Grammar.opensStatement u = true
        · simp only [if_neg hs, if_pos ho, if_pos (Or.inr ho)]
          exact ⟨_, rfl, agrees.looked.looked.looked, looks.trans (.looked _), rfl⟩
        · simp only [if_neg hs, if_neg ho, if_neg (not_or.mpr ⟨hs, ho⟩)]
          have before := agrees.looked.looked.looked.looked.looked
          obtain ⟨d, skips, agrees', onward, attempts⟩ :=
            ih (before.passed rfl) (before.behind rfl) (Nat.lt_of_succ_lt_succ enough)
          refine ⟨d, skips, agrees', ?_, attempts⟩
          have looks' := looks.trans ((Onward.looked _).trans ((Onward.looked _).trans (.looked _)))
          exact (looks'.trans (.passed _)).trans onward

/-- Behind a complaint the cursor moves on, over one token at least if there is one. -/
theorem synchronize_agrees (agrees : Agrees tokens c r) :
    ∃ d, Walk.synchronize c = .ok () d ∧ Agrees tokens d { r with rest := resume r.rest } ∧
      Onward c d ∧ d.attempts = c.attempts ∧ (r.rest ≠ [] → c.position < d.position) := by
  have looks : Onward c c.looked.looked := (Onward.looked c).trans (.looked _)
  obtain ⟨rest, endLine, reports, loops⟩ := r
  rw [Walk.synchronize]
  cases rest with
  | nil =>
    rw [ok_bind (agrees.advance_end rfl)]
    show ∃ d, Walk.skip c.marks.length c.looked.looked = .ok () d ∧ _
    rw [agrees.length, skip_end _ agrees.looked.looked rfl]
    exact ⟨_, rfl, agrees.looked.looked.looked, looks.trans (.looked _), rfl, absurd rfl⟩
  | cons t rest =>
    have before := agrees.looked.looked
    have enough : rest.length < c.marks.length := by
      have left := congrArg List.length agrees.rest
      rw [List.length_drop, List.length_cons] at left
      rw [agrees.length]
      omega
    obtain ⟨d, skips, agrees', onward, attempts⟩ :=
      skip_agrees c.marks.length (before.passed rfl) (before.behind rfl) enough
    rw [ok_bind (agrees.advance rfl)]
    exact ⟨d, skips, agrees', (looks.trans (.passed _)).trans onward, attempts,
      fun _ => onward.forward⟩

end Walk

end Script
