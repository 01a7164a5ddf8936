import Script.Proofs.Cursor.Agreement
import Script.Proofs.Grammar.Covering
import Script.Proofs.Grammar.Echoed

/-! A walk beside a reading.
The walk ends as the reading does, with the cursor where the reader is, and the cursor only went on
meanwhile. -/
namespace Script.Walk

open Grammar (Reader Reading Stop Anywhere Before stops_append stops_one)

variable {α β : Type} {tokens : List Token} {t : Token} {c d : Cursor} {r : Reader}

/-- How the walk ends that set out from a cursor, and how the reading it goes beside. If `taking` is
set, a result costs a token. -/
inductive Followed (tokens : List Token) (taking inside : Bool) (c : Cursor) :
    EStateM.Result Halt Cursor α → EStateM.Result Stop Reader α → Prop
  | ok {a : α} {d : Cursor} {s : Reader} (agrees : Agrees tokens d s) (moved : Moved inside c d)
    (taken : c.position + taking.toNat ≤ d.position) :
    Followed tokens taking inside c (.ok a d) (.ok a s)
  | complaint {report : Report} {d : Cursor} {s : Reader} (agrees : Agrees tokens d s)
    (moved : Moved inside c d) (isStop : report.isStop = true) :
    Followed tokens taking inside c (.error (.complaint report) d) (.error (.complaint report) s)
  | exhausted {d : Cursor} {s : Reader} :
    Followed tokens taking inside c (.error .exhausted d) (.error .exhausted s)

namespace Followed

variable {x : EStateM.Result Halt Cursor α} {y : EStateM.Result Stop Reader α}
  {taking taking' inside inside' start : Bool}

theorem after (h : Followed tokens taking inside d x y) (moved : Moved start c d)
    (first : inside'.toNat ≤ start.toNat)
    (second : c.position + inside'.toNat ≤ d.position + inside.toNat)
    (taken : c.position + taking'.toNat ≤ d.position + taking.toNat) :
    Followed tokens taking' inside' c x y := by
  cases h with
  | ok agrees moved' taken' =>
    exact .ok agrees (moved.trans moved' first second) (taken.trans taken')
  | complaint agrees moved' isStop =>
    exact .complaint agrees (moved.trans moved' first second) isStop
  | exhausted => exact .exhausted

theorem behind (h : Followed tokens taking inside d x y) (moved : Moved inside c d) :
    Followed tokens taking inside c x y :=
  h.after moved (Nat.le_refl _) (Nat.add_le_add_right moved.forward _)
    (Nat.add_le_add_right moved.forward _)

theorem looked (h : Followed tokens taking inside c.looked x y) :
    Followed tokens taking inside c x y := h.behind (.looked c)

theorem behind_passed (h : Followed tokens taking inside d x y) (moved : Moved true c d)
    (passed : c.position < d.position) : Followed tokens taking' inside' c x y := by
  have := Bool.toNat_le taking'
  have := Bool.toNat_le inside'
  apply h.after moved
  · exact Bool.toNat_le inside'
  · omega
  · omega

end Followed

/-- The walk does what the reading does, wherever the tokens are as `pre` says. -/
def FollowsOn (pre : List Token → Prop) (taking inside : Bool) (x : Walk α) (y : Reading α) : Prop :=
  ∀ tokens c r, pre r.rest → Agrees tokens c r → Followed tokens taking inside c (x c) (y r)

abbrev Follows (taking inside : Bool) (x : Walk α) (y : Reading α) : Prop :=
  FollowsOn Anywhere taking inside x y

def Sees (x : Walk β) (y : Reading β) : Prop :=
  ∀ tokens c r, Agrees tokens c r → ∃ b, x c = .ok b c.looked ∧ y r = .ok b r

theorem atEnd_sees : Sees Walk.atEnd Grammar.atEnd := fun _ _ _ h => ⟨_, h.atEnd, rfl⟩

theorem at_sees (kind : Kind) : Sees (Walk.at_ kind) (Grammar.at_ kind) :=
  fun _ _ _ h => ⟨_, h.at_ kind, rfl⟩

theorem nameFollows_sees : Sees Walk.nameFollows Grammar.nameFollows := by
  intro tokens c r h
  refine ⟨_, ?_, rfl⟩
  rw [Walk.nameFollows, ok_bind h.ahead, Reader.mark]
  cases r.rest with
  | nil => rfl
  | cons t rest => cases rest <;> rfl

namespace FollowsOn

variable {pre : List Token → Prop} {taking taking' inside inside' : Bool} {kind : Kind}
  {x : Walk α} {y : Reading α}

theorem within (h : Follows taking inside x y) : FollowsOn pre taking inside x y :=
  fun tokens c r _ agrees => h tokens c r trivial agrees

theorem lessen (h : FollowsOn pre true inside x y) : FollowsOn pre taking inside x y := by
  intro tokens c r hp agrees
  apply (h tokens c r hp agrees).after (.refl c) (Nat.le_refl _) (Nat.le_refl _)
  exact Nat.add_le_add_left (Bool.toNat_le taking) _

theorem outside (h : FollowsOn pre taking true x y) : FollowsOn pre taking inside x y := by
  intro tokens c r hp agrees
  apply (h tokens c r hp agrees).after (.refl c) (Nat.le_refl _) _ (Nat.le_refl _)
  exact Nat.add_le_add_left (Bool.toNat_le inside) _

theorem exhaust : FollowsOn pre taking inside (Walk.halt .exhausted : Walk α) Grammar.exhaust :=
  fun _ _ _ _ _ => .exhausted

theorem pure (a : α) : FollowsOn pre false true (Pure.pure a) (Pure.pure a) :=
  fun _ c _ _ agrees => .ok agrees (.refl c) (Nat.le_refl _)

theorem raise (missing : Missing) :
    FollowsOn pre taking inside (Walk.raise missing : Walk α) (Grammar.stop missing) := by
  intro tokens c r _ agrees
  have stopped : (Walk.raise missing : Walk α) c
      = .error (.complaint (r.report (.expected missing))) c.looked := by
    rw [Walk.raise, ok_bind agrees.current, mark_report]
    rfl
  rw [stopped]
  exact .complaint agrees.looked (.looked c) (Grammar.report_isStop r missing)

/-- What follows on a reading that took a token has no need to take any. -/
theorem bind {f : α → Walk β} {g : α → Reading β} (h : FollowsOn pre true inside x y)
    (hf : ∀ a, Follows taking' inside' (f a) (g a)) :
    FollowsOn pre true inside (x >>= f) (y >>= g) := by
  intro tokens c r hp agrees
  have first := h tokens c r hp agrees
  simp only [Bind.bind, EStateM.bind]
  generalize x c = walked, y r = read at first ⊢
  cases first with
  | @ok a d s agrees moved taken =>
    have := Bool.toNat_le inside
    apply (hf a tokens d s trivial agrees).after moved (Nat.le_refl _)
    · rw [Bool.toNat_true] at taken
      omega
    · exact taken.trans (Nat.le_add_right _ _)
  | complaint agrees moved isStop => exact .complaint agrees moved isStop
  | exhausted => exact .exhausted

/-- Behind a reading that may take nothing, within which no declaration begins at the first place. -/
theorem andThen {f : α → Walk β} {g : α → Reading β} (h : FollowsOn pre false true x y)
    (hf : ∀ a, Follows taking inside (f a) (g a)) :
    FollowsOn pre taking inside (x >>= f) (y >>= g) := by
  intro tokens c r hp agrees
  have first := h tokens c r hp agrees
  simp only [Bind.bind, EStateM.bind]
  generalize x c = walked, y r = read at first ⊢
  cases first with
  | @ok a d s agrees moved taken =>
    apply (hf a tokens d s trivial agrees).after moved (Bool.toNat_le inside)
    · exact Nat.add_le_add_right moved.forward _
    · exact Nat.add_le_add_right moved.forward _
  | complaint agrees moved isStop =>
    apply Followed.complaint agrees _ isStop
    exact moved.trans (.refl _) (Bool.toNat_le inside) (Nat.add_le_add_right moved.forward _)
  | exhausted => exact .exhausted

theorem last (f : α → β) (h : FollowsOn pre taking inside x y) :
    FollowsOn pre taking inside (x >>= fun a => Pure.pure (f a))
      (y >>= fun a => Pure.pure (f a)) := by
  intro tokens c r hp agrees
  have ended := h tokens c r hp agrees
  simp only [Bind.bind, EStateM.bind]
  generalize x c = walked, y r = read at ended ⊢
  cases ended with
  | ok agrees moved taken => exact .ok agrees moved taken
  | complaint agrees moved isStop => exact .complaint agrees moved isStop
  | exhausted => exact .exhausted

theorem map (f : α → β) (h : FollowsOn pre taking inside x y) :
    FollowsOn pre taking inside (f <$> x) (f <$> y) := h.last f

theorem looking {z : Walk β} {z' : Reading β} {f : β → Walk α} {g : β → Reading α}
    (sees : Sees z z') (hf : ∀ b, FollowsOn pre taking inside (f b) (g b)) :
    FollowsOn pre taking inside (z >>= f) (z' >>= g) := by
  intro tokens c r hp agrees
  obtain ⟨b, walked, read⟩ := sees tokens c r agrees
  rw [ok_bind walked, ok_bind read]
  exact (hf b tokens c.looked r hp agrees.looked).looked

theorem atEnd_bind {f : Bool → Walk α} {g : Bool → Reading α}
    (yes : Follows taking inside (f true) (g true))
    (no : ∀ t, FollowsOn (Before t) taking inside (f false) (g false)) :
    Follows taking inside (Walk.atEnd >>= f) (Grammar.atEnd >>= g) := by
  intro tokens c r _ agrees
  have read : Grammar.atEnd r = .ok r.rest.isEmpty r := rfl
  rw [ok_bind agrees.atEnd, ok_bind read]
  apply Followed.looked
  cases hr : r.rest with
  | nil => exact yes tokens c.looked r trivial agrees.looked
  | cons t rest => exact no t tokens c.looked r (congrArg List.head? hr) agrees.looked

theorem at_bind {f : Bool → Walk α} {g : Bool → Reading α}
    (yes : ∀ t, t.kind = kind → FollowsOn (Before t) taking inside (f true) (g true))
    (no : Follows taking inside (f false) (g false)) :
    Follows taking inside (Walk.at_ kind >>= f) (Grammar.at_ kind >>= g) := by
  intro tokens c r _ agrees
  have read : Grammar.at_ kind r = .ok (r.leads kind) r := rfl
  rw [ok_bind (agrees.at_ kind), ok_bind read]
  apply Followed.looked
  cases leads : r.leads kind with
  | false => exact no tokens c.looked r trivial agrees.looked
  | true =>
    obtain ⟨t, ht, hk⟩ := Grammar.Covers.before_of_leads leads
    exact yes t hk tokens c.looked r ht agrees.looked

theorem peek_bind {f : Option Token → Walk α} {g : Option Token → Reading α}
    (none : Follows taking inside (f none) (g none))
    (some : ∀ t, FollowsOn (Before t) taking inside (f (some t)) (g (some t))) :
    Follows taking inside (Walk.peek >>= f) (Grammar.peek >>= g) := by
  intro tokens c r _ agrees
  have read : Grammar.peek r = .ok r.rest.head? r := rfl
  have walked : Walk.peek c = .ok r.rest.head? c.looked := by
    rw [Walk.peek, ok_bind agrees.current, mark_token]
    rfl
  rw [ok_bind walked, ok_bind read]
  apply Followed.looked
  cases hr : r.rest with
  | nil => exact none tokens c.looked r trivial agrees.looked
  | cons t rest => exact some t tokens c.looked r (congrArg List.head? hr) agrees.looked

theorem loopsAround_bind {f : Nat → Walk α} {g : Nat → Reading α}
    (h : ∀ n, FollowsOn pre taking inside (f n) (g n)) :
    FollowsOn pre taking inside (Walk.loopsAround >>= f) (Grammar.loopsAround >>= g) := by
  intro tokens c r hp agrees
  show Followed tokens taking inside c (f c.loops c) (g r.loops r)
  rw [agrees.loops]
  exact h r.loops tokens c r hp agrees

theorem passing (h : Follows taking inside x y) (agrees : Agrees tokens c r) {rest : List Token}
    (hr : r.rest = t :: rest) :
    Followed tokens taking' inside' c (x c.passed) (y { r with rest := rest }) :=
  (h tokens c.passed _ trivial (agrees.passed hr)).behind_passed (.passed c) (Nat.lt_succ_self _)

theorem pass_bind {f : Unit → Walk α} {g : Unit → Reading α}
    (h : Follows taking inside (f ()) (g ())) :
    FollowsOn (Before t) taking' inside' (Walk.pass >>= f) (Grammar.advance >>= g) := by
  intro tokens c r ht agrees
  obtain ⟨rest, hr⟩ := List.head?_eq_some_iff.mp ht
  have read : Grammar.advance r = .ok () { r with rest := rest } := by
    rw [Grammar.advance, hr]
    rfl
  have walked : Walk.pass c = .ok () c.looked.looked.passed := by
    rw [Walk.pass, ok_bind (agrees.advance hr)]
    rfl
  rw [ok_bind walked, ok_bind read]
  exact (h.passing agrees.looked.looked hr).looked.looked

/-- The token that was passed is what stands in front of the place then. -/
theorem pass_line_bind {f : Nat → Walk α} {g : Nat → Reading α}
    (h : Follows taking inside (f t.line) (g t.line)) :
    FollowsOn (Before t) taking' inside' (Walk.pass >>= fun _ => Walk.passedLine >>= f)
      (Grammar.advance >>= fun _ => Pure.pure t.line >>= g) := by
  intro tokens c r ht agrees
  obtain ⟨rest, hr⟩ := List.head?_eq_some_iff.mp ht
  have read : Grammar.advance r = .ok () { r with rest := rest } := by
    rw [Grammar.advance, hr]
    rfl
  have walked : Walk.pass c = .ok () c.looked.looked.passed := by
    rw [Walk.pass, ok_bind (agrees.advance hr)]
    rfl
  have passed := agrees.looked.looked.passed hr
  have line : Walk.passedLine c.looked.looked.passed
      = .ok t.line c.looked.looked.passed.looked := by
    rw [Walk.passedLine, ok_bind (agrees.looked.looked.behind hr).previous]
    rfl
  rw [ok_bind walked, ok_bind read, ok_bind line]
  have next := (h tokens _ _ trivial passed.looked).looked
  exact (next.behind_passed (.passed c.looked.looked) (Nat.lt_succ_self _)).looked.looked

theorem accept_bind {f : Bool → Walk α} {g : Bool → Reading α}
    (yes : Follows taking' inside' (f true) (g true))
    (no : Follows taking inside (f false) (g false)) :
    Follows taking inside (Walk.accept kind >>= f) (Grammar.accept kind >>= g) := by
  intro tokens c r _ agrees
  cases leads : r.leads kind with
  | false =>
    have read : Grammar.accept kind r = .ok false r := by
      rw [Grammar.accept, leads, if_neg Bool.false_ne_true]
    rw [ok_bind (agrees.accept_no leads), ok_bind read]
    exact (no tokens c.looked r trivial agrees.looked).looked
  | true =>
    obtain ⟨t, ht, -⟩ := Grammar.Covers.before_of_leads leads
    obtain ⟨rest, hr⟩ := List.head?_eq_some_iff.mp ht
    have read : Grammar.accept kind r = .ok true { r with rest := rest } := by
      rw [Grammar.accept, leads, if_pos rfl, hr, List.tail_cons]
    rw [ok_bind (agrees.accept leads hr), ok_bind read]
    exact (yes.passing agrees.looked.looked.looked hr).looked.looked.looked

theorem acceptMeaning_bind {meaning : Kind → Option β} {f : Option (β × Nat) → Walk α}
    {g : Option (β × Nat) → Reading α}
    (known : ∀ b line, Follows taking' inside' (f (some (b, line))) (g (some (b, line))))
    (unknown : Follows taking inside (f none) (g none)) :
    Follows taking inside (Walk.acceptMeaning meaning >>= f)
      (Grammar.acceptMeaning meaning >>= g) := by
  intro tokens c r _ agrees
  cases found : r.mark.kind?.bind meaning with
  | none =>
    have walked : Walk.acceptMeaning meaning c = .ok none c.looked := by
      rw [Walk.acceptMeaning, ok_bind agrees.current, found]
      rfl
    have read : Grammar.acceptMeaning meaning r = .ok none r := by
      cases hr : r.rest with
      | nil => simp only [Grammar.acceptMeaning, hr]
      | cons t rest =>
        rw [Reader.mark, hr] at found
        have unknown : meaning t.kind = none := found
        simp only [Grammar.acceptMeaning, hr, unknown]
    rw [ok_bind walked, ok_bind read]
    exact (unknown tokens c.looked r trivial agrees.looked).looked
  | some b =>
    have walked {t : Token} {rest : List Token} (hr : r.rest = t :: rest) :
        Walk.acceptMeaning meaning c = .ok (some (b, t.line)) c.looked.looked.looked.passed := by
      rw [Walk.acceptMeaning, ok_bind agrees.current, found]
      show (Walk.advance >>= fun m => Pure.pure (some (b, m.line))) c.looked = _
      rw [ok_bind (agrees.looked.advance hr)]
      rfl
    rw [Reader.mark] at found
    cases hr : r.rest with
    | nil =>
      rw [hr] at found
      cases found
    | cons t rest =>
      rw [hr] at found
      have read : Grammar.acceptMeaning meaning r
          = .ok (some (b, t.line)) { r with rest := rest } := by
        have known : meaning t.kind = some b := found
        simp only [Grammar.acceptMeaning, hr, known]
      rw [ok_bind (walked hr), ok_bind read]
      exact ((known b t.line).passing agrees.looked.looked.looked hr).looked.looked.looked

theorem take (missing : Missing) (value : Mark → α) :
    FollowsOn pre true true
      (Walk.at_ kind >>= fun b => if b then Walk.advance >>= fun m => Pure.pure (value m)
        else Walk.raise missing)
      (fun r => match r.rest with
        | t :: rest =>
          if t.kind = kind then .ok (value (.token t)) { r with rest := rest }
          else Grammar.stop missing r
        | [] => Grammar.stop missing r) := by
  intro tokens c r _ agrees
  have stops : Follows true true (Walk.raise missing : Walk α) (Grammar.stop missing) :=
    raise missing
  have stopped := stops tokens c.looked r trivial agrees.looked
  rw [ok_bind (agrees.at_ kind), Reader.leads]
  apply Followed.looked
  obtain ⟨rest, endLine, reports, loops⟩ := r
  cases rest with
  | nil => exact stopped
  | cons t rest =>
    by_cases hk : t.kind = kind
    · have passed := agrees.looked.advance rfl
      simp only [beq_iff_eq.mpr hk, if_pos hk, if_true]
      rw [ok_bind passed]
      apply Followed.looked
      apply Followed.looked
      exact .ok (agrees.looked.looked.looked.passed rfl) (.passed _)
        (Nat.le_of_eq rfl)
    · simp only [beq_eq_false_iff_ne.mpr hk, if_neg hk]
      exact stopped

theorem expect {symbol : Symbol} {landmark : Landmark} :
    FollowsOn pre true true (Walk.expect symbol landmark) (Grammar.expect symbol landmark) :=
  take (.symbol symbol landmark) Mark.line

theorem expectName {missing : Missing} :
    FollowsOn pre true true (Walk.expectName missing) (Grammar.expectName missing) :=
  take missing fun m => (⟨m.lexeme, m.line⟩ : Name)

theorem note {report : Report} (h : report.isStop = false) :
    FollowsOn pre false true (Walk.note report) (Grammar.note report) := by
  intro tokens c r _ agrees
  apply Followed.ok (agrees.noted report) _ (Nat.le_refl _)
  exact .of_onward (.of_same rfl rfl) rfl (Grammar.stops_noted h _)

theorem noteHere {complaint : Complaint} (h : ∀ missing, complaint ≠ .expected missing) :
    FollowsOn pre false true (Walk.noteHere complaint) (Grammar.noteHere complaint) := by
  intro tokens c r hp agrees
  rw [Walk.noteHere, ok_bind agrees.current, mark_report]
  apply Followed.looked
  exact note (Grammar.report_isNote h r) tokens c.looked r hp agrees.looked

/-- A complaint under some condition, in front of what is read in any case. -/
theorem noteIf {p : Prop} [Decidable p] {z : Walk Unit} {z' : Reading Unit}
    (hz : Follows false true z z') (h : Follows taking inside x y) :
    Follows taking inside (if p then z >>= fun _ => x else x)
      (if p then z' >>= fun _ => y else y) := by
  split
  · exact hz.andThen fun _ => h
  · exact h

theorem unlessAt (h : Follows true true x y) :
    Follows false true (Rules.unlessAt kind x) (Grammar.unlessAt kind y) :=
  at_bind (fun _ _ => pure none) (h.map some).lessen

theorem withLoops {change : Nat → Nat} (h : FollowsOn pre taking inside x y) :
    FollowsOn pre taking inside (Walk.withLoops change x) (Grammar.withLoops change y) := by
  intro tokens c r hp agrees
  have inner := h tokens { c with loops := change c.loops } { r with loops := change r.loops } hp
    (agrees.around (congrArg change agrees.loops))
  simp only [Walk.withLoops, Grammar.withLoops]
  generalize x _ = walked, y _ = read at inner ⊢
  cases inner with
  | ok agrees' moved taken =>
    exact .ok (agrees'.around agrees.loops) ⟨⟨moved.forward, moved.trail⟩, moved.attempts⟩ taken
  | complaint agrees' moved isStop =>
    exact .complaint (agrees'.around agrees.loops) ⟨⟨moved.forward, moved.trail⟩, moved.attempts⟩
      isStop
  | exhausted => exact .exhausted

end FollowsOn

/-- A declaration takes a token however it ends, since what follows on a complaint passes one. -/
theorem FollowsOn.attempt {x : Walk α} {y : Reading α} (h : Follows true true x y) :
    FollowsOn (Before t) true false (Walk.attempt x) (Grammar.recovering y) := by
  intro tokens c r ht agrees
  have ended := h tokens c r trivial agrees
  simp only [Walk.attempt, Grammar.recovering]
  generalize x c = walked, y r = read at ended ⊢
  cases ended with
  | @ok a d s agrees' moved taken =>
    refine .ok (agrees'.attempted c.position none) ?_ taken
    apply moved.attempted (.of_same rfl rfl) taken rfl
    rw [Option.toList_none, List.append_nil]
  | @complaint report d s agrees' moved isStop =>
    obtain ⟨e, synchronized, agreed, onward, attempts, further⟩ :=
      synchronize_agrees (agrees'.noted report)
    have goes : (Walk.note report >>= fun _ => Walk.synchronize) d = .ok () e := synchronized
    have taken : c.position < e.position := by
      obtain ⟨rest, hr⟩ := List.head?_eq_some_iff.mp ht
      by_cases last : s.rest = []
      · exact ((agrees.before_end hr).trans_eq (agrees'.at_end last).symm).trans_le onward.forward
      · exact moved.forward.trans_lt (further last)
    simp only [goes]
    refine .ok (agreed.attempted c.position (some report)) ?_ taken
    apply moved.attempted ⟨onward.forward, onward.trail⟩ taken attempts
    rw [agreed.reports, agrees'.reports, stops_append, stops_one isStop]
    rfl
  | exhausted => exact .exhausted

end Script.Walk
